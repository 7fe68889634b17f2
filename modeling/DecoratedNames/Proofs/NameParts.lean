import DecoratedNames.Proofs.NameInjectivity

namespace DecoratedNames

namespace Method

variable {method : Method} {charSet : CharSet}

theorem fragments_reverse (method : Method) :
    method.fragments.reverse =
      method.scope.segments ++ (if method.kind = .free then [] else [method.owner]) ++
        [method.nativeName] := by
  unfold fragments enclosing
  cases method.kind <;> simp

theorem fragments_separable (h : method.Separable) : ∀ f ∈ method.fragments, '@' ∉ f.toList := by
  intro f hf
  rcases List.mem_cons.mp hf with rfl | hf
  · exact nativeName_separable h
  · exact (enclosing_separable h f hf).2

theorem empty_mem_fragments_iff (h : method.Separable) (hname : method.name ≠ "") :
    "" ∈ method.fragments ↔
      method.kind = .virtualMember ∧ method.name = FunctionKind.constSuffix := by
  rw [← FunctionKind.nativeName_eq_empty_iff hname, fragments, List.mem_cons]
  constructor
  · rintro (hempty | hempty)
    · exact hempty.symm
    · exact absurd rfl (enclosing_separable h "" hempty).1
  · exact fun hempty => Or.inl hempty.symm

/-- Behind the question mark even an empty native name leaves no empty piece. -/
theorem pieces_of_fragments (h : method.Separable) :
    ('?' :: method.qualifiedName.toList).splitOn '@' =
      ('?' :: method.nativeName.toList) :: method.enclosing.map String.toList := by
  have htext : '?' :: method.qualifiedName.toList =
      ['@'].intercalate
        (('?' :: method.nativeName.toList) :: method.enclosing.map String.toList) := by
    rw [qualifiedName_eq_intercalate, fragments, String.toList_intercalate, List.map_cons]
    change '?' :: ['@'].intercalate _ = _
    rw [Text.intercalate_cons, Text.intercalate_cons]
    rfl
  rw [htext]
  apply List.splitOn_intercalate
  · intro piece hpiece
    rcases List.mem_cons.mp hpiece with rfl | hpiece
    · simpa using nativeName_separable h
    · rcases List.mem_map.mp hpiece with ⟨f, hf, rfl⟩
      exact (enclosing_separable h f hf).2
  · simp

def codesTail (method : Method) (charSet : CharSet) (signature : NativeSignature) : List Char :=
  method.accessCode.toList ++ 'A' :: (signature.text charSet).toList

/-- The only mark behind the double one ends the parameter list, and `Z` follows it. -/
theorem nil_not_mem_codesTail (method : Method) (charSet : CharSet) (signature : NativeSignature) :
    [] ∉ (method.codesTail charSet signature).splitOn '@' := by
  have hcodes : ∀ code ∈ FunctionKind.accessCodes, '@' ∉ code.toList := by decide
  have haccess : '@' ∉ method.accessCode.toList := hcodes _ (FunctionKind.accessCode_mem _ _)
  have hreturn := signature.returnType.mark_not_mem_code charSet
  rcases signature with ⟨returnType, parameters⟩
  cases parameters with
  | nil =>
      have hmark : '@' ∉ method.codesTail charSet ⟨returnType, []⟩ := by
        simp [codesTail, NativeSignature.text, NativeType.parameterText, haccess, hreturn,
          NativeType.mark_not_mem_code]
      rw [List.splitOn_eq_singleton hmark]
      simp [codesTail]
  | cons native parameters =>
      have htail : method.codesTail charSet ⟨returnType, native :: parameters⟩ =
          (method.accessCode.toList ++ 'A' :: ((returnType.code charSet).toList ++
            NativeType.codesText charSet (native :: parameters))) ++ '@' :: ['Z'] := by
        simp [codesTail, NativeSignature.text, NativeType.parameterText_cons]
      have hmark : '@' ∉ method.accessCode.toList ++ 'A' :: ((returnType.code charSet).toList ++
          NativeType.codesText charSet (native :: parameters)) := by
        simp [haccess, hreturn, NativeType.mark_not_mem_codesText]
      rw [htail, List.splitOn_append_cons_self_of_not_mem hmark]
      simp [List.splitOn_eq_singleton]

theorem nameText_toList_pieces (method : Method) (charSet : CharSet) (signature : NativeSignature) :
    (method.nameText charSet signature).toList =
      ('?' :: method.qualifiedName.toList) ++ '@' :: '@' :: method.codesTail charSet signature := by
  simp [nameText, codesTail]

theorem nameText_double_mark (h : method.Separable) {signature : NativeSignature}
    {before after : String}
    (htext : method.nameText charSet signature = before ++ "@@" ++ after) :
    before = "?" ++ method.qualifiedName := by
  have hbody : [] ∉ ('?' :: method.qualifiedName.toList).splitOn '@' := by
    rw [pieces_of_fragments h]
    intro hmem
    rcases List.mem_cons.mp hmem with hnil | hnil
    · cases hnil
    · rcases List.mem_map.mp hnil with ⟨f, hf, hempty⟩
      exact (enclosing_separable h f hf).1 (String.toList_eq_nil_iff.mp hempty)
  have hlists := String.toList_inj.mpr htext
  rw [nameText_toList_pieces, String.toList_append, String.toList_append, List.append_assoc]
    at hlists
  -- Neither side of the double mark has an empty piece, so no other cut leaves one between pieces.
  have hcut := Text.double_separator_cancel hbody
    (nil_not_mem_codesTail method charSet signature) hlists.symm
  apply String.toList_inj.mp
  rw [hcut.1, String.toList_append]
  rfl

/-- The name of a method whose parts are fragments is made of these fragments, a double mark that
stands nowhere else, an access code and the type codes. The native name alone is an empty fragment
if a virtual member is called by the suffix and nothing in front of it. -/
theorem decoratedName_reads_back {name : DecoratedName} (hname : IsFragment method.name)
    (howner : method.kind ≠ .free → IsFragment method.owner)
    (hscope : ∀ segment ∈ method.scope.segments, IsFragment segment)
    (h : method.decoratedName charSet = .ok name) :
    ∃ (fragments : List String) (native returnCode : String) (codes : List String),
      name.text = "?" ++ "@".intercalate fragments ++ "@@" ++ method.accessCode ++ "A" ++ returnCode
          ++ (if method.encodedParameters = [] then "X" else String.join codes ++ "@") ++ "Z" ∧
      fragments.reverse = method.scope.segments ++
          (if method.kind = .free then [] else [method.owner]) ++ [native] ∧
      method.kind.IsNativeName method.name native ∧
      (∀ fragment ∈ fragments, '@' ∉ fragment.toList) ∧
      ("" ∈ fragments ↔ method.kind = .virtualMember ∧ method.name = "_const") ∧
      (∀ before after : String, name.text = before ++ "@@" ++ after →
        before = "?" ++ "@".intercalate fragments) ∧
      method.accessCode ∈ ["Y", "S", "QEA", "QEB"] ∧
      returnCode ∈ (NativeType.all.map fun native => native.code charSet) ∧
      (method.returnType.typeCode charSet).result = .ok returnCode ∧
      (method.encodedParameters.map fun type => (type.typeCode charSet).result) =
        codes.map Except.ok := by
  have hseparable : method.Separable := ⟨hname.2, howner, hscope⟩
  rcases decoratedName_eq_ok_iff.mp h with ⟨⟨returnType, parameters⟩, hsignature, rfl⟩
  have htypes := HostType.nativeTypes_eq_ok_iff.mp (nativeSignature_eq_ok_iff.mp hsignature)
  rcases List.cons.inj htypes with ⟨hreturn, hparameters⟩
  refine ⟨method.fragments, method.nativeName, returnType.code charSet,
    parameters.map fun native => native.code charSet, ?_, fragments_reverse method,
    FunctionKind.isNativeName_nativeName _ _, fragments_separable hseparable,
    empty_mem_fragments_iff hseparable hname.1, ?_, FunctionKind.accessCode_mem _ _,
    NativeType.code_mem_all returnType charSet, HostType.typeCode_of_hostType? hreturn,
    HostType.map_typeCode_of_hostType? hparameters⟩
  · rw [← qualifiedName_eq_intercalate, ← HostType.parameterText_of_hostType? hparameters]
    simp only [nameText, NativeSignature.text, String.append_assoc]
  · intro before after htext
    rw [← qualifiedName_eq_intercalate]
    exact nameText_double_mark hseparable htext

theorem getter_reads_back :
    IsFragment "get_const" ∧ IsFragment "C" ∧
      (∀ segment ∈ (getter "A._.my.ns" (.classType "C")).scope.segments, IsFragment segment) ∧
      (getter "A._.my.ns" (.classType "C")).decoratedName .wide =
        .ok ⟨"?get@C@ns@my@@QEBA_JPEAH@Z"⟩ ∧
      ∀ before after : String, "?get@C@ns@my@@QEBA_JPEAH@Z" = before ++ "@@" ++ after →
        before = "?get@C@ns@my" := by
  have hname : IsFragment "get_const" := by decide
  have howner : IsFragment "C" := by decide
  have hscope : ∀ segment ∈ (getter "A._.my.ns" (.classType "C")).scope.segments,
      IsFragment segment := by decide
  have hdecorated : (getter "A._.my.ns" (.classType "C")).decoratedName .wide =
      .ok ⟨"?get@C@ns@my@@QEBA_JPEAH@Z"⟩ := by decide
  refine ⟨hname, howner, hscope, hdecorated, ?_⟩
  rcases decoratedName_reads_back hname (fun _ => howner) hscope hdecorated with
    ⟨fragments, native, -, -, -, hreverse, hnative, -, -, hdouble, -⟩
  have hget : native = "get" := by
    rw [FunctionKind.IsNativeName, if_pos (by decide)] at hnative
    have hstem : "get".toList ++ "_const".toList = native.toList ++ "_const".toList := by
      rw [← String.toList_append, ← String.toList_append]
      exact String.toList_inj.mpr hnative
    exact (String.toList_inj.mp (List.append_cancel_right hstem)).symm
  have hfragments : fragments = ["get", "C", "ns", "my"] := by
    rw [← List.reverse_reverse fragments, hreverse, hget]
    rfl
  rw [hfragments] at hdouble
  exact hdouble

def bareSuffix : Method :=
  { name := "_const", owner := "C", kind := .virtualMember }

/-- Behind the question mark a separator stands at once, and no fragment that is not empty. -/
theorem bareSuffix_opens_with_no_fragment :
    IsFragment bareSuffix.name ∧ IsFragment bareSuffix.owner ∧
      (∀ segment ∈ bareSuffix.scope.segments, IsFragment segment) ∧
      bareSuffix.decoratedName .wide = .ok ⟨"?@C@@QEBAXXZ"⟩ ∧
      ¬ ∃ (fragments : List String) (rest : String), fragments ≠ [] ∧
        (∀ fragment ∈ fragments, IsFragment fragment) ∧
        "?@C@@QEBAXXZ" = "?" ++ "@".intercalate fragments ++ "@@" ++ rest := by
  refine ⟨by decide, by decide, by decide, by decide, ?_⟩
  rintro ⟨fragments, rest, hne, hfragments, htext⟩
  cases fragments with
  | nil => exact hne rfl
  | cons first others =>
      have hfirst : IsFragment first := hfragments first (by simp)
      cases hchars : first.toList with
      | nil => exact hfirst.1 (String.toList_eq_nil_iff.mp hchars)
      | cons c cs =>
          have hopens : ("@".intercalate (first :: others)).toList =
              c :: (cs ++ (others.map String.toList).flatMap fun piece => '@' :: piece) := by
            rw [String.toList_intercalate, List.map_cons, hchars]
            exact Text.intercalate_cons _ _
          have hlists := String.toList_inj.mpr htext
          simp only [String.toList_append, hopens] at hlists
          obtain rfl : '@' = c := (List.cons.inj (List.cons.inj hlists).2).1
          exact hfirst.2 (by simp [hchars])

end Method

end DecoratedNames
