import DecoratedNames.Proofs.EncodableTypes
import DecoratedNames.Proofs.NameInjectivity

/-! Written signatures are self-delimiting: whatever text follows the codes of a return type and of
parameters, it tells where they end and which types they stand for. A list without parameters is the
code of `void` alone, and still no other list is taken for it. -/

namespace DecoratedNames

namespace NativeSignature

variable {left right : NativeSignature} {first second : CharSet}

theorem text_append_eq_iff (hleft : NativeType.wideChar ∉ left.natives)
    (hright : NativeType.wideChar ∉ right.natives) (u v : String) :
    left.text first ++ u = right.text second ++ v ↔
      u = v ∧ left = right ∧ NativeType.Agree first second left.natives := by
  constructor
  · intro h
    have htexts : (left.text first).toList ++ u.toList =
        (right.text second).toList ++ v.toList := by
      simpa only [String.toList_append] using congrArg String.toList h
    rcases text_cancel hleft hright htexts with ⟨hsame, hagree, hrest⟩
    exact ⟨String.toList_inj.mp hrest, hsame, hagree⟩
  · rintro ⟨rfl, rfl, hagree⟩
    rw [text_of_agree hagree]

end NativeSignature

namespace HostType

variable {returnType returnType' : HostType} {parameters parameters' : List HostType}
  {signature signature' : NativeSignature} {charSet : CharSet}

theorem exists_signature (h : ∀ type ∈ returnType :: parameters, type.IsEncodable) :
    ∃ signature : NativeSignature,
      nativeTypes (returnType :: parameters) = .ok signature.natives := by
  rcases nativeTypes_of_isEncodable h with ⟨natives, hnatives⟩
  cases natives with
  | nil => cases nativeTypes_eq_ok_iff.mp hnatives
  | cons native natives => exact ⟨⟨native, natives⟩, hnatives⟩

theorem typeCode_of_signature (h : nativeTypes (returnType :: parameters) = .ok signature.natives)
    (charSet : CharSet) :
    (returnType.typeCode charSet).result = .ok (signature.returnType.code charSet) :=
  typeCode_of_hostType? (List.cons.inj (nativeTypes_eq_ok_iff.mp h)).1

theorem parameterCode_eq_ok_iff {codes : String} :
    (parameterCode charSet parameters).result = .ok codes ↔
      ∃ natives, nativeTypes parameters = .ok natives ∧
        codes = NativeType.parameterText charSet natives := by
  rw [parameterCode_result]
  cases nativeTypes parameters <;> simp [Except.map, eq_comm]

theorem parameterCode_of_signature
    (h : nativeTypes (returnType :: parameters) = .ok signature.natives) (charSet : CharSet) :
    (parameterCode charSet parameters).result =
      .ok (NativeType.parameterText charSet signature.parameters) := by
  have hparameters : nativeTypes parameters = .ok signature.parameters :=
    nativeTypes_eq_ok_iff.mpr (List.cons.inj (nativeTypes_eq_ok_iff.mp h)).2
  exact parameterCode_eq_ok_iff.mpr ⟨_, hparameters, rfl⟩

theorem signature_eq_iff (h : nativeTypes (returnType :: parameters) = .ok signature.natives)
    (h' : nativeTypes (returnType' :: parameters') = .ok signature'.natives) :
    signature = signature' ↔ returnType = returnType' ∧ parameters = parameters' := by
  constructor
  · rintro rfl
    exact List.cons.inj (nativeTypes_injective h h')
  · rintro ⟨rfl, rfl⟩
    obtain ⟨hreturn, hparameters⟩ := List.cons.inj (Except.ok.inj (h.symm.trans h'))
    cases signature
    cases signature'
    rw [NativeSignature.mk.injEq]
    exact ⟨hreturn, hparameters⟩

theorem parameterCode_ne_empty {codes : String} (hparameters : parameters ≠ [])
    (h : (parameterCode charSet parameters).result = .ok codes) (u v : String) :
    "X" ++ "Z" ++ u ≠ codes ++ "Z" ++ v := by
  obtain ⟨natives, hnatives, rfl⟩ := parameterCode_eq_ok_iff.mp h
  cases natives with
  | nil =>
      exact absurd (List.map_eq_nil_iff.mp (nativeTypes_eq_ok_iff.mp hnatives).symm) hparameters
  | cons native natives =>
      have hnative : native ≠ NativeType.wideChar := by
        rintro rfl
        exact wideChar_not_mem hnatives List.mem_cons_self
      intro htext
      have htexts : (NativeType.parameterText charSet []).toList ++ 'Z' :: u.toList =
          (NativeType.parameterText charSet (native :: natives)).toList ++ 'Z' :: v.toList := by
        change "X".toList ++ 'Z' :: u.toList = _
        simpa using congrArg String.toList htext
      exact NativeType.parameterText_nil_ne hnative htexts

/-- The emptiness that is tested is that of the codes, but no code is empty. -/
theorem parameterCode_eq_void_iff :
    (parameterCode charSet parameters).result = .ok "X" ↔ parameters = [] := by
  constructor
  · intro h
    by_contra hparameters
    exact parameterCode_ne_empty hparameters h "" "" rfl
  · rintro rfl
    rfl

/-- The codes of encodable types, in front of the last letter and any text, are equal exactly if the
types and the texts are, and either the character sets are the same or no type depends on them. Only
the empty parameter list is the code of `void` alone; every other list is told from it by what
follows that code. -/
theorem signature_self_delimiting
    (h : ∀ type ∈ returnType :: parameters, type.IsEncodable)
    (h' : ∀ type ∈ returnType' :: parameters', type.IsEncodable) (first second : CharSet) :
    (∃ returnCode codes returnCode' codes' : String,
        (returnType.typeCode first).result = .ok returnCode ∧
        (parameterCode first parameters).result = .ok codes ∧
        (returnType'.typeCode second).result = .ok returnCode' ∧
        (parameterCode second parameters').result = .ok codes' ∧
        ∀ u v : String, returnCode ++ codes ++ "Z" ++ u = returnCode' ++ codes' ++ "Z" ++ v ↔
          u = v ∧ returnType = returnType' ∧ parameters = parameters' ∧
            (first = second ∨ ∀ type ∈ returnType :: parameters, ¬ type.FollowsCharSet)) ∧
      (∀ types, (parameterCode first types).result = .ok "X" ↔ types = []) ∧
      (parameterCode first [.primitive .void]).result = .ok "X@" ∧
      ∀ (types : List HostType) (codes : String), types ≠ [] →
        (parameterCode second types).result = .ok codes →
        ∀ u v : String, "X" ++ "Z" ++ u ≠ codes ++ "Z" ++ v := by
  refine ⟨?_, fun _ => parameterCode_eq_void_iff, rfl, fun _ _ => parameterCode_ne_empty⟩
  obtain ⟨left, hleft⟩ := exists_signature h
  obtain ⟨right, hright⟩ := exists_signature h'
  refine ⟨_, _, _, _, typeCode_of_signature hleft first, parameterCode_of_signature hleft first,
    typeCode_of_signature hright second, parameterCode_of_signature hright second, ?_⟩
  intro u v
  calc
    left.text first ++ u = right.text second ++ v ↔
        u = v ∧ left = right ∧ NativeType.Agree first second left.natives :=
      NativeSignature.text_append_eq_iff (wideChar_not_mem hleft) (wideChar_not_mem hright) u v
    _ ↔ _ := by rw [signature_eq_iff hleft hright, agree_iff hleft, and_assoc]

theorem void_list_told_from_empty :
    (∀ type ∈ [HostType.primitive .string], type.IsEncodable) ∧
      (∀ type ∈ [HostType.primitive .string, .primitive .void], type.IsEncodable) ∧
      ((HostType.primitive .string).typeCode .narrow).result = .ok "PEBD" ∧
      (parameterCode .narrow []).result = .ok "X" ∧
      (parameterCode .narrow [.primitive .void]).result = .ok "X@" ∧
      ∀ u v : String, "PEBD" ++ "X" ++ "Z" ++ u ≠ "PEBD" ++ "X@" ++ "Z" ++ v := by
  have hempty : ∀ type ∈ [HostType.primitive .string], type.IsEncodable := by decide
  have hvoid : ∀ type ∈ [HostType.primitive .string, .primitive .void], type.IsEncodable := by
    decide
  have hstring : ((HostType.primitive .string).typeCode .narrow).result = .ok "PEBD" := rfl
  obtain ⟨⟨_, _, _, _, hleft, hnone, hright, hone, hcut⟩, hnothing, hsingle, -⟩ :=
    signature_self_delimiting hempty hvoid .narrow .narrow
  have hx := (hnothing []).mpr rfl
  obtain rfl := Except.ok.inj (hleft.symm.trans hstring)
  obtain rfl := Except.ok.inj (hright.symm.trans hstring)
  obtain rfl := Except.ok.inj (hnone.symm.trans hx)
  obtain rfl := Except.ok.inj (hone.symm.trans hsingle)
  refine ⟨hempty, hvoid, hstring, hx, hsingle, ?_⟩
  intro u v htext
  cases ((hcut u v).mp htext).2.2.1

end HostType

end DecoratedNames
