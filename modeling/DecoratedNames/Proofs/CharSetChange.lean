import DecoratedNames.Proofs.ConstSuffix
import DecoratedNames.Proofs.PrefixCodes

namespace DecoratedNames

namespace Text

/-- A text with every occurrence of a pattern replaced, from the left and without overlaps. The
pattern is not empty. -/
def replaceAll (pattern replacement : List Char) : List Char → List Char
  | [] => []
  | c :: text =>
      if pattern.isPrefixOf (c :: text) then
        replacement ++ replaceAll pattern replacement (text.drop (pattern.length - 1))
      else c :: replaceAll pattern replacement text
termination_by text => text.length
decreasing_by
  · simp only [List.length_drop, List.length_cons]
    omega
  · simp

def replace (pattern replacement text : String) : String :=
  String.ofList (replaceAll pattern.toList replacement.toList text.toList)

example : replace "_W" "D" "_J_W__WW" = "_JD_DW" := by cbv

theorem replaceAll_append_of_not_mem {first : Char} {rest replacement text : List Char}
    (tail : List Char) (h : first ∉ text) :
    replaceAll (first :: rest) replacement (text ++ tail) =
      text ++ replaceAll (first :: rest) replacement tail := by
  induction text with
  | nil => rfl
  | cons c text ih =>
      simp only [List.mem_cons, not_or] at h
      rw [List.cons_append, replaceAll, if_neg (by simp [h.1]), ih h.2]
      rfl

theorem replace_append_of_not_mem {pattern text : String} {first : Char} {rest : List Char}
    (replacement tail : String) (hpattern : pattern.toList = first :: rest)
    (h : first ∉ text.toList) :
    replace pattern replacement (text ++ tail) = text ++ replace pattern replacement tail := by
  apply String.toList_inj.mp
  simp [replace, hpattern, replaceAll_append_of_not_mem _ h]

end Text

namespace NativeType

def recode (first second : CharSet) (text : List Char) : List Char :=
  Text.replaceAll first.charCode.toList second.charCode.toList text

variable {first second : CharSet}

theorem recode_charCode (rest : List Char) :
    recode first second (first.charCode.toList ++ rest) =
      second.charCode.toList ++ recode first second rest := by
  cases first <;> simp [recode, CharSet.charCode, Text.replaceAll]

theorem recode_cons {c : Char} (h : c ≠ 'D') (h' : c ≠ '_') (rest : List Char) :
    recode first second (c :: rest) = c :: recode first second rest := by
  cases first with
  | narrow => simp [recode, CharSet.charCode, Text.replaceAll, h.symm]
  | wide => simp [recode, CharSet.charCode, Text.replaceAll, h'.symm]

theorem recode_underscore {c : Char} (h : c ≠ 'D') (h' : c ≠ '_') (h'' : c ≠ 'W')
    (rest : List Char) :
    recode first second ('_' :: c :: rest) = '_' :: c :: recode first second rest := by
  rw [← recode_cons h h']
  cases first <;> simp [recode, CharSet.charCode, Text.replaceAll, h''.symm]

/-- The code of a character stands in the codes of characters and strings only. -/
theorem recode_code {native : NativeType} (h : native ≠ wideChar) (rest : List Char) :
    recode first second ((native.code first).toList ++ rest) =
      (native.code second).toList ++ recode first second rest := by
  cases native with
  | wideChar => exact absurd rfl h
  | char => exact recode_charCode rest
  | stringPointer => simp [code, recode_cons, recode_charCode]
  | int64 | uint64 => simp [code, recode_underscore]
  | _ => simp [code, recode_cons]

theorem recode_codesText {natives : List NativeType} (h : wideChar ∉ natives) (rest : List Char) :
    recode first second (codesText first natives ++ rest) =
      codesText second natives ++ recode first second rest := by
  induction natives with
  | nil => rfl
  | cons native natives ih =>
      simp only [List.mem_cons, not_or] at h
      simp only [codesText, List.flatMap_cons, List.append_assoc]
      rw [recode_code (Ne.symm h.1)]
      exact congrArg _ (ih h.2)

theorem recode_parameterText {natives : List NativeType} (h : wideChar ∉ natives)
    (rest : List Char) :
    recode first second ((parameterText first natives).toList ++ rest) =
      (parameterText second natives).toList ++ recode first second rest := by
  cases natives with
  | nil => exact recode_code (by decide) rest
  | cons native natives =>
      simp only [parameterText_cons, List.append_assoc, List.singleton_append]
      rw [recode_codesText h, recode_cons (by decide) (by decide)]

end NativeType

open NativeType in
theorem NativeSignature.recode_text {signature : NativeSignature} {first second : CharSet}
    (h : wideChar ∉ signature.natives) :
    recode first second (signature.text first).toList = (signature.text second).toList := by
  have hend : recode first second "Z".toList = "Z".toList := by
    change recode first second ['Z'] = ['Z']
    rw [recode_cons (by decide) (by decide), recode, Text.replaceAll]
  simp only [natives, List.mem_cons, not_or] at h
  simp only [text, String.toList_append, List.append_assoc]
  rw [recode_code (Ne.symm h.1), recode_parameterText h.2, hend]

theorem NativeSignature.text_eq_replace {signature : NativeSignature}
    (h : NativeType.wideChar ∉ signature.natives) (first second : CharSet) :
    signature.text second =
      Text.replace first.charCode second.charCode (signature.text first) := by
  apply String.toList_inj.mp
  rw [Text.replace, String.toList_ofList]
  exact (recode_text h).symm

namespace Method

def opening (method : Method) : String :=
  "?" ++ method.qualifiedName ++ "@@" ++ method.accessCode ++ "A"

variable {method : Method}

theorem decoratedName_of_error {error : Error} (h : method.nativeSignature = .error error)
    (charSet : CharSet) : method.decoratedName charSet = .error error := by
  rw [decoratedName_eq, h]
  rfl

theorem decoratedName_of_signature {signature : NativeSignature}
    (h : method.nativeSignature = .ok signature) (charSet : CharSet) :
    method.decoratedName charSet = .ok ⟨method.opening ++ signature.text charSet⟩ := by
  rw [decoratedName_eq, h]
  rfl

theorem narrowCode_not_mem_opening (h : 'D' ∉ method.qualifiedName.toList) :
    'D' ∉ method.opening.toList := by
  have hcodes : ∀ code ∈ FunctionKind.accessCodes, 'D' ∉ code.toList := by decide
  have haccess : 'D' ∉ method.accessCode.toList := hcodes _ (FunctionKind.accessCode_mem _ _)
  simp [opening, h, haccess]

/-- The narrow and the wide name of a method are refused alike, or they open alike and, behind the
opening, replacing the code of a character turns each of them into the other. -/
theorem decoratedName_other_charSet (method : Method) :
    (∃ error, method.decoratedName .narrow = .error error ∧
        method.decoratedName .wide = .error error) ∨
      ∃ narrow wide : String,
        method.decoratedName .narrow =
            .ok ⟨"?" ++ method.qualifiedName ++ "@@" ++ method.accessCode ++ "A" ++ narrow⟩ ∧
        method.decoratedName .wide =
            .ok ⟨"?" ++ method.qualifiedName ++ "@@" ++ method.accessCode ++ "A" ++ wide⟩ ∧
        wide = Text.replace "D" "_W" narrow ∧
        narrow = Text.replace "_W" "D" wide ∧
        ('D' ∉ method.qualifiedName.toList →
          method.decoratedName .wide = (method.decoratedName .narrow).map fun name =>
            ⟨Text.replace "D" "_W" name.text⟩) := by
  cases hsignature : method.nativeSignature with
  | error error =>
      exact Or.inl ⟨error, decoratedName_of_error hsignature _, decoratedName_of_error hsignature _⟩
  | ok signature =>
      have hname := decoratedName_of_signature hsignature
      have hreplace := NativeSignature.text_eq_replace
        (HostType.wideChar_not_mem (nativeSignature_eq_ok_iff.mp hsignature))
      refine Or.inr ⟨signature.text .narrow, signature.text .wide, hname .narrow, hname .wide,
        hreplace .narrow .wide, hreplace .wide .narrow, ?_⟩
      intro hqualified
      have hwhole : Text.replace "D" "_W" (method.opening ++ signature.text .narrow) =
          method.opening ++ Text.replace "D" "_W" (signature.text .narrow) :=
        Text.replace_append_of_not_mem _ _ rfl (narrowCode_not_mem_opening hqualified)
      rw [hname .wide, hname .narrow, hreplace .narrow .wide, Except.map, hwhole]
      rfl

def put : Method :=
  { name := "Put", owner := "Console", returnType := .primitive .char,
    parameters := [.primitive .char, .primitive .int32, .primitive .string],
    kind := .staticMember }

theorem put_widened :
    'D' ∉ put.qualifiedName.toList ∧
      put.decoratedName .narrow = .ok ⟨"?Put@Console@@SADDHPEBD@Z"⟩ ∧
      put.decoratedName .wide = .ok ⟨"?Put@Console@@SA_W_WHPEB_W@Z"⟩ ∧
      put.decoratedName .wide = (put.decoratedName .narrow).map fun name =>
        ⟨Text.replace "D" "_W" name.text⟩ := by
  have hqualified : 'D' ∉ put.qualifiedName.toList := by decide
  refine ⟨hqualified, by decide, by decide, ?_⟩
  rcases decoratedName_other_charSet put with ⟨error, herror, -⟩ | ⟨_, _, -, -, -, -, hname⟩
  · cases herror
  · exact hname hqualified

end Method

end DecoratedNames
