import DecoratedNames.Proofs.NativeSignature

/-! No type code starts another one, also between the two character sets. A written signature is
therefore cut into its codes in one way only, whatever text follows it. -/

namespace DecoratedNames

namespace NativeType

def FollowsCharSet (native : NativeType) : Prop :=
  native = char ∨ native = stringPointer

/-- Two character sets give all of these native types the same codes. -/
def Agree (first second : CharSet) (natives : List NativeType) : Prop :=
  ∀ native ∈ natives, native.FollowsCharSet → first = second

def codesText (charSet : CharSet) (natives : List NativeType) : List Char :=
  natives.flatMap fun native => (native.code charSet).toList

variable {first second : CharSet} {u v : List Char}

theorem code_of_agree {native : NativeType} (h : native.FollowsCharSet → first = second) :
    native.code first = native.code second := by
  by_cases hfollows : native.FollowsCharSet
  · rw [h hfollows]
  · cases native <;> simp_all [FollowsCharSet, code]

theorem codesText_of_agree {natives : List NativeType} (h : Agree first second natives) :
    codesText first natives = codesText second natives := by
  simp only [codesText, List.flatMap_def]
  congr 1
  exact List.map_congr_left fun native hnative => by rw [code_of_agree (h native hnative)]

def shownCharSet : NativeType → CharSet → Option CharSet
  | char, charSet | stringPointer, charSet => some charSet
  | _, _ => none

/-- The native type whose code opens a text, the character set that this code shows, and the rest
of the text. The first character is the whole code of most types; `_` takes one more to tell the
type, and `PE` is followed by the target of a pointer. -/
def readCode : List Char → Option (NativeType × Option CharSet × List Char)
  | 'C' :: rest => some (int8, none, rest)
  | 'D' :: rest => some (char, some .narrow, rest)
  | 'E' :: rest => some (uint8, none, rest)
  | 'F' :: rest => some (int16, none, rest)
  | 'G' :: rest => some (uint16, none, rest)
  | 'H' :: rest => some (int32, none, rest)
  | 'I' :: rest => some (uint32, none, rest)
  | 'M' :: rest => some (float32, none, rest)
  | 'N' :: rest => some (float64, none, rest)
  | 'X' :: rest => some (void, none, rest)
  | '_' :: 'J' :: rest => some (int64, none, rest)
  | '_' :: 'K' :: rest => some (uint64, none, rest)
  | '_' :: 'W' :: rest => some (char, some .wide, rest)
  | 'P' :: 'E' :: 'A' :: 'H' :: rest => some (int32Reference, none, rest)
  | 'P' :: 'E' :: 'B' :: 'D' :: rest => some (stringPointer, some .narrow, rest)
  | 'P' :: 'E' :: 'B' :: '_' :: 'W' :: rest => some (stringPointer, some .wide, rest)
  | _ => none

/-- Only `wideChar`, which no host type has, shares a code with another type. -/
theorem readCode_code_append {native : NativeType} (h : native ≠ wideChar) (charSet : CharSet)
    (rest : List Char) :
    readCode ((native.code charSet).toList ++ rest) =
      some (native, native.shownCharSet charSet, rest) := by
  cases native with
  | wideChar => exact absurd rfl h
  | _ => cases charSet <;> rfl

theorem eq_of_shownCharSet {native : NativeType} (h : native.FollowsCharSet)
    (hshown : native.shownCharSet first = native.shownCharSet second) : first = second := by
  rcases h with rfl | rfl
  · exact Option.some.inj hshown
  · exact Option.some.inj hshown

theorem code_cancel {left right : NativeType} (hleft : left ≠ wideChar) (hright : right ≠ wideChar)
    (h : (left.code first).toList ++ u = (right.code second).toList ++ v) :
    left = right ∧ (left.FollowsCharSet → first = second) ∧ u = v := by
  have hread := congrArg readCode h
  rw [readCode_code_append hleft, readCode_code_append hright, Option.some.injEq, Prod.mk.injEq,
    Prod.mk.injEq] at hread
  obtain ⟨rfl, hshown, hrest⟩ := hread
  exact ⟨rfl, fun hfollows => eq_of_shownCharSet hfollows hshown, hrest⟩

theorem code_head (native : NativeType) (charSet : CharSet) :
    ∃ c rest, (native.code charSet).toList = c :: rest ∧ c ≠ '@' ∧ c ≠ 'Z' := by
  cases native <;> cases charSet <;> exact ⟨_, _, rfl, by decide, by decide⟩

@[simp] theorem mark_not_mem_code (native : NativeType) (charSet : CharSet) :
    '@' ∉ (native.code charSet).toList := by
  cases native <;> cases charSet <;> decide

@[simp] theorem mark_not_mem_codesText (charSet : CharSet) (natives : List NativeType) :
    '@' ∉ codesText charSet natives := by
  intro hat
  rcases List.mem_flatMap.mp hat with ⟨native, -, hat⟩
  exact mark_not_mem_code native charSet hat

theorem codesText_cancel {left right : List NativeType} (hleft : wideChar ∉ left)
    (hright : wideChar ∉ right)
    (h : codesText first left ++ '@' :: u = codesText second right ++ '@' :: v) :
    left = right ∧ Agree first second left ∧ u = v := by
  induction left generalizing right with
  | nil =>
      cases right with
      | nil => exact ⟨rfl, by simp [Agree], by simpa [codesText] using h⟩
      | cons native right =>
          -- One list is over and the other has a code left, but no code opens with the `@`.
          rcases native.code_head second with ⟨c, rest, hcode, hat, _⟩
          simp [codesText, hcode, Ne.symm hat] at h
  | cons native left ih =>
      cases right with
      | nil =>
          rcases native.code_head first with ⟨c, rest, hcode, hat, _⟩
          simp [codesText, hcode, hat] at h
      | cons native' right =>
          simp only [List.mem_cons, not_or] at hleft hright
          simp only [codesText, List.flatMap_cons, List.append_assoc] at h
          rcases code_cancel (Ne.symm hleft.1) (Ne.symm hright.1) h with ⟨rfl, hcharSet, hrest⟩
          rcases ih hleft.2 hright.2 hrest with ⟨rfl, hagree, hend⟩
          exact ⟨rfl, List.forall_mem_cons.mpr ⟨hcharSet, hagree⟩, hend⟩

@[simp] theorem parameterText_cons (charSet : CharSet) (native : NativeType)
    (natives : List NativeType) :
    (parameterText charSet (native :: natives)).toList =
      codesText charSet (native :: natives) ++ ['@'] := by
  simp [parameterText, codesText, List.flatMap_map]

theorem parameterText_of_agree {natives : List NativeType} (h : Agree first second natives) :
    parameterText first natives = parameterText second natives := by
  cases natives with
  | nil => rfl
  | cons native natives =>
      apply String.toList_inj.mp
      rw [parameterText_cons, parameterText_cons, codesText_of_agree h]

theorem parameterText_nil_ne {native : NativeType} {natives : List NativeType}
    (hnative : native ≠ wideChar) :
    (parameterText first []).toList ++ 'Z' :: u ≠
      (parameterText second (native :: natives)).toList ++ 'Z' :: v := by
  intro h
  simp only [parameterText_cons, codesText, List.flatMap_cons, List.append_assoc] at h
  -- The other list may start with `void` too, but it goes on behind that code.
  rcases code_cancel (by decide) hnative h with ⟨-, -, hrest⟩
  cases natives with
  | nil => simp at hrest
  | cons native natives =>
      rcases native.code_head second with ⟨c, rest, hcode, -, hz⟩
      simp [hcode, Ne.symm hz] at hrest

theorem parameterText_cancel {left right : List NativeType} (hleft : wideChar ∉ left)
    (hright : wideChar ∉ right)
    (h : (parameterText first left).toList ++ 'Z' :: u =
      (parameterText second right).toList ++ 'Z' :: v) :
    left = right ∧ Agree first second left ∧ u = v := by
  cases left with
  | nil =>
      cases right with
      | nil => exact ⟨rfl, by simp [Agree], by simpa [parameterText, code] using h⟩
      | cons native right =>
          exact absurd h (parameterText_nil_ne (by simp_all [eq_comm]))
  | cons native left =>
      cases right with
      | nil => exact absurd h.symm (parameterText_nil_ne (by simp_all [eq_comm]))
      | cons native' right =>
          simp only [parameterText_cons, List.append_assoc, List.singleton_append] at h
          rcases codesText_cancel hleft hright h with ⟨hsame, hagree, hend⟩
          exact ⟨hsame, hagree, (List.cons.inj hend).2⟩

end NativeType

open NativeType in
theorem NativeSignature.text_cancel {left right : NativeSignature} {first second : CharSet}
    {u v : List Char} (hleft : wideChar ∉ left.natives) (hright : wideChar ∉ right.natives)
    (h : (left.text first).toList ++ u = (right.text second).toList ++ v) :
    left = right ∧ Agree first second left.natives ∧ u = v := by
  rcases left with ⟨leftReturn, leftParameters⟩
  rcases right with ⟨rightReturn, rightParameters⟩
  simp only [natives, List.mem_cons, not_or] at hleft hright
  simp only [text, String.toList_append, List.append_assoc] at h
  rcases code_cancel (Ne.symm hleft.1) (Ne.symm hright.1) h with ⟨rfl, hreturn, hrest⟩
  rcases parameterText_cancel hleft.2 hright.2 hrest with ⟨rfl, hparameters, hend⟩
  exact ⟨rfl, List.forall_mem_cons.mpr ⟨hreturn, hparameters⟩, hend⟩

open NativeType in
theorem NativeSignature.text_of_agree {signature : NativeSignature} {first second : CharSet}
    (h : Agree first second signature.natives) : signature.text first = signature.text second := by
  rcases List.forall_mem_cons.mp h with ⟨hreturn, hparameters⟩
  rw [text, text, code_of_agree hreturn, parameterText_of_agree hparameters]

end DecoratedNames
