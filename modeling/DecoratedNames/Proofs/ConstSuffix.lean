import DecoratedNames.Method
import Mathlib.Data.List.Basic

namespace DecoratedNames

namespace FunctionKind

@[simp] theorem withoutConst?_eq_some_iff {name stem : String} :
    withoutConst? name = some stem ↔ name = stem ++ constSuffix := by
  constructor
  · intro h
    rcases Option.map_eq_some_iff.mp h with ⟨text, hsuffix, rfl⟩
    have htext : text ++ constSuffix.toList = name.toList :=
      List.isSuffixOf?_eq_some_iff_append_eq.mp hsuffix
    apply String.toList_inj.mp
    rw [← htext, String.toList_append, String.toList_ofList]
  · rintro rfl
    have hsuffix : constSuffix.toList.isSuffixOf? (stem ++ constSuffix).toList =
        some stem.toList := by
      rw [List.isSuffixOf?_eq_some_iff_append_eq, String.toList_append]
    rw [withoutConst?, hsuffix, Option.map_some, String.ofList_toList]

theorem withoutConst?_injective {left right stem : String} (hleft : withoutConst? left = some stem)
    (hright : withoutConst? right = some stem) : left = right := by
  rw [withoutConst?_eq_some_iff.mp hleft, withoutConst?_eq_some_iff.mp hright]

theorem name_of_nativeName {kind : FunctionKind} {left right : String}
    (haccess : kind.accessCode left = kind.accessCode right)
    (hnative : kind.nativeName left = kind.nativeName right) : left = right := by
  cases kind with
  | free => exact hnative
  | staticMember => exact hnative
  | virtualMember =>
      cases hleft : withoutConst? left with
      | none =>
          cases hright : withoutConst? right with
          | none => simpa [nativeName, hleft, hright] using hnative
          | some stem => simp [accessCode, hleft, hright] at haccess
      | some stem =>
          cases hright : withoutConst? right with
          | none => simp [accessCode, hleft, hright] at haccess
          | some stem' =>
              have hstem : stem = stem' := by
                simpa [nativeName, hleft, hright] using hnative
              subst hstem
              exact withoutConst?_injective hleft hright

def accessCodes : List String := ["Y", "S", "QEA", "QEB"]

@[simp] theorem accessCode_mem (kind : FunctionKind) (name : String) :
    kind.accessCode name ∈ accessCodes := by
  cases kind with
  | free => simp [accessCode, accessCodes]
  | staticMember => simp [accessCode, accessCodes]
  | virtualMember =>
      rw [accessCode]
      split <;> simp [accessCodes]

theorem accessCodes_prefixFree :
    ∀ code ∈ accessCodes, ∀ other ∈ accessCodes, code.toList <+: other.toList → code = other := by
  decide

def ofAccessCode (code : String) : FunctionKind :=
  if code = "Y" then free else if code = "S" then staticMember else virtualMember

@[simp] theorem ofAccessCode_accessCode (kind : FunctionKind) (name : String) :
    ofAccessCode (kind.accessCode name) = kind := by
  cases kind with
  | free => rfl
  | staticMember => rfl
  | virtualMember =>
      rw [accessCode]
      split <;> rfl

/-- An access code can be cut from the text that follows it, and it tells the kind. -/
theorem accessCode_cancel {left right : FunctionKind} {leftName rightName : String}
    {u v : List Char}
    (h : (left.accessCode leftName).toList ++ u = (right.accessCode rightName).toList ++ v) :
    left = right ∧ left.accessCode leftName = right.accessCode rightName ∧ u = v := by
  have hcode : left.accessCode leftName = right.accessCode rightName := by
    have hleft := accessCode_mem left leftName
    have hright := accessCode_mem right rightName
    have hopens : (left.accessCode leftName).toList <+:
        (right.accessCode rightName).toList ++ v := h ▸ List.prefix_append _ u
    rcases List.prefix_or_prefix_of_prefix hopens (List.prefix_append _ v) with hprefix | hprefix
    · exact accessCodes_prefixFree _ hleft _ hright hprefix
    · exact (accessCodes_prefixFree _ hright _ hleft hprefix).symm
  have hkind : left = right := by
    rw [← ofAccessCode_accessCode left leftName, hcode, ofAccessCode_accessCode]
  rw [hcode] at h
  exact ⟨hkind, hcode, List.append_cancel_left h⟩

/-- A virtual member whose host name ends in `_const` has the native name in front of that, and any
other function has its host name. -/
def IsNativeName (kind : FunctionKind) (name native : String) : Prop :=
  if kind = virtualMember ∧ constSuffix.toList <:+ name.toList then name = native ++ constSuffix
  else native = name

theorem isNativeName_nativeName (kind : FunctionKind) (name : String) :
    IsNativeName kind name (kind.nativeName name) := by
  unfold IsNativeName
  split
  · rename_i hconst
    rcases hconst with ⟨rfl, stem, hstem⟩
    have hname : name = String.ofList stem ++ constSuffix := by
      apply String.toList_inj.mp
      rw [String.toList_append, String.toList_ofList, hstem]
    rw [nativeName, withoutConst?_eq_some_iff.mpr hname, Option.getD_some]
    exact hname
  · rename_i hplain
    cases kind with
    | free => rfl
    | staticMember => rfl
    | virtualMember =>
        have hnone : withoutConst? name = none := by
          rw [Option.eq_none_iff_forall_ne_some]
          intro stem hstem
          refine hplain ⟨rfl, stem.toList, ?_⟩
          rw [withoutConst?_eq_some_iff.mp hstem, String.toList_append]
        rw [nativeName, hnone, Option.getD_none]

theorem nativeName_eq_empty_iff {kind : FunctionKind} {name : String} (hname : name ≠ "") :
    kind.nativeName name = "" ↔ kind = virtualMember ∧ name = constSuffix := by
  have hnative := isNativeName_nativeName kind name
  unfold IsNativeName at hnative
  constructor
  · intro hempty
    rw [hempty] at hnative
    split at hnative
    · rename_i hconst
      exact ⟨hconst.1, hnative⟩
    · exact absurd hnative.symm hname
  · rintro ⟨rfl, rfl⟩
    decide

theorem nativeName_subset (kind : FunctionKind) (name : String) :
    (kind.nativeName name).toList ⊆ name.toList := by
  cases kind with
  | free => exact List.Subset.refl _
  | staticMember => exact List.Subset.refl _
  | virtualMember =>
      cases hstem : withoutConst? name with
      | none => simp [nativeName, hstem]
      | some stem =>
          rw [nativeName, hstem, Option.getD_some, withoutConst?_eq_some_iff.mp hstem,
            String.toList_append]
          exact List.subset_append_left _ _

end FunctionKind

end DecoratedNames
