import DecoratedNames.Proofs.ConstSuffix
import DecoratedNames.Proofs.NativeSignature
import Mathlib.Data.Set.Operations

namespace DecoratedNames

namespace Text

/-- Texts of one length with different characters in one place only. -/
def DifferAt (place : Nat) (left right : String) : Prop :=
  left.length = right.length ∧ ∀ i, left.toList[i]? ≠ right.toList[i]? ↔ i = place

theorem getElem?_ne_iff {c d : Char} (hne : c ≠ d) (before after : List Char) (i : Nat) :
    (before ++ c :: after)[i]? ≠ (before ++ d :: after)[i]? ↔ i = before.length := by
  induction before generalizing i with
  | nil => cases i <;> simp [hne]
  | cons b before ih => cases i <;> simp [ih]

theorem differAt_of_toList {left right : String} {before after : List Char} {c d : Char}
    (hne : c ≠ d) (hleft : left.toList = before ++ c :: after)
    (hright : right.toList = before ++ d :: after) : DifferAt before.length left right := by
  constructor
  · rw [← String.length_toList, ← String.length_toList, hleft, hright, List.length_append,
      List.length_append, List.length_cons, List.length_cons]
  · intro i
    rw [hleft, hright]
    exact getElem?_ne_iff hne before after i

end Text

namespace FunctionKind

variable {name stem : String}

def EndsInConst (name : String) : Prop :=
  ∃ stem : String, name = stem ++ "_const"

theorem isSome_withoutConst?_iff : (withoutConst? name).isSome = true ↔ EndsInConst name := by
  simp only [Option.isSome_iff_exists, withoutConst?_eq_some_iff]
  exact Iff.rfl

instance (name : String) : Decidable (EndsInConst name) :=
  decidable_of_iff _ isSome_withoutConst?_iff

theorem withoutConst?_eq_none (h : ¬ EndsInConst name) : withoutConst? name = none := by
  rw [← isSome_withoutConst?_iff] at h
  simpa using h

@[simp] theorem withoutConst?_append (stem : String) :
    withoutConst? (stem ++ "_const") = some stem :=
  withoutConst?_eq_some_iff.mpr rfl

/-- What a decorated name keeps of the host name of a virtual member: the native name, and whether
the function is constant. -/
def nativeParts (name : String) : String × Bool :=
  (virtualMember.nativeName name, virtualMember.accessCode name = "QEB")

@[simp] theorem nativeParts_append_const (stem : String) :
    nativeParts (stem ++ "_const") = (stem, true) := by
  simp [nativeParts, nativeName, accessCode]

theorem nativeParts_of_not_endsInConst (h : ¬ EndsInConst name) :
    nativeParts name = (name, false) := by
  simp [nativeParts, nativeName, accessCode, withoutConst?_eq_none h]

theorem nativeParts_cases (name : String) :
    (∃ stem, name = stem ++ "_const" ∧ nativeParts name = (stem, true)) ∨
      (¬ EndsInConst name ∧ nativeParts name = (name, false)) := by
  by_cases h : EndsInConst name
  · rcases h with ⟨stem, rfl⟩
    exact Or.inl ⟨stem, rfl, nativeParts_append_const stem⟩
  · exact Or.inr ⟨h, nativeParts_of_not_endsInConst h⟩

theorem nativeParts_eq_const_iff : nativeParts name = (stem, true) ↔ name = stem ++ "_const" := by
  constructor
  · intro h
    rcases nativeParts_cases name with ⟨found, hname, hparts⟩ | ⟨-, hparts⟩
    · rw [hparts] at h
      rw [hname, (Prod.mk.inj h).1]
    · rw [hparts] at h
      cases (Prod.mk.inj h).2
  · rintro rfl
    exact nativeParts_append_const stem

theorem nativeParts_eq_plain_iff :
    nativeParts name = (stem, false) ↔ ¬ EndsInConst name ∧ name = stem := by
  constructor
  · intro h
    rcases nativeParts_cases name with ⟨found, -, hparts⟩ | ⟨hnot, hparts⟩
    · rw [hparts] at h
      cases (Prod.mk.inj h).2
    · rw [hparts] at h
      exact ⟨hnot, (Prod.mk.inj h).1⟩
  · intro h
    obtain ⟨hnot, rfl⟩ := h
    exact nativeParts_of_not_endsInConst hnot

theorem nativeParts_injective : Function.Injective nativeParts := by
  intro left right h
  rcases nativeParts_cases left with ⟨stem, hstem, hleft⟩ | ⟨-, hleft⟩
  · rw [hleft, eq_comm, nativeParts_eq_const_iff] at h
    rw [hstem, h]
  · rw [hleft, eq_comm, nativeParts_eq_plain_iff] at h
    exact h.2.symm

theorem const_mem_range_nativeParts (stem : String) : (stem, true) ∈ Set.range nativeParts :=
  ⟨stem ++ "_const", nativeParts_append_const stem⟩

theorem plain_mem_range_nativeParts_iff :
    (stem, false) ∈ Set.range nativeParts ↔ ¬ EndsInConst stem := by
  simp [nativeParts_eq_plain_iff]

end FunctionKind

namespace Method

open FunctionKind

variable {method : Method} {charSet : CharSet}

def memberStart (method : Method) (stem access : String) : String :=
  "?" ++ stem ++ "@" ++ method.owner ++ method.scope.text ++ "@@" ++ access

theorem nameText_of_virtualMember (hkind : method.kind = .virtualMember)
    (signature : NativeSignature) :
    method.nameText charSet signature =
      method.memberStart (FunctionKind.virtualMember.nativeName method.name)
        (FunctionKind.virtualMember.accessCode method.name) ++ ("A" ++ signature.text charSet) := by
  rw [nameText, qualifiedName, Method.accessCode, hkind]
  simp only [memberStart, String.append_assoc]

theorem nameText_of_const {stem : String} (hkind : method.kind = .virtualMember)
    (hname : method.name = stem ++ "_const") (signature : NativeSignature) :
    method.nameText charSet signature =
      method.memberStart stem "QEB" ++ ("A" ++ signature.text charSet) := by
  rw [nameText_of_virtualMember hkind, hname]
  simp [FunctionKind.nativeName, FunctionKind.accessCode]

theorem nameText_of_not_const (hkind : method.kind = .virtualMember)
    (hname : ¬ EndsInConst method.name) (signature : NativeSignature) :
    method.nameText charSet signature =
      method.memberStart method.name "QEA" ++ ("A" ++ signature.text charSet) := by
  rw [nameText_of_virtualMember hkind]
  simp [FunctionKind.nativeName, FunctionKind.accessCode, withoutConst?_eq_none hname]

theorem nameText_verbatim (hkind : method.kind ≠ .virtualMember) (signature : NativeSignature) :
    ∃ rest, method.nameText charSet signature =
      "?" ++ method.name ++ (if method.kind = .free then "" else "@" ++ method.owner) ++
        method.scope.text ++ "@@" ++ rest := by
  refine ⟨method.accessCode ++ ("A" ++ signature.text charSet), ?_⟩
  rw [nameText, qualifiedName]
  cases hmethod : method.kind with
  | free => simp [nativeName, String.append_assoc]
  | staticMember => simp [nativeName, String.append_assoc]
  | virtualMember => exact absurd hmethod hkind

def renamed (method : Method) (name : String) : Method :=
  { method with name }

@[simp] theorem nativeSignature_renamed (method : Method) (name : String) :
    (method.renamed name).nativeSignature = method.nativeSignature := rfl

theorem memberStart_differAt (method : Method) (stem rest : String) :
    Text.DifferAt (method.memberStart stem "QE").length
      (method.memberStart stem "QEA" ++ rest) (method.memberStart stem "QEB" ++ rest) := by
  have hplain : (method.memberStart stem "QEA" ++ rest).toList =
      (method.memberStart stem "QE").toList ++ 'A' :: rest.toList := by
    simp [memberStart]
  have hconst : (method.memberStart stem "QEB" ++ rest).toList =
      (method.memberStart stem "QE").toList ++ 'B' :: rest.toList := by
    simp [memberStart]
  rw [← String.length_toList]
  exact Text.differAt_of_toList (by decide) hplain hconst

theorem decoratedName_renamed_cases {stem : String} (hkind : method.kind = .virtualMember)
    (hstem : ¬ EndsInConst stem) :
    (∃ error, (method.renamed stem).decoratedName charSet = .error error ∧
        (method.renamed (stem ++ "_const")).decoratedName charSet = .error error) ∨
      ∃ rest,
        (method.renamed stem).decoratedName charSet =
          .ok ⟨method.memberStart stem "QEA" ++ rest⟩ ∧
        (method.renamed (stem ++ "_const")).decoratedName charSet =
          .ok ⟨method.memberStart stem "QEB" ++ rest⟩ := by
  have hplain := decoratedName_eq (method.renamed stem) charSet
  have hconst := decoratedName_eq (method.renamed (stem ++ "_const")) charSet
  -- The types do not depend on the name, so both are refused or neither is.
  rw [nativeSignature_renamed] at hplain hconst
  have hrenamed : ∀ name, (method.renamed name).kind = .virtualMember := fun _ => hkind
  cases hsignature : method.nativeSignature with
  | error error =>
      rw [hsignature] at hplain hconst
      exact Or.inl ⟨error, hplain, hconst⟩
  | ok signature =>
      rw [hsignature, Except.map] at hplain hconst
      have hplainText : (method.renamed stem).nameText charSet signature =
          method.memberStart stem "QEA" ++ ("A" ++ signature.text charSet) :=
        nameText_of_not_const (hrenamed stem) hstem signature
      have hconstText : (method.renamed (stem ++ "_const")).nameText charSet signature =
          method.memberStart stem "QEB" ++ ("A" ++ signature.text charSet) :=
        nameText_of_const (hrenamed _) rfl signature
      rw [hplainText] at hplain
      rw [hconstText] at hconst
      exact Or.inr ⟨"A" ++ signature.text charSet, hplain, hconst⟩

/-- A virtual member whose host name ends in `_const` is decorated as a constant function under the
name in front of that, and any other virtual member as one that is not constant under its host
name. The two spellings of one native name give names that differ in one character, no two host
names share a native name and constness, and only a native name that itself ends in `_const` has no
spelling that is not constant. Functions of the other kinds keep their host names whole. -/
theorem decoratedName_keeps_const (method : Method) (charSet : CharSet) :
    (method.kind = .virtualMember →
      (∀ name, method.decoratedName charSet = .ok name →
        (∃ stem rest, method.name = stem ++ "_const" ∧
            name.text = method.memberStart stem "QEB" ++ rest) ∨
          (¬ EndsInConst method.name ∧
            ∃ rest, name.text = method.memberStart method.name "QEA" ++ rest)) ∧
      ∀ stem, ¬ EndsInConst stem →
        (∃ error, (method.renamed stem).decoratedName charSet = .error error ∧
            (method.renamed (stem ++ "_const")).decoratedName charSet = .error error) ∨
          ∃ rest,
            (method.renamed stem).decoratedName charSet =
              .ok ⟨method.memberStart stem "QEA" ++ rest⟩ ∧
            (method.renamed (stem ++ "_const")).decoratedName charSet =
              .ok ⟨method.memberStart stem "QEB" ++ rest⟩ ∧
            Text.DifferAt (method.memberStart stem "QE").length
              (method.memberStart stem "QEA" ++ rest) (method.memberStart stem "QEB" ++ rest)) ∧
      Function.Injective nativeParts ∧
      (∀ stem, (stem, true) ∈ Set.range nativeParts) ∧
      (∀ stem, (stem, false) ∈ Set.range nativeParts ↔ ¬ EndsInConst stem) ∧
      (method.kind ≠ .virtualMember → ∀ name, method.decoratedName charSet = .ok name →
        ∃ rest, name.text =
          "?" ++ method.name ++ (if method.kind = .free then "" else "@" ++ method.owner) ++
            method.scope.text ++ "@@" ++ rest) := by
  refine ⟨?_, nativeParts_injective, const_mem_range_nativeParts,
    fun _ => plain_mem_range_nativeParts_iff, ?_⟩
  · intro hkind
    constructor
    · intro name hname
      rcases decoratedName_eq_ok_iff.mp hname with ⟨signature, -, rfl⟩
      by_cases hends : EndsInConst method.name
      · rcases hends with ⟨stem, hstem⟩
        exact Or.inl ⟨stem, _, hstem, nameText_of_const hkind hstem signature⟩
      · exact Or.inr ⟨hends, _, nameText_of_not_const hkind hends signature⟩
    · intro stem hstem
      rcases decoratedName_renamed_cases hkind hstem with herror | ⟨rest, hplain, hconst⟩
      · exact Or.inl herror
      · exact Or.inr ⟨rest, hplain, hconst, memberStart_differAt method stem rest⟩
  · intro hkind name hname
    rcases decoratedName_eq_ok_iff.mp hname with ⟨signature, -, rfl⟩
    exact nameText_verbatim hkind signature

def constLength : Method :=
  { name := "Length_const", owner := "Buffer", returnType := .primitive .uint64,
    parameters := [.primitive .nativeInt], kind := .virtualMember }

theorem length_and_const_length :
    ¬ EndsInConst "Length" ∧
      constLength.decoratedName .wide = .ok ⟨"?Length@Buffer@@QEBA_KXZ"⟩ ∧
      (∃ stem rest, "Length_const" = stem ++ "_const" ∧
        "?Length@Buffer@@QEBA_KXZ" = constLength.memberStart stem "QEB" ++ rest) ∧
      (constLength.renamed "Length").decoratedName .wide = .ok ⟨"?Length@Buffer@@QEAA_KXZ"⟩ ∧
      Text.DifferAt 18 "?Length@Buffer@@QEAA_KXZ" "?Length@Buffer@@QEBA_KXZ" ∧
      (free "Length_const").decoratedName .wide = .ok ⟨"?Length_const@@YAXXZ"⟩ ∧
      ∃ rest, "?Length_const@@YAXXZ" = "?" ++ "Length_const" ++ "" ++ "" ++ "@@" ++ rest := by
  have hplain : ¬ EndsInConst "Length" := by decide
  have hconst : constLength.decoratedName .wide = .ok ⟨"?Length@Buffer@@QEBA_KXZ"⟩ := by decide
  have hrenamed : (constLength.renamed "Length").decoratedName .wide =
      .ok ⟨"?Length@Buffer@@QEAA_KXZ"⟩ := by decide
  have hfree : (free "Length_const").decoratedName .wide = .ok ⟨"?Length_const@@YAXXZ"⟩ := by decide
  rcases (decoratedName_keeps_const constLength .wide).1 rfl with ⟨hstarts, hpairs⟩
  refine ⟨hplain, hconst, ?_, hrenamed, ?_, hfree, ?_⟩
  · rcases hstarts _ hconst with hbound | ⟨hnot, -⟩
    · exact hbound
    · exact absurd (by decide) hnot
  · rcases hpairs "Length" hplain with ⟨error, herror, -⟩ | ⟨rest, hleft, hright, hdiffer⟩
    · cases hrenamed.symm.trans herror
    · have hsame : constLength.renamed ("Length" ++ "_const") = constLength := by decide
      have hplace : (constLength.memberStart "Length" "QE").length = 18 := by decide
      rw [hrenamed] at hleft
      rw [hsame, hconst] at hright
      have hleftText := DecoratedName.mk.inj (Except.ok.inj hleft)
      have hrightText := DecoratedName.mk.inj (Except.ok.inj hright)
      rwa [hplace, ← hleftText, ← hrightText] at hdiffer
  · exact (decoratedName_keeps_const (free "Length_const") .wide).2.2.2.2 (by decide) _ hfree

end Method

end DecoratedNames
