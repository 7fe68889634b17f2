import DecoratedNames.Proofs.NameLayout
import DecoratedNames.Proofs.PrefixCodes

/-! Decorated names are free of collisions, also between the two character sets. The first `@@` ends
the fragments, the access code tells the kind and whether a suffix was cut off, and prefix-freeness
cuts the rest into type codes. -/

namespace DecoratedNames

namespace HostType

/-- The host types whose code depends on the character set. -/
def FollowsCharSet (type : HostType) : Prop :=
  type = .primitive .char ∨ type = .primitive .string

theorem followsCharSet_iff {type : HostType} {native : NativeType}
    (h : native.hostType? = some type) : type.FollowsCharSet ↔ native.FollowsCharSet := by
  cases native <;> cases h <;> simp [FollowsCharSet, NativeType.FollowsCharSet, byRef]

theorem agree_iff {types : List HostType} {natives : List NativeType} {first second : CharSet}
    (h : nativeTypes types = .ok natives) :
    NativeType.Agree first second natives ↔
      first = second ∨ ∀ type ∈ types, ¬ type.FollowsCharSet := by
  have hmaps := nativeTypes_eq_ok_iff.mp h
  constructor
  · intro hagree
    by_cases hsets : first = second
    · exact Or.inl hsets
    · refine Or.inr fun type htype hfollows => hsets ?_
      have hmem : some type ∈ natives.map NativeType.hostType? := by
        rw [hmaps]
        exact List.mem_map_of_mem htype
      rcases List.mem_map.mp hmem with ⟨native, hnative, hhost⟩
      exact hagree native hnative ((followsCharSet_iff hhost).mp hfollows)
  · rintro (rfl | hnone)
    · exact fun _ _ _ => rfl
    · intro native hnative hfollows
      have hmem : native.hostType? ∈ types.map some := by
        rw [← hmaps]
        exact List.mem_map_of_mem hnative
      rcases List.mem_map.mp hmem with ⟨type, htype, hhost⟩
      exact absurd ((followsCharSet_iff hhost.symm).mpr hfollows) (hnone type htype)

end HostType

namespace Method

/-- No part of the method can be taken for the mark that ends it. -/
structure Separable (method : Method) : Prop where
  name : '@' ∉ method.name.toList
  owner : method.kind ≠ .free → IsFragment method.owner
  scope : ∀ segment ∈ method.scope.segments, IsFragment segment

/-- Methods that differ at most in what a decorated name leaves out. -/
structure Alike (left right : Method) : Prop where
  kind : left.kind = right.kind
  name : left.name = right.name
  owner : left.kind ≠ .free → left.owner = right.owner
  scope : left.scope.text = right.scope.text
  returnType : left.returnType = right.returnType
  parameters : left.encodedParameters = right.encodedParameters

variable {left right : Method} {leftSet rightSet : CharSet}
  {leftSignature rightSignature : NativeSignature}

theorem nativeName_separable (h : left.Separable) : '@' ∉ left.nativeName.toList :=
  fun hat => h.name (FunctionKind.nativeName_subset _ _ hat)

theorem enclosing_separable (h : left.Separable) : ∀ f ∈ left.enclosing, IsFragment f := by
  intro f hf
  cases hkind : left.kind with
  | free =>
      simp only [enclosing, hkind, List.mem_reverse] at hf
      exact h.scope f hf
  | staticMember | virtualMember =>
      simp only [enclosing, hkind, List.mem_cons, List.mem_reverse] at hf
      rcases hf with rfl | hf
      · exact h.owner (by simp [hkind])
      · exact h.scope f hf

theorem enclosing_cancel (hkind : left.kind = right.kind) (h : left.enclosing = right.enclosing) :
    (left.kind ≠ .free → left.owner = right.owner) ∧
      left.scope.segments = right.scope.segments := by
  unfold enclosing at h
  rw [← hkind] at h
  cases hleft : left.kind with
  | free => simpa [hleft] using h
  | staticMember | virtualMember => simpa [hleft] using h

theorem nameText_cancel (hleft : left.Separable) (hright : right.Separable)
    (h : left.nameText leftSet leftSignature = right.nameText rightSet rightSignature) :
    left.kind = right.kind ∧ left.name = right.name ∧ left.enclosing = right.enclosing ∧
      leftSignature.text leftSet = rightSignature.text rightSet := by
  have htext := String.toList_inj.mpr h
  simp only [nameText_toList, closedText_cons] at htext
  obtain ⟨hnative, hfragments⟩ := Text.separator_cancel (nativeName_separable hleft)
    (nativeName_separable hright) (List.cons.inj htext).2
  obtain ⟨henclosing, haccess⟩ := closedText_cancel (enclosing_separable hleft)
    (enclosing_separable hright) hfragments
  rcases FunctionKind.accessCode_cancel haccess with ⟨hkind, hcode, hcodes⟩
  have hname : left.name = right.name := by
    have hnative' : left.kind.nativeName left.name = left.kind.nativeName right.name := by
      calc
        left.kind.nativeName left.name = left.nativeName := rfl
        _ = right.nativeName := String.toList_inj.mp hnative
        _ = left.kind.nativeName right.name := by rw [nativeName, hkind]
    rw [← hkind] at hcode
    exact FunctionKind.name_of_nativeName hcode hnative'
  exact ⟨hkind, hname, henclosing, String.toList_inj.mp (List.cons.inj hcodes).2⟩

theorem nameText_of_alike (halike : left.Alike right)
    (h : leftSignature.text leftSet = rightSignature.text rightSet) :
    left.nameText leftSet leftSignature = right.nameText rightSet rightSignature := by
  have hqualified : left.qualifiedName = right.qualifiedName := by
    rw [qualifiedName, qualifiedName, ← halike.kind, ← halike.name, ← halike.scope]
    cases hkind : left.kind with
    | free => rfl
    | staticMember | virtualMember => rw [halike.owner (by simp [hkind])]
  rw [nameText, nameText, hqualified, accessCode, accessCode, halike.kind, halike.name, h]

/-- Two names are equal exactly if the methods agree in all that a name shows, and either the
character sets are the same or no type depends on them. -/
theorem decoratedName_eq_iff {leftName rightName : DecoratedName}
    (hleft : left.Separable) (hright : right.Separable)
    (hleftName : left.decoratedName leftSet = .ok leftName)
    (hrightName : right.decoratedName rightSet = .ok rightName) :
    leftName = rightName ↔
      left.Alike right ∧
        (leftSet = rightSet ∨ ∀ type ∈ left.encodedTypes, ¬ type.FollowsCharSet) := by
  rcases decoratedName_eq_ok_iff.mp hleftName with ⟨leftSignature, hl, rfl⟩
  rcases decoratedName_eq_ok_iff.mp hrightName with ⟨rightSignature, hr, rfl⟩
  rw [nativeSignature_eq_ok_iff] at hl hr
  rw [DecoratedName.mk.injEq, ← HostType.agree_iff hl]
  constructor
  · intro h
    rcases nameText_cancel hleft hright h with ⟨hkind, hname, henclosing, htext⟩
    rcases enclosing_cancel hkind henclosing with ⟨howner, hsegments⟩
    obtain ⟨rfl, hagree, -⟩ := NativeSignature.text_cancel (HostType.wideChar_not_mem hl)
      (HostType.wideChar_not_mem hr) (congrArg (String.toList · ++ []) htext)
    rcases List.cons.inj (HostType.nativeTypes_injective hl hr) with ⟨hreturn, hparameters⟩
    have hscope : left.scope.text = right.scope.text := by
      rw [Scope.text, hsegments, ← Scope.text]
    exact ⟨⟨hkind, hname, howner, hscope, hreturn, hparameters⟩, hagree⟩
  · intro h
    rcases h with ⟨halike, hagree⟩
    have htypes : left.encodedTypes = right.encodedTypes := by
      rw [encodedTypes, encodedTypes, halike.returnType, halike.parameters]
    have hnatives : leftSignature.natives = rightSignature.natives := by
      rw [htypes, hr] at hl
      exact (Except.ok.inj hl).symm
    have hsignature : leftSignature = rightSignature := by
      cases leftSignature
      cases rightSignature
      simpa [NativeSignature.natives] using hnatives
    subst hsignature
    exact nameText_of_alike halike (NativeSignature.text_of_agree hagree)

def getter (hostNamespace : String) (receiver : HostType) : Method :=
  { name := "get_const", owner := "C", hostNamespace, returnType := .primitive .int64,
    parameters := [receiver, HostType.byRef (.primitive .int32)], kind := .virtualMember }

theorem getter_names_alike :
    (getter "A.DllImport.my.ns" (.classType "C")).decoratedName .narrow =
        .ok ⟨"?get@C@ns@my@@QEBA_JPEAH@Z"⟩ ∧
      (getter "B._.my.ns" (.primitive .object)).decoratedName .wide =
        .ok ⟨"?get@C@ns@my@@QEBA_JPEAH@Z"⟩ ∧
      (getter "A.DllImport.my.ns" (.classType "C")).Alike
        (getter "B._.my.ns" (.primitive .object)) ∧
      (CharSet.narrow = .wide ∨
        ∀ type ∈ (getter "A.DllImport.my.ns" (.classType "C")).encodedTypes,
          ¬ type.FollowsCharSet) := by
  have hleft : (getter "A.DllImport.my.ns" (.classType "C")).Separable :=
    ⟨by decide, fun _ => by decide, by decide⟩
  have hright : (getter "B._.my.ns" (.primitive .object)).Separable :=
    ⟨by decide, fun _ => by decide, by decide⟩
  have hleftName : (getter "A.DllImport.my.ns" (.classType "C")).decoratedName .narrow =
      .ok ⟨"?get@C@ns@my@@QEBA_JPEAH@Z"⟩ := by decide
  have hrightName : (getter "B._.my.ns" (.primitive .object)).decoratedName .wide =
      .ok ⟨"?get@C@ns@my@@QEBA_JPEAH@Z"⟩ := by decide
  exact ⟨hleftName, hrightName, (decoratedName_eq_iff hleft hright hleftName hrightName).mp rfl⟩

end Method

end DecoratedNames
