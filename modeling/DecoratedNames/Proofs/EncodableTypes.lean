import DecoratedNames.Proofs.NativeSignature

/-! The host types that have a type code. Decorating a method looks at its return type and then at
its parameters, up to the first type that has no code; a receiver is never looked at. -/

namespace DecoratedNames

namespace HostType

/-- All host types with a type code, so under wrappers only a reference to a 32-bit integer. -/
def encodable : List HostType :=
  [.primitive .void, .primitive .char, .primitive .int8, .primitive .uint8, .primitive .int16,
   .primitive .uint16, .primitive .int32, .primitive .uint32, .primitive .int64,
   .primitive .uint64, .primitive .float32, .primitive .float64, .primitive .string,
   byRef (.primitive .int32)]

def IsEncodable (type : HostType) : Prop :=
  type ∈ encodable

instance (type : HostType) : Decidable type.IsEncodable :=
  inferInstanceAs (Decidable (type ∈ encodable))

variable {type : HostType} {types : List HostType}

theorem isEncodable_iff :
    type.IsEncodable ↔ ∃ native, NativeType.ofHostType? type = some native := by
  constructor
  · have hall : ∀ t ∈ encodable, (NativeType.ofHostType? t).isSome := by decide
    exact fun h => Option.isSome_iff_exists.mp (hall type h)
  · intro h
    rcases h with ⟨native, hnative⟩
    rw [NativeType.ofHostType?_eq_some_iff] at hnative
    cases native <;> cases hnative <;> decide

theorem nativeType_of_not_isEncodable (h : ¬ type.IsEncodable) :
    type.nativeType.result = .error (.unsupportedType type) := by
  rw [nativeType_result]
  cases hnative : NativeType.ofHostType? type with
  | none => rfl
  | some native => exact absurd (isEncodable_iff.mpr ⟨native, hnative⟩) h

theorem nativeType_of_isEncodable (h : type.IsEncodable) :
    ∃ native, type.nativeType.result = .ok native := by
  rcases isEncodable_iff.mp h with ⟨native, hnative⟩
  exact ⟨native, by rw [nativeType_result, hnative]⟩

theorem typeCode_of_isEncodable (h : type.IsEncodable) (charSet : CharSet) :
    ∃ code, (type.typeCode charSet).result = .ok code := by
  rcases nativeType_of_isEncodable h with ⟨native, hnative⟩
  exact ⟨native.code charSet, by simp [hnative, Except.map]⟩

theorem typeCode_of_not_isEncodable (h : ¬ type.IsEncodable) (charSet : CharSet) :
    (type.typeCode charSet).result = .error (.unsupportedType type) := by
  simp [nativeType_of_not_isEncodable h, Except.map]

def firstUnencodable? (types : List HostType) : Option HostType :=
  types.find? fun type => ¬ type.IsEncodable

theorem firstUnencodable?_cons_of_isEncodable (h : type.IsEncodable) :
    firstUnencodable? (type :: types) = firstUnencodable? types := by
  simp [firstUnencodable?, h]

theorem firstUnencodable?_cons_of_not_isEncodable (h : ¬ type.IsEncodable) :
    firstUnencodable? (type :: types) = some type := by
  simp [firstUnencodable?, h]

theorem firstUnencodable?_eq_none_iff :
    firstUnencodable? types = none ↔ ∀ type ∈ types, type.IsEncodable := by
  simp [firstUnencodable?]

theorem firstUnencodable?_eq_some_iff :
    firstUnencodable? types = some type ↔
      ∃ before after, types = before ++ type :: after ∧
        (∀ earlier ∈ before, earlier.IsEncodable) ∧ ¬ type.IsEncodable := by
  rw [firstUnencodable?, List.find?_eq_some_iff_append]
  constructor
  · intro h
    rcases h with ⟨htype, before, after, rfl, hbefore⟩
    exact ⟨before, after, rfl, by simpa using hbefore, by simpa using htype⟩
  · intro h
    rcases h with ⟨before, after, rfl, hbefore, htype⟩
    exact ⟨by simpa using htype, before, after, rfl, by simpa using hbefore⟩

theorem nativeTypes_cases (types : List HostType) :
    (firstUnencodable? types = none ∧ ∃ natives, nativeTypes types = .ok natives) ∨
      ∃ type, firstUnencodable? types = some type ∧
        nativeTypes types = .error (.unsupportedType type) := by
  induction types with
  | nil => exact Or.inl ⟨rfl, [], rfl⟩
  | cons type types ih =>
      by_cases hencodable : type.IsEncodable
      · rcases nativeType_of_isEncodable hencodable with ⟨native, hnative⟩
        rw [firstUnencodable?_cons_of_isEncodable hencodable, nativeTypes, hnative]
        rcases ih with ⟨hnone, natives, hnatives⟩ | ⟨first, hfirst, herror⟩
        · exact Or.inl ⟨hnone, native :: natives, by rw [hnatives]; rfl⟩
        · exact Or.inr ⟨first, hfirst, by rw [herror]; rfl⟩
      · refine Or.inr ⟨type, firstUnencodable?_cons_of_not_isEncodable hencodable, ?_⟩
        rw [nativeTypes, nativeType_of_not_isEncodable hencodable]
        rfl

theorem nativeTypes_of_isEncodable (h : ∀ type ∈ types, type.IsEncodable) :
    ∃ natives, nativeTypes types = .ok natives := by
  rcases nativeTypes_cases types with ⟨-, hnatives⟩ | ⟨type, hfirst, -⟩
  · exact hnatives
  · cases hfirst.symm.trans (firstUnencodable?_eq_none_iff.mpr h)

end HostType

namespace Method

variable {method : Method} {charSet : CharSet}

theorem decoratedName_eq_error_iff {error : Error} :
    method.decoratedName charSet = .error error ↔
      HostType.nativeTypes method.encodedTypes = .error error := by
  have hsignature : method.nativeSignature = .error error ↔
      HostType.nativeTypes method.encodedTypes = .error error := by
    rw [nativeSignature, encodedTypes, HostType.nativeTypes, bind_map_eq_error_iff,
      bind_map_eq_error_iff]
  rw [decoratedName_eq, ← hsignature]
  cases method.nativeSignature <;> simp [Except.map]

theorem decoratedName_cases (method : Method) (charSet : CharSet) :
    (HostType.firstUnencodable? method.encodedTypes = none ∧
        ∃ name, method.decoratedName charSet = .ok name) ∨
      ∃ type, HostType.firstUnencodable? method.encodedTypes = some type ∧
        method.decoratedName charSet = .error (.unsupportedType type) := by
  rcases HostType.nativeTypes_cases method.encodedTypes with ⟨hnone, natives, hnatives⟩ |
    ⟨type, hfirst, herror⟩
  · refine Or.inl ⟨hnone, ?_⟩
    cases hname : method.decoratedName charSet with
    | ok name => exact ⟨name, rfl⟩
    | error error =>
        rw [decoratedName_eq_error_iff, hnatives] at hname
        cases hname
  · exact Or.inr ⟨type, hfirst, decoratedName_eq_error_iff.mpr herror⟩

theorem decorate_of_tail_eq {parameters parameters' : List HostType}
    (h : parameters.tail = parameters'.tail) :
    ({ method with kind := .virtualMember, parameters } : Method).decorate charSet =
      ({ method with kind := .virtualMember, parameters := parameters' } : Method).decorate
        charSet := by
  unfold decorate encodedParameters
  simp only [h]
  rfl

/-- A method has a decorated name if its return type and its parameters behind a receiver are all
encodable, and otherwise the first of them that is not, whole, is the error. Neither the result nor
the events depend on the receiver of a virtual member, or on whether it has one. -/
theorem decoratedName_fails_at_first (method : Method) (charSet : CharSet) :
    method.encodedTypes = method.returnType ::
        (match method.kind with
        | .free | .staticMember => method.parameters
        | .virtualMember => method.parameters.tail) ∧
      ((∃ name, method.decoratedName charSet = .ok name) ↔
        ∀ type ∈ method.encodedTypes, type.IsEncodable) ∧
      (∀ error, method.decoratedName charSet = .error error ↔
        ∃ type, error = .unsupportedType type ∧
          ∃ before after, method.encodedTypes = before ++ type :: after ∧
            (∀ earlier ∈ before, earlier.IsEncodable) ∧ ¬ type.IsEncodable) ∧
      (∀ (receiver receiver' : HostType) (parameters : List HostType),
        ({ method with kind := .virtualMember, parameters := receiver :: parameters } :
            Method).decorate charSet =
          ({ method with kind := .virtualMember, parameters := receiver' :: parameters } :
            Method).decorate charSet) ∧
      ∀ receiver : HostType,
        ({ method with kind := .virtualMember, parameters := [receiver] } : Method).decorate
            charSet =
          ({ method with kind := .virtualMember, parameters := [] } : Method).decorate charSet := by
  refine ⟨?_, ?_, ?_, ?_, ?_⟩
  · rfl
  · rw [← HostType.firstUnencodable?_eq_none_iff]
    rcases decoratedName_cases method charSet with ⟨hnone, name, hname⟩ | ⟨type, hfirst, herror⟩
    · simp [hnone, hname]
    · simp [hfirst, herror]
  · intro error
    simp only [← HostType.firstUnencodable?_eq_some_iff]
    rcases decoratedName_cases method charSet with ⟨hnone, name, hname⟩ | ⟨type, hfirst, herror⟩
    · simp [hnone, hname]
    · simp [hfirst, herror, eq_comm]
  · exact fun receiver receiver' parameters => decorate_of_tail_eq rfl
  · exact fun receiver => decorate_of_tail_eq rfl

/-- A reference to a reference is refused whole, although the inner one has a code. -/
example : ((virtualMember "f").addParameters
    [.primitive .object, (HostType.primitive .int32).byRef, (HostType.primitive .int32).byRef.byRef,
      .primitive .boolean]).decoratedName =
      .error (.unsupportedType (HostType.primitive .int32).byRef.byRef) := rfl

end Method

end DecoratedNames
