import DecoratedNames.Decoration

/-! Native signatures. Decorating a method is finding the native types of its signature and then
writing them down, so the first type without a native type decides the error in any character
set. -/

namespace DecoratedNames

namespace NativeType

/-- The host type that stands for a native type; none stands for `wideChar`. -/
def hostType? : NativeType → Option HostType
  | int8 => some (.primitive .int8)
  | uint8 => some (.primitive .uint8)
  | int16 => some (.primitive .int16)
  | uint16 => some (.primitive .uint16)
  | int32 => some (.primitive .int32)
  | uint32 => some (.primitive .uint32)
  | int64 => some (.primitive .int64)
  | uint64 => some (.primitive .uint64)
  | float32 => some (.primitive .float32)
  | float64 => some (.primitive .float64)
  | char => some (.primitive .char)
  | wideChar => none
  | void => some (.primitive .void)
  | stringPointer => some (.primitive .string)
  | int32Reference => some (HostType.primitive .int32).byRef

theorem ofHostType?_eq_some_iff {type : HostType} {native : NativeType} :
    ofHostType? type = some native ↔ native.hostType? = some type := by
  constructor
  · intro h
    unfold ofHostType? at h
    split at h
    · rename_i p
      cases p <;> cases h <;> rfl
    · cases h
      rfl
    · cases h
  · intro h
    cases native <;> cases h <;> rfl

theorem ne_wideChar {native : NativeType} {type : HostType} (h : native.hostType? = some type) :
    native ≠ wideChar := by
  intro hwide
  subst hwide
  cases h

end NativeType

section Sequence

variable {α β γ : Type} {first : Except Error α} {second : Except Error β} {combine : α → β → γ}

theorem bind_map_eq_ok_iff {c : γ} :
    (first.bind fun a => second.map (combine a)) = .ok c ↔
      ∃ a b, first = .ok a ∧ second = .ok b ∧ combine a b = c := by
  cases first with
  | error error => simp [Except.bind]
  | ok a => cases second <;> simp [Except.bind, Except.map]

theorem bind_map_eq_error_iff {error : Error} :
    (first.bind fun a => second.map (combine a)) = .error error ↔
      first = .error error ∨ ∃ a, first = .ok a ∧ second = .error error := by
  cases first with
  | error error => simp [Except.bind]
  | ok a => cases second <;> simp [Except.bind, Except.map]

end Sequence

namespace HostType

def nativeTypes : List HostType → Except Error (List NativeType)
  | [] => .ok []
  | type :: types =>
      type.nativeType.result.bind fun native =>
        (nativeTypes types).map fun natives => native :: natives

theorem nativeType_result (type : HostType) :
    type.nativeType.result =
      match NativeType.ofHostType? type with
      | some native => .ok native
      | none => .error (.unsupportedType type) := by
  unfold nativeType
  cases NativeType.ofHostType? type <;> rfl

@[simp] theorem nativeType_eq_ok_iff {type : HostType} {native : NativeType} :
    type.nativeType.result = .ok native ↔ native.hostType? = some type := by
  rw [nativeType_result, ← NativeType.ofHostType?_eq_some_iff]
  cases NativeType.ofHostType? type <;> simp

@[simp] theorem typeCode_result (type : HostType) (charSet : CharSet) :
    (type.typeCode charSet).result = type.nativeType.result.map fun native =>
      native.code charSet := by
  rw [typeCode, Recorded.result_bind]
  cases type.nativeType.result <;> rfl

@[simp] theorem typeCodes_result (charSet : CharSet) (types : List HostType) :
    (typeCodes charSet types).result = (nativeTypes types).map fun natives =>
      natives.map fun native => native.code charSet := by
  induction types with
  | nil => rfl
  | cons type types ih =>
      simp only [typeCodes, nativeTypes, Recorded.result_bind, typeCode_result, ih]
      cases type.nativeType.result with
      | error error => rfl
      | ok native => cases nativeTypes types <;> rfl

theorem nativeTypes_eq_ok_iff {types : List HostType} {natives : List NativeType} :
    nativeTypes types = .ok natives ↔
      natives.map NativeType.hostType? = types.map some := by
  induction types generalizing natives with
  | nil => cases natives <;> simp [nativeTypes]
  | cons type types ih =>
      rw [nativeTypes, bind_map_eq_ok_iff]
      cases natives with
      | nil => simp
      | cons native natives => simp [ih]

theorem typeCode_of_hostType? {charSet : CharSet} {type : HostType} {native : NativeType}
    (h : native.hostType? = some type) :
    (type.typeCode charSet).result = .ok (native.code charSet) := by
  rw [typeCode_result, nativeType_eq_ok_iff.mpr h]
  rfl

theorem map_typeCode_of_hostType? {charSet : CharSet} {types : List HostType}
    {natives : List NativeType} (h : natives.map NativeType.hostType? = types.map some) :
    types.map (fun type => (type.typeCode charSet).result) =
      (natives.map fun native => native.code charSet).map Except.ok := by
  induction types generalizing natives with
  | nil =>
      cases natives with
      | nil => rfl
      | cons native natives => cases h
  | cons type types ih =>
      cases natives with
      | nil => cases h
      | cons native natives =>
          rcases List.cons.inj h with ⟨hnative, hnatives⟩
          rw [List.map_cons, typeCode_of_hostType? hnative, ih hnatives]
          rfl

theorem wideChar_not_mem {types : List HostType} {natives : List NativeType}
    (h : nativeTypes types = .ok natives) : NativeType.wideChar ∉ natives := by
  intro hwide
  have hnone : none ∈ types.map some := by
    rw [← nativeTypes_eq_ok_iff.mp h]
    exact List.mem_map_of_mem hwide
  simp at hnone

theorem nativeTypes_injective {left right : List HostType} {natives : List NativeType}
    (hleft : nativeTypes left = .ok natives) (hright : nativeTypes right = .ok natives) :
    left = right := by
  have hsome : left.map some = right.map some := by
    rw [← nativeTypes_eq_ok_iff.mp hleft, ← nativeTypes_eq_ok_iff.mp hright]
  exact (List.map_inj_right fun _ _ h => Option.some.inj h).mp hsome

end HostType

namespace NativeType

theorem code_mem_all (native : NativeType) (charSet : CharSet) :
    native.code charSet ∈ all.map fun native => native.code charSet :=
  List.mem_map_of_mem (mem_all native)

/-- Without parameters the list is the code of `void`, and otherwise it ends in `@`. -/
def parameterText (charSet : CharSet) : List NativeType → String
  | [] => void.code charSet
  | natives => String.join (natives.map fun native => native.code charSet) ++ "@"

theorem code_ne_empty (native : NativeType) (charSet : CharSet) : native.code charSet ≠ "" := by
  cases native <;> cases charSet <;> decide

end NativeType

structure NativeSignature where
  returnType : NativeType
  parameters : List NativeType
  deriving DecidableEq, Repr

namespace NativeSignature

def natives (signature : NativeSignature) : List NativeType :=
  signature.returnType :: signature.parameters

def text (signature : NativeSignature) (charSet : CharSet) : String :=
  signature.returnType.code charSet ++ NativeType.parameterText charSet signature.parameters ++ "Z"

end NativeSignature

@[simp] theorem HostType.parameterCode_result (charSet : CharSet) (types : List HostType) :
    (parameterCode charSet types).result =
      (nativeTypes types).map (NativeType.parameterText charSet) := by
  rw [parameterCode, Recorded.result_bind, typeCodes_result]
  cases nativeTypes types with
  | error error => rfl
  | ok natives =>
      cases natives with
      | nil => rfl
      | cons native natives =>
          have hne : (String.join ((native :: natives).map fun native =>
              native.code charSet)).isEmpty = false := by
            simp [NativeType.code_ne_empty]
          simp only [Except.map, Except.bind, hne]
          rfl

theorem HostType.parameterText_of_hostType? {charSet : CharSet} {types : List HostType}
    {natives : List NativeType} (h : natives.map NativeType.hostType? = types.map some) :
    NativeType.parameterText charSet natives =
      if types = [] then "X"
      else String.join (natives.map fun native => native.code charSet) ++ "@" := by
  cases natives with
  | nil =>
      rw [if_pos (List.map_eq_nil_iff.mp h.symm)]
      rfl
  | cons native natives =>
      have hne : types ≠ [] := by
        rintro rfl
        cases h
      rw [if_neg hne]
      rfl

namespace Method

/-- The types that a decorated name encodes, in the order in which they are looked at. -/
def encodedTypes (method : Method) : List HostType :=
  method.returnType :: method.encodedParameters

def nativeSignature (method : Method) : Except Error NativeSignature :=
  method.returnType.nativeType.result.bind fun returnType =>
    (HostType.nativeTypes method.encodedParameters).map fun parameters =>
      { returnType, parameters }

def nameText (method : Method) (charSet : CharSet) (signature : NativeSignature) : String :=
  "?" ++ method.qualifiedName ++ "@@" ++ method.accessCode ++ "A" ++ signature.text charSet

theorem decoratedName_eq (method : Method) (charSet : CharSet) :
    method.decoratedName charSet =
      method.nativeSignature.map fun signature => ⟨method.nameText charSet signature⟩ := by
  unfold decoratedName decorate nativeSignature
  simp only [Recorded.result_bind, HostType.typeCode_result, HostType.parameterCode_result]
  cases method.returnType.nativeType.result with
  | error error => rfl
  | ok returnType =>
      cases HostType.nativeTypes method.encodedParameters with
      | error error => rfl
      | ok parameters =>
          simp only [Except.map, Except.bind, nameText, NativeSignature.text, ← String.append_assoc]
          rfl

theorem nativeSignature_eq_ok_iff {method : Method} {signature : NativeSignature} :
    method.nativeSignature = .ok signature ↔
      HostType.nativeTypes method.encodedTypes = .ok signature.natives := by
  rcases signature with ⟨returnType, parameters⟩
  rw [nativeSignature, encodedTypes, HostType.nativeTypes, NativeSignature.natives,
    bind_map_eq_ok_iff, bind_map_eq_ok_iff]
  simp

theorem decoratedName_eq_ok_iff {method : Method} {charSet : CharSet} {name : DecoratedName} :
    method.decoratedName charSet = .ok name ↔
      ∃ signature, method.nativeSignature = .ok signature ∧
        name = ⟨method.nameText charSet signature⟩ := by
  rw [decoratedName_eq]
  cases method.nativeSignature <;> simp [Except.map, eq_comm]

end Method

end DecoratedNames
