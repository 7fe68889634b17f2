import DecoratedNames.NativeType
import DecoratedNames.Recorded

namespace DecoratedNames

namespace HostType

def nativeType (type : HostType) : Recorded NativeType :=
  match NativeType.ofHostType? type with
  | some native => pure native
  | none => Recorded.reject (.unsupportedType type) (.rejected type)

def typeCode (type : HostType) (charSet : CharSet) : Recorded String := do
  let native ← type.nativeType
  return native.code charSet

def typeCodes (charSet : CharSet) : List HostType → Recorded (List String)
  | [] => return []
  | type :: types => do
      let code ← type.typeCode charSet
      let codes ← typeCodes charSet types
      return code :: codes

/-- A parameter list ends in `@`, and one without any code is the code of `void` alone. -/
def parameterCode (charSet : CharSet) (parameters : List HostType) : Recorded String := do
  let codes := String.join (← typeCodes charSet parameters)
  return if codes.isEmpty then NativeType.void.code charSet else codes ++ "@"

end HostType

end DecoratedNames
