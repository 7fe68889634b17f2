import DecoratedNames.CharSet
import DecoratedNames.HostType

namespace DecoratedNames

/-- `char` follows the character set and `wideChar` does not. -/
inductive NativeType
  | int8 | uint8 | int16 | uint16 | int32 | uint32 | int64 | uint64
  | float32 | float64
  | char | wideChar
  | void
  | stringPointer
  | int32Reference
  deriving DecidableEq, Repr

namespace NativeType

def all : List NativeType :=
  [int8, uint8, int16, uint16, int32, uint32, int64, uint64, float32, float64, char, wideChar,
   void, stringPointer, int32Reference]

@[simp] theorem mem_all (type : NativeType) : type ∈ all := by
  cases type <;> decide

def name : NativeType → String
  | int8 => "Int8"
  | uint8 => "UInt8"
  | int16 => "Int16"
  | uint16 => "UInt16"
  | int32 => "Int32"
  | uint32 => "UInt32"
  | int64 => "Int64"
  | uint64 => "UInt64"
  | float32 => "Float32"
  | float64 => "Float64"
  | char => "Char"
  | wideChar => "WideChar"
  | void => "Void"
  | stringPointer => "StringPointer"
  | int32Reference => "Int32Reference"

/-- The type code. Behind `P` for a pointer or reference, `E` says that it has 64 bits, and `A` or
`B` that its target is writable or constant. -/
def code (type : NativeType) (charSet : CharSet) : String :=
  match type with
  | int8 => "C"
  | uint8 => "E"
  | int16 => "F"
  | uint16 => "G"
  | int32 => "H"
  | uint32 => "I"
  | int64 => "_J"
  | uint64 => "_K"
  | float32 => "M"
  | float64 => "N"
  | char => charSet.charCode
  | wideChar => "_W"
  | void => "X"
  | stringPointer => "PEB" ++ charSet.charCode
  | int32Reference => "PEAH"

def ofPrimitive? : Primitive → Option NativeType
  | .void => some void
  | .char => some char
  | .int8 => some int8
  | .uint8 => some uint8
  | .int16 => some int16
  | .uint16 => some uint16
  | .int32 => some int32
  | .uint32 => some uint32
  | .int64 => some int64
  | .uint64 => some uint64
  | .float32 => some float32
  | .float64 => some float64
  | .string => some stringPointer
  | .boolean | .nativeInt | .nativeUInt | .object => none

def ofHostType? : HostType → Option NativeType
  | .primitive p => ofPrimitive? p
  | .wrapped (.primitive .int32) .byRef => some int32Reference
  | _ => none

end NativeType

end DecoratedNames
