namespace DecoratedNames

inductive Primitive
  | void | boolean | char
  | int8 | uint8 | int16 | uint16 | int32 | uint32 | int64 | uint64
  | float32 | float64
  | nativeInt | nativeUInt
  | string | object
  deriving DecidableEq, Repr

namespace Primitive

def all : List Primitive :=
  [void, boolean, char, int8, uint8, int16, uint16, int32, uint32, int64, uint64,
   float32, float64, nativeInt, nativeUInt, string, object]

@[simp] theorem mem_all (p : Primitive) : p ∈ all := by
  cases p <;> decide

def fullName : Primitive → String
  | void => "System.Void"
  | boolean => "System.Boolean"
  | char => "System.Char"
  | int8 => "System.SByte"
  | uint8 => "System.Byte"
  | int16 => "System.Int16"
  | uint16 => "System.UInt16"
  | int32 => "System.Int32"
  | uint32 => "System.UInt32"
  | int64 => "System.Int64"
  | uint64 => "System.UInt64"
  | float32 => "System.Single"
  | float64 => "System.Double"
  | nativeInt => "System.IntPtr"
  | nativeUInt => "System.UIntPtr"
  | string => "System.String"
  | object => "System.Object"

def keyword : Primitive → String
  | void => "void"
  | boolean => "bool"
  | char => "char"
  | int8 => "sbyte"
  | uint8 => "byte"
  | int16 => "short"
  | uint16 => "ushort"
  | int32 => "int"
  | uint32 => "uint"
  | int64 => "long"
  | uint64 => "ulong"
  | float32 => "float"
  | float64 => "double"
  | nativeInt => "nint"
  | nativeUInt => "nuint"
  | string => "string"
  | object => "object"

/-- The primitive that a name spells, in full or as a keyword; the case of letters matters. -/
def ofName? (name : String) : Option Primitive :=
  all.find? fun p => name = p.fullName || name = p.keyword

@[simp] theorem ofName?_fullName (p : Primitive) : ofName? p.fullName = some p := by
  cases p <;> decide

@[simp] theorem ofName?_keyword (p : Primitive) : ofName? p.keyword = some p := by
  cases p <;> decide

theorem ofName?_eq_some_iff {name : String} {p : Primitive} :
    ofName? name = some p ↔ name = p.fullName ∨ name = p.keyword := by
  constructor
  · intro h
    simpa using List.find?_some h
  · rintro (rfl | rfl)
    · exact ofName?_fullName p
    · exact ofName?_keyword p

end Primitive

end DecoratedNames
