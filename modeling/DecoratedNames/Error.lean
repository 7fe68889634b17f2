import DecoratedNames.HostType

namespace DecoratedNames

inductive Error
  /-- A return or parameter type, given whole, that has no type code. -/
  | unsupportedType (type : HostType)
  /-- A text, given with its blanks, that is no type name. -/
  | invalidTypeName (text : String)
  deriving DecidableEq, Repr

def Error.message : Error → String
  | .unsupportedType type =>
      "Type '" ++ type.display ++ "' is not supported by the decorated-name encoder"
  | .invalidTypeName text => "Invalid type name - '" ++ text ++ "'"

end DecoratedNames
