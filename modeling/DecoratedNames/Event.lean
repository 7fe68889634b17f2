import DecoratedNames.CharSet
import DecoratedNames.DecoratedName
import DecoratedNames.FunctionKind
import DecoratedNames.HostType

namespace DecoratedNames

inductive Level
  | debug | trace
  deriving DecidableEq, Repr

def Level.name : Level → String
  | .debug => "DEBUG"
  | .trace => "TRACE"

inductive Event
  | rejected (type : HostType)
  | decorated (method : String) (kind : FunctionKind) (charSet : CharSet) (name : DecoratedName)
  deriving DecidableEq, Repr

namespace Event

def level : Event → Level
  | rejected _ => .debug
  | decorated .. => .trace

def message : Event → String
  | rejected _ => "rejecting type without a type code"
  | decorated .. => "mangled"

def fields : Event → List (String × String)
  | rejected type => [("ty", type.display)]
  | decorated method kind charSet name =>
      [("method", method), ("kind", kind.name), ("char_set", charSet.name), ("mangled", name.text)]

end Event

end DecoratedNames
