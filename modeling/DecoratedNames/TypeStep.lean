import DecoratedNames.TypeName

namespace DecoratedNames

inductive TypeStep
  | wrap (wrapper : Wrapper)
  | unwrap
  /-- The type is displayed and its display is read again. -/
  | reparse
  deriving DecidableEq, Repr

def TypeStep.apply (step : TypeStep) (type : HostType) : Except Error HostType :=
  match step with
  | .wrap wrapper => .ok (type.wrapped wrapper)
  | .unwrap => .ok type.unwrap
  | .reparse => HostType.parse type.display

end DecoratedNames
