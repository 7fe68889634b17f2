import DecoratedNames.Method
import DecoratedNames.TypeCode

namespace DecoratedNames

namespace Method

/-- The return type is looked at before the parameters, and an event tells of the finished name. -/
def decorate (method : Method) (charSet : CharSet) : Recorded DecoratedName := do
  let returnCode ← method.returnType.typeCode charSet
  let parameters ← HostType.parameterCode charSet method.encodedParameters
  let name : DecoratedName :=
    ⟨"?" ++ method.qualifiedName ++ "@@" ++ method.accessCode ++ "A" ++ returnCode ++ parameters
      ++ "Z"⟩
  Recorded.record (.decorated method.name method.kind charSet name)
  return name

def decoratedName (method : Method) (charSet : CharSet := default) :
    Except Error DecoratedName :=
  (method.decorate charSet).result

def decoratedNames (methods : List Method) (charSet : CharSet) :
    List (Except Error DecoratedName) :=
  methods.map fun method => method.decoratedName charSet

end Method

end DecoratedNames
