import DecoratedNames.FunctionKind
import DecoratedNames.HostType
import DecoratedNames.Scope

namespace DecoratedNames

structure Method where
  name : String := ""
  owner : String := ""
  hostNamespace : String := ""
  returnType : HostType := default
  parameters : List HostType := []
  kind : FunctionKind := default
  deriving DecidableEq, Repr

namespace Method

instance : Inhabited Method := ⟨{}⟩

def ofKind (kind : FunctionKind) (name : String) : Method := { name, kind }

def free (name : String) : Method := ofKind .free name

def staticMember (name : String) : Method := ofKind .staticMember name

def virtualMember (name : String) : Method := ofKind .virtualMember name

def withOwner (method : Method) (owner : String) : Method := { method with owner }

def withNamespace (method : Method) (hostNamespace : String) : Method :=
  { method with hostNamespace }

def returning (method : Method) (returnType : HostType) : Method := { method with returnType }

def addParameters (method : Method) (parameters : List HostType) : Method :=
  { method with parameters := method.parameters ++ parameters }

def addParameter (method : Method) (parameter : HostType) : Method :=
  method.addParameters [parameter]

def scope (method : Method) : Scope := Scope.ofNamespace method.hostNamespace

/-- The parameters that a caller of the native function passes, so all but the receiver. -/
def encodedParameters (method : Method) : List HostType :=
  match method.kind with
  | .free | .staticMember => method.parameters
  | .virtualMember => method.parameters.tail

def accessCode (method : Method) : String := method.kind.accessCode method.name

def qualifiedName (method : Method) : String :=
  let name := method.kind.nativeName method.name
  match method.kind with
  | .free => name ++ method.scope.text
  | .staticMember | .virtualMember => name ++ "@" ++ method.owner ++ method.scope.text

end Method

end DecoratedNames
