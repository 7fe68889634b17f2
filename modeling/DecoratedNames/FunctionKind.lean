namespace DecoratedNames

/-- A free function belongs to a namespace, a member to a class. Only a virtual member has a
receiver, which its first parameter describes. -/
inductive FunctionKind
  | free | staticMember | virtualMember
  deriving DecidableEq, Repr

namespace LibraryKind

def virtual : Int32 := 0
def pureVirtual : Int32 := 1
def nonVirtual : Int32 := 2
def static : Int32 := 3
def dispatch : Int32 := 4

def all : List Int32 := [virtual, pureVirtual, nonVirtual, static, dispatch]

end LibraryKind

namespace FunctionKind

instance : Inhabited FunctionKind := ⟨.free⟩

def all : List FunctionKind := [free, staticMember, virtualMember]

def name : FunctionKind → String
  | free => "Free"
  | staticMember => "StaticMember"
  | virtualMember => "VirtualMember"

/-- In a type library a static member counts as non-virtual; any other number is a free function. -/
def ofLibraryKind (kind : Int32) : FunctionKind :=
  if kind = LibraryKind.virtual then virtualMember
  else if kind = LibraryKind.nonVirtual then staticMember
  else free

def constSuffix : String := "_const"

def withoutConst? (name : String) : Option String :=
  (constSuffix.toList.isSuffixOf? name.toList).map String.ofList

def accessCode (kind : FunctionKind) (name : String) : String :=
  match kind with
  | free => "Y"
  | staticMember => "S"
  | virtualMember => if (withoutConst? name).isSome then "QEB" else "QEA"

def nativeName (kind : FunctionKind) (name : String) : String :=
  match kind with
  | free | staticMember => name
  | virtualMember => (withoutConst? name).getD name

end FunctionKind

end DecoratedNames
