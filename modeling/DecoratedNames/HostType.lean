import DecoratedNames.Primitive

namespace DecoratedNames

inductive Wrapper
  | byRef | pointer | array
  deriving DecidableEq, Repr

def Wrapper.text : Wrapper → String
  | .byRef => "&"
  | .pointer => "*"
  | .array => "[]"

/-- A named type carries its name as given, and `wrapped` adds one wrapper on the outside. -/
inductive HostType
  | primitive (primitive : Primitive)
  | classType (name : String)
  | valueType (name : String)
  | wrapped (inner : HostType) (wrapper : Wrapper)
  deriving DecidableEq, Repr

namespace HostType

instance : Inhabited HostType := ⟨.primitive .void⟩

def byRef (type : HostType) : HostType := type.wrapped .byRef

def pointer (type : HostType) : HostType := type.wrapped .pointer

def array (type : HostType) : HostType := type.wrapped .array

/-- Wraps a type once per wrapper, so that the first of them is the innermost. -/
def wrapAll (type : HostType) (wrappers : List Wrapper) : HostType :=
  wrappers.foldl wrapped type

def unwrap : HostType → HostType
  | .wrapped inner _ => inner
  | type => type

def centre : HostType → HostType
  | .wrapped inner _ => inner.centre
  | type => type

def outsideIn : HostType → List Wrapper
  | .wrapped inner wrapper => wrapper :: inner.outsideIn
  | _ => []

def wrappers (type : HostType) : List Wrapper :=
  type.outsideIn.reverse

def primitiveName? : HostType → Option String
  | .primitive p => some p.fullName
  | _ => none

def display : HostType → String
  | .primitive p => p.fullName
  | .classType name => name
  | .valueType name => name
  | .wrapped inner wrapper => inner.display ++ wrapper.text

def ofElement (name : String) : HostType :=
  match Primitive.ofName? name with
  | some p => .primitive p
  | none => .classType name

@[simp] theorem centre_ofElement (name : String) : (ofElement name).centre = ofElement name := by
  unfold ofElement
  split <;> rfl

@[simp] theorem wrappers_ofElement (name : String) : (ofElement name).wrappers = [] := by
  unfold ofElement
  split <;> rfl

@[simp] theorem wrappers_classType (name : String) : (classType name).wrappers = [] := rfl

@[simp] theorem wrapAll_nil (type : HostType) : type.wrapAll [] = type := rfl

@[simp] theorem wrapAll_cons (type : HostType) (wrapper : Wrapper) (wrappers : List Wrapper) :
    type.wrapAll (wrapper :: wrappers) = (type.wrapped wrapper).wrapAll wrappers := rfl

@[simp] theorem wrapAll_append (type : HostType) (inner outer : List Wrapper) :
    type.wrapAll (inner ++ outer) = (type.wrapAll inner).wrapAll outer :=
  List.foldl_append

@[simp] theorem centre_wrapped (inner : HostType) (wrapper : Wrapper) :
    (inner.wrapped wrapper).centre = inner.centre := rfl

@[simp] theorem wrappers_wrapped (inner : HostType) (wrapper : Wrapper) :
    (inner.wrapped wrapper).wrappers = inner.wrappers ++ [wrapper] :=
  List.reverse_cons

@[simp] theorem display_wrapped (inner : HostType) (wrapper : Wrapper) :
    (inner.wrapped wrapper).display = inner.display ++ wrapper.text := rfl

@[simp] theorem centre_centre (type : HostType) : type.centre.centre = type.centre := by
  induction type with
  | wrapped inner wrapper ih => exact ih
  | _ => rfl

@[simp] theorem wrapAll_wrappers (type : HostType) : type.centre.wrapAll type.wrappers = type := by
  induction type with
  | wrapped inner wrapper ih => simp [ih]
  | _ => rfl

@[simp] theorem centre_wrapAll (type : HostType) (wrappers : List Wrapper) :
    (type.wrapAll wrappers).centre = type.centre := by
  induction wrappers generalizing type with
  | nil => rfl
  | cons wrapper wrappers ih => simp [ih]

@[simp] theorem wrappers_wrapAll (type : HostType) (wrappers : List Wrapper) :
    (type.wrapAll wrappers).wrappers = type.wrappers ++ wrappers := by
  induction wrappers generalizing type with
  | nil => simp
  | cons wrapper wrappers ih => simp [ih]

@[simp] theorem display_wrapAll (type : HostType) (wrappers : List Wrapper) :
    (type.wrapAll wrappers).display = type.display ++ String.join (wrappers.map Wrapper.text) := by
  induction wrappers generalizing type with
  | nil => simp
  | cons wrapper wrappers ih => simp [ih, String.append_assoc]

end HostType

end DecoratedNames
