namespace DecoratedNames

inductive CharSet
  | narrow | wide
  deriving DecidableEq, Repr

namespace ImportFlags

def noMangle : UInt32 := 0x0001
def charSetNotSpecified : UInt32 := 0x0000
def charSetAnsi : UInt32 := 0x0002
def charSetUnicode : UInt32 := 0x0004
def charSetAuto : UInt32 := 0x0006
def charSetMask : UInt32 := 0x0006

def all : List UInt32 :=
  [noMangle, charSetNotSpecified, charSetAnsi, charSetUnicode, charSetAuto, charSetMask]

end ImportFlags

namespace CharSet

instance : Inhabited CharSet := ⟨.wide⟩

def all : List CharSet := [narrow, wide]

def name : CharSet → String
  | narrow => "Narrow"
  | wide => "Wide"

def charCode : CharSet → String
  | narrow => "D"
  | wide => "_W"

/-- Unicode and automatic imports are wide; an unspecified character set means ANSI. -/
def ofImportFlags (flags : UInt32) : CharSet :=
  let selected := flags &&& ImportFlags.charSetMask
  if selected = ImportFlags.charSetUnicode ∨ selected = ImportFlags.charSetAuto then wide
  else narrow

end CharSet

end DecoratedNames
