import DecoratedNames.Text.Search

namespace DecoratedNames

structure Scope where
  segments : List String
  deriving DecidableEq, Repr

namespace Scope

def leadingMarker : List Char := "DllImport.".toList
def embeddedMarker : List Char := ".DllImport.".toList
def shortMarker : List Char := "._.".toList

/-- The text behind the marker. A marker that opens the namespace comes before an embedded one and
that before a short one, wherever they stand. -/
def nativeText? (hint : List Char) : Option (List Char) :=
  leadingMarker.isPrefixOf? hint
    <|> Text.after? embeddedMarker hint
    <|> Text.after? shortMarker hint

def ofNamespace (hint : String) : Scope :=
  match nativeText? hint.toList with
  | some native => ⟨(native.splitOn '.').map String.ofList⟩
  | none => ⟨[]⟩

def text (scope : Scope) : String :=
  String.join (scope.segments.reverse.map ("@" ++ ·))

end Scope

end DecoratedNames
