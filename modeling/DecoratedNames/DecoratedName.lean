namespace DecoratedNames

structure DecoratedName where
  text : String
  deriving DecidableEq, Repr

namespace DecoratedName

instance : Ord DecoratedName := ⟨fun left right => compare left.text right.text⟩

def sortDistinct (names : List DecoratedName) : List DecoratedName :=
  (names.mergeSort fun left right => (compare left right).isLE).eraseReps

end DecoratedName

end DecoratedNames
