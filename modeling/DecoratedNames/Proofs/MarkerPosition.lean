import DecoratedNames.Proofs.ScopeSegments

namespace DecoratedNames

namespace Text

def offset? (marker : List Char) : List Char → Option Nat
  | [] => if marker.isPrefixOf [] then some 0 else none
  | c :: text =>
      if marker.isPrefixOf (c :: text) then some 0 else (offset? marker text).map (· + 1)

theorem isPrefixOf?_eq (marker text : List Char) :
    marker.isPrefixOf? text =
      if marker.isPrefixOf text then some (text.drop marker.length) else none := by
  split
  · rename_i hprefix
    obtain ⟨rest, rfl⟩ := List.isPrefixOf_iff_prefix.mp hprefix
    rw [List.isPrefixOf?_eq_some_iff_append_eq, List.drop_left]
  · rename_i hprefix
    rwa [← Option.not_isSome_iff_eq_none, List.isSome_isPrefixOf?_eq_isPrefixOf]

theorem after?_eq (marker text : List Char) :
    after? marker text = (offset? marker text).map fun k => (text.drop k).drop marker.length := by
  induction text with
  | nil =>
      rw [after?, isPrefixOf?_eq, offset?]
      split <;> rfl
  | cons c text ih =>
      rw [after?, isPrefixOf?_eq, ih, offset?]
      split
      · rfl
      · rw [Option.map_map]
        rfl

theorem prefix_drop_offset? {marker text : List Char} {k : Nat}
    (h : offset? marker text = some k) : marker <+: text.drop k := by
  induction text generalizing k with
  | nil =>
      rw [offset?] at h
      split at h
      · rename_i hprefix
        rw [List.drop_nil]
        exact List.isPrefixOf_iff_prefix.mp hprefix
      · cases h
  | cons c text ih =>
      rw [offset?] at h
      split at h
      · rename_i hprefix
        obtain rfl := Option.some.inj h
        exact List.isPrefixOf_iff_prefix.mp hprefix
      · obtain ⟨offset, hoffset, rfl⟩ := Option.map_eq_some_iff.mp h
        exact ih hoffset

end Text

namespace Scope

/-- Where a marker starts in a host namespace, and how many segments it takes up from there. A
leading marker takes up its word; behind any other offset there is an empty segment as well. -/
def markerPosition? (hint : List Char) : Option (Nat × Nat) :=
  if leadingMarker.isPrefixOf hint then some (0, 1)
  else ((Text.offset? embeddedMarker hint).or (Text.offset? shortMarker hint)).map (·, 2)

theorem splitOn_of_leading {word text rest : List Char} (hword : '.' ∉ word)
    (h : (word ++ ['.']).isPrefixOf? text = some rest) :
    rest.splitOn '.' = (text.splitOn '.').drop 1 := by
  rw [List.isPrefixOf?_eq_some_iff_append_eq] at h
  have htext : text = word ++ '.' :: rest := by simp [← h]
  rw [htext, List.splitOn_append_cons_self_of_not_mem hword]
  rfl

theorem splitOn_of_inner {word text : List Char} (hword : '.' ∉ word)
    (h : '.' :: (word ++ ['.']) <+: text) :
    (text.drop ('.' :: (word ++ ['.'])).length).splitOn '.' = (text.splitOn '.').drop 2 := by
  obtain ⟨rest, rfl⟩ := h
  have htext : '.' :: (word ++ ['.']) ++ rest = [] ++ '.' :: (word ++ '.' :: rest) := by simp
  rw [List.drop_left, htext, List.splitOn_append_cons_self_of_not_mem List.not_mem_nil,
    List.splitOn_append_cons_self_of_not_mem hword]
  rfl

theorem splitOn_after? {word : List Char} (text : List Char) (hword : '.' ∉ word) :
    (Text.after? ('.' :: (word ++ ['.'])) text).map (·.splitOn '.') =
      (Text.offset? ('.' :: (word ++ ['.'])) text).map fun k =>
        ((text.drop k).splitOn '.').drop 2 := by
  rw [Text.after?_eq]
  cases hoffset : Text.offset? ('.' :: (word ++ ['.'])) text with
  | none => rfl
  | some k => exact congrArg some (splitOn_of_inner hword (Text.prefix_drop_offset? hoffset))

theorem splitOn_nativeText? (hint : List Char) :
    (nativeText? hint).map (·.splitOn '.') =
      (markerPosition? hint).map fun (offset, taken) =>
        ((hint.drop offset).splitOn '.').drop taken := by
  rw [nativeText?_eq_or, markerPosition?, leadingMarker_eq, embeddedMarker_eq, shortMarker_eq,
    Option.map_or, Option.map_or, splitOn_after? hint dot_not_mem_longWord,
    splitOn_after? hint dot_not_mem_shortWord]
  cases hopens : (longWord ++ ['.']).isPrefixOf? hint with
  | some rest =>
      have hprefix : (longWord ++ ['.']).isPrefixOf hint = true := by
        rw [← List.isSome_isPrefixOf?_eq_isPrefixOf, hopens]
        rfl
      rw [if_pos hprefix]
      exact congrArg some (splitOn_of_leading dot_not_mem_longWord hopens)
  | none =>
      have hprefix : ¬(longWord ++ ['.']).isPrefixOf hint = true := by
        rw [← List.isSome_isPrefixOf?_eq_isPrefixOf, hopens]
        exact Bool.false_ne_true
      rw [if_neg hprefix, Option.map_map, Option.map_or]
      rfl

/-- The segments behind the marker are those of the namespace from the offset of the marker on,
without the segments that the marker takes up. -/
theorem segments_of_markerPosition (hint : String) :
    (ofNamespace hint).segments =
      match markerPosition? hint.toList with
      | none => []
      | some (offset, taken) =>
          (((hint.toList.drop offset).splitOn '.').drop taken).map String.ofList := by
  have hsplit := splitOn_nativeText? hint.toList
  rw [ofNamespace]
  cases hposition : markerPosition? hint.toList with
  | none =>
      rw [hposition, Option.map_none, Option.map_eq_none_iff] at hsplit
      rw [hsplit]
  | some position =>
      rw [hposition, Option.map_some, Option.map_eq_some_iff] at hsplit
      obtain ⟨native, hnative, hsegments⟩ := hsplit
      rw [hnative]
      exact congrArg (List.map String.ofList) hsegments

end Scope

end DecoratedNames
