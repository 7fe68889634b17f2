import DecoratedNames.Proofs.MarkerPosition

namespace DecoratedNames

theorem Text.eq_append_of_after? {marker text rest : List Char}
    (h : after? marker text = some rest) : ∃ before, text = before ++ marker ++ rest := by
  rw [after?_eq, Option.map_eq_some_iff] at h
  obtain ⟨k, hoffset, rfl⟩ := h
  obtain ⟨rest, hrest⟩ := prefix_drop_offset? hoffset
  refine ⟨text.take k, ?_⟩
  rw [← hrest, List.drop_left, List.append_assoc, hrest, List.take_append_drop]

namespace Scope

def markers : List (List Char) := [leadingMarker, embeddedMarker, shortMarker]

/-- The pieces behind the first mark, innermost last, with dots between them. -/
def readBack (text : String) : List Char :=
  ['.'].intercalate (text.toList.tail.splitOn '@').reverse

variable {hint hint' : String} {behind behind' : List Char}

theorem eq_append_of_nativeText? (h : nativeText? hint.toList = some behind) :
    ∃ before, ∃ marker ∈ markers, hint.toList = before ++ marker ++ behind := by
  simp only [nativeText?, Option.orElse_eq_orElse, Option.orElse_eq_or, Option.or_eq_some_iff] at h
  rcases h with hleading | ⟨-, hembedded | ⟨-, hshort⟩⟩
  · rw [List.isPrefixOf?_eq_some_iff_append_eq] at hleading
    exact ⟨[], leadingMarker, by simp [markers], hleading.symm⟩
  · obtain ⟨before, htext⟩ := Text.eq_append_of_after? hembedded
    exact ⟨before, embeddedMarker, by simp [markers], htext⟩
  · obtain ⟨before, htext⟩ := Text.eq_append_of_after? hshort
    exact ⟨before, shortMarker, by simp [markers], htext⟩

theorem ofNamespace_of_nativeText? (h : nativeText? hint.toList = some behind) :
    ofNamespace hint = ⟨(behind.splitOn '.').map String.ofList⟩ := by
  rw [ofNamespace, h]

theorem text_of_nativeText? (h : nativeText? hint.toList = some behind) :
    (ofNamespace hint).text.toList = '@' :: ['@'].intercalate (behind.splitOn '.').reverse := by
  have hne : (behind.splitOn '.').reverse ≠ [] := by
    simp [List.splitOn_ne_nil]
  rw [Text.cons_intercalate hne, text_toList, ofNamespace_of_nativeText? h, ← List.map_reverse,
    List.flatMap_map]
  simp only [String.toList_ofList]

theorem text_of_no_nativeText? (h : nativeText? hint.toList = none) :
    (ofNamespace hint).text = "" := by
  rw [ofNamespace, h]
  rfl

theorem readBack_text (h : nativeText? hint.toList = some behind) (hmark : '@' ∉ behind) :
    readBack (ofNamespace hint).text = behind := by
  have hpieces : ∀ piece ∈ (behind.splitOn '.').reverse, '@' ∉ piece := by
    intro piece hpiece hat
    exact hmark (Text.mem_of_mem_splitOn (List.mem_reverse.mp hpiece) hat)
  have hne : (behind.splitOn '.').reverse ≠ [] := by
    simp [List.splitOn_ne_nil]
  rw [readBack, text_of_nativeText? h, List.tail_cons, List.splitOn_intercalate '@' hpieces hne,
    List.reverse_reverse, List.intercalate_splitOn]

/-- The text of a scope opens with a mark, and the native text that follows the marker is read back
from it if it has no mark of its own. So two scopes have one text exactly if their native texts are
the same, and no scope behind a marker has the empty text of a namespace without one. -/
theorem text_tells_nativeText (h : nativeText? hint.toList = some behind) (hmark : '@' ∉ behind)
    (h' : nativeText? hint'.toList = some behind') (hmark' : '@' ∉ behind') :
    (∃ before, ∃ marker ∈ markers, hint.toList = before ++ marker ++ behind) ∧
      (ofNamespace hint).text.toList.head? = some '@' ∧
      readBack (ofNamespace hint).text = behind ∧
      ((ofNamespace hint).text = (ofNamespace hint').text ↔ behind = behind') ∧
      ∀ bare : String, nativeText? bare.toList = none →
        (ofNamespace bare).text = "" ∧ (ofNamespace hint).text ≠ (ofNamespace bare).text := by
  have hhead : (ofNamespace hint).text.toList.head? = some '@' := by
    rw [text_of_nativeText? h]
    rfl
  refine ⟨eq_append_of_nativeText? h, hhead, readBack_text h hmark, ?_, ?_⟩
  · constructor
    · intro hsame
      calc
        behind = readBack (ofNamespace hint).text := (readBack_text h hmark).symm
        _ = readBack (ofNamespace hint').text := by rw [hsame]
        _ = behind' := readBack_text h' hmark'
    · intro hsame
      rw [ofNamespace_of_nativeText? h, ofNamespace_of_nativeText? h', hsame]
  · intro bare hbare
    refine ⟨text_of_no_nativeText? hbare, ?_⟩
    intro hsame
    rw [hsame, text_of_no_nativeText? hbare] at hhead
    cases hhead

theorem empty_segments_read_back :
    nativeText? "A._..my..".toList = some ".my..".toList ∧ '@' ∉ ".my..".toList ∧
      nativeText? "DllImport.".toList = some [] ∧ nativeText? "A.DllImport".toList = none ∧
      (ofNamespace "A._..my..").text = "@@@my@" ∧ readBack "@@@my@" = ".my..".toList ∧
      (ofNamespace "DllImport.").text = "@" ∧
      (ofNamespace "A._..my..").text ≠ (ofNamespace "DllImport.").text ∧
      (ofNamespace "A._..my..").text ≠ (ofNamespace "A.DllImport").text := by
  have hnative : nativeText? "A._..my..".toList = some ".my..".toList := by decide
  have hempty : nativeText? "DllImport.".toList = some [] := by decide
  have hbare : nativeText? "A.DllImport".toList = none := by decide
  have hmark : '@' ∉ ".my..".toList := by decide
  have htext : (ofNamespace "A._..my..").text = "@@@my@" := by decide
  rcases text_tells_nativeText hnative hmark hempty (by simp) with ⟨-, -, hread, hsame, hdiffer⟩
  rw [htext] at hread
  refine ⟨hnative, hmark, hempty, hbare, htext, hread, by decide, ?_, (hdiffer _ hbare).2⟩
  intro hequal
  have hfalse := hsame.mp hequal
  exact absurd hfalse (by decide)

end Scope

end DecoratedNames
