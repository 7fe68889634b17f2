import DecoratedNames.Proofs.Separators
import DecoratedNames.Scope
import Mathlib.Data.List.Basic

/-! The scope of a host namespace by its segments. Searching for a marker text is the same as
looking for a whole segment between two others, as no segment has a dot in it. -/

namespace DecoratedNames.Scope

def segmentsOf (hint : String) : List (List Char) :=
  hint.toList.splitOn '.'

def longWord : List Char := "DllImport".toList

def shortWord : List Char := "_".toList

@[simp] theorem dot_not_mem_longWord : '.' ∉ longWord := by decide

@[simp] theorem dot_not_mem_shortWord : '.' ∉ shortWord := by decide

@[simp] theorem longWord_ne_nil : longWord ≠ [] := by decide

theorem leadingMarker_eq : leadingMarker = longWord ++ ['.'] := by decide

theorem embeddedMarker_eq : embeddedMarker = '.' :: (longWord ++ ['.']) := by decide

theorem shortMarker_eq : shortMarker = '.' :: (shortWord ++ ['.']) := by decide

theorem nativeText?_eq_or (hint : List Char) :
    nativeText? hint =
      ((longWord ++ ['.']).isPrefixOf? hint).or
        ((Text.after? ('.' :: (longWord ++ ['.'])) hint).or
          (Text.after? ('.' :: (shortWord ++ ['.'])) hint)) := by
  rw [nativeText?, leadingMarker_eq, embeddedMarker_eq, shortMarker_eq]
  simp only [Option.orElse_eq_orElse, Option.orElse_eq_or]

/-- The least index of a word among the segments that are neither the first nor the last. -/
def innerIndex? (word : List Char) (segments : List (List Char)) : Option Nat :=
  (List.range' 1 (segments.length - 2)).find? fun i => segments[i]? = some word

/-- The index of the marker. A long word that comes first counts before one further inside, and that
before a short one, wherever they stand. -/
def markerIndex? (segments : List (List Char)) : Option Nat :=
  if 2 ≤ segments.length ∧ segments[0]? = some longWord then some 0
  else (innerIndex? longWord segments).or (innerIndex? shortWord segments)

variable {word : List Char}

theorem innerIndex?_eq_some_iff {segments : List (List Char)} {k : Nat} :
    innerIndex? word segments = some k ↔
      segments[k]? = some word ∧ (1 ≤ k ∧ k + 1 < segments.length) ∧
        ∀ i, 1 ≤ i → i < k → segments[i]? ≠ some word := by
  rw [innerIndex?, List.find?_range'_eq_some, List.mem_range'_1]
  have hrange : 1 ≤ k ∧ k < 1 + (segments.length - 2) ↔ 1 ≤ k ∧ k + 1 < segments.length := by
    omega
  simp [hrange]

theorem innerIndex?_cons (first second third : List Char) (rest : List (List Char)) :
    innerIndex? word (first :: second :: third :: rest) =
      if second = word then some 1
      else (innerIndex? word (second :: third :: rest)).map (· + 1) := by
  have hlength : (first :: second :: third :: rest).length - 2 = rest.length + 1 := by simp
  rw [innerIndex?, hlength, List.range'_succ, List.find?_cons]
  by_cases hsecond : second = word
  · simp [hsecond]
  · have hlength' : (second :: third :: rest).length - 2 = rest.length := by simp
    rw [innerIndex?, hlength', List.range'_succ_left, List.find?_map]
    simp only [Function.comp_def, List.getElem?_cons_succ]
    simp [hsecond]

theorem markerIndex?_lt {segments : List (List Char)} {k : Nat}
    (h : markerIndex? segments = some k) : k + 1 < segments.length := by
  unfold markerIndex? at h
  split at h
  · rename_i hleading
    obtain rfl := Option.some.inj h
    omega
  · rcases Option.or_eq_some_iff.mp h with hlong | ⟨_, hshort⟩
    · exact (innerIndex?_eq_some_iff.mp hlong).2.1.2
    · exact (innerIndex?_eq_some_iff.mp hshort).2.1.2

theorem openingWord_intercalate {segment : List Char} (segments : List (List Char))
    (hword : '.' ∉ word) (hsegment : '.' ∉ segment) :
    (word ++ ['.']).isPrefixOf? (['.'].intercalate (segment :: segments)) =
      if segment = word ∧ segments ≠ [] then some (['.'].intercalate segments) else none := by
  cases segments with
  | nil =>
      rw [List.intercalate_singleton, if_neg (by simp), Option.eq_none_iff_forall_ne_some]
      intro rest hrest
      rw [List.isPrefixOf?_eq_some_iff_append_eq] at hrest
      exact hsegment (by simp [← hrest])
  | cons next segments =>
      have htext : ['.'].intercalate (segment :: next :: segments) =
          segment ++ '.' :: ['.'].intercalate (next :: segments) := by
        simp
      rw [htext]
      by_cases hsame : segment = word
      · rw [if_pos ⟨hsame, by simp⟩, List.isPrefixOf?_eq_some_iff_append_eq]
        simp [hsame]
      · rw [if_neg (fun h => hsame h.1), Option.eq_none_iff_forall_ne_some]
        intro rest hrest
        rw [List.isPrefixOf?_eq_some_iff_append_eq, List.append_assoc] at hrest
        exact hsame (Text.separator_cancel hword hsegment hrest).1.symm

theorem after?_skip {segment : List Char} (marker text : List Char) (h : '.' ∉ segment) :
    Text.after? ('.' :: marker) (segment ++ text) = Text.after? ('.' :: marker) text := by
  induction segment with
  | nil => rfl
  | cons c segment ih =>
      have hc : '.' ≠ c := by
        intro hdot
        exact h (hdot ▸ List.mem_cons_self)
      have hrest : '.' ∉ segment := fun hdot => h (List.mem_cons_of_mem _ hdot)
      rw [List.cons_append, Text.after?, List.isPrefixOf?, if_neg (by simpa using hc), ih hrest]
      rfl

/-- The leftmost marker text stands where the least inner segment is the word of the marker. -/
theorem after?_intercalate {segments : List (List Char)} (hword : '.' ∉ word)
    (hsegments : ∀ segment ∈ segments, '.' ∉ segment) :
    Text.after? ('.' :: (word ++ ['.'])) (['.'].intercalate segments) =
      (innerIndex? word segments).map fun k => ['.'].intercalate (segments.drop (k + 1)) := by
  induction segments with
  | nil => rfl
  | cons first segments ih =>
      have hfirst : '.' ∉ first := hsegments first (by simp)
      have hrest : ∀ segment ∈ segments, '.' ∉ segment :=
        fun segment hsegment => hsegments segment (List.mem_cons_of_mem _ hsegment)
      cases segments with
      | nil =>
          have htext : ['.'].intercalate [first] = first ++ [] := by simp
          rw [htext, after?_skip _ _ hfirst]
          rfl
      | cons second segments =>
          have htext : ['.'].intercalate (first :: second :: segments) =
              first ++ '.' :: ['.'].intercalate (second :: segments) := by
            simp
          have hsearch : Text.after? ('.' :: (word ++ ['.']))
                ('.' :: ['.'].intercalate (second :: segments)) =
              ((word ++ ['.']).isPrefixOf? (['.'].intercalate (second :: segments)) <|>
                Text.after? ('.' :: (word ++ ['.'])) (['.'].intercalate (second :: segments))) := by
            rw [Text.after?, List.isPrefixOf?, if_pos (by simp)]
          rw [htext, after?_skip _ _ hfirst, hsearch, ih hrest,
            openingWord_intercalate segments hword (hrest second (by simp))]
          cases segments with
          | nil =>
              rw [if_neg (by simp)]
              rfl
          | cons third segments =>
              rw [innerIndex?_cons]
              by_cases hsecond : second = word
              · simp [hsecond]
              · simp [hsecond, Function.comp_def]

theorem nativeText?_intercalate {segments : List (List Char)}
    (hsegments : ∀ segment ∈ segments, '.' ∉ segment) :
    nativeText? (['.'].intercalate segments) =
      (markerIndex? segments).map fun k => ['.'].intercalate (segments.drop (k + 1)) := by
  rw [nativeText?_eq_or, after?_intercalate dot_not_mem_longWord hsegments,
    after?_intercalate dot_not_mem_shortWord hsegments, markerIndex?]
  cases segments with
  | nil => rfl
  | cons first rest =>
      have hcondition : (2 ≤ (first :: rest).length ∧ (first :: rest)[0]? = some longWord) ↔
          first = longWord ∧ rest ≠ [] := by
        cases rest <;> simp
      rw [openingWord_intercalate rest dot_not_mem_longWord (hsegments first (by simp))]
      by_cases hfirst : first = longWord ∧ rest ≠ []
      · rw [if_pos hfirst, if_pos (hcondition.mpr hfirst)]
        simp
      · rw [if_neg hfirst, if_neg (fun h => hfirst (hcondition.mp h)), Option.map_or]
        simp

theorem nativeText?_eq (hint : String) :
    nativeText? hint.toList =
      (markerIndex? (segmentsOf hint)).map fun k =>
        ['.'].intercalate ((segmentsOf hint).drop (k + 1)) := by
  have hsegments : ∀ segment ∈ segmentsOf hint, '.' ∉ segment :=
    fun segment hsegment => Text.not_mem_of_mem_splitOn hsegment
  rw [← nativeText?_intercalate hsegments, segmentsOf, List.intercalate_splitOn]

theorem segments_ofNamespace (hint : String) :
    (ofNamespace hint).segments =
      match markerIndex? (segmentsOf hint) with
      | none => []
      | some k => ((segmentsOf hint).drop (k + 1)).map String.ofList := by
  rw [ofNamespace, nativeText?_eq]
  cases hmarker : markerIndex? (segmentsOf hint) with
  | none => rfl
  | some k =>
      have hne : (segmentsOf hint).drop (k + 1) ≠ [] := by
        have hlt := markerIndex?_lt hmarker
        simpa using hlt
      have hsegments : ∀ segment ∈ (segmentsOf hint).drop (k + 1), '.' ∉ segment :=
        fun segment hsegment => Text.not_mem_of_mem_splitOn (List.mem_of_mem_drop hsegment)
      simp only [Option.map_some, List.splitOn_intercalate '.' hsegments hne]

theorem text_toList (scope : Scope) :
    scope.text.toList = scope.segments.reverse.flatMap fun segment => '@' :: segment.toList := by
  rw [text, String.toList_join, List.flatMap_map]
  simp

@[simp] theorem text_eq_empty_iff {scope : Scope} : scope.text = "" ↔ scope.segments = [] := by
  constructor
  · intro h
    have htext := text_toList scope
    rw [h] at htext
    have hnil := List.flatMap_eq_nil_iff.mp htext.symm
    cases hsegments : scope.segments with
    | nil => rfl
    | cons segment segments => cases hnil segment (by simp [hsegments])
  · intro h
    rw [text, h]
    rfl

/-- The scope of a host namespace is empty without a marker, and otherwise it is made of all
segments behind the marker, as they are and in reverse order. -/
theorem text_ofNamespace (hint : String) :
    (ofNamespace hint).text =
        (match markerIndex? (segmentsOf hint) with
        | none => ""
        | some k => String.join (((segmentsOf hint).drop (k + 1)).reverse.map fun segment =>
            "@" ++ String.ofList segment)) ∧
      ((ofNamespace hint).text = "" ↔ markerIndex? (segmentsOf hint) = none) := by
  constructor
  · rw [text, segments_ofNamespace]
    cases markerIndex? (segmentsOf hint) with
    | none => rfl
    | some k =>
        change String.join ((((segmentsOf hint).drop (k + 1)).map String.ofList).reverse.map _) = _
        rw [← List.map_reverse, List.map_map]
        rfl
  · rw [text_eq_empty_iff, segments_ofNamespace]
    cases hmarker : markerIndex? (segmentsOf hint) with
    | none => simp
    | some k =>
        have hlt := markerIndex?_lt hmarker
        simpa using hlt

example : (ofNamespace "A._.B.DllImport.C._.D").text = "@D@_@C" := by decide

end DecoratedNames.Scope
