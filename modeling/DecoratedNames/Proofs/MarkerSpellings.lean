import DecoratedNames.Proofs.ScopeSegments

/-! The spellings of a marker. What stands in front of a marker and has no marker in it can be left
out, so an embedded long marker says the same as a leading one. A short marker does so as long as no
long one follows it. -/

namespace DecoratedNames.Scope

variable {word : List Char}

/-- A host part without a marker, also when a dot follows it. Its first segment may be the short
word, which is no marker there. -/
structure Unmarked (host : String) : Prop where
  first : (segmentsOf host).head? ≠ some longWord
  others : ∀ segment ∈ (segmentsOf host).tail, segment ≠ longWord ∧ segment ≠ shortWord

@[simp] theorem segmentsOf_ne_nil (hint : String) : segmentsOf hint ≠ [] :=
  List.splitOn_ne_nil _ _

@[simp] theorem segmentsOf_append (host rest : String) :
    segmentsOf (host ++ "." ++ rest) = segmentsOf host ++ segmentsOf rest := by
  have htext : (host ++ "." ++ rest).toList = host.toList ++ '.' :: rest.toList := by simp
  rw [segmentsOf, htext, List.splitOn_append_cons_self]
  rfl

theorem innerIndex?_first (first first' : List Char) (segments : List (List Char)) :
    innerIndex? word (first :: segments) = innerIndex? word (first' :: segments) := by
  cases segments with
  | nil => rfl
  | cons second segments =>
      cases segments with
      | nil => rfl
      | cons third segments => rw [innerIndex?_cons, innerIndex?_cons]

theorem innerIndex?_cons_of_ne {second : List Char} (hsecond : second ≠ word) (first : List Char)
    (segments : List (List Char)) :
    innerIndex? word (first :: second :: segments) =
      (innerIndex? word (first :: segments)).map (· + 1) := by
  rw [innerIndex?_first first second segments]
  cases segments with
  | nil => rfl
  | cons third segments => rw [innerIndex?_cons, if_neg hsecond]

theorem innerIndex?_skip {middle : List (List Char)} (hmiddle : word ∉ middle) (first : List Char)
    (segments : List (List Char)) :
    innerIndex? word (first :: (middle ++ segments)) =
      (innerIndex? word (first :: segments)).map (· + middle.length) := by
  induction middle with
  | nil => simp
  | cons second middle ih =>
      rw [List.mem_cons, not_or] at hmiddle
      rw [List.cons_append, innerIndex?_cons_of_ne (Ne.symm hmiddle.1), ih hmiddle.2,
        Option.map_map]
      congr 1

theorem innerIndex?_eq_none_iff {segments : List (List Char)} :
    innerIndex? word segments = none ↔ word ∉ segments.tail.dropLast := by
  induction segments with
  | nil => simp [innerIndex?]
  | cons first segments ih =>
      cases segments with
      | nil => simp [innerIndex?]
      | cons second segments =>
          cases segments with
          | nil => simp [innerIndex?]
          | cons third segments =>
              rw [innerIndex?_cons]
              by_cases hsecond : second = word
              · simp [hsecond]
              · rw [if_neg hsecond, Option.map_eq_none_iff, ih]
                simp [Ne.symm hsecond]

theorem markerIndex?_skip {first : List Char} {middle : List (List Char)}
    (hfirst : first ≠ longWord) (hlong : longWord ∉ middle) (hshort : shortWord ∉ middle)
    (segments : List (List Char)) :
    markerIndex? (first :: (middle ++ segments)) =
      (markerIndex? ([] :: segments)).map (· + middle.length) := by
  unfold markerIndex?
  rw [if_neg (by simp [hfirst]), if_neg (by simp), innerIndex?_skip hlong,
    innerIndex?_skip hshort, innerIndex?_first first [], innerIndex?_first first [], Option.map_or]

theorem nativeText?_skip {host : String} (unmarked : Unmarked host) (rest : String) :
    nativeText? (host ++ "." ++ rest).toList = nativeText? ("." ++ rest).toList := by
  have hrest : segmentsOf ("." ++ rest) = [] :: segmentsOf rest := segmentsOf_append "" rest
  rw [nativeText?_eq, nativeText?_eq, segmentsOf_append, hrest]
  rcases unmarked with ⟨hfirst, hothers⟩
  cases hhost : segmentsOf host with
  | nil => exact absurd hhost (segmentsOf_ne_nil host)
  | cons first middle =>
      rw [hhost] at hfirst hothers
      have hlong : longWord ∉ middle := fun hmem => (hothers _ hmem).1 rfl
      have hshort : shortWord ∉ middle := fun hmem => (hothers _ hmem).2 rfl
      rw [List.cons_append, markerIndex?_skip (by simpa using hfirst) hlong hshort, Option.map_map]
      congr 1
      funext k
      have hdrop : (middle ++ segmentsOf rest).drop (k + middle.length) =
          (segmentsOf rest).drop k := by
        rw [Nat.add_comm, List.drop_length_add_append]
      simp [hdrop]

theorem ofNamespace_skip {host : String} (unmarked : Unmarked host) (rest : String) :
    ofNamespace (host ++ "." ++ rest) = ofNamespace ("." ++ rest) := by
  rw [ofNamespace, nativeText?_skip unmarked]
  rfl

theorem ofNamespace_skip_marker {host : String} (unmarked : Unmarked host) (word behind : String) :
    ofNamespace (host ++ ("." ++ word) ++ behind) = ofNamespace ("." ++ word ++ behind) := by
  have hskip := ofNamespace_skip unmarked (word ++ behind)
  simpa only [String.append_assoc] using hskip

theorem segments_of_marker {hint : String} {k : Nat} (h : markerIndex? (segmentsOf hint) = some k) :
    (ofNamespace hint).segments = ((segmentsOf hint).drop (k + 1)).map String.ofList := by
  rw [segments_ofNamespace, h]

@[simp] theorem segmentsOf_leading (behind : String) :
    segmentsOf ("DllImport." ++ behind) = longWord :: segmentsOf behind :=
  segmentsOf_append "DllImport" behind

theorem segments_of_leading (behind : String) :
    (ofNamespace ("DllImport." ++ behind)).segments = (segmentsOf behind).map String.ofList := by
  have hlength : 1 ≤ (segmentsOf behind).length :=
    List.length_pos_iff.mpr (segmentsOf_ne_nil behind)
  have hmarker : markerIndex? (segmentsOf ("DllImport." ++ behind)) = some 0 := by
    rw [segmentsOf_leading, markerIndex?, if_pos]
    constructor
    · rw [List.length_cons]
      omega
    · rfl
  rw [segments_of_marker hmarker, segmentsOf_leading]
  rfl

theorem markerIndex?_short (behind : List (List Char)) (hbehind : behind ≠ []) :
    markerIndex? ([] :: shortWord :: behind) =
      (innerIndex? longWord ([] :: behind)).elim (some 1) fun k => some (k + 1) := by
  have hshort : shortWord ≠ longWord := by decide
  have hfound : innerIndex? shortWord ([] :: shortWord :: behind) = some 1 := by
    cases behind with
    | nil => exact absurd rfl hbehind
    | cons third behind => rw [innerIndex?_cons, if_pos rfl]
  unfold markerIndex?
  rw [if_neg (by simp), innerIndex?_cons_of_ne hshort, hfound]
  cases innerIndex? longWord ([] :: behind) <;> rfl

theorem text_append (outer inner : List String) :
    text ⟨outer ++ inner⟩ = text ⟨inner⟩ ++ text ⟨outer⟩ := by
  simp [text]

theorem text_drop_ne {segments : List String} {k : Nat} (hk : 0 < k) (hne : segments ≠ []) :
    text ⟨segments.drop k⟩ ≠ text ⟨segments⟩ := by
  intro hsame
  have hwhole := text_append (segments.take k) (segments.drop k)
  rw [List.take_append_drop, ← hsame] at hwhole
  have hempty : text ⟨segments.take k⟩ = "" := String.append_eq_left_iff.mp hwhole.symm
  have hnone := text_eq_empty_iff.mp hempty
  rcases List.take_eq_nil_iff.mp hnone with hzero | hnil
  · omega
  · exact hne hnil

theorem segments_of_embedded (behind : String) :
    (ofNamespace (".DllImport." ++ behind)).segments = (segmentsOf behind).map String.ofList := by
  have hsegments : segmentsOf (".DllImport." ++ behind) = [] :: longWord :: segmentsOf behind :=
    segmentsOf_append ".DllImport" behind
  have hmarker : markerIndex? (segmentsOf (".DllImport." ++ behind)) = some 1 := by
    rw [hsegments, markerIndex?, if_neg (by simp)]
    cases hbehind : segmentsOf behind with
    | nil => exact absurd hbehind (segmentsOf_ne_nil behind)
    | cons third segments =>
        rw [innerIndex?_cons, if_pos rfl]
        rfl
  rw [segments_of_marker hmarker, hsegments]
  rfl

@[simp] theorem segmentsOf_short (behind : String) :
    segmentsOf ("._." ++ behind) = [] :: shortWord :: segmentsOf behind :=
  segmentsOf_append "._" behind

theorem segments_of_short {behind : String} (h : longWord ∉ (segmentsOf behind).dropLast) :
    (ofNamespace ("._." ++ behind)).segments = (segmentsOf behind).map String.ofList := by
  have hnone : innerIndex? longWord ([] :: segmentsOf behind) = none :=
    innerIndex?_eq_none_iff.mpr h
  have hmarker : markerIndex? (segmentsOf ("._." ++ behind)) = some 1 := by
    rw [segmentsOf_short, markerIndex?_short _ (segmentsOf_ne_nil behind), hnone]
    rfl
  rw [segments_of_marker hmarker, segmentsOf_short]
  rfl

/-- A long marker behind the short one takes its place, and the segments up to it are lost. -/
theorem segments_of_short_and_long {behind : String}
    (h : longWord ∈ (segmentsOf behind).dropLast) :
    ∃ k, 0 < k ∧ (ofNamespace ("._." ++ behind)).segments =
      ((segmentsOf behind).map String.ofList).drop k := by
  cases hlong : innerIndex? longWord ([] :: segmentsOf behind) with
  | none => exact absurd h (innerIndex?_eq_none_iff.mp hlong)
  | some k =>
      have hk : 1 ≤ k := (innerIndex?_eq_some_iff.mp hlong).2.1.1
      have hmarker : markerIndex? (segmentsOf ("._." ++ behind)) = some (k + 1) := by
        rw [segmentsOf_short, markerIndex?_short _ (segmentsOf_ne_nil behind), hlong]
        rfl
      refine ⟨k, hk, ?_⟩
      rw [segments_of_marker hmarker, segmentsOf_short, ← List.map_drop]
      rfl

/-- Behind a host part without a marker, an embedded long marker gives the scope that a leading one
gives, and a short marker does so exactly if no segment behind it, except for the last, is the long
word. The host part has no influence on the scope, whatever follows it. -/
theorem text_of_marker_spellings {host : String} (unmarked : Unmarked host) (behind : String) :
    (ofNamespace (host ++ ".DllImport." ++ behind)).text =
        (ofNamespace ("DllImport." ++ behind)).text ∧
      ((ofNamespace (host ++ "._." ++ behind)).text = (ofNamespace ("DllImport." ++ behind)).text ↔
        longWord ∉ (segmentsOf behind).dropLast) ∧
      ∀ rest, ofNamespace (host ++ "." ++ rest) = ofNamespace ("." ++ rest) := by
  have hembedded : ofNamespace (host ++ ".DllImport." ++ behind) =
      ofNamespace (".DllImport." ++ behind) := ofNamespace_skip_marker unmarked "DllImport." behind
  have hshort : ofNamespace (host ++ "._." ++ behind) = ofNamespace ("._." ++ behind) :=
    ofNamespace_skip_marker unmarked "_." behind
  rw [hembedded, hshort]
  refine ⟨?_, ?_, ofNamespace_skip unmarked⟩
  · rw [text, text, segments_of_embedded, segments_of_leading]
  · constructor
    · intro hsame hlong
      obtain ⟨k, hk, hsegments⟩ := segments_of_short_and_long hlong
      have hne : (segmentsOf behind).map String.ofList ≠ [] := by simp
      apply text_drop_ne hk hne
      rw [← hsegments, ← segments_of_leading behind]
      exact hsame
    · intro hnone
      rw [text, text, segments_of_short hnone, segments_of_leading]

theorem underscore_then_long_word :
    Unmarked "_.Company" ∧
      (ofNamespace "_.Company._.my.DllImport").text = "@DllImport@my" ∧
      (ofNamespace "_.Company._.my.DllImport").text = (ofNamespace "DllImport.my.DllImport").text ∧
      (ofNamespace "_.Company._.DllImport.my").text = "@my" ∧
      (ofNamespace "DllImport.DllImport.my").text = "@my@DllImport" ∧
      (ofNamespace "_.Company._.DllImport.my").text ≠
        (ofNamespace "DllImport.DllImport.my").text := by
  have unmarked : Unmarked "_.Company" := ⟨by decide, by decide⟩
  have hlast := (text_of_marker_spellings unmarked "my.DllImport").2.1
  have hinner := (text_of_marker_spellings unmarked "DllImport.my").2.1
  refine ⟨unmarked, by decide, hlast.mpr (by decide), by decide, by decide, ?_⟩
  intro hsame
  exact hinner.mp hsame (by decide)

end DecoratedNames.Scope
