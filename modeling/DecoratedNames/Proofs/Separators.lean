import Mathlib.Data.List.Basic

namespace DecoratedNames.Text

theorem separator_cancel {separator : Char} {left right u v : List Char} (hleft : separator ∉ left)
    (hright : separator ∉ right) (h : left ++ separator :: u = right ++ separator :: v) :
    left = right ∧ u = v := by
  have hpieces := congrArg (List.splitOn separator) h
  rw [List.splitOn_append_cons_self_of_not_mem hleft,
    List.splitOn_append_cons_self_of_not_mem hright] at hpieces
  obtain rfl := (List.cons.inj hpieces).1
  exact ⟨rfl, (List.cons.inj (List.append_cancel_left h)).2⟩

theorem not_mem_of_mem_splitOn {separator : Char} {text piece : List Char}
    (h : piece ∈ text.splitOn separator) : separator ∉ piece := by
  induction text generalizing piece with
  | nil =>
      have hpiece : piece = [] := by simpa [List.splitOn_nil] using h
      simp [hpiece]
  | cons c text ih =>
      rw [List.splitOn_cons_eq_if_modifyHead] at h
      cases hpieces : text.splitOn separator with
      | nil => exact absurd hpieces (List.splitOn_ne_nil _ _)
      | cons first pieces =>
          rw [hpieces] at h ih
          by_cases hc : c = separator
          · simp only [hc, BEq.rfl, ↓reduceIte, List.mem_cons] at h
            rcases h with rfl | h
            · simp
            · exact ih (List.mem_cons.mpr h)
          · simp only [beq_eq_false_iff_ne.mpr hc, Bool.false_eq_true, ↓reduceIte,
              List.modifyHead_cons, List.mem_cons] at h
            rcases h with rfl | h
            · have hfirst : separator ∉ first := ih (by simp)
              simp [hfirst, Ne.symm hc]
            · exact ih (List.mem_cons_of_mem _ h)

theorem eq_of_splitOn_eq {separator : Char} {left right : List Char}
    (h : left.splitOn separator = right.splitOn separator) : left = right := by
  calc
    left = [separator].intercalate (left.splitOn separator) :=
      (List.intercalate_splitOn separator).symm
    _ = [separator].intercalate (right.splitOn separator) := by rw [h]
    _ = right := List.intercalate_splitOn separator

/-- A double separator shows as an empty piece, so a text with one empty piece between others has it
in one place. -/
theorem double_separator_cancel {separator : Char} {before after body rest : List Char}
    (hbody : [] ∉ body.splitOn separator) (hrest : [] ∉ rest.splitOn separator)
    (h : before ++ separator :: separator :: after = body ++ separator :: separator :: rest) :
    before = body ∧ after = rest := by
  have hdouble : ∀ left right : List Char,
      (left ++ separator :: separator :: right).splitOn separator =
        left.splitOn separator ++ [] :: right.splitOn separator := by
    intro left right
    rw [List.splitOn_append_cons_self]
    exact congrArg _ (List.splitOn_append_cons_self_of_not_mem List.not_mem_nil right)
  have hpieces := congrArg (List.splitOn separator) h
  rw [hdouble, hdouble, eq_comm, List.append_cons_inj_of_notMem hbody hrest] at hpieces
  rcases hpieces with ⟨hbefore, -, hafter⟩
  exact ⟨(eq_of_splitOn_eq hbefore).symm, (eq_of_splitOn_eq hafter).symm⟩

theorem intercalate_cons {separator : Char} (first : List Char) (pieces : List (List Char)) :
    [separator].intercalate (first :: pieces) =
      first ++ pieces.flatMap fun piece => separator :: piece := by
  induction pieces generalizing first with
  | nil => simp
  | cons piece pieces ih => simp [List.intercalate_cons_cons, ih]

theorem cons_intercalate {separator : Char} {pieces : List (List Char)} (hpieces : pieces ≠ []) :
    separator :: [separator].intercalate pieces =
      pieces.flatMap fun piece => separator :: piece := by
  cases pieces with
  | nil => exact absurd rfl hpieces
  | cons first pieces => rw [intercalate_cons, List.flatMap_cons, List.cons_append]

theorem mem_of_mem_splitOn {separator c : Char} {text piece : List Char}
    (hpiece : piece ∈ text.splitOn separator) (hc : c ∈ piece) : c ∈ text := by
  have hjoined : c ∈ separator :: [separator].intercalate (text.splitOn separator) := by
    rw [cons_intercalate (List.splitOn_ne_nil _ _), List.mem_flatMap]
    exact ⟨piece, hpiece, List.mem_cons_of_mem _ hc⟩
  rw [List.intercalate_splitOn] at hjoined
  rcases List.mem_cons.mp hjoined with rfl | hmem
  · exact absurd hc (not_mem_of_mem_splitOn hpiece)
  · exact hmem

end DecoratedNames.Text
