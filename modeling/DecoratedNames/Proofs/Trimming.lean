import DecoratedNames.Text.Blank
import Mathlib.Data.List.DropRight
import Mathlib.Data.List.TakeWhile

namespace DecoratedNames.Text

def Trimmed (text : List Char) : Prop :=
  (∀ c ∈ text.head?, isBlank c = false) ∧ ∀ c ∈ text.getLast?, isBlank c = false

theorem head_of_prefix {text whole : List Char} {p : Char → Prop} (hstart : text <+: whole)
    (h : ∀ c ∈ whole.head?, p c) : ∀ c ∈ text.head?, p c := by
  intro c hc
  rcases hstart with ⟨rest, rfl⟩
  cases text with
  | nil => cases hc
  | cons d text => exact h c hc

theorem head_trimStart (text : List Char) : ∀ c ∈ (trimStart text).head?, isBlank c = false := by
  intro c hc
  have hhead := List.head?_dropWhile_not isBlank text
  rw [← trimStart, Option.mem_def.mp hc] at hhead
  exact hhead

theorem trimStart_eq_self {text : List Char} (h : ∀ c ∈ text.head?, isBlank c = false) :
    trimStart text = text := by
  cases text with
  | nil => rfl
  | cons c text => exact List.dropWhile_cons_of_neg (by simp [h c rfl])

theorem trimEnd_eq_reverse (text : List Char) :
    trimEnd text = (trimStart text.reverse).reverse := rfl

theorem last_trimEnd (text : List Char) : ∀ c ∈ (trimEnd text).getLast?, isBlank c = false := by
  rw [trimEnd_eq_reverse, List.getLast?_reverse]
  exact head_trimStart _

theorem trimEnd_eq_self {text : List Char} (h : ∀ c ∈ text.getLast?, isBlank c = false) :
    trimEnd text = text := by
  have hreverse : ∀ c ∈ text.reverse.head?, isBlank c = false := by
    rwa [List.head?_reverse]
  rw [trimEnd_eq_reverse, trimStart_eq_self hreverse, List.reverse_reverse]

@[simp] theorem trimmed_trim (text : List Char) : Trimmed (trim text) := by
  constructor
  · have hstart : trim text <+: trimStart text := List.rdropWhile_prefix isBlank _
    exact head_of_prefix hstart (head_trimStart text)
  · exact last_trimEnd _

@[simp] theorem trim_eq_self_iff {text : List Char} : trim text = text ↔ Trimmed text := by
  constructor
  · intro h
    rw [← h]
    exact trimmed_trim text
  · intro h
    rcases h with ⟨hhead, hlast⟩
    rw [trim, trimStart_eq_self hhead, trimEnd_eq_self hlast]

variable {text tail blanks : List Char}

theorem last_append {p : Char → Prop} (hlast : ∀ c ∈ text.getLast?, p c) (htail : ∀ c ∈ tail, p c) :
    ∀ c ∈ (text ++ tail).getLast?, p c := by
  intro c hc
  by_cases hempty : tail = []
  · rw [hempty, List.append_nil] at hc
    exact hlast c hc
  · rw [List.getLast?_append_of_ne_nil text hempty] at hc
    exact htail c (List.mem_of_getLast? hc)

theorem trimStart_append (text : List Char) (htail : ∀ c ∈ tail.head?, isBlank c = false) :
    trimStart (text ++ tail) = trimStart text ++ tail := by
  have hself : tail.dropWhile isBlank = tail := trimStart_eq_self htail
  rw [trimStart, trimStart, List.dropWhile_append, hself]
  split
  · rename_i hempty
    rw [List.isEmpty_iff.mp hempty, List.nil_append]
  · rfl

theorem trim_append_blanks (text : List Char) (hblanks : ∀ c ∈ blanks, isBlank c = true) :
    trim (text ++ blanks) = trim text := by
  rw [trim, trim, trimStart, trimStart, List.dropWhile_append]
  split
  · rename_i hempty
    rw [List.dropWhile_eq_nil_iff.mpr hblanks, List.isEmpty_iff.mp hempty]
  · have hreverse : ∀ c ∈ blanks.reverse, isBlank c = true := by simpa using hblanks
    rw [trimEnd, List.reverse_append, List.dropWhile_append_of_pos hreverse, trimEnd]

@[simp] theorem trim_trimEnd (text : List Char) : trim (trimEnd text) = trim text := by
  have hsplit : trimEnd text ++ text.rtakeWhile isBlank = text := List.rdropWhile_append_rtakeWhile
  have hblanks : ∀ c ∈ text.rtakeWhile isBlank, isBlank c = true := fun c hc =>
    List.mem_rtakeWhile_imp hc
  calc
    trim (trimEnd text) = trim (trimEnd text ++ text.rtakeWhile isBlank) :=
      (trim_append_blanks _ hblanks).symm
    _ = trim text := by rw [hsplit]

/-- Without the blanks at its end a text takes an addition that has none behind what trimming it
leaves. -/
theorem trim_trimEnd_append (text : List Char) (htail : ∀ c ∈ tail, isBlank c = false) :
    trim (trimEnd text ++ tail) = trim text ++ tail := by
  have hlast : ∀ c ∈ (trimStart (trimEnd text)).getLast?, isBlank c = false := by
    have hend : trimStart (trimEnd text) <:+ trimEnd text := List.dropWhile_suffix isBlank
    rcases hend with ⟨start, hstart⟩
    intro c hc
    apply last_trimEnd text
    rw [← hstart]
    exact List.mem_getLast?_append_of_mem_getLast? hc
  have hcore : trimStart (trimEnd text) = trim text := by
    rw [← trim_trimEnd, trim, trimEnd_eq_self hlast]
  have hhead : ∀ c ∈ tail.head?, isBlank c = false := fun c hc =>
    htail c (List.mem_of_mem_head? hc)
  rw [trim, trimStart_append _ hhead, trimEnd_eq_self (last_append hlast htail), hcore]

end DecoratedNames.Text
