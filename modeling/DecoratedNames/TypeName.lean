import DecoratedNames.Error
import DecoratedNames.Text.Blank

/-! Written type names. A name is an element, then wrappers, and may end in a bracket that is no
array suffix. Reading a text and spelling a name are inverse to each other. -/

namespace DecoratedNames

def TypeName.isMark (c : Char) : Bool :=
  c = '&' || c = '*' || c = '['

def TypeName.IsElement (element : List Char) : Prop :=
  element ≠ [] ∧ ∀ c ∈ element, isMark c = false ∧ Text.isBlank c = false

instance (element : List Char) : Decidable (TypeName.IsElement element) :=
  decidable_of_iff ((!element.isEmpty && element.all fun c =>
    !TypeName.isMark c && !Text.isBlank c) = true) (by simp [TypeName.IsElement])

/-- A type name in its parts. The `bracket` is what follows an opening bracket that starts
anything but an array suffix, such as generic arguments or a rank. -/
@[ext] structure TypeName where
  element : List Char
  wrappers : List Wrapper
  bracket : Option (List Char)
  isElement : TypeName.IsElement element
  isOpen : ∀ rest ∈ bracket, rest.head? ≠ some ']'

namespace TypeName

def wrapperText (wrappers : List Wrapper) : List Char :=
  wrappers.flatMap fun wrapper => wrapper.text.toList

@[simp] theorem wrapperText_nil : wrapperText [] = [] := rfl

@[simp] theorem wrapperText_cons (wrapper : Wrapper) (wrappers : List Wrapper) :
    wrapperText (wrapper :: wrappers) = wrapper.text.toList ++ wrapperText wrappers := rfl

@[simp] theorem wrapperText_append (inner outer : List Wrapper) :
    wrapperText (inner ++ outer) = wrapperText inner ++ wrapperText outer :=
  List.flatMap_append

def bracketText : Option (List Char) → List Char
  | none => []
  | some rest => '[' :: rest

@[simp] theorem bracketText_none : bracketText none = [] := rfl

@[simp] theorem bracketText_some (rest : List Char) : bracketText (some rest) = '[' :: rest := rfl

def text (name : TypeName) : List Char :=
  name.element ++ (wrapperText name.wrappers ++ bracketText name.bracket)

/-- The wrappers at the start of a text and the bracket behind them, if that is all there is. -/
def readTail : List Char → Option (List Wrapper × Option (List Char))
  | [] => some ([], none)
  | '&' :: cs => (readTail cs).map fun (wrappers, bracket) => (.byRef :: wrappers, bracket)
  | '*' :: cs => (readTail cs).map fun (wrappers, bracket) => (.pointer :: wrappers, bracket)
  | '[' :: ']' :: cs =>
      (readTail cs).map fun (wrappers, bracket) => (.array :: wrappers, bracket)
  | '[' :: cs => some ([], some cs)
  | _ :: _ => none

theorem text_of_readTail {cs : List Char} {tail : List Wrapper × Option (List Char)}
    (h : readTail cs = some tail) :
    wrapperText tail.1 ++ bracketText tail.2 = cs ∧ ∀ rest ∈ tail.2, rest.head? ≠ some ']' := by
  fun_induction readTail cs generalizing tail with
  | case1 =>
      obtain rfl : ([], none) = tail := by simpa using h
      simp
  | case2 cs ih | case3 cs ih | case4 cs ih =>
      obtain ⟨inner, hread, rfl⟩ := Option.map_eq_some_iff.mp h
      obtain ⟨htext, hbracket⟩ := ih hread
      exact ⟨by simp [← htext, Wrapper.text], hbracket⟩
  | case5 cs hclosed =>
      obtain rfl : ([], some cs) = tail := by simpa using h
      refine ⟨rfl, ?_⟩
      rintro _ ⟨⟩ hhead
      obtain ⟨rest, rfl⟩ := List.head?_eq_some_iff.mp hhead
      exact hclosed rest rfl
  | case6 => simp at h

theorem isElement_takeWhile {cs : List Char}
    (h : ¬ ((cs.takeWhile (!isMark ·)).isEmpty || (cs.takeWhile (!isMark ·)).any Text.isBlank)) :
    IsElement (cs.takeWhile (!isMark ·)) := by
  refine ⟨by simp_all, fun c hc => ⟨?_, by simp_all⟩⟩
  simpa using List.all_eq_true.mp List.all_takeWhile c hc

def read? (cs : List Char) : Option TypeName :=
  if hblank : (cs.takeWhile (!isMark ·)).isEmpty || (cs.takeWhile (!isMark ·)).any Text.isBlank then
    none
  else
    (readTail (cs.dropWhile (!isMark ·))).pmap
      (fun tail isOpen =>
        { element := cs.takeWhile (!isMark ·), wrappers := tail.1, bracket := tail.2,
          isElement := isElement_takeWhile hblank, isOpen })
      fun _ htail => (text_of_readTail htail).2

/-- The type a name stands for. One that ends in a bracket is a class under its whole text. -/
def type (name : TypeName) : HostType :=
  match name.bracket with
  | none => (HostType.ofElement (String.ofList name.element)).wrapAll name.wrappers
  | some _ => .classType (String.ofList name.text)

theorem readTail_text (wrappers : List Wrapper) {bracket : Option (List Char)}
    (hbracket : ∀ rest ∈ bracket, rest.head? ≠ some ']') :
    readTail (wrapperText wrappers ++ bracketText bracket) = some (wrappers, bracket) := by
  induction wrappers with
  | nil =>
      cases bracket with
      | none => rfl
      | some rest =>
          cases rest with
          | nil => rfl
          | cons c rest =>
              have hc : c ≠ ']' := by simpa using hbracket (c :: rest) rfl
              change readTail ('[' :: c :: rest) = _
              rw [readTail]
              simpa using hc
  | cons wrapper wrappers ih => cases wrapper <;> simp [Wrapper.text, readTail, ih]

theorem tail_opens_with_mark (wrappers : List Wrapper) (bracket : Option (List Char)) :
    ∀ c ∈ (wrapperText wrappers ++ bracketText bracket).head?, isMark c = true := by
  intro c hc
  cases wrappers with
  | nil =>
      cases bracket with
      | none => simp at hc
      | some rest =>
          obtain rfl : '[' = c := by simpa using hc
          rfl
  | cons wrapper wrappers =>
      cases wrapper <;>
        · simp [Wrapper.text] at hc
          subst hc
          rfl

theorem takeWhile_of_head {tail : List Char} (h : ∀ c ∈ tail.head?, isMark c = true) :
    tail.takeWhile (!isMark ·) = [] ∧ tail.dropWhile (!isMark ·) = tail := by
  cases tail with
  | nil => simp
  | cons c tail => simp_all

def parts (name : TypeName) : List Char × List Wrapper × Option (List Char) :=
  (name.element, name.wrappers, name.bracket)

theorem parts_injective {name other : TypeName} (h : name.parts = other.parts) : name = other := by
  simp only [parts, Prod.mk.injEq] at h
  exact TypeName.ext h.1 h.2.1 h.2.2

theorem read?_map_parts (cs : List Char) :
    (read? cs).map parts =
      if (cs.takeWhile (!isMark ·)).isEmpty || (cs.takeWhile (!isMark ·)).any Text.isBlank then none
      else (readTail (cs.dropWhile (!isMark ·))).map fun tail =>
        (cs.takeWhile (!isMark ·), tail) := by
  unfold read?
  split
  · rfl
  · rw [Option.map_pmap]
    exact Option.pmap_eq_map _ (fun tail => (cs.takeWhile (!isMark ·), tail)) _ _

@[simp] theorem read?_text (name : TypeName) : read? name.text = some name := by
  obtain ⟨hne, helement⟩ := name.isElement
  have htail := takeWhile_of_head (tail_opens_with_mark name.wrappers name.bracket)
  have hmark : ∀ c ∈ name.element, (!isMark c) = true := fun c hc => by simp [(helement c hc).1]
  have htake : name.text.takeWhile (!isMark ·) = name.element := by
    rw [text, List.takeWhile_append_of_pos hmark, htail.1, List.append_nil]
  have hdrop : name.text.dropWhile (!isMark ·) =
      wrapperText name.wrappers ++ bracketText name.bracket := by
    rw [text, List.dropWhile_append_of_pos hmark, htail.2]
  have hblank : ¬ (name.element.isEmpty || name.element.any Text.isBlank) = true := by
    simpa [hne] using fun c hc => (helement c hc).2
  have hparts := read?_map_parts name.text
  rw [htake, hdrop, if_neg hblank, readTail_text name.wrappers name.isOpen] at hparts
  obtain ⟨other, hread, hsame⟩ := Option.map_eq_some_iff.mp hparts
  rw [hread, parts_injective hsame]

@[simp] theorem read?_eq_some_iff {cs : List Char} {name : TypeName} :
    read? cs = some name ↔ name.text = cs := by
  constructor
  · intro h
    have hparts := read?_map_parts cs
    rw [h] at hparts
    split at hparts
    · cases hparts
    · obtain ⟨tail, hread, hsame⟩ := Option.map_eq_some_iff.mp hparts.symm
      obtain ⟨helement, rfl⟩ := Prod.mk.inj hsame
      rw [text, ← helement, (text_of_readTail hread).1, List.takeWhile_append_dropWhile]
  · rintro rfl
    exact read?_text name

end TypeName

/-- Reads a type name with blanks allowed around it; a text that holds none is refused whole. -/
def HostType.parse (text : String) : Except Error HostType :=
  match TypeName.read? (Text.trim text.toList) with
  | some name => .ok name.type
  | none => .error (.invalidTypeName text)

end DecoratedNames
