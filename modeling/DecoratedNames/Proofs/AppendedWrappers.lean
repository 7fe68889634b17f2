import DecoratedNames.Proofs.TypeRoundTrip

namespace DecoratedNames

namespace TypeName

/-- The parts behind an element when wrappers follow them; an open bracket takes these in. -/
def extendTail (outer : List Wrapper) :
    List Wrapper × Option (List Char) → List Wrapper × Option (List Char)
  | (wrappers, none) => (wrappers ++ outer, none)
  | (wrappers, some rest) => (wrappers, some (rest ++ wrapperText outer))

theorem extendTail_cons (outer : List Wrapper) (wrapper : Wrapper)
    (tail : List Wrapper × Option (List Char)) :
    extendTail outer (wrapper :: tail.1, tail.2) =
      (wrapper :: (extendTail outer tail).1, (extendTail outer tail).2) := by
  rcases tail with ⟨wrappers, bracket⟩
  cases bracket <;> rfl

theorem wrapperText_opens_with_mark (wrappers : List Wrapper) :
    ∀ c ∈ (wrapperText wrappers).head?, isMark c = true := by
  have hmark := tail_opens_with_mark wrappers none
  rwa [bracketText, List.append_nil] at hmark

theorem head_append_wrapperText {rest : List Char} (h : rest.head? ≠ some ']')
    (outer : List Wrapper) : (rest ++ wrapperText outer).head? ≠ some ']' := by
  cases rest with
  | nil =>
      -- The wrappers stand right behind the bracket, and none of them starts with `]`.
      intro hclosed
      have hmark : isMark ']' = true := wrapperText_opens_with_mark outer ']' hclosed
      exact absurd hmark (by decide)
  | cons c rest => exact h

theorem extendTail_isOpen {tail : List Wrapper × Option (List Char)}
    (h : ∀ rest ∈ tail.2, rest.head? ≠ some ']') (outer : List Wrapper) :
    ∀ rest ∈ (extendTail outer tail).2, rest.head? ≠ some ']' := by
  rcases tail with ⟨wrappers, bracket⟩
  cases bracket with
  | none => simp [extendTail]
  | some rest =>
      rintro _ ⟨⟩
      exact head_append_wrapperText (h rest rfl) outer

def extend (name : TypeName) (outer : List Wrapper) : TypeName where
  element := name.element
  wrappers := (extendTail outer name.parts.2).1
  bracket := (extendTail outer name.parts.2).2
  isElement := name.isElement
  isOpen := extendTail_isOpen name.isOpen outer

@[simp] theorem parts_extend (name : TypeName) (outer : List Wrapper) :
    (name.extend outer).parts = (name.parts.1, extendTail outer name.parts.2) := rfl

theorem readTail_append (tail : List Char) (outer : List Wrapper) :
    readTail (tail ++ wrapperText outer) = (readTail tail).map (extendTail outer) := by
  fun_induction readTail tail with
  | case1 =>
      have hread : readTail (wrapperText outer ++ bracketText none) = some (outer, none) :=
        readTail_text outer (by simp)
      simpa [bracketText, extendTail] using hread
  | case2 cs ih | case3 cs ih | case4 cs ih =>
      simp only [List.cons_append, readTail, ih, Option.map_map]
      congr 1
      funext tail
      exact (extendTail_cons outer _ tail).symm
  | case5 cs hopen =>
      -- The bracket is open at the end of the text and takes the wrappers in.
      have hhead : cs.head? ≠ some ']' := by
        intro hclosed
        rcases List.head?_eq_some_iff.mp hclosed with ⟨rest, hrest⟩
        exact hopen rest hrest
      have hbracket : ∀ rest ∈ some (cs ++ wrapperText outer), rest.head? ≠ some ']' := by
        intro rest hrest
        obtain rfl := Option.some.inj hrest
        exact head_append_wrapperText hhead outer
      exact readTail_text [] hbracket
  | case6 c cs hamp hstar _ hopen =>
      rw [List.cons_append, readTail]
      · rfl
      · exact hamp
      · exact hstar
      · exact fun _ hbracket _ => hopen hbracket
      · exact hopen

theorem element_append (text : List Char) (outer : List Wrapper) :
    (text ++ wrapperText outer).takeWhile (!isMark ·) = text.takeWhile (!isMark ·) ∧
      (text ++ wrapperText outer).dropWhile (!isMark ·) =
        text.dropWhile (!isMark ·) ++ wrapperText outer := by
  rcases takeWhile_of_head (wrapperText_opens_with_mark outer) with ⟨htake, hdrop⟩
  induction text with
  | nil => exact ⟨htake, hdrop⟩
  | cons c text ih =>
      rcases ih with ⟨ihtake, ihdrop⟩
      cases hc : isMark c with
      | true => simp [hc]
      | false => simp [hc, ihtake, ihdrop]

theorem read?_append (text : List Char) (outer : List Wrapper) :
    read? (text ++ wrapperText outer) = (read? text).map fun name => name.extend outer := by
  rcases element_append text outer with ⟨htake, hdrop⟩
  apply Option.map_injective fun _ _ => parts_injective
  calc
    (read? (text ++ wrapperText outer)).map parts =
        ((read? text).map parts).map fun parts => (parts.1, extendTail outer parts.2) := by
      rw [read?_map_parts, read?_map_parts, htake, hdrop, readTail_append]
      split
      · rfl
      · rw [Option.map_map, Option.map_map]
        rfl
    _ = ((read? text).map fun name => name.extend outer).map parts := by
      rw [Option.map_map, Option.map_map]
      rfl

@[simp] theorem bracket_extend (name : TypeName) (outer : List Wrapper) :
    (name.extend outer).bracket = name.bracket.map (· ++ wrapperText outer) := by
  cases hbracket : name.bracket <;> simp [extend, extendTail, parts, hbracket]

@[simp] theorem text_extend (name : TypeName) (outer : List Wrapper) :
    (name.extend outer).text = name.text ++ wrapperText outer := by
  cases hbracket : name.bracket <;> simp [extend, extendTail, parts, text, hbracket]

theorem type_extend {name : TypeName} (h : name.bracket = none) (outer : List Wrapper) :
    (name.extend outer).type = name.type.wrapAll outer := by
  have hplain : (name.extend outer).bracket = none := by rw [bracket_extend, h, Option.map_none]
  have hwrappers : (name.extend outer).wrappers = name.wrappers ++ outer := by
    simp [extend, extendTail, parts, h]
  rw [type_of_no_bracket hplain, type_of_no_bracket h, hwrappers, HostType.wrapAll_append]
  rfl

end TypeName

namespace HostType

open DecoratedNames.TypeName

def IsOpaque (type : HostType) : Prop :=
  ∃ name : String, type = .classType name ∧ '[' ∈ name.toList

theorem isOpaque_type_iff {name : TypeName} : name.type.IsOpaque ↔ name.bracket ≠ none := by
  constructor
  · rintro ⟨className, htype, hmem⟩ hbracket
    have hcentre := denotes_centre name.element name.wrappers
    rw [← type_of_no_bracket hbracket, htype] at hcentre
    rcases hcentre with ⟨p, -, hp⟩ | ⟨-, hname⟩
    · cases hp
    · obtain rfl := HostType.classType.inj hname
      rw [String.toList_ofList] at hmem
      exact bracket_not_mem_of_isElement name.isElement hmem
  · intro hbracket
    refine ⟨_, type_of_bracket hbracket, ?_⟩
    obtain ⟨rest, hrest⟩ := Option.ne_none_iff_exists'.mp hbracket
    simp [TypeName.text, hrest]

theorem parse_eq_ok_iff {text : String} {type : HostType} :
    parse text = .ok type ↔
      ∃ name, read? (Text.trim text.toList) = some name ∧ name.type = type := by
  rw [parse]
  cases read? (Text.trim text.toList) <;> simp

/-- A text without the blanks at its end, and wrappers behind it. -/
def withWrappers (text : String) (outer : List Wrapper) : String :=
  String.ofList (Text.trimEnd text.toList) ++ String.join (outer.map Wrapper.text)

theorem read?_withWrappers (text : String) (outer : List Wrapper) :
    read? (Text.trim (withWrappers text outer).toList) =
      (read? (Text.trim text.toList)).map fun name => name.extend outer := by
  have htext : (withWrappers text outer).toList =
      Text.trimEnd text.toList ++ wrapperText outer := by
    rw [withWrappers, String.toList_append, String.toList_ofList, toList_join_wrappers]
  rw [htext, Text.trim_trimEnd_append _ (wrapperText_no_blank outer), read?_append]

/-- Wrappers written behind a text leave it refused, wrap the type that it is read as, or are added
to the name of a class with a bracket in it. -/
theorem parse_withWrappers (text : String) (outer : List Wrapper) :
    (∀ error, parse text = .error error →
        parse (withWrappers text outer) = .error (.invalidTypeName (withWrappers text outer))) ∧
      (∀ type, parse text = .ok type → ¬ type.IsOpaque →
        parse (withWrappers text outer) = .ok (type.wrapAll outer)) ∧
      ∀ name : String, parse text = .ok (.classType name) → '[' ∈ name.toList →
        parse (withWrappers text outer) =
          .ok (.classType (name ++ String.join (outer.map Wrapper.text))) := by
  refine ⟨?_, ?_, ?_⟩
  · intro error herror
    cases hread : read? (Text.trim text.toList) with
    | none => rw [parse, read?_withWrappers, hread, Option.map_none]
    | some name =>
        rw [parse, hread] at herror
        cases herror
  · intro type hparse hopaque
    rcases parse_eq_ok_iff.mp hparse with ⟨name, hread, rfl⟩
    have hplain : name.bracket = none := by
      by_contra hbracket
      exact hopaque (isOpaque_type_iff.mpr hbracket)
    rw [parse_eq_ok_iff, read?_withWrappers, hread]
    exact ⟨name.extend outer, rfl, type_extend hplain outer⟩
  · intro className hparse hbracket
    rcases parse_eq_ok_iff.mp hparse with ⟨name, hread, htype⟩
    have hopen : name.bracket ≠ none := by
      rw [← isOpaque_type_iff, htype]
      exact ⟨className, rfl, hbracket⟩
    have hname : className = String.ofList name.text :=
      HostType.classType.inj (htype.symm.trans (type_of_bracket hopen))
    have hlonger : String.ofList (name.text ++ wrapperText outer) =
        className ++ String.join (outer.map Wrapper.text) := by
      rw [String.ofList_append, hname, ← toList_join_wrappers, String.ofList_toList]
    have hopen' : (name.extend outer).bracket ≠ none := by simpa [bracket_extend] using hopen
    rw [parse_eq_ok_iff, read?_withWrappers, hread]
    refine ⟨name.extend outer, rfl, ?_⟩
    rw [type_of_bracket hopen', text_extend, hlonger]

theorem array_suffix_appended :
    parse "int &x" = .error (.invalidTypeName "int &x") ∧
      parse "int &x[]&" = .error (.invalidTypeName "int &x[]&") ∧
      parse " byte* " = .ok (HostType.primitive .uint8).pointer ∧
      parse " byte*[]&" = .ok (HostType.primitive .uint8).pointer.array.byRef ∧
      parse "A[" = .ok (.classType "A[") ∧ parse "A[[]&" = .ok (.classType "A[[]&") := by
  have hrefused : parse "int &x" = .error (.invalidTypeName "int &x") := rfl
  have hplain : parse " byte* " = .ok (HostType.primitive .uint8).pointer := rfl
  have hopaque : parse "A[" = .ok (.classType "A[") := rfl
  have hnotOpaque : ¬ (HostType.primitive .uint8).pointer.IsOpaque := by
    intro h
    obtain ⟨name, htype, -⟩ := h
    cases htype
  refine ⟨hrefused, ?_, hplain, ?_, hopaque, ?_⟩
  · exact (parse_withWrappers "int &x" [.array, .byRef]).1 _ hrefused
  · exact (parse_withWrappers " byte* " [.array, .byRef]).2.1 _ hplain hnotOpaque
  · exact (parse_withWrappers "A[" [.array, .byRef]).2.2 _ hopaque (by decide)

end HostType

end DecoratedNames
