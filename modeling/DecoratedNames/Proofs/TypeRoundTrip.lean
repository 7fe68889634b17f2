import DecoratedNames.Proofs.Trimming
import DecoratedNames.Proofs.TypeGrammar

/-! Displaying and reading. A type that some text is read as is also what its own display is read
as, and these types are told by their centre. -/

namespace DecoratedNames

theorem Text.trimmed_of_no_blank {text : List Char} (h : ∀ c ∈ text, isBlank c = false) :
    Trimmed text :=
  ⟨fun c hc => h c (List.mem_of_mem_head? hc), fun c hc => h c (List.mem_of_getLast? hc)⟩

namespace TypeName

theorem wrapperText_no_blank (wrappers : List Wrapper) :
    ∀ c ∈ wrapperText wrappers, Text.isBlank c = false := by
  have hwrapper : ∀ wrapper : Wrapper, wrapper.text.toList.any Text.isBlank = false := by
    intro wrapper
    cases wrapper <;> decide
  intro c hc
  rcases List.mem_flatMap.mp hc with ⟨wrapper, _, hc⟩
  exact (Bool.not_eq_true _).mp (List.any_eq_false.mp (hwrapper wrapper) c hc)

theorem trimmed_of_isPlain {text element : List Char} {wrappers : List Wrapper}
    (h : IsPlain text element wrappers) : Text.Trimmed text := by
  rcases h with ⟨⟨_, helement⟩, rfl⟩
  apply Text.trimmed_of_no_blank
  intro c hc
  rcases List.mem_append.mp hc with hc | hc
  · exact (helement c hc).2
  · exact wrapperText_no_blank wrappers c hc

@[simp] theorem isElement_fullName (p : Primitive) : IsElement p.fullName.toList := by
  cases p <;> decide

@[simp] theorem isElement_keyword (p : Primitive) : IsElement p.keyword.toList := by
  cases p <;> decide

theorem bracket_not_mem_of_isElement {element : List Char} (h : IsElement element) :
    '[' ∉ element := by
  intro hbracket
  have hmark : isMark '[' = false := (h.2 '[' hbracket).1
  cases hmark

end TypeName

namespace HostType

open DecoratedNames.TypeName

/-- The types that are read from some text. Only a class under its whole text may have a bracket in
its name, and it has no wrappers. -/
def IsReadable (type : HostType) : Prop :=
  (∃ p, type.centre = .primitive p) ∨
    (∃ name : String, type.centre = .classType name ∧ IsElement name.toList ∧
      ∀ p : Primitive, name ≠ p.fullName ∧ name ≠ p.keyword) ∨
    ∃ name : String, type = .classType name ∧ Text.Trimmed name.toList ∧ Bracketed name.toList

@[simp] theorem toList_join_wrappers (wrappers : List Wrapper) :
    (String.join (wrappers.map Wrapper.text)).toList = wrapperText wrappers := by
  rw [String.toList_join, List.flatMap_map]
  rfl

theorem display_wrapAll_toList (type : HostType) (wrappers : List Wrapper) :
    (type.wrapAll wrappers).display.toList = type.display.toList ++ wrapperText wrappers := by
  simp only [display_wrapAll, String.toList_append, toList_join_wrappers]

theorem display_eq_centre_append (type : HostType) :
    type.display.toList = type.centre.display.toList ++ wrapperText type.wrappers := by
  rw [← display_wrapAll_toList, wrapAll_wrappers]

theorem denotes_centre (element : List Char) (wrappers : List Wrapper) :
    Denotes element ((ofElement (String.ofList element)).wrapAll wrappers).centre := by
  rw [denotes_iff]
  simp

theorem isReadable_of_parse {text : String} {type : HostType} (h : parse text = .ok type) :
    type.IsReadable := by
  rcases parse_ok_cases h with ⟨element, wrappers, hplain, rfl⟩ | ⟨hbracketed, rfl⟩
  · rcases denotes_centre element wrappers with ⟨p, _, hp⟩ | ⟨hnone, hclass⟩
    · exact Or.inl ⟨p, hp⟩
    · exact Or.inr (Or.inl ⟨_, hclass, by simpa using hplain.1, hnone⟩)
  · exact Or.inr (Or.inr ⟨_, rfl, by simpa using hbracketed⟩)

theorem parse_display_of_centre {type : HostType} (helement : IsElement type.centre.display.toList)
    (hcentre : Denotes type.centre.display.toList type.centre) :
    parse type.display = .ok type := by
  have hplain : IsPlain type.display.toList type.centre.display.toList type.wrappers :=
    ⟨helement, display_eq_centre_append type⟩
  have htrim : Text.trim type.display.toList = type.display.toList :=
    Text.trim_eq_self_iff.mpr (trimmed_of_isPlain hplain)
  rw [← htrim] at hplain
  rw [parse_of_plain hplain hcentre, wrapAll_wrappers]

theorem parse_display_of_isReadable {type : HostType} (h : type.IsReadable) :
    parse type.display = .ok type := by
  rcases h with ⟨p, hp⟩ | ⟨name, hname, helement, hnone⟩ | ⟨name, rfl, htrimmed, hbracketed⟩
  · apply parse_display_of_centre
    · simp [hp, display]
    · rw [hp]
      exact Or.inl ⟨p, Or.inl String.ofList_toList, rfl⟩
  · apply parse_display_of_centre
    · simpa [hname, display] using helement
    · rw [hname]
      exact Or.inr (by simpa [display] using hnone)
  · have htrim : Text.trim name.toList = name.toList := Text.trim_eq_self_iff.mpr htrimmed
    rw [← htrim] at hbracketed
    rw [display, parse_of_bracketed hbracketed, htrim, String.ofList_toList]

/-- Reading and displaying are inverse to each other just on the types that are read from some text.
No value type and no wrapped class with a bracket in its name is among them. -/
theorem parse_display_iff (type : HostType) :
    ((∃ text, parse text = .ok type) ↔ parse type.display = .ok type) ∧
      (parse type.display = .ok type ↔ type.IsReadable) ∧
      (∀ name, ¬ (type.centre = .valueType name ∧ parse type.display = .ok type)) ∧
      ∀ name, ¬ (type.wrappers ≠ [] ∧ type.centre = .classType name ∧ '[' ∈ name.toList ∧
        parse type.display = .ok type) := by
  refine ⟨?_, ?_, ?_, ?_⟩
  · constructor
    · intro h
      rcases h with ⟨text, h⟩
      exact parse_display_of_isReadable (isReadable_of_parse h)
    · intro h
      exact ⟨type.display, h⟩
  · exact ⟨isReadable_of_parse, parse_display_of_isReadable⟩
  · intro name h
    rcases h with ⟨hvalue, h⟩
    rcases isReadable_of_parse h with ⟨p, hp⟩ | ⟨name', hname, _⟩ | ⟨name', rfl, _⟩
    · cases hvalue.symm.trans hp
    · cases hvalue.symm.trans hname
    · cases hvalue
  · intro name h
    rcases h with ⟨hwrapped, hclass, hbracket, h⟩
    rcases isReadable_of_parse h with ⟨p, hp⟩ | ⟨name', hname, helement, _⟩ | ⟨name', rfl, _⟩
    · cases hclass.symm.trans hp
    · obtain rfl := HostType.classType.inj (hclass.symm.trans hname)
      have hmark : isMark '[' = false := (helement.2 '[' hbracket).1
      cases hmark
    · exact hwrapped rfl

end HostType

end DecoratedNames
