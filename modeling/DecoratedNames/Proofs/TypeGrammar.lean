import DecoratedNames.TypeName
import Mathlib.Logic.ExistsUnique

/-! The grammar of written type names. A name is plain, or bracketed from an opening bracket on, and
never both; each of the two forms determines its parts. Reading accepts just these names. -/

namespace DecoratedNames

/-- What an element name spells: a primitive, in full or as a keyword, or else a class. -/
def Denotes (element : List Char) (type : HostType) : Prop :=
  (∃ p : Primitive, (String.ofList element = p.fullName ∨ String.ofList element = p.keyword) ∧
      type = .primitive p) ∨
    (∀ p : Primitive, String.ofList element ≠ p.fullName ∧ String.ofList element ≠ p.keyword) ∧
      type = .classType (String.ofList element)

theorem denotes_iff {element : List Char} {type : HostType} :
    Denotes element type ↔ type = HostType.ofElement (String.ofList element) := by
  unfold Denotes HostType.ofElement
  cases hname : Primitive.ofName? (String.ofList element) with
  | none =>
      have hnone : ∀ p : Primitive,
          String.ofList element ≠ p.fullName ∧ String.ofList element ≠ p.keyword := by
        intro p
        apply not_or.mp
        intro hspelled
        rw [Primitive.ofName?_eq_some_iff.mpr hspelled] at hname
        cases hname
      constructor
      · intro h
        rcases h with ⟨p, hspelled, -⟩ | ⟨-, rfl⟩
        · exact absurd hspelled (not_or.mpr (hnone p))
        · rfl
      · exact fun h => Or.inr ⟨hnone, h⟩
  | some p =>
      have hspelled := Primitive.ofName?_eq_some_iff.mp hname
      constructor
      · intro h
        rcases h with ⟨q, hq, rfl⟩ | ⟨hnone, -⟩
        · rw [Primitive.ofName?_eq_some_iff.mpr hq] at hname
          rw [Option.some.inj hname]
        · exact absurd hspelled (not_or.mpr (hnone p))
      · exact fun h => Or.inl ⟨p, hspelled, h⟩

namespace TypeName

def IsPlain (text element : List Char) (wrappers : List Wrapper) : Prop :=
  IsElement element ∧ text = element ++ wrapperText wrappers

def IsBracketed (text element : List Char) (wrappers : List Wrapper) (rest : List Char) : Prop :=
  IsElement element ∧ text = element ++ wrapperText wrappers ++ '[' :: rest ∧
    rest.head? ≠ some ']'

def Plain (text : List Char) : Prop :=
  ∃ element wrappers, IsPlain text element wrappers

def Bracketed (text : List Char) : Prop :=
  ∃ element wrappers rest, IsBracketed text element wrappers rest

variable {text element element' : List Char} {wrappers wrappers' : List Wrapper}
  {rest rest' : List Char}

theorem read?_parts_eq_some_iff {bracket : Option (List Char)} :
    (read? text).map parts = some (element, wrappers, bracket) ↔
      IsElement element ∧ text = element ++ (wrapperText wrappers ++ bracketText bracket) ∧
        ∀ rest ∈ bracket, rest.head? ≠ some ']' := by
  constructor
  · intro h
    rcases Option.map_eq_some_iff.mp h with ⟨name, hread, hparts⟩
    obtain ⟨rfl, rfl, rfl⟩ : name.element = element ∧ name.wrappers = wrappers ∧
        name.bracket = bracket := by
      simpa [parts] using hparts
    exact ⟨name.isElement, (read?_eq_some_iff.mp hread).symm, name.isOpen⟩
  · rintro ⟨helement, rfl, hopen⟩
    have hread : read? (element ++ (wrapperText wrappers ++ bracketText bracket)) =
        some ⟨element, wrappers, bracket, helement, hopen⟩ := read?_eq_some_iff.mpr rfl
    rw [hread]
    rfl

theorem isPlain_iff :
    IsPlain text element wrappers ↔ (read? text).map parts = some (element, wrappers, none) := by
  rw [read?_parts_eq_some_iff]
  simp [IsPlain]

theorem isBracketed_iff :
    IsBracketed text element wrappers rest ↔
      (read? text).map parts = some (element, wrappers, some rest) := by
  rw [read?_parts_eq_some_iff]
  simp [IsBracketed]

theorem isPlain_unique (h : IsPlain text element wrappers) (h' : IsPlain text element' wrappers') :
    element = element' ∧ wrappers = wrappers' := by
  rw [isPlain_iff] at h h'
  simpa using h.symm.trans h'

theorem isBracketed_unique (h : IsBracketed text element wrappers rest)
    (h' : IsBracketed text element' wrappers' rest') :
    element = element' ∧ wrappers = wrappers' ∧ rest = rest' := by
  rw [isBracketed_iff] at h h'
  simpa using h.symm.trans h'

theorem plain_iff_existsUnique :
    Plain text ↔ ∃! parts : List Char × List Wrapper, IsPlain text parts.1 parts.2 := by
  constructor
  · intro h
    rcases h with ⟨element, wrappers, h⟩
    refine ⟨(element, wrappers), h, ?_⟩
    rintro ⟨element', wrappers'⟩ h'
    rcases isPlain_unique h h' with ⟨rfl, rfl⟩
    rfl
  · intro h
    rcases h with ⟨⟨element, wrappers⟩, h, -⟩
    exact ⟨element, wrappers, h⟩

theorem bracketed_iff_existsUnique :
    Bracketed text ↔ ∃! parts : List Char × List Wrapper × List Char,
      IsBracketed text parts.1 parts.2.1 parts.2.2 := by
  constructor
  · intro h
    rcases h with ⟨element, wrappers, rest, h⟩
    refine ⟨(element, wrappers, rest), h, ?_⟩
    rintro ⟨element', wrappers', rest'⟩ h'
    rcases isBracketed_unique h h' with ⟨rfl, rfl, rfl⟩
    rfl
  · intro h
    rcases h with ⟨⟨element, wrappers, rest⟩, h, -⟩
    exact ⟨element, wrappers, rest, h⟩

theorem not_plain_and_bracketed : ¬ (Plain text ∧ Bracketed text) := by
  intro h
  rcases h with ⟨⟨element, wrappers, hplain⟩, ⟨element', wrappers', rest, hbracketed⟩⟩
  rw [isPlain_iff] at hplain
  rw [isBracketed_iff] at hbracketed
  simpa using hplain.symm.trans hbracketed

theorem read?_cases (text : List Char) :
    (∃ element wrappers, IsPlain text element wrappers) ∨ Bracketed text ∨ read? text = none := by
  cases hread : read? text with
  | none => exact Or.inr (Or.inr rfl)
  | some name =>
      have hparts : (read? text).map parts = some (name.element, name.wrappers, name.bracket) := by
        rw [hread]
        rfl
      cases hbracket : name.bracket with
      | none => exact Or.inl ⟨_, _, isPlain_iff.mpr (hbracket ▸ hparts)⟩
      | some rest => exact Or.inr (Or.inl ⟨_, _, _, isBracketed_iff.mpr (hbracket ▸ hparts)⟩)

theorem read?_eq_none_iff : read? text = none ↔ ¬ Plain text ∧ ¬ Bracketed text := by
  constructor
  · intro hnone
    constructor
    · rintro ⟨element, wrappers, hplain⟩
      rw [isPlain_iff, hnone] at hplain
      cases hplain
    · rintro ⟨element, wrappers, rest, hbracketed⟩
      rw [isBracketed_iff, hnone] at hbracketed
      cases hbracketed
  · rintro ⟨hplain, hbracketed⟩
    rcases read?_cases text with h | h | h
    · exact absurd h hplain
    · exact absurd h hbracketed
    · exact h

theorem type_of_no_bracket {name : TypeName} (h : name.bracket = none) :
    name.type = (HostType.ofElement (String.ofList name.element)).wrapAll name.wrappers := by
  rw [type, h]

theorem type_of_bracket {name : TypeName} (h : name.bracket ≠ none) :
    name.type = .classType (String.ofList name.text) := by
  unfold type
  split
  · exact absurd ‹_› h
  · rfl

end TypeName

namespace HostType

open DecoratedNames.TypeName

variable {text : String}

theorem parse_of_plain {element : List Char} {wrappers : List Wrapper} {centre : HostType}
    (h : IsPlain (Text.trim text.toList) element wrappers) (hcentre : Denotes element centre) :
    parse text = .ok (centre.wrapAll wrappers) := by
  rcases Option.map_eq_some_iff.mp (isPlain_iff.mp h) with ⟨name, hread, hparts⟩
  obtain ⟨rfl, rfl, hbracket⟩ : name.element = element ∧ name.wrappers = wrappers ∧
      name.bracket = none := by
    simpa [parts] using hparts
  rw [parse, hread, denotes_iff.mp hcentre, ← type_of_no_bracket hbracket]

theorem parse_of_bracketed (h : Bracketed (Text.trim text.toList)) :
    parse text = .ok (.classType (String.ofList (Text.trim text.toList))) := by
  rcases h with ⟨element, wrappers, rest, hbracketed⟩
  rcases Option.map_eq_some_iff.mp (isBracketed_iff.mp hbracketed) with ⟨name, hread, hparts⟩
  have hbracket : name.bracket = some rest := by
    simpa [parts] using congrArg (·.2.2) hparts
  have htype : name.type = .classType (String.ofList name.text) :=
    type_of_bracket (by simp [hbracket])
  rw [parse, hread, ← read?_eq_some_iff.mp hread, ← htype]

theorem parse_of_neither (hplain : ¬ Plain (Text.trim text.toList))
    (hbracketed : ¬ Bracketed (Text.trim text.toList)) :
    parse text = .error (.invalidTypeName text) := by
  rw [parse, read?_eq_none_iff.mpr ⟨hplain, hbracketed⟩]

theorem parse_cases (text : String) :
    (∃ element wrappers, IsPlain (Text.trim text.toList) element wrappers ∧
        parse text = .ok ((ofElement (String.ofList element)).wrapAll wrappers)) ∨
      (Bracketed (Text.trim text.toList) ∧
        parse text = .ok (.classType (String.ofList (Text.trim text.toList)))) ∨
      (¬ Plain (Text.trim text.toList) ∧ ¬ Bracketed (Text.trim text.toList) ∧
        parse text = .error (.invalidTypeName text)) := by
  by_cases hplain : Plain (Text.trim text.toList)
  · rcases hplain with ⟨element, wrappers, h⟩
    exact Or.inl ⟨element, wrappers, h, parse_of_plain h (denotes_iff.mpr rfl)⟩
  · by_cases hbracketed : Bracketed (Text.trim text.toList)
    · exact Or.inr (Or.inl ⟨hbracketed, parse_of_bracketed hbracketed⟩)
    · exact Or.inr (Or.inr ⟨hplain, hbracketed, parse_of_neither hplain hbracketed⟩)

theorem parse_ok_cases {type : HostType} (h : parse text = .ok type) :
    (∃ element wrappers, IsPlain (Text.trim text.toList) element wrappers ∧
        type = (ofElement (String.ofList element)).wrapAll wrappers) ∨
      Bracketed (Text.trim text.toList) ∧
        type = .classType (String.ofList (Text.trim text.toList)) := by
  rcases parse_cases text with ⟨element, wrappers, hplain, hok⟩ | ⟨hbracketed, hok⟩ |
    ⟨-, -, herror⟩
  · exact Or.inl ⟨element, wrappers, hplain, Except.ok.inj (h.symm.trans hok)⟩
  · exact Or.inr ⟨hbracketed, Except.ok.inj (h.symm.trans hok)⟩
  · cases h.symm.trans herror

theorem parse_eq_class_iff :
    parse text = .ok (.classType (String.ofList (Text.trim text.toList))) ↔
      Bracketed (Text.trim text.toList) ∨
        IsPlain (Text.trim text.toList) (Text.trim text.toList) [] ∧
          Denotes (Text.trim text.toList)
            (.classType (String.ofList (Text.trim text.toList))) := by
  constructor
  · intro h
    rcases parse_ok_cases h with ⟨element, wrappers, hplain, hclass⟩ | ⟨hbracketed, -⟩
    · obtain rfl : [] = wrappers := by simpa using congrArg HostType.wrappers hclass
      obtain rfl : Text.trim text.toList = element := by simpa using hplain.2
      exact Or.inr ⟨hplain, denotes_iff.mpr hclass⟩
    · exact Or.inl hbracketed
  · rintro (hbracketed | ⟨hplain, hclass⟩)
    · exact parse_of_bracketed hbracketed
    · exact parse_of_plain hplain hclass

theorem plain_iff_parse_eq_wrapAll :
    Plain (Text.trim text.toList) ↔ ∃ element wrappers centre,
      IsPlain (Text.trim text.toList) element wrappers ∧ Denotes element centre ∧
        parse text = .ok (centre.wrapAll wrappers) := by
  constructor
  · rintro ⟨element, wrappers, h⟩
    have hdenotes : Denotes element (ofElement (String.ofList element)) := denotes_iff.mpr rfl
    exact ⟨element, wrappers, _, h, hdenotes, parse_of_plain h hdenotes⟩
  · rintro ⟨element, wrappers, centre, h, -⟩
    exact ⟨element, wrappers, h⟩

theorem bracketed_iff_not_plain_and_class :
    Bracketed (Text.trim text.toList) ↔ ¬ Plain (Text.trim text.toList) ∧
      parse text = .ok (.classType (String.ofList (Text.trim text.toList))) := by
  constructor
  · intro h
    exact ⟨fun hplain => not_plain_and_bracketed ⟨hplain, h⟩, parse_of_bracketed h⟩
  · rintro ⟨hplain, hparse⟩
    rcases parse_eq_class_iff.mp hparse with hbracketed | ⟨hwhole, -⟩
    · exact hbracketed
    · exact absurd ⟨_, _, hwhole⟩ hplain

theorem parse_eq_error_iff {error : Error} :
    parse text = .error error ↔
      error = .invalidTypeName text ∧ ¬ Plain (Text.trim text.toList) ∧
        ¬ Bracketed (Text.trim text.toList) := by
  constructor
  · intro hparse
    rcases parse_cases text with ⟨element, wrappers, -, hok⟩ | ⟨-, hok⟩ |
      ⟨hplain, hbracketed, herror⟩
    · cases hparse.symm.trans hok
    · cases hparse.symm.trans hok
    · exact ⟨Except.error.inj (hparse.symm.trans herror), hplain, hbracketed⟩
  · rintro ⟨rfl, hplain, hbracketed⟩
    exact parse_of_neither hplain hbracketed

/-- A plain name is read as what its element denotes under its wrappers, a bracketed name as the
class of its whole text, and any other text is refused untrimmed. Only bracketed names and the plain
names of classes without wrappers are read as the class of their whole text. -/
theorem parse_follows_grammar (text : String) :
    let name := Text.trim text.toList
    ¬ (Plain name ∧ Bracketed name) ∧
      (Plain name ↔ ∃! parts : List Char × List Wrapper, IsPlain name parts.1 parts.2) ∧
      (Bracketed name ↔ ∃! parts : List Char × List Wrapper × List Char,
        IsBracketed name parts.1 parts.2.1 parts.2.2) ∧
      (Plain name ↔ ∃ element wrappers centre, IsPlain name element wrappers ∧
        Denotes element centre ∧ parse text = .ok (centre.wrapAll wrappers)) ∧
      (parse text = .ok (.classType (String.ofList name)) ↔
        Bracketed name ∨
          IsPlain name name [] ∧ Denotes name (.classType (String.ofList name))) ∧
      (Bracketed name ↔ ¬ Plain name ∧ parse text = .ok (.classType (String.ofList name))) ∧
      ∀ error, parse text = .error error ↔
        error = .invalidTypeName text ∧ ¬ Plain name ∧ ¬ Bracketed name := by
  intro name
  exact ⟨not_plain_and_bracketed, plain_iff_existsUnique, bracketed_iff_existsUnique,
    plain_iff_parse_eq_wrapAll, parse_eq_class_iff, bracketed_iff_not_plain_and_class,
    fun _ => parse_eq_error_iff⟩

/-- A class name without a bracket is read as the class of its whole text. -/
theorem class_of_text_not_bracketed :
    Plain (Text.trim "System.Guid".toList) ∧
      parse "System.Guid" = .ok (.classType (String.ofList (Text.trim "System.Guid".toList))) ∧
      ¬ (parse "System.Guid" = .ok (.classType (String.ofList (Text.trim "System.Guid".toList))) ↔
        Bracketed (Text.trim "System.Guid".toList)) := by
  have hplain : Plain (Text.trim "System.Guid".toList) :=
    ⟨"System.Guid".toList, [], by decide, by decide⟩
  have hclass : parse "System.Guid" =
      .ok (.classType (String.ofList (Text.trim "System.Guid".toList))) := rfl
  refine ⟨hplain, hclass, ?_⟩
  intro h
  exact not_plain_and_bracketed ⟨hplain, h.mp hclass⟩

/-- One bracket that is no array suffix turns all wrappers into a part of the name. -/
example : parse " int&[2]* " = .ok (.classType "int&[2]*") := rfl

end HostType

end DecoratedNames
