import DecoratedNames.Proofs.TypeRoundTrip

/-! The normal form of a written type name: no blanks around it, and a keyword with wrappers alone
behind it written in full. It is what the type of the name is displayed as, so two names have one
type exactly if they have one normal form. -/

namespace DecoratedNames

namespace Primitive

theorem fullName_ne_keyword (p q : Primitive) : p.fullName ≠ q.keyword := by
  intro h
  have hsame : p = q := by
    have hname := ofName?_fullName p
    rw [h, ofName?_keyword q] at hname
    exact (Option.some.inj hname).symm
  subst hsame
  revert h
  cases p <;> decide

theorem keyword_injective {p q : Primitive} (h : p.keyword = q.keyword) : p = q := by
  have hname := ofName?_keyword p
  rw [h, ofName?_keyword q] at hname
  exact (Option.some.inj hname).symm

end Primitive

namespace TypeName

def isWrapperText : List Char → Bool
  | [] => true
  | '&' :: cs | '*' :: cs | '[' :: ']' :: cs => isWrapperText cs
  | _ => false

theorem isWrapperText_iff {cs : List Char} :
    isWrapperText cs = true ↔ ∃ wrappers, cs = wrapperText wrappers := by
  constructor
  · intro h
    fun_induction isWrapperText cs with
    | case1 => exact ⟨[], rfl⟩
    | case2 cs ih =>
        rcases ih h with ⟨wrappers, rfl⟩
        exact ⟨.byRef :: wrappers, rfl⟩
    | case3 cs ih =>
        rcases ih h with ⟨wrappers, rfl⟩
        exact ⟨.pointer :: wrappers, rfl⟩
    | case4 cs ih =>
        rcases ih h with ⟨wrappers, rfl⟩
        exact ⟨.array :: wrappers, rfl⟩
    | case5 => cases h
  · intro h
    obtain ⟨wrappers, rfl⟩ := h
    induction wrappers with
    | nil => rfl
    | cons wrapper wrappers ih => cases wrapper <;> exact ih

def expandAs? (p : Primitive) (name : List Char) : Option (List Char) :=
  ((p.keyword.toList.isPrefixOf? name).filter isWrapperText).map (p.fullName.toList ++ ·)

def expandKeyword? (name : List Char) : Option (List Char) :=
  Primitive.all.findSome? fun p => expandAs? p name

variable {name full : List Char}

theorem expandAs?_eq_some_iff {p : Primitive} :
    expandAs? p name = some full ↔
      ∃ wrappers, name = p.keyword.toList ++ wrapperText wrappers ∧
        full = p.fullName.toList ++ wrapperText wrappers := by
  constructor
  · intro h
    rcases Option.map_eq_some_iff.mp h with ⟨rest, hrest, rfl⟩
    rcases Option.filter_eq_some_iff.mp hrest with ⟨hkeyword, hwrappers⟩
    rw [List.isPrefixOf?_eq_some_iff_append_eq] at hkeyword
    rcases isWrapperText_iff.mp hwrappers with ⟨wrappers, rfl⟩
    exact ⟨wrappers, hkeyword.symm, rfl⟩
  · intro h
    obtain ⟨wrappers, rfl, rfl⟩ := h
    have hkeyword : p.keyword.toList.isPrefixOf? (p.keyword.toList ++ wrapperText wrappers) =
        some (wrapperText wrappers) := List.isPrefixOf?_eq_some_iff_append_eq.mpr rfl
    have hwrappers : isWrapperText (wrapperText wrappers) = true :=
      isWrapperText_iff.mpr ⟨wrappers, rfl⟩
    rw [expandAs?, hkeyword, Option.filter_some, if_pos hwrappers, Option.map_some]

theorem keyword_cancel {p q : Primitive} {wrappers wrappers' : List Wrapper}
    (h : p.keyword.toList ++ wrapperText wrappers = q.keyword.toList ++ wrapperText wrappers') :
    p = q ∧ wrappers = wrappers' := by
  have hplain : IsPlain (p.keyword.toList ++ wrapperText wrappers) p.keyword.toList wrappers :=
    ⟨isElement_keyword p, rfl⟩
  have hplain' : IsPlain (p.keyword.toList ++ wrapperText wrappers) q.keyword.toList wrappers' :=
    ⟨isElement_keyword q, h⟩
  rcases isPlain_unique hplain hplain' with ⟨hkeyword, hwrappers⟩
  exact ⟨Primitive.keyword_injective (String.toList_inj.mp hkeyword), hwrappers⟩

theorem expandKeyword?_eq_some_iff :
    expandKeyword? name = some full ↔
      ∃ p : Primitive, ∃ wrappers, name = p.keyword.toList ++ wrapperText wrappers ∧
        full = p.fullName.toList ++ wrapperText wrappers := by
  constructor
  · intro h
    rcases List.exists_of_findSome?_eq_some h with ⟨p, -, hp⟩
    exact ⟨p, expandAs?_eq_some_iff.mp hp⟩
  · intro h
    obtain ⟨p, wrappers, hname, rfl⟩ := h
    have hp : expandAs? p name = some (p.fullName.toList ++ wrapperText wrappers) :=
      expandAs?_eq_some_iff.mpr ⟨wrappers, hname, rfl⟩
    have hfound : (expandKeyword? name).isSome := by
      rw [expandKeyword?, List.findSome?_isSome_iff]
      exact ⟨p, Primitive.mem_all p, by rw [hp]; rfl⟩
    -- The search may stop at another primitive, but a name starts with one keyword only.
    rcases Option.isSome_iff_exists.mp hfound with ⟨found, hsome⟩
    rcases List.exists_of_findSome?_eq_some hsome with ⟨q, -, hq⟩
    rcases expandAs?_eq_some_iff.mp hq with ⟨wrappers', hname', rfl⟩
    rcases keyword_cancel (hname.symm.trans hname') with ⟨rfl, rfl⟩
    exact hsome

end TypeName

namespace HostType

open DecoratedNames.TypeName

/-- The text without the blanks around it, and with a keyword written in full if wrappers alone
follow it. -/
def normalForm (text : String) : String :=
  let name := Text.trim text.toList
  String.ofList ((expandKeyword? name).getD name)

variable {text other : String} {type type' : HostType}

theorem normalForm_of_keyword {p : Primitive} {wrappers : List Wrapper}
    (h : Text.trim text.toList = p.keyword.toList ++ wrapperText wrappers) :
    (normalForm text).toList = p.fullName.toList ++ wrapperText wrappers := by
  rw [normalForm, String.toList_ofList, expandKeyword?_eq_some_iff.mpr ⟨p, wrappers, h, rfl⟩,
    Option.getD_some]

theorem normalForm_of_no_keyword
    (h : ∀ (p : Primitive) (wrappers : List Wrapper),
      Text.trim text.toList ≠ p.keyword.toList ++ wrapperText wrappers) :
    (normalForm text).toList = Text.trim text.toList := by
  have hnone : expandKeyword? (Text.trim text.toList) = none := by
    rw [Option.eq_none_iff_forall_ne_some]
    intro full hfull
    rcases expandKeyword?_eq_some_iff.mp hfull with ⟨p, wrappers, hname, -⟩
    exact h p wrappers hname
  rw [normalForm, String.toList_ofList, hnone, Option.getD_none]

/-- A bracket behind the wrappers keeps the keyword from being written in full. -/
example : normalForm " int&[] " = "System.Int32&[]" ∧ normalForm " int&[,] " = "int&[,]" := by
  decide

theorem no_keyword_of_isPlain {name element : List Char} {wrappers : List Wrapper}
    (hplain : IsPlain name element wrappers)
    (hno : ∀ q : Primitive, String.ofList element ≠ q.keyword) (p : Primitive)
    (wrappers' : List Wrapper) : name ≠ p.keyword.toList ++ wrapperText wrappers' := by
  intro hname
  rcases isPlain_unique hplain ⟨isElement_keyword p, hname⟩ with ⟨helement, -⟩
  exact hno p (by rw [helement, String.ofList_toList])

theorem normalForm_of_isPlain {element : List Char} {wrappers : List Wrapper} {centre : HostType}
    (hplain : IsPlain (Text.trim text.toList) element wrappers) (hcentre : Denotes element centre) :
    (normalForm text).toList = centre.display.toList ++ wrapperText wrappers := by
  have hkept : (∀ q : Primitive, String.ofList element ≠ q.keyword) →
      (normalForm text).toList = element ++ wrapperText wrappers := by
    intro hno
    rw [normalForm_of_no_keyword (no_keyword_of_isPlain hplain hno)]
    exact hplain.2
  rcases hcentre with ⟨p, hfull | hkeyword, rfl⟩ | ⟨hno, rfl⟩
  · have hno : ∀ q : Primitive, String.ofList element ≠ q.keyword := by
      rw [hfull]
      exact Primitive.fullName_ne_keyword p
    rw [hkept hno, display, ← hfull, String.toList_ofList]
  · have hname : Text.trim text.toList = p.keyword.toList ++ wrapperText wrappers := by
      rw [← hkeyword, String.toList_ofList]
      exact hplain.2
    rw [display, normalForm_of_keyword hname]
  · rw [hkept fun q => (hno q).2, display, String.toList_ofList]

theorem normalForm_of_bracketed (h : Bracketed (Text.trim text.toList)) :
    (normalForm text).toList = Text.trim text.toList := by
  apply normalForm_of_no_keyword
  intro p wrappers hname
  exact not_plain_and_bracketed ⟨⟨_, wrappers, isElement_keyword p, hname⟩, h⟩

theorem display_eq_normalForm (h : parse text = .ok type) : type.display = normalForm text := by
  apply String.toList_inj.mp
  rcases parse_ok_cases h with ⟨element, wrappers, hplain, rfl⟩ | ⟨hbracketed, rfl⟩
  · rw [display_wrapAll_toList, normalForm_of_isPlain hplain (denotes_iff.mpr rfl)]
  · rw [display, String.toList_ofList, normalForm_of_bracketed hbracketed]

theorem parse_normalForm (h : parse text = .ok type) : parse (normalForm text) = .ok type := by
  rw [← display_eq_normalForm h]
  exact parse_display_of_isReadable (isReadable_of_parse h)

/-- The type of a name is displayed as the normal form of the name, and two names have the same type
exactly if their normal forms are the same. -/
theorem normalForm_decides_type (htext : parse text = .ok type) (hother : parse other = .ok type') :
    type.display = normalForm text ∧
      (parse text = parse other ↔ normalForm text = normalForm other) := by
  refine ⟨display_eq_normalForm htext, ?_⟩
  constructor
  · intro h
    rw [htext, hother] at h
    obtain rfl := Except.ok.inj h
    rw [← display_eq_normalForm htext, ← display_eq_normalForm hother]
  · intro h
    calc
      parse text = parse (normalForm text) := by rw [parse_normalForm htext, htext]
      _ = parse (normalForm other) := by rw [h]
      _ = parse other := by rw [parse_normalForm hother, hother]

theorem keyword_and_fullName_agree :
    parse " int& " = .ok (HostType.primitive .int32).byRef ∧
      (HostType.primitive .int32).byRef.display = normalForm " int& " ∧
      normalForm " int& " = normalForm "System.Int32&" ∧
      normalForm " int& " ≠ normalForm "int&[,]" := by
  have hkeyword : parse " int& " = .ok (HostType.primitive .int32).byRef := rfl
  have hfullName : parse "System.Int32&" = .ok (HostType.primitive .int32).byRef := rfl
  have hopaque : parse "int&[,]" = .ok (.classType "int&[,]") := rfl
  rcases normalForm_decides_type hkeyword hfullName with ⟨hdisplay, hagree⟩
  rcases normalForm_decides_type hkeyword hopaque with ⟨-, hdiffer⟩
  refine ⟨hkeyword, hdisplay, hagree.mp rfl, ?_⟩
  intro h
  have hsame := hdiffer.mpr h
  rw [hkeyword, hopaque] at hsame
  cases hsame

end HostType

end DecoratedNames
