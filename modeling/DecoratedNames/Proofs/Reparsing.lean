import DecoratedNames.Proofs.AppendedWrappers
import DecoratedNames.TypeCode
import DecoratedNames.TypeStep

/-! Runs of steps between types. A run that starts from a type name never fails, because every type
on it has a centre that is read back. A type that is read back as another one is a wrapped class
with a bracket in its name: its wrappers become a part of the name. -/

namespace DecoratedNames

def TypeStep.run (steps : List TypeStep) (start : HostType) : Except Error HostType :=
  steps.foldlM (fun type step => step.apply type) start

namespace TypeName

variable {text : List Char}

theorem bracket_mem_of_bracketed (h : Bracketed text) : '[' ∈ text := by
  rcases h with ⟨element, wrappers, rest, -, rfl, -⟩
  simp

theorem bracketed_append_wrapperText (h : Bracketed text) (outer : List Wrapper) :
    Bracketed (text ++ wrapperText outer) := by
  rcases h with ⟨element, wrappers, rest, helement, rfl, hrest⟩
  exact ⟨element, wrappers, rest ++ wrapperText outer, helement, by simp,
    head_append_wrapperText hrest outer⟩

theorem trimmed_append_wrapperText (hne : text ≠ []) (h : Text.Trimmed text)
    (outer : List Wrapper) : Text.Trimmed (text ++ wrapperText outer) := by
  rcases h with ⟨hhead, hlast⟩
  constructor
  · rwa [List.head?_append_of_ne_nil _ hne]
  · exact Text.last_append hlast (wrapperText_no_blank outer)

end TypeName

namespace HostType

open DecoratedNames.TypeName

variable {type : HostType}

theorem centre_isReadable (h : type.IsReadable) : type.centre.IsReadable := by
  rcases h with ⟨p, hp⟩ | ⟨name, hname, hplain⟩ | ⟨name, rfl, hopaque⟩
  · exact Or.inl ⟨p, by simpa using hp⟩
  · exact Or.inr (Or.inl ⟨name, by simpa using hname, hplain⟩)
  · exact Or.inr (Or.inr ⟨name, rfl, hopaque⟩)

def WrapsBracket (type : HostType) : Prop :=
  type.wrappers ≠ [] ∧ ∃ name : String, type.centre = .classType name ∧ '[' ∈ name.toList

theorem bracketed_of_centre {name : String} (hcentre : type.centre.IsReadable)
    (hclass : type.centre = .classType name) (hbracket : '[' ∈ name.toList) :
    Text.Trimmed name.toList ∧ Bracketed name.toList := by
  rw [hclass] at hcentre
  rcases hcentre with ⟨p, hp⟩ | ⟨name', hname, helement, -⟩ | ⟨name', hname, hopaque⟩
  · cases hp
  · obtain rfl := HostType.classType.inj hname
    exact absurd hbracket (bracket_not_mem_of_isElement helement)
  · obtain rfl := HostType.classType.inj hname
    exact hopaque

theorem parse_display_of_wrapsBracket (hcentre : type.centre.IsReadable) (h : type.WrapsBracket) :
    parse type.display = .ok (.classType type.display) := by
  rcases h with ⟨-, name, hclass, hbracket⟩
  rcases bracketed_of_centre hcentre hclass hbracket with ⟨htrimmed, hbracketed⟩
  have hne : name.toList ≠ [] := List.ne_nil_of_mem hbracket
  have hdisplay : type.display.toList = name.toList ++ wrapperText type.wrappers := by
    rw [display_eq_centre_append, hclass, display]
  have htrim : Text.trim type.display.toList = type.display.toList := by
    rw [Text.trim_eq_self_iff, hdisplay]
    exact trimmed_append_wrapperText hne htrimmed _
  have hwhole : Bracketed (Text.trim type.display.toList) := by
    rw [htrim, hdisplay]
    exact bracketed_append_wrapperText hbracketed _
  rw [parse_of_bracketed hwhole, htrim, String.ofList_toList]

theorem isReadable_of_centre (hcentre : type.centre.IsReadable) (h : ¬ type.WrapsBracket) :
    type.IsReadable := by
  rcases hcentre with ⟨p, hp⟩ | ⟨name, hname, hplain⟩ | ⟨name, hname, hopaque⟩
  · exact Or.inl ⟨p, by simpa using hp⟩
  · exact Or.inr (Or.inl ⟨name, by simpa using hname, hplain⟩)
  · have hwrappers : type.wrappers = [] := by
      by_contra hwrapped
      exact h ⟨hwrapped, name, hname, bracket_mem_of_bracketed hopaque.2⟩
    have htype : type = .classType name := by
      rw [← wrapAll_wrappers type, hwrappers, hname]
      rfl
    exact Or.inr (Or.inr ⟨name, htype, hopaque⟩)

/-- Each step can be made, and keeps the centre readable although it may change the centre. -/
theorem step_of_readable_centre (hcentre : type.centre.IsReadable) (step : TypeStep) :
    ∃ next, step.apply type = .ok next ∧ next.centre.IsReadable := by
  cases step with
  | wrap wrapper => exact ⟨type.wrapped wrapper, rfl, hcentre⟩
  | unwrap =>
      refine ⟨type.unwrap, rfl, ?_⟩
      cases type <;> exact hcentre
  | reparse =>
      have hread : ∃ next, parse type.display = .ok next := by
        by_cases hwraps : type.WrapsBracket
        · exact ⟨_, parse_display_of_wrapsBracket hcentre hwraps⟩
        · exact ⟨_, parse_display_of_isReadable (isReadable_of_centre hcentre hwraps)⟩
      rcases hread with ⟨next, hnext⟩
      exact ⟨next, hnext, centre_isReadable (isReadable_of_parse hnext)⟩

theorem run_of_readable_centre (steps : List TypeStep) (hcentre : type.centre.IsReadable) :
    ∃ last, TypeStep.run steps type = .ok last ∧ last.centre.IsReadable := by
  -- Wrapping an opaque class leaves the readable types, so the centre carries the induction.
  induction steps generalizing type with
  | nil => exact ⟨type, rfl, hcentre⟩
  | cons step steps ih =>
      rcases step_of_readable_centre hcentre step with ⟨next, hnext, hkept⟩
      rcases ih hkept with ⟨last, hlast, hreadable⟩
      refine ⟨last, ?_, hreadable⟩
      rw [TypeStep.run, List.foldlM_cons, hnext]
      exact hlast

/-- Every run from a type name gets to its end. The type there is read back under the same display,
and as itself unless it is a wrapped class with a bracket in its name: that is read back as the
class of its whole display, which has no type code. -/
theorem reparse_stable {text : String} {start : HostType} (hstart : parse text = .ok start)
    (steps : List TypeStep) :
    ∃ type reread, TypeStep.run steps start = .ok type ∧ parse type.display = .ok reread ∧
      reread.display = type.display ∧
      (reread = type ↔ ¬ type.WrapsBracket) ∧
      (type.WrapsBracket → reread = .classType type.display ∧
        ∀ charSet, (reread.typeCode charSet).result = .error (.unsupportedType reread)) := by
  have hcentre : start.centre.IsReadable := centre_isReadable (isReadable_of_parse hstart)
  rcases run_of_readable_centre steps hcentre with ⟨type, hrun, hreadable⟩
  by_cases hwraps : type.WrapsBracket
  · refine ⟨type, _, hrun, parse_display_of_wrapsBracket hreadable hwraps, rfl, ?_,
      fun _ => ⟨rfl, fun _ => rfl⟩⟩
    have hne : HostType.classType type.display ≠ type := by
      intro hsame
      exact hwraps.1 (by rw [← hsame]; rfl)
    exact iff_of_false hne (not_not.mpr hwraps)
  · refine ⟨type, type, hrun, ?_, rfl, iff_of_true rfl hwraps, fun h => absurd h hwraps⟩
    exact parse_display_of_isReadable (isReadable_of_centre hreadable hwraps)

theorem open_bracket_absorbs_array :
    parse " A[ " = .ok (.classType "A[") ∧
      TypeStep.run [.wrap .byRef, .unwrap, .wrap .array] (.classType "A[") =
        .ok (HostType.classType "A[").array ∧
      parse (HostType.classType "A[").array.display = .ok (.classType "A[[]") ∧
      ((HostType.classType "A[[]").typeCode .wide).result =
        .error (.unsupportedType (.classType "A[[]")) := by
  have hstart : parse " A[ " = .ok (.classType "A[") := rfl
  rcases reparse_stable hstart [.wrap .byRef, .unwrap, .wrap .array] with
    ⟨type, reread, hrun, hparse, -, -, habsorbed⟩
  obtain rfl : (HostType.classType "A[").array = type := Except.ok.inj hrun
  rcases habsorbed ⟨by decide, "A[", rfl, by decide⟩ with ⟨rfl, hrejected⟩
  exact ⟨hstart, hrun, hparse, hrejected .wide⟩

end HostType

end DecoratedNames
