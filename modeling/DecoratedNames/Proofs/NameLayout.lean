import DecoratedNames.Proofs.ConstSuffix
import DecoratedNames.Proofs.NativeSignature
import DecoratedNames.Proofs.ScopeSegments

/-! The layout of a decorated name: fragments with an `@` behind each of them, one more `@`, and
then the codes. No fragment but the first may be empty, so the first `@@` ends the fragments. -/

namespace DecoratedNames

def IsFragment (text : String) : Prop :=
  text ≠ "" ∧ '@' ∉ text.toList

instance (text : String) : Decidable (IsFragment text) :=
  inferInstanceAs (Decidable (text ≠ "" ∧ '@' ∉ text.toList))

def closedText (fragments : List String) : List Char :=
  fragments.flatMap fun fragment => fragment.toList ++ ['@']

variable {u v : List Char}

@[simp] theorem closedText_cons (fragment : String) (fragments : List String) :
    closedText (fragment :: fragments) ++ u =
      fragment.toList ++ '@' :: (closedText fragments ++ u) := by
  simp [closedText]

theorem closedText_cancel {left right : List String} (hleft : ∀ f ∈ left, IsFragment f)
    (hright : ∀ f ∈ right, IsFragment f)
    (h : closedText left ++ '@' :: u = closedText right ++ '@' :: v) : left = right ∧ u = v := by
  have opens_otherwise : ∀ {f : String} {w w' : List Char}, IsFragment f →
      '@' :: w ≠ f.toList ++ '@' :: w' := by
    intro f w w' hf heq
    cases htext : f.toList with
    | nil => exact hf.1 (String.toList_eq_nil_iff.mp htext)
    | cons c cs =>
        rw [htext] at heq
        obtain rfl : '@' = c := (List.cons.inj heq).1
        exact hf.2 (by simp [htext])
  induction left generalizing right with
  | nil =>
      cases right with
      | nil => exact ⟨rfl, by simpa [closedText] using h⟩
      | cons f right =>
          rw [closedText_cons] at h
          exact absurd h (opens_otherwise (hright f (by simp)))
  | cons f left ih =>
      cases right with
      | nil =>
          rw [closedText_cons] at h
          exact absurd h.symm (opens_otherwise (hleft f (by simp)))
      | cons g right =>
          rw [closedText_cons, closedText_cons] at h
          obtain ⟨hfragment, hrest⟩ :=
            Text.separator_cancel (hleft f (by simp)).2 (hright g (by simp)).2 h
          obtain ⟨rfl, hend⟩ := ih (fun f hf => hleft f (List.mem_cons_of_mem _ hf))
            (fun g hg => hright g (List.mem_cons_of_mem _ hg)) hrest
          rw [String.toList_inj.mp hfragment]
          exact ⟨rfl, hend⟩

namespace Method

def nativeName (method : Method) : String := method.kind.nativeName method.name

/-- What encloses the native function: the class of a member, then the scope, innermost first. -/
def enclosing (method : Method) : List String :=
  match method.kind with
  | .free => method.scope.segments.reverse
  | .staticMember | .virtualMember => method.owner :: method.scope.segments.reverse

/-- The fragments of a decorated name, the native name first and the outermost segment last. -/
def fragments (method : Method) : List String :=
  method.nativeName :: method.enclosing

theorem qualifiedName_eq_intercalate (method : Method) :
    method.qualifiedName = "@".intercalate method.fragments := by
  apply String.toList_inj.mp
  rw [fragments, String.toList_intercalate, List.map_cons]
  change _ = ['@'].intercalate _
  rw [Text.intercalate_cons, List.flatMap_map, nativeName, qualifiedName, enclosing]
  cases method.kind <;> simp [Scope.text_toList]

theorem qualifiedName_closed (method : Method) :
    method.qualifiedName.toList ++ '@' :: u =
      closedText (method.nativeName :: method.enclosing) ++ u := by
  have rotate : ∀ fragments : List String,
      (fragments.flatMap fun f => '@' :: f.toList) ++ '@' :: u =
        '@' :: (closedText fragments ++ u) := by
    intro fragments
    induction fragments with
    | nil => rfl
    | cons f fragments ih => simp [ih, closedText]
  rw [closedText_cons, ← rotate, qualifiedName_eq_intercalate, fragments,
    String.toList_intercalate, List.map_cons]
  change ['@'].intercalate _ ++ _ = _
  rw [Text.intercalate_cons, List.flatMap_map, List.append_assoc]

theorem nameText_toList (method : Method) (charSet : CharSet) (signature : NativeSignature) :
    (method.nameText charSet signature).toList =
      '?' :: (closedText (method.nativeName :: method.enclosing) ++
        '@' :: (method.accessCode.toList ++ 'A' :: (signature.text charSet).toList)) := by
  rw [← qualifiedName_closed]
  simp [nameText]

end Method

end DecoratedNames
