import DecoratedNames.Error
import DecoratedNames.Event

namespace DecoratedNames

/-- The events are kept also when there is an error. -/
structure Recorded (α : Type) where
  result : Except Error α
  events : List Event

namespace Recorded

def record (event : Event) : Recorded Unit := ⟨.ok (), [event]⟩

def reject {α : Type} (error : Error) (event : Event) : Recorded α := ⟨.error error, [event]⟩

def andThen {α β : Type} (first : Recorded α) (next : α → Recorded β) : Recorded β :=
  match first.result with
  | .ok a =>
      let second := next a
      ⟨second.result, first.events ++ second.events⟩
  | .error error => ⟨.error error, first.events⟩

instance : Monad Recorded where
  pure a := ⟨.ok a, []⟩
  bind := andThen

@[simp] theorem result_pure {α : Type} (a : α) : (pure a : Recorded α).result = .ok a := rfl

@[simp] theorem events_pure {α : Type} (a : α) : (pure a : Recorded α).events = [] := rfl

@[simp] theorem result_bind {α β : Type} (first : Recorded α) (next : α → Recorded β) :
    (first >>= next).result = first.result.bind fun a => (next a).result := by
  change (first.andThen next).result = _
  unfold andThen
  cases first.result <;> rfl

theorem events_bind_of_ok {α β : Type} {first : Recorded α} {a : α} (next : α → Recorded β)
    (h : first.result = .ok a) : (first >>= next).events = first.events ++ (next a).events := by
  change (first.andThen next).events = _
  simp [andThen, h]

theorem events_bind_of_error {α β : Type} {first : Recorded α} {error : Error}
    (next : α → Recorded β) (h : first.result = .error error) :
    (first >>= next).events = first.events := by
  change (first.andThen next).events = _
  simp [andThen, h]

end Recorded

end DecoratedNames
