import DecoratedNames.Proofs.EncodableTypes

/-! The events of a computation, told from its result. Looking at a type records nothing unless the
type is refused, and a refusal ends the computation, so no run records two events. -/

namespace DecoratedNames

namespace Recorded

variable {α β : Type}

/-- A result comes with the events that it calls for, and an error with the rejection of the type
that it holds and with nothing else. -/
def Reports (computation : Recorded α) (report : α → List Event) : Prop :=
  match computation.result with
  | .ok a => computation.events = report a
  | .error error =>
      ∃ type, error = .unsupportedType type ∧ computation.events = [.rejected type]

variable {report : β → List Event}

theorem reports_of_ok {computation : Recorded β} {b : β} (hresult : computation.result = .ok b)
    (hevents : computation.events = report b) : computation.Reports report := by
  rw [Reports, hresult]
  exact hevents

theorem reports_of_rejected {computation : Recorded β} {type : HostType}
    (hresult : computation.result = .error (.unsupportedType type))
    (hevents : computation.events = [.rejected type]) : computation.Reports report := by
  rw [Reports, hresult]
  exact ⟨type, rfl, hevents⟩

theorem reports_cases {computation : Recorded β} (h : computation.Reports report) :
    (∃ b, computation.result = .ok b ∧ computation.events = report b) ∨
      ∃ type, computation.result = .error (.unsupportedType type) ∧
        computation.events = [.rejected type] := by
  cases hresult : computation.result with
  | ok b =>
      rw [Reports, hresult] at h
      exact Or.inl ⟨b, rfl, h⟩
  | error error =>
      rw [Reports, hresult] at h
      obtain ⟨type, rfl, hevents⟩ := h
      exact Or.inr ⟨type, rfl, hevents⟩

theorem reports_pure (a : α) : (pure a : Recorded α).Reports fun _ => [] :=
  reports_of_ok (result_pure a) (events_pure a)

theorem reports_bind {first : Recorded α} {next : α → Recorded β}
    (hfirst : first.Reports fun _ => []) (hnext : ∀ a, (next a).Reports report) :
    (first >>= next).Reports report := by
  rcases reports_cases hfirst with ⟨a, hok, hquiet⟩ | ⟨type, herror, hevents⟩
  · have hresult : (first >>= next).result = (next a).result := by simp [hok, Except.bind]
    have hevents : (first >>= next).events = (next a).events := by
      simp [events_bind_of_ok next hok, hquiet]
    rw [Reports, hresult, hevents]
    exact hnext a
  · have hresult : (first >>= next).result = .error (.unsupportedType type) := by
      simp [herror, Except.bind]
    apply reports_of_rejected hresult
    rw [events_bind_of_error next herror, hevents]

end Recorded

namespace HostType

variable (charSet : CharSet)

theorem nativeType_reports (type : HostType) : type.nativeType.Reports fun _ => [] := by
  unfold nativeType
  cases NativeType.ofHostType? type with
  | some native => exact Recorded.reports_pure native
  | none => exact Recorded.reports_of_rejected rfl rfl

theorem typeCode_reports (type : HostType) : (type.typeCode charSet).Reports fun _ => [] := by
  apply Recorded.reports_bind (nativeType_reports type)
  intro native
  exact Recorded.reports_pure (native.code charSet)

theorem typeCodes_reports (types : List HostType) :
    (typeCodes charSet types).Reports fun _ => [] := by
  induction types with
  | nil => exact Recorded.reports_pure []
  | cons type types ih =>
      apply Recorded.reports_bind (typeCode_reports charSet type)
      intro code
      apply Recorded.reports_bind ih
      intro codes
      exact Recorded.reports_pure (code :: codes)

theorem parameterCode_reports (types : List HostType) :
    (parameterCode charSet types).Reports fun _ => [] := by
  apply Recorded.reports_bind (typeCodes_reports charSet types)
  intro codes
  exact Recorded.reports_pure _

end HostType

theorem Method.decorate_reports (method : Method) (charSet : CharSet) :
    (method.decorate charSet).Reports fun name =>
      [.decorated method.name method.kind charSet name] := by
  apply Recorded.reports_bind (HostType.typeCode_reports charSet method.returnType)
  intro returnCode
  apply Recorded.reports_bind (HostType.parameterCode_reports charSet method.encodedParameters)
  intro parameters
  exact Recorded.reports_of_ok rfl rfl

namespace Event

structure IsRejection (event : Event) (type : HostType) : Prop where
  level : event.level = .debug
  levelName : event.level.name = "DEBUG"
  message : event.message = "rejecting type without a type code"
  fields : event.fields = [("ty", type.display)]

structure IsNaming (event : Event) (method : Method) (charSet : CharSet) (name : DecoratedName) :
    Prop where
  level : event.level = .trace
  levelName : event.level.name = "TRACE"
  message : event.message = "mangled"
  fields : event.fields = [
    ("method", method.name),
    ("kind", match method.kind with
      | .free => "Free"
      | .staticMember => "StaticMember"
      | .virtualMember => "VirtualMember"),
    ("char_set", match charSet with
      | .narrow => "Narrow"
      | .wide => "Wide"),
    ("mangled", name.text)]

theorem isRejection_rejected (type : HostType) : (rejected type).IsRejection type :=
  ⟨rfl, rfl, rfl, rfl⟩

theorem isNaming_decorated (method : Method) (charSet : CharSet) (name : DecoratedName) :
    (decorated method.name method.kind charSet name).IsNaming method charSet name where
  level := rfl
  levelName := rfl
  message := rfl
  fields := by cases hkind : method.kind <;> cases charSet <;> rfl

end Event

theorem HostType.typeCode_events (type : HostType) (charSet : CharSet) :
    (type.IsEncodable ∧ (∃ code, (type.typeCode charSet).result = .ok code) ∧
        (type.typeCode charSet).events = []) ∨
      (¬ type.IsEncodable ∧ (type.typeCode charSet).result = .error (.unsupportedType type) ∧
        (type.typeCode charSet).events = [.rejected type]) := by
  by_cases hencodable : type.IsEncodable
  · obtain ⟨code, hcode⟩ := typeCode_of_isEncodable hencodable charSet
    rcases Recorded.reports_cases (typeCode_reports charSet type) with
      ⟨_, -, hquiet⟩ | ⟨_, herror, -⟩
    · exact Or.inl ⟨hencodable, ⟨code, hcode⟩, hquiet⟩
    · cases hcode.symm.trans herror
  · have hrefused := typeCode_of_not_isEncodable hencodable charSet
    rcases Recorded.reports_cases (typeCode_reports charSet type) with
      ⟨_, hok, -⟩ | ⟨_, herror, hevents⟩
    · cases hrefused.symm.trans hok
    · cases hrefused.symm.trans herror
      exact Or.inr ⟨hencodable, hrefused, hevents⟩

theorem Method.decorate_events (method : Method) (charSet : CharSet) :
    (∃ name, method.decoratedName charSet = .ok name ∧
        (method.decorate charSet).events = [.decorated method.name method.kind charSet name]) ∨
      ∃ type, HostType.firstUnencodable? method.encodedTypes = some type ∧
        method.decoratedName charSet = .error (.unsupportedType type) ∧
        (method.decorate charSet).events = [.rejected type] := by
  rcases Recorded.reports_cases (method.decorate_reports charSet) with
    ⟨name, hok, hevents⟩ | ⟨type, herror, hevents⟩
  · exact Or.inl ⟨name, hok, hevents⟩
  · rcases decoratedName_cases method charSet with ⟨-, name, hname⟩ | ⟨first, hfirst, hrefused⟩
    · cases herror.symm.trans hname
    · cases herror.symm.trans hrefused
      exact Or.inr ⟨type, hfirst, herror, hevents⟩

/-- Finding the code of a type records nothing, or, when the type has none, the rejection of that
type. Decorating a method records one event in either case: the naming when there is a name, and
otherwise the rejection of the type that is the error, which is the first without a code. -/
theorem Method.events_tell_result (method : Method) (type : HostType) (charSet : CharSet) :
    ((type.IsEncodable ∧ (∃ code, (type.typeCode charSet).result = .ok code) ∧
          (type.typeCode charSet).events = []) ∨
        (¬ type.IsEncodable ∧ (type.typeCode charSet).result = .error (.unsupportedType type) ∧
          ∃ event, (type.typeCode charSet).events = [event] ∧ event = .rejected type ∧
            event.IsRejection type)) ∧
      ∃ event, (method.decorate charSet).events = [event] ∧
        ((∃ name, method.decoratedName charSet = .ok name ∧
            event = .decorated method.name method.kind charSet name ∧
            event.IsNaming method charSet name) ∨
          ∃ refused, HostType.firstUnencodable? method.encodedTypes = some refused ∧
            method.decoratedName charSet = .error (.unsupportedType refused) ∧
            event = .rejected refused ∧ event.IsRejection refused) := by
  constructor
  · rcases type.typeCode_events charSet with hcoded | ⟨hencodable, hrefused, hevents⟩
    · exact Or.inl hcoded
    · exact Or.inr ⟨hencodable, hrefused, _, hevents, rfl, Event.isRejection_rejected type⟩
  · rcases method.decorate_events charSet with
      ⟨name, hname, hevents⟩ | ⟨refused, hfirst, hrefused, hevents⟩
    · exact ⟨_, hevents, Or.inl ⟨name, hname, rfl, Event.isNaming_decorated method charSet name⟩⟩
    · exact ⟨_, hevents,
        Or.inr ⟨refused, hfirst, hrefused, rfl, Event.isRejection_rejected refused⟩⟩

/-- Of three types without a code only the first that is no receiver is told of. -/
example : (((Method.virtualMember "f").addParameters
    [.primitive .object, .primitive .boolean, .primitive .nativeInt]).decorate .wide).events =
      [.rejected (.primitive .boolean)] := rfl

end DecoratedNames
