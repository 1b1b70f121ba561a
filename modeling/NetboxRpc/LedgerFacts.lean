import NetboxRpc.RebuildOracle

/-!
# What an append does

The status of the writer's copy and of the stored row, the approver, the names and the sequence
numbers after an append, none of which depends on how the data was redacted.
-/

namespace NetboxRpc

def EventType.status : EventType → Option ExecutionStatus
  | .executionRequested => some .requested
  | .approvalRequested => some .pendingApproval
  | .executionApproved => some .approved
  | .executionRejected => some .rejected
  | .executionExpired => some .expired
  | .executionQueued => some .queued
  | .executionStarted => some .running
  | .executionSucceeded => some .succeeded
  | .executionFailed => some .failed
  | .executionEnqueueFailed => some .failed
  | .executionCancelled => some .cancelled
  | .parametersNormalized | .jobEnqueued | .dispatchLeaseIssued | .backendEventRecorded => none

namespace EventRecord

def type? (r : EventRecord) : Option EventType := EventType.ofName? r.event

def status? (r : EventRecord) : Option ExecutionStatus := r.type?.bind EventType.status

def isStatusChanging (r : EventRecord) : Bool := r.status?.isSome

end EventRecord

def ExecutionStatus.isTerminal : ExecutionStatus → Bool
  | .succeeded | .failed | .cancelled | .rejected | .expired => true
  | _ => false

def EventRecord.isTerminal (r : EventRecord) : Bool := r.status?.any ExecutionStatus.isTerminal

theorem EventRecord.isStatusChanging_of_isTerminal {r : EventRecord} (h : r.isTerminal = true) :
    r.isStatusChanging = true := by
  unfold isTerminal at h
  unfold isStatusChanging
  cases hs : r.status? with
  | none => rw [hs] at h; cases h
  | some s => rfl

theorem DomainEvent.wellNamed_of_status {e : DomainEvent} {t : ExecutionStatus}
    (he : e.type.status = some t) : e.WellNamed := by
  intro hb
  rw [hb] at he
  cases he

@[simp] theorem type_persistableFailureEvent (e : DomainEvent) :
    (persistableFailureEvent e).type = e.type := by
  cases e <;> rfl

@[simp] theorem eventName_persistableFailureEvent (e : DomainEvent) :
    (persistableFailureEvent e).eventName = e.eventName := by
  cases e <;> rfl

@[simp] theorem type_redactedEvent (P : Platform) (ctx : ExecutionContext) (e : DomainEvent) :
    (redactedEvent P ctx e).type = e.type := by
  unfold redactedEvent
  cases e.type <;> rfl

theorem ProjectionState.status_apply (P : Platform) (s : ProjectionState) (e : DomainEvent) :
    (s.apply P e).status = e.type.status.getD s.status := by
  cases e <;> rfl

theorem ProjectionState.approvedById_apply (P : Platform) (s : ProjectionState) {e : DomainEvent}
    (h : e.type ≠ .executionApproved) : (s.apply P e).approvedById = s.approvedById := by
  cases e <;> first | rfl | exact absurd rfl h

/-! ## One append -/

section

variable (P : Platform) (ctx : ExecutionContext) (copy : ProjectionState) (ledger : Ledger)
  (e : DomainEvent)

theorem events_appendAndProject :
    (appendAndProject P ctx copy ledger e).2.events =
      ledger.events ++ [eventRecord P ctx ledger.events (persistableFailureEvent e)] := rfl

theorem eventRecord_event (events : List EventRecord) :
    (eventRecord P ctx events e).event = e.eventName := rfl

theorem eventRecord_sequence (events : List EventRecord) :
    (eventRecord P ctx events e).sequence = nextEventSequence events := rfl

theorem ProjectionState.status_writeOver (new target : ProjectionState) :
    (copy.writeOver new target).status =
      if copy.status = new.status then target.status else new.status := by
  have hiff : (copy.get .status).PyEq (new.get .status) ↔ copy.status = new.status := by
    constructor
    · intro h
      exact ExecutionStatus.value_injective (Json.pyEq_str h)
    · intro h
      rw [get, get, h]
      exact .refl _
  simp only [writeOver, hiff]

theorem status_appendAndProject_copy :
    (appendAndProject P ctx copy ledger e).1.status = e.type.status.getD copy.status := by
  simp only [appendAndProject, ProjectionState.status_writeOver, ProjectionState.status_apply,
    type_redactedEvent, type_persistableFailureEvent]
  split_ifs with h
  · exact h
  · rfl

theorem status_appendAndProject_row :
    (appendAndProject P ctx copy ledger e).2.row.status =
      if copy.status = e.type.status.getD copy.status then ledger.row.status
      else e.type.status.getD copy.status := by
  simp only [appendAndProject, ProjectionState.status_writeOver, ProjectionState.status_apply,
    type_redactedEvent, type_persistableFailureEvent]

theorem approvedById_appendAndProject_copy (h : e.type ≠ .executionApproved) :
    (appendAndProject P ctx copy ledger e).1.approvedById = copy.approvedById := by
  have happly := copy.approvedById_apply P (e := redactedEvent P ctx (persistableFailureEvent e))
    (by simpa using h)
  simp only [appendAndProject, ProjectionState.writeOver, happly, ite_self]

theorem approvedById_appendAndProject_row (h : e.type ≠ .executionApproved) :
    (appendAndProject P ctx copy ledger e).2.row.approvedById = ledger.row.approvedById := by
  have happly := copy.approvedById_apply P (e := redactedEvent P ctx (persistableFailureEvent e))
    (by simpa using h)
  have hsame : (copy.get .approvedById).PyEq
      ((copy.apply P (redactedEvent P ctx (persistableFailureEvent e))).get .approvedById) := by
    rw [ProjectionState.get, ProjectionState.get, happly]
    exact .refl _
  simp only [appendAndProject, ProjectionState.writeOver, if_pos hsame]

end

/-! ## Several appends in one transaction -/

@[simp] theorem appendAll_nil (P : Platform) (ctx : ExecutionContext)
    (s : ProjectionState × Ledger) : appendAll P ctx s [] = s := rfl

@[simp] theorem appendAll_cons (P : Platform) (ctx : ExecutionContext)
    (s : ProjectionState × Ledger) (e : DomainEvent) (es : List DomainEvent) :
    appendAll P ctx s (e :: es) = appendAll P ctx (appendAndProject P ctx s.1 s.2 e) es := rfl

theorem appendAll_append (P : Platform) (ctx : ExecutionContext)
    (s : ProjectionState × Ledger) (es fs : List DomainEvent) :
    appendAll P ctx s (es ++ fs) = appendAll P ctx (appendAll P ctx s es) fs := by
  simp [appendAll, List.foldl_append]

/-- The records that a transaction adds, by the names of its events. -/
theorem exists_events_appendAll (P : Platform) (ctx : ExecutionContext)
    (s : ProjectionState × Ledger) (es : List DomainEvent) :
    ∃ added, (appendAll P ctx s es).2.events = s.2.events ++ added ∧
      added.map EventRecord.event = es.map DomainEvent.eventName := by
  induction es generalizing s with
  | nil => exact ⟨[], by simp, rfl⟩
  | cons e es ih =>
    obtain ⟨added, hadded, hnames⟩ := ih (appendAndProject P ctx s.1 s.2 e)
    rw [appendAll_cons, hadded, events_appendAndProject]
    refine ⟨eventRecord P ctx s.2.events (persistableFailureEvent e) :: added, by simp, ?_⟩
    rw [List.map_cons, List.map_cons, hnames, eventRecord_event, eventName_persistableFailureEvent]

/-- The events that set no status leave every status alone. -/
theorem status_appendAll_of_silent (P : Platform) (ctx : ExecutionContext)
    {s : ProjectionState × Ledger} {es : List DomainEvent} (hes : ∀ e ∈ es, e.type.status = none) :
    (appendAll P ctx s es).1.status = s.1.status ∧
      (appendAll P ctx s es).2.row.status = s.2.row.status := by
  induction es generalizing s with
  | nil => exact ⟨rfl, rfl⟩
  | cons e es ih =>
    have he := hes e List.mem_cons_self
    have hrest := ih (s := appendAndProject P ctx s.1 s.2 e)
      (fun d hd => hes d (List.mem_cons_of_mem e hd))
    rw [appendAll_cons]
    rw [status_appendAndProject_copy, status_appendAndProject_row, he] at hrest
    simpa using hrest

theorem approvedById_appendAll (P : Platform) (ctx : ExecutionContext)
    {s : ProjectionState × Ledger} {es : List DomainEvent}
    (hes : ∀ e ∈ es, e.type ≠ .executionApproved) :
    (appendAll P ctx s es).1.approvedById = s.1.approvedById ∧
      (appendAll P ctx s es).2.row.approvedById = s.2.row.approvedById := by
  induction es generalizing s with
  | nil => exact ⟨rfl, rfl⟩
  | cons e es ih =>
    have he := hes e List.mem_cons_self
    have hrest := ih (s := appendAndProject P ctx s.1 s.2 e)
      (fun d hd => hes d (List.mem_cons_of_mem e hd))
    rw [approvedById_appendAndProject_copy P ctx s.1 s.2 e he,
      approvedById_appendAndProject_row P ctx s.1 s.2 e he] at hrest
    exact hrest

/-- The events that end the execution or leave its status alone. -/
def DomainEvent.Ends (e : DomainEvent) : Prop := ∀ s, e.type.status = some s → s.isTerminal = true

theorem DomainEvent.Ends.of_silent {e : DomainEvent} (h : e.type.status = none) : e.Ends := by
  intro s hs
  rw [h] at hs
  cases hs

theorem status_appendAll_of_ends (P : Platform) (ctx : ExecutionContext)
    {s : ProjectionState × Ledger} {es : List DomainEvent} (hes : ∀ e ∈ es, e.Ends) :
    ((appendAll P ctx s es).1.status = s.1.status ∨
        (appendAll P ctx s es).1.status.isTerminal = true) ∧
      ((appendAll P ctx s es).2.row.status = s.2.row.status ∨
        (appendAll P ctx s es).2.row.status.isTerminal = true) := by
  induction es generalizing s with
  | nil => exact ⟨.inl rfl, .inl rfl⟩
  | cons e es ih =>
    have he := hes e List.mem_cons_self
    obtain ⟨hcopy, hrow⟩ := ih (s := appendAndProject P ctx s.1 s.2 e)
      (fun d hd => hes d (List.mem_cons_of_mem e hd))
    rw [status_appendAndProject_copy] at hcopy
    rw [status_appendAndProject_row] at hrow
    rw [appendAll_cons]
    cases hs : e.type.status with
    | none =>
      rw [hs] at hcopy hrow
      simpa using And.intro hcopy hrow
    | some t =>
      have ht := he t hs
      rw [hs, Option.getD_some] at hcopy hrow
      refine ⟨.inr (hcopy.elim (fun h => h ▸ ht) id), ?_⟩
      split_ifs at hrow
      · exact hrow
      · exact .inr (hrow.elim (fun h => h ▸ ht) id)

/-! ## Records by type -/

theorem type?_eq_some_iff {e : DomainEvent} (hw : e.WellNamed) {t : EventType}
    (ht : t ≠ .backendEventRecorded) : EventType.ofName? e.eventName = some t ↔ e.type = t := by
  by_cases hb : e.type = .backendEventRecorded
  · constructor
    · intro h
      rcases hw hb with hn | hn
      · rw [hn] at h; cases h
      · rw [hn] at h; exact absurd (Option.some.inj h).symm ht
    · intro h
      exact absurd (h.symm.trans hb) ht
  · rw [DomainEvent.eventName_of_type hb, EventType.ofName?_eventName, Option.some.injEq]

theorem status?_eventName {e : DomainEvent} (hw : e.WellNamed) :
    (EventType.ofName? e.eventName).bind EventType.status = e.type.status := by
  by_cases hb : e.type = .backendEventRecorded
  · rw [hb]
    rcases hw hb with hn | hn <;> rw [hn] <;> rfl
  · rw [DomainEvent.eventName_of_type hb, EventType.ofName?_eventName]
    rfl

def countOf (t : EventType) (events : List EventRecord) : ℕ :=
  events.countP (fun r => decide (r.type? = some t))

theorem countOf_appendAll {P : Platform} {ctx : ExecutionContext} {s : ProjectionState × Ledger}
    {es : List DomainEvent} (hw : ∀ e ∈ es, e.WellNamed) {t : EventType}
    (ht : t ≠ .backendEventRecorded) :
    countOf t (appendAll P ctx s es).2.events =
      countOf t s.2.events + es.countP (fun e => decide (e.type = t)) := by
  obtain ⟨added, hevents, hnames⟩ := exists_events_appendAll P ctx s es
  have hadded : countOf t added =
      (added.map EventRecord.event).countP (fun n => decide (EventType.ofName? n = some t)) := by
    rw [List.countP_map]
    rfl
  have hsplit : countOf t (s.2.events ++ added) = countOf t s.2.events + countOf t added :=
    List.countP_append
  rw [hevents, hsplit, hadded, hnames, List.countP_map]
  congr 1
  refine List.countP_congr (fun e he => ?_)
  simpa using type?_eq_some_iff (hw e he) ht

theorem countP_type_eq_zero {es : List DomainEvent} {t : EventType} (h : ∀ e ∈ es, e.type ≠ t) :
    es.countP (fun e => decide (e.type = t)) = 0 := by
  rw [List.countP_eq_zero]
  simpa using h

/-! ## The events of a response -/

theorem type_backendProgressEvents {P : Platform} {response : Entries} {e : DomainEvent}
    (he : e ∈ backendProgressEvents P response) : e.type = .backendEventRecorded := by
  unfold backendProgressEvents at he
  split at he
  · obtain ⟨item, _, hitem⟩ := List.mem_filterMap.mp he
    split at hitem
    · exact Option.some.inj hitem ▸ rfl
    · cases hitem
  · cases he

/-- A response ends in a success, which needs a truthy `ok`, or in a failure. -/
inductive IsTerminalOf (response : Entries) (finishedAt : Stamp) : DomainEvent → Prop
  | succeeded (result : Entries) (hok : (valueOf response "ok").truthy = true) :
      IsTerminalOf response finishedAt (.executionSucceeded result finishedAt)
  | failed (message code : String) (result : Entries) :
      IsTerminalOf response finishedAt (.executionFailed message code finishedAt result)

theorem isTerminalOf_backendTerminalEvent (P : Platform) (response : Entries) (skip : Bool)
    (failure : String × String) (mismatch : String) (finishedAt : Stamp) :
    IsTerminalOf response finishedAt
      (backendTerminalEvent P response skip failure mismatch finishedAt) := by
  unfold backendTerminalEvent
  dsimp only
  by_cases hok : (valueOf response "ok").truthy = true ∧ mismatch = ""
  · rw [if_pos hok]
    exact .succeeded _ hok.1
  · rw [if_neg hok]
    exact .failed _ _ _

theorem IsTerminalOf.status {response : Entries} {finishedAt : Stamp} {e : DomainEvent}
    (h : IsTerminalOf response finishedAt e) :
    ∃ t, e.type.status = some t ∧ t.isTerminal = true := by
  cases h <;> exact ⟨_, rfl, rfl⟩

/-- A response appends progress events and then one terminal event. -/
theorem exists_of_backendResponseEvents {P : Platform} {ctx : ExecutionContext}
    {response : Entries} {finishedAt : Stamp} {events : List DomainEvent}
    (h : backendResponseEvents P ctx response finishedAt = some events) :
    ∃ progress last, events = progress ++ [last] ∧
      (∀ e ∈ progress, e.type = .backendEventRecorded) ∧
      IsTerminalOf response finishedAt last := by
  simp only [backendResponseEvents, Option.bind_eq_bind, Option.bind_eq_some_iff,
    Option.pure_def, Option.some.injEq] at h
  obtain ⟨failure, _, rfl⟩ := h
  refine ⟨_, _, rfl, fun e he => ?_, isTerminalOf_backendTerminalEvent _ _ _ _ _ _⟩
  split_ifs at he
  · exact type_backendProgressEvents he
  · cases he

/-! ## Sequence numbers -/

def Numbered (events : List EventRecord) : Prop :=
  events.map EventRecord.sequence = List.range' 1 events.length

theorem foldl_max_range' (n k : ℕ) (h : k ≤ 1) : (List.range' 1 n).foldl max k = max k n := by
  induction n with
  | zero => simp
  | succ n ih =>
    rw [List.range'_concat, List.foldl_append, ih]
    simp only [List.foldl_cons, List.foldl_nil]
    omega

theorem Numbered.nextEventSequence {events : List EventRecord} (h : Numbered events) :
    nextEventSequence events = events.length + 1 := by
  unfold NetboxRpc.nextEventSequence
  rw [h, foldl_max_range' _ _ (Nat.zero_le 1)]
  omega

theorem Numbered.appendAndProject {ledger : Ledger} (h : Numbered ledger.events) (P : Platform)
    (ctx : ExecutionContext) (copy : ProjectionState) (e : DomainEvent) :
    Numbered (appendAndProject P ctx copy ledger e).2.events := by
  unfold Numbered
  rw [events_appendAndProject, List.map_append, h, List.length_append, List.length_singleton,
    List.range'_concat, List.map_singleton, eventRecord_sequence, h.nextEventSequence]
  congr 2
  omega

theorem Numbered.appendAll {P : Platform} {ctx : ExecutionContext} {s : ProjectionState × Ledger}
    (h : Numbered s.2.events) (es : List DomainEvent) :
    Numbered (appendAll P ctx s es).2.events := by
  induction es generalizing s with
  | nil => exact h
  | cons e es ih => exact ih (h.appendAndProject P ctx s.1 e)

end NetboxRpc
