import NetboxRpc.BackendResponse

/-!
# The rebuild oracle

The live path folds each event onto the current row from the event object; `rebuild_projection`
folds the stored records from the initial state by their names. The two agree after any sequence
of recorder calls.
-/

namespace NetboxRpc

/-! ## Reading an event back by its stored name -/

def DomainEvent.WellNamed (e : DomainEvent) : Prop :=
  e.type = .backendEventRecorded →
    EventType.ofName? e.eventName = none ∨
      EventType.ofName? e.eventName = some .backendEventRecorded

theorem DomainEvent.eventName_of_type {e : DomainEvent} (h : e.type ≠ .backendEventRecorded) :
    e.eventName = e.type.eventName := by
  cases e <;> first | rfl | exact absurd rfl h

theorem apply_fromRecord (P : Platform) {e : DomainEvent} (h : e.WellNamed) (data : Entries)
    (s : ProjectionState) :
    s.apply P (fromRecord P e.eventName data) = s.apply P (e.type.fromData P data) := by
  by_cases ht : e.type = .backendEventRecorded
  · rw [ht]
    rcases h ht with hn | hn
    · simp only [fromRecord, hn]
      rfl
    · simp only [fromRecord, hn]
  · rw [fromRecord, DomainEvent.eventName_of_type ht, EventType.ofName?_eventName]

theorem persistableFailureEvent_wellNamed {e : DomainEvent} (h : e.WellNamed) :
    (persistableFailureEvent e).WellNamed := by
  cases e <;> exact h

theorem ofName?_backendEventPrefix (name : String) :
    EventType.ofName? (backendEventPrefix ++ name) = none := by
  rw [EventType.ofName?, List.find?_eq_none]
  intro t _ heq
  have hname : t.eventName = backendEventPrefix ++ name := by simpa using heq
  have htake : t.eventName.toList.take 9 = backendEventPrefix.toList := by
    rw [hname, String.toList_append]
    exact List.take_left' (by decide)
  revert htake
  cases t <;> decide

theorem backendEventPrefix_append_ne (name : String) : backendEventPrefix ++ name ≠ "" := by
  intro h
  have hlist := congrArg String.toList h
  rw [String.toList_append] at hlist
  cases hlist

theorem eventName_backendProgressEvent (P : Platform) (item : Entries) :
    (backendProgressEvent P item).eventName = backendProgressName P item := by
  simp only [backendProgressEvent, DomainEvent.eventName, DomainEvent.orText]
  rw [if_neg]
  exact backendEventPrefix_append_ne _

theorem backendProgressEvent_wellNamed (P : Platform) (item : Entries) :
    (backendProgressEvent P item).WellNamed := by
  intro _
  left
  rw [eventName_backendProgressEvent]
  exact ofName?_backendEventPrefix _

theorem backendTerminalEvent_wellNamed (P : Platform) (response : Entries) (skip : Bool)
    (failure : String × String) (mismatch : String) (finishedAt : Stamp) :
    (backendTerminalEvent P response skip failure mismatch finishedAt).WellNamed := by
  unfold backendTerminalEvent
  dsimp only
  split_ifs <;> exact fun ht => nomatch ht

theorem backendResponseEvents_wellNamed {P : Platform} {ctx : ExecutionContext}
    {response : Entries} {finishedAt : Stamp} {events : List DomainEvent}
    (h : backendResponseEvents P ctx response finishedAt = some events) :
    ∀ e ∈ events, e.WellNamed := by
  simp only [backendResponseEvents, Option.bind_eq_bind, Option.bind_eq_some_iff,
    Option.pure_def, Option.some.injEq] at h
  obtain ⟨failure, _, rfl⟩ := h
  intro e he
  rcases List.mem_append.mp he with he | he
  · split_ifs at he
    · simp only [backendProgressEvents] at he
      split at he
      · obtain ⟨item, _, hitem⟩ := List.mem_filterMap.mp he
        split at hitem
        · exact Option.some.inj hitem ▸ backendProgressEvent_wellNamed P _
        · cases hitem
      · cases he
    · cases he
  · rw [List.mem_singleton.mp he]
    exact backendTerminalEvent_wellNamed _ _ _ _ _ _

/-! ## One append -/

theorem rebuildProjection_append (P : Platform) (events : List EventRecord) (r : EventRecord) :
    rebuildProjection P (events ++ [r]) =
      (rebuildProjection P events).apply P (fromRecord P r.event r.data) := by
  simp [rebuildProjection, rebuild, List.foldl_append]

theorem rebuildProjection_appendAndProject (P : Platform) (ctx : ExecutionContext)
    (copy : ProjectionState) (ledger : Ledger) {e : DomainEvent} (hw : e.WellNamed) :
    rebuildProjection P (appendAndProject P ctx copy ledger e).2.events =
      (rebuildProjection P ledger.events).apply P
        (redactedEvent P ctx (persistableFailureEvent e)) := by
  rw [appendAndProject, rebuildProjection_append]
  exact apply_fromRecord P (persistableFailureEvent_wellNamed hw) _ _

structure Faithful (P : Platform) (copy : ProjectionState) (ledger : Ledger) : Prop where
  copy_eq : copy = ledger.row
  row_pyEq : ledger.row.PyEq (rebuildProjection P ledger.events)

theorem Faithful.appendAndProject {P : Platform} {copy : ProjectionState} {ledger : Ledger}
    (h : Faithful P copy ledger) (ctx : ExecutionContext) {e : DomainEvent} (hw : e.WellNamed) :
    Faithful P (appendAndProject P ctx copy ledger e).1 (appendAndProject P ctx copy ledger e).2 := by
  obtain ⟨rfl, hrow⟩ := h
  refine ⟨rfl, ?_⟩
  rw [rebuildProjection_appendAndProject P ctx _ _ hw]
  exact (ProjectionState.writeOver_self_pyEq _ _).trans (hrow.apply P _)

/-! ## Recorder calls -/

inductive RecordCall
  | executionQueued
  | executionEnqueued (jobId : Json)
  | executionRunning (now : DateTime)
  | dispatchLeaseIssued (nonce keyId : String) (keyVersion streamVersion : ℤ) (audience : String)
      (expiresAt : Stamp) (envelopeVersion : ℤ)
  | executionFailed (message code eventName : String) (now : DateTime)
  | executionNormalized (normalizedParams : Entries) (resolvedCommandHash : String)
  | executionSucceeded (result : Entries) (now : DateTime)
  | executionCancelled (userId : Json) (reason : String) (now : DateTime)
  | executionRequested (requestedById : Json)
  | approvalRequested (snapshotHash : String) (expiresAt : Stamp) (requestedById : Json)
  | executionApproved (approvedById : Json) (snapshotHash reason : String) (now : DateTime)
  | executionRejected (rejectedById : Json) (reason : String) (now : DateTime)
  | executionExpired (reason : String) (now : DateTime)
  | backendResponse (response : Entries) (now : DateTime)

def RecordCall.events (P : Platform) (ctx : ExecutionContext) : RecordCall → List DomainEvent
  | executionQueued => [.executionQueued ctx.requestedById]
  | executionEnqueued jobId => [.jobEnqueued jobId]
  | executionRunning now => [.executionStarted (.time now)]
  | dispatchLeaseIssued nonce keyId keyVersion streamVersion audience expiresAt envelopeVersion =>
    [.dispatchLeaseIssued nonce keyId keyVersion streamVersion audience expiresAt envelopeVersion]
  | executionFailed message code eventName now =>
    if eventName = EventType.executionEnqueueFailed.eventName then
      [.executionEnqueueFailed message code (.time now)]
    else [.executionFailed message code (.time now) []]
  | executionNormalized params hash => [.parametersNormalized params hash]
  | executionSucceeded result now => [.executionSucceeded result (.time now)]
  | executionCancelled userId reason now => [.executionCancelled (.time now) userId reason]
  | executionRequested requestedById =>
    [.executionRequested (if requestedById = .null then ctx.requestedById else requestedById)]
  | approvalRequested hash expiresAt requestedById =>
    [.approvalRequested hash expiresAt requestedById]
  | executionApproved approvedById hash reason now =>
    [.executionApproved approvedById hash (.time now) reason]
  | executionRejected rejectedById reason now =>
    [.executionRejected rejectedById (.time now) reason]
  | executionExpired reason now => [.executionExpired (.time now) reason]
  | backendResponse response now => (backendResponseEvents P ctx response (.time now)).getD []

def appendAll (P : Platform) (ctx : ExecutionContext) (s : ProjectionState × Ledger)
    (events : List DomainEvent) : ProjectionState × Ledger :=
  events.foldl (fun s e => appendAndProject P ctx s.1 s.2 e) s

def RecordCall.run (P : Platform) (ctx : ExecutionContext) (s : ProjectionState × Ledger)
    (call : RecordCall) : ProjectionState × Ledger :=
  appendAll P ctx s (call.events P ctx)

def runCalls (P : Platform) (ctx : ExecutionContext) (calls : List RecordCall)
    (s : ProjectionState × Ledger) : ProjectionState × Ledger :=
  calls.foldl (RecordCall.run P ctx) s

def freshLedger : Ledger := ⟨.initial, []⟩

theorem RecordCall.events_wellNamed (P : Platform) (ctx : ExecutionContext) (call : RecordCall) :
    ∀ e ∈ call.events P ctx, e.WellNamed := by
  cases call with
  | backendResponse response now =>
    simp only [RecordCall.events]
    cases h : backendResponseEvents P ctx response (.time now) with
    | none => simp
    | some events => exact backendResponseEvents_wellNamed h
  | executionFailed message code eventName now =>
    simp only [RecordCall.events]
    split_ifs <;> exact fun e he => List.mem_singleton.mp he ▸ fun ht => nomatch ht
  | _ => exact fun e he => List.mem_singleton.mp he ▸ fun ht => nomatch ht

theorem Faithful.appendAll {P : Platform} (ctx : ExecutionContext) (events : List DomainEvent)
    (hw : ∀ e ∈ events, e.WellNamed) {s : ProjectionState × Ledger} (h : Faithful P s.1 s.2) :
    Faithful P (appendAll P ctx s events).1 (appendAll P ctx s events).2 := by
  induction events generalizing s with
  | nil => exact h
  | cons e events ih =>
    exact ih (fun d hd => hw d (List.mem_cons_of_mem e hd))
      (h.appendAndProject ctx (hw e List.mem_cons_self))

theorem Faithful.runCalls {P : Platform} (ctx : ExecutionContext) (calls : List RecordCall)
    {s : ProjectionState × Ledger} (h : Faithful P s.1 s.2) :
    Faithful P (runCalls P ctx calls s).1 (runCalls P ctx calls s).2 := by
  induction calls generalizing s with
  | nil => exact h
  | cons call calls ih => exact ih (h.appendAll ctx _ (call.events_wellNamed P ctx))

theorem faithful_fresh (P : Platform) : Faithful P .initial freshLedger := ⟨rfl, .refl _⟩

/-- After any recorder calls the stored row equals the rebuilt projection. -/
theorem row_pyEq_rebuildProjection (P : Platform) (ctx : ExecutionContext)
    (calls : List RecordCall) :
    (runCalls P ctx calls (.initial, freshLedger)).2.row.PyEq
      (rebuildProjection P (runCalls P ctx calls (.initial, freshLedger)).2.events) :=
  ((faithful_fresh P).runCalls ctx calls).row_pyEq

end NetboxRpc
