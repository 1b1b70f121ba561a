import NetboxRpc.LedgerFacts

/-!
# Recording that fails

A recorder appends its events in one `transaction.atomic()` block through an execution object that
it changes on the way. When an insert or a save raises, the block rolls the database back; the
object keeps what was set. The insert of an event comes before the object is changed and the save
after it, so a call leaves no trace exactly when it was an insert that failed.
-/

namespace NetboxRpc

inductive Operation
  | insert
  | save
deriving DecidableEq, Repr

structure Fault where
  index : ℕ
  operation : Operation
deriving DecidableEq, Repr

def Fault.later : Fault → Option Fault
  | ⟨0, _⟩ => none
  | ⟨n + 1, operation⟩ => some ⟨n, operation⟩

def Field.all : List Field :=
  [.status, .startedAt, .finishedAt, .errorCode, .errorMessage, .result, .normalizedParams,
    .resolvedCommandHash, .jobId, .approvedById]

def updateFields (copy new : ProjectionState) : List Field :=
  Field.all.filter fun f => ¬(copy.get f).PyEq (new.get f)

def projectedState (P : Platform) (ctx : ExecutionContext) (copy : ProjectionState)
    (e : DomainEvent) : ProjectionState :=
  copy.apply P (redactedEvent P ctx (persistableFailureEvent e))

section

variable (P : Platform) (ctx : ExecutionContext)

/-- The appends of one block: the object they leave, and the ledger unless one of them raised. -/
def appendUntil :
    ProjectionState × Ledger → Option Fault → List DomainEvent → ProjectionState × Option Ledger
  | s, _, [] => (s.1, some s.2)
  | s, fault, e :: es =>
    if fault = some ⟨0, .insert⟩ then (s.1, none)
    else
      let next := appendAndProject P ctx s.1 s.2 e
      -- a projection that changes no field is not saved
      if fault = some ⟨0, .save⟩ ∧ updateFields s.1 (projectedState P ctx s.1 e) ≠ [] then
        (next.1, none)
      else appendUntil next (fault.bind Fault.later) es

structure Recording where
  copy : ProjectionState
  ledger : Ledger
  raised : Bool

def RecordCall.attempt (copy : ProjectionState) (ledger : Ledger) (fault : Option Fault)
    (call : RecordCall) : Recording :=
  match appendUntil P ctx (copy, ledger) fault (call.events P ctx) with
  | (copy, some ledger) => ⟨copy, ledger, false⟩
  | (copy, none) => ⟨copy, ledger, true⟩

end

def ensureNotTerminal (copy : ProjectionState) : Bool := !copy.status.isTerminal

/-- The ledger with the stored row and the object are what they were, so that `fail` is accepted
if it was. -/
def Recording.LeavesNoTrace (r : Recording) (copy : ProjectionState) (ledger : Ledger) : Prop :=
  r.ledger = ledger ∧ r.copy = copy ∧
    (ensureNotTerminal copy = true → ensureNotTerminal r.copy = true)

/-! ## The object after a write -/

theorem Field.mem_all (f : Field) : f ∈ Field.all := by
  cases f <;> simp [Field.all]

theorem updateFields_eq_nil_iff {copy new : ProjectionState} :
    updateFields copy new = [] ↔ copy.PyEq new := by
  rw [updateFields, List.filter_eq_nil_iff]
  constructor
  · intro h f
    simpa using h f f.mem_all
  · intro h f _
    simpa using h f

theorem ProjectionState.writeOver_of_pyEq {copy new : ProjectionState} (h : copy.PyEq new) :
    copy.writeOver new copy = copy := by
  simp only [writeOver, h _, if_true]

theorem ProjectionState.writeOver_ne {copy new : ProjectionState} (h : ¬copy.PyEq new) :
    copy.writeOver new copy ≠ copy := by
  intro hsame
  have hnew := copy.writeOver_self_pyEq new
  rw [hsame] at hnew
  exact h hnew

theorem projectedState_of_progress (P : Platform) (ctx : ExecutionContext)
    (copy : ProjectionState) {e : DomainEvent} (he : e.type = .backendEventRecorded) :
    projectedState P ctx copy e = copy := by
  have htype : (redactedEvent P ctx (persistableFailureEvent e)).type = .backendEventRecorded := by
    rw [type_redactedEvent, type_persistableFailureEvent, he]
  unfold projectedState
  cases hevent : redactedEvent P ctx (persistableFailureEvent e) with
  | backendEventRecorded => rfl
  | _ =>
    rw [hevent] at htype
    cases htype

/-! ## Appends of one block -/

section

variable {P : Platform} {ctx : ExecutionContext}

theorem copy_appendAndProject (s : ProjectionState × Ledger) (e : DomainEvent) :
    (appendAndProject P ctx s.1 s.2 e).1 = s.1.writeOver (projectedState P ctx s.1 e) s.1 := rfl

theorem copy_appendAndProject_of_progress (s : ProjectionState × Ledger) {e : DomainEvent}
    (he : e.type = .backendEventRecorded) : (appendAndProject P ctx s.1 s.2 e).1 = s.1 := by
  rw [copy_appendAndProject, projectedState_of_progress P ctx s.1 he]
  exact ProjectionState.writeOver_of_pyEq (.refl _)

theorem appendUntil_none (s : ProjectionState × Ledger) (es : List DomainEvent) :
    appendUntil P ctx s none es = ((appendAll P ctx s es).1, some (appendAll P ctx s es).2) := by
  induction es generalizing s with
  | nil => rfl
  | cons e es ih =>
    rw [appendUntil, if_neg (by simp), if_neg (by simp), appendAll_cons]
    exact ih _

/-- A fault that is not met changes nothing. -/
theorem eq_appendAll_of_appendUntil {s : ProjectionState × Ledger} {fault : Option Fault}
    {es : List DomainEvent} {copy : ProjectionState} {ledger : Ledger}
    (h : appendUntil P ctx s fault es = (copy, some ledger)) :
    appendAll P ctx s es = (copy, ledger) := by
  induction es generalizing s fault with
  | nil =>
    rw [appendUntil] at h
    obtain ⟨rfl, hledger⟩ := Prod.mk.inj h
    obtain rfl := Option.some.inj hledger
    rfl
  | cons e es ih =>
    rw [appendUntil] at h
    split_ifs at h
    · cases congrArg Prod.snd h
    · cases congrArg Prod.snd h
    · exact ih h

/-- A block of progress events and one more event that raises: the object is as before an insert
that failed, and as after the whole block when a save failed. -/
theorem appendUntil_raised {progress : List DomainEvent} {last : DomainEvent}
    (hprogress : ∀ e ∈ progress, e.type = .backendEventRecorded) {s : ProjectionState × Ledger}
    {fault : Fault} {copy : ProjectionState}
    (h : appendUntil P ctx s (some fault) (progress ++ [last]) = (copy, none)) :
    fault.operation = .insert ∧ copy = s.1 ∨
      fault.operation = .save ∧ copy = (appendAll P ctx s (progress ++ [last])).1 ∧ copy ≠ s.1 := by
  induction progress generalizing s fault with
  | nil =>
    rw [List.nil_append, appendUntil] at h
    split_ifs at h with hinsert hsave
    · obtain rfl := congrArg Prod.fst h
      obtain rfl := Option.some.inj hinsert
      exact .inl ⟨rfl, rfl⟩
    · obtain rfl := congrArg Prod.fst h
      obtain ⟨hfault, hfields⟩ := hsave
      obtain rfl := Option.some.inj hfault
      rw [Ne, updateFields_eq_nil_iff] at hfields
      exact .inr ⟨rfl, rfl, ProjectionState.writeOver_ne hfields⟩
    · cases congrArg Prod.snd h
  | cons e progress ih =>
    have he := hprogress e List.mem_cons_self
    rw [List.cons_append, appendUntil] at h
    split_ifs at h with hinsert hsave
    · obtain rfl := congrArg Prod.fst h
      obtain rfl := Option.some.inj hinsert
      exact .inl ⟨rfl, rfl⟩
    · refine absurd ?_ hsave.2
      rw [projectedState_of_progress P ctx s.1 he, updateFields_eq_nil_iff]
      exact .refl _
    · obtain ⟨index, operation⟩ := fault
      cases index with
      | zero =>
        rw [show (some (⟨0, operation⟩ : Fault)).bind Fault.later = none from rfl,
          appendUntil_none] at h
        cases congrArg Prod.snd h
      | succ n =>
        have hrest : appendUntil P ctx (appendAndProject P ctx s.1 s.2 e) (some ⟨n, operation⟩)
            (progress ++ [last]) = (copy, none) := h
        have hlater := ih (fun d hd => hprogress d (List.mem_cons_of_mem e hd)) hrest
        rw [copy_appendAndProject_of_progress s he] at hlater
        exact hlater

/-- Every recorder appends progress events before at most one other event. -/
theorem RecordCall.events_cases (P : Platform) (ctx : ExecutionContext) (call : RecordCall) :
    call.events P ctx = [] ∨ ∃ progress last, call.events P ctx = progress ++ [last] ∧
      ∀ e ∈ progress, e.type = .backendEventRecorded := by
  have hone : ∀ e, ∃ progress last, [e] = progress ++ [last] ∧
      ∀ d ∈ progress, DomainEvent.type d = .backendEventRecorded :=
    fun e => ⟨[], e, rfl, fun _ hd => by cases hd⟩
  cases call with
  | backendResponse response now =>
    cases h : backendResponseEvents P ctx response (.time now) with
    | none => exact .inl (by rw [RecordCall.events, h]; rfl)
    | some events =>
      obtain ⟨progress, last, hsplit, hprogress, -⟩ := exists_of_backendResponseEvents h
      exact .inr ⟨progress, last, by rw [RecordCall.events, h]; exact hsplit, hprogress⟩
  | executionFailed message code eventName now =>
    right
    rw [RecordCall.events]
    split_ifs
    · exact hone _
    · exact hone _
  | _ => exact .inr (hone _)

inductive RecordCall.Ends (P : Platform) (ctx : ExecutionContext) (call : RecordCall)
    (copy : ProjectionState) (ledger : Ledger) (fault : Fault) (r : Recording) : Prop
  | returns (hraised : r.raised = false)
      (hall : appendAll P ctx (copy, ledger) (call.events P ctx) = (r.copy, r.ledger))
  | insertRaises (hraised : r.raised = true) (hledger : r.ledger = ledger)
      (hfault : fault.operation = .insert) (hcopy : r.copy = copy)
  | saveRaises (hraised : r.raised = true) (hledger : r.ledger = ledger)
      (hfault : fault.operation = .save)
      (hcopy : r.copy = (appendAll P ctx (copy, ledger) (call.events P ctx)).1)
      (hchanged : r.copy ≠ copy)

theorem RecordCall.ends_attempt (call : RecordCall) (copy : ProjectionState) (ledger : Ledger)
    (fault : Fault) :
    call.Ends P ctx copy ledger fault (call.attempt P ctx copy ledger (some fault)) := by
  unfold RecordCall.attempt
  rcases hrun : appendUntil P ctx (copy, ledger) (some fault) (call.events P ctx) with
    ⟨copy', _ | ledger'⟩
  · rcases call.events_cases P ctx with hnone | ⟨progress, last, hsplit, hprogress⟩
    · rw [hnone, appendUntil] at hrun
      cases congrArg Prod.snd hrun
    · rw [hsplit] at hrun
      rcases appendUntil_raised hprogress hrun with ⟨hfault, hsame⟩ | ⟨hfault, hcopy, hchanged⟩
      · exact .insertRaises rfl rfl hfault hsame
      · exact .saveRaises rfl rfl hfault (hsplit ▸ hcopy) hchanged
  · exact .returns rfl (eq_appendAll_of_appendUntil hrun)

end

/-- A recorder call that the database made raise leaves no trace exactly when an insert failed. -/
theorem failed_recording_iff (P : Platform) (ctx : ExecutionContext) (call : RecordCall)
    (copy : ProjectionState) (ledger : Ledger) (fault : Fault)
    (hraised : (call.attempt P ctx copy ledger (some fault)).raised = true) :
    (call.attempt P ctx copy ledger (some fault)).LeavesNoTrace copy ledger ↔
      fault.operation = .insert := by
  cases call.ends_attempt copy ledger fault with
  | returns hreturned =>
    rw [hreturned] at hraised
    cases hraised
  | insertRaises _ hledger hfault hcopy =>
    refine iff_of_true ⟨hledger, hcopy, fun hopen => ?_⟩ hfault
    rw [hcopy]
    exact hopen
  | saveRaises _ _ hfault _ hchanged =>
    refine iff_of_false (fun htrace => hchanged htrace.2.1) ?_
    rw [hfault]
    decide

def runningState : ProjectionState := { ProjectionState.initial with status := .running }

def plainContext : ExecutionContext := ⟨"", .null, .null, .null⟩

theorem failed_recording_iff_insert :
    ((RecordCall.executionRunning 0).attempt default plainContext .initial freshLedger
        (some ⟨0, .insert⟩)).raised = true ∧
      (((RecordCall.executionRunning 0).attempt default plainContext .initial freshLedger
        (some ⟨0, .insert⟩)).LeavesNoTrace .initial freshLedger ↔ Operation.insert = .insert) :=
  ⟨rfl, failed_recording_iff default plainContext (.executionRunning 0) .initial freshLedger
    ⟨0, .insert⟩ rfl⟩

/-- The save of a terminal projection fails: the ledger is as before, the object is terminal, and
`fail` is refused. -/
theorem failed_save_refuses_fail :
    ((RecordCall.backendResponse [("ok", .bool true)] 0).attempt default plainContext runningState
        ⟨runningState, []⟩ (some ⟨0, .save⟩)).raised = true ∧
      ((RecordCall.backendResponse [("ok", .bool true)] 0).attempt default plainContext
        runningState ⟨runningState, []⟩ (some ⟨0, .save⟩)).ledger = ⟨runningState, []⟩ ∧
      ensureNotTerminal runningState = true ∧
      ensureNotTerminal ((RecordCall.backendResponse [("ok", .bool true)] 0).attempt default
        plainContext runningState ⟨runningState, []⟩ (some ⟨0, .save⟩)).copy = false := by
  decide +kernel

end NetboxRpc
