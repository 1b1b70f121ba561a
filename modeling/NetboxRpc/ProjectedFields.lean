import NetboxRpc.RedactedData
import NetboxRpc.LedgerFacts

/-!
# Fields of a projection write

A projection write skips the fields in which the writer's own copy already holds the new value.
It keeps the row in step with the stream as long as the row holds that value too.
-/

namespace NetboxRpc

/-! ## Fields of one append -/

def EventType.fields : EventType → List Field
  | .executionRequested | .approvalRequested | .executionQueued => [.status]
  | .executionApproved => [.status, .approvedById]
  | .executionStarted => [.status, .startedAt]
  | .parametersNormalized => [.normalizedParams, .resolvedCommandHash]
  | .jobEnqueued => [.jobId]
  | .dispatchLeaseIssued | .backendEventRecorded => []
  | .executionRejected | .executionExpired | .executionCancelled | .executionEnqueueFailed =>
    [.status, .errorCode, .errorMessage, .finishedAt]
  | .executionSucceeded | .executionFailed =>
    [.status, .result, .errorCode, .errorMessage, .finishedAt]

theorem DomainEvent.sets_of_not_mem (P : Platform) {e : DomainEvent} {f : Field}
    (h : f ∉ e.type.fields) : e.sets P f = none := by
  cases e <;> cases f <;> first | rfl | simp [DomainEvent.type, EventType.fields] at h

section

variable {P : Platform} {ctx : ExecutionContext} {copy : ProjectionState} {ledger : Ledger}
  {e : DomainEvent} {f : Field}

def projectedEvent (P : Platform) (ctx : ExecutionContext) (e : DomainEvent) : DomainEvent :=
  redactedEvent P ctx (persistableFailureEvent e)

@[simp] theorem type_projectedEvent : (projectedEvent P ctx e).type = e.type := by
  simp [projectedEvent]

theorem get_row_appendAndProject (f : Field) :
    (appendAndProject P ctx copy ledger e).2.row.get f =
      if (copy.get f).PyEq (((projectedEvent P ctx e).sets P f).getD (copy.get f)) then
        ledger.row.get f
      else ((projectedEvent P ctx e).sets P f).getD (copy.get f) := by
  rw [← ProjectionState.get_apply]
  exact copy.get_writeOver _ _ f

/-- A field that the event does not set stays in the row and in the copy. -/
theorem get_of_not_mem (h : f ∉ e.type.fields) :
    (appendAndProject P ctx copy ledger e).1.get f = copy.get f ∧
      (appendAndProject P ctx copy ledger e).2.row.get f = ledger.row.get f := by
  have hsets : (projectedEvent P ctx e).sets P f = none :=
    DomainEvent.sets_of_not_mem P (by rwa [type_projectedEvent])
  have hnew : (copy.apply P (projectedEvent P ctx e)).get f = copy.get f := by
    rw [ProjectionState.get_apply, hsets, Option.getD_none]
  constructor
  · refine (copy.get_writeOver (copy.apply P (projectedEvent P ctx e)) copy f).trans ?_
    rw [hnew]
    exact if_pos (.refl _)
  · rw [get_row_appendAndProject, hsets, Option.getD_none]
    exact if_pos (.refl _)

/-- The writer's copy hides no difference: where it holds the value that the event sets, the row
holds it too. -/
def WritesThrough (P : Platform) (copy row : ProjectionState) (e : DomainEvent) : Prop :=
  ∀ f v, e.sets P f = some v → (copy.get f).PyEq v → (row.get f).PyEq v

theorem row_pyEq_appendAndProject (hrow : ledger.row.PyEq (rebuildProjection P ledger.events))
    (hwell : e.WellNamed) (hthrough : WritesThrough P copy ledger.row (projectedEvent P ctx e)) :
    (appendAndProject P ctx copy ledger e).2.row.PyEq
      (rebuildProjection P (appendAndProject P ctx copy ledger e).2.events) := by
  intro f
  rw [rebuildProjection_appendAndProject P ctx copy ledger hwell, ProjectionState.get_apply,
    get_row_appendAndProject, ← projectedEvent]
  cases hsets : (projectedEvent P ctx e).sets P f with
  | none =>
    rw [Option.getD_none, Option.getD_none, if_pos (.refl _)]
    exact hrow f
  | some v =>
    rw [Option.getD_some, Option.getD_some]
    split_ifs with heq
    · exact hthrough f v hsets heq
    · exact .refl v

theorem WritesThrough.of_agree {copy row : ProjectionState}
    (h : ∀ f ∈ e.type.fields, copy.get f = row.get f) : WritesThrough P copy row e := by
  intro f v hsets heq
  by_cases hf : f ∈ e.type.fields
  · rw [← h f hf]
    exact heq
  · rw [DomainEvent.sets_of_not_mem P hf] at hsets
    cases hsets

end

/-! ## Terminal events -/

section

variable (P : Platform) (ctx : ExecutionContext)

theorem projected_failed (message code : String) (now : DateTime) (result : Entries) :
    ∃ message' code' finished result', projectedEvent P ctx
        (.executionFailed message code (.time now) result) =
      .executionFailed message' code' (.json (.str finished)) result' ∧
      (result = [] → result' = []) := by
  have hplain := fun c => plainMapping_data P (e := .executionFailed message c (.time now) result)
    (by simp [DomainEvent.type])
  have hfinished := fun c limits => @valueOf_redactEventData_str P limits "finished_at"
    (by decide) _ (hplain c) _ rfl
  refine ⟨_, _, _, _, congrArg (fun v => DomainEvent.executionFailed _ _ (.json v) _)
    (hfinished _ _), ?_⟩
  rintro rfl
  exact entriesOr_redactEventData_of_absent (hplain _) rfl

theorem projected_enqueueFailed (message code : String) (now : DateTime) :
    ∃ message' code' finished, projectedEvent P ctx
        (.executionEnqueueFailed message code (.time now)) =
      .executionEnqueueFailed message' code' (.json (.str finished)) := by
  have hfinished := fun c limits => @valueOf_redactEventData_str P limits "finished_at"
    (by decide) _ (plainMapping_data P (e := .executionEnqueueFailed message c (.time now))
      (by simp [DomainEvent.type])) _ rfl
  exact ⟨_, _, _, congrArg (fun v => DomainEvent.executionEnqueueFailed _ _ (.json v))
    (hfinished _ _)⟩

theorem projected_succeeded (result : Entries) (now : DateTime) :
    ∃ result' finished, projectedEvent P ctx (.executionSucceeded result (.time now)) =
      .executionSucceeded result' (.json (.str finished)) := by
  have hfinished := fun limits => @valueOf_redactEventData_str P limits "finished_at"
    (by decide) _ (plainMapping_data P (e := .executionSucceeded result (.time now))
      (by simp [DomainEvent.type])) _ rfl
  exact ⟨_, _, congrArg (fun v => DomainEvent.executionSucceeded _ (.json v)) (hfinished _)⟩

end

def Blank (fields : List Field) (s : ProjectionState) : Prop :=
  ∀ f ∈ fields, s.get f = ProjectionState.initial.get f

theorem orText_ne_empty {text fallback : String} (h : fallback ≠ "") :
    DomainEvent.orText text fallback ≠ "" := by
  unfold DomainEvent.orText
  split_ifs with hempty
  · exact h
  · exact hempty

theorem coerceDatetime_str_ne_null (P : Platform) (s : String) :
    ¬ Stamp.none.PyEq (coerceDatetime P (.json (.str s))) := by
  intro h
  simp only [coerceDatetime] at h
  split_ifs at h
  · cases h
  · split at h
    · exact h
    · cases h

theorem str_ne_empty {s : String} (h : s ≠ "") :
    ¬ (Stamp.json (.str "")).PyEq (.json (.str s)) := fun heq => h (Json.pyEq_str heq).symm

theorem status_ne {s t : ExecutionStatus} (h : s ≠ t) :
    ¬ (Stamp.json (.str s.value)).PyEq (.json (.str t.value)) := fun heq =>
  h (ExecutionStatus.value_injective (Json.pyEq_str heq))

def errorFields : List Field := [.errorCode, .errorMessage, .finishedAt]

def outcomeFields : List Field := .result :: errorFields

section

variable {P : Platform} {copy row : ProjectionState}

theorem not_pyEq_error_fields (hblank : Blank errorFields copy) {code message finished : String}
    (hcode : code ≠ "") (hmessage : message ≠ "") :
    ¬ (copy.get .errorCode).PyEq (.json (.str code)) ∧
      ¬ (copy.get .errorMessage).PyEq (.json (.str message)) ∧
      ¬ (copy.get .finishedAt).PyEq (coerceDatetime P (.json (.str finished))) := by
  rw [hblank .errorCode (by decide), hblank .errorMessage (by decide),
    hblank .finishedAt (by decide)]
  exact ⟨str_ne_empty hcode, str_ne_empty hmessage, coerceDatetime_str_ne_null P finished⟩

theorem WritesThrough.failed (hstatus : copy.status ≠ .failed) (hblank : Blank errorFields copy)
    (hresult : copy.get .result = row.get .result) (message code finished : String)
    (result : Entries) :
    WritesThrough P copy row (.executionFailed message code (.json (.str finished)) result) := by
  obtain ⟨hcode, hmessage, hfinished⟩ := @not_pyEq_error_fields P copy hblank
    (DomainEvent.orText code "RPC_EXECUTION_FAILED")
    (DomainEvent.orText message "RPC execution failed.") finished
    (orText_ne_empty (by decide)) (orText_ne_empty (by decide))
  intro f v hsets heq
  cases f with
  | status => cases hsets; exact absurd heq (status_ne hstatus)
  | result => exact hresult ▸ heq
  | errorCode => cases hsets; exact absurd heq hcode
  | errorMessage => cases hsets; exact absurd heq hmessage
  | finishedAt => cases hsets; exact absurd heq hfinished
  | startedAt | normalizedParams | resolvedCommandHash | jobId | approvedById => cases hsets

theorem WritesThrough.enqueueFailed (hstatus : copy.status ≠ .failed)
    (hblank : Blank errorFields copy) (message code finished : String) :
    WritesThrough P copy row (.executionEnqueueFailed message code (.json (.str finished))) := by
  obtain ⟨hcode, hmessage, hfinished⟩ := @not_pyEq_error_fields P copy hblank
    (DomainEvent.orText code "RPC_ENQUEUE_FAILED")
    (DomainEvent.orText message "Failed to enqueue RPC job.") finished
    (orText_ne_empty (by decide)) (orText_ne_empty (by decide))
  intro f v hsets heq
  cases f with
  | status => cases hsets; exact absurd heq (status_ne hstatus)
  | errorCode => cases hsets; exact absurd heq hcode
  | errorMessage => cases hsets; exact absurd heq hmessage
  | finishedAt => cases hsets; exact absurd heq hfinished
  | result | startedAt | normalizedParams | resolvedCommandHash | jobId | approvedById =>
    cases hsets

/-- A success clears the error fields, which it can only do where the row has no error. -/
theorem WritesThrough.succeeded (hstatus : copy.status ≠ .succeeded)
    (hcopy : Blank outcomeFields copy) (hrow : Blank outcomeFields row) (result : Entries)
    (finished : String) :
    WritesThrough P copy row (.executionSucceeded result (.json (.str finished))) := by
  have hagree : ∀ f ∈ outcomeFields, copy.get f = row.get f := fun f hf =>
    (hcopy f hf).trans (hrow f hf).symm
  intro f v hsets heq
  cases f with
  | status => cases hsets; exact absurd heq (status_ne hstatus)
  | result => exact hagree .result (by decide) ▸ heq
  | errorCode => exact hagree .errorCode (by decide) ▸ heq
  | errorMessage => exact hagree .errorMessage (by decide) ▸ heq
  | finishedAt => exact hagree .finishedAt (by decide) ▸ heq
  | startedAt | normalizedParams | resolvedCommandHash | jobId | approvedById => cases hsets

end

/-! ## Progress events -/

theorem ProjectionState.writeOver_same (copy target : ProjectionState) :
    copy.writeOver copy target = target := by
  simp only [writeOver, Stamp.PyEq.refl, if_true]

theorem ProjectionState.apply_of_audit (P : Platform) (s : ProjectionState) {e : DomainEvent}
    (h : e.type.fields = []) : s.apply P e = s := by
  cases e <;> first | rfl | simp [DomainEvent.type, EventType.fields] at h

/-- Audit events leave the copy and the row as they are, and the row in step with its stream. -/
theorem appendAll_audit {P : Platform} {ctx : ExecutionContext} {s : ProjectionState × Ledger}
    {es : List DomainEvent} (hwell : ∀ e ∈ es, e.WellNamed) (haudit : ∀ e ∈ es, e.type.fields = [])
    (hrow : s.2.row.PyEq (rebuildProjection P s.2.events)) :
    (appendAll P ctx s es).1 = s.1 ∧ (appendAll P ctx s es).2.row = s.2.row ∧
      (appendAll P ctx s es).2.row.PyEq
        (rebuildProjection P (appendAll P ctx s es).2.events) := by
  induction es generalizing s with
  | nil => exact ⟨rfl, rfl, hrow⟩
  | cons e es ih =>
    have he := haudit e List.mem_cons_self
    have hsame : s.1.apply P (redactedEvent P ctx (persistableFailureEvent e)) = s.1 :=
      s.1.apply_of_audit P (by simpa using he)
    have hsync := @row_pyEq_appendAndProject P ctx s.1 s.2 e hrow (hwell e List.mem_cons_self)
      (.of_agree (by simp [he]))
    obtain ⟨hcopy, hrow', hsync'⟩ := ih (s := appendAndProject P ctx s.1 s.2 e)
      (fun d hd => hwell d (List.mem_cons_of_mem e hd))
      (fun d hd => haudit d (List.mem_cons_of_mem e hd)) hsync
    refine ⟨hcopy.trans ?_, hrow'.trans ?_, hsync'⟩
    · simp only [appendAndProject, hsame, ProjectionState.writeOver_same]
    · simp only [appendAndProject, hsame, ProjectionState.writeOver_same]

end NetboxRpc
