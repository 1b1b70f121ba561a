import NetboxRpc.Events

/-!
# The execution projection

`domain/projection.py`: the fold of domain events into the projected row, and the field view that
`_write_projection` takes of it.
-/

namespace NetboxRpc

structure ProjectionState where
  status : ExecutionStatus
  startedAt : Stamp
  finishedAt : Stamp
  errorCode : String
  errorMessage : String
  result : Entries
  normalizedParams : Entries
  resolvedCommandHash : String
  jobId : Json
  approvedById : Json
deriving DecidableEq

def ProjectionState.initial : ProjectionState where
  status := .queued
  startedAt := .none
  finishedAt := .none
  errorCode := ""
  errorMessage := ""
  result := []
  normalizedParams := []
  resolvedCommandHash := ""
  jobId := .null
  approvedById := .null

def coerceDatetime (P : Platform) : Stamp → Stamp
  | .json (.str s) => if s = "" then .json (.str s) else
      match P.fromisoformat s with
      | some t => .time t
      | none => .json (.str s)
  | v => v

open DomainEvent in
def ProjectionState.apply (P : Platform) (state : ProjectionState) : DomainEvent → ProjectionState
  | executionRequested _ => { state with status := .requested }
  | approvalRequested .. => { state with status := .pendingApproval }
  | executionApproved by_ _ _ _ => { state with status := .approved, approvedById := by_ }
  | executionRejected _ decided _ =>
    { state with
      status := .rejected, errorCode := "", errorMessage := "",
      finishedAt := coerceDatetime P decided }
  | executionExpired expired _ =>
    { state with
      status := .expired, errorCode := "", errorMessage := "",
      finishedAt := coerceDatetime P expired }
  | executionQueued _ => { state with status := .queued }
  | executionStarted started =>
    { state with status := .running, startedAt := coerceDatetime P started }
  | parametersNormalized params hash =>
    { state with normalizedParams := params, resolvedCommandHash := hash }
  | jobEnqueued jobId => { state with jobId := jobId }
  -- A lease and a backend event are audit records; they advance nothing.
  | dispatchLeaseIssued .. => state
  | backendEventRecorded .. => state
  | executionSucceeded result finished =>
    { state with
      status := .succeeded, result := result, errorCode := "", errorMessage := "",
      finishedAt := coerceDatetime P finished }
  | e@(executionFailed _ code finished result) =>
    { state with
      status := .failed, result := result, errorCode := orText code "RPC_EXECUTION_FAILED",
      errorMessage := e.message, finishedAt := coerceDatetime P finished }
  | e@(executionEnqueueFailed _ code finished) =>
    { state with
      status := .failed, errorCode := orText code "RPC_ENQUEUE_FAILED",
      errorMessage := e.message, finishedAt := coerceDatetime P finished }
  | executionCancelled finished _ _ =>
    { state with
      status := .cancelled, errorCode := "", errorMessage := "",
      finishedAt := coerceDatetime P finished }

def rebuild (P : Platform) (events : List DomainEvent) : ProjectionState :=
  events.foldl (ProjectionState.apply P) .initial

/-! ## Fields -/

inductive Field
  | status
  | startedAt
  | finishedAt
  | errorCode
  | errorMessage
  | result
  | normalizedParams
  | resolvedCommandHash
  | jobId
  | approvedById
deriving DecidableEq, Repr

def ProjectionState.get (state : ProjectionState) : Field → Stamp
  | .status => .json (.str state.status.value)
  | .startedAt => state.startedAt
  | .finishedAt => state.finishedAt
  | .errorCode => .json (.str state.errorCode)
  | .errorMessage => .json (.str state.errorMessage)
  | .result => .json (.obj state.result)
  | .normalizedParams => .json (.obj state.normalizedParams)
  | .resolvedCommandHash => .json (.str state.resolvedCommandHash)
  | .jobId => .json state.jobId
  | .approvedById => .json state.approvedById

def Stamp.PyEq : Stamp → Stamp → Prop
  | .json v, .json w => v.PyEq w
  | .time s, .time t => s = t
  | _, _ => False

instance : DecidableRel Stamp.PyEq := fun
  | .json v, .json w => inferInstanceAs (Decidable (v.PyEq w))
  | .time s, .time t => inferInstanceAs (Decidable (s = t))
  | .json _, .time _ | .time _, .json _ => inferInstanceAs (Decidable False)

theorem Stamp.PyEq.refl (v : Stamp) : v.PyEq v := by
  cases v <;> exact rfl

theorem Stamp.PyEq.trans {u v w : Stamp} (h : u.PyEq v) (k : v.PyEq w) : u.PyEq w := by
  cases u <;> cases v <;> cases w <;> first | exact Eq.trans h k | exact h.elim | exact k.elim

def ProjectionState.PyEq (s t : ProjectionState) : Prop := ∀ f, (s.get f).PyEq (t.get f)

theorem ProjectionState.PyEq.refl (s : ProjectionState) : s.PyEq s := fun _ => .refl _

theorem ProjectionState.PyEq.trans {s t u : ProjectionState} (h : s.PyEq t) (k : t.PyEq u) :
    s.PyEq u := fun f => (h f).trans (k f)

theorem Json.pyEq_str {a b : String} (h : (Json.str a).PyEq (.str b)) : a = b := by
  simpa [Json.PyEq, Json.canon, Json.normalize, Json.numeric] using h

theorem ExecutionStatus.value_injective : Function.Injective ExecutionStatus.value := by
  intro a b h
  cases a <;> cases b <;> first | rfl | simp [ExecutionStatus.value] at h

def DomainEvent.sets (P : Platform) (e : DomainEvent) (f : Field) : Option Stamp :=
  let after := ProjectionState.apply P .initial e
  match e, f with
  | .executionRequested .., .status | .approvalRequested .., .status
  | .executionApproved .., .status | .executionApproved .., .approvedById
  | .executionQueued .., .status | .executionStarted .., .status
  | .executionStarted .., .startedAt
  | .parametersNormalized .., .normalizedParams | .parametersNormalized .., .resolvedCommandHash
  | .jobEnqueued .., .jobId
  | .executionRejected .., .status | .executionRejected .., .errorCode
  | .executionRejected .., .errorMessage | .executionRejected .., .finishedAt
  | .executionExpired .., .status | .executionExpired .., .errorCode
  | .executionExpired .., .errorMessage | .executionExpired .., .finishedAt
  | .executionSucceeded .., .status | .executionSucceeded .., .result
  | .executionSucceeded .., .errorCode | .executionSucceeded .., .errorMessage
  | .executionSucceeded .., .finishedAt
  | .executionFailed .., .status | .executionFailed .., .result | .executionFailed .., .errorCode
  | .executionFailed .., .errorMessage | .executionFailed .., .finishedAt
  | .executionEnqueueFailed .., .status | .executionEnqueueFailed .., .errorCode
  | .executionEnqueueFailed .., .errorMessage | .executionEnqueueFailed .., .finishedAt
  | .executionCancelled .., .status | .executionCancelled .., .errorCode
  | .executionCancelled .., .errorMessage | .executionCancelled .., .finishedAt =>
    some (after.get f)
  | _, _ => none

theorem ProjectionState.get_apply (P : Platform) (s : ProjectionState) (e : DomainEvent)
    (f : Field) : (s.apply P e).get f = (e.sets P f).getD (s.get f) := by
  cases e <;> cases f <;> rfl

theorem ProjectionState.PyEq.apply (P : Platform) {s t : ProjectionState} (h : s.PyEq t)
    (e : DomainEvent) : (s.apply P e).PyEq (t.apply P e) := by
  intro f
  rw [get_apply, get_apply]
  cases e.sets P f with
  | none => exact h f
  | some v => exact .refl v

/-! ## Writing -/

/-- The columns written: those where the writer's copy differs from the new state. -/
def ProjectionState.writeOver (copy new target : ProjectionState) : ProjectionState :=
  let same := fun f => (copy.get f).PyEq (new.get f)
  { status := if same .status then target.status else new.status
    startedAt := if same .startedAt then target.startedAt else new.startedAt
    finishedAt := if same .finishedAt then target.finishedAt else new.finishedAt
    errorCode := if same .errorCode then target.errorCode else new.errorCode
    errorMessage := if same .errorMessage then target.errorMessage else new.errorMessage
    result := if same .result then target.result else new.result
    normalizedParams :=
      if same .normalizedParams then target.normalizedParams else new.normalizedParams
    resolvedCommandHash :=
      if same .resolvedCommandHash then target.resolvedCommandHash else new.resolvedCommandHash
    jobId := if same .jobId then target.jobId else new.jobId
    approvedById := if same .approvedById then target.approvedById else new.approvedById }

theorem ProjectionState.get_writeOver (copy new target : ProjectionState) (f : Field) :
    (copy.writeOver new target).get f =
      if (copy.get f).PyEq (new.get f) then target.get f else new.get f := by
  by_cases h : (copy.get f).PyEq (new.get f)
  · rw [if_pos h]
    cases f <;> simp only [get] at h ⊢ <;> simp only [writeOver, get, h, if_true]
  · rw [if_neg h]
    cases f <;> simp only [get] at h ⊢ <;> simp only [writeOver, get, h, if_false]

theorem ProjectionState.writeOver_self_pyEq (copy new : ProjectionState) :
    (copy.writeOver new copy).PyEq new := by
  intro f
  rw [get_writeOver]
  split_ifs with h
  · exact h
  · exact .refl _

end NetboxRpc
