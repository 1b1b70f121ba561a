import NetboxRpc.Platform

/-!
# Domain events

`domain/events.py`: the event types of an execution stream, the data each one stores, and how a
stored record is read back.
-/

namespace NetboxRpc

abbrev Entries := List (String × Json)

inductive ExecutionStatus
  | requested
  | pendingApproval
  | approved
  | rejected
  | expired
  | queued
  | running
  | succeeded
  | failed
  | cancelled
deriving DecidableEq, Repr

def ExecutionStatus.value : ExecutionStatus → String
  | .requested => "requested"
  | .pendingApproval => "pending_approval"
  | .approved => "approved"
  | .rejected => "rejected"
  | .expired => "expired"
  | .queued => "queued"
  | .running => "running"
  | .succeeded => "succeeded"
  | .failed => "failed"
  | .cancelled => "cancelled"

/-- A field that holds a `datetime`, `None`, or whatever JSON value was read back for it. -/
inductive Stamp
  | json (v : Json)
  | time (t : DateTime)
deriving DecidableEq

def Stamp.none : Stamp := .json .null

def serializeDatetime (P : Platform) : Stamp → Json
  | .time t => .str (P.isoformat t)
  | .json v => v

inductive DomainEvent
  | executionRequested (requestedById : Json)
  | approvalRequested (snapshotHash : String) (expiresAt : Stamp) (requestedById : Json)
  | executionApproved (approvedById : Json) (snapshotHash : String) (decidedAt : Stamp)
      (reason : String)
  | executionRejected (rejectedById : Json) (decidedAt : Stamp) (reason : String)
  | executionExpired (expiredAt : Stamp) (reason : String)
  | executionQueued (requestedById : Json)
  | executionStarted (startedAt : Stamp)
  | parametersNormalized (normalizedParams : Entries) (resolvedCommandHash : String)
  | jobEnqueued (jobId : Json)
  | dispatchLeaseIssued (nonce keyId : String) (keyVersion streamVersion : ℤ) (audience : String)
      (expiresAt : Stamp) (envelopeVersion : ℤ)
  | backendEventRecorded (backendEvent : String) (backendData : Entries)
      (eventLevel eventMessage : String)
  | executionSucceeded (result : Entries) (finishedAt : Stamp)
  | executionFailed (errorMessage code : String) (finishedAt : Stamp) (result : Entries)
  | executionEnqueueFailed (errorMessage code : String) (finishedAt : Stamp)
  | executionCancelled (finishedAt : Stamp) (cancelledById : Json) (reason : String)

inductive EventType
  | executionRequested
  | approvalRequested
  | executionApproved
  | executionRejected
  | executionExpired
  | executionQueued
  | executionStarted
  | parametersNormalized
  | jobEnqueued
  | dispatchLeaseIssued
  | backendEventRecorded
  | executionSucceeded
  | executionFailed
  | executionEnqueueFailed
  | executionCancelled
deriving DecidableEq, Repr

namespace EventType

def eventName : EventType → String
  | .executionRequested => "ExecutionRequested"
  | .approvalRequested => "ApprovalRequested"
  | .executionApproved => "ExecutionApproved"
  | .executionRejected => "ExecutionRejected"
  | .executionExpired => "ExecutionExpired"
  | .executionQueued => "ExecutionQueued"
  | .executionStarted => "ExecutionStarted"
  | .parametersNormalized => "ParametersNormalized"
  | .jobEnqueued => "JobEnqueued"
  | .dispatchLeaseIssued => "DispatchLeaseIssued"
  | .backendEventRecorded => "BackendEventRecorded"
  | .executionSucceeded => "ExecutionSucceeded"
  | .executionFailed => "ExecutionFailed"
  | .executionEnqueueFailed => "ExecutionEnqueueFailed"
  | .executionCancelled => "ExecutionCancelled"

def all : List EventType :=
  [.executionRequested, .approvalRequested, .executionApproved, .executionRejected,
    .executionExpired, .executionQueued, .executionStarted, .parametersNormalized, .jobEnqueued,
    .dispatchLeaseIssued, .backendEventRecorded, .executionSucceeded, .executionFailed,
    .executionEnqueueFailed, .executionCancelled]

def ofName? (name : String) : Option EventType := all.find? (fun t => t.eventName == name)

theorem ofName?_eventName (t : EventType) : ofName? t.eventName = some t := by
  cases t <;> rfl

end EventType

namespace DomainEvent

def type : DomainEvent → EventType
  | executionRequested .. => .executionRequested
  | approvalRequested .. => .approvalRequested
  | executionApproved .. => .executionApproved
  | executionRejected .. => .executionRejected
  | executionExpired .. => .executionExpired
  | executionQueued .. => .executionQueued
  | executionStarted .. => .executionStarted
  | parametersNormalized .. => .parametersNormalized
  | jobEnqueued .. => .jobEnqueued
  | dispatchLeaseIssued .. => .dispatchLeaseIssued
  | backendEventRecorded .. => .backendEventRecorded
  | executionSucceeded .. => .executionSucceeded
  | executionFailed .. => .executionFailed
  | executionEnqueueFailed .. => .executionEnqueueFailed
  | executionCancelled .. => .executionCancelled

def orText (text fallback : String) : String := if text = "" then fallback else text

def eventName : DomainEvent → String
  | backendEventRecorded name _ _ _ => orText name EventType.backendEventRecorded.eventName
  | e => e.type.eventName

def level : DomainEvent → String
  | executionFailed .. | executionEnqueueFailed .. => "error"
  | executionCancelled .. | executionRejected .. | executionExpired .. => "warning"
  | backendEventRecorded _ _ level _ => orText level "info"
  | _ => "info"

def message : DomainEvent → String
  | executionRequested .. => "RPC execution requested (approval required)."
  | approvalRequested .. => "Approval requested; execution is pending an authorized decision."
  | executionApproved _ _ _ reason => orText reason "RPC execution approved."
  | executionRejected _ _ reason => orText reason "RPC execution rejected."
  | executionExpired _ reason => orText reason "Approval request expired before a decision."
  | executionQueued .. => "RPC execution queued."
  | executionStarted .. => "RPC execution started."
  | parametersNormalized .. => "Execution parameters normalized by NetBox."
  | jobEnqueued .. => "RPC execution job enqueued."
  | dispatchLeaseIssued .. => "Signed dispatch lease issued."
  | backendEventRecorded _ _ _ message => message
  | executionSucceeded .. => "RPC execution completed."
  | executionFailed message _ _ _ => orText message "RPC execution failed."
  | executionEnqueueFailed message _ _ => orText message "Failed to enqueue RPC job."
  | executionCancelled _ _ reason => orText reason "RPC execution cancelled."

def unlessNull (key : String) (v : Json) : Entries := if v = .null then [] else [(key, v)]

def unlessEmpty (key text : String) : Entries := if text = "" then [] else [(key, .str text)]

def statusEntry (s : ExecutionStatus) : String × Json := ("status", .str s.value)

def data (P : Platform) : DomainEvent → Entries
  | executionRequested by_ => [statusEntry .requested] ++ unlessNull "requested_by_id" by_
  | approvalRequested hash expires by_ =>
    [statusEntry .pendingApproval, ("snapshot_hash", .str hash)] ++
      unlessNull "expires_at" (serializeDatetime P expires) ++ unlessNull "requested_by_id" by_
  | executionApproved by_ hash decided reason =>
    [statusEntry .approved, ("approved_by_id", by_), ("snapshot_hash", .str hash),
      ("decided_at", serializeDatetime P decided)] ++ unlessEmpty "reason" reason
  | executionRejected by_ decided reason =>
    [statusEntry .rejected, ("rejected_by_id", by_), ("decided_at", serializeDatetime P decided)] ++
      unlessEmpty "reason" reason
  | executionExpired expired reason =>
    [statusEntry .expired, ("expired_at", serializeDatetime P expired)] ++
      unlessEmpty "reason" reason
  | executionQueued by_ => [statusEntry .queued] ++ unlessNull "requested_by_id" by_
  | executionStarted started =>
    [statusEntry .running, ("started_at", serializeDatetime P started)]
  | parametersNormalized params hash =>
    [("command_hash", .str hash), ("normalized_params", .obj params)]
  | jobEnqueued jobId => [("job_id", jobId)]
  | dispatchLeaseIssued nonce keyId keyVersion streamVersion audience expires envelopeVersion =>
    [("nonce", .str nonce), ("key_id", .str keyId), ("key_version", .int keyVersion),
      ("stream_version", .int streamVersion), ("audience", .str audience),
      ("expires_at", serializeDatetime P expires), ("envelope_version", .int envelopeVersion)]
  | backendEventRecorded _ data _ _ => data
  | executionSucceeded result finished =>
    [statusEntry .succeeded, ("result", .obj result),
      ("finished_at", serializeDatetime P finished)]
  | e@(executionFailed _ code finished result) =>
    [statusEntry .failed, ("code", .str (orText code "RPC_EXECUTION_FAILED")),
      ("error_message", .str e.message), ("finished_at", serializeDatetime P finished)] ++
      if result = [] then [] else [("result", .obj result)]
  | e@(executionEnqueueFailed _ code finished) =>
    [statusEntry .failed, ("code", .str (orText code "RPC_ENQUEUE_FAILED")),
      ("error_message", .str e.message), ("finished_at", serializeDatetime P finished)]
  | executionCancelled finished by_ reason =>
    [statusEntry .cancelled, ("finished_at", serializeDatetime P finished)] ++
      unlessNull "cancelled_by_id" by_ ++ unlessEmpty "reason" reason

end DomainEvent

/-! ## Reading a record back -/

def pyStr (P : Platform) : Json → String
  | .str s => s
  | v => P.str v

def textOr (P : Platform) (data : Entries) (key fallback : String) : String :=
  match Json.find data key with
  | some v => if v.truthy then pyStr P v else fallback
  | none => fallback

/-- `dict(data.get(key) or \x7b\x7d)`; the ledger holds only mappings under such a key. -/
def entriesOr (data : Entries) (key : String) : Entries :=
  match Json.find data key with
  | some (.obj entries) => entries
  | _ => []

/-- `int(data.get(key) or fallback)`; the ledger holds only integers under such a key. -/
def intOr (data : Entries) (key : String) (fallback : ℤ) : ℤ :=
  match Json.find data key with
  | some (.int n) => if n = 0 then fallback else n
  | _ => fallback

def valueOf (data : Entries) (key : String) : Json := (Json.find data key).getD .null

def stampOf (data : Entries) (key : String) : Stamp := .json (valueOf data key)

def EventType.fromData (P : Platform) (data : Entries) : EventType → DomainEvent
  | .executionRequested => .executionRequested (valueOf data "requested_by_id")
  | .approvalRequested => .approvalRequested (textOr P data "snapshot_hash" "")
      (stampOf data "expires_at") (valueOf data "requested_by_id")
  | .executionApproved => .executionApproved (valueOf data "approved_by_id")
      (textOr P data "snapshot_hash" "") (stampOf data "decided_at") (textOr P data "reason" "")
  | .executionRejected => .executionRejected (valueOf data "rejected_by_id")
      (stampOf data "decided_at") (textOr P data "reason" "")
  | .executionExpired => .executionExpired (stampOf data "expired_at") (textOr P data "reason" "")
  | .executionQueued => .executionQueued (valueOf data "requested_by_id")
  | .executionStarted => .executionStarted (stampOf data "started_at")
  | .parametersNormalized => .parametersNormalized (entriesOr data "normalized_params")
      (textOr P data "command_hash" (textOr P data "resolved_command_hash" ""))
  | .jobEnqueued => .jobEnqueued (valueOf data "job_id")
  | .dispatchLeaseIssued => .dispatchLeaseIssued (textOr P data "nonce" "")
      (textOr P data "key_id" "") (intOr data "key_version" 1) (intOr data "stream_version" 0)
      (textOr P data "audience" "") (stampOf data "expires_at") (intOr data "envelope_version" 1)
  | .backendEventRecorded => .backendEventRecorded "BackendEventRecorded" data "info" ""
  | .executionSucceeded => .executionSucceeded (entriesOr data "result") (stampOf data "finished_at")
  | .executionFailed => .executionFailed (textOr P data "error_message" "RPC execution failed.")
      (textOr P data "code" "RPC_EXECUTION_FAILED") (stampOf data "finished_at")
      (entriesOr data "result")
  | .executionEnqueueFailed => .executionEnqueueFailed
      (textOr P data "error_message" "Failed to enqueue RPC job.")
      (textOr P data "code" "RPC_ENQUEUE_FAILED") (stampOf data "finished_at")
  | .executionCancelled => .executionCancelled (stampOf data "finished_at")
      (valueOf data "cancelled_by_id") (textOr P data "reason" "")

/-- A record whose name is no event class is a backend event. -/
def fromRecord (P : Platform) (name : String) (data : Entries) : DomainEvent :=
  match EventType.ofName? name with
  | some t => t.fromData P data
  | none => .backendEventRecorded name data "info" ""

end NetboxRpc
