import NetboxRpc.Approval
import NetboxRpc.LedgerFacts
import NetboxRpc.Transition

/-!
# The lifecycle of one execution

All writers of one execution row and its stream: the creator's enqueue after commit, cancel and
approval decisions, procedure edits, the stale-restart expiry, the reconciliation that fails a
lost worker, and any number of worker deliveries. A step is one transaction, or one point of a
worker's run between transactions; it is refused where the code raises without a write.
-/

namespace NetboxRpc

inductive Phase
  | claimed
  | admitted
  | prepared
  | leased
  | called
  | failing
  | ended
deriving DecidableEq, Repr

/-- A worker's in-memory execution. Its procedure is the one the claim cached under the procedure
lock; `payload` is the approval payload it recomputed. -/
structure Worker where
  phase : Phase
  copy : ProjectionState
  procedure : Procedure
  payload : Option Json

structure BackendCall where
  procedureName : String
  events : List EventRecord
  payload : Option Json

structure World where
  procedure : Procedure
  ledger : Ledger
  snapshot : Option ApprovalRequest
  /-- Instances that API requests loaded before they decide. -/
  loaded : ℕ → Option ProjectionState
  /-- The in-memory execution of the request that enqueues the job after its commit. -/
  enqueuer : Option ProjectionState
  workers : ℕ → Option Worker
  calls : List BackendCall

/-- How the transaction of a worker ends. An abort rolls the database back and leaves in memory
what the first `applied` events had already set. -/
inductive Fate
  | commits
  | aborts (applied : ℕ)
deriving DecidableEq, Repr

structure LeaseClaims where
  nonce : String
  keyId : String
  keyVersion : ℤ
  audience : String
  expiresAt : Stamp

inductive Action
  | load (slot : ℕ)
  | editProcedure (p : Procedure)
  | cancel (userId : ℤ) (now : DateTime)
  | approve (slot : ℕ) (userId : ℤ) (reason : String) (now : DateTime)
  | approveProtected (userId : ℤ) (normalized : Entries) (target : BackendTarget)
      (reason : String) (now : DateTime)
  | reject (slot : ℕ) (userId : ℤ) (reason : String) (now : DateTime)
  | expire (slot : ℕ) (reason : String) (now : DateTime)
  | enqueued (jobId : Json)
  | enqueueRaised (now : DateTime)
  | enqueueLost
  | expireStaleRestart (now : DateTime)
  | reconcileLostWorker (now : DateTime)
  | claim (worker : ℕ) (stale : Bool) (orgRefusal : Option (String × String)) (now : DateTime)
  | settingsDisabled (worker : ℕ) (fate : Fate) (now : DateTime)
  | bindingInvalid (worker : ℕ) (fate : Fate) (now : DateTime)
  | admission (worker : ℕ)
  | prepare (worker : ℕ) (normalized : Entries) (target : BackendTarget) (fate : Fate)
  | lease (worker : ℕ) (claims : Option LeaseClaims) (fate : Fate)
  | call (worker : ℕ)
  | record (worker : ℕ) (response : Entries) (fate : Fate) (now : DateTime)
  | raised (worker : ℕ) (message code : String) (fate : Fate) (now : DateTime)
  | lost (worker : ℕ)

def executionContext (req : ExecutionRequest) (p : Procedure) : ExecutionContext :=
  ⟨p.name, p.resultSchema, req.params, req.requestedById⟩

section

variable (S : Site) (req : ExecutionRequest)

/-! ## Creation -/

/-- `_persist_execution_request`: a protected procedure opens an approval, any other is queued. -/
def create (p : Procedure) (normalized : Entries) (target : BackendTarget) : Option World :=
  let ctx := executionContext req p
  let start := (ProjectionState.initial, freshLedger)
  let P := S.platform
  if isProtected p.name then do
    let payload ← approvalProtectedPayload S p req normalized target
    let snapshot := createApprovalRequest P req payload
    guard (snapshot.payloadHash ≠ "")
    let s := appendAll P ctx start [.executionRequested req.requestedById,
      .approvalRequested snapshot.payloadHash .none req.requestedById]
    return { procedure := p, ledger := s.2, snapshot := some snapshot, loaded := fun _ => none,
             enqueuer := none, workers := fun _ => none, calls := [] }
  else
    let s := appendAll P ctx start [.executionQueued req.requestedById]
    some { procedure := p, ledger := s.2, snapshot := none, loaded := fun _ => none,
           enqueuer := some s.1, workers := fun _ => none, calls := [] }

/-! ## Writes -/

def World.append (w : World) (p : Procedure) (copy : ProjectionState) (events : List DomainEvent) :
    ProjectionState × Ledger :=
  appendAll S.platform (executionContext req p) (copy, w.ledger) events

def World.writeLocked (w : World) (events : List DomainEvent) : World :=
  { w with ledger := (w.append S req w.procedure w.ledger.row events).2 }

def World.setWorker (w : World) (i : ℕ) (x : Worker) : World :=
  { w with workers := Function.update w.workers i (some x) }

def World.writeWorker (w : World) (i : ℕ) (x : Worker) (events : List DomainEvent) (fate : Fate)
    (done : Phase) : World :=
  match fate with
  | .commits =>
    let s := w.append S req x.procedure x.copy events
    { w with ledger := s.2 }.setWorker i { x with phase := done, copy := s.1 }
  | .aborts n =>
    let s := w.append S req x.procedure x.copy (events.take n)
    w.setWorker i { x with phase := .failing, copy := s.1 }

/-! ## Decisions -/

/-- `_decide_from_pending` on a loaded instance: the row is locked and must be pending, the
instance takes its status, and the decision is recorded through the instance. -/
def World.decide (w : World) (slot : ℕ) (event : DomainEvent) : Option World := do
  let copy ← w.loaded slot
  guard (w.ledger.row.status = .pendingApproval)
  let copy := { copy with status := w.ledger.row.status }
  return { w with ledger := (w.append S req w.procedure copy [event]).2 }

def World.approveProtected (w : World) (userId : ℤ) (normalized : Entries)
    (target : BackendTarget) (reason : String) (now : DateTime) : Option World := do
  let P := S.platform
  let snapshot ← w.snapshot
  guard (protectedProcedurePolicyHolds S w.procedure)
  guard (mayApprove P (allowProtectedSelfApproval S w.procedure.name (.int userId)) (.int userId)
    snapshot)
  let current ← approvalProtectedPayload S w.procedure req normalized target
  guard (snapshot.matchesCurrent P current)
  guard (w.ledger.row.status = .pendingApproval)
  let s := w.append S req w.procedure w.ledger.row
    [.executionApproved (.int userId) snapshot.payloadHash (.time now) reason,
      .executionQueued req.requestedById]
  return { w with ledger := s.2, enqueuer := some s.1 }

/-! ## The claim -/

def staleRestartMessage : String :=
  "The production NetBox RQ worker restart exceeded the 10-minute queue age and was not dispatched."

/-- Why `_claim_if_procedure_enabled` fails the execution closed, if it does. -/
def claimRefusal (w : World) (stale : Bool) (orgRefusal : Option (String × String)) :
    Option (String × String) :=
  let p := w.procedure
  if !p.enabled then
    some ("The RPC procedure for this execution has been disabled; execution not dispatched.",
      "RPC_PROCEDURE_DISABLED")
  else if p.name = netboxProductionRestartRqWorker ∧ stale = true then
    some (staleRestartMessage, "RPC_CONTROL_QUEUE_STALE")
  else if p.name = giteaOrgCiRunnerProvision ∧ orgRefusal.isSome then orgRefusal
  else if isProtected p.name then
    if !protectedProcedurePolicyHolds S p then
      some (S.protectedLabel p.name ++ " catalog policy changed after approval.",
        "RPC_APPROVAL_INVALIDATED")
    else if !approvalIdentitiesAreAuthorized S p.name req.requestedById w.ledger.row.approvedById
    then
      some (S.protectedLabel p.name ++ " requires a destructive, approval-required procedure " ++
        "and authorized approval identities.", "RPC_APPROVAL_REQUIRED")
    else none
  else none

def World.claim (w : World) (i : ℕ) (stale : Bool) (orgRefusal : Option (String × String))
    (now : DateTime) : Option World := do
  guard ((w.workers i).isNone ∧ w.ledger.row.status = .queued)
  match claimRefusal S req w stale orgRefusal with
  | some (message, code) =>
    return w.writeLocked S req [.executionFailed message code (.time now) []]
  | none =>
    let s := w.append S req w.procedure w.ledger.row [.executionStarted (.time now)]
    return { w with ledger := s.2 }.setWorker i ⟨.claimed, s.1, w.procedure, none⟩

/-! ## Dispatch -/

def hashJson (P : Platform) (v : Json) : String := if v = .null then "" else P.stableHash v

def currentProtectedApproval (w : World) (x : Worker) (normalized : Entries)
    (target : BackendTarget) : Option Json := do
  guard (protectedProcedurePolicyHolds S x.procedure)
  guard (approvalIdentitiesAreAuthorized S x.procedure.name req.requestedById x.copy.approvedById)
  let current ← approvalProtectedPayload S x.procedure req normalized target
  let snapshot ← w.snapshot
  guard (snapshot.matchesCurrent S.platform current)
  return current

def World.prepare (w : World) (i : ℕ) (x : Worker) (raw : Entries) (target : BackendTarget)
    (fate : Fate) : Option World := do
  guard (x.phase = .admitted ∧ x.copy.status = .running)
  let normalized := ledgerNormalizedParams S.platform raw
  let event := DomainEvent.parametersNormalized normalized
    (hashJson S.platform (valueOf normalized "command_fingerprint"))
  if isProtected x.procedure.name then
    let current ← currentProtectedApproval S req w x normalized target
    return w.writeWorker S req i { x with payload := some current } [event] fate .prepared
  else
    return w.writeWorker S req i x [event] fate .prepared

def currentStreamVersion (events : List EventRecord) : ℕ :=
  (events.map EventRecord.sequence).foldl max 0

/-- `_issue_dispatch_lease`, and the refusal to dispatch without the lease a procedure needs. -/
def World.lease (w : World) (i : ℕ) (x : Worker) (claims : Option LeaseClaims) (fate : Fate) :
    Option World := do
  guard (x.phase = .prepared ∧ x.copy.status = .running)
  match claims with
  | some c => return w.writeWorker S req i x [.dispatchLeaseIssued c.nonce c.keyId c.keyVersion
      (currentStreamVersion w.ledger.events) c.audience c.expiresAt 1] fate .leased
  | none =>
    if requiresSignedDispatch req x.procedure.name then
      return w.setWorker i { x with phase := .failing }
    else return w.setWorker i { x with phase := .leased }

def World.call (w : World) (i : ℕ) (x : Worker) : Option World := do
  guard (x.phase = .leased)
  let made : BackendCall := ⟨x.procedure.name, w.ledger.events, x.payload⟩
  return { w with calls := w.calls ++ [made] }.setWorker i { x with phase := .called }

def World.record (w : World) (i : ℕ) (x : Worker) (response : Entries) (fate : Fate)
    (now : DateTime) : Option World := do
  guard (x.phase = .called ∧ x.copy.status = .running)
  let events ← backendResponseEvents S.platform (executionContext req x.procedure) response
    (.time now)
  return w.writeWorker S req i x events fate .ended

def Phase.isDispatching : Phase → Bool
  | .admitted | .prepared | .leased | .called | .failing => true
  | _ => false

/-- `aggregate.fail` on the worker's copy. The run ends whether it commits, aborts, or is refused
because the copy is terminal. -/
def World.failWorker (w : World) (i : ℕ) (x : Worker) (message code : String) (fate : Fate)
    (now : DateTime) : World :=
  let events := match fate with
    | .commits => [DomainEvent.executionFailed message code (.time now) []]
    | .aborts _ => []
  if x.copy.status.isTerminal then w.setWorker i { x with phase := .ended }
  else w.writeWorker S req i x events .commits .ended

/-! ## Steps -/

def step (w : World) : Action → Option World
  | .load slot => some { w with loaded := Function.update w.loaded slot (some w.ledger.row) }
  | .editProcedure p => some { w with procedure := p }
  | .cancel userId now => do
    guard (w.ledger.row.status = .queued ∨ w.ledger.row.status = .pendingApproval)
    return w.writeLocked S req [.executionCancelled (.time now) (.int userId) ""]
  | .approve slot userId reason now => do
    let snapshot ← w.snapshot
    guard (mayApprove S.platform (S.isSuperuser (.int userId)) (.int userId) snapshot)
    w.decide S req slot (.executionApproved (.int userId) snapshot.payloadHash (.time now) reason)
  | .approveProtected userId normalized target reason now =>
    w.approveProtected S req userId normalized target reason now
  | .reject slot userId reason now => do
    let snapshot ← w.snapshot
    guard (isDistinctActor S.platform (.int userId) snapshot)
    w.decide S req slot (.executionRejected (.int userId) (.time now) reason)
  | .expire slot reason now => w.decide S req slot (.executionExpired (.time now) reason)
  | .enqueued jobId => do
    let copy ← w.enqueuer
    guard (copy.status = .queued)
    return { w with ledger := (w.append S req w.procedure copy [.jobEnqueued jobId]).2,
                    enqueuer := none }
  | .enqueueRaised now => do
    let copy ← w.enqueuer
    return { w with
      ledger := (w.append S req w.procedure copy [.executionEnqueueFailed
        "Failed to enqueue RPC job. Check RQ/Redis connectivity." "RPC_ENQUEUE_FAILED"
        (.time now)]).2,
      enqueuer := none }
  | .enqueueLost => some { w with enqueuer := none }
  | .expireStaleRestart now => do
    guard (w.ledger.row.status = .queued ∧ w.procedure.name = netboxProductionRestartRqWorker)
    return w.writeLocked S req
      [.executionFailed staleRestartMessage "RPC_CONTROL_QUEUE_STALE" (.time now) []]
  | .reconcileLostWorker now => do
    guard (w.ledger.row.status = .running)
    return w.writeLocked S req [.executionFailed
      "Gitea runner worker was lost after scope reservation; reconciliation is required."
      "RPC_RUNNER_WORKER_LOST" (.time now) []]
  | .claim i stale orgRefusal now => w.claim S req i stale orgRefusal now
  | .settingsDisabled i fate now => do
    let x ← w.workers i
    guard (x.phase = .claimed)
    return w.failWorker S req i x
      "The netbox-rpc integration is disabled; execution not dispatched."
      "RPC_INTEGRATION_DISABLED" fate now
  | .bindingInvalid i fate now => do
    let x ← w.workers i
    guard (x.phase = .claimed ∧ isProtected x.procedure.name = true)
    return w.failWorker S req i x
      (S.protectedLabel x.procedure.name ++ " backend binding is invalid.")
      "RPC_BACKEND_BINDING_INVALID" fate now
  | .admission i => do
    let x ← w.workers i
    guard (x.phase = .claimed)
    return w.setWorker i { x with phase := .admitted }
  | .prepare i normalized target fate => do
    let x ← w.workers i
    w.prepare S req i x normalized target fate
  | .lease i claims fate => do
    let x ← w.workers i
    w.lease S req i x claims fate
  | .call i => do
    let x ← w.workers i
    w.call i x
  | .record i response fate now => do
    let x ← w.workers i
    w.record S req i x response fate now
  | .raised i message code fate now => do
    let x ← w.workers i
    guard x.phase.isDispatching
    return w.failWorker S req i x message code fate now
  | .lost i => do
    let x ← w.workers i
    return w.setWorker i { x with phase := .ended }

end

end NetboxRpc
