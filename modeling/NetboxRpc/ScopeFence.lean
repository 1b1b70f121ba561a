import NetboxRpc.LedgerFacts
import NetboxRpc.RunnerContracts

/-!
# The runner scope fence

`application/command_handlers.py`: one durable fence row per canonical token scope, and the three
transactions on it. A start operation or a reconciliation reserves the scope before the backend
call, the response is recorded together with the fence transition, and a failure blocks the scope.
-/

namespace NetboxRpc

structure RPCExecutionError where
  message : String
  code : String
deriving DecidableEq, Repr

inductive FenceState
  | clear
  | pending
  | blocked
deriving DecidableEq, Repr

def FenceState.value : FenceState → String
  | .clear => "clear"
  | .pending => "pending"
  | .blocked => "blocked"

structure ScopeFence where
  state : FenceState
  blockingExecutionId : Option ℕ
  reconciliationExecutionId : Option ℕ
  takeoverGeneration : ℕ
  expectedTokenSha256 : String
  lastResetState : String
  lastPriorTokenId : Json
  lastReplacementTokenId : Json
  lastPriorActiveSha256 : String
  lastUpdated : DateTime
deriving DecidableEq

def ScopeFence.seed (now : DateTime) : ScopeFence :=
  ⟨.clear, none, none, 0, "", "", .null, .null, "", now⟩

structure StoredExecution where
  context : ExecutionContext
  ledger : Ledger

def StoredExecution.status (e : StoredExecution) : ExecutionStatus := e.ledger.row.status

structure RunnerSite where
  fences : String → Option ScopeFence
  executions : ℕ → Option StoredExecution

def RunnerSite.setFence (site : RunnerSite) (scope : String) (fence : ScopeFence) : RunnerSite :=
  { site with fences := Function.update site.fences scope (some fence) }

def RunnerSite.setExecution (site : RunnerSite) (pk : ℕ) (e : StoredExecution) : RunnerSite :=
  { site with executions := Function.update site.executions pk (some e) }

structure RunnerCall where
  pk : ℕ
  context : ExecutionContext
  normalized : Entries

def RunnerCall.contract (c : RunnerCall) : RunnerContract :=
  giteaRunnerScopeContract c.context.procedureName

def keyValue : Option ℕ → Json
  | some pk => .int pk
  | none => .null

section

variable (P : Platform)

def RunnerCall.operation (c : RunnerCall) : String := textOr P c.normalized "operation" ""

def RunnerCall.canonicalScope (c : RunnerCall) : String := textOr P c.normalized "gitea_scope" ""

/-! ## Reservation -/

def fenceUnavailable : RPCExecutionError :=
  ⟨"Gitea runner scope fence is unavailable.", "RPC_SCOPE_FENCE_UNAVAILABLE"⟩

def fenceChanged (message : String) : RPCExecutionError := ⟨message, "RPC_SCOPE_FENCE_CHANGED"⟩

/-- The generation that a reservation takes: the approved snapshot is the current row, and its
generation is the next one. -/
def ScopeFence.approvedGeneration (fence : ScopeFence) (normalized : Entries) : Option ℕ :=
  match valueOf normalized "fence_generation" with
  | .int n =>
    if fence.state.value = textOr P normalized "fence_state" "" ∧
        (keyValue fence.blockingExecutionId).PyEq (valueOf normalized "fence_execution_id") ∧
        DomainEvent.orText fence.expectedTokenSha256 fenceUnknownSha256 =
          textOr P normalized "fence_expected_sha256" "" ∧
        n = fence.takeoverGeneration + 1 ∧ n ≤ jsSafeIntegerMax then some n.toNat
    else none
  | _ => none

def quiescenceDelay : DateTime := reconciliationQuiescenceSeconds * 1000000

def ScopeFence.isQuiescent (fence : ScopeFence) (executions : ℕ → Option StoredExecution)
    (now : DateTime) : Bool :=
  match fence.blockingExecutionId.bind executions with
  | some e => (e.status.isTerminal || fence.state == .pending && e.status == .running) &&
      decide (fence.lastUpdated ≤ now - quiescenceDelay)
  | none => false

/-- The blocking execution of a pending fence: a running one has lost its worker. -/
def failLostWorker (now : DateTime) (site : RunnerSite) (blocking : Option ℕ) :
    Except RPCExecutionError RunnerSite :=
  match blocking with
  | none => .error (fenceChanged "Gitea runner blocking execution is unavailable.")
  | some pk =>
    match site.executions pk with
    | none => .error (fenceChanged "Gitea runner blocking execution is unavailable.")
    | some e =>
      if e.status = .running then
        let s := appendAndProject P e.context e.ledger.row e.ledger (.executionFailed
          "Gitea runner worker was lost after scope reservation; reconciliation is required."
          "RPC_RUNNER_WORKER_LOST" (.time now) [])
        .ok (site.setExecution pk { e with ledger := s.2 })
      else if e.status.isTerminal then .ok site
      else .error ⟨"Gitea runner blocking execution is not recoverable.", "RPC_SCOPE_FENCE_BUSY"⟩

def ScopeFence.acquire (fence : ScopeFence) (pk generation : ℕ) (now : DateTime) : ScopeFence :=
  { fence with state := .pending, blockingExecutionId := some pk, reconciliationExecutionId := none,
               expectedTokenSha256 := "", takeoverGeneration := generation, lastUpdated := now }

def ScopeFence.takeOver (fence : ScopeFence) (pk generation : ℕ) (now : DateTime) : ScopeFence :=
  { fence with state := .blocked, reconciliationExecutionId := some pk,
               takeoverGeneration := generation, lastUpdated := now }

def reserveGiteaRunnerScope (now : DateTime) (site : RunnerSite) (c : RunnerCall) :
    Except RPCExecutionError RunnerSite :=
  match site.fences (c.canonicalScope P) with
  | none => .error fenceUnavailable
  | some fence =>
    match fence.approvedGeneration P c.normalized with
    | none => .error (fenceChanged "Gitea runner scope fence changed after approval.")
    | some generation =>
      if c.operation P = c.contract.startOperation then
        if fence.state ≠ .clear ∨ fence.blockingExecutionId ≠ none then
          .error ⟨"Gitea runner token scope is already fenced.", "RPC_SCOPE_FENCE_BLOCKED"⟩
        else .ok (site.setFence (c.canonicalScope P) (fence.acquire c.pk generation now))
      else if c.operation P = "reconcile" then
        if fence.state = .clear ∨ fence.blockingExecutionId = none ∨
            fence.reconciliationExecutionId ≠ none then
          .error ⟨"Gitea runner token scope has no blocked operation.", "RPC_SCOPE_FENCE_CLEAR"⟩
        else if !fence.isQuiescent site.executions now then
          .error ⟨"Gitea runner scope is still inside its remote-operation safety window.",
            "RPC_SCOPE_FENCE_BUSY"⟩
        else do
          let site ← if fence.state = .pending then
              failLostWorker P now site fence.blockingExecutionId
            else .ok site
          return site.setFence (c.canonicalScope P) (fence.takeOver c.pk generation now)
      else .error ⟨"Gitea runner lifecycle operation is invalid.", "RPC_PARAM_INVALID"⟩

/-! ## Ownership -/

def requireFenceOwnership (fence : ScopeFence) (c : RunnerCall) : Except RPCExecutionError Unit :=
  if ¬ (Json.int fence.takeoverGeneration).PyEq (valueOf c.normalized "fence_generation") then
    .error (fenceChanged "Gitea runner scope fence generation differs.")
  else if c.operation P = c.contract.startOperation ∧
      (fence.blockingExecutionId ≠ some c.pk ∨ fence.reconciliationExecutionId ≠ none) then
    .error (fenceChanged "Gitea runner scope fence ownership differs.")
  else if c.operation P = "reconcile" ∧ fence.reconciliationExecutionId ≠ some c.pk then
    .error (fenceChanged "Gitea runner reconciliation fence ownership differs.")
  else .ok ()

/-- `objects.get` without a row; the error carries no code of its own. -/
def fenceDoesNotExist : RPCExecutionError :=
  ⟨"RPCGiteaRunnerScopeFence matching query does not exist.", "RPC_EXECUTION_FAILED"⟩

/-! ## Blocking -/

def ScopeFence.block (fence : ScopeFence) (operation : String) (now : DateTime) : ScopeFence :=
  { fence with
    state := .blocked
    reconciliationExecutionId :=
      if operation = "reconcile" then none else fence.reconciliationExecutionId
    lastUpdated := now }

def blockGiteaRunnerScope (now : DateTime) (site : RunnerSite) (c : RunnerCall) :
    Except RPCExecutionError RunnerSite :=
  match site.fences (c.canonicalScope P) with
  | none => .error fenceDoesNotExist
  | some fence => do
    requireFenceOwnership P fence c
    return site.setFence (c.canonicalScope P) (fence.block (c.operation P) now)

/-! ## Recording -/

/-- The result of a response that passes the closed contract of the call. -/
def acceptedResult (c : RunnerCall) (response : Entries) : Option Entries :=
  match Json.find response "result", Json.find response "ok" with
  | some (.obj result), some (.bool ok) =>
    if response.all (fun e => e.1 == "ok" || e.1 == "result") = true ∧
        Json.find result "ok" = some (.bool ok) ∧
        P.schemaError c.contract.resultSchema (.obj result) = none ∧
        (valueOf result "operation").PyEq (.str (c.operation P)) ∧
        (valueOf result "scope").PyEq (.str (textOr P c.normalized "scope" "")) ∧
        (valueOf result "fence_execution_id").PyEq (valueOf c.normalized "fence_execution_id") ∧
        (valueOf result "fence_generation").PyEq (valueOf c.normalized "fence_generation") ∧
        (c.contract = .giteaOrgCiRunner →
          (valueOf result "lane").PyEq (valueOf c.normalized "lane")) then some result
    else none
  | _, _ => none

def tokenlessStages : List String := ["generate_token", "preconditions", "docker", "image", "config"]

/-- `clear_without_token`: a start operation that failed before it held a token. -/
def clearWithoutToken (c : RunnerCall) (result : Entries) : Bool :=
  c.operation P == c.contract.startOperation &&
    tokenlessStages.any (fun stage => valueOf result "stage" == .str stage) &&
    valueOf result "token_sha256" == .null &&
    valueOf result "token_reset_required" == .bool false

def resetProven (result : Entries) : Bool :=
  valueOf result "token_invalidated" == .bool true &&
    valueOf result "token_reset_required" == .bool false

def ScopeFence.settle (fence : ScopeFence) (c : RunnerCall) (result : Entries) (now : DateTime) :
    ScopeFence :=
  let expected := match valueOf result "token_sha256" with
    | .str token => if c.operation P = c.contract.startOperation then token
        else fence.expectedTokenSha256
    | _ => fence.expectedTokenSha256
  let fence := { fence with
    expectedTokenSha256 := expected
    lastResetState := textOr P result "reset_state" ""
    lastPriorTokenId := valueOf result "prior_token_id"
    lastReplacementTokenId := valueOf result "replacement_token_id"
    lastPriorActiveSha256 := textOr P result "prior_active_sha256" ""
    lastUpdated := now }
  if clearWithoutToken P c result || resetProven result then
    { fence with state := .clear, blockingExecutionId := none, reconciliationExecutionId := none,
                 expectedTokenSha256 := "" }
  else fence.block (c.operation P) now

def ScopeFence.fitsColumns (fence : ScopeFence) : Bool :=
  [fence.expectedTokenSha256, fence.lastResetState, fence.lastPriorActiveSha256].all
    (fun text => text.length ≤ 64)

/-- `RPCExecutionAggregate(execution).record_backend_response(response)` by an instance that holds
`copy` of the projected fields. -/
def recordBackendResponse (now : DateTime) (site : RunnerSite) (c : RunnerCall)
    (copy : ProjectionState) (response : Entries) :
    Except RPCExecutionError (RunnerSite × ProjectionState) :=
  if copy.status.isTerminal then
    .error ⟨"Cannot transition execution from terminal status '" ++ copy.status.value ++ "'.",
      "RPC_EXECUTION_FAILED"⟩
  else if copy.status ≠ .running then
    .error ⟨"Only a running execution can record a backend response.", "RPC_EXECUTION_FAILED"⟩
  else match site.executions c.pk, backendResponseEvents P c.context response (.time now) with
    | some e, some events =>
      let s := appendAll P c.context (copy, e.ledger) events
      .ok (site.setExecution c.pk { e with ledger := s.2 }, s.1)
    | _, _ => .error ⟨"The response could not be recorded.", "RPC_EXECUTION_FAILED"⟩

def recordGiteaRunnerResponse (now : DateTime) (site : RunnerSite) (c : RunnerCall)
    (copy : ProjectionState) (response : Entries) :
    Except RPCExecutionError (RunnerSite × ProjectionState) :=
  match acceptedResult P c response with
  | none => .error ⟨"Gitea runner backend response does not match its closed contract.",
      "RPC_BACKEND_BAD_RESPONSE"⟩
  | some result =>
    if c.operation P = "reconcile" ∧ ¬ (valueOf result "token_sha256").PyEq
        (valueOf c.normalized "fence_expected_sha256") then
      .error (fenceChanged "Gitea runner reconciliation proof does not match the scope fence.")
    else match site.fences (c.canonicalScope P) with
      | none => .error fenceDoesNotExist
      | some fence => do
        requireFenceOwnership P fence c
        let settled := fence.settle P c result now
        if settled.fitsColumns then
          recordBackendResponse P now (site.setFence (c.canonicalScope P) settled) c copy response
        else .error ⟨"value too long for type character varying(64)", "RPC_EXECUTION_FAILED"⟩

end

/-! ## What a committed transaction did -/

theorem eq_ok_of_toOption {ε α : Type} {x : Except ε α} {a : α} (h : x.toOption = some a) :
    x = .ok a := by
  cases x with
  | error e => cases h
  | ok b => cases h; rfl

theorem exists_of_bind_ok {ε α β : Type} {x : Except ε α} {f : α → Except ε β} {b : β}
    (h : x >>= f = .ok b) : ∃ a, x = .ok a ∧ f a = .ok b := by
  cases x with
  | error e => cases h
  | ok a => exact ⟨a, rfl, h⟩

section

variable {P : Platform} {now : DateTime} {site after : RunnerSite} {c : RunnerCall}
  {fence : ScopeFence}

structure ScopeFence.OwnedBy (P : Platform) (fence : ScopeFence) (c : RunnerCall) : Prop where
  generation : (Json.int fence.takeoverGeneration).PyEq (valueOf c.normalized "fence_generation")
  start : c.operation P = c.contract.startOperation →
    fence.blockingExecutionId = some c.pk ∧ fence.reconciliationExecutionId = none
  reconcile : c.operation P = "reconcile" → fence.reconciliationExecutionId = some c.pk

theorem requireFenceOwnership_iff :
    requireFenceOwnership P fence c = .ok () ↔ fence.OwnedBy P c := by
  unfold requireFenceOwnership
  constructor
  · intro h
    split_ifs at h with hgeneration hstart hreconcile
    refine ⟨hgeneration, fun hop => ?_, fun hop => ?_⟩
    · by_contra hnot
      exact hstart ⟨hop, by tauto⟩
    · by_contra hnot
      exact hreconcile ⟨hop, hnot⟩
  · rintro ⟨hgeneration, hstart, hreconcile⟩
    rw [if_neg (not_not.mpr hgeneration), if_neg (fun h => ?_), if_neg (fun h => ?_)]
    · exact h.2 (hreconcile h.1)
    · obtain ⟨hblocking, hnone⟩ := hstart h.1
      rcases h.2 with hne | hne
      · exact hne hblocking
      · exact hne hnone

theorem RunnerContract.startOperation_ne (contract : RunnerContract) :
    contract.startOperation ≠ "reconcile" := by
  cases contract <;> decide

theorem approvedGeneration_eq_some {normalized : Entries} {generation : ℕ}
    (h : fence.approvedGeneration P normalized = some generation) :
    generation = fence.takeoverGeneration + 1 ∧ generation ≤ jsSafeIntegerMax := by
  unfold ScopeFence.approvedGeneration at h
  split at h
  · split_ifs at h with hall
    obtain ⟨-, -, -, hnext, hle⟩ := hall
    cases h
    omega
  · cases h

inductive Reserved (P : Platform) (now : DateTime) (site : RunnerSite) (c : RunnerCall) :
    RunnerSite → Prop
  | started {fence : ScopeFence} {generation : ℕ}
      (hfence : site.fences (c.canonicalScope P) = some fence)
      (hgeneration : fence.approvedGeneration P c.normalized = some generation)
      (hop : c.operation P = c.contract.startOperation) (hstate : fence.state = .clear)
      (hblocking : fence.blockingExecutionId = none) :
      Reserved P now site c
        (site.setFence (c.canonicalScope P) (fence.acquire c.pk generation now))
  | takenOver {fence : ScopeFence} {generation : ℕ} {site' : RunnerSite}
      (hfence : site.fences (c.canonicalScope P) = some fence)
      (hgeneration : fence.approvedGeneration P c.normalized = some generation)
      (hop : c.operation P = "reconcile") (hstate : fence.state ≠ .clear)
      (hblocking : fence.blockingExecutionId ≠ none)
      (hreconciliation : fence.reconciliationExecutionId = none)
      (hquiescent : fence.isQuiescent site.executions now = true)
      (hlost : fence.state = .pending ∧
          failLostWorker P now site fence.blockingExecutionId = .ok site' ∨
        fence.state ≠ .pending ∧ site' = site) :
      Reserved P now site c
        (site'.setFence (c.canonicalScope P) (fence.takeOver c.pk generation now))

theorem Reserved.of_reserve (h : reserveGiteaRunnerScope P now site c = .ok after) :
    Reserved P now site c after := by
  unfold reserveGiteaRunnerScope at h
  split at h
  · cases h
  rename_i fence hfence
  split at h
  · cases h
  rename_i generation hgeneration
  split_ifs at h with hop hheld hreconcile hnone hquiescent hpending
  · cases h
    simp only [ne_eq, not_or, not_not] at hheld
    exact .started hfence hgeneration hop hheld.1 hheld.2
  · simp only [ne_eq, not_or, not_not] at hnone
    cases hlost : failLostWorker P now site fence.blockingExecutionId with
    | error e => rw [hlost] at h; cases h
    | ok site' =>
      rw [hlost] at h
      cases h
      exact .takenOver hfence hgeneration hreconcile hnone.1 hnone.2.1 hnone.2.2 (by simpa using hquiescent)
        (.inl ⟨hpending, hlost⟩)
  · simp only [ne_eq, not_or, not_not] at hnone
    cases h
    exact .takenOver hfence hgeneration hreconcile hnone.1 hnone.2.1 hnone.2.2 (by simpa using hquiescent)
      (.inr ⟨hpending, rfl⟩)

theorem Reserved.reserve (h : Reserved P now site c after) :
    reserveGiteaRunnerScope P now site c = .ok after := by
  cases h with
  | started hfence hgeneration hop hstate hblocking =>
    simp [reserveGiteaRunnerScope, hfence, hgeneration, hop, hstate, hblocking]
  | takenOver hfence hgeneration hop hstate hblocking hreconciliation hquiescent hlost =>
    have hne : c.operation P ≠ c.contract.startOperation := by
      rw [hop]
      exact c.contract.startOperation_ne.symm
    rcases hlost with ⟨hpending, hlost⟩ | ⟨hpending, rfl⟩
    · rw [hop] at hne
      simp [reserveGiteaRunnerScope, hfence, hgeneration, hop, hne, hblocking, hreconciliation, hquiescent,
        hpending, hlost, bind, Except.bind, pure, Except.pure]
    · rw [hop] at hne
      simp [reserveGiteaRunnerScope, hfence, hgeneration, hop, hne, hstate, hblocking, hreconciliation,
        hquiescent, hpending, bind, Except.bind, pure, Except.pure]

theorem fences_failLostWorker {blocking : Option ℕ}
    (h : failLostWorker P now site blocking = .ok after) : after.fences = site.fences := by
  unfold failLostWorker at h
  split at h
  · cases h
  split at h
  · cases h
  split_ifs at h <;> cases h <;> rfl

theorem blockGiteaRunnerScope_iff :
    blockGiteaRunnerScope P now site c = .ok after ↔
      ∃ fence, site.fences (c.canonicalScope P) = some fence ∧ fence.OwnedBy P c ∧
        after = site.setFence (c.canonicalScope P) (fence.block (c.operation P) now) := by
  unfold blockGiteaRunnerScope
  cases hfence : site.fences (c.canonicalScope P) with
  | none => simp
  | some fence =>
    cases howned : requireFenceOwnership P fence c with
    | error e =>
      have hnot : ¬ fence.OwnedBy P c := fun h => by
        rw [requireFenceOwnership_iff.mpr h] at howned
        cases howned
      simp [howned, hnot, bind, Except.bind]
    | ok u =>
      have hyes := requireFenceOwnership_iff.mp howned
      simp [howned, hyes, bind, Except.bind, pure, Except.pure, eq_comm]

theorem recordBackendResponse_iff {copy copy' : ProjectionState} {response : Entries} :
    recordBackendResponse P now site c copy response = .ok (after, copy') ↔
      copy.status = .running ∧ ∃ e events, site.executions c.pk = some e ∧
        backendResponseEvents P c.context response (.time now) = some events ∧
        after = site.setExecution c.pk
          { e with ledger := (appendAll P c.context (copy, e.ledger) events).2 } ∧
        copy' = (appendAll P c.context (copy, e.ledger) events).1 := by
  unfold recordBackendResponse
  by_cases hrunning : copy.status = .running
  · cases he : site.executions c.pk with
    | none => simp [hrunning, ExecutionStatus.isTerminal]
    | some e =>
      cases hevents : backendResponseEvents P c.context response (.time now) with
      | none => simp [hrunning, ExecutionStatus.isTerminal]
      | some events =>
        simp [hrunning, ExecutionStatus.isTerminal, eq_comm]
  · simp only [hrunning, false_and, iff_false]
    split_ifs <;> simp

structure Accepted (P : Platform) (c : RunnerCall) (response result : Entries) : Prop where
  envelope : ∃ ok, Json.find response "ok" = some (.bool ok) ∧
    Json.find result "ok" = some (.bool ok)
  carries : Json.find response "result" = some (.obj result)
  valid : P.schemaError c.contract.resultSchema (.obj result) = none
  operation : (valueOf result "operation").PyEq (.str (c.operation P))
  scope : (valueOf result "scope").PyEq (.str (textOr P c.normalized "scope" ""))
  owner : (valueOf result "fence_execution_id").PyEq (valueOf c.normalized "fence_execution_id")
  generation : (valueOf result "fence_generation").PyEq (valueOf c.normalized "fence_generation")

theorem Accepted.of_acceptedResult {response result : Entries}
    (h : acceptedResult P c response = some result) : Accepted P c response result := by
  unfold acceptedResult at h
  split at h
  · rename_i result' ok hresult hok
    split_ifs at h with hall
    obtain ⟨-, hinner, hvalid, hoperation, hscope, howner, hgeneration, -⟩ := hall
    cases h
    exact ⟨⟨ok, hok, hinner⟩, hresult, hvalid, hoperation, hscope, howner, hgeneration⟩
  · cases h

theorem recordGiteaRunnerResponse_iff {copy copy' : ProjectionState} {response : Entries} :
    recordGiteaRunnerResponse P now site c copy response = .ok (after, copy') ↔
      ∃ result fence, acceptedResult P c response = some result ∧
        (c.operation P = "reconcile" → (valueOf result "token_sha256").PyEq
          (valueOf c.normalized "fence_expected_sha256")) ∧
        site.fences (c.canonicalScope P) = some fence ∧ fence.OwnedBy P c ∧
        (fence.settle P c result now).fitsColumns = true ∧
        recordBackendResponse P now (site.setFence (c.canonicalScope P)
          (fence.settle P c result now)) c copy response = .ok (after, copy') := by
  unfold recordGiteaRunnerResponse
  cases hresult : acceptedResult P c response with
  | none => simp
  | some result =>
    dsimp only
    by_cases hproof : c.operation P = "reconcile" → (valueOf result "token_sha256").PyEq
        (valueOf c.normalized "fence_expected_sha256")
    · rw [if_neg (fun h => h.2 (hproof h.1))]
      cases hfence : site.fences (c.canonicalScope P) with
      | none => simp
      | some fence =>
        cases howned : requireFenceOwnership P fence c with
        | error e =>
          have hnot : ¬ fence.OwnedBy P c := fun h => by
            rw [requireFenceOwnership_iff.mpr h] at howned
            cases howned
          simp [howned, hnot, bind, Except.bind]
        | ok u =>
          have hyes := requireFenceOwnership_iff.mp howned
          by_cases hfits : (fence.settle P c result now).fitsColumns = true
          · simp only [howned, hfits, bind, Except.bind, if_true]
            constructor
            · intro h
              exact ⟨result, fence, rfl, hproof, rfl, hyes, hfits, h⟩
            · rintro ⟨_, _, ⟨⟩, -, ⟨⟩, -, -, h⟩
              exact h
          · simp [howned, hyes, hfits, bind, Except.bind]
    · rw [if_pos (by tauto)]
      simp [hproof]

end

end NetboxRpc
