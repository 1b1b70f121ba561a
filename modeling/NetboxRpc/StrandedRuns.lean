import Mathlib.Data.List.ReduceOption
import NetboxRpc.FailedRecording
import NetboxRpc.Raising
import NetboxRpc.TerminalAbsorption

/-!
# Runs that strand an execution

`run_execution` after its claim has committed, step by step, with every exception a step can raise.
The settings read and the backend selection stand before the `try` block, the handler catches
`Exception` only, and `fail` is refused when the execution object is already terminal: the object
of a response whose recording failed at the save or at the commit.
-/

namespace NetboxRpc

open Raising

inductive ExceptionClass
  /-- `TypeError`, `ValueError` and the serializers' `ValidationError`. -/
  | binding
  | exception
  /-- Not an `Exception`: `KeyboardInterrupt`, `SystemExit`. -/
  | base
deriving DecidableEq, Repr

structure Raised where
  cls : ExceptionClass
  /-- `str(exc)`. -/
  message : String
  /-- `exc.code`, if there is one. -/
  code : Option Json

def Raised.failureCode (exc : Raised) : String :=
  match exc.code with
  | some (.str s) => s
  | _ => "RPC_EXECUTION_FAILED"

inductive Breakpoint
  | operation (fault : Fault)
  | commit
deriving DecidableEq, Repr

def Breakpoint.isLate : Breakpoint → Bool
  | .operation fault => fault.operation = .save
  | .commit => true

inductive RunStep
  | settings
  | selection
  | backendGuard
  | resolution
  | dispatchGuard
  | normalization
  | approvalGuard
  | approval
  | parameterRecording (at_ : Breakpoint)
  | leaseIssue
  | leaseRecording (at_ : Breakpoint)
  | leaseRequirement
  | reservation
  | backendCall
  | responseContract
  | responseRecording (at_ : Breakpoint)
  | scopeBlock
deriving DecidableEq, Repr

/-- What each step gives or raises, as far as that is decided outside the function. -/
structure Dispatch where
  enabled : Except Raised Bool
  selection : Option Raised
  backendGuard : Option Raised
  resolution : Option Raised
  dispatchGuard : Option Raised
  normalized : Except Raised Entries
  approvalGuard : Option Raised
  approval : Option Raised
  parameterRecording : Option (Breakpoint × Raised)
  lease : Except Raised (Option LeaseClaims)
  leaseRecording : Option (Breakpoint × Raised)
  reservation : Option Raised
  response : Except Raised Entries
  /-- Raised by the checks of a response before it is recorded. -/
  responseContract : Option Raised
  responseRecording : Option (Breakpoint × Raised)
  scopeBlock : Option Raised
  now : DateTime

structure RunState where
  copy : ProjectionState
  ledger : Ledger

abbrev RunM := EStateM (RunStep × Raised) RunState

namespace RunM

def check (step : RunStep) (outcome : Option Raised) : RunM Unit :=
  match outcome with
  | none => pure ()
  | some exc => throw (step, exc)

def value {α : Type} (step : RunStep) (outcome : Except Raised α) : RunM α :=
  lift (outcome.mapError fun exc => (step, exc))

def record (P : Platform) (ctx : ExecutionContext) (step : Breakpoint → RunStep)
    (failure : Option (Breakpoint × Raised)) (call : RecordCall) : RunM Unit := fun s =>
  match failure with
  | none =>
    let r := call.attempt P ctx s.copy s.ledger none
    .ok () ⟨r.copy, r.ledger⟩
  | some (.operation fault, exc) =>
    let r := call.attempt P ctx s.copy s.ledger (some fault)
    if r.raised then .error (step (.operation fault), exc) ⟨r.copy, r.ledger⟩
    else .ok () ⟨r.copy, r.ledger⟩
  | some (.commit, exc) =>
    let r := call.attempt P ctx s.copy s.ledger none
    .error (step .commit, exc) ⟨r.copy, s.ledger⟩

end RunM

section

variable (S : Site) (req : ExecutionRequest) (p : Procedure)

def claimExecution (ledger : Ledger) (now : DateTime) : Option RunState :=
  if ledger.row.status = .queued then
    let s := appendAll S.platform (executionContext req p) (ledger.row, ledger)
      [.executionStarted (.time now)]
    some ⟨s.1, s.2⟩
  else none

def RunState.fail (s : RunState) (message code : String) (now : DateTime) : RunState :=
  if ensureNotTerminal s.copy then
    let r := appendAll S.platform (executionContext req p) (s.copy, s.ledger)
      [.executionFailed message code (.time now) []]
    ⟨r.1, r.2⟩
  else s

def leaseRequired : Raised where
  cls := .exception
  message := S.protectedLabel p.name ++ " requires a signed one-time dispatch lease."
  code := some (.str "RPC_DISPATCH_LEASE_REQUIRED")

def unhashableState : Raised := ⟨.binding, "unhashable type", none⟩

def prepareDispatch (d : Dispatch) : RunM Unit := do
  let P := S.platform
  let ctx := executionContext req p
  RunM.check .dispatchGuard d.dispatchGuard
  let normalized ← RunM.value .normalization d.normalized
  RunM.check .approvalGuard d.approvalGuard
  RunM.check .approval (if isProtected p.name then d.approval else none)
  RunM.record P ctx .parameterRecording d.parameterRecording
    (.executionNormalized normalized (hashJson P (valueOf normalized "command_fingerprint")))
  let lease ← RunM.value .leaseIssue d.lease
  match lease with
  | some c =>
    let s ← get
    RunM.record P ctx .leaseRecording d.leaseRecording (.dispatchLeaseIssued c.nonce c.keyId
      c.keyVersion (currentStreamVersion s.ledger.events) c.audience c.expiresAt 1)
  | none =>
    RunM.check .leaseRequirement
      (if requiresSignedDispatch req p.name then some (leaseRequired S p) else none)

def isRunnerScopeProcedure (name : String) : Bool :=
  name = giteaRunnerRegister || name = giteaOrgCiRunnerProvision

def callAndRecord (d : Dispatch) : RunM Unit := do
  let P := S.platform
  let ctx := executionContext req p
  let response ← RunM.value .backendCall d.response
  RunM.check .responseContract d.responseContract
  RunM.check .responseContract
    (if (backendResponseEvents P ctx response (.time d.now)).isNone then some unhashableState
      else none)
  RunM.record P ctx .responseRecording d.responseRecording (.backendResponse response d.now)

def beforeReservation (d : Dispatch) : RunM Unit := do
  RunM.check .backendGuard d.backendGuard
  RunM.check .resolution d.resolution
  prepareDispatch S req p d
  RunM.check .reservation (if isRunnerScopeProcedure p.name then d.reservation else none)

def scopeBlockEscape (d : Dispatch) (reserved : Bool) : Option Raised :=
  if reserved then d.scopeBlock.filter fun exc => exc.cls = .base else none

def handleFailure (d : Dispatch) (reserved : Bool) (raised : RunStep × Raised) (s : RunState) :
    EStateM.Result (RunStep × Raised) RunState Unit :=
  if raised.2.cls = .base then .error raised s
  else
    match scopeBlockEscape d reserved with
    | some exc => .error (.scopeBlock, exc) s
    | none => .error raised (s.fail S req p raised.2.message raised.2.failureCode d.now)

def dispatch (d : Dispatch) : RunM Unit := fun s =>
  match beforeReservation S req p d s with
  | .error raised s => handleFailure S req p d false raised s
  | .ok () s =>
    match callAndRecord S req p d s with
    | .error raised s => handleFailure S req p d (isRunnerScopeProcedure p.name) raised s
    | .ok () s => .ok () s

/-- `_select_backend`: a binding error fails the execution and is raised as such. -/
def selectBackend (d : Dispatch) : RunM Unit := fun s =>
  match if isProtected p.name then d.selection else none with
  | none => .ok () s
  | some exc =>
    if exc.cls = .binding then
      let message := S.protectedLabel p.name ++ " backend binding is invalid."
      .error (.selection, exc) (s.fail S req p message "RPC_BACKEND_BINDING_INVALID" d.now)
    else .error (.selection, exc) s

/-- `run_execution` from its committed claim on. -/
def runExecution (d : Dispatch) : RunM Unit := do
  let enabled ← RunM.value .settings d.enabled
  if enabled then
    selectBackend S req p d
    dispatch S req p d
  else
    modify fun s => s.fail S req p
      "The netbox-rpc integration is disabled; execution not dispatched."
      "RPC_INTEGRATION_DISABLED" d.now

end

/-! ## Where an execution is left -/

def lastStatus (events : List EventRecord) : Option ExecutionStatus :=
  (statuses events).reduceOption.getLast?

def Ledger.EndsTerminal (ledger : Ledger) : Prop :=
  (lastStatus ledger.events).any ExecutionStatus.isTerminal = true

/-- The exceptions after which the execution has a terminal event. -/
def RunStep.isHandled : RunStep → Raised → Bool
  | .settings, _ => false
  | .selection, exc => exc.cls = .binding
  | .responseRecording at_, exc => exc.cls ≠ .base && !at_.isLate
  | .scopeBlock, _ => false
  | _, exc => exc.cls ≠ .base

def RunStep.isTried : RunStep → Bool
  | .settings | .selection | .scopeBlock => false
  | _ => true

/-- A recording that failed after the object had become terminal. -/
def RunStep.isLate : RunStep → Bool
  | .responseRecording at_ => at_.isLate
  | _ => false

theorem RunStep.isHandled_of_isTried {step : RunStep} (h : step.isTried = true) (exc : Raised) :
    step.isHandled exc = (exc.cls ≠ .base && !step.isLate) := by
  cases step with
  | settings | selection | scopeBlock => cases h
  | _ => simp [isHandled, isLate]

def RunState.Running (s : RunState) : Prop :=
  s.copy.status = .running ∧ lastStatus s.ledger.events = some .running

def Interrupted (raised : RunStep × Raised) (s : RunState) : Prop :=
  raised.1.isTried = true ∧ lastStatus s.ledger.events = some .running ∧
    ensureNotTerminal s.copy = !raised.1.isLate

theorem RunState.Running.interrupted {s : RunState} (h : s.Running) {raised : RunStep × Raised}
    (htried : raised.1.isTried = true) (hearly : raised.1.isLate = false) :
    Interrupted raised s := by
  refine ⟨htried, h.2, ?_⟩
  rw [hearly, ensureNotTerminal, h.1]
  rfl

theorem not_endsTerminal_of_running {ledger : Ledger}
    (h : lastStatus ledger.events = some .running) : ¬ledger.EndsTerminal := by
  unfold Ledger.EndsTerminal
  rw [h]
  simp [ExecutionStatus.isTerminal]

/-! ### What appends do to the last status -/

section

variable {P : Platform} {ctx : ExecutionContext} {s : ProjectionState × Ledger}

theorem lastStatus_appendAll_of_silent {es : List DomainEvent} (hw : ∀ e ∈ es, e.WellNamed)
    (hes : ∀ e ∈ es, e.type.status = none) :
    lastStatus (appendAll P ctx s es).2.events = lastStatus s.2.events := by
  have hnone : (es.map fun e => e.type.status).reduceOption = [] := by
    rw [List.reduceOption, List.filterMap_eq_nil_iff]
    intro a ha
    obtain ⟨e, he, rfl⟩ := List.mem_map.mp ha
    exact hes e he
  rw [lastStatus, statuses_appendAll hw, List.reduceOption_append, hnone, List.append_nil]
  rfl

theorem lastStatus_appendAll_last {es : List DomainEvent} {last : DomainEvent}
    {t : ExecutionStatus} (hw : ∀ e ∈ es ++ [last], e.WellNamed)
    (hlast : last.type.status = some t) :
    lastStatus (appendAll P ctx s (es ++ [last])).2.events = some t := by
  have hend : ((es ++ [last]).map fun e => e.type.status).reduceOption =
      (es.map fun e => e.type.status).reduceOption ++ [t] := by
    rw [List.map_append, List.reduceOption_append, List.map_singleton, hlast]
    rfl
  rw [lastStatus, statuses_appendAll hw, List.reduceOption_append, hend, ← List.append_assoc,
    List.getLast?_concat]

end

/-! ### Steps of the block -/

open RunM

theorem triple_check {step : RunStep} {outcome : Option Raised} (htried : step.isTried = true)
    (hearly : step.isLate = false) :
    Triple RunState.Running (check step outcome) (fun _ => RunState.Running) Interrupted := by
  cases outcome with
  | none => exact triple_pure fun s hs => hs
  | some exc => exact triple_throw fun s hs => hs.interrupted htried hearly

theorem triple_value {α : Type} {step : RunStep} {outcome : Except Raised α}
    (htried : step.isTried = true) (hearly : step.isLate = false) :
    Triple RunState.Running (value step outcome) (fun _ => RunState.Running) Interrupted := by
  cases outcome with
  | ok a => exact triple_pure fun s hs => hs
  | error exc => exact triple_throw fun s hs => hs.interrupted htried hearly

theorem RecordCall.attempt_none (P : Platform) (ctx : ExecutionContext) (call : RecordCall)
    (copy : ProjectionState) (ledger : Ledger) :
    call.attempt P ctx copy ledger none =
      ⟨(appendAll P ctx (copy, ledger) (call.events P ctx)).1,
        (appendAll P ctx (copy, ledger) (call.events P ctx)).2, false⟩ := by
  rw [RecordCall.attempt, appendUntil_none]

section

variable {P : Platform} {ctx : ExecutionContext}

theorem RunState.Running.append_silent {s : RunState} (hs : s.Running) {es : List DomainEvent}
    (hw : ∀ e ∈ es, e.WellNamed) (hes : ∀ e ∈ es, e.type.status = none) :
    (appendAll P ctx (s.copy, s.ledger) es).1.status = .running ∧
      lastStatus (appendAll P ctx (s.copy, s.ledger) es).2.events = some .running := by
  rw [(status_appendAll_of_silent P ctx hes).1, lastStatus_appendAll_of_silent hw hes]
  exact hs

theorem triple_record_silent {step : Breakpoint → RunStep} {failure : Option (Breakpoint × Raised)}
    {call : RecordCall} (hes : ∀ e ∈ call.events P ctx, e.type.status = none)
    (htried : ∀ at_, (step at_).isTried = true) (hearly : ∀ at_, (step at_).isLate = false) :
    Triple RunState.Running (record P ctx step failure call) (fun _ => RunState.Running)
      Interrupted := by
  intro s hs
  obtain ⟨hcopy, hlast⟩ := hs.append_silent (call.events_wellNamed P ctx) hes
  have hrolled : RunState.Running
      ⟨(appendAll P ctx (s.copy, s.ledger) (call.events P ctx)).1, s.ledger⟩ := ⟨hcopy, hs.2⟩
  rcases failure with _ | ⟨fault | _, exc⟩
  · change RunState.Running _
    rw [call.attempt_none]
    exact ⟨hcopy, hlast⟩
  · unfold RunM.record
    dsimp only
    cases call.ends_attempt s.copy s.ledger fault with
    | returns hraised hall =>
      rw [hraised, if_neg (by decide)]
      rw [hall] at hcopy hlast
      exact ⟨hcopy, hlast⟩
    | insertRaises hraised hledger _ hsame =>
      rw [hraised, if_pos rfl, hsame, hledger]
      exact hs.interrupted (htried _) (hearly _)
    | saveRaises hraised hledger _ hall _ =>
      rw [hraised, if_pos rfl, hall, hledger]
      exact hrolled.interrupted (htried _) (hearly _)
  · change Interrupted _ _
    rw [call.attempt_none]
    exact hrolled.interrupted (htried _) (hearly _)

theorem status_appendAll_last {s : ProjectionState × Ledger} {es : List DomainEvent}
    {last : DomainEvent} {t : ExecutionStatus} (hlast : last.type.status = some t) :
    (appendAll P ctx s (es ++ [last])).1.status = t := by
  rw [appendAll_append, appendAll_cons, appendAll_nil, status_appendAndProject_copy, hlast]
  rfl

theorem triple_record_response {failure : Option (Breakpoint × Raised)} {response : Entries}
    {now : DateTime} {events : List DomainEvent}
    (hevents : backendResponseEvents P ctx response (.time now) = some events) :
    Triple RunState.Running
      (record P ctx .responseRecording failure (.backendResponse response now))
      (fun _ s => s.ledger.EndsTerminal) Interrupted := by
  obtain ⟨progress, last, rfl, -, hterminal⟩ := exists_of_backendResponseEvents hevents
  obtain ⟨t, hstatus, ht⟩ := hterminal.status
  have hcall : (RecordCall.backendResponse response now).events P ctx = progress ++ [last] := by
    rw [RecordCall.events, hevents]
    rfl
  intro s hs
  have hends : (appendAll P ctx (s.copy, s.ledger) (progress ++ [last])).2.EndsTerminal := by
    rw [Ledger.EndsTerminal,
      lastStatus_appendAll_last (backendResponseEvents_wellNamed hevents) hstatus]
    exact ht
  -- the object is terminal, the rolled back ledger is not
  have hlate : ∀ raised : RunStep × Raised, raised.1.isTried = true → raised.1.isLate = true →
      Interrupted raised
        ⟨(appendAll P ctx (s.copy, s.ledger) (progress ++ [last])).1, s.ledger⟩ := by
    intro raised htried hlate
    refine ⟨htried, hs.2, ?_⟩
    rw [hlate, ensureNotTerminal, status_appendAll_last hstatus, ht]
  rcases failure with _ | ⟨fault | _, exc⟩
  · change Ledger.EndsTerminal _
    rw [RecordCall.attempt_none, hcall]
    exact hends
  · unfold RunM.record
    dsimp only
    cases (RecordCall.backendResponse response now).ends_attempt s.copy s.ledger fault with
    | returns hraised hall =>
      rw [hraised, if_neg (by decide)]
      rw [← hcall, hall] at hends
      exact hends
    | insertRaises hraised hledger hfault hsame =>
      rw [hraised, if_pos rfl, hsame, hledger]
      refine hs.interrupted rfl ?_
      rw [RunStep.isLate, Breakpoint.isLate, hfault]
      rfl
    | saveRaises hraised hledger hfault hall _ =>
      rw [hraised, if_pos rfl, hall, hledger, hcall]
      refine hlate _ rfl ?_
      rw [RunStep.isLate, Breakpoint.isLate, hfault]
      rfl
  · change Interrupted _ _
    rw [RecordCall.attempt_none, hcall]
    exact hlate _ rfl rfl

end

/-! ### The block and its handler -/

section

variable (S : Site) (req : ExecutionRequest) (p : Procedure)

theorem triple_prepareDispatch (d : Dispatch) :
    Triple RunState.Running (prepareDispatch S req p d) (fun _ => RunState.Running)
      Interrupted := by
  unfold prepareDispatch
  refine triple_bind (triple_check rfl rfl) fun _ => ?_
  refine triple_bind (triple_value rfl rfl) fun normalized => ?_
  refine triple_bind (triple_check rfl rfl) fun _ => ?_
  refine triple_bind (triple_check rfl rfl) fun _ => ?_
  refine triple_bind (triple_record_silent ?_ (fun _ => rfl) fun _ => rfl) fun _ => ?_
  · intro e he
    rw [List.mem_singleton.mp he]
    rfl
  refine triple_bind (triple_value rfl rfl) fun lease => ?_
  cases lease with
  | none => exact triple_check rfl rfl
  | some c =>
    have hget : Triple RunState.Running (get : RunM RunState) (fun _ => RunState.Running)
        Interrupted := fun s hs => hs
    refine triple_bind hget fun s => ?_
    refine triple_record_silent ?_ (fun _ => rfl) fun _ => rfl
    intro e he
    rw [List.mem_singleton.mp he]
    rfl

theorem triple_beforeReservation (d : Dispatch) :
    Triple RunState.Running (beforeReservation S req p d) (fun _ => RunState.Running)
      Interrupted := by
  unfold beforeReservation
  refine triple_bind (triple_check rfl rfl) fun _ => ?_
  refine triple_bind (triple_check rfl rfl) fun _ => ?_
  refine triple_bind (triple_prepareDispatch S req p d) fun _ => ?_
  exact triple_check rfl rfl

theorem triple_callAndRecord (d : Dispatch) :
    Triple RunState.Running (callAndRecord S req p d) (fun _ s => s.ledger.EndsTerminal)
      Interrupted := by
  unfold callAndRecord
  refine triple_bind (triple_value rfl rfl) fun response => ?_
  refine triple_bind (triple_check rfl rfl) fun _ => ?_
  cases hevents : backendResponseEvents S.platform (executionContext req p) response
      (.time d.now) with
  | none =>
    -- the check raises, so that the recorder is not reached
    exact fun s hs => hs.interrupted rfl rfl
  | some events =>
    refine triple_bind (triple_check rfl rfl) fun _ => ?_
    exact triple_record_response hevents

theorem endsTerminal_fail {s : RunState} (hopen : ensureNotTerminal s.copy = true)
    (message code : String) (now : DateTime) :
    (s.fail S req p message code now).ledger.EndsTerminal := by
  have hlast : lastStatus (s.fail S req p message code now).ledger.events = some .failed := by
    unfold RunState.fail
    rw [if_pos hopen]
    have hwell : ∀ e ∈ [] ++ [DomainEvent.executionFailed message code (.time now) []],
        e.WellNamed := by
      intro e he
      rw [List.mem_singleton.mp he]
      exact DomainEvent.wellNamed_of_status rfl
    exact lastStatus_appendAll_last hwell rfl
  rw [Ledger.EndsTerminal, hlast]
  rfl

theorem fail_of_terminal {s : RunState} (hclosed : ensureNotTerminal s.copy = false)
    (message code : String) (now : DateTime) : s.fail S req p message code now = s := by
  rw [RunState.fail, hclosed]
  rfl

abbrev Settles (r : EStateM.Result (RunStep × Raised) RunState Unit) : Prop :=
  Ended (fun _ s => s.ledger.EndsTerminal)
    (fun raised s => s.ledger.EndsTerminal ↔ raised.1.isHandled raised.2 = true) r

theorem settles_handleFailure (d : Dispatch) (reserved : Bool) {raised : RunStep × Raised}
    {s : RunState} (h : Interrupted raised s) :
    Settles (handleFailure S req p d reserved raised s) := by
  obtain ⟨htried, hlast, hcopy⟩ := h
  have hopen := not_endsTerminal_of_running hlast
  have hhandled := RunStep.isHandled_of_isTried htried raised.2
  unfold handleFailure
  by_cases hbase : raised.2.cls = .base
  · rw [if_pos hbase]
    refine iff_of_false hopen ?_
    rw [hhandled, hbase]
    simp
  · rw [if_neg hbase]
    cases scopeBlockEscape d reserved with
    | some exc => exact iff_of_false hopen Bool.false_ne_true
    | none =>
      cases hlate : raised.1.isLate with
      | false =>
        rw [hlate] at hcopy hhandled
        refine iff_of_true (endsTerminal_fail S req p hcopy _ _ _) ?_
        rw [hhandled]
        simpa using hbase
      | true =>
        rw [hlate] at hcopy hhandled
        rw [fail_of_terminal S req p hcopy]
        refine iff_of_false hopen ?_
        rw [hhandled]
        simp

theorem settles_dispatch (d : Dispatch) {s : RunState} (hs : s.Running) :
    Settles (dispatch S req p d s) := by
  have hbefore := triple_beforeReservation S req p d s hs
  unfold dispatch
  cases hrun : beforeReservation S req p d s with
  | error raised s' =>
    rw [hrun] at hbefore
    exact settles_handleFailure S req p d false hbefore
  | ok _ s' =>
    rw [hrun] at hbefore
    have hcall := triple_callAndRecord S req p d s' hbefore
    dsimp only
    cases hrest : callAndRecord S req p d s' with
    | error raised s'' =>
      rw [hrest] at hcall
      exact settles_handleFailure S req p d _ hcall
    | ok _ s'' =>
      rw [hrest] at hcall
      exact hcall

/-- The selection returns, or raises and is settled. -/
theorem triple_selectBackend (d : Dispatch) :
    Triple RunState.Running (selectBackend S req p d) (fun _ => RunState.Running)
      (fun raised s => s.ledger.EndsTerminal ↔ raised.1.isHandled raised.2 = true) := by
  intro s hs
  have hopen : ensureNotTerminal s.copy = true := by
    rw [ensureNotTerminal, hs.1]
    rfl
  unfold selectBackend
  cases (if isProtected p.name then d.selection else none) with
  | none => exact hs
  | some exc =>
    by_cases hbinding : exc.cls = .binding
    · dsimp only
      rw [if_pos hbinding]
      refine iff_of_true (endsTerminal_fail S req p hopen _ _ _) ?_
      simpa [RunStep.isHandled] using hbinding
    · dsimp only
      rw [if_neg hbinding]
      refine iff_of_false (not_endsTerminal_of_running hs.2) ?_
      simpa [RunStep.isHandled] using hbinding

theorem running_of_claimExecution {ledger : Ledger} {now : DateTime} {s : RunState}
    (h : claimExecution S req p ledger now = some s) : s.Running := by
  obtain ⟨-, hs⟩ := Option.ite_none_right_eq_some.mp h
  obtain rfl := Option.some.inj hs
  have hwell : ∀ e ∈ [] ++ [DomainEvent.executionStarted (.time now)], e.WellNamed := by
    intro e he
    rw [List.mem_singleton.mp he]
    exact DomainEvent.wellNamed_of_status rfl
  refine ⟨?_, lastStatus_appendAll_last hwell rfl⟩
  rw [appendAll_cons, appendAll_nil, status_appendAndProject_copy]
  rfl

end

/-- A run of `run_execution` whose claim committed and that returns leaves a terminal event. One
that raises leaves one exactly when the exception is handled: it is a binding error of the backend
selection, or an `Exception` of the `try` block other than that of a response recording whose save
or commit failed. -/
theorem run_execution_settles_iff (S : Site) (req : ExecutionRequest) (p : Procedure)
    (ledger : Ledger) (now : DateTime) (s : RunState)
    (hclaim : claimExecution S req p ledger now = some s) (d : Dispatch) :
    Settles (runExecution S req p d s) := by
  have hsettings : Triple RunState.Running (value .settings d.enabled) (fun _ => RunState.Running)
      (fun raised s => s.ledger.EndsTerminal ↔ raised.1.isHandled raised.2 = true) := by
    cases d.enabled with
    | ok enabled => exact triple_pure fun s hs => hs
    | error exc =>
      refine triple_throw fun s hs => ?_
      exact iff_of_false (not_endsTerminal_of_running hs.2) Bool.false_ne_true
  have hrun : Triple RunState.Running (runExecution S req p d)
      (fun _ s => s.ledger.EndsTerminal)
      (fun raised s => s.ledger.EndsTerminal ↔ raised.1.isHandled raised.2 = true) := by
    refine triple_bind hsettings fun enabled => ?_
    cases enabled with
    | true =>
      refine triple_bind (triple_selectBackend S req p d) fun _ => ?_
      exact fun s hs => settles_dispatch S req p d hs
    | false =>
      intro s hs
      refine endsTerminal_fail S req p ?_ _ _ _
      rw [ensureNotTerminal, hs.1]
      rfl
  exact hrun s (running_of_claimExecution S req p hclaim)

def plainDispatch : Dispatch where
  enabled := .ok true
  selection := none
  backendGuard := none
  resolution := none
  dispatchGuard := none
  normalized := .ok []
  approvalGuard := none
  approval := none
  parameterRecording := none
  lease := .ok none
  leaseRecording := none
  reservation := none
  response := .ok [("ok", .bool true)]
  responseContract := none
  responseRecording := none
  scopeBlock := none
  now := 0

def unreachableDispatch : Dispatch :=
  { plainDispatch with response := .error ⟨.exception, "connection refused", none⟩ }

theorem run_execution_settles_iff_unreachable : ∃ s s',
    claimExecution default default default freshLedger 0 = some s ∧
      runExecution default default default unreachableDispatch s =
        .error (.backendCall, ⟨.exception, "connection refused", none⟩) s' ∧
      s'.ledger.EndsTerminal := by
  have hclaim : claimExecution default default default freshLedger 0 = some _ := rfl
  have hsettles := run_execution_settles_iff default default default freshLedger 0 _ hclaim
    unreachableDispatch
  exact ⟨_, _, hclaim, rfl, hsettles.mpr rfl⟩

/-- The settings table cannot be read after the claim: the exception leaves `run_execution` with
the execution in `running`. -/
theorem settings_error_strands : ∃ s s',
    claimExecution default default default freshLedger 0 = some s ∧
      runExecution default default default
          { plainDispatch with enabled := .error ⟨.exception, "connection lost", none⟩ } s =
        .error (.settings, ⟨.exception, "connection lost", none⟩) s' ∧
      lastStatus s'.ledger.events = some .running := by
  have hclaim : claimExecution default default default freshLedger 0 = some _ := rfl
  have hrunning := running_of_claimExecution default default default hclaim
  exact ⟨_, _, hclaim, rfl, hrunning.2⟩

end NetboxRpc
