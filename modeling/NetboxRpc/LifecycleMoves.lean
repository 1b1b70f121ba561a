import NetboxRpc.Lifecycle

/-!
# What a step of the lifecycle can do

`Move` says once, with the guards, what a performed action does to the world. Every invariant of
the lifecycle is proved over its constructors.
-/

namespace NetboxRpc

inductive DomainEvent.IsDecision : DomainEvent → Prop
  | approved (userId : ℤ) (hash : String) (at_ : Stamp) (reason : String) :
      IsDecision (.executionApproved (.int userId) hash at_ reason)
  | rejected (by_ : Json) (at_ : Stamp) (reason : String) :
      IsDecision (.executionRejected by_ at_ reason)
  | expired (at_ : Stamp) (reason : String) : IsDecision (.executionExpired at_ reason)

inductive Worker.Advances (req : ExecutionRequest) (x : Worker) : Phase → Prop
  | admitted (h : x.phase = .claimed) : Advances req x .admitted
  | leased (h : x.phase = .prepared)
      (hunsigned : requiresSignedDispatch req x.procedure.name = false) : Advances req x .leased
  | failing (h : x.phase = .prepared) : Advances req x .failing
  | ended : Advances req x .ended

/-- The transactions that a worker makes on its own copy between its claim and its end. -/
inductive Work (S : Site) (req : ExecutionRequest) (w : World) (x : Worker) :
    Action → Worker → List DomainEvent → Phase → Prop
  | prepare (i : ℕ) (raw : Entries) (target : BackendTarget) (fate : Fate) (payload : Option Json)
      (hash : String) (hphase : x.phase = .admitted)
      (happroval : isProtected x.procedure.name = true → payload.isSome ∧
        currentProtectedApproval S req w x (ledgerNormalizedParams S.platform raw) target =
          payload) :
      Work S req w x (.prepare i raw target fate) { x with payload := payload }
        [.parametersNormalized (ledgerNormalizedParams S.platform raw) hash] .prepared
  | lease (i : ℕ) (claims : LeaseClaims) (fate : Fate) (hphase : x.phase = .prepared) :
      Work S req w x (.lease i (some claims) fate) x
        [.dispatchLeaseIssued claims.nonce claims.keyId claims.keyVersion
          (currentStreamVersion w.ledger.events) claims.audience claims.expiresAt 1] .leased
  | record (i : ℕ) (response : Entries) (fate : Fate) (now : DateTime) (events : List DomainEvent)
      (hphase : x.phase = .called)
      (hevents : backendResponseEvents S.platform (executionContext req x.procedure) response
        (.time now) = some events) :
      Work S req w x (.record i response fate now) x events .ended

def Action.failure? : Action → Option (ℕ × Fate)
  | .settingsDisabled i fate _ | .bindingInvalid i fate _ | .raised i _ _ fate _ => some (i, fate)
  | _ => none

def Action.workerOf? : Action → Option (ℕ × Fate)
  | .prepare i _ _ fate | .lease i _ fate | .record i _ fate _ => some (i, fate)
  | _ => none

/-- What enqueueing, cancelling and `run_execution` do with an execution of the procedure. -/
def Action.isDelivery : Action → Bool
  | .cancel .. | .enqueued _ | .enqueueRaised _ | .enqueueLost | .claim .. | .settingsDisabled ..
  | .bindingInvalid .. | .admission _ | .prepare .. | .lease .. | .call _ | .record .. | .raised ..
  | .lost _ => true
  | _ => false

inductive Move (S : Site) (req : ExecutionRequest) (w : World) : Action → World → Prop
  | load (slot : ℕ) : Move S req w (.load slot)
      { w with loaded := Function.update w.loaded slot (some w.ledger.row) }
  | editProcedure (p : Procedure) : Move S req w (.editProcedure p) { w with procedure := p }
  | cancelled {a : Action} {e : DomainEvent} (he : e.type = .executionCancelled)
      (hopen : w.ledger.row.status = .queued ∨ w.ledger.row.status = .pendingApproval) :
      Move S req w a (w.writeLocked S req [e])
  | failedLocked {a : Action} {message code : String} {now : DateTime}
      (hopen : w.ledger.row.status = .queued ∨ w.ledger.row.status = .running)
      (ha : a.isDelivery = true → w.ledger.row.status = .queued) :
      Move S req w a (w.writeLocked S req [.executionFailed message code (.time now) []])
  | decided {a : Action} {slot : ℕ} {copy : ProjectionState} {e : DomainEvent}
      (hloaded : w.loaded slot = some copy) (hpending : w.ledger.row.status = .pendingApproval)
      (he : e.IsDecision) (ha : a.isDelivery = false) :
      Move S req w a { w with
        ledger := (w.append S req w.procedure { copy with status := .pendingApproval } [e]).2 }
  | approvedProtected {a : Action} {s : ProjectionState × Ledger} (userId : ℤ) (hash : String)
      (at_ : Stamp) (reason : String) (hpending : w.ledger.row.status = .pendingApproval)
      (hs : s = w.append S req w.procedure w.ledger.row
        [.executionApproved (.int userId) hash at_ reason, .executionQueued req.requestedById])
      (ha : a.isDelivery = false) :
      Move S req w a { w with ledger := s.2, enqueuer := some s.1 }
  | enqueued {jobId : Json} {copy : ProjectionState} (henqueuer : w.enqueuer = some copy) :
      Move S req w (.enqueued jobId) { w with
        ledger := (w.append S req w.procedure copy [.jobEnqueued jobId]).2, enqueuer := none }
  | enqueueRaised {now : DateTime} {copy : ProjectionState} (henqueuer : w.enqueuer = some copy) :
      Move S req w (.enqueueRaised now) { w with
        ledger := (w.append S req w.procedure copy [.executionEnqueueFailed
          "Failed to enqueue RPC job. Check RQ/Redis connectivity." "RPC_ENQUEUE_FAILED"
          (.time now)]).2,
        enqueuer := none }
  | enqueueLost : Move S req w .enqueueLost { w with enqueuer := none }
  | claimed {a : Action} {i : ℕ} {now : DateTime} {s : ProjectionState × Ledger}
      (hfree : w.workers i = none) (hqueued : w.ledger.row.status = .queued)
      (hs : s = w.append S req w.procedure w.ledger.row [.executionStarted (.time now)])
      (ha : ∃ stale orgRefusal, a = .claim i stale orgRefusal now) :
      Move S req w a ({ w with ledger := s.2 }.setWorker i ⟨.claimed, s.1, w.procedure, none⟩)
  | advanced {a : Action} {i : ℕ} {x : Worker} {phase : Phase} (hx : w.workers i = some x)
      (h : x.Advances req phase) : Move S req w a (w.setWorker i { x with phase := phase })
  | worked {a : Action} {i : ℕ} {x x' : Worker} {events : List DomainEvent} {fate : Fate}
      {done : Phase} (hx : w.workers i = some x) (hrunning : x.copy.status = .running)
      (ha : a.workerOf? = some (i, fate)) (h : Work S req w x a x' events done) :
      Move S req w a (w.writeWorker S req i x' events fate done)
  | called {i : ℕ} {x : Worker} (hx : w.workers i = some x) (hphase : x.phase = .leased) :
      Move S req w (.call i) ({ w with calls := w.calls ++ [(⟨x.procedure.name, w.ledger.events, x.payload⟩ :
        BackendCall)] }.setWorker i { x with phase := .called })
  | failed {a : Action} {i : ℕ} {x : Worker} {message code : String} {now : DateTime}
      (hx : w.workers i = some x) (hphase : x.phase ≠ .ended)
      (hopen : x.copy.status.isTerminal = false) (ha : a.failure? = some (i, .commits)) :
      Move S req w a (w.writeWorker S req i x
        [.executionFailed message code (.time now) []] .commits .ended)

variable {S : Site} {req : ExecutionRequest} {w w' : World}

theorem of_update_eq_some {β : Type} {f : ℕ → Option β} {i j : ℕ} {a b : β}
    (h : Function.update f i (some a) j = some b) : j = i ∧ a = b ∨ j ≠ i ∧ f j = some b := by
  by_cases hij : j = i
  · rw [hij, Function.update_self] at h
    exact .inl ⟨hij, Option.some.inj h⟩
  · rw [Function.update_of_ne hij] at h
    exact .inr ⟨hij, h⟩

theorem Move.of_decide {a : Action} {slot : ℕ} {e : DomainEvent} (he : e.IsDecision)
    (ha : a.isDelivery = false) (h : w.decide S req slot e = some w') : Move S req w a w' := by
  simp only [World.decide, Option.bind_eq_bind, Option.bind_eq_some_iff, Option.guard_eq_some',
    Option.pure_def, Option.some.injEq] at h
  obtain ⟨copy, hcopy, _, hpending, rfl⟩ := h
  rw [hpending]
  exact .decided hcopy hpending he ha

theorem Move.of_failWorker {a : Action} {i : ℕ} {x : Worker} {message code : String} {fate : Fate}
    {now : DateTime} (hx : w.workers i = some x) (hphase : x.phase ≠ .ended)
    (ha : a.failure? = some (i, fate)) :
    Move S req w a (w.failWorker S req i x message code fate now) := by
  unfold World.failWorker
  dsimp only
  split_ifs with hopen
  · exact .advanced hx .ended
  · cases fate with
    | commits => exact .failed hx hphase (Bool.not_eq_true _ ▸ hopen) ha
    | aborts n => exact .advanced hx .ended

theorem Move.of_claim {i : ℕ} {stale : Bool} {orgRefusal : Option (String × String)}
    {now : DateTime} (h : w.claim S req i stale orgRefusal now = some w') :
    Move S req w (.claim i stale orgRefusal now) w' := by
  simp only [World.claim, Option.bind_eq_bind, Option.bind_eq_some_iff, Option.guard_eq_some']
    at h
  obtain ⟨_, ⟨hfree, hqueued⟩, h⟩ := h
  split at h
  · cases h
    exact .failedLocked (.inl hqueued) (fun _ => hqueued)
  · cases h
    exact .claimed (Option.isNone_iff_eq_none.mp hfree) hqueued rfl ⟨stale, orgRefusal, rfl⟩

theorem Move.of_prepare {i : ℕ} {x : Worker} {raw : Entries} {target : BackendTarget} {fate : Fate}
    (hx : w.workers i = some x) (h : w.prepare S req i x raw target fate = some w') :
    Move S req w (.prepare i raw target fate) w' := by
  simp only [World.prepare, Option.bind_eq_bind, Option.bind_eq_some_iff, Option.guard_eq_some']
    at h
  obtain ⟨_, ⟨hphase, hrunning⟩, h⟩ := h
  split_ifs at h with hp
  · simp only [Option.bind_eq_some_iff, Option.pure_def, Option.some.injEq] at h
    obtain ⟨current, hcurrent, rfl⟩ := h
    exact .worked hx hrunning rfl (.prepare i raw target fate (some current) _ hphase
      (fun _ => ⟨rfl, hcurrent⟩))
  · cases h
    exact .worked hx hrunning rfl (.prepare i raw target fate x.payload _ hphase
      (fun h => absurd h hp))

theorem Move.of_lease {i : ℕ} {x : Worker} {claims : Option LeaseClaims} {fate : Fate}
    (hx : w.workers i = some x) (h : w.lease S req i x claims fate = some w') :
    Move S req w (.lease i claims fate) w' := by
  simp only [World.lease, Option.bind_eq_bind, Option.bind_eq_some_iff, Option.guard_eq_some']
    at h
  obtain ⟨_, ⟨hphase, hrunning⟩, h⟩ := h
  cases claims with
  | some c =>
    cases h
    exact .worked hx hrunning rfl (.lease i c fate hphase)
  | none =>
    dsimp only at h
    split_ifs at h with hsigned
    · cases h
      exact .advanced hx (.failing hphase)
    · cases h
      exact .advanced hx (.leased hphase (Bool.not_eq_true _ ▸ hsigned))

theorem Move.of_record {i : ℕ} {x : Worker} {response : Entries} {fate : Fate} {now : DateTime}
    (hx : w.workers i = some x) (h : w.record S req i x response fate now = some w') :
    Move S req w (.record i response fate now) w' := by
  simp only [World.record, Option.bind_eq_bind, Option.bind_eq_some_iff, Option.guard_eq_some',
    Option.pure_def, Option.some.injEq] at h
  obtain ⟨_, ⟨hphase, hrunning⟩, events, hevents, rfl⟩ := h
  exact .worked hx hrunning rfl (.record i response fate now events hphase hevents)

theorem Phase.ne_ended_of_isDispatching {p : Phase} (h : p.isDispatching = true) : p ≠ .ended := by
  rintro rfl
  cases h

/-- Every performed step is a move. -/
theorem Move.of_step {a : Action} (h : step S req w a = some w') : Move S req w a w' := by
  cases a with
  | load slot => cases h; exact .load slot
  | editProcedure p => cases h; exact .editProcedure p
  | enqueueLost => cases h; exact .enqueueLost
  | expire slot reason now => exact .of_decide (.expired _ _) rfl h
  | claim i stale orgRefusal now => exact .of_claim h
  | cancel userId now =>
    simp only [step, Option.bind_eq_bind, Option.bind_eq_some_iff, Option.guard_eq_some',
      Option.pure_def, Option.some.injEq] at h
    obtain ⟨_, hopen, rfl⟩ := h
    exact .cancelled rfl hopen
  | expireStaleRestart now =>
    simp only [step, Option.bind_eq_bind, Option.bind_eq_some_iff, Option.guard_eq_some',
      Option.pure_def, Option.some.injEq] at h
    obtain ⟨_, ⟨hqueued, _⟩, rfl⟩ := h
    exact .failedLocked (.inl hqueued) (fun _ => hqueued)
  | reconcileLostWorker now =>
    simp only [step, Option.bind_eq_bind, Option.bind_eq_some_iff, Option.guard_eq_some',
      Option.pure_def, Option.some.injEq] at h
    obtain ⟨_, hrunning, rfl⟩ := h
    exact .failedLocked (.inr hrunning) (fun h => by cases h)
  | approve slot userId reason now =>
    simp only [step, Option.bind_eq_bind, Option.bind_eq_some_iff, Option.guard_eq_some'] at h
    obtain ⟨_, _, _, _, h⟩ := h
    exact .of_decide (.approved _ _ _ _) rfl h
  | reject slot userId reason now =>
    simp only [step, Option.bind_eq_bind, Option.bind_eq_some_iff, Option.guard_eq_some'] at h
    obtain ⟨_, _, _, _, h⟩ := h
    exact .of_decide (.rejected _ _ _) rfl h
  | approveProtected userId normalized target reason now =>
    simp only [step, World.approveProtected, Option.bind_eq_bind, Option.bind_eq_some_iff,
      Option.guard_eq_some', Option.pure_def, Option.some.injEq] at h
    obtain ⟨_, _, _, _, _, _, _, _, _, _, _, hpending, rfl⟩ := h
    exact .approvedProtected _ _ _ _ hpending rfl rfl
  | enqueued jobId =>
    simp only [step, Option.bind_eq_bind, Option.bind_eq_some_iff, Option.guard_eq_some',
      Option.pure_def, Option.some.injEq] at h
    obtain ⟨_, henqueuer, _, _, rfl⟩ := h
    exact .enqueued henqueuer
  | enqueueRaised now =>
    simp only [step, Option.bind_eq_bind, Option.bind_eq_some_iff, Option.pure_def,
      Option.some.injEq] at h
    obtain ⟨_, henqueuer, rfl⟩ := h
    exact .enqueueRaised henqueuer
  | settingsDisabled i fate now =>
    simp only [step, Option.bind_eq_bind, Option.bind_eq_some_iff, Option.guard_eq_some',
      Option.pure_def, Option.some.injEq] at h
    obtain ⟨x, hx, _, hphase, rfl⟩ := h
    exact .of_failWorker hx (by rw [hphase]; decide) rfl
  | bindingInvalid i fate now =>
    simp only [step, Option.bind_eq_bind, Option.bind_eq_some_iff, Option.guard_eq_some',
      Option.pure_def, Option.some.injEq] at h
    obtain ⟨x, hx, _, ⟨hphase, _⟩, rfl⟩ := h
    exact .of_failWorker hx (by rw [hphase]; decide) rfl
  | raised i message code fate now =>
    simp only [step, Option.bind_eq_bind, Option.bind_eq_some_iff, Option.guard_eq_some',
      Option.pure_def, Option.some.injEq] at h
    obtain ⟨x, hx, _, hphase, rfl⟩ := h
    exact .of_failWorker hx (Phase.ne_ended_of_isDispatching hphase) rfl
  | admission i =>
    simp only [step, Option.bind_eq_bind, Option.bind_eq_some_iff, Option.guard_eq_some',
      Option.pure_def, Option.some.injEq] at h
    obtain ⟨x, hx, _, hphase, rfl⟩ := h
    exact .advanced hx (.admitted hphase)
  | lost i =>
    simp only [step, Option.bind_eq_bind, Option.bind_eq_some_iff, Option.pure_def,
      Option.some.injEq] at h
    obtain ⟨x, hx, rfl⟩ := h
    exact .advanced hx .ended
  | prepare i normalized target fate =>
    obtain ⟨x, hx, h⟩ := Option.bind_eq_some_iff.mp h
    exact .of_prepare hx h
  | lease i claims fate =>
    obtain ⟨x, hx, h⟩ := Option.bind_eq_some_iff.mp h
    exact .of_lease hx h
  | record i response fate now =>
    obtain ⟨x, hx, h⟩ := Option.bind_eq_some_iff.mp h
    exact .of_record hx h
  | call i =>
    simp only [step, World.call, Option.bind_eq_bind, Option.bind_eq_some_iff,
      Option.guard_eq_some', Option.pure_def, Option.some.injEq] at h
    obtain ⟨x, hx, _, hphase, rfl⟩ := h
    exact .called hx hphase

/-! ## Creation -/

def World.fresh (p : Procedure) : World where
  procedure := p
  ledger := freshLedger
  snapshot := none
  loaded := fun _ => none
  enqueuer := none
  workers := fun _ => none
  calls := []

inductive Created (S : Site) (req : ExecutionRequest) (p : Procedure) (normalized : Entries)
    (target : BackendTarget) : World → Prop
  | approval {payload : Json}
      (hpayload : approvalProtectedPayload S p req normalized target = some payload) :
      Created S req p normalized target { World.fresh p with
        ledger := ((World.fresh p).append S req p .initial [.executionRequested req.requestedById,
          .approvalRequested (createApprovalRequest S.platform req payload).payloadHash .none
            req.requestedById]).2,
        snapshot := some (createApprovalRequest S.platform req payload) }
  | direct {s : ProjectionState × Ledger} (hopen : isProtected p.name = false)
      (hs : s = (World.fresh p).append S req p .initial [.executionQueued req.requestedById]) :
      Created S req p normalized target { World.fresh p with ledger := s.2, enqueuer := some s.1 }

theorem Created.of_create {p : Procedure} {normalized : Entries} {target : BackendTarget}
    (h : create S req p normalized target = some w) : Created S req p normalized target w := by
  simp only [create] at h
  split_ifs at h with hp
  · simp only [Option.bind_eq_bind, Option.bind_eq_some_iff, Option.guard_eq_some',
      Option.pure_def, Option.some.injEq] at h
    obtain ⟨payload, hpayload, _, _, rfl⟩ := h
    exact .approval hpayload
  · cases h
    exact .direct (Bool.not_eq_true _ ▸ hp) rfl

/-! ## Appends -/

/-- Every move appends some events, maybe none, to the ledger. -/
theorem Move.exists_append {a : Action} (h : Move S req w a w') :
    ∃ p copy es, w'.ledger = (w.append S req p copy es).2 := by
  have hnone : w'.ledger = w.ledger →
      ∃ p copy es, w'.ledger = (w.append S req p copy es).2 := by
    intro hledger
    refine ⟨w.procedure, w.ledger.row, [], ?_⟩
    rw [hledger, World.append, appendAll_nil]
  cases h with
  | load | editProcedure | enqueueLost | called => exact hnone rfl
  | advanced => exact hnone rfl
  | @worked a i x x' events fate done =>
    cases fate with
    | commits => exact ⟨_, _, _, rfl⟩
    | aborts n => exact hnone rfl
  | approvedProtected userId hash at_ reason hpending hs =>
    exact ⟨_, _, _, congrArg Prod.snd hs⟩
  | claimed hfree hqueued hs => exact ⟨_, _, _, congrArg Prod.snd hs⟩
  | cancelled | failedLocked | decided | enqueued | enqueueRaised | failed =>
    exact ⟨_, _, _, rfl⟩

theorem Move.numbered {a : Action} (h : Move S req w a w') (hnum : Numbered w.ledger.events) :
    Numbered w'.ledger.events := by
  obtain ⟨p, copy, es, hledger⟩ := h.exists_append
  rw [hledger]
  exact Numbered.appendAll (s := (copy, w.ledger)) hnum es

theorem Numbered.of_created {p : Procedure} {normalized : Entries} {target : BackendTarget}
    (h : Created S req p normalized target w) : Numbered w.ledger.events := by
  have hnum : ∀ copy es, Numbered ((World.fresh p).append S req p copy es).2.events :=
    fun copy es => Numbered.appendAll (s := (copy, (World.fresh p).ledger)) rfl es
  cases h with
  | approval => exact hnum _ _
  | direct hopen hs =>
    rw [hs]
    exact hnum _ _

/-! ## The enqueuer -/

def World.EnqueuerQueued (w : World) : Prop := ∀ copy, w.enqueuer = some copy → copy.status = .queued

theorem status_append_copy {p : Procedure} {copy : ProjectionState} (es : List DomainEvent)
    {last : DomainEvent} {t : ExecutionStatus} (hlast : last.type.status = some t) :
    (w.append S req p copy (es ++ [last])).1.status = t := by
  rw [World.append, appendAll_append, appendAll_cons, appendAll_nil, status_appendAndProject_copy,
    hlast]
  rfl

theorem World.EnqueuerQueued.of_created {p : Procedure} {normalized : Entries}
    {target : BackendTarget} (h : Created S req p normalized target w) : w.EnqueuerQueued := by
  cases h with
  | approval => exact fun _ hc => nomatch hc
  | direct hopen hs =>
    intro copy hc
    rw [← Option.some.inj hc, hs]
    exact status_append_copy [] rfl

theorem World.EnqueuerQueued.move {a : Action} (hmove : Move S req w a w')
    (h : w.EnqueuerQueued) : w'.EnqueuerQueued := by
  cases hmove with
  | approvedProtected userId hash at_ reason hpending hs =>
    intro copy hc
    rw [← Option.some.inj hc, hs]
    exact status_append_copy [_] rfl
  | enqueued | enqueueRaised | enqueueLost => exact fun _ hc => nomatch hc
  | @worked a i x x' events fate done hx hrunning ha hwork => cases fate <;> exact h
  | _ => exact h

/-! ## A direct execution -/

def directProcedure : Procedure := { (default : Procedure) with enabled := true }

def dispatchActions (worker : ℕ) : List Action :=
  [.claim worker false none 0, .admission worker, .prepare worker [] default .commits,
    .lease worker none .commits, .call worker]

end NetboxRpc
