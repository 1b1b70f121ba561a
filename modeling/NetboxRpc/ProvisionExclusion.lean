import NetboxRpc.SingleDispatch

/-!
# Samba provisions of one target

The creation of a Samba AD DC provision is refused while another one for the same target is open.
The check reads the status column under the procedure lock. A provision stays open while a worker
dispatches it, except that the enqueuer whose `enqueue` raised writes `failed` without a look at the
row: if the job was published all the same and a worker has claimed it, the next provision of the
target is let in beside it.
-/

namespace NetboxRpc

def ubuntu26SambaAdDcProvision : String := "os.linux.ubuntu.26.samba_ad_dc.provision"

def sambaProvisionOpenStatuses : List ExecutionStatus :=
  [.requested, .pendingApproval, .approved, .queued, .running]

def ExecutionRequest.target (req : ExecutionRequest) : Json × Json :=
  (req.assignedObjectTypeId, req.assignedObjectId)

structure Provision where
  req : ExecutionRequest
  world : World

def Provision.isOpen (x : Provision) : Bool :=
  sambaProvisionOpenStatuses.contains x.world.ledger.row.status

structure ProvisionSystem where
  executions : List Provision
  /-- The creation whose transaction holds the procedure lock, past its check. -/
  creating : Option ExecutionRequest

inductive ProvisionAction
  | beginCreate (req : ExecutionRequest)
  | commitCreate
  | abortCreate
  | execution (i : ℕ) (a : Action)

def Action.locksProcedure : Action → Bool
  | .claim .. => true
  | _ => false

section

variable (S : Site) (p : Procedure)

def noConcurrentSambaProvision (executions : List Provision) (req : ExecutionRequest) : Bool :=
  p.name ≠ ubuntu26SambaAdDcProvision ||
    !executions.any fun x => x.req.target = req.target && x.isOpen

def provisionStep (s : ProvisionSystem) : ProvisionAction → Option ProvisionSystem
  | .beginCreate req =>
    if s.creating.isNone ∧ noConcurrentSambaProvision p s.executions req = true then
      some { s with creating := some req }
    else none
  | .commitCreate => do
    let req ← s.creating
    let w ← create S req p [] default
    return { executions := s.executions ++ [⟨req, w⟩], creating := none }
  | .abortCreate => some { s with creating := none }
  | .execution i a => do
    guard (a.isDelivery ∧ (a.locksProcedure = true → s.creating.isNone))
    let x ← s.executions[i]?
    let w ← step S x.req x.world a
    return { s with executions := s.executions.set i { x with world := w } }

end

def ProvisionSystem.empty : ProvisionSystem := ⟨[], none⟩

def Phase.isActive : Phase → Bool
  | .claimed | .admitted | .prepared | .leased | .called => true
  | .failing | .ended => false

def World.IsActive (w : World) : Prop := ∃ i x, w.workers i = some x ∧ x.phase.isActive = true

/-- No two provisions of one target are dispatched at the same time. -/
def ProvisionSystem.Exclusive (s : ProvisionSystem) : Prop :=
  ∀ (i j : ℕ) (x y : Provision), s.executions[i]? = some x → s.executions[j]? = some y →
    x.req.target = y.req.target → x.world.IsActive → y.world.IsActive → i = j

def ProvisionSystem.enqueueFailsUnclaimed (s : ProvisionSystem) : ProvisionAction → Bool
  | .execution i (.enqueueRaised _) =>
    (s.executions[i]?).all fun x => x.world.ledger.row.status ≠ .running
  | _ => true

/-! ## What a delivery does to the row and the workers -/

section

variable {S : Site} {req : ExecutionRequest} {w w' : World}

inductive Delivery (w w' : World) : Action → Prop
  | locked {a : Action}
      (hopen : w.ledger.row.status = .queued ∨ w.ledger.row.status = .pendingApproval)
      (hworkers : w'.workers = w.workers) (hterminal : w'.ledger.row.status.isTerminal = true) :
      Delivery w w' a
  | silent {a : Action} (hworkers : w'.workers = w.workers)
      (hstatus : w'.ledger.row.status = w.ledger.row.status) : Delivery w w' a
  | enqueueRaised (now : DateTime) (hworkers : w'.workers = w.workers)
      (hterminal : w'.ledger.row.status.isTerminal = true) : Delivery w w' (.enqueueRaised now)
  | claimed {a : Action} {i : ℕ} {x : Worker} (hqueued : w.ledger.row.status = .queued)
      (hworkers : w'.workers = Function.update w.workers i (some x))
      (hstatus : w'.ledger.row.status = .running) : Delivery w w' a
  | worked {a : Action} {i : ℕ} {x x' : Worker} (hx : w.workers i = some x)
      (hworkers : w'.workers = Function.update w.workers i (some x'))
      (hrow : w'.ledger.row.status = w.ledger.row.status ∨
        w'.ledger.row.status.isTerminal = true)
      (hactive : x'.phase.isActive = true →
        x.phase.isActive = true ∧ w'.ledger.row.status = w.ledger.row.status) : Delivery w w' a

theorem status_writeLocked {e : DomainEvent} {t : ExecutionStatus} (he : e.type.status = some t)
    (hne : w.ledger.row.status ≠ t) : (w.writeLocked S req [e]).ledger.row.status = t := by
  rw [World.writeLocked, World.append, appendAll_cons, appendAll_nil, status_appendAndProject_row,
    he, Option.getD_some, if_neg hne]

theorem Delivery.write {a : Action} {i : ℕ} {x x' : Worker} {events : List DomainEvent}
    {fate : Fate} {done : Phase} (hx : w.workers i = some x) (hends : ∀ e ∈ events, e.Ends)
    (hactive : done.isActive = true →
      x.phase.isActive = true ∧ ∀ e ∈ events, e.type.status = none) :
    Delivery w (w.writeWorker S req i x' events fate done) a := by
  cases fate with
  | aborts n => exact .worked hx rfl (.inl rfl) fun h => by cases h
  | commits =>
    refine .worked hx rfl (status_appendAll_of_ends _ _ hends).2 fun h => ?_
    obtain ⟨hbefore, hsilent⟩ := hactive h
    exact ⟨hbefore, (status_appendAll_of_silent _ _ hsilent).2⟩

theorem Delivery.write_silent {a : Action} {i : ℕ} {x x' : Worker} {e : DomainEvent} {fate : Fate}
    {done : Phase} (hx : w.workers i = some x) (hactive : x.phase.isActive = true)
    (he : e.type.status = none) : Delivery w (w.writeWorker S req i x' [e] fate done) a := by
  have hsilent : ∀ e' ∈ [e], e'.type.status = none := fun e' he' => List.mem_singleton.mp he' ▸ he
  exact .write hx (fun e' he' => .of_silent (hsilent e' he')) fun _ => ⟨hactive, hsilent⟩

/-- Every delivery is one of these. -/
theorem Delivery.of_move {a : Action} (ha : a.isDelivery = true) (hqueued : w.EnqueuerQueued)
    (h : Move S req w a w') : Delivery w w' a := by
  cases h with
  | load | editProcedure => cases ha
  | decided _ _ _ hother | approvedProtected _ _ _ _ _ _ hother =>
    rw [ha] at hother
    cases hother
  | cancelled he hopen =>
    refine .locked hopen rfl ?_
    rw [status_writeLocked (congrArg EventType.status he)
      (by rcases hopen with h | h <;> rw [h] <;> decide)]
    rfl
  | failedLocked _ hopen =>
    refine .locked (.inl (hopen ha)) rfl ?_
    rw [status_writeLocked rfl (by rw [hopen ha]; decide)]
    rfl
  | enqueued henqueuer =>
    refine .silent rfl (status_appendAll_of_silent _ _ fun e he => ?_).2
    rw [List.mem_singleton.mp he]
    rfl
  | @enqueueRaised now copy henqueuer =>
    refine .enqueueRaised now rfl ?_
    change (appendAll _ _ (copy, w.ledger) _).2.row.status.isTerminal = true
    rw [appendAll_cons, appendAll_nil, status_appendAndProject_row, hqueued copy henqueuer]
    rfl
  | enqueueLost => exact .silent rfl rfl
  | claimed _ hstatus hs =>
    subst hs
    refine .claimed hstatus rfl ?_
    change (appendAll _ _ (w.ledger.row, w.ledger) _).2.row.status = _
    rw [appendAll_cons, appendAll_nil, status_appendAndProject_row, hstatus]
    rfl
  | advanced hx hadvances =>
    refine .worked hx rfl (.inl rfl) fun hactive => ⟨?_, rfl⟩
    cases hadvances with
    | admitted hphase | leased hphase _ => rw [hphase]; rfl
    | failing | ended => cases hactive
  | worked hx _ _ hwork =>
    cases hwork with
    | prepare _ _ _ _ _ _ hphase _ => exact .write_silent hx (by rw [hphase]; rfl) rfl
    | lease _ _ _ hphase => exact .write_silent hx (by rw [hphase]; rfl) rfl
    | record _ _ _ _ _ _ hevents =>
      exact .write hx (fun e he => (DomainEvent.Incidental.of_response hevents e he).ends)
        fun h => by cases h
  | called hx hphase => exact .worked hx rfl (.inl rfl) fun _ => ⟨by rw [hphase]; rfl, rfl⟩
  | failed hx _ _ _ =>
    refine .write hx (fun e he => ?_) fun h => by cases h
    rw [List.mem_singleton.mp he]
    rintro s ⟨⟩
    rfl

/-! ## One execution -/

structure World.Sound (w : World) : Prop where
  claims : Claims w
  enqueuer : w.EnqueuerQueued
  running : w.IsActive → w.ledger.row.status = .running

theorem World.Sound.of_created {p : Procedure} {normalized : Entries} {target : BackendTarget}
    (h : create S req p normalized target = some w) : w.Sound := by
  have hcreated := Created.of_create h
  refine ⟨.of_created hcreated, .of_created hcreated, ?_⟩
  rintro ⟨i, x, hx, -⟩
  cases hcreated with
  | approval => cases hx
  | direct => cases hx

theorem World.Sound.step {a : Action} (h : w.Sound) (ha : a.isDelivery = true)
    (hfails : ∀ now, a = .enqueueRaised now → w.ledger.row.status ≠ .running)
    (hstep : step S req w a = some w') : w'.Sound := by
  refine ⟨h.claims.move (.of_step hstep), h.enqueuer.move (.of_step hstep), ?_⟩
  rintro ⟨j, y, hy, hactive⟩
  cases Delivery.of_move ha h.enqueuer (.of_step hstep) with
  | locked hopen hworkers _ =>
    rw [hworkers] at hy
    have hrunning := h.running ⟨j, y, hy, hactive⟩
    rcases hopen with hopen | hopen
    · rw [hrunning] at hopen
      cases hopen
    · rw [hrunning] at hopen
      cases hopen
  | silent hworkers hstatus =>
    rw [hworkers] at hy
    exact hstatus.trans (h.running ⟨j, y, hy, hactive⟩)
  | enqueueRaised now hworkers _ =>
    rw [hworkers] at hy
    exact absurd (h.running ⟨j, y, hy, hactive⟩) (hfails now rfl)
  | claimed _ _ hstatus => exact hstatus
  | @worked _ i x x' hx hworkers _ hphase =>
    rw [hworkers] at hy
    rcases of_update_eq_some hy with ⟨rfl, rfl⟩ | ⟨hij, hy⟩
    · obtain ⟨hbefore, hstatus⟩ := hphase hactive
      exact hstatus.trans (h.running ⟨j, x, hx, hbefore⟩)
    · -- there is one worker at most
      exact absurd (h.claims.unique hx hy) hij

theorem isOpen_eq (x : Provision) : x.isOpen = !x.world.ledger.row.status.isTerminal := by
  unfold Provision.isOpen
  cases x.world.ledger.row.status <;> rfl

/-- No delivery opens an execution again. -/
theorem World.Sound.isTerminal_step {a : Action} (h : w.Sound) (ha : a.isDelivery = true)
    (hstep : NetboxRpc.step S req w a = some w')
    (hterminal : w.ledger.row.status.isTerminal = true) :
    w'.ledger.row.status.isTerminal = true := by
  cases Delivery.of_move ha h.enqueuer (.of_step hstep) with
  | locked _ _ hafter => exact hafter
  | silent _ hstatus =>
    rw [hstatus]
    exact hterminal
  | enqueueRaised _ _ hafter => exact hafter
  | claimed hqueued =>
    rw [hqueued] at hterminal
    cases hterminal
  | worked _ _ hrow _ =>
    rcases hrow with hstatus | hafter
    · rw [hstatus]
      exact hterminal
    · exact hafter

end

/-! ## All executions -/

/-- At most one execution of a target is open, and none is while a creation for it is past its
check. -/
structure ProvisionSystem.Guarded (s : ProvisionSystem) : Prop where
  sound : ∀ (i : ℕ) (x : Provision), s.executions[i]? = some x → x.world.Sound
  single : ∀ (i j : ℕ) (x y : Provision), s.executions[i]? = some x → s.executions[j]? = some y →
    x.req.target = y.req.target → x.isOpen = true → y.isOpen = true → i = j
  reserved : ∀ req, s.creating = some req → ∀ (i : ℕ) (x : Provision),
    s.executions[i]? = some x → x.req.target = req.target → x.isOpen = false

theorem ProvisionSystem.Guarded.exclusive {s : ProvisionSystem} (h : s.Guarded) : s.Exclusive := by
  intro i j x y hx hy htarget hactive hactive'
  have hopen : ∀ (k : ℕ) (z : Provision), s.executions[k]? = some z → z.world.IsActive →
      z.isOpen = true := by
    intro k z hz hz'
    rw [isOpen_eq, (h.sound k z hz).running hz']
    rfl
  exact h.single i j x y hx hy htarget (hopen i x hx hactive) (hopen j y hy hactive')

theorem ProvisionSystem.guarded_empty : ProvisionSystem.empty.Guarded := by
  refine ⟨?_, ?_, ?_⟩
  · intro i x hx
    cases hx
  · intro i j x y hx
    cases hx
  · intro req hreq
    cases hreq

section

variable {S : Site} {p : Procedure} {s : ProvisionSystem}

theorem isOpen_eq_false_of_noConcurrent (hname : p.name = ubuntu26SambaAdDcProvision)
    {executions : List Provision} {req : ExecutionRequest}
    (h : noConcurrentSambaProvision p executions req = true) {x : Provision} (hx : x ∈ executions)
    (htarget : x.req.target = req.target) : x.isOpen = false := by
  have hall : ∀ y ∈ executions, y.req.target = req.target → y.isOpen = false := by
    simpa [noConcurrentSambaProvision, hname] using h
  exact hall x hx htarget

theorem ProvisionSystem.Guarded.beginCreate (h : s.Guarded)
    (hname : p.name = ubuntu26SambaAdDcProvision) {req : ExecutionRequest}
    (hcheck : noConcurrentSambaProvision p s.executions req = true) :
    ({ s with creating := some req } : ProvisionSystem).Guarded := by
  refine ⟨h.sound, h.single, ?_⟩
  rintro _ ⟨⟩ i x hx htarget
  exact isOpen_eq_false_of_noConcurrent hname hcheck (List.mem_of_getElem? hx) htarget

theorem ProvisionSystem.Guarded.abortCreate (h : s.Guarded) :
    ({ s with creating := none } : ProvisionSystem).Guarded := by
  refine ⟨h.sound, h.single, ?_⟩
  intro req hreq
  cases hreq

theorem getElem?_append_one {α : Type} {l : List α} {a x : α} {i : ℕ}
    (h : (l ++ [a])[i]? = some x) : l[i]? = some x ∨ i = l.length ∧ x = a := by
  rcases Nat.lt_trichotomy i l.length with hi | hi | hi
  · rw [List.getElem?_append_left hi] at h
    exact .inl h
  · subst hi
    rw [List.getElem?_concat_length] at h
    exact .inr ⟨rfl, (Option.some.inj h).symm⟩
  · have hlength : (l ++ [a]).length ≤ i := by
      rw [List.length_append, List.length_singleton]
      omega
    rw [List.getElem?_eq_none hlength] at h
    cases h

theorem ProvisionSystem.Guarded.commitCreate (h : s.Guarded) {req : ExecutionRequest} {w : World}
    (hreq : s.creating = some req) (hcreate : create S req p [] default = some w) :
    (⟨s.executions ++ [⟨req, w⟩], none⟩ : ProvisionSystem).Guarded := by
  refine ⟨?_, ?_, ?_⟩
  · intro i x hx
    rcases getElem?_append_one hx with hx | ⟨-, rfl⟩
    · exact h.sound i x hx
    · exact .of_created hcreate
  · intro i j x y hx hy htarget hopen hopen'
    rcases getElem?_append_one hx with hx | ⟨hi, rfl⟩
    · rcases getElem?_append_one hy with hy | ⟨-, rfl⟩
      · exact h.single i j x y hx hy htarget hopen hopen'
      · rw [h.reserved req hreq i x hx htarget] at hopen
        cases hopen
    · rcases getElem?_append_one hy with hy | ⟨hj, -⟩
      · rw [h.reserved req hreq j y hy htarget.symm] at hopen'
        cases hopen'
      · exact hi.trans hj.symm
  · intro req' hreq'
    cases hreq'

/-- An entry after a delivery comes from one before it, of the same target and no less open. -/
theorem exists_getElem?_of_set {executions : List Provision} {i j : ℕ} {x y : Provision} {w : World}
    (hx : executions[i]? = some x)
    (hy : (executions.set i { x with world := w })[j]? = some y) :
    ∃ z, executions[j]? = some z ∧ z.req = y.req ∧ (y = z ∨ j = i ∧ z = x ∧ y.world = w) := by
  by_cases hij : j = i
  · subst hij
    have hlt : j < executions.length := by
      by_contra hge
      rw [List.getElem?_eq_none (by omega)] at hx
      cases hx
    rw [List.getElem?_set_self hlt] at hy
    obtain rfl := Option.some.inj hy
    exact ⟨x, hx, rfl, .inr ⟨rfl, rfl, rfl⟩⟩
  · rw [List.getElem?_set_ne (Ne.symm hij)] at hy
    exact ⟨y, hy, rfl, .inl rfl⟩

theorem ProvisionSystem.Guarded.deliver (h : s.Guarded) {i : ℕ} {x : Provision} {w : World}
    (hx : s.executions[i]? = some x) (hsound : w.Sound)
    (hterminal : x.world.ledger.row.status.isTerminal = true →
      w.ledger.row.status.isTerminal = true) :
    ({ s with executions := s.executions.set i { x with world := w } } :
      ProvisionSystem).Guarded := by
  have hopen : ∀ (j : ℕ) (y : Provision),
      (s.executions.set i { x with world := w })[j]? = some y → y.isOpen = true →
      ∃ z, s.executions[j]? = some z ∧ z.req = y.req ∧ z.isOpen = true := by
    intro j y hy hyopen
    obtain ⟨z, hz, hreq, hsame | ⟨-, rfl, hworld⟩⟩ := exists_getElem?_of_set hx hy
    · exact ⟨z, hz, hreq, hsame ▸ hyopen⟩
    · refine ⟨z, hz, hreq, ?_⟩
      rw [isOpen_eq, hworld] at hyopen
      rw [isOpen_eq]
      cases hz' : z.world.ledger.row.status.isTerminal with
      | false => rfl
      | true =>
        rw [hterminal hz'] at hyopen
        cases hyopen
  refine ⟨?_, ?_, ?_⟩
  · intro j y hy
    obtain ⟨z, hz, -, hsame | ⟨-, -, hworld⟩⟩ := exists_getElem?_of_set hx hy
    · rw [hsame]
      exact h.sound j z hz
    · rw [hworld]
      exact hsound
  · intro j k y z hy hz htarget hyopen hzopen
    obtain ⟨y', hy', hyreq, hyopen'⟩ := hopen j y hy hyopen
    obtain ⟨z', hz', hzreq, hzopen'⟩ := hopen k z hz hzopen
    exact h.single j k y' z' hy' hz' (by rw [hyreq, hzreq, htarget]) hyopen' hzopen'
  · intro req hreq j y hy htarget
    by_contra hyopen
    obtain ⟨z, hz, hzreq, hzopen⟩ := hopen j y hy (Bool.not_eq_false _ ▸ hyopen)
    rw [h.reserved req hreq j z hz (by rw [hzreq, htarget])] at hzopen
    cases hzopen

theorem ProvisionSystem.Guarded.step (hname : p.name = ubuntu26SambaAdDcProvision)
    {a : ProvisionAction} {s' : ProvisionSystem} (hok : s.enqueueFailsUnclaimed a = true)
    (hstep : provisionStep S p s a = some s') (h : s.Guarded) : s'.Guarded := by
  cases a with
  | beginCreate req =>
    obtain ⟨⟨-, hcheck⟩, hs'⟩ := Option.ite_none_right_eq_some.mp hstep
    obtain rfl := Option.some.inj hs'
    exact h.beginCreate hname hcheck
  | abortCreate =>
    obtain rfl := Option.some.inj hstep
    exact h.abortCreate
  | commitCreate =>
    simp only [provisionStep, Option.bind_eq_bind, Option.bind_eq_some_iff, Option.pure_def,
      Option.some.injEq] at hstep
    obtain ⟨req, hreq, w, hcreate, rfl⟩ := hstep
    exact h.commitCreate hreq hcreate
  | execution i a =>
    simp only [provisionStep, Option.bind_eq_bind, Option.bind_eq_some_iff, Option.guard_eq_some',
      Option.pure_def, Option.some.injEq] at hstep
    obtain ⟨_, ⟨hdelivery, -⟩, x, hx, w, hw, rfl⟩ := hstep
    have hsound := h.sound i x hx
    have hfails : ∀ now, a = .enqueueRaised now → x.world.ledger.row.status ≠ .running := by
      rintro now rfl
      simpa [ProvisionSystem.enqueueFailsUnclaimed, hx] using hok
    exact h.deliver hx (hsound.step hdelivery hfails hw) (hsound.isTerminal_step hdelivery hw)

end

/-- In every history in which failed enqueues are recorded only while no worker runs the execution,
no two provisions of one target are dispatched at the same time. -/
theorem provision_exclusive (S : Site) (p : Procedure)
    (hname : p.name = ubuntu26SambaAdDcProvision) (actions : List ProvisionAction)
    (hmeets : Transition.Meets (provisionStep S p)
      (fun s a => s.enqueueFailsUnclaimed a = true) ProvisionSystem.empty actions) :
    (Transition.run (provisionStep S p) ProvisionSystem.empty actions).Exclusive := by
  have hguarded : (Transition.run (provisionStep S p) ProvisionSystem.empty actions).Guarded :=
    Transition.run_invariant_of_meets
      (fun s a s' hok hstep h => h.step hname hok hstep) hmeets ProvisionSystem.guarded_empty
  exact hguarded.exclusive

def provisionProcedure : Procedure := { directProcedure with name := ubuntu26SambaAdDcProvision }

def orderlyProvision : List ProvisionAction :=
  [.beginCreate default, .commitCreate, .execution 0 (.enqueued .null),
    .execution 0 (.claim 0 false none 0), .beginCreate default]

theorem provision_exclusive_orderly :
    Transition.Meets (provisionStep default provisionProcedure)
        (fun s a => s.enqueueFailsUnclaimed a = true) ProvisionSystem.empty orderlyProvision ∧
      (Transition.run (provisionStep default provisionProcedure) ProvisionSystem.empty
        orderlyProvision).Exclusive := by
  have hmeets : Transition.Meets (provisionStep default provisionProcedure)
      (fun s a => s.enqueueFailsUnclaimed a = true) ProvisionSystem.empty orderlyProvision := by
    decide +kernel
  exact ⟨hmeets, provision_exclusive default provisionProcedure rfl orderlyProvision hmeets⟩

/-- The first job is published and claimed, its `enqueue` raises all the same, and the failure
written over the running execution lets a second provision of the target in. -/
def overtakenProvision : List ProvisionAction :=
  [.beginCreate default, .commitCreate, .execution 0 (.claim 0 false none 0),
    .execution 0 (.enqueueRaised 0), .beginCreate default, .commitCreate,
    .execution 1 (.claim 0 false none 0)]

theorem World.isActive_of_claimed {w : World}
    (h : (w.workers 0).map Worker.phase = some .claimed) : w.IsActive := by
  obtain ⟨x, hx, hphase⟩ := Option.map_eq_some_iff.mp h
  exact ⟨0, x, hx, by rw [hphase]; rfl⟩

theorem failed_enqueue_admits_second_provision :
    ¬(Transition.run (provisionStep default provisionProcedure) ProvisionSystem.empty
      overtakenProvision).Exclusive := by
  have hboth : (Transition.run (provisionStep default provisionProcedure) ProvisionSystem.empty
      overtakenProvision).executions.map
        (fun x => (x.req.target, (x.world.workers 0).map Worker.phase)) =
      [((default : ExecutionRequest).target, some .claimed),
        ((default : ExecutionRequest).target, some .claimed)] := by
    decide +kernel
  intro h
  obtain ⟨x, rest, hrun, hx, hrest⟩ := List.map_eq_cons_iff.mp hboth
  obtain ⟨y, _, rfl, hy, -⟩ := List.map_eq_cons_iff.mp hrest
  obtain ⟨hxtarget, hxphase⟩ := Prod.mk.inj hx
  obtain ⟨hytarget, hyphase⟩ := Prod.mk.inj hy
  have hsame := h 0 1 x y (by rw [hrun]; rfl) (by rw [hrun]; rfl) (hxtarget.trans hytarget.symm)
    (World.isActive_of_claimed hxphase) (World.isActive_of_claimed hyphase)
  omega

end NetboxRpc
