import Mathlib.Data.List.MinMax
import NetboxRpc.RunPrefixes
import NetboxRpc.TwoPersonDispatch

/-!
# The age of a queued restart

A restart of the production worker may wait ten minutes. The claim and the expiry look at the time
of the queue event in the stream, so here every event of the lifecycle has the time at which it was
created. A transaction reads the clock before it writes.
-/

namespace NetboxRpc

def controlQueueMaxAge : ℤ := 600 * 1000000

structure TimedWorld where
  req : ExecutionRequest
  world : World
  created : ℕ → DateTime

def TimedWorld.events (t : TimedWorld) : List (EventRecord × DateTime) :=
  t.world.ledger.events.zipIdx.map (fun x => (x.1, t.created x.2))

def isQueueEvent (e : EventRecord × DateTime) : Bool := e.1.event == "ExecutionQueued"

/-- `_restart_queued_at`: the time of the queue event with the highest sequence. -/
def restartQueuedAt (t : TimedWorld) : Option DateTime :=
  ((t.events.filter isQueueEvent).argmax (fun e => e.1.sequence)).map Prod.snd

def restartQueueIsStale (t : TimedWorld) (now : DateTime) : Bool :=
  decide (t.world.procedure.name = netboxProductionRestartRqWorker) &&
    match restartQueuedAt t with
    | none => true
    | some queuedAt => decide (controlQueueMaxAge ≤ now - queuedAt)

structure TimedAction where
  checkedAt : DateTime
  writtenAt : DateTime
  action : Action

def Action.withStale (stale : Bool) : Action → Action
  | .claim worker _ orgRefusal now => .claim worker stale orgRefusal now
  | a => a

theorem Action.withStale_cases (stale : Bool) (a : Action) :
    (∃ i old orgRefusal now, a = .claim i old orgRefusal now ∧
        a.withStale stale = .claim i stale orgRefusal now) ∨
      ((∀ i old orgRefusal now, a ≠ .claim i old orgRefusal now) ∧ a.withStale stale = a) := by
  cases a with
  | claim i old orgRefusal now => exact .inl ⟨i, old, orgRefusal, now, rfl, rfl⟩
  | _ => exact .inr ⟨fun _ _ _ _ h => (nomatch h), rfl⟩

/-- The expiry is refused while the execution is not stale. -/
def Action.waits (stale : Bool) : Action → Bool
  | .expireStaleRestart _ => !stale
  | _ => false

def timedStep (S : Site) (t : TimedWorld) (a : TimedAction) : Option TimedWorld := do
  let stale := restartQueueIsStale t a.checkedAt
  guard (a.action.waits stale = false)
  let w ← step S t.req t.world (a.action.withStale stale)
  let old := t.world.ledger.events.length
  return { t with world := w, created := fun i => if i < old then t.created i else a.writtenAt }

def createTimed (S : Site) (req : ExecutionRequest) (p : Procedure) (normalized : Entries)
    (target : BackendTarget) (writtenAt : DateTime) : Option TimedWorld := do
  let w ← create S req p normalized target
  return ⟨req, w, fun _ => writtenAt⟩

variable {S : Site} {req : ExecutionRequest} {w w' : World} {t t' : TimedWorld} {a : TimedAction}

/-! ## What a move can write -/

/-- What is known of an event that a move writes: it starts only a queued execution, for a worker,
and it queues only a pending one. -/
structure Written (w w' : World) (e : DomainEvent) : Prop where
  wellNamed : e.WellNamed
  starts : e.type = .executionStarted →
    w.ledger.row.status = .queued ∧ ∃ i, w'.workers i ≠ none
  queues : w.ledger.row.status ≠ .pendingApproval → e.type ≠ .executionQueued ∧
    e.type.status ≠ some .queued ∧ e.type.status ≠ some .pendingApproval

theorem Written.of_status {e : DomainEvent} {s : ExecutionStatus} (h : e.type.status = some s)
    (hs : s ∉ [.queued, .pendingApproval, .running]) : Written w w' e := by
  simp only [List.mem_cons, List.not_mem_nil, or_false, not_or] at hs
  obtain ⟨hqueued, hpending, hrunning⟩ := hs
  refine ⟨DomainEvent.wellNamed_of_status h, fun ht => ?_, fun _ => ⟨fun ht => ?_, ?_, ?_⟩⟩
  · rw [ht] at h
    exact absurd (Option.some.inj h).symm hrunning
  · rw [ht] at h
    exact hqueued (Option.some.inj h).symm
  · rw [h]
    exact fun heq => hqueued (Option.some.inj heq)
  · rw [h]
    exact fun heq => hpending (Option.some.inj heq)

theorem Written.of_incidental {e : DomainEvent} (h : e.Incidental) : Written w w' e := by
  refine ⟨h.wellNamed, fun ht => absurd ht h.type_ne.1, fun _ => ⟨fun ht => ?_, ?_, ?_⟩⟩
  · cases h.ends .queued (by rw [ht]; rfl)
  · exact fun hs => nomatch h.ends _ hs
  · exact fun hs => nomatch h.ends _ hs

theorem Written.of_decision {e : DomainEvent} (h : e.IsDecision) : Written w w' e := by
  cases h with
  | approved => exact .of_status rfl (by decide)
  | rejected => exact .of_status rfl (by decide)
  | expired => exact .of_status rfl (by decide)

theorem Move.exists_written {a : Action} (h : Move S req w a w') :
    ∃ p copy es, w'.ledger = (w.append S req p copy es).2 ∧ ∀ e ∈ es, Written w w' e := by
  have hnone : w'.ledger = w.ledger →
      ∃ p copy es, w'.ledger = (w.append S req p copy es).2 ∧ ∀ e ∈ es, Written w w' e := by
    intro hledger
    refine ⟨w.procedure, w.ledger.row, [], ?_, by simp⟩
    rw [hledger, World.append, appendAll_nil]
  have hone : ∀ {p copy e}, w'.ledger = (w.append S req p copy [e]).2 → Written w w' e →
      ∃ p copy es, w'.ledger = (w.append S req p copy es).2 ∧ ∀ e ∈ es, Written w w' e :=
    fun hledger he => ⟨_, _, _, hledger, by simpa using he⟩
  cases h with
  | load | editProcedure | enqueueLost | called => exact hnone rfl
  | advanced => exact hnone rfl
  | @worked a i x x' events fate done hx hrunning ha hwork =>
    cases fate with
    | commits => exact ⟨_, _, _, rfl, fun e he => .of_incidental (hwork.incidental e he)⟩
    | aborts n => exact hnone rfl
  | approvedProtected userId hash at_ reason hpending hs =>
    refine ⟨_, _, _, congrArg Prod.snd hs, ?_⟩
    simp only [List.forall_mem_cons]
    refine ⟨.of_status rfl (by decide), ⟨DomainEvent.wellNamed_of_status rfl, ?_,
      fun h => absurd hpending h⟩, by simp⟩
    intro ht
    cases ht
  | decided hloaded hpending he => exact hone rfl (.of_decision he)
  | @claimed a i now s hfree hqueued hs =>
    refine hone (congrArg Prod.snd hs) ⟨DomainEvent.wellNamed_of_status rfl,
      fun _ => ⟨hqueued, i, by simp [World.setWorker]⟩, fun _ => ⟨?_, ?_, ?_⟩⟩
    all_goals
      intro ht
      cases ht
  | @cancelled a e he => exact hone rfl (.of_status (s := .cancelled) (by rw [he]; rfl) (by decide))
  | failedLocked | enqueueRaised | failed => exact hone rfl (.of_status rfl (by decide))
  | enqueued => exact hone rfl (.of_incidental (.of_type (.inr (.inr (.inr (.inl rfl))))))

/-- The status after a transaction is the old one, or one that an event sets. -/
theorem status_appendAll_mem (P : Platform) (ctx : ExecutionContext)
    (s : ProjectionState × Ledger) (es : List DomainEvent) :
    (appendAll P ctx s es).2.row.status = s.2.row.status ∨
      ∃ e ∈ es, e.type.status = some (appendAll P ctx s es).2.row.status := by
  induction es generalizing s with
  | nil => exact .inl rfl
  | cons e es ih =>
    rw [appendAll_cons]
    rcases ih (appendAndProject P ctx s.1 s.2 e) with h | ⟨d, hd, hs⟩
    · rw [h, status_appendAndProject_row]
      cases he : e.type.status with
      | none => simp
      | some new =>
        rw [Option.getD_some]
        split_ifs
        · exact .inl rfl
        · exact .inr ⟨e, List.mem_cons_self, he⟩
    · exact .inr ⟨d, List.mem_cons_of_mem e hd, hs⟩

/-! ## Only a claim starts -/

/-- The claim starts the execution, or fails it closed. -/
theorem exists_event_of_claim {i : ℕ} {stale : Bool} {orgRefusal : Option (String × String)}
    {now : DateTime} (h : step S req w (.claim i stale orgRefusal now) = some w') :
    ∃ p copy e, w'.ledger = (w.append S req p copy [e]).2 ∧ e.WellNamed ∧
      (e.type = .executionStarted →
        ¬(w.procedure.name = netboxProductionRestartRqWorker ∧ stale = true)) := by
  simp only [step, World.claim, Option.bind_eq_bind, Option.bind_eq_some_iff,
    Option.guard_eq_some'] at h
  obtain ⟨_, -, h⟩ := h
  split at h
  · cases h
    refine ⟨_, _, _, rfl, DomainEvent.wellNamed_of_status rfl, fun ht => ?_⟩
    cases ht
  · rename_i hrefusal
    cases h
    refine ⟨_, _, _, rfl, DomainEvent.wellNamed_of_status rfl, fun _ hstale => ?_⟩
    unfold claimRefusal at hrefusal
    dsimp only at hrefusal
    split_ifs at hrefusal

/-- While there is no worker, no other action makes one. -/
theorem workers_of_move {a : Action} (hidle : ∀ i, w.workers i = none)
    (hclaim : ∀ i stale orgRefusal now, a ≠ .claim i stale orgRefusal now)
    (h : Move S req w a w') : w'.workers = w.workers := by
  cases h with
  | load | editProcedure | cancelled | failedLocked | decided | approvedProtected | enqueued
  | enqueueRaised | enqueueLost => rfl
  | claimed _ _ _ ha =>
    obtain ⟨stale, orgRefusal, rfl⟩ := ha
    exact absurd rfl (hclaim _ _ _ _)
  | advanced hx | worked hx | called hx | failed hx =>
    rw [hidle] at hx
    cases hx

/-! ## The stream with its times -/

theorem map_zipIdx_append {α β : Type} (l new : List α) (time : ℕ → β) (b : β) :
    (l ++ new).zipIdx.map (fun x => (x.1, if x.2 < l.length then time x.2 else b)) =
      l.zipIdx.map (fun x => (x.1, time x.2)) ++ new.map (fun a => (a, b)) := by
  have hold : ∀ x ∈ l.zipIdx, (x.1, if x.2 < l.length then time x.2 else b) = (x.1, time x.2) := by
    intro x hx
    rw [if_pos (show x.2 < l.length from List.snd_lt_of_mem_zipIdx hx)]
  have hnew : ∀ x ∈ new.zipIdx l.length,
      (x.1, if x.2 < l.length then time x.2 else b) = ((fun a => (a, b)) ∘ Prod.fst) x := by
    intro x hx
    rw [if_neg (List.le_snd_of_mem_zipIdx hx).not_gt]
    rfl
  rw [List.zipIdx_append, List.map_append, Nat.zero_add, List.map_congr_left hold,
    List.map_congr_left hnew, ← List.map_map, List.zipIdx_map_fst]

/-- What a performed step did: the lifecycle took the action, and every record that it added got the
time of the write. -/
theorem exists_of_timedStep (h : timedStep S t a = some t') :
    ∃ added, step S t.req t.world (a.action.withStale (restartQueueIsStale t a.checkedAt)) =
        some t'.world ∧
      t'.world.ledger.events = t.world.ledger.events ++ added ∧
      t'.events = t.events ++ added.map (fun r => (r, a.writtenAt)) := by
  simp only [timedStep, Option.bind_eq_bind, Option.bind_eq_some_iff, Option.guard_eq_some',
    Option.pure_def, Option.some.injEq] at h
  obtain ⟨-, -, w', hstep, rfl⟩ := h
  obtain ⟨p, copy, es, hledger⟩ := (Move.of_step hstep).exists_append
  obtain ⟨added, hadded, -⟩ := exists_events_appendAll S.platform (executionContext t.req p)
    (copy, t.world.ledger) es
  have hevents : w'.ledger.events = t.world.ledger.events ++ added := by
    rw [hledger]
    exact hadded
  refine ⟨added, hstep, hevents, ?_⟩
  unfold TimedWorld.events
  dsimp only
  rw [hevents, map_zipIdx_append]

theorem Move.procedure_eq {a : Action} (h : Move S req w a w') :
    w'.procedure = w.procedure ∨ a = .editProcedure w'.procedure := by
  cases h with
  | editProcedure p => exact .inr rfl
  | @worked a i x x' events fate done => cases fate <;> exact .inl rfl
  | _ => exact .inl rfl

theorem name_timedStep (h : timedStep S t a = some t')
    (hname : ∀ p, a.action = .editProcedure p → p.name = t.world.procedure.name) :
    t'.world.procedure.name = t.world.procedure.name := by
  obtain ⟨_, hstep, -⟩ := exists_of_timedStep h
  rcases (Move.of_step hstep).procedure_eq with hp | hp
  · rw [hp]
  · rcases a.action.withStale_cases (restartQueueIsStale t a.checkedAt) with
      ⟨i, _, orgRefusal, now, -, hclaim⟩ | ⟨-, hsame⟩
    · rw [hclaim] at hp
      cases hp
    · exact hname _ (hsame.symm.trans hp)

/-! ## Starts in time -/

/-- A record of a transaction has a name only if one of its events has it. -/
theorem exists_event_of_mem_added {p : Procedure} {copy : ProjectionState} {es : List DomainEvent}
    {added : List EventRecord} (hledger : w'.ledger = (w.append S req p copy es).2)
    (hadded : w'.ledger.events = w.ledger.events ++ added) {r : EventRecord} (hr : r ∈ added) :
    ∃ e ∈ es, e.eventName = r.event := by
  obtain ⟨others, hothers, hnames⟩ := exists_events_appendAll S.platform (executionContext req p)
    (copy, w.ledger) es
  rw [hledger, World.append, hothers] at hadded
  rw [List.append_cancel_left hadded] at hnames
  have hmem : r.event ∈ es.map DomainEvent.eventName := by
    rw [← hnames]
    exact List.mem_map_of_mem hr
  exact List.mem_map.mp hmem

theorem type_of_eventName {e : DomainEvent} {t : EventType} (hwell : e.WellNamed)
    (ht : t ≠ .backendEventRecorded) (h : e.eventName = t.eventName) : e.type = t := by
  rw [← type?_eq_some_iff hwell ht, h, EventType.ofName?_eventName]

/-- Every start comes after a queue event that is younger than the limit, up to the time that a
claim takes from its look at the clock to its write. -/
def StartsInTime (slack : ℤ) (events : List (EventRecord × DateTime)) : Prop :=
  ∀ before r startedAt after, events = before ++ (r, startedAt) :: after →
    r.event = "ExecutionStarted" →
      ∃ q ∈ before, isQueueEvent q = true ∧ startedAt - q.2 < controlQueueMaxAge + slack

theorem StartsInTime.append {slack : ℤ} {events new : List (EventRecord × DateTime)}
    (h : StartsInTime slack events)
    (hnew : ∀ x ∈ new, x.1.event = "ExecutionStarted" →
      ∃ q ∈ events, isQueueEvent q = true ∧ x.2 - q.2 < controlQueueMaxAge + slack) :
    StartsInTime slack (events ++ new) := by
  intro before r startedAt after hsplit hstarted
  rcases List.append_eq_append_iff.mp hsplit with ⟨more, hbefore, hrest⟩ | ⟨more, hevents, hrest⟩
  · -- The start is among the new events.
    have hmem : (r, startedAt) ∈ new := by
      rw [hrest]
      exact List.mem_append_right _ List.mem_cons_self
    obtain ⟨q, hq, hage⟩ := hnew _ hmem hstarted
    exact ⟨q, by rw [hbefore]; exact List.mem_append_left _ hq, hage⟩
  · cases more with
    | nil =>
      rw [List.append_nil] at hevents
      rw [List.nil_append] at hrest
      obtain ⟨q, hq, hage⟩ := hnew _ (hrest ▸ List.mem_cons_self) hstarted
      exact ⟨q, hevents ▸ hq, hage⟩
    | cons x more =>
      rw [List.cons_append] at hrest
      obtain ⟨rfl, -⟩ := List.cons.inj hrest
      exact h before r startedAt more hevents hstarted

/-- A restart that is not stale has a young queue event. -/
theorem exists_queueEvent_of_not_stale {now : DateTime}
    (hname : t.world.procedure.name = netboxProductionRestartRqWorker)
    (h : restartQueueIsStale t now = false) :
    ∃ q ∈ t.events, isQueueEvent q = true ∧ now - q.2 < controlQueueMaxAge := by
  unfold restartQueueIsStale restartQueuedAt at h
  rw [decide_eq_true hname, Bool.true_and] at h
  cases hq : (t.events.filter isQueueEvent).argmax (fun e => e.1.sequence) with
  | none => simp [hq] at h
  | some q =>
    obtain ⟨hmem, hqueue⟩ := List.mem_filter.mp (List.argmax_mem hq)
    refine ⟨q, hmem, hqueue, ?_⟩
    simpa [hq] using h

theorem age_lt {written checked queued limit slack : ℤ} (hage : checked - queued < limit)
    (hslack : written - checked ≤ slack) : written - queued < limit + slack := by
  omega

/-- The time that a claim takes is bounded, and no edit renames the procedure. -/
def OnClock (slack : ℤ) (_ : TimedWorld) (a : TimedAction) : Prop :=
  (∀ i stale orgRefusal now, a.action = .claim i stale orgRefusal now →
    a.writtenAt - a.checkedAt ≤ slack) ∧
  ∀ p, a.action = .editProcedure p → p.name = netboxProductionRestartRqWorker

structure RestartInTime (slack : ℤ) (t : TimedWorld) : Prop where
  claims : Claims t.world
  name : t.world.procedure.name = netboxProductionRestartRqWorker
  starts : StartsInTime slack t.events

theorem RestartInTime.timedStep {slack : ℤ} (hclock : OnClock slack t a)
    (h : timedStep S t a = some t') (hinv : RestartInTime slack t) : RestartInTime slack t' := by
  obtain ⟨added, hstep, hadded, hevents⟩ := exists_of_timedStep h
  have hsame : t'.world.procedure.name = t.world.procedure.name :=
    name_timedStep h fun p hp => (hclock.2 p hp).trans hinv.name.symm
  refine ⟨hinv.claims.move (.of_step hstep), hsame.trans hinv.name,
    hevents ▸ hinv.starts.append fun x hx hstarted => ?_⟩
  obtain ⟨r, hr, rfl⟩ := List.mem_map.mp hx
  rcases a.action.withStale_cases (restartQueueIsStale t a.checkedAt) with
    ⟨i, old, orgRefusal, now, hold, hclaim⟩ | ⟨hclaim, hother⟩
  · -- The claim starts the execution only if the latest queue event is young enough.
    rw [hclaim] at hstep
    obtain ⟨p, copy, e, hledger, hwell, hstart⟩ := exists_event_of_claim hstep
    obtain ⟨e', he', hname⟩ := exists_event_of_mem_added hledger hadded hr
    rw [List.mem_singleton.mp he'] at hname
    have hfresh := hstart (type_of_eventName (t := .executionStarted) hwell (by decide)
      (hname.trans hstarted))
    obtain ⟨q, hq, hqueue, hage⟩ := exists_queueEvent_of_not_stale hinv.name
      (by simpa [hinv.name] using hfresh)
    exact ⟨q, hq, hqueue, age_lt hage (hclock.1 i old orgRefusal now hold)⟩
  · -- Any other action would have to find a worker on a queued execution.
    rw [hother] at hstep
    obtain ⟨p, copy, es, hledger, hes⟩ := (Move.of_step hstep).exists_written
    obtain ⟨e, he, hname⟩ := exists_event_of_mem_added hledger hadded hr
    have htype := type_of_eventName (t := .executionStarted) (hes e he).wellNamed (by decide)
      (hname.trans hstarted)
    obtain ⟨hqueued, i, hworker⟩ := (hes e he).starts htype
    have hidle := hinv.claims.workers_of_open (by rw [hqueued]; rfl)
    rw [workers_of_move hidle hclaim (.of_step hstep)] at hworker
    exact absurd (hidle i) hworker

theorem RestartInTime.of_createTimed {slack : ℤ} {p : Procedure} {normalized : Entries}
    {target : BackendTarget} {createdAt : DateTime}
    (hname : p.name = netboxProductionRestartRqWorker)
    (h : createTimed S req p normalized target createdAt = some t) : RestartInTime slack t := by
  simp only [createTimed, Option.bind_eq_bind, Option.bind_eq_some_iff, Option.pure_def,
    Option.some.injEq] at h
  obtain ⟨w, hcreate, rfl⟩ := h
  have hcreated := Created.of_create hcreate
  have hfresh : w.procedure = p ∧ w.workers = fun _ => none := by
    cases hcreated <;> exact ⟨rfl, rfl⟩
  have hclaims := Claims.of_created hcreated
  refine ⟨hclaims, hfresh.1 ▸ hname, ?_⟩
  intro before r startedAt after hsplit hstarted
  have hmem : (r, startedAt) ∈ w.ledger.events.zipIdx.map (fun x => (x.1, createdAt)) := by
    rw [show w.ledger.events.zipIdx.map _ = _ from hsplit]
    exact List.mem_append_right _ List.mem_cons_self
  obtain ⟨x, hx, hr⟩ := List.mem_map.mp hmem
  obtain rfl : x.1 = r := congrArg Prod.fst hr
  cases hclaims with
  | idle hworkers hcalls hstarts =>
    have htype : x.1.type? = some .executionStarted := by
      rw [EventRecord.type?, hstarted]
      exact EventType.ofName?_eventName .executionStarted
    exact absurd (decide_eq_true htype)
      (List.countP_eq_zero.mp hstarts x.1 (List.fst_mem_of_mem_zipIdx hx))
  | held i x hworkers =>
    have hi := congrFun (hfresh.2.symm.trans hworkers) i
    rw [Function.update_self] at hi
    cases hi

/-- A restart starts only while its queue event is younger than ten minutes, whatever else happens
to it. The slack is the longest time from a claim's look at the clock to its write. -/
theorem restart_started_in_time {S : Site} {req : ExecutionRequest} {p : Procedure}
    {normalized : Entries} {target : BackendTarget} {createdAt : DateTime} {t₀ : TimedWorld}
    {slack : ℤ} {actions : List TimedAction}
    (hname : p.name = netboxProductionRestartRqWorker)
    (hcreate : createTimed S req p normalized target createdAt = some t₀)
    (hclock : Transition.Meets (timedStep S) (OnClock slack) t₀ actions) :
    StartsInTime slack (Transition.run (timedStep S) t₀ actions).events :=
  (Transition.run_invariant_of_meets (fun _ _ _ hok h hinv => hinv.timedStep hok h) hclock
    (RestartInTime.of_createTimed hname hcreate)).starts

def restartProcedure : Procedure :=
  { (default : Procedure) with name := netboxProductionRestartRqWorker, enabled := true }

def restartSite : Site :=
  { (default : Site) with
    contract := fun _ => some { (default : Contract) with
      policy := fun _ => protectedProcedurePolicy default default restartProcedure } }

def restartActions : List TimedAction :=
  [⟨0, 60, .approveProtected 2 [] default "" 0⟩,
    ⟨599 * 1000000, 599 * 1000000 + 5, .claim 0 false none 0⟩]

theorem restart_started_in_time_once : ∃ t₀,
    createTimed restartSite installRequest restartProcedure [] default 0 = some t₀ ∧
      (Transition.run (timedStep restartSite) t₀ restartActions).events.any
        (fun e => e.1.event == "ExecutionStarted") = true ∧
      StartsInTime 5 (Transition.run (timedStep restartSite) t₀ restartActions).events := by
  have hstarted : (createTimed restartSite installRequest restartProcedure [] default 0).map
      (fun t₀ => (Transition.run (timedStep restartSite) t₀ restartActions).events.any
        (fun e => e.1.event == "ExecutionStarted")) = some true := by
    decide +kernel
  obtain ⟨t₀, hcreate, hany⟩ := Option.map_eq_some_iff.mp hstarted
  refine ⟨t₀, hcreate, hany, restart_started_in_time rfl hcreate (Transition.meets_of_forall ?_)⟩
  intro a ha s
  simp only [restartActions, List.mem_cons, List.not_mem_nil, or_false] at ha
  rcases ha with rfl | rfl
  · exact ⟨fun _ _ _ _ h => (nomatch h), fun p hp => (nomatch hp)⟩
  · exact ⟨fun _ _ _ _ _ => by decide, fun p hp => (nomatch hp)⟩

end NetboxRpc
