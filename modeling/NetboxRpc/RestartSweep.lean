import Mathlib.Data.List.Sort
import NetboxRpc.KeyedTable
import NetboxRpc.RestartQueue

/-!
# The sweep of overdue restarts

The periodic sweep first selects the overdue restarts and then visits them one by one, each under
its row lock. In between, the executions go on: they are cancelled, claimed, expired by their own
jobs or by other sweeps, and new ones are created.
-/

namespace NetboxRpc

structure Sweep where
  startedAt : DateTime
  left : List ℕ
deriving DecidableEq

structure Fleet where
  table : KeyedTable (ℕ × TimedWorld) Prod.fst
  sweeps : ℕ → Option Sweep

inductive FleetAction
  | create (pk : ℕ) (req : ExecutionRequest) (p : Procedure) (normalized : Entries)
      (target : BackendTarget) (writtenAt : DateTime)
  | act (pk : ℕ) (a : TimedAction)
  | beginSweep (k : ℕ) (now : DateTime) (batchSize : ℕ)
  | visit (k : ℕ) (checkedAt writtenAt : DateTime)

/-- The rows of the sweep's query: one for every queue event before the cutoff. -/
def overdueMatches (now : DateTime) (r : ℕ × TimedWorld) : List ℕ :=
  if r.2.world.ledger.row.status = .queued ∧
      r.2.world.procedure.name = netboxProductionRestartRqWorker then
    (r.2.events.filter (fun e => isQueueEvent e && decide (e.2 ≤ now - controlQueueMaxAge))).map
      (fun _ => r.1)
  else []

def sweepCandidates (f : Fleet) (now : DateTime) : List ℕ :=
  (f.table.rows.flatMap (overdueMatches now)).insertionSort (· ≤ ·)

def Fleet.act (S : Site) (f : Fleet) (pk : ℕ) (a : TimedAction) : Fleet :=
  let change := Prod.map id (fun t => Transition.next (timedStep S) t a)
  { f with table := f.table.update pk change fun _ => rfl }

def expireAction (checkedAt writtenAt : DateTime) : TimedAction :=
  ⟨checkedAt, writtenAt, .expireStaleRestart checkedAt⟩

/-- `expire_stale_restart_executions` begins with its query and goes on with one visit for each
candidate. -/
def fleetStep (S : Site) (f : Fleet) : FleetAction → Option Fleet
  | .create pk req p normalized target writtenAt => do
    let t ← createTimed S req p normalized target writtenAt
    if h : pk ∉ f.table.rows.map Prod.fst then
      return { f with table := f.table.insert (pk, t) h }
    else none
  | .act pk a => some (f.act S pk a)
  | .beginSweep k now batchSize =>
    let sweep : Sweep := ⟨now, (sweepCandidates f now).take batchSize⟩
    if (f.sweeps k).isNone then some { f with sweeps := Function.update f.sweeps k (some sweep) }
    else none
  | .visit k checkedAt writtenAt =>
    match f.sweeps k with
    | some ⟨startedAt, pk :: left⟩ =>
      some { f.act S pk (expireAction checkedAt writtenAt) with
        sweeps := Function.update f.sweeps k (some ⟨startedAt, left⟩) }
    | _ => none

structure Overdue (now : DateTime) (t : TimedWorld) : Prop where
  queued : t.world.ledger.row.status = .queued
  name : t.world.procedure.name = netboxProductionRestartRqWorker
  age : ∃ queuedAt, restartQueuedAt t = some queuedAt ∧ queuedAt ≤ now - controlQueueMaxAge

instance (now : DateTime) (t : TimedWorld) : Decidable (Overdue now t) :=
  decidable_of_iff (t.world.ledger.row.status = .queued ∧
      t.world.procedure.name = netboxProductionRestartRqWorker ∧
      ∃ queuedAt ∈ restartQueuedAt t, queuedAt ≤ now - controlQueueMaxAge)
    ⟨fun h => ⟨h.1, h.2.1, h.2.2⟩, fun h => ⟨h.queued, h.name, h.age⟩⟩

def KeepsNames (f : Fleet) : FleetAction → Prop
  | .act pk a => ∀ p, a.action = .editProcedure p →
      ∀ r ∈ f.table.rows, r.1 = pk → p.name = r.2.world.procedure.name
  | _ => True

def ClockForward (f : Fleet) : FleetAction → Prop
  | .visit k checkedAt _ => ∀ sweep, f.sweeps k = some sweep → sweep.startedAt ≤ checkedAt
  | _ => True

variable {S : Site} {t t' : TimedWorld} {a : TimedAction} {now : DateTime}

/-! ## An execution that is no longer pending -/

structure Tracked (now : DateTime) (t : TimedWorld) : Prop where
  name : t.world.procedure.name = netboxProductionRestartRqWorker
  open_ : t.world.ledger.row.status ≠ .pendingApproval
  age : ∃ queuedAt, restartQueuedAt t = some queuedAt ∧ queuedAt ≤ now - controlQueueMaxAge

theorem filter_isQueueEvent_eq_nil {added : List EventRecord} {at_ : DateTime}
    (h : ∀ r ∈ added, r.event ≠ "ExecutionQueued") :
    (added.map (fun r => (r, at_))).filter isQueueEvent = [] := by
  rw [List.filter_eq_nil_iff]
  intro e he
  obtain ⟨r, hr, rfl⟩ := List.mem_map.mp he
  simpa [isQueueEvent] using h r hr

/-- A step on an execution that is not pending leaves its queue time alone and does not queue
it. -/
theorem timedStep_of_not_pending (hopen : t.world.ledger.row.status ≠ .pendingApproval)
    (h : timedStep S t a = some t') :
    restartQueuedAt t' = restartQueuedAt t ∧
      t'.world.ledger.row.status ≠ .pendingApproval ∧
      (t'.world.ledger.row.status = .queued → t.world.ledger.row.status = .queued) := by
  obtain ⟨added, hstep, hadded, hevents⟩ := exists_of_timedStep h
  obtain ⟨p, copy, es, hledger, hes⟩ := (Move.of_step hstep).exists_written
  refine ⟨?_, ?_⟩
  · have hnone : ∀ r ∈ added, r.event ≠ "ExecutionQueued" := by
      intro r hr hname
      obtain ⟨e, he, heq⟩ := exists_event_of_mem_added hledger hadded hr
      have htype := type_of_eventName (t := .executionQueued) (hes e he).wellNamed (by decide)
        (heq.trans hname)
      exact ((hes e he).queues hopen).1 htype
    rw [restartQueuedAt, hevents, List.filter_append, filter_isQueueEvent_eq_nil hnone,
      List.append_nil]
    rfl
  · rw [hledger]
    rcases status_appendAll_mem S.platform (executionContext t.req p) (copy, t.world.ledger) es with
      hsame | ⟨e, he, hset⟩
    · rw [World.append, hsame]
      exact ⟨hopen, id⟩
    · obtain ⟨-, hqueued, hpending⟩ := (hes e he).queues hopen
      refine ⟨fun hs => hpending ?_, fun hs => absurd ?_ hqueued⟩
      · rw [hset]
        exact congrArg some hs
      · rw [hset]
        exact congrArg some hs

theorem Tracked.of_overdue (h : Overdue now t) : Tracked now t where
  name := h.name
  open_ := by
    rw [h.queued]
    decide
  age := h.age

theorem Tracked.timedStep (h : Tracked now t)
    (hname : ∀ p, a.action = .editProcedure p → p.name = t.world.procedure.name)
    (hstep : timedStep S t a = some t') : Tracked now t' ∧
      (t'.world.ledger.row.status = .queued → t.world.ledger.row.status = .queued) := by
  obtain ⟨hage, hopen, hqueued⟩ := timedStep_of_not_pending h.open_ hstep
  exact ⟨⟨(name_timedStep hstep hname).trans h.name, hopen, hage ▸ h.age⟩, hqueued⟩

theorem Tracked.next (h : Tracked now t)
    (hname : ∀ p, a.action = .editProcedure p → p.name = t.world.procedure.name) :
    Tracked now (Transition.next (NetboxRpc.timedStep S) t a) ∧
      ((Transition.next (NetboxRpc.timedStep S) t a).world.ledger.row.status = .queued →
        t.world.ledger.row.status = .queued) := by
  cases hstep : NetboxRpc.timedStep S t a with
  | none =>
    rw [Transition.next_of_refused hstep]
    exact ⟨h, id⟩
  | some t' =>
    rw [Transition.next_of_step hstep]
    exact h.timedStep hname hstep

theorem stale_of_tracked {checkedAt : DateTime} (h : Tracked now t) (hclock : now ≤ checkedAt) :
    restartQueueIsStale t checkedAt = true := by
  obtain ⟨queuedAt, hqueuedAt, hage⟩ := h.age
  have hlimit : ∀ {queued limit start checked : ℤ}, queued ≤ start - limit → start ≤ checked →
      limit ≤ checked - queued := by
    intro queued limit start checked hqueued hstart
    omega
  rw [restartQueueIsStale, hqueuedAt, decide_eq_true h.name, Bool.true_and]
  exact decide_eq_true (hlimit hage hclock)

/-- The visit of a tracked execution leaves it unqueued. -/
theorem Tracked.visited {checkedAt writtenAt : DateTime} (h : Tracked now t)
    (hclock : now ≤ checkedAt) :
    (Transition.next (NetboxRpc.timedStep S) t
      (expireAction checkedAt writtenAt)).world.ledger.row.status ≠ .queued := by
  intro hqueued
  have hbefore := (h.next (S := S) (a := expireAction checkedAt writtenAt)
    (fun p hp => nomatch hp)).2 hqueued
  have hstale := stale_of_tracked h hclock
  have hstep : ∃ t', NetboxRpc.timedStep S t (expireAction checkedAt writtenAt) = some t' ∧
      t'.world.ledger.row.status = .failed := by
    refine ⟨_, by
      simp only [NetboxRpc.timedStep, expireAction, Action.waits, Action.withStale, step, hstale,
        hbefore, h.name, and_self, guard_true, Bool.not_true, Option.bind_eq_bind]
      rfl, ?_⟩
    exact status_append_one rfl (by rw [hbefore]; decide)
  obtain ⟨t', hstep, hfailed⟩ := hstep
  rw [Transition.next_of_step hstep, hfailed] at hqueued
  cases hqueued

/-! ## The sweep -/

structure SweepInvariant (k : ℕ) (now : DateTime) (due : ℕ) (f : Fleet) : Prop where
  sweep : ∃ left, f.sweeps k = some ⟨now, left⟩ ∧
    ∀ r ∈ f.table.rows, r.1 = due → r.2.world.ledger.row.status = .queued → due ∈ left
  tracked : ∀ r ∈ f.table.rows, r.1 = due → Tracked now r.2
  present : due ∈ f.table.rows.map Prod.fst

variable {f f' : Fleet} {k due : ℕ}

theorem keys_act (pk : ℕ) (a : TimedAction) :
    (f.act S pk a).table.rows.map Prod.fst = f.table.rows.map Prod.fst := by
  rw [Fleet.act, KeyedTable.update, List.map_map]
  refine List.map_congr_left fun r _ => ?_
  simp only [Function.comp_apply]
  split_ifs <;> rfl

theorem exists_of_mem_act {pk : ℕ} {a : TimedAction} {r : ℕ × TimedWorld}
    (hr : r ∈ (f.act S pk a).table.rows) :
    ∃ t, (r.1, t) ∈ f.table.rows ∧
      (r.1 = pk ∧ r.2 = Transition.next (timedStep S) t a ∨ r.1 ≠ pk ∧ r.2 = t) := by
  rw [Fleet.act, KeyedTable.mem_update_iff] at hr
  rcases hr with ⟨r₀, hr₀, hkey, rfl⟩ | ⟨hr, hkey⟩
  · exact ⟨r₀.2, hr₀, .inl ⟨hkey, rfl⟩⟩
  · exact ⟨r.2, hr, .inr ⟨hkey, rfl⟩⟩

/-- A transaction keeps what the sweep relies on. -/
theorem SweepInvariant.act (h : SweepInvariant k now due f) (S : Site) (pk : ℕ)
    (a : TimedAction)
    (hname : ∀ p, a.action = .editProcedure p →
      ∀ r ∈ f.table.rows, r.1 = pk → p.name = r.2.world.procedure.name) :
    SweepInvariant k now due (f.act S pk a) := by
  obtain ⟨left, hleft, hqueued⟩ := h.sweep
  have hrow : ∀ r ∈ (f.act S pk a).table.rows, r.1 = due → Tracked now r.2 ∧
      (r.2.world.ledger.row.status = .queued → due ∈ left) := by
    intro r hr hdue
    obtain ⟨t, ht, ⟨hkey, hr₂⟩ | ⟨hkey, hr₂⟩⟩ := exists_of_mem_act hr
    · have hnext := (h.tracked _ ht hdue).next (S := S) (a := a)
        (fun p hp => hname p hp _ ht hkey)
      rw [hr₂]
      exact ⟨hnext.1, fun hs => hqueued (r.1, t) ht hdue (hnext.2 hs)⟩
    · rw [hr₂]
      exact ⟨h.tracked _ ht hdue, hqueued (r.1, t) ht hdue⟩
  refine ⟨⟨left, hleft, fun r hr hdue => (hrow r hr hdue).2⟩,
    fun r hr hdue => (hrow r hr hdue).1, ?_⟩
  rw [keys_act]
  exact h.present

/-- A visit by the sweep itself takes the visited execution off its list. -/
theorem SweepInvariant.visit {pk : ℕ} {left : List ℕ} {checkedAt writtenAt : DateTime}
    (h : SweepInvariant k now due f) (hsweep : f.sweeps k = some ⟨now, pk :: left⟩)
    (hclock : now ≤ checkedAt) :
    SweepInvariant k now due { f.act S pk (expireAction checkedAt writtenAt) with
      sweeps := Function.update f.sweeps k (some ⟨now, left⟩) } := by
  have hact := h.act S pk (expireAction checkedAt writtenAt) (fun p hp => nomatch hp)
  refine ⟨⟨left, Function.update_self .., fun r hr hdue hs => ?_⟩, hact.tracked, hact.present⟩
  obtain ⟨others, hothers, hqueued⟩ := h.sweep
  rw [hsweep] at hothers
  cases hothers
  obtain ⟨t, ht, ⟨hkey, hr₂⟩ | ⟨hkey, hr₂⟩⟩ := exists_of_mem_act hr
  · rw [hr₂] at hs
    exact absurd hs ((h.tracked _ ht hdue).visited hclock)
  · rw [hr₂] at hs
    have hleft := List.mem_cons.mp (hqueued (r.1, t) ht hdue hs)
    exact hleft.resolve_left fun heq => hkey (hdue.trans heq)

theorem SweepInvariant.frame (h : SweepInvariant k now due f) (htable : f'.table = f.table)
    (hsweep : f'.sweeps k = f.sweeps k) : SweepInvariant k now due f' := by
  obtain ⟨left, hleft, hqueued⟩ := h.sweep
  refine ⟨⟨left, hsweep.trans hleft, ?_⟩, ?_, ?_⟩
  · rw [htable]
    exact hqueued
  · rw [htable]
    exact h.tracked
  · rw [htable]
    exact h.present

theorem SweepInvariant.fleetStep {a : FleetAction} (hnames : KeepsNames f a)
    (hclock : ClockForward f a) (hstep : fleetStep S f a = some f')
    (h : SweepInvariant k now due f) : SweepInvariant k now due f' := by
  cases a with
  | create pk req p normalized target writtenAt =>
    simp only [NetboxRpc.fleetStep, Option.bind_eq_bind, Option.bind_eq_some_iff] at hstep
    obtain ⟨t, -, hstep⟩ := hstep
    split_ifs at hstep with hfresh
    cases hstep
    obtain ⟨left, hleft, hqueued⟩ := h.sweep
    have hold : ∀ r ∈ (f.table.insert (pk, t) hfresh).rows, r.1 = due → r ∈ f.table.rows := by
      intro r hr hdue
      rcases List.mem_append.mp hr with hr | hr
      · exact hr
      · rw [List.mem_singleton.mp hr] at hdue
        subst hdue
        exact absurd h.present hfresh
    refine ⟨⟨left, hleft, fun r hr hdue => hqueued r (hold r hr hdue) hdue⟩,
      fun r hr hdue => h.tracked r (hold r hr hdue) hdue, ?_⟩
    rw [KeyedTable.insert_rows, List.map_append]
    exact List.mem_append_left _ h.present
  | act pk a =>
    cases hstep
    exact h.act S pk a hnames
  | beginSweep k' now' batchSize =>
    simp only [NetboxRpc.fleetStep] at hstep
    split_ifs at hstep with hnone
    cases hstep
    refine h.frame rfl (Function.update_of_ne ?_ _ _)
    rintro rfl
    obtain ⟨left, hleft, -⟩ := h.sweep
    rw [hleft] at hnone
    cases hnone
  | visit k' checkedAt writtenAt =>
    simp only [NetboxRpc.fleetStep] at hstep
    split at hstep
    · rename_i startedAt pk left hsweep
      cases hstep
      by_cases hk : k' = k
      · subst hk
        obtain ⟨others, hothers, -⟩ := h.sweep
        rw [hsweep] at hothers
        cases hothers
        exact h.visit hsweep (hclock _ hsweep)
      · have hact := h.act S pk (expireAction checkedAt writtenAt) (fun p hp => nomatch hp)
        exact hact.frame rfl (Function.update_of_ne (Ne.symm hk) _ _)
    · cases hstep

theorem mem_sweepCandidates {r : ℕ × TimedWorld} (hr : r ∈ f.table.rows) (h : Overdue now r.2) :
    r.1 ∈ sweepCandidates f now := by
  obtain ⟨queuedAt, hqueuedAt, hage⟩ := h.age
  rw [sweepCandidates, (List.perm_insertionSort _ _).mem_iff, List.mem_flatMap]
  refine ⟨r, hr, ?_⟩
  rw [overdueMatches, if_pos ⟨h.queued, h.name⟩]
  obtain ⟨e, he, rfl⟩ := Option.map_eq_some_iff.mp hqueuedAt
  obtain ⟨hmem, hqueue⟩ := List.mem_filter.mp (List.argmax_mem he)
  refine List.mem_map.mpr ⟨e, List.mem_filter.mpr ⟨hmem, ?_⟩, rfl⟩
  rw [hqueue, Bool.true_and]
  exact decide_eq_true hage

theorem startedAt_of_beginSweep {batchSize : ℕ}
    (h : fleetStep S f (.beginSweep k now batchSize) = some f') :
    f'.sweeps k = some ⟨now, (sweepCandidates f now).take batchSize⟩ := by
  simp only [fleetStep] at h
  split_ifs at h
  cases h
  exact Function.update_self ..

/-- When a sweep with room for all its candidates has ended, no restart that was overdue at its
begin is still queued, whatever happened in between, as long as no edit renamed a procedure and the
clock did not run back. -/
theorem sweep_clears_overdue {S : Site} {actions : List FleetAction} {f₀ f₁ f₂ : Fleet}
    {k batchSize pk : ℕ} {now : DateTime} {t₀ t : TimedWorld}
    (hbegin : fleetStep S f₀ (.beginSweep k now batchSize) = some f₁)
    (hroom : (sweepCandidates f₀ now).length ≤ batchSize)
    (hnames : Transition.Meets (fleetStep S) KeepsNames f₁ actions)
    (hclock : Transition.Meets (fleetStep S) ClockForward f₁ actions)
    (hactions : f₂ = Transition.run (fleetStep S) f₁ actions)
    (hdone : f₂.sweeps k = some ⟨now, []⟩) (ht₀ : (pk, t₀) ∈ f₀.table.rows)
    (hdue : Overdue now t₀) (ht : (pk, t) ∈ f₂.table.rows) :
    t.world.ledger.row.status ≠ .queued := by
  have hinitial : SweepInvariant k now pk f₁ := by
    simp only [fleetStep] at hbegin
    split_ifs at hbegin
    cases hbegin
    have hsame : ∀ r ∈ f₀.table.rows, r.1 = pk → r = (pk, t₀) := fun r hr hpk =>
      f₀.table.eq_of_key hr ht₀ hpk
    refine ⟨⟨_, Function.update_self .., fun r hr hpk _ => ?_⟩, fun r hr hpk => ?_,
      List.mem_map_of_mem ht₀⟩
    · rw [List.take_of_length_le hroom]
      exact mem_sweepCandidates ht₀ hdue
    · rw [hsame r hr hpk]
      exact .of_overdue hdue
  have hfinal : SweepInvariant k now pk f₂ := by
    rw [hactions]
    exact Transition.run_invariant_of_meets
      (fun _ _ _ hok hstep hinv => SweepInvariant.fleetStep hok.1 hok.2 hstep hinv)
      (hnames.and hclock) hinitial
  obtain ⟨left, hleft, hqueued⟩ := hfinal.sweep
  rw [hdone] at hleft
  cases hleft
  intro hs
  exact absurd (hqueued _ ht rfl hs) List.not_mem_nil

def Fleet.empty : Fleet := ⟨⟨[], List.nodup_nil⟩, fun _ => none⟩

def restartHistory : List FleetAction :=
  [.create 7 installRequest restartProcedure [] default 0,
    .act 7 ⟨0, 0, .approveProtected 2 [] default "" 0⟩]

def restartSweepActions : List FleetAction :=
  [.act 7 ⟨600 * 1000000, 600 * 1000000, .load 0⟩, .visit 0 (600 * 1000000) (600 * 1000000 + 1)]

theorem sweep_clears_overdue_first : ∃ f₁ t₀ t,
    fleetStep restartSite (Transition.run (fleetStep restartSite) .empty restartHistory)
        (.beginSweep 0 (600 * 1000000) 1000) = some f₁ ∧
      (7, t₀) ∈ (Transition.run (fleetStep restartSite) .empty restartHistory).table.rows ∧
      Overdue (600 * 1000000) t₀ ∧
      (7, t) ∈ (Transition.run (fleetStep restartSite) f₁ restartSweepActions).table.rows ∧
      t.world.ledger.row.status ≠ .queued := by
  have hswept : (fun f₀ : Fleet => decide ((sweepCandidates f₀ (600 * 1000000)).length ≤ 1000) &&
      f₀.table.rows.any (fun r => r.1 == 7 && decide (Overdue (600 * 1000000) r.2)) &&
      (fleetStep restartSite f₀ (.beginSweep 0 (600 * 1000000) 1000)).any (fun f₁ =>
        let f₂ := Transition.run (fleetStep restartSite) f₁ restartSweepActions
        decide (f₂.sweeps 0 = some ⟨600 * 1000000, []⟩) && f₂.table.rows.any (·.1 == 7)))
      (Transition.run (fleetStep restartSite) .empty restartHistory) = true := by
    decide +kernel
  simp only [Bool.and_eq_true, decide_eq_true_eq, List.any_eq_true, beq_iff_eq,
    Option.any_eq_true] at hswept
  obtain ⟨⟨hroom, ⟨_, t₀⟩, ht₀, rfl, hdue⟩, f₁, hbegin, hdone, ⟨_, t⟩, ht, rfl⟩ := hswept
  refine ⟨f₁, t₀, t, hbegin, ht₀, hdue, ht, ?_⟩
  refine sweep_clears_overdue hbegin hroom (Transition.meets_of_forall ?_) ?_ rfl hdone ht₀ hdue ht
  · intro a ha f
    simp only [restartSweepActions, List.mem_cons, List.not_mem_nil, or_false] at ha
    rcases ha with rfl | rfl
    · exact fun p hp => nomatch hp
    · trivial
  · -- the sweep began at the time of its visit
    have hbegun : f₁.sweeps 0 = some ⟨600 * 1000000, _⟩ := startedAt_of_beginSweep hbegin
    refine ⟨fun _ => trivial, fun _ sweep hsweep => ?_, trivial⟩
    have hsame : sweep = _ := Option.some.inj (hsweep.symm.trans hbegun)
    rw [hsame]

end NetboxRpc
