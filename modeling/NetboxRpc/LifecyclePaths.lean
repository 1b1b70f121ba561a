import Mathlib.Data.List.Chain
import Mathlib.Data.List.ReduceOption
import NetboxRpc.SingleDispatch

/-!
# Paths of the lifecycle

The guards of the commands make a graph of statuses. Each writer checks its own copy of the row, so
a stream is a path of that graph as long as the writers without a lock hold the stored status.
-/

namespace NetboxRpc

def ExecutionStatus.successors : ExecutionStatus → List ExecutionStatus
  | .requested => [.pendingApproval]
  | .pendingApproval => [.approved, .rejected, .expired, .cancelled]
  | .approved => [.queued]
  | .queued => [.running, .failed, .cancelled]
  | .running => [.succeeded, .failed]
  | .rejected | .expired | .succeeded | .failed | .cancelled => []

def statuses (events : List EventRecord) : List (Option ExecutionStatus) :=
  events.map EventRecord.status?

def statusChanges (events : List EventRecord) : List ExecutionStatus :=
  (statuses events).reduceOption

structure LifecyclePath (first last : ExecutionStatus) (path : List ExecutionStatus) : Prop where
  head : path.head? = some first
  chain : path.IsChain (fun s t => t ∈ s.successors)
  last : path.getLast? = some last

theorem LifecyclePath.append {first last : ExecutionStatus} {path more : List ExecutionStatus}
    (h : LifecyclePath first last path) (hmore : (last :: more).IsChain (fun s t => t ∈ s.successors)) :
    LifecyclePath first (more.getLast?.getD last) (path ++ more) := by
  obtain ⟨hhead, hchain⟩ := List.isChain_cons.mp hmore
  refine ⟨?_, ?_, ?_⟩
  · rw [List.head?_append, h.head]
    rfl
  · refine List.isChain_append.mpr ⟨h.chain, hchain, ?_⟩
    intro s hs t ht
    rw [h.last] at hs
    cases hs
    exact hhead t ht
  · rw [List.getLast?_append, h.last]
    cases more.getLast? <;> rfl

/-! ## Writers outside the row lock -/

/-- A write that holds no lock on the row is made while the status in the writer's memory is the
stored one. -/
def World.freshWriter (w : World) : Action → Bool
  | .enqueueRaised _ => w.enqueuer.all (fun copy => copy.status == w.ledger.row.status)
  | .record i _ .commits _ => (w.workers i).all (fun x => x.copy.status == w.ledger.row.status)
  | .settingsDisabled i .commits _ | .bindingInvalid i .commits _ | .raised i _ _ .commits _ =>
    (w.workers i).all (fun x => x.copy.status.isTerminal || x.copy.status == w.ledger.row.status)
  | _ => true

/-! ## Appends through a copy that agrees with the row -/

def settings (es : List DomainEvent) : List ExecutionStatus := es.filterMap (fun e => e.type.status)

/-- A writer whose copy has the stored status leaves both with the last status it set. -/
theorem status_appendAll_of_agree (P : Platform) (ctx : ExecutionContext)
    {s : ProjectionState × Ledger} (es : List DomainEvent) (h : s.1.status = s.2.row.status) :
    (appendAll P ctx s es).1.status = (settings es).getLast?.getD s.2.row.status ∧
      (appendAll P ctx s es).2.row.status = (settings es).getLast?.getD s.2.row.status := by
  induction es generalizing s with
  | nil => exact ⟨h, rfl⟩
  | cons e es ih =>
    have hcopy : (appendAndProject P ctx s.1 s.2 e).1.status = e.type.status.getD s.2.row.status := by
      rw [status_appendAndProject_copy, h]
    have hrow : (appendAndProject P ctx s.1 s.2 e).2.row.status =
        e.type.status.getD s.2.row.status := by
      rw [status_appendAndProject_row, h]
      split_ifs with hsame
      · exact hsame
      · rfl
    have hlast : (settings (e :: es)).getLast?.getD s.2.row.status =
        (settings es).getLast?.getD (e.type.status.getD s.2.row.status) := by
      unfold settings
      rw [List.filterMap_cons]
      cases e.type.status with
      | none => rfl
      | some t =>
        rw [List.getLast?_cons]
        rfl
    rw [appendAll_cons, hlast, ← hrow]
    exact ih (hcopy.trans hrow.symm)

theorem statuses_appendAll {P : Platform} {ctx : ExecutionContext} {s : ProjectionState × Ledger}
    {es : List DomainEvent} (hw : ∀ e ∈ es, e.WellNamed) :
    statuses (appendAll P ctx s es).2.events =
      statuses s.2.events ++ es.map (fun e => e.type.status) := by
  obtain ⟨added, hevents, hnames⟩ := exists_events_appendAll P ctx s es
  have hadded : statuses added = (added.map EventRecord.event).map
      (fun n => (EventType.ofName? n).bind EventType.status) := by
    rw [List.map_map]
    rfl
  have hsplit : statuses (s.2.events ++ added) = statuses s.2.events ++ statuses added :=
    List.map_append
  rw [hevents, hsplit, hadded, hnames, List.map_map]
  congr 1
  exact List.map_congr_left fun e he => status?_eventName (hw e he)

theorem statusChanges_appendAll {P : Platform} {ctx : ExecutionContext}
    {s : ProjectionState × Ledger} {es : List DomainEvent} (hw : ∀ e ∈ es, e.WellNamed) :
    statusChanges (appendAll P ctx s es).2.events = statusChanges s.2.events ++ settings es := by
  unfold statusChanges settings
  rw [statuses_appendAll hw, List.reduceOption_append]
  congr 1
  exact List.filterMap_map

theorem settings_of_silent {es : List DomainEvent} (h : ∀ e ∈ es, e.type.status = none) :
    settings es = [] :=
  List.filterMap_eq_nil_iff.mpr h

/-! ## Moves -/

def World.OnPath (first : ExecutionStatus) (w : World) : Prop :=
  LifecyclePath first w.ledger.row.status (statusChanges w.ledger.events)

section

variable {S : Site} {req : ExecutionRequest} {w w' : World} {p : Procedure}
  {copy : ProjectionState} {es : List DomainEvent} {first : ExecutionStatus}

theorem World.OnPath.frame (h : w.OnPath first) (hledger : w'.ledger = w.ledger) :
    w'.OnPath first := by
  unfold World.OnPath
  rw [hledger]
  exact h

theorem World.OnPath.append_silent (h : w.OnPath first) (hwell : ∀ e ∈ es, e.WellNamed)
    (hsilent : ∀ e ∈ es, e.type.status = none)
    (hledger : w'.ledger = (w.append S req p copy es).2) : w'.OnPath first := by
  unfold World.OnPath
  rw [hledger, World.append, statusChanges_appendAll hwell, settings_of_silent hsilent,
    List.append_nil, (status_appendAll_of_silent _ _ hsilent).2]
  exact h

theorem World.OnPath.append (h : w.OnPath first) (hagree : copy.status = w.ledger.row.status)
    (hwell : ∀ e ∈ es, e.WellNamed)
    (hedges : (w.ledger.row.status :: settings es).IsChain (fun s t => t ∈ s.successors))
    (hledger : w'.ledger = (w.append S req p copy es).2) : w'.OnPath first := by
  unfold World.OnPath
  rw [hledger, World.append, statusChanges_appendAll hwell,
    (status_appendAll_of_agree _ _ es hagree).2]
  exact LifecyclePath.append h hedges

/-- A write of one status event. -/
theorem World.OnPath.append_one (h : w.OnPath first) {e : DomainEvent} {t : ExecutionStatus}
    (hagree : copy.status = w.ledger.row.status) (he : e.type.status = some t)
    (hedge : t ∈ w.ledger.row.status.successors)
    (hledger : w'.ledger = (w.append S req p copy [e]).2) : w'.OnPath first := by
  have hsettings : settings [e] = [t] := List.filterMap_cons_some he
  apply h.append hagree _ _ hledger
  · intro e' he'
    rw [List.mem_singleton.mp he']
    exact DomainEvent.wellNamed_of_status he
  · rw [hsettings]
    exact List.isChain_cons_cons.mpr ⟨hedge, .singleton t⟩

theorem Claims.running_of_fresh {i : ℕ} {x : Worker} (h : Claims w) (hx : w.workers i = some x)
    (hfresh : x.copy.status = w.ledger.row.status) (hopen : x.copy.status.isTerminal = false) :
    w.ledger.row.status = .running := by
  cases h with
  | idle hworkers =>
    rw [hworkers i] at hx
    cases hx
  | held j y hworkers hstatus =>
    rw [hfresh] at hopen
    simpa [ExecutionStatus.isSettled, hopen] using hstatus

/-- Every move by a fresh writer goes along the graph. -/
theorem World.OnPath.move {a : Action} (hfresh : w.freshWriter a = true)
    (hmove : Move S req w a w') (hclaims : Claims w) (henq : w.EnqueuerQueued)
    (h : w.OnPath first) : w'.OnPath first := by
  cases hmove with
  | load | editProcedure | enqueueLost | advanced | called => exact h.frame rfl
  | cancelled he hopen =>
    apply h.append_one rfl (by rw [he]; rfl) _ rfl
    rcases hopen with hopen | hopen <;> rw [hopen] <;> decide
  | failedLocked hopen =>
    apply h.append_one rfl rfl _ rfl
    rcases hopen with hopen | hopen <;> rw [hopen] <;> decide
  | decided hloaded hpending he =>
    cases he with
    | approved => exact h.append_one hpending.symm rfl (by rw [hpending]; decide) rfl
    | rejected => exact h.append_one hpending.symm rfl (by rw [hpending]; decide) rfl
    | expired => exact h.append_one hpending.symm rfl (by rw [hpending]; decide) rfl
  | approvedProtected userId hash at_ reason hpending hs =>
    apply h.append rfl _ _ (congrArg Prod.snd hs)
    · simp [DomainEvent.WellNamed, DomainEvent.type]
    · rw [hpending]
      show [ExecutionStatus.pendingApproval, .approved, .queued].IsChain _
      decide
  | enqueued =>
    apply h.append_silent _ _ rfl
    · simp [DomainEvent.WellNamed, DomainEvent.type]
    · simp [DomainEvent.type, EventType.status]
  | enqueueRaised henqueuer =>
    have hqueued := henq _ henqueuer
    have hrow := by simpa [World.freshWriter, henqueuer] using hfresh
    apply h.append_one hrow rfl _ rfl
    rw [← hrow, hqueued]
    decide
  | claimed hfree hqueued hs =>
    exact h.append_one rfl rfl (by rw [hqueued]; decide) (congrArg Prod.snd hs)
  | @worked a i x x' events fate done hx hrunning ha hwork =>
    cases fate with
    | aborts n => exact h.frame rfl
    | commits =>
      cases hwork with
      | prepare =>
        apply h.append_silent _ _ rfl
        · simp [DomainEvent.WellNamed, DomainEvent.type]
        · simp [DomainEvent.type, EventType.status]
      | lease =>
        apply h.append_silent _ _ rfl
        · simp [DomainEvent.WellNamed, DomainEvent.type]
        · simp [DomainEvent.type, EventType.status]
      | record j response fate now events hphase hevents =>
        cases ha
        have hrow : x.copy.status = w.ledger.row.status := by
          simpa [World.freshWriter, hx] using hfresh
        apply h.append hrow (backendResponseEvents_wellNamed hevents) _ rfl
        obtain ⟨progress, last, rfl, hprogress, hlast⟩ := exists_of_backendResponseEvents hevents
        have hsilent : settings progress = [] := settings_of_silent fun e he => by
          rw [hprogress e he]
          rfl
        have hsettings : settings (progress ++ [last]) = settings [last] := by
          unfold settings at hsilent ⊢
          rw [List.filterMap_append, hsilent, List.nil_append]
        rw [hsettings, ← hrow, hrunning]
        cases hlast with
        | succeeded =>
          show [ExecutionStatus.running, .succeeded].IsChain _
          decide
        | failed =>
          show [ExecutionStatus.running, .failed].IsChain _
          decide
  | @failed a i x message code now hx hphase hopen ha =>
    have hrow : x.copy.status = w.ledger.row.status := by
      cases a <;> cases ha <;> simpa [World.freshWriter, hx, hopen] using hfresh
    apply h.append_one hrow rfl _ rfl
    rw [hclaims.running_of_fresh hx hrow hopen]
    decide

def Procedure.firstStatus (p : Procedure) : ExecutionStatus :=
  if isProtected p.name then .requested else .queued

theorem World.OnPath.of_create {normalized : Entries} {target : BackendTarget}
    (h : create S req p normalized target = some w) : w.OnPath p.firstStatus := by
  unfold World.OnPath Procedure.firstStatus
  simp only [create] at h
  split_ifs at h with hp
  · simp only [Option.bind_eq_bind, Option.bind_eq_some_iff, Option.guard_eq_some',
      Option.pure_def, Option.some.injEq] at h
    obtain ⟨payload, _, _, _, rfl⟩ := h
    rw [if_pos hp, statusChanges_appendAll (by simp [DomainEvent.WellNamed, DomainEvent.type]),
      (status_appendAll_of_agree _ _ _ rfl).2]
    show LifecyclePath .requested .pendingApproval [.requested, .pendingApproval]
    exact ⟨rfl, by decide, rfl⟩
  · cases h
    rw [if_neg hp, statusChanges_appendAll (by simp [DomainEvent.WellNamed, DomainEvent.type]),
      (status_appendAll_of_agree _ _ _ rfl).2]
    show LifecyclePath .queued .queued [.queued]
    exact ⟨rfl, by decide, rfl⟩

end

/-- What holds after every history whose unlocked writers are fresh. -/
structure World.Walks (first : ExecutionStatus) (w : World) : Prop where
  claims : Claims w
  enqueuer : w.EnqueuerQueued
  numbered : Numbered w.ledger.events
  path : w.OnPath first

theorem World.Walks.run {S : Site} {req : ExecutionRequest} {p : Procedure} {normalized : Entries}
    {target : BackendTarget} {w₀ : World} (hcreate : create S req p normalized target = some w₀)
    {actions : List Action}
    (hfresh : Transition.Meets (step S req) (fun w a => w.freshWriter a = true) w₀ actions) :
    (Transition.run (step S req) w₀ actions).Walks p.firstStatus := by
  have hcreated := Created.of_create hcreate
  refine Transition.run_invariant_of_meets (fun w a w' hok hstep (h : w.Walks p.firstStatus) => ?_)
    hfresh ⟨.of_created hcreated, .of_created hcreated, .of_created hcreated, .of_create hcreate⟩
  have hmove := Move.of_step hstep
  exact ⟨h.claims.move hmove, h.enqueuer.move hmove, hmove.numbered h.numbered,
    h.path.move hok hmove h.claims h.enqueuer⟩

/-- In every history whose unlocked writers are fresh, the stream walks the graph of statuses from
where its creation put it to the stored status. -/
theorem stream_walks_lifecycle {S : Site} {req : ExecutionRequest} {p : Procedure}
    {normalized : Entries} {target : BackendTarget} {w₀ : World}
    (hcreate : create S req p normalized target = some w₀) {actions : List Action}
    (hfresh : Transition.Meets (step S req) (fun w a => w.freshWriter a = true) w₀ actions) :
    let ledger := (Transition.run (step S req) w₀ actions).ledger
    LifecyclePath p.firstStatus ledger.row.status (statusChanges ledger.events) :=
  (World.Walks.run hcreate hfresh).path

def orderlyActions : List Action :=
  .enqueued .null :: dispatchActions 0 ++ [.record 0 [("ok", .bool true)] .commits 0]

theorem stream_walks_lifecycle_orderly : ∃ w₀,
    create default default directProcedure [] default = some w₀ ∧
      Transition.Meets (step default default) (fun w a => w.freshWriter a = true) w₀
        orderlyActions ∧
      LifecyclePath directProcedure.firstStatus
        (Transition.run (step default default) w₀ orderlyActions).ledger.row.status
        (statusChanges (Transition.run (step default default) w₀ orderlyActions).ledger.events) := by
  have hcreate : create default default directProcedure [] default = some _ := rfl
  have hmeets : Transition.Meets (step default default) (fun w a => w.freshWriter a = true)
      ((create default default directProcedure [] default).get rfl) orderlyActions := by
    decide +kernel
  exact ⟨_, hcreate, hmeets, stream_walks_lifecycle hcreate hmeets⟩

end NetboxRpc
