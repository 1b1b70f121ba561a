import NetboxRpc.RedactedData
import NetboxRpc.SingleDispatch

/-!
# Two-person dispatch

A protected procedure reaches the backend only after a recorded approval by an authorized second
person, under a signed lease, and with the payload that was approved. The approver on the row
traces back to an approval event of a pending execution; the claim and the dispatch check it.
-/

namespace NetboxRpc

/-! ## The status that the stream folds to -/

def StatusSynced (P : Platform) (ledger : Ledger) : Prop :=
  ledger.row.status = (rebuildProjection P ledger.events).status

section

variable {P : Platform} {ctx : ExecutionContext}

theorem StatusSynced.appendAndProject {copy : ProjectionState} {ledger : Ledger} {e : DomainEvent}
    (h : StatusSynced P ledger) (hwell : e.WellNamed)
    (hsame : ∀ t, e.type.status = some t → copy.status = t → ledger.row.status = t) :
    StatusSynced P (appendAndProject P ctx copy ledger e).2 := by
  unfold StatusSynced
  rw [rebuildProjection_appendAndProject P ctx copy ledger hwell, ProjectionState.status_apply,
    type_redactedEvent, type_persistableFailureEvent, status_appendAndProject_row]
  cases ht : e.type.status with
  | none => exact (if_pos rfl).trans h
  | some t =>
    rw [Option.getD_some]
    split_ifs with heq
    · exact hsame t ht heq
    · rfl

theorem StatusSynced.appendAll_silent {s : ProjectionState × Ledger} {es : List DomainEvent}
    (h : StatusSynced P s.2) (hwell : ∀ e ∈ es, e.WellNamed)
    (hsilent : ∀ e ∈ es, e.type.status = none) : StatusSynced P (appendAll P ctx s es).2 := by
  induction es generalizing s with
  | nil => exact h
  | cons e es ih =>
    refine ih (h.appendAndProject (hwell e List.mem_cons_self) fun t ht => ?_)
      (fun d hd => hwell d (List.mem_cons_of_mem e hd))
      (fun d hd => hsilent d (List.mem_cons_of_mem e hd))
    rw [hsilent e List.mem_cons_self] at ht
    cases ht

/-- Progress and one status event, by a writer whose status is another one. -/
theorem StatusSynced.appendAll_last {s : ProjectionState × Ledger} {progress : List DomainEvent}
    {last : DomainEvent} {t : ExecutionStatus} (h : StatusSynced P s.2)
    (hwell : ∀ e ∈ progress ++ [last], e.WellNamed)
    (hsilent : ∀ e ∈ progress, e.type.status = none) (hlast : last.type.status = some t)
    (hne : s.1.status ≠ t) : StatusSynced P (appendAll P ctx s (progress ++ [last])).2 := by
  have hprogress : StatusSynced P (appendAll P ctx s progress).2 :=
    h.appendAll_silent (fun e he => hwell e (List.mem_append_left _ he)) hsilent
  rw [appendAll_append]
  refine hprogress.appendAndProject (hwell last (by simp)) fun t' ht' heq => absurd ?_ hne
  rw [hlast] at ht'
  rw [(status_appendAll_of_silent P ctx hsilent).1, ← Option.some.inj ht'] at heq
  exact heq

end

/-! ## The approver -/

/-- The stream records an approval by `approver`, made while the execution was pending. -/
def ApprovedBy (P : Platform) (events : List EventRecord) (approver : Json) : Prop :=
  ∃ before r after, events = before ++ r :: after ∧ r.type? = some .executionApproved ∧
    valueOf r.data "approved_by_id" = approver ∧
    (rebuildProjection P before).status = .pendingApproval

theorem ApprovedBy.append {P : Platform} {events : List EventRecord} {approver : Json}
    (h : ApprovedBy P events approver) (more : List EventRecord) :
    ApprovedBy P (events ++ more) approver := by
  obtain ⟨before, r, after, rfl, hrest⟩ := h
  exact ⟨before, r, after ++ more, by simp, hrest⟩

theorem valueOf_approved (P : Platform) (ctx : ExecutionContext) (events : List EventRecord)
    (userId : ℤ) (hash : String) (at_ : Stamp) (reason : String) :
    valueOf (eventRecord P ctx events (.executionApproved (.int userId) hash at_ reason)).data
      "approved_by_id" = .int userId := by
  refine valueOf_redactEventData_int (by decide) (plainMapping_data P (by simp [DomainEvent.type])) ?_
  rfl

/-- An approval through a copy without an approver sets the approver of the row. -/
theorem approvedById_appendAndProject {P : Platform} {ctx : ExecutionContext}
    {copy : ProjectionState} {ledger : Ledger} (hcopy : copy.approvedById = .null) (userId : ℤ)
    (hash : String) (at_ : Stamp) (reason : String) :
    (appendAndProject P ctx copy ledger
      (.executionApproved (.int userId) hash at_ reason)).2.row.approvedById = .int userId := by
  have hevent : (copy.apply P (redactedEvent P ctx
      (.executionApproved (.int userId) hash at_ reason))).approvedById = .int userId :=
    valueOf_approved P ctx [] userId hash at_ reason
  have hdiff : ¬ (copy.get .approvedById).PyEq ((copy.apply P (redactedEvent P ctx
      (.executionApproved (.int userId) hash at_ reason))).get .approvedById) := by
    rw [ProjectionState.get, ProjectionState.get, hevent, hcopy]
    intro heq
    cases heq
  simp only [appendAndProject, persistableFailureEvent, ProjectionState.writeOver]
  exact (if_neg hdiff).trans hevent

structure Approvals (S : Site) (w : World) : Prop where
  synced : StatusSynced S.platform w.ledger
  approver : w.ledger.row.approvedById = .null ∨
    ApprovedBy S.platform w.ledger.events w.ledger.row.approvedById
  pending : w.ledger.row.status = .pendingApproval → w.ledger.row.approvedById = .null ∧
    ∀ slot copy, w.loaded slot = some copy → copy.approvedById = .null
  workers : ∀ i x, w.workers i = some x → x.copy.approvedById = w.ledger.row.approvedById

section

variable {S : Site} {req : ExecutionRequest} {w w' : World} {p : Procedure}
  {copy : ProjectionState} {es : List DomainEvent}

/-- A write without an approval. -/
theorem Approvals.write (h : Approvals S w) (hna : ∀ e ∈ es, e.type ≠ .executionApproved)
    (hsync : StatusSynced S.platform (w.append S req p copy es).2)
    (hpending : (w.append S req p copy es).2.row.status = .pendingApproval →
      w.ledger.row.status = .pendingApproval)
    (hledger : w'.ledger = (w.append S req p copy es).2) (hloaded : w'.loaded = w.loaded)
    (hworkers : ∀ i x, w'.workers i = some x →
      x.copy.approvedById = w.ledger.row.approvedById) : Approvals S w' := by
  have hrow : w'.ledger.row.approvedById = w.ledger.row.approvedById := by
    rw [hledger]
    exact (approvedById_appendAll _ _ hna).2
  obtain ⟨added, hevents, _⟩ := exists_events_appendAll S.platform (executionContext req p)
    (copy, w.ledger) es
  refine ⟨hledger ▸ hsync, ?_, ?_, ?_⟩
  · rw [hrow, hledger, World.append, hevents]
    exact h.approver.imp_right fun happroved => happroved.append added
  · intro hstatus
    rw [hrow, hloaded]
    exact h.pending (hpending (hledger ▸ hstatus))
  · rw [hrow]
    exact hworkers

theorem Approvals.frame (h : Approvals S w) (hledger : w'.ledger = w.ledger)
    (hloaded : w'.loaded = w.loaded) (hworkers : ∀ i x, w'.workers i = some x →
      x.copy.approvedById = w.ledger.row.approvedById) : Approvals S w' := by
  obtain ⟨hsync, happrover, hpending, _⟩ := h
  refine ⟨hledger ▸ hsync, hledger ▸ happrover, ?_, hledger ▸ hworkers⟩
  rw [hledger, hloaded]
  exact hpending

/-- A write of events that end the execution or leave its status alone. -/
theorem Approvals.write_ends (h : Approvals S w) {progress : List DomainEvent} {last : DomainEvent}
    {t : ExecutionStatus} (hwell : ∀ e ∈ progress ++ [last], e.WellNamed)
    (hsilent : ∀ e ∈ progress, e.type.status = none) (hlast : last.type.status = some t)
    (hterm : t.isTerminal = true) (hcopy : copy.status.isTerminal = false)
    (hledger : w'.ledger = (w.append S req p copy (progress ++ [last])).2)
    (hloaded : w'.loaded = w.loaded) (hworkers : ∀ i x, w'.workers i = some x →
      x.copy.approvedById = w.ledger.row.approvedById) : Approvals S w' := by
  have hne : copy.status ≠ t := by
    intro heq
    rw [heq, hterm] at hcopy
    cases hcopy
  have hends : ∀ e ∈ progress ++ [last], e.Ends := by
    intro e he
    rcases List.mem_append.mp he with he | he
    · exact .of_silent (hsilent e he)
    · intro s hs
      rw [List.mem_singleton.mp he, hlast] at hs
      exact Option.some.inj hs ▸ hterm
  refine h.write ?_ (h.synced.appendAll_last hwell hsilent hlast hne) ?_ hledger hloaded hworkers
  · intro e he ha
    have happroved := hends e he .approved (by rw [ha]; rfl)
    cases happroved
  · intro hpending
    rcases (status_appendAll_of_ends S.platform (executionContext req p) hends).2 with hsame | hend
    · exact hsame.symm.trans hpending
    · rw [World.append] at hpending
      rw [hpending] at hend
      cases hend

theorem Approvals.write_silent (h : Approvals S w) (hwell : ∀ e ∈ es, e.WellNamed)
    (hsilent : ∀ e ∈ es, e.type.status = none)
    (hledger : w'.ledger = (w.append S req p copy es).2) (hloaded : w'.loaded = w.loaded)
    (hworkers : ∀ i x, w'.workers i = some x →
      x.copy.approvedById = w.ledger.row.approvedById) : Approvals S w' := by
  refine h.write ?_ (h.synced.appendAll_silent hwell hsilent) ?_ hledger hloaded hworkers
  · intro e he ha
    have hnone := hsilent e he
    rw [ha] at hnone
    cases hnone
  · intro hpending
    rw [World.append, (status_appendAll_of_silent _ _ hsilent).2] at hpending
    exact hpending

/-- An approval of a pending execution, through a copy without an approver. -/
theorem Approvals.approve (h : Approvals S w) (hpending : w.ledger.row.status = .pendingApproval)
    (hcopy : copy.approvedById = .null) (userId : ℤ)
    (hash : String) (at_ : Stamp) (reason : String)
    (hna : ∀ e ∈ es, e.type ≠ .executionApproved)
    (hsync : StatusSynced S.platform (w.append S req p copy
      (.executionApproved (.int userId) hash at_ reason :: es)).2)
    (hafter : (w.append S req p copy
      (.executionApproved (.int userId) hash at_ reason :: es)).2.row.status ≠ .pendingApproval)
    (hledger : w'.ledger = (w.append S req p copy
      (.executionApproved (.int userId) hash at_ reason :: es)).2)
    (hworkers : ∀ i, w'.workers i = none) : Approvals S w' := by
  have hrow : w'.ledger.row.approvedById = .int userId := by
    rw [hledger, World.append, appendAll_cons, (approvedById_appendAll _ _ hna).2]
    exact approvedById_appendAndProject hcopy userId hash at_ reason
  refine ⟨hledger ▸ hsync, .inr ?_, ?_, ?_⟩
  · rw [hrow, hledger, World.append, appendAll_cons]
    obtain ⟨added, hevents, _⟩ := exists_events_appendAll S.platform (executionContext req p)
      (appendAndProject S.platform (executionContext req p) copy w.ledger
        (.executionApproved (.int userId) hash at_ reason)) es
    rw [hevents, events_appendAndProject, List.append_assoc]
    refine ⟨w.ledger.events, _, added, rfl, rfl, ?_, h.synced ▸ hpending⟩
    exact valueOf_approved _ _ _ _ _ _ _
  · intro hstill
    rw [hledger] at hstill
    exact absurd hstill hafter
  · intro i x hx
    rw [hworkers i] at hx
    cases hx

theorem Approvals.write_end (h : Approvals S w) {e : DomainEvent} {t : ExecutionStatus}
    (he : e.type.status = some t) (hterm : t.isTerminal = true)
    (hcopy : copy.status.isTerminal = false) (hledger : w'.ledger = (w.append S req p copy [e]).2)
    (hloaded : w'.loaded = w.loaded) (hworkers : ∀ i x, w'.workers i = some x →
      x.copy.approvedById = w.ledger.row.approvedById) : Approvals S w' := by
  have hwell : ∀ d ∈ [] ++ [e], d.WellNamed := by
    intro d hd
    rw [List.mem_singleton.mp hd]
    intro hb
    rw [hb] at he
    cases he
  exact h.write_ends hwell (List.forall_mem_nil _) he hterm hcopy hledger hloaded hworkers

theorem setWorker_approvedById (h : Approvals S w) {i : ℕ} {x y : Worker}
    (hx : w.workers i = some x) (hy : y.copy.approvedById = x.copy.approvedById) :
    ∀ j z, (Function.update w.workers i (some y)) j = some z →
      z.copy.approvedById = w.ledger.row.approvedById := by
  intro j z hz
  rcases of_update_eq_some hz with ⟨rfl, rfl⟩ | ⟨-, hz⟩
  · rw [hy]
    exact h.workers j x hx
  · exact h.workers j z hz

theorem Work.not_approved {x x' : Worker} {a : Action} {done : Phase}
    (h : Work S req w x a x' es done) : ∀ e ∈ es, e.type ≠ .executionApproved := by
  intro e he ha
  have happroved := (h.incidental e he).ends .approved (by rw [ha]; rfl)
  cases happroved

theorem Work.copy_eq {x x' : Worker} {a : Action} {done : Phase}
    (h : Work S req w x a x' es done) : x'.copy = x.copy ∧ x'.procedure = x.procedure := by
  cases h <;> exact ⟨rfl, rfl⟩

theorem Approvals.load (h : Approvals S w) (slot : ℕ) :
    Approvals S { w with loaded := Function.update w.loaded slot (some w.ledger.row) } := by
  refine ⟨h.synced, h.approver, fun hpending => ⟨(h.pending hpending).1, ?_⟩, h.workers⟩
  intro s copy hcopy
  rcases of_update_eq_some hcopy with ⟨-, rfl⟩ | ⟨-, hcopy⟩
  · exact (h.pending hpending).1
  · exact (h.pending hpending).2 s copy hcopy

theorem Approvals.decided (h : Approvals S w) (hclaims : Claims w) {slot : ℕ}
    (hloaded : w.loaded slot = some copy) (hpending : w.ledger.row.status = .pendingApproval)
    {e : DomainEvent} (he : e.IsDecision) :
    Approvals S { w with
      ledger := (w.append S req w.procedure { copy with status := .pendingApproval } [e]).2 } := by
  cases he with
  | approved userId hash at_ reason =>
    have hnull := (h.pending hpending).2 _ _ hloaded
    refine h.approve hpending ?_ userId hash at_ reason (List.forall_mem_nil _) ?_ ?_ rfl
      (hclaims.workers_of_open (by rw [hpending]; rfl))
    · exact hnull
    · refine h.synced.appendAndProject (by simp [DomainEvent.WellNamed, DomainEvent.type]) ?_
      simp [DomainEvent.type, EventType.status]
    · rw [status_append_one (t := .approved) rfl (by simp)]
      decide
  | rejected => exact h.write_end rfl rfl rfl rfl rfl h.workers
  | expired => exact h.write_end rfl rfl rfl rfl rfl h.workers

/-- The approval of a protected procedure queues it in the same write. -/
theorem Approvals.approvedProtected (h : Approvals S w) (hclaims : Claims w)
    (hpending : w.ledger.row.status = .pendingApproval) (userId : ℤ) (hash : String) (at_ : Stamp)
    (reason : String) {s : ProjectionState × Ledger}
    (hs : s = w.append S req w.procedure w.ledger.row
      [.executionApproved (.int userId) hash at_ reason, .executionQueued req.requestedById]) :
    Approvals S { w with ledger := s.2, enqueuer := some s.1 } := by
  have happroved : (appendAndProject S.platform (executionContext req w.procedure) w.ledger.row
      w.ledger (.executionApproved (.int userId) hash at_ reason)).1.status = .approved := by
    rw [status_appendAndProject_copy]
    rfl
  refine h.approve hpending (h.pending hpending).1 userId hash at_ reason ?_ ?_ ?_
    (congrArg Prod.snd hs) (hclaims.workers_of_open (by rw [hpending]; rfl))
  · simp [DomainEvent.type]
  · refine StatusSynced.appendAndProject (h.synced.appendAndProject ?_ ?_) ?_ ?_
    · simp [DomainEvent.WellNamed, DomainEvent.type]
    · rw [hpending]
      simp [DomainEvent.type, EventType.status]
    · simp [DomainEvent.WellNamed, DomainEvent.type]
    · rw [happroved]
      simp [DomainEvent.type, EventType.status]
  · have hqueued : (w.append S req w.procedure w.ledger.row
        ([.executionApproved (.int userId) hash at_ reason] ++
          [.executionQueued req.requestedById])).2.row.status = .queued :=
      status_append_last rfl (by rw [World.append, appendAll_cons, appendAll_nil, happroved]; decide)
    rw [List.singleton_append] at hqueued
    rw [hqueued]
    decide

theorem Approvals.claimed (h : Approvals S w) (hqueued : w.ledger.row.status = .queued) (i : ℕ)
    {now : DateTime} {s : ProjectionState × Ledger}
    (hs : s = w.append S req w.procedure w.ledger.row [.executionStarted (.time now)]) :
    Approvals S ({ w with ledger := s.2 }.setWorker i ⟨.claimed, s.1, w.procedure, none⟩) := by
  have hne : w.ledger.row.status ≠ .running := by rw [hqueued]; decide
  have hrunning : (w.append S req w.procedure w.ledger.row
      [.executionStarted (.time now)]).2.row.status = .running := status_append_one rfl hne
  have hstarted : ∀ e ∈ [DomainEvent.executionStarted (.time now)],
      e.type ≠ .executionApproved := by simp [DomainEvent.type]
  refine h.write hstarted ?_ ?_ (congrArg Prod.snd hs) rfl ?_
  · refine h.synced.appendAndProject (by simp [DomainEvent.WellNamed, DomainEvent.type]) ?_
    intro t ht heq
    exact absurd (heq.trans (Option.some.inj ht).symm) hne
  · rw [hrunning]
    intro hpending
    cases hpending
  · intro j x hx
    rcases of_update_eq_some hx with ⟨-, rfl⟩ | ⟨-, hx⟩
    · rw [hs]
      exact (approvedById_appendAll _ _ hstarted).1
    · exact h.workers j x hx

/-- The events of a worker that commits. -/
theorem Approvals.committed (h : Approvals S w) {a : Action} {x x' : Worker} {done : Phase}
    (hrunning : x.copy.status = .running) (hwork : Work S req w x a x' es done)
    (hledger : w'.ledger = (w.append S req x'.procedure x'.copy es).2)
    (hloaded : w'.loaded = w.loaded)
    (hworkers : ∀ j y, w'.workers j = some y → y.copy.approvedById = w.ledger.row.approvedById) :
    Approvals S w' := by
  cases hwork with
  | prepare =>
    refine h.write_silent ?_ ?_ hledger hloaded hworkers
    · simp [DomainEvent.WellNamed, DomainEvent.type]
    · simp [DomainEvent.type, EventType.status]
  | lease =>
    refine h.write_silent ?_ ?_ hledger hloaded hworkers
    · simp [DomainEvent.WellNamed, DomainEvent.type]
    · simp [DomainEvent.type, EventType.status]
  | record j response fate now events hphase hevents =>
    have hwell := backendResponseEvents_wellNamed hevents
    obtain ⟨progress, last, rfl, hprogress, hlast⟩ := exists_of_backendResponseEvents hevents
    have hopen : x.copy.status.isTerminal = false := by rw [hrunning]; rfl
    have hsilent : ∀ e ∈ progress, e.type.status = none := fun e he => by
      rw [hprogress e he]; rfl
    obtain ⟨t, hstatus, hterm⟩ := hlast.status
    exact h.write_ends hwell hsilent hstatus hterm hopen hledger hloaded hworkers

theorem Approvals.worked (h : Approvals S w) {a : Action} {i : ℕ} {x x' : Worker} {done : Phase}
    (hx : w.workers i = some x) (hrunning : x.copy.status = .running)
    (hwork : Work S req w x a x' es done) (fate : Fate) :
    Approvals S (w.writeWorker S req i x' es fate done) := by
  have hcopy : ∀ ds : List DomainEvent, (∀ e ∈ ds, e ∈ es) →
      (w.append S req x'.procedure x'.copy ds).1.approvedById = x.copy.approvedById := by
    intro ds hds
    rw [World.append, (approvedById_appendAll _ _ fun e he => hwork.not_approved e (hds e he)).1,
      hwork.copy_eq.1]
  cases fate with
  | aborts n =>
    exact h.frame rfl rfl (setWorker_approvedById h hx (hcopy _ fun e he => List.mem_of_mem_take he))
  | commits =>
    have hworkers := setWorker_approvedById h hx
      (y := { x' with phase := done, copy := (w.append S req x'.procedure x'.copy es).1 })
      (hcopy _ fun e he => he)
    exact h.committed hrunning hwork rfl rfl hworkers

theorem Approvals.move {a : Action} (hmove : Move S req w a w') (hclaims : Claims w)
    (henq : w.EnqueuerQueued) (h : Approvals S w) : Approvals S w' := by
  cases hmove with
  | load slot => exact h.load slot
  | editProcedure | enqueueLost => exact h.frame rfl rfl h.workers
  | advanced hx hadv => exact h.frame rfl rfl (setWorker_approvedById h hx rfl)
  | called hx => exact h.frame rfl rfl (setWorker_approvedById h hx rfl)
  | cancelled he hopen =>
    have hrow : w.ledger.row.status.isTerminal = false := by
      rcases hopen with h | h <;> rw [h] <;> rfl
    exact h.write_end (by rw [he]; rfl) rfl hrow rfl rfl h.workers
  | failedLocked hopen =>
    have hrow : w.ledger.row.status.isTerminal = false := by
      rcases hopen with h | h <;> rw [h] <;> rfl
    exact h.write_end rfl rfl hrow rfl rfl h.workers
  | decided hloaded hpending he => exact h.decided hclaims hloaded hpending he
  | approvedProtected userId hash at_ reason hpending hs =>
    exact h.approvedProtected hclaims hpending userId hash at_ reason hs
  | enqueued =>
    refine h.write_silent ?_ ?_ rfl rfl h.workers
    · simp [DomainEvent.WellNamed, DomainEvent.type]
    · simp [DomainEvent.type, EventType.status]
  | enqueueRaised henqueuer =>
    have hqueued := henq _ henqueuer
    exact h.write_end rfl rfl (by rw [hqueued]; rfl) rfl rfl h.workers
  | claimed hfree hqueued hs => exact h.claimed hqueued _ hs
  | worked hx hrunning ha hwork => exact h.worked hx hrunning hwork _
  | failed hx hphase hopen ha =>
    refine h.write_end rfl rfl hopen rfl rfl (setWorker_approvedById h hx ?_)
    exact (approvedById_appendAll _ _ (by simp [DomainEvent.type])).1

theorem Approvals.of_created {normalized : Entries} {target : BackendTarget}
    (h : Created S req p normalized target w) : Approvals S w := by
  -- No creation event approves, and there are no copies of the row yet.
  have hcreated : ∀ es : List DomainEvent, (∀ e ∈ es, e.type ≠ .executionApproved) →
      StatusSynced S.platform ((World.fresh p).append S req p .initial es).2 →
      w.ledger = ((World.fresh p).append S req p .initial es).2 →
      w.loaded = (fun _ => none) → w.workers = (fun _ => none) → Approvals S w := by
    intro es hna hsync hledger hloaded hworkers
    have hnull : w.ledger.row.approvedById = .null := by
      rw [hledger]
      exact (approvedById_appendAll _ _ hna).2
    refine ⟨hledger ▸ hsync, .inl hnull, fun _ => ⟨hnull, ?_⟩, ?_⟩
    · intro slot copy hcopy
      rw [hloaded] at hcopy
      cases hcopy
    · intro i x hx
      rw [hworkers] at hx
      cases hx
  cases h with
  | approval =>
    refine hcreated _ ?_ ?_ rfl rfl rfl
    · simp [DomainEvent.type]
    · have hrequested : StatusSynced S.platform (appendAndProject S.platform
          (executionContext req p) .initial freshLedger (.executionRequested req.requestedById)).2 :=
        StatusSynced.appendAndProject rfl (by simp [DomainEvent.WellNamed, DomainEvent.type])
          (by simp [DomainEvent.type, EventType.status, ProjectionState.initial])
      refine hrequested.appendAndProject (by simp [DomainEvent.WellNamed, DomainEvent.type]) ?_
      rw [status_appendAndProject_copy]
      simp [DomainEvent.type, EventType.status]
  | direct hopen hs =>
    refine hcreated _ ?_ ?_ (congrArg Prod.snd hs) rfl rfl
    · simp [DomainEvent.type]
    · refine StatusSynced.appendAndProject rfl
        (by simp [DomainEvent.WellNamed, DomainEvent.type]) ?_
      simp [DomainEvent.type, EventType.status, World.fresh, freshLedger, ProjectionState.initial]

/-! ## Dispatch -/

structure PayloadCleared (S : Site) (req : ExecutionRequest) (hash : Option String) (x : Worker) :
    Prop where
  authorized : approvalIdentitiesAreAuthorized S x.procedure.name req.requestedById
    x.copy.approvedById = true
  payload : ∃ current normalized target, x.payload = some current ∧
    approvalProtectedPayload S x.procedure req normalized target = some current ∧
    hash = some (S.platform.stableHash current)

structure DispatchGrant (S : Site) (req : ExecutionRequest) (hash : Option String)
    (c : BackendCall) : Prop where
  approval : ∃ approver, ApprovedBy S.platform c.events approver ∧
    (approver ≠ req.requestedById ∨
      S.isSuperuser approver = true ∧ c.procedureName ≠ netboxProductionRestartRqWorker)
  lease : ∃ r ∈ c.events, r.type? = some .dispatchLeaseIssued
  payload : ∃ current, c.payload = some current ∧
    (∃ procedure normalized target, procedure.name = c.procedureName ∧
      approvalProtectedPayload S procedure req normalized target = some current) ∧
    hash = some (S.platform.stableHash current)

structure Grants (S : Site) (req : ExecutionRequest) (hash : Option String) (w : World) :
    Prop where
  snapshot : w.snapshot.map ApprovalRequest.payloadHash = hash
  cleared : ∀ i x, w.workers i = some x → (x.phase = .prepared ∨ x.phase = .leased) →
    isProtected x.procedure.name = true → PayloadCleared S req hash x
  leased : ∀ i x, w.workers i = some x → x.phase = .leased →
    isProtected x.procedure.name = true → 0 < countOf .dispatchLeaseIssued w.ledger.events
  calls : ∀ c ∈ w.calls, isProtected c.procedureName = true → DispatchGrant S req hash c

variable {hash : Option String}

theorem countOf_le_append (t : EventType) :
    countOf t w.ledger.events ≤ countOf t (w.append S req p copy es).2.events := by
  obtain ⟨added, hevents, _⟩ := exists_events_appendAll S.platform (executionContext req p)
    (copy, w.ledger) es
  rw [World.append, hevents, countOf, countOf, List.countP_append]
  exact Nat.le_add_right _ _

theorem approvalIdentitiesAreAuthorized_cases {name : String} {requester approver : Json}
    (h : approvalIdentitiesAreAuthorized S name requester approver = true) :
    approver ≠ .null ∧ (approver ≠ requester ∨
      S.isSuperuser approver = true ∧ name ≠ netboxProductionRestartRqWorker) := by
  unfold approvalIdentitiesAreAuthorized at h
  split_ifs at h with hnull hdiff hrestart
  · refine ⟨fun ha => hnull (.inr ha), .inl fun heq => hdiff ?_⟩
    rw [heq]
  · exact ⟨fun ha => hnull (.inr ha), .inr ⟨h, hrestart⟩⟩

theorem Grants.frame (h : Grants S req hash w) (hsnapshot : w'.snapshot = w.snapshot)
    (hworkers : w'.workers = w.workers) (hcalls : w'.calls = w.calls)
    (hleases : countOf .dispatchLeaseIssued w.ledger.events ≤
      countOf .dispatchLeaseIssued w'.ledger.events) : Grants S req hash w' := by
  refine ⟨hsnapshot ▸ h.snapshot, hworkers ▸ h.cleared, ?_, hcalls ▸ h.calls⟩
  rw [hworkers]
  intro i x hx hphase hp
  exact (h.leased i x hx hphase hp).trans_le hleases

/-- A step of one worker. -/
theorem Grants.setWorker (h : Grants S req hash w) {i : ℕ} {y : Worker}
    (hsnapshot : w'.snapshot = w.snapshot)
    (hworkers : w'.workers = Function.update w.workers i (some y))
    (hcleared : (y.phase = .prepared ∨ y.phase = .leased) → isProtected y.procedure.name = true →
      PayloadCleared S req hash y)
    (hleased : y.phase = .leased → isProtected y.procedure.name = true →
      0 < countOf .dispatchLeaseIssued w'.ledger.events)
    (hleases : countOf .dispatchLeaseIssued w.ledger.events ≤
      countOf .dispatchLeaseIssued w'.ledger.events)
    (hcalls : ∀ c ∈ w'.calls, isProtected c.procedureName = true → DispatchGrant S req hash c) :
    Grants S req hash w' := by
  refine ⟨hsnapshot ▸ h.snapshot, ?_, ?_, hcalls⟩
  · intro j x hx
    rw [hworkers] at hx
    rcases of_update_eq_some hx with ⟨-, rfl⟩ | ⟨-, hx⟩
    · exact hcleared
    · exact h.cleared j x hx
  · intro j x hx hphase hp
    rw [hworkers] at hx
    rcases of_update_eq_some hx with ⟨-, rfl⟩ | ⟨-, hx⟩
    · exact hleased hphase hp
    · exact (h.leased j x hx hphase hp).trans_le hleases

theorem PayloadCleared.of_current {x : Worker} {normalized : Entries} {target : BackendTarget}
    {current : Json} (hsnapshot : w.snapshot.map ApprovalRequest.payloadHash = hash)
    (h : currentProtectedApproval S req w x normalized target = some current) :
    PayloadCleared S req hash { x with payload := some current } := by
  simp only [currentProtectedApproval, Option.bind_eq_bind, Option.bind_eq_some_iff,
    Option.guard_eq_some', Option.pure_def, Option.some.injEq] at h
  obtain ⟨_, _, _, hauthorized, payload, hpayload, snapshot, hsnap, _, hmatches, rfl⟩ := h
  refine ⟨hauthorized, payload, normalized, target, rfl, hpayload, ?_⟩
  simp only [ApprovalRequest.matchesCurrent, Bool.and_eq_true, beq_iff_eq] at hmatches
  rw [← hsnapshot, hsnap, Option.map_some, hmatches.2]

theorem DispatchGrant.of_leased (happrovals : Approvals S w) (h : Grants S req hash w) {i : ℕ}
    {x : Worker} (hx : w.workers i = some x) (hphase : x.phase = .leased)
    (hp : isProtected x.procedure.name = true) :
    DispatchGrant S req hash ⟨x.procedure.name, w.ledger.events, x.payload⟩ := by
  obtain ⟨hauthorized, current, normalized, target, hpayload, hcurrent, hhash⟩ :=
    h.cleared i x hx (.inr hphase) hp
  have hrow := happrovals.workers i x hx
  obtain ⟨hnull, hauthority⟩ := approvalIdentitiesAreAuthorized_cases hauthorized
  refine ⟨⟨x.copy.approvedById, ?_, hauthority⟩, ?_, current, hpayload,
    ⟨x.procedure, normalized, target, rfl, hcurrent⟩, hhash⟩
  · rw [hrow] at hnull ⊢
    exact happrovals.approver.resolve_left hnull
  · obtain ⟨r, hr, htype⟩ := List.countP_pos_iff.mp (h.leased i x hx hphase hp)
    exact ⟨r, hr, by simpa using htype⟩

theorem isProtected_requiresSignedDispatch {name : String} (h : isProtected name = true) :
    requiresSignedDispatch req name = true := by
  simp [requiresSignedDispatch, h]

theorem Grants.move {a : Action} (hmove : Move S req w a w') (happrovals : Approvals S w)
    (h : Grants S req hash w) : Grants S req hash w' := by
  cases hmove with
  | load | editProcedure | enqueueLost => exact h.frame rfl rfl rfl le_rfl
  | cancelled | failedLocked | decided | enqueued | enqueueRaised =>
    exact h.frame rfl rfl rfl (countOf_le_append _)
  | approvedProtected userId hash at_ reason hpending hs =>
    subst hs
    exact h.frame rfl rfl rfl (countOf_le_append _)
  | claimed hfree hqueued hs =>
    subst hs
    refine h.setWorker rfl rfl ?_ ?_ (countOf_le_append _) h.calls
    · rintro (hphase | hphase) <;> cases hphase
    · intro hphase
      cases hphase
  | @advanced a i x phase hx hadv =>
    refine h.setWorker rfl rfl ?_ ?_ le_rfl h.calls
    · intro hphase hp
      cases hadv with
      | leased hprepared =>
        obtain ⟨hauthorized, hpayload⟩ := h.cleared i x hx (.inl hprepared) hp
        exact ⟨hauthorized, hpayload⟩
      | admitted | failing | ended => rcases hphase with hphase | hphase <;> cases hphase
    · intro hphase hp
      cases hadv with
      | leased hprepared hunsigned =>
        rw [isProtected_requiresSignedDispatch hp] at hunsigned
        cases hunsigned
      | admitted | failing | ended => cases hphase
  | @worked a i x x' events fate done hx hrunning ha hwork =>
    cases fate with
    | aborts n =>
      refine h.setWorker rfl rfl ?_ ?_ le_rfl h.calls
      · rintro (hphase | hphase) <;> cases hphase
      · intro hphase
        cases hphase
    | commits =>
      refine h.setWorker rfl rfl ?_ ?_ (countOf_le_append _) h.calls
      · intro hphase hp
        have hcopy : (w.append S req x'.procedure x'.copy events).1.approvedById =
            x'.copy.approvedById := (approvedById_appendAll _ _ hwork.not_approved).1
        cases hwork with
        | prepare j raw target fate payload hash hadmitted happroval =>
          obtain ⟨hsome, hcurrent⟩ := happroval hp
          obtain ⟨current, rfl⟩ := Option.isSome_iff_exists.mp hsome
          obtain ⟨hauthorized, hpayload⟩ := PayloadCleared.of_current h.snapshot hcurrent
          exact ⟨hcopy ▸ hauthorized, hpayload⟩
        | lease j claims fate hprepared =>
          obtain ⟨hauthorized, hpayload⟩ := h.cleared i x hx (.inl hprepared) hp
          exact ⟨hcopy ▸ hauthorized, hpayload⟩
        | record => rcases hphase with hphase | hphase <;> cases hphase
      · intro hphase hp
        cases hwork with
        | prepare => cases hphase
        | record => cases hphase
        | lease j claims =>
          have hcount := @countOf_append S req w x.procedure x.copy
            [.dispatchLeaseIssued claims.nonce claims.keyId claims.keyVersion
              (currentStreamVersion w.ledger.events) claims.audience claims.expiresAt 1]
            (by simp [DomainEvent.WellNamed, DomainEvent.type]) .dispatchLeaseIssued (by decide)
          simp only [World.writeWorker, World.setWorker, hcount]
          exact Nat.succ_pos _
  | @called i x hx hphase =>
    refine h.setWorker rfl rfl ?_ ?_ le_rfl ?_
    · rintro (hphase | hphase) <;> cases hphase
    · intro hphase
      cases hphase
    · intro c hc hp
      rcases List.mem_append.mp hc with hc | hc
      · exact h.calls c hc hp
      · obtain rfl := List.mem_singleton.mp hc
        exact .of_leased happrovals h hx hphase hp
  | failed =>
    refine h.setWorker rfl rfl ?_ ?_ (countOf_le_append _) h.calls
    · rintro (hphase | hphase) <;> cases hphase
    · intro hphase
      cases hphase

theorem Grants.of_created {normalized : Entries} {target : BackendTarget}
    (h : Created S req p normalized target w) :
    ∃ hash, Grants S req hash w ∧ ∀ t, hash = some t → ∃ requested,
      approvalProtectedPayload S p req normalized target = some requested ∧
        S.platform.stableHash requested = t := by
  cases h with
  | @approval payload hpayload =>
    refine ⟨some (S.platform.stableHash payload), ⟨rfl, ?_, ?_, ?_⟩, ?_⟩
    · exact fun i x hx => nomatch hx
    · exact fun i x hx => nomatch hx
    · exact fun c hc => nomatch hc
    · intro t ht
      exact ⟨payload, hpayload, Option.some.inj ht⟩
  | direct hopen hs =>
    refine ⟨none, ⟨rfl, ?_, ?_, ?_⟩, fun t ht => nomatch ht⟩
    · exact fun i x hx => nomatch hx
    · exact fun i x hx => nomatch hx
    · exact fun c hc => nomatch hc

end

/-- Every backend call of a protected procedure, in every history, rests on an approval that was
recorded while the execution was pending, by another person or by a superuser outside the worker
restart; on a recorded lease; and on a payload that hashes to the one approval was requested for. -/
theorem protected_call_is_granted {S : Site} {req : ExecutionRequest} {p : Procedure}
    {normalized : Entries} {target : BackendTarget} {w₀ : World}
    (hcreate : create S req p normalized target = some w₀) (actions : List Action)
    {c : BackendCall} (hc : c ∈ (Transition.run (step S req) w₀ actions).calls)
    (hp : isProtected c.procedureName = true) :
    (∃ before r after, c.events = before ++ r :: after ∧ r.type? = some .executionApproved ∧
      (rebuildProjection S.platform before).status = .pendingApproval ∧
      (valueOf r.data "approved_by_id" ≠ req.requestedById ∨
        S.isSuperuser (valueOf r.data "approved_by_id") = true ∧
          c.procedureName ≠ netboxProductionRestartRqWorker)) ∧
    (∃ r ∈ c.events, r.type? = some .dispatchLeaseIssued) ∧
    ∃ requested current, approvalProtectedPayload S p req normalized target = some requested ∧
      c.payload = some current ∧
      (∃ procedure normalized' target', procedure.name = c.procedureName ∧
        approvalProtectedPayload S procedure req normalized' target' = some current) ∧
      S.platform.stableHash current = S.platform.stableHash requested := by
  have hcreated := Created.of_create hcreate
  obtain ⟨hash, hgrants, hhash⟩ := Grants.of_created hcreated
  have hinv : ∀ w a w', step S req w a = some w' →
      (Claims w ∧ w.EnqueuerQueued ∧ Approvals S w ∧ Grants S req hash w) →
      Claims w' ∧ w'.EnqueuerQueued ∧ Approvals S w' ∧ Grants S req hash w' := by
    rintro w a w' hstep ⟨hclaims, henq, happrovals, hgrants⟩
    have hmove := Move.of_step hstep
    exact ⟨hclaims.move hmove, henq.move hmove, happrovals.move hmove hclaims henq,
      hgrants.move hmove happrovals⟩
  obtain ⟨_, _, _, h⟩ := Transition.run_invariant hinv actions
    ⟨.of_created hcreated, .of_created hcreated, .of_created hcreated, hgrants⟩
  obtain ⟨⟨approver, ⟨before, r, after, hevents, htype, happrover, hpending⟩, hauthority⟩, hlease,
    current, hpayload, hrecomputed, hcurrent⟩ := h.calls c hc hp
  obtain ⟨requested, hrequested, hsame⟩ := hhash _ hcurrent
  subst happrover
  exact ⟨⟨before, r, after, hevents, htype, hpending, hauthority⟩, hlease, requested, current,
    hrequested, hpayload, hrecomputed, hsame.symm⟩

def installRequest : ExecutionRequest :=
  { (default : ExecutionRequest) with requestedById := .int 1, backendId := .int 1 }

def installProcedure : Procedure :=
  { (default : Procedure) with name := akvoradoInstall, enabled := true }

def installActions : List Action :=
  [.approveProtected 2 [] default "" 0, .claim 0 false none 0, .admission 0,
    .prepare 0 [] default .commits, .lease 0 (some ⟨"", "", 1, "", .none⟩) .commits, .call 0]

theorem protected_call_is_granted_install : ∃ w₀ c,
    create default installRequest installProcedure [] default = some w₀ ∧
      c ∈ (Transition.run (step default installRequest) w₀ installActions).calls ∧
      isProtected c.procedureName = true ∧
      ∃ r ∈ c.events, r.type? = some .dispatchLeaseIssued := by
  have hcall : (create default installRequest installProcedure [] default).map (fun w₀ =>
      (Transition.run (step default installRequest) w₀ installActions).calls.any
        (fun c => isProtected c.procedureName)) = some true := by
    decide +kernel
  obtain ⟨w₀, hcreate, hany⟩ := Option.map_eq_some_iff.mp hcall
  obtain ⟨c, hc, hp⟩ := List.any_eq_true.mp hany
  exact ⟨w₀, c, hcreate, hc, hp, (protected_call_is_granted hcreate installActions hc hp).2.1⟩

end NetboxRpc
