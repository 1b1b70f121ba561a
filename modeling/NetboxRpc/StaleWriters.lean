import NetboxRpc.ProjectedFields
import NetboxRpc.SingleDispatch

/-!
# Writers with stale copies

The creator and the worker write through copies of different ages. Each copy is fresh in the
fields its holder has still to set, except where a success is recorded over a failure that the
worker's copy never saw.
-/

namespace NetboxRpc

/-- The row is in step with its stream, and every copy is fresh in the fields its holder has still
to set. -/
structure Consistent (S : Site) (w : World) : Prop where
  synced : w.ledger.row.PyEq (rebuildProjection S.platform w.ledger.events)
  open_row : w.ledger.row.status.isTerminal = false → Blank outcomeFields w.ledger.row
  enqueuer : ∀ c, w.enqueuer = some c →
    Blank (.jobId :: errorFields) c ∧ Blank [.jobId] w.ledger.row
  pending : w.ledger.row.status = .pendingApproval → w.enqueuer = none ∧
    Blank [.jobId] w.ledger.row ∧ ∀ slot c, w.loaded slot = some c → c = w.ledger.row
  worker : ∀ i x, w.workers i = some x → x.phase ≠ .ended → x.copy.status.isTerminal = false →
    Blank outcomeFields x.copy ∧ Blank [.result] w.ledger.row
  unprepared : ∀ i x, w.workers i = some x → (x.phase = .claimed ∨ x.phase = .admitted) →
    ∀ f ∈ EventType.parametersNormalized.fields, x.copy.get f = w.ledger.row.get f

section

variable {S : Site} {req : ExecutionRequest} {w w' : World} {p : Procedure}
  {copy : ProjectionState} {es : List DomainEvent}

/-- Fields that no event of a write sets. -/
theorem get_append {f : Field} (h : ∀ e ∈ es, f ∉ e.type.fields) :
    (w.append S req p copy es).1.get f = copy.get f ∧
      (w.append S req p copy es).2.row.get f = w.ledger.row.get f := by
  have hall : ∀ s : ProjectionState × Ledger,
      (appendAll S.platform (executionContext req p) s es).1.get f = s.1.get f ∧
        (appendAll S.platform (executionContext req p) s es).2.row.get f = s.2.row.get f := by
    induction es with
    | nil => exact fun s => ⟨rfl, rfl⟩
    | cons e es ih =>
      intro s
      obtain ⟨hcopy, hrow⟩ := ih (fun d hd => h d (List.mem_cons_of_mem e hd))
        (appendAndProject S.platform (executionContext req p) s.1 s.2 e)
      obtain ⟨hcopy', hrow'⟩ := @get_of_not_mem S.platform (executionContext req p) s.1 s.2 e f
        (h e List.mem_cons_self)
      exact ⟨hcopy.trans hcopy', hrow.trans hrow'⟩
  exact hall (copy, w.ledger)

theorem Blank.congr {fields : List Field} {s t : ProjectionState} (h : Blank fields s)
    (heq : ∀ f ∈ fields, t.get f = s.get f) : Blank fields t := fun f hf =>
  (heq f hf).trans (h f hf)

theorem faithful_append (hsync : w.ledger.row.PyEq (rebuildProjection S.platform w.ledger.events))
    (hwell : ∀ e ∈ es, e.WellNamed) :
    (w.append S req p w.ledger.row es).1 = (w.append S req p w.ledger.row es).2.row ∧
      (w.append S req p w.ledger.row es).2.row.PyEq
        (rebuildProjection S.platform (w.append S req p w.ledger.row es).2.events) := by
  have h := Faithful.appendAll (executionContext req p) es hwell
    (s := (w.ledger.row, w.ledger)) ⟨rfl, hsync⟩
  exact ⟨h.copy_eq, h.row_pyEq⟩

/-- A step that leaves the ledger alone and moves at most one worker, whose copy keeps its blank
fields. -/
theorem Consistent.advance (h : Consistent S w) {i : ℕ} {x y : Worker} (hx : w.workers i = some x)
    (hledger : w'.ledger = w.ledger) (henqueuer : w'.enqueuer = w.enqueuer)
    (hloaded : w'.loaded = w.loaded) (hworkers : w'.workers = Function.update w.workers i (some y))
    (hblank : y.phase ≠ .ended → y.copy.status.isTerminal = false →
      Blank outcomeFields y.copy ∧ Blank [.result] w.ledger.row)
    (hunprepared : (y.phase = .claimed ∨ y.phase = .admitted) →
      x.phase = .claimed ∧ y.copy = x.copy) : Consistent S w' := by
  obtain ⟨hsync, hopen, henq, hpending, hworker, hunprep⟩ := h
  refine ⟨hledger ▸ hsync, hledger ▸ hopen, ?_, ?_, ?_, ?_⟩
  · rw [hledger, henqueuer]
    exact henq
  · rw [hledger, henqueuer, hloaded]
    exact hpending
  · rw [hledger, hworkers]
    intro j z hz
    rcases of_update_eq_some hz with ⟨rfl, rfl⟩ | ⟨-, hz⟩
    · exact hblank
    · exact hworker j z hz
  · rw [hledger, hworkers]
    intro j z hz hphase
    rcases of_update_eq_some hz with ⟨rfl, rfl⟩ | ⟨-, hz⟩
    · obtain ⟨hclaimed, hcopy⟩ := hunprepared hphase
      rw [hcopy]
      exact hunprep j x hx (.inl hclaimed)
    · exact hunprep j z hz hphase

/-- The row ends: what is left to keep is the job id, and the result of the row for a worker that
is still on its way. -/
theorem Consistent.end_row (h : Consistent S w)
    (hsync : w'.ledger.row.PyEq (rebuildProjection S.platform w'.ledger.events))
    (hterm : w'.ledger.row.status.isTerminal = true)
    (hkept : ∀ f ∈ [Field.jobId, .normalizedParams, .resolvedCommandHash],
      w'.ledger.row.get f = w.ledger.row.get f)
    (henqueuer : w'.enqueuer = w.enqueuer ∨ w'.enqueuer = none)
    (hworkers : (w'.workers = w.workers ∧
        (Blank [.result] w.ledger.row → Blank [.result] w'.ledger.row)) ∨
      ∀ j z, w'.workers j = some z → z.phase = .ended) : Consistent S w' := by
  refine ⟨hsync, ?_, ?_, ?_, ?_, ?_⟩
  · intro hopen
    rw [hterm] at hopen
    cases hopen
  · intro c hc
    rcases henqueuer with he | he
    · obtain ⟨hblank, hjob⟩ := h.enqueuer c (he ▸ hc)
      refine ⟨hblank, hjob.congr fun f hf => ?_⟩
      rw [List.mem_singleton.mp hf]
      exact hkept .jobId (by decide)
    · rw [he] at hc
      cases hc
  · intro hpending
    rw [hpending] at hterm
    cases hterm
  · intro j z hz hphase hopen
    rcases hworkers with ⟨hsame, hresult⟩ | hended
    · obtain ⟨hblank, hrow⟩ := h.worker j z (hsame ▸ hz) hphase hopen
      exact ⟨hblank, hresult hrow⟩
    · exact absurd (hended j z hz) hphase
  · intro j z hz hphase f hf
    rcases hworkers with ⟨hsame, _⟩ | hended
    · refine (h.unprepared j z (hsame ▸ hz) hphase f hf).trans (hkept f ?_).symm
      exact List.mem_cons_of_mem _ hf
    · rw [hended j z hz] at hphase
      rcases hphase with hphase | hphase <;> cases hphase

theorem isTerminal_append_last (es : List DomainEvent) {last : DomainEvent} {t : ExecutionStatus}
    (hlast : last.type.status = some t) (hterm : t.isTerminal = true)
    (hcopy : (w.append S req p copy es).1.status.isTerminal = false) :
    (w.append S req p copy (es ++ [last])).2.row.status.isTerminal = true := by
  rw [status_append_last hlast]
  · exact hterm
  · intro heq
    rw [heq, hterm] at hcopy
    cases hcopy

/-- A locked write that moves an open row on, to an open status. -/
theorem Consistent.locked (h : Consistent S w) (hopen : w.ledger.row.status.isTerminal = false)
    (hwell : ∀ e ∈ es, e.WellNamed)
    (hfields : ∀ e ∈ es, ∀ f ∈ Field.jobId :: outcomeFields, f ∉ e.type.fields)
    (hledger : w'.ledger = (w.append S req p w.ledger.row es).2)
    (henqueuer : ∀ c, w'.enqueuer = some c →
      w.enqueuer = some c ∨ c = w'.ledger.row ∧ Blank [.jobId] w.ledger.row)
    (hpending : w'.ledger.row.status = .pendingApproval → w'.enqueuer = none ∧
      Blank [.jobId] w.ledger.row ∧ ∀ slot, w'.loaded slot = none)
    (hworkers : ∀ j z, w'.workers j = some z → z.copy = w'.ledger.row) : Consistent S w' := by
  have hkept : ∀ f ∈ Field.jobId :: outcomeFields, w'.ledger.row.get f = w.ledger.row.get f := by
    intro f hf
    rw [hledger]
    exact (get_append fun e he => hfields e he f hf).2
  have hblank : Blank outcomeFields w'.ledger.row :=
    (h.open_row hopen).congr fun f hf => hkept f (List.mem_cons_of_mem _ hf)
  have hjob : Blank [.jobId] w.ledger.row → Blank [.jobId] w'.ledger.row := fun hj =>
    hj.congr fun f hf => by
      rw [List.mem_singleton.mp hf]
      exact hkept .jobId List.mem_cons_self
  refine ⟨?_, fun _ => hblank, ?_, ?_, ?_, ?_⟩
  · rw [hledger]
    exact (faithful_append h.synced hwell).2
  · intro c hc
    rcases henqueuer c hc with hsame | ⟨rfl, hrow⟩
    · obtain ⟨hcopy, hrow⟩ := h.enqueuer c hsame
      exact ⟨hcopy, hjob hrow⟩
    · refine ⟨fun f hf => ?_, hjob hrow⟩
      rcases List.mem_cons.mp hf with rfl | hf
      · exact hjob hrow .jobId List.mem_cons_self
      · exact hblank f (List.mem_cons_of_mem _ hf)
  · intro hstatus
    obtain ⟨hnone, hrow, hloaded⟩ := hpending hstatus
    refine ⟨hnone, hjob hrow, fun slot c hc => ?_⟩
    rw [hloaded slot] at hc
    cases hc
  · intro j z hz _ _
    rw [hworkers j z hz]
    exact ⟨hblank, fun f hf => hblank f (List.mem_singleton.mp hf ▸ List.mem_cons_self)⟩
  · intro j z hz _ f _
    rw [hworkers j z hz]

theorem Consistent.fresh (S : Site) (p : Procedure) : Consistent S (World.fresh p) where
  synced := .refl _
  open_row := fun _ _ _ => rfl
  enqueuer := fun _ hc => nomatch hc
  pending := fun hstatus => nomatch hstatus
  worker := fun _ _ hx => nomatch hx
  unprepared := fun _ _ hx => nomatch hx

theorem Consistent.of_created {normalized : Entries} {target : BackendTarget}
    (h : Created S req p normalized target w) : Consistent S w := by
  cases h with
  | approval =>
    refine (Consistent.fresh S p).locked rfl ?_ ?_ rfl (fun _ hc => by cases hc) ?_
      (fun _ _ hz => by cases hz)
    · simp [DomainEvent.WellNamed, DomainEvent.type]
    · simp [DomainEvent.type, EventType.fields, outcomeFields, errorFields]
    · exact fun _ => ⟨rfl, fun _ _ => rfl, fun _ => rfl⟩
  | direct hopen hs =>
    have hwell : ∀ e ∈ [DomainEvent.executionQueued req.requestedById], e.WellNamed := by
      simp [DomainEvent.WellNamed, DomainEvent.type]
    refine (Consistent.fresh S p).locked rfl hwell ?_ (congrArg Prod.snd hs) ?_ ?_
      (fun _ _ hz => by cases hz)
    · simp [DomainEvent.type, EventType.fields, outcomeFields, errorFields]
    · intro c hc
      refine .inr ⟨?_, fun _ _ => rfl⟩
      rw [← Option.some.inj hc, hs]
      exact (faithful_append (Consistent.fresh S p).synced hwell).1
    · intro hpending
      rw [hs] at hpending
      rw [World.append, appendAll_cons, appendAll_nil, status_appendAndProject_row] at hpending
      cases hpending

/-- A write that leaves the status and the outcome of the row alone. -/
theorem Consistent.silent (h : Consistent S w)
    (hsync : w'.ledger.row.PyEq (rebuildProjection S.platform w'.ledger.events))
    (hstatus : w'.ledger.row.status = w.ledger.row.status)
    (hkept : ∀ f ∈ outcomeFields, w'.ledger.row.get f = w.ledger.row.get f)
    (hpending : w.ledger.row.status ≠ .pendingApproval)
    (henqueuer : ∀ c, w'.enqueuer = some c →
      w.enqueuer = some c ∧ w'.ledger.row.get .jobId = w.ledger.row.get .jobId)
    (hworkers : ∀ j z, w'.workers j = some z → z.phase ≠ .ended →
      z.copy.status.isTerminal = false → Blank outcomeFields z.copy ∧ Blank [.result] w.ledger.row)
    (hunprepared : ∀ j z, w'.workers j = some z → (z.phase = .claimed ∨ z.phase = .admitted) →
      ∀ f ∈ EventType.parametersNormalized.fields, z.copy.get f = w'.ledger.row.get f) :
    Consistent S w' := by
  refine ⟨hsync, ?_, ?_, ?_, ?_, hunprepared⟩
  · intro hopen
    exact (h.open_row (hstatus ▸ hopen)).congr hkept
  · intro c hc
    obtain ⟨hsame, hjob⟩ := henqueuer c hc
    obtain ⟨hcopy, hrow⟩ := h.enqueuer c hsame
    exact ⟨hcopy, hrow.congr fun f hf => List.mem_singleton.mp hf ▸ hjob⟩
  · intro hstill
    exact absurd (hstatus ▸ hstill) hpending
  · intro j z hz hphase hopen
    obtain ⟨hcopy, hrow⟩ := hworkers j z hz hphase hopen
    refine ⟨hcopy, hrow.congr fun f hf => ?_⟩
    rw [List.mem_singleton.mp hf]
    exact hkept .result List.mem_cons_self

/-- A locked cancellation, rejection or expiry. -/
theorem Consistent.halt (h : Consistent S w) (hclaims : Claims w) {e : DomainEvent}
    (he : e.type = .executionCancelled ∨ e.type = .executionRejected ∨ e.type = .executionExpired)
    (hopen : w.ledger.row.status = .queued ∨ w.ledger.row.status = .pendingApproval) :
    Consistent S (w.writeLocked S req [e]) := by
  have hstatus : w.ledger.row.status.isTerminal = false := by
    rcases hopen with h | h <;> rw [h] <;> rfl
  have hevent : ∃ t, e.type.status = some t ∧ t.isTerminal = true := by
    rcases he with h | h | h <;> rw [h] <;> exact ⟨_, rfl, rfl⟩
  have hfields : ∀ f ∈ [Field.jobId, .normalizedParams, .resolvedCommandHash],
      f ∉ e.type.fields := by
    rcases he with h | h | h <;> rw [h] <;> decide
  obtain ⟨t, ht, hterm⟩ := hevent
  refine h.end_row (faithful_append h.synced ?_).2
    (isTerminal_append_last [] ht hterm hstatus) ?_ (.inl rfl) (.inr ?_)
  · simpa using DomainEvent.wellNamed_of_status ht
  · intro f hf
    refine (get_append ?_).2
    simpa using hfields f hf
  · intro j z hz
    have hnone := hclaims.workers_of_open (by rcases hopen with h | h <;> rw [h] <;> rfl) j
    exact absurd hz (by simp [World.writeLocked, hnone])

/-- A failure without a result leaves a blank result blank. -/
theorem blank_result_of_failed {message code : String} {now : DateTime}
    (hrow : Blank [.result] w.ledger.row) :
    Blank [.result] (w.append S req p copy
      [.executionFailed message code (.time now) []]).2.row := by
  obtain ⟨message', code', finished, result', hevent, hresult⟩ :=
    projected_failed S.platform (executionContext req p) message code now []
  intro f hf
  rw [List.mem_singleton.mp hf]
  have hget := @get_row_appendAndProject S.platform (executionContext req p) copy w.ledger
    (.executionFailed message code (.time now) []) .result
  rw [hevent, hresult rfl] at hget
  refine hget.trans ?_
  split_ifs
  · exact hrow .result List.mem_cons_self
  · rfl

theorem Consistent.fail_locked (h : Consistent S w) {message code : String} {now : DateTime}
    (hopen : w.ledger.row.status = .queued ∨ w.ledger.row.status = .running) :
    Consistent S (w.writeLocked S req [.executionFailed message code (.time now) []]) := by
  have hstatus : w.ledger.row.status.isTerminal = false := by
    rcases hopen with h | h <;> rw [h] <;> rfl
  refine h.end_row (faithful_append h.synced ?_).2 ?_ ?_ (.inl rfl)
    (.inl ⟨rfl, blank_result_of_failed⟩)
  · simp [DomainEvent.WellNamed, DomainEvent.type]
  · exact isTerminal_append_last [] (t := .failed) rfl rfl hstatus
  · intro f hf
    refine (get_append ?_).2
    simp only [List.mem_singleton, forall_eq, DomainEvent.type]
    revert f
    decide

theorem Consistent.decide (h : Consistent S w) (hclaims : Claims w) {slot : ℕ} {e : DomainEvent}
    (hloaded : w.loaded slot = some copy) (hpending : w.ledger.row.status = .pendingApproval)
    (he : e.IsDecision) :
    Consistent S { w with ledger :=
      (w.append S req w.procedure { copy with status := .pendingApproval } [e]).2 } := by
  obtain ⟨henqueuer, hjob, hcopies⟩ := h.pending hpending
  have hcopy : { copy with status := .pendingApproval } = w.ledger.row := by
    rw [hcopies slot copy hloaded, ← hpending]
  have hopen : w.ledger.row.status.isTerminal = false := by rw [hpending]; rfl
  have hnone := hclaims.workers_of_open (by rw [hpending]; rfl)
  have hwell : ∀ d ∈ [e], d.WellNamed := by simpa using he.wellNamed
  rw [hcopy]
  cases he with
  | approved userId hash at_ reason =>
    refine h.locked hopen hwell ?_ rfl (fun c hc => .inl hc) ?_ ?_
    · simp [DomainEvent.type, EventType.fields, outcomeFields, errorFields]
    · intro hstill
      rw [status_append_one (t := .approved) rfl (by rw [hpending]; decide)] at hstill
      cases hstill
    · intro j z hz
      rw [hnone j] at hz
      cases hz
  | rejected by_ at_ reason => exact h.halt hclaims (.inr (.inl rfl)) (.inr hpending)
  | expired at_ reason => exact h.halt hclaims (.inr (.inr rfl)) (.inr hpending)

theorem Consistent.approve_protected (h : Consistent S w) (hclaims : Claims w)
    {s : ProjectionState × Ledger} (userId : ℤ) (hash : String) (at_ : Stamp) (reason : String)
    (hpending : w.ledger.row.status = .pendingApproval)
    (hs : s = w.append S req w.procedure w.ledger.row
      [.executionApproved (.int userId) hash at_ reason, .executionQueued req.requestedById]) :
    Consistent S { w with ledger := s.2, enqueuer := some s.1 } := by
  obtain ⟨henqueuer, hjob, hcopies⟩ := h.pending hpending
  have hwell : ∀ e ∈ [DomainEvent.executionApproved (.int userId) hash at_ reason,
      .executionQueued req.requestedById], e.WellNamed := by
    simp [DomainEvent.WellNamed, DomainEvent.type]
  have hsame : s.1 = s.2.row := by
    rw [hs]
    exact (faithful_append h.synced hwell).1
  have hqueued : s.1.status = .queued := by
    rw [hs]
    exact status_append_copy [_] rfl
  refine h.locked (by rw [hpending]; rfl) hwell ?_ (congrArg Prod.snd hs) ?_ ?_ ?_
  · simp [DomainEvent.type, EventType.fields, outcomeFields, errorFields]
  · intro c hc
    exact .inr ⟨(Option.some.inj hc).symm.trans hsame, hjob⟩
  · intro hstill
    rw [← hsame, hqueued] at hstill
    cases hstill
  · intro j z hz
    rw [hclaims.workers_of_open (by rw [hpending]; rfl) j] at hz
    cases hz

theorem Consistent.claim (h : Consistent S w) (hclaims : Claims w) {i : ℕ} {now : DateTime}
    {s : ProjectionState × Ledger} (hqueued : w.ledger.row.status = .queued)
    (hs : s = w.append S req w.procedure w.ledger.row [.executionStarted (.time now)]) :
    Consistent S ({ w with ledger := s.2 }.setWorker i ⟨.claimed, s.1, w.procedure, none⟩) := by
  have hwell : ∀ e ∈ [DomainEvent.executionStarted (.time now)], e.WellNamed := by
    simp [DomainEvent.WellNamed, DomainEvent.type]
  have hsame : s.1 = s.2.row := by
    rw [hs]
    exact (faithful_append h.synced hwell).1
  have hrunning : s.1.status = .running := by
    rw [hs]
    exact status_append_copy [] rfl
  refine h.locked (by rw [hqueued]; rfl) hwell ?_ (congrArg Prod.snd hs) (fun c hc => .inl hc) ?_ ?_
  · simp [DomainEvent.type, EventType.fields, outcomeFields, errorFields]
  · intro hpending
    simp only [World.setWorker] at hpending
    rw [← hsame, hrunning] at hpending
    cases hpending
  · intro j z hz
    rcases of_update_eq_some hz with ⟨-, rfl⟩ | ⟨-, hz⟩
    · exact hsame
    · rw [hclaims.workers_of_open (by rw [hqueued]; rfl) j] at hz
      cases hz

theorem Consistent.enqueue (h : Consistent S w) {jobId : Json}
    (henqueuer : w.enqueuer = some copy) :
    Consistent S { w with
      ledger := (w.append S req w.procedure copy [.jobEnqueued jobId]).2, enqueuer := none } := by
  obtain ⟨hcopy, hrow⟩ := h.enqueuer copy henqueuer
  have hkept : ∀ f, f ≠ Field.jobId → (w.append S req w.procedure copy
      [.jobEnqueued jobId]).2.row.get f = w.ledger.row.get f := fun f hf =>
    (get_append (by simpa [DomainEvent.type, EventType.fields] using hf)).2
  refine h.silent ?_ ?_ ?_ ?_ (fun _ hc => by cases hc) h.worker ?_
  · refine row_pyEq_appendAndProject h.synced (by simp [DomainEvent.WellNamed, DomainEvent.type])
      (.of_agree fun f hf => ?_)
    rw [type_projectedEvent] at hf
    have hjob : f = .jobId := List.mem_singleton.mp hf
    rw [hjob, hcopy .jobId List.mem_cons_self, hrow .jobId List.mem_cons_self]
  · exact (status_appendAll_of_silent _ _ (by simp [DomainEvent.type, EventType.status])).2
  · intro f hf
    exact hkept f (by rintro rfl; revert hf; decide)
  · intro hpending
    rw [(h.pending hpending).1] at henqueuer
    cases henqueuer
  · intro j z hz hphase f hf
    refine (h.unprepared j z hz hphase f hf).trans (hkept f ?_).symm
    rintro rfl
    revert hf
    decide

theorem Consistent.enqueue_raised (h : Consistent S w) (henq : w.EnqueuerQueued)
    {message code : String} {now : DateTime} (henqueuer : w.enqueuer = some copy) :
    Consistent S { w with
      ledger := (w.append S req w.procedure copy
        [.executionEnqueueFailed message code (.time now)]).2,
      enqueuer := none } := by
  obtain ⟨hcopy, _⟩ := h.enqueuer copy henqueuer
  have hqueued := henq copy henqueuer
  have hkept : ∀ f ∈ [Field.jobId, .normalizedParams, .resolvedCommandHash, .result],
      (w.append S req w.procedure copy
        [.executionEnqueueFailed message code (.time now)]).2.row.get f = w.ledger.row.get f := by
    intro f hf
    refine (get_append ?_).2
    simp only [List.mem_singleton, forall_eq, DomainEvent.type]
    revert f
    decide
  obtain ⟨message', code', finished, hevent⟩ :=
    projected_enqueueFailed S.platform (executionContext req w.procedure) message code now
  refine h.end_row ?_ ?_ ?_ (.inr rfl) (.inl ⟨rfl, fun hrow => hrow.congr fun f hf => ?_⟩)
  · refine row_pyEq_appendAndProject h.synced (by simp [DomainEvent.WellNamed, DomainEvent.type]) ?_
    rw [hevent]
    exact .enqueueFailed (by rw [hqueued]; decide) (fun f hf => hcopy f (List.mem_cons_of_mem _ hf))
      _ _ _
  · exact isTerminal_append_last [] (t := .failed) rfl rfl
      (by rw [World.append, appendAll_nil, hqueued]; rfl)
  · exact fun f hf => hkept f (by revert f; decide)
  · exact hkept f (by rw [List.mem_singleton.mp hf]; decide)

/-- The only worker ends together with the row. -/
theorem Consistent.finish (h : Consistent S w) (hclaims : Claims w) {i : ℕ} {x y : Worker}
    (hx : w.workers i = some x) (hy : y.phase = .ended) {ledger : Ledger}
    (hsync : ledger.row.PyEq (rebuildProjection S.platform ledger.events))
    (hterm : ledger.row.status.isTerminal = true)
    (hkept : ∀ f ∈ [Field.jobId, .normalizedParams, .resolvedCommandHash],
      ledger.row.get f = w.ledger.row.get f) :
    Consistent S ({ w with ledger := ledger }.setWorker i y) := by
  refine h.end_row hsync hterm hkept (.inl rfl) (.inr fun j z hz => ?_)
  rcases of_update_eq_some hz with ⟨-, rfl⟩ | ⟨hij, hz⟩
  · exact hy
  · exact absurd (hclaims.unique hx hz) hij

theorem Consistent.fail_worker (h : Consistent S w) (hclaims : Claims w) {i : ℕ} {x : Worker}
    {message code : String} {now : DateTime} (hx : w.workers i = some x) (hphase : x.phase ≠ .ended)
    (hopen : x.copy.status.isTerminal = false) :
    Consistent S (w.writeWorker S req i x
      [.executionFailed message code (.time now) []] .commits .ended) := by
  obtain ⟨hcopy, hrow⟩ := h.worker i x hx hphase hopen
  obtain ⟨message', code', finished, result', hevent, _⟩ :=
    projected_failed S.platform (executionContext req x.procedure) message code now []
  have hresult : x.copy.get .result = w.ledger.row.get .result :=
    (hcopy .result List.mem_cons_self).trans (hrow .result List.mem_cons_self).symm
  refine h.finish hclaims hx rfl ?_ (isTerminal_append_last [] (t := .failed) rfl rfl hopen) ?_
  · refine row_pyEq_appendAndProject h.synced (by simp [DomainEvent.WellNamed, DomainEvent.type]) ?_
    rw [hevent]
    refine .failed ?_ (fun f hf => hcopy f (List.mem_cons_of_mem _ hf)) hresult _ _ _ _
    intro hfailed
    rw [hfailed] at hopen
    cases hopen
  · intro f hf
    refine (get_append ?_).2
    simp only [List.mem_singleton, forall_eq, DomainEvent.type]
    revert f
    decide

/-- Recording a response is consistent when a success meets a running row. -/
theorem Consistent.record (h : Consistent S w) (hclaims : Claims w) {i : ℕ} {x : Worker}
    {response : Entries} {now : DateTime} {events : List DomainEvent} (hx : w.workers i = some x)
    (hphase : x.phase = .called) (hrunning : x.copy.status = .running)
    (hevents : backendResponseEvents S.platform (executionContext req x.procedure) response
      (.time now) = some events)
    (hok : (valueOf response "ok").truthy = true → w.ledger.row.status = .running) :
    Consistent S (w.writeWorker S req i x events .commits .ended) := by
  have hwell := backendResponseEvents_wellNamed hevents
  obtain ⟨progress, last, rfl, hprogress, hlast⟩ := exists_of_backendResponseEvents hevents
  have hopen : x.copy.status.isTerminal = false := by rw [hrunning]; rfl
  obtain ⟨hcopy, hrow⟩ := h.worker i x hx (by rw [hphase]; decide) hopen
  have haudit : ∀ e ∈ progress, e.type.fields = [] := fun e he => by rw [hprogress e he]; rfl
  -- The progress events leave the copy and the row as they are; the last event decides.
  obtain ⟨hcopySame, hrowSame, hsync⟩ := @appendAll_audit S.platform
    (executionContext req x.procedure) (x.copy, w.ledger) progress
    (fun e he => hwell e (List.mem_append_left _ he)) haudit h.synced
  obtain ⟨t, hstatus, hterm⟩ := hlast.status
  refine h.finish hclaims hx rfl ?_ (isTerminal_append_last progress hstatus hterm ?_) ?_
  · rw [World.append, appendAll_append, appendAll_cons, appendAll_nil]
    refine row_pyEq_appendAndProject hsync (hwell last (by simp)) ?_
    rw [hcopySame, hrowSame]
    cases hlast with
    | succeeded result htruthy =>
      obtain ⟨result', finished, hevent⟩ :=
        projected_succeeded S.platform (executionContext req x.procedure) result now
      rw [hevent]
      refine .succeeded (by rw [hrunning]; decide) hcopy (h.open_row ?_) _ _
      rw [hok htruthy]
      rfl
    | failed message code result =>
      obtain ⟨message', code', finished, result', hevent, _⟩ :=
        projected_failed S.platform (executionContext req x.procedure) message code now result
      rw [hevent]
      exact .failed (by rw [hrunning]; decide) (fun f hf => hcopy f (List.mem_cons_of_mem _ hf))
        ((hcopy .result List.mem_cons_self).trans (hrow .result List.mem_cons_self).symm) _ _ _ _
  · rw [World.append, hcopySame]
    exact hopen
  · intro f hf
    refine (get_append fun e he => ?_).2
    rcases List.mem_append.mp he with he | he
    · rw [haudit e he]
      exact List.not_mem_nil
    · rw [List.mem_singleton.mp he]
      cases hlast <;> simp only [DomainEvent.type] <;> revert f <;> decide

theorem Consistent.prepare (h : Consistent S w) (hclaims : Claims w) {i : ℕ} {x : Worker}
    {params : Entries} {hash : String} {payload : Option Json} (hx : w.workers i = some x)
    (hphase : x.phase = .admitted) (hrunning : x.copy.status = .running) :
    Consistent S (w.writeWorker S req i { x with payload := payload }
      [.parametersNormalized params hash] .commits .prepared) := by
  have hopen : x.copy.status.isTerminal = false := by rw [hrunning]; rfl
  obtain ⟨hcopy, hrow⟩ := h.worker i x hx (by rw [hphase]; decide) hopen
  have hkept : ∀ f ∈ Field.jobId :: outcomeFields,
      (w.append S req x.procedure x.copy [.parametersNormalized params hash]).1.get f =
          x.copy.get f ∧
        (w.append S req x.procedure x.copy [.parametersNormalized params hash]).2.row.get f =
          w.ledger.row.get f := by
    intro f hf
    refine get_append ?_
    simp only [List.mem_singleton, forall_eq, DomainEvent.type]
    revert f
    decide
  refine h.silent ?_ ?_ (fun f hf => (hkept f (List.mem_cons_of_mem _ hf)).2) ?_ ?_ ?_ ?_
  · refine row_pyEq_appendAndProject h.synced (by simp [DomainEvent.WellNamed, DomainEvent.type])
      (.of_agree fun f hf => ?_)
    rw [type_projectedEvent] at hf
    exact h.unprepared i x hx (.inr hphase) f hf
  · exact (status_appendAll_of_silent _ _ (by simp [DomainEvent.type, EventType.status])).2
  · intro hpending
    have hsettled := hclaims.settled hx
    rw [hpending] at hsettled
    cases hsettled
  · exact fun c hc => ⟨hc, (hkept .jobId List.mem_cons_self).2⟩
  · intro j z hz hended hnot
    rcases of_update_eq_some hz with ⟨-, rfl⟩ | ⟨-, hz⟩
    · exact ⟨hcopy.congr fun f hf => (hkept f (List.mem_cons_of_mem _ hf)).1, hrow⟩
    · exact h.worker j z hz hended hnot
  · intro j z hz hearly
    rcases of_update_eq_some hz with ⟨-, rfl⟩ | ⟨hij, hz⟩
    · rcases hearly with hearly | hearly <;> cases hearly
    · exact absurd (hclaims.unique hx hz) hij

theorem Consistent.lease (h : Consistent S w) (hclaims : Claims w) {i : ℕ} {x : Worker}
    {e : DomainEvent} (hx : w.workers i = some x) (hphase : x.phase = .prepared)
    (hrunning : x.copy.status = .running) (he : e.type = .dispatchLeaseIssued) :
    Consistent S (w.writeWorker S req i x [e] .commits .leased) := by
  have hopen : x.copy.status.isTerminal = false := by rw [hrunning]; rfl
  obtain ⟨hcopySame, hrowSame, hsync⟩ := @appendAll_audit S.platform
    (executionContext req x.procedure) (x.copy, w.ledger) [e]
    (by simp [DomainEvent.WellNamed, he]) (by simp [he, EventType.fields]) h.synced
  refine h.silent hsync (congrArg ProjectionState.status hrowSame) ?_ ?_ ?_ ?_ ?_
  · exact fun f _ => congrArg (ProjectionState.get · f) hrowSame
  · intro hpending
    have hsettled := hclaims.settled hx
    rw [hpending] at hsettled
    cases hsettled
  · exact fun c hc => ⟨hc, congrArg (ProjectionState.get · .jobId) hrowSame⟩
  · intro j z hz hended hnot
    rcases of_update_eq_some hz with ⟨rfl, rfl⟩ | ⟨-, hz⟩
    · show Blank outcomeFields (appendAll _ _ _ _).1 ∧ _
      rw [hcopySame]
      exact h.worker j x hx (by rw [hphase]; decide) hopen
    · exact h.worker j z hz hended hnot
  · intro j z hz hearly f hf
    rcases of_update_eq_some hz with ⟨-, rfl⟩ | ⟨-, hz⟩
    · rcases hearly with hearly | hearly <;> cases hearly
    · refine (h.unprepared j z hz hearly f hf).trans ?_
      exact congrArg (ProjectionState.get · f) hrowSame.symm

/-- What an aborted transaction leaves in memory: a terminal status, or the outcome fields as they
were. -/
theorem Work.blank_aborted {x x' : Worker} {a : Action} {done : Phase}
    (h : Work S req w x a x' es done) (n : ℕ)
    (hopen : (w.append S req x'.procedure x'.copy (es.take n)).1.status.isTerminal = false) :
    ∀ f ∈ outcomeFields,
      (w.append S req x'.procedure x'.copy (es.take n)).1.get f = x.copy.get f := by
  cases h with
  | prepare =>
    intro f hf
    refine (get_append fun e he => ?_).1
    rw [List.mem_singleton.mp (List.mem_of_mem_take he)]
    simp only [DomainEvent.type]
    revert f
    decide
  | lease =>
    intro f hf
    refine (get_append fun e he => ?_).1
    rw [List.mem_singleton.mp (List.mem_of_mem_take he)]
    exact List.not_mem_nil
  | record i response fate now events hphase hevents =>
    obtain ⟨progress, last, rfl, hprogress, hlast⟩ := exists_of_backendResponseEvents hevents
    obtain ⟨t, hstatus, hterm⟩ := hlast.status
    by_cases hn : n ≤ progress.length
    · intro f hf
      rw [List.take_append_of_le_length hn]
      refine (get_append fun e he => ?_).1
      rw [hprogress e (List.mem_of_mem_take he)]
      exact List.not_mem_nil
    · have hall : (progress ++ [last]).take n = progress ++ [last] :=
        List.take_of_length_le (by simp; omega)
      rw [hall, status_append_copy progress hstatus, hterm] at hopen
      cases hopen

def World.successMeetsRunning (w : World) : Action → Bool
  | .record _ response .commits _ =>
    !(valueOf response "ok").truthy || w.ledger.row.status == .running
  | _ => true

theorem Work.phase_ne_ended {x x' : Worker} {a : Action} {done : Phase}
    (h : Work S req w x a x' es done) : x.phase ≠ .ended := by
  cases h with
  | prepare i raw target fate payload hash hphase => rw [hphase]; decide
  | lease i claims fate hphase => rw [hphase]; decide
  | record i response fate now events hphase => rw [hphase]; decide

theorem Worker.Advances.phase_ne_ended {x : Worker} {phase : Phase} (h : x.Advances req phase)
    (hne : phase ≠ .ended) : x.phase ≠ .ended := by
  cases h with
  | admitted h => rw [h]; decide
  | leased h => rw [h]; decide
  | failing h => rw [h]; decide
  | ended => exact absurd rfl hne

theorem Consistent.move {a : Action} (hok : w.successMeetsRunning a = true)
    (hmove : Move S req w a w') (hclaims : Claims w) (henq : w.EnqueuerQueued)
    (h : Consistent S w) : Consistent S w' := by
  cases hmove with
  | load slot =>
    refine ⟨h.synced, h.open_row, h.enqueuer, fun hpending => ?_, h.worker, h.unprepared⟩
    obtain ⟨hnone, hjob, hcopies⟩ := h.pending hpending
    refine ⟨hnone, hjob, fun s c hc => ?_⟩
    rcases of_update_eq_some hc with ⟨-, rfl⟩ | ⟨-, hc⟩
    · rfl
    · exact hcopies s c hc
  | editProcedure =>
    exact ⟨h.synced, h.open_row, h.enqueuer, h.pending, h.worker, h.unprepared⟩
  | enqueueLost =>
    refine ⟨h.synced, h.open_row, ?_, fun hpending => ?_, h.worker, h.unprepared⟩
    · exact fun _ hc => nomatch hc
    · exact ⟨rfl, (h.pending hpending).2⟩
  | cancelled he hopen => exact h.halt hclaims (.inl he) hopen
  | failedLocked hopen => exact h.fail_locked hopen
  | decided hloaded hpending he => exact h.decide hclaims hloaded hpending he
  | approvedProtected userId hash at_ reason hpending hs =>
    exact h.approve_protected hclaims userId hash at_ reason hpending hs
  | enqueued henqueuer => exact h.enqueue henqueuer
  | enqueueRaised henqueuer => exact h.enqueue_raised henq henqueuer
  | claimed hfree hqueued hs => exact h.claim hclaims hqueued hs
  | @advanced a i x phase hx hadv =>
    refine h.advance hx rfl rfl rfl rfl ?_ ?_
    · intro hended hopen
      exact h.worker i x hx (hadv.phase_ne_ended hended) hopen
    · intro hearly
      cases hadv with
      | admitted hclaimed => exact ⟨hclaimed, rfl⟩
      | leased | failing | ended => rcases hearly with hearly | hearly <;> cases hearly
  | @called i x hx hphase =>
    refine h.advance hx rfl rfl rfl rfl ?_ ?_
    · intro _ hopen
      exact h.worker i x hx (by rw [hphase]; decide) hopen
    · rintro (hearly | hearly) <;> cases hearly
  | @worked a i x x' events fate done hx hrunning ha hwork =>
    have hopen : x.copy.status.isTerminal = false := by rw [hrunning]; rfl
    cases fate with
    | aborts n =>
      refine h.advance hx rfl rfl rfl rfl ?_ ?_
      · intro _ haborted
        obtain ⟨hcopy, hrow⟩ := h.worker i x hx hwork.phase_ne_ended hopen
        exact ⟨hcopy.congr (hwork.blank_aborted n haborted), hrow⟩
      · rintro (hearly | hearly) <;> cases hearly
    | commits =>
      cases hwork with
      | prepare j raw target fate payload hash hphase => exact h.prepare hclaims hx hphase hrunning
      | lease j claims fate hphase => exact h.lease hclaims hx hphase hrunning rfl
      | record j response fate now events hphase hevents =>
        cases ha
        refine h.record hclaims hx hphase hrunning hevents fun htruthy => ?_
        simpa [World.successMeetsRunning, htruthy] using hok
  | failed hx hphase hopen => exact h.fail_worker hclaims hx hphase hopen

end

/-- In every history whose successes are recorded on a running row, the stored row equals the
projection rebuilt from the stream in every state. -/
theorem stored_row_is_rebuilt {S : Site} {req : ExecutionRequest} {p : Procedure}
    {normalized : Entries} {target : BackendTarget} {w₀ : World}
    (hcreate : create S req p normalized target = some w₀) {actions : List Action}
    (hok : Transition.Meets (step S req) (fun w a => w.successMeetsRunning a = true) w₀ actions) :
    let ledger := (Transition.run (step S req) w₀ actions).ledger
    ledger.row.PyEq (rebuildProjection S.platform ledger.events) := by
  have hcreated := Created.of_create hcreate
  have hinv : ∀ w a w', w.successMeetsRunning a = true → step S req w a = some w' →
      (Claims w ∧ w.EnqueuerQueued ∧ Consistent S w) →
      Claims w' ∧ w'.EnqueuerQueued ∧ Consistent S w' := by
    rintro w a w' hok hstep ⟨hclaims, henq, hconsistent⟩
    have hmove := Move.of_step hstep
    exact ⟨hclaims.move hmove, henq.move hmove, hconsistent.move hok hmove hclaims henq⟩
  obtain ⟨_, _, h⟩ := Transition.run_invariant_of_meets hinv hok
    ⟨.of_created hcreated, .of_created hcreated, .of_created hcreated⟩
  exact h.synced

def lateFailureActions : List Action :=
  dispatchActions 0 ++ [.record 0 [("ok", .bool true)] .commits 0, .enqueueRaised 0]

theorem stored_row_is_rebuilt_late_failure : ∃ w₀,
    create default default directProcedure [] default = some w₀ ∧
      Transition.Meets (step default default) (fun w a => w.successMeetsRunning a = true) w₀
        lateFailureActions ∧
      (Transition.run (step default default) w₀ lateFailureActions).ledger.row.PyEq
        (rebuildProjection (default : Site).platform
          (Transition.run (step default default) w₀ lateFailureActions).ledger.events) := by
  have hcreate : create default default directProcedure [] default = some _ := rfl
  have hmeets : Transition.Meets (step default default)
      (fun w a => w.successMeetsRunning a = true)
      ((create default default directProcedure [] default).get rfl) lateFailureActions := by
    decide +kernel
  exact ⟨_, hcreate, hmeets, stored_row_is_rebuilt hcreate hmeets⟩

/-- The creator's failure comes between the claim and the success. The worker's copy shows no
error, so its success does not clear the one in the row. -/
theorem stored_error_survives_success :
    (create default default directProcedure [] default).map (fun w₀ =>
      let ledger := (Transition.run (step default default) w₀ (dispatchActions 0 ++
        [.enqueueRaised 0, .record 0 [("ok", .bool true)] .commits 0])).ledger
      (ledger.row.status, ledger.row.errorCode,
        (rebuildProjection (default : Site).platform ledger.events).errorCode)) =
      some (.succeeded, "RPC_ENQUEUE_FAILED", "") := by
  decide +kernel

end NetboxRpc
