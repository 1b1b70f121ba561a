import NetboxRpc.LifecycleMoves

/-!
# Single dispatch

However deliveries of the job race with each other and with decisions, at most one worker claims
the execution, and it leases and calls the backend at most once. The claim is the only step that
takes the row out of `queued` into `running`, and no later write brings it back.
-/

namespace NetboxRpc

def ExecutionStatus.isSettled (s : ExecutionStatus) : Bool := s == .running || s.isTerminal

theorem ExecutionStatus.isSettled_of_isTerminal {s : ExecutionStatus} (h : s.isTerminal = true) :
    s.isSettled = true := by
  simp [isSettled, h]

def Phase.leases : Phase → ℕ
  | .claimed | .admitted | .prepared => 0
  | _ => 1

def Phase.calls : Phase → ℕ
  | .claimed | .admitted | .prepared | .leased => 0
  | _ => 1

theorem Phase.leases_le_one (p : Phase) : p.leases ≤ 1 := by cases p <;> decide

theorem Phase.calls_le_one (p : Phase) : p.calls ≤ 1 := by cases p <;> decide

def halts (events : List EventRecord) : ℕ :=
  countOf .executionCancelled events + countOf .executionRejected events +
    countOf .executionExpired events

/-- Either no worker has claimed the execution, or one has, and it is the only one. -/
inductive Claims (w : World) : Prop
  | idle (hworkers : ∀ i, w.workers i = none) (hcalls : w.calls = [])
      (hstarts : countOf .executionStarted w.ledger.events = 0)
      (hleases : countOf .dispatchLeaseIssued w.ledger.events = 0)
      (hhalts : 0 < halts w.ledger.events → w.ledger.row.status.isTerminal = true)
  | held (i : ℕ) (x : Worker) (hworkers : w.workers = Function.update (fun _ => none) i (some x))
      (hstatus : w.ledger.row.status.isSettled = true) (hcalls : w.calls.length ≤ x.phase.calls)
      (hstarts : countOf .executionStarted w.ledger.events = 1)
      (hleases : countOf .dispatchLeaseIssued w.ledger.events ≤ x.phase.leases)
      (hhalts : halts w.ledger.events = 0)

section

variable {S : Site} {req : ExecutionRequest} {w w' : World}

structure DomainEvent.Incidental (e : DomainEvent) : Prop where
  ends : e.Ends
  wellNamed : e.WellNamed
  type_ne : e.type ≠ .executionStarted ∧ e.type ≠ .executionCancelled ∧
    e.type ≠ .executionRejected ∧ e.type ≠ .executionExpired

theorem DomainEvent.Incidental.of_type {e : DomainEvent}
    (h : e.type = .executionFailed ∨ e.type = .executionSucceeded ∨
      e.type = .executionEnqueueFailed ∨ e.type = .jobEnqueued ∨ e.type = .parametersNormalized ∨
      e.type = .dispatchLeaseIssued) : e.Incidental := by
  refine ⟨?_, ?_, ?_⟩
  · intro s hs
    rcases h with h | h | h | h | h | h <;> rw [h] at hs <;> cases hs <;> rfl
  · intro hb
    rcases h with h | h | h | h | h | h <;> rw [h] at hb <;> cases hb
  · rcases h with h | h | h | h | h | h <;> rw [h] <;> decide

theorem DomainEvent.Incidental.of_response {P : Platform} {ctx : ExecutionContext}
    {response : Entries} {finishedAt : Stamp} {events : List DomainEvent}
    (h : backendResponseEvents P ctx response finishedAt = some events) :
    ∀ e ∈ events, e.Incidental := by
  have hwell := backendResponseEvents_wellNamed h
  obtain ⟨progress, last, rfl, hprogress, hlast⟩ := exists_of_backendResponseEvents h
  intro e he
  rcases List.mem_append.mp he with hp | hl
  · have htype := hprogress e hp
    exact ⟨.of_silent (by rw [htype]; rfl), hwell e he, by rw [htype]; decide⟩
  · rw [List.mem_singleton.mp hl]
    cases hlast with
    | succeeded => exact .of_type (.inr (.inl rfl))
    | failed => exact .of_type (.inl rfl)

variable {p : Procedure} {copy : ProjectionState} {es : List DomainEvent}

theorem countOf_append (hw : ∀ e ∈ es, e.WellNamed) {t : EventType}
    (ht : t ≠ .backendEventRecorded) :
    countOf t (w.append S req p copy es).2.events =
      countOf t w.ledger.events + es.countP (fun e => decide (e.type = t)) :=
  countOf_appendAll hw ht

theorem starts_append (hes : ∀ e ∈ es, e.Incidental) :
    countOf .executionStarted (w.append S req p copy es).2.events =
      countOf .executionStarted w.ledger.events := by
  rw [countOf_append (fun e he => (hes e he).wellNamed) (by decide),
    countP_type_eq_zero (fun e he => (hes e he).type_ne.1), Nat.add_zero]

theorem halts_append (hwell : ∀ e ∈ es, e.WellNamed)
    (hne : ∀ e ∈ es, e.type ≠ .executionCancelled ∧ e.type ≠ .executionRejected ∧
      e.type ≠ .executionExpired) :
    halts (w.append S req p copy es).2.events = halts w.ledger.events := by
  unfold halts
  rw [countOf_append hwell (by decide), countOf_append hwell (by decide),
    countOf_append hwell (by decide), countP_type_eq_zero (fun e he => (hne e he).1),
    countP_type_eq_zero (fun e he => (hne e he).2.1),
    countP_type_eq_zero (fun e he => (hne e he).2.2)]
  rfl

theorem halts_append_incidental (hes : ∀ e ∈ es, e.Incidental) :
    halts (w.append S req p copy es).2.events = halts w.ledger.events :=
  halts_append (fun e he => (hes e he).wellNamed) (fun e he => (hes e he).type_ne.2)

theorem status_append (hes : ∀ e ∈ es, e.Incidental) :
    (w.append S req p copy es).2.row.status = w.ledger.row.status ∨
      (w.append S req p copy es).2.row.status.isTerminal = true :=
  (status_appendAll_of_ends _ _ (fun e he => (hes e he).ends)).2

/-- A write by any party outside the worker, other than a claim or a decision. -/
theorem Claims.append (h : Claims w) (hes : ∀ e ∈ es, e.Incidental)
    (hlease : ∀ e ∈ es, e.type ≠ .dispatchLeaseIssued)
    (hledger : w'.ledger = (w.append S req p copy es).2) (hworkers : w'.workers = w.workers)
    (hcalls : w'.calls = w.calls) : Claims w' := by
  have hleases : countOf .dispatchLeaseIssued w'.ledger.events =
      countOf .dispatchLeaseIssued w.ledger.events := by
    rw [hledger, countOf_append (fun e he => (hes e he).wellNamed) (by decide),
      countP_type_eq_zero hlease, Nat.add_zero]
  have hstarts := hledger ▸ @starts_append S req w p copy es hes
  have hhalts := hledger ▸ @halts_append_incidental S req w p copy es hes
  have hstatus := hledger ▸ @status_append S req w p copy es hes
  cases h with
  | idle hw hc hs hl hh =>
    refine .idle (by rw [hworkers]; exact hw) (by rw [hcalls, hc]) (hstarts.trans hs)
      (hleases.trans hl) (fun hpos => ?_)
    rcases hstatus with hsame | hterm
    · rw [hsame]
      exact hh (hhalts ▸ hpos)
    · exact hterm
  | held i x hw hst hc hs hl hh =>
    refine .held i x (hworkers.trans hw) ?_ (by rw [hcalls]; exact hc) (hstarts.trans hs)
      (hleases ▸ hl) (hhalts.trans hh)
    rcases hstatus with hsame | hterm
    · rw [hsame]
      exact hst
    · exact ExecutionStatus.isSettled_of_isTerminal hterm

theorem eq_of_update {ws : ℕ → Option Worker} {i j : ℕ} {x y : Worker}
    (hw : ws = Function.update (fun _ => none) j (some y)) (hx : ws i = some x) :
    j = i ∧ y = x := by
  by_cases hij : i = j
  · subst hij
    rw [hw, Function.update_self] at hx
    exact ⟨rfl, Option.some.inj hx⟩
  · rw [hw, Function.update_of_ne hij] at hx
    cases hx

/-- A write by the worker that holds the claim. -/
theorem Claims.work (h : Claims w) {i : ℕ} {x x' : Worker} (hx : w.workers i = some x)
    (hes : ∀ e ∈ es, e.Incidental) (hledger : w'.ledger = (w.append S req p copy es).2)
    (hworkers : w'.workers = Function.update w.workers i (some x'))
    (hcalls : w.calls.length ≤ x.phase.calls → w'.calls.length ≤ x'.phase.calls)
    (hleases : es.countP (fun e => decide (e.type = .dispatchLeaseIssued)) + x.phase.leases ≤
      x'.phase.leases) : Claims w' := by
  cases h with
  | idle hw => rw [hw i] at hx; cases hx
  | held j y hw hst hc hs hl hh =>
    obtain ⟨rfl, rfl⟩ := eq_of_update hw hx
    refine .held j x' ?_ ?_ (hcalls hc) ?_ ?_ ?_
    · rw [hworkers, hw, Function.update_idem]
    · rw [hledger]
      rcases @status_append S req w p copy es hes with hsame | hterm
      · rw [hsame]
        exact hst
      · exact ExecutionStatus.isSettled_of_isTerminal hterm
    · rw [hledger, starts_append hes, hs]
    · rw [hledger, countOf_append (fun e he => (hes e he).wellNamed) (by decide)]
      omega
    · rw [hledger, halts_append_incidental hes, hh]

/-- The worker that holds the claim moves on without a write. -/
theorem Claims.advance (h : Claims w) {i : ℕ} {x x' : Worker} (hx : w.workers i = some x)
    (hledger : w'.ledger = w.ledger) (hworkers : w'.workers = Function.update w.workers i (some x'))
    (hcalls : w.calls.length ≤ x.phase.calls → w'.calls.length ≤ x'.phase.calls)
    (hleases : x.phase.leases ≤ x'.phase.leases) : Claims w' := by
  cases h with
  | idle hw => rw [hw i] at hx; cases hx
  | held j y hw hst hc hs hl hh =>
    obtain ⟨rfl, rfl⟩ := eq_of_update hw hx
    rw [← hledger] at hst hs hl hh
    exact .held j x' (by rw [hworkers, hw, Function.update_idem]) hst (hcalls hc) hs
      (hl.trans hleases) hh

theorem Claims.frame (h : Claims w) (hledger : w'.ledger = w.ledger)
    (hworkers : w'.workers = w.workers) (hcalls : w'.calls = w.calls) : Claims w' := by
  cases h with
  | idle hw hc hs hl hh =>
    rw [← hledger] at hs hl hh
    exact .idle (by rw [hworkers]; exact hw) (hcalls.trans hc) hs hl hh
  | held i x hw hst hc hs hl hh =>
    rw [← hledger] at hst hs hl hh
    exact .held i x (hworkers.trans hw) hst (by rw [hcalls]; exact hc) hs hl hh

/-- A locked decision, made while the row is neither running nor terminal. -/
theorem Claims.decide (h : Claims w) (hopen : w.ledger.row.status.isSettled = false)
    (hwell : ∀ e ∈ es, e.WellNamed)
    (htypes : ∀ e ∈ es, e.type ≠ .executionStarted ∧ e.type ≠ .dispatchLeaseIssued)
    (hafter : (w.append S req p copy es).2.row.status.isTerminal = true ∨
      ∀ e ∈ es, e.type ≠ .executionCancelled ∧ e.type ≠ .executionRejected ∧
        e.type ≠ .executionExpired)
    (hledger : w'.ledger = (w.append S req p copy es).2) (hworkers : w'.workers = w.workers)
    (hcalls : w'.calls = w.calls) : Claims w' := by
  cases h with
  | held i x hw hst => rw [hst] at hopen; cases hopen
  | idle hw hc hs hl hh =>
    refine .idle (by rw [hworkers]; exact hw) (hcalls.trans hc) ?_ ?_ (fun hpos => ?_)
    · rw [hledger, countOf_append hwell (by decide), hs,
        countP_type_eq_zero (fun e he => (htypes e he).1)]
    · rw [hledger, countOf_append hwell (by decide), hl,
        countP_type_eq_zero (fun e he => (htypes e he).2)]
    · rw [hledger] at hpos ⊢
      rcases hafter with hterm | hne
      · exact hterm
      · rw [halts_append hwell hne] at hpos
        have hterm := hh hpos
        rw [ExecutionStatus.isSettled_of_isTerminal hterm] at hopen
        cases hopen

theorem Claims.claim (h : Claims w) {i : ℕ} {now : DateTime} {s : ProjectionState × Ledger}
    (hqueued : w.ledger.row.status = .queued)
    (hs : s = w.append S req w.procedure w.ledger.row [.executionStarted (.time now)]) :
    Claims ({ w with ledger := s.2 }.setWorker i ⟨.claimed, s.1, w.procedure, none⟩) := by
  have hwell : ∀ e ∈ [DomainEvent.executionStarted (.time now)], e.WellNamed := by
    simp [DomainEvent.WellNamed, DomainEvent.type]
  cases h with
  | held j x hw hst => rw [hqueued] at hst; cases hst
  | idle hw hc hstarts hl hh =>
    have hhalts : halts w.ledger.events = 0 := by
      by_contra hne
      have hterm := hh (Nat.pos_of_ne_zero hne)
      rw [hqueued] at hterm
      cases hterm
    refine .held i ⟨.claimed, s.1, w.procedure, none⟩ ?_ ?_ ?_ ?_ ?_ ?_
    · have hnone : w.workers = fun _ => none := funext hw
      simp only [World.setWorker, hnone]
    · have hrow := status_appendAndProject_row S.platform (executionContext req w.procedure)
        w.ledger.row w.ledger (.executionStarted (.time now))
      simp only [World.setWorker, hs, World.append, appendAll_cons, appendAll_nil, hrow, hqueued]
      rfl
    · simp only [World.setWorker, hc]
      exact Nat.le_refl 0
    · simp only [World.setWorker, hs]
      rw [countOf_append hwell (by decide), hstarts]
      rfl
    · simp only [World.setWorker, hs]
      rw [countOf_append hwell (by decide), hl]
      exact Nat.le_refl 0
    · simp only [World.setWorker, hs]
      rw [halts_append hwell (by simp [DomainEvent.type]), hhalts]

theorem status_append_last {last : DomainEvent} {t : ExecutionStatus}
    (hlast : last.type.status = some t) (hne : (w.append S req p copy es).1.status ≠ t) :
    (w.append S req p copy (es ++ [last])).2.row.status = t := by
  rw [World.append] at hne
  rw [World.append, appendAll_append, appendAll_cons, appendAll_nil, status_appendAndProject_row,
    hlast, Option.getD_some, if_neg hne]

theorem status_append_one {e : DomainEvent} {t : ExecutionStatus} (he : e.type.status = some t)
    (hne : copy.status ≠ t) : (w.append S req p copy [e]).2.row.status = t :=
  @status_append_last S req w p copy [] e t he hne

theorem Work.incidental {x x' : Worker} {a : Action} {done : Phase}
    (h : Work S req w x a x' es done) : ∀ e ∈ es, e.Incidental := by
  cases h with
  | prepare =>
    intro e he
    rw [List.mem_singleton.mp he]
    exact .of_type (.inr (.inr (.inr (.inr (.inl rfl)))))
  | lease =>
    intro e he
    rw [List.mem_singleton.mp he]
    exact .of_type (.inr (.inr (.inr (.inr (.inr rfl)))))
  | record i response fate now events hphase hevents => exact .of_response hevents

theorem Work.leases {x x' : Worker} {a : Action} {done : Phase}
    (h : Work S req w x a x' es done) :
    es.countP (fun e => decide (e.type = .dispatchLeaseIssued)) + x.phase.leases ≤ done.leases := by
  cases h with
  | prepare i raw target fate payload hash hphase => rw [hphase]; exact Nat.le_refl 0
  | lease i claims fate hphase => rw [hphase]; exact Nat.le_refl 1
  | record i response fate now events hphase hevents =>
    obtain ⟨progress, last, rfl, hprogress, hlast⟩ := exists_of_backendResponseEvents hevents
    rw [countP_type_eq_zero, hphase]
    · decide
    · intro e he
      rcases List.mem_append.mp he with hp | hl
      · rw [hprogress e hp]; decide
      · rw [List.mem_singleton.mp hl]
        cases hlast <;> simp [DomainEvent.type]

theorem Work.calls {x x' : Worker} {a : Action} {done : Phase}
    (h : Work S req w x a x' es done) : x.phase.calls ≤ done.calls := by
  cases h with
  | prepare i raw target fate payload hash hphase => rw [hphase]; decide
  | lease i claims fate hphase => rw [hphase]; decide
  | record i response fate now events hphase => rw [hphase]; decide

theorem Worker.Advances.phase_le {x : Worker} {phase : Phase} (h : x.Advances req phase) :
    x.phase.leases ≤ phase.leases ∧ x.phase.calls ≤ phase.calls := by
  cases h with
  | admitted h => rw [h]; decide
  | leased h => rw [h]; decide
  | failing h => rw [h]; decide
  | ended => exact ⟨x.phase.leases_le_one, x.phase.calls_le_one⟩

theorem DomainEvent.IsDecision.wellNamed {e : DomainEvent} (h : e.IsDecision) : e.WellNamed := by
  cases h <;> exact fun hb => nomatch hb

theorem Claims.move {a : Action} (hmove : Move S req w a w') (h : Claims w) : Claims w' := by
  cases hmove with
  | load | editProcedure | enqueueLost => exact h.frame rfl rfl rfl
  | cancelled he hopen =>
    have hne : w.ledger.row.status ≠ .cancelled := by
      rcases hopen with h | h <;> rw [h] <;> decide
    refine h.decide ?_ ?_ ?_ (.inl ?_) rfl rfl rfl
    · rcases hopen with h | h <;> rw [h] <;> rfl
    · simp [DomainEvent.WellNamed, he]
    · simp [he]
    · rw [status_append_one (t := .cancelled) (by rw [he]; rfl) hne]
      rfl
  | failedLocked hopen =>
    refine h.append ?_ ?_ rfl rfl rfl
    · simpa using DomainEvent.Incidental.of_type (.inl rfl)
    · simp [DomainEvent.type]
  | decided hloaded hpending he =>
    refine h.decide (by rw [hpending]; rfl) (by simpa using he.wellNamed) ?_ ?_ rfl rfl rfl
    · cases he <;> simp [DomainEvent.type]
    · cases he with
      | approved => exact .inr (by simp [DomainEvent.type])
      | rejected =>
        left
        rw [status_append_one (t := .rejected) rfl (by simp)]
        rfl
      | expired =>
        left
        rw [status_append_one (t := .expired) rfl (by simp)]
        rfl
  | approvedProtected userId hash at_ reason hpending hs =>
    refine h.decide (by rw [hpending]; rfl) ?_ ?_ (.inr ?_) (congrArg Prod.snd hs) rfl rfl
    all_goals simp [DomainEvent.WellNamed, DomainEvent.type]
  | enqueued =>
    refine h.append ?_ ?_ rfl rfl rfl
    · simpa using DomainEvent.Incidental.of_type (.inr (.inr (.inr (.inl rfl))))
    · simp [DomainEvent.type]
  | enqueueRaised =>
    refine h.append ?_ ?_ rfl rfl rfl
    · simpa using DomainEvent.Incidental.of_type (.inr (.inr (.inl rfl)))
    · simp [DomainEvent.type]
  | claimed hfree hqueued hs => exact h.claim hqueued hs
  | advanced hx hadv =>
    refine h.advance hx rfl rfl ?_ ?_
    · exact fun hle => hle.trans hadv.phase_le.2
    · exact hadv.phase_le.1
  | @worked a i x x' events fate done hx hrunning ha hwork =>
    cases fate with
    | commits =>
      exact h.work hx hwork.incidental rfl rfl (fun hle => hle.trans hwork.calls) hwork.leases
    | aborts n =>
      refine h.advance hx rfl rfl ?_ ?_
      · exact fun hle => hle.trans x.phase.calls_le_one
      · exact x.phase.leases_le_one
  | @called i x hx hphase =>
    refine h.advance hx rfl rfl ?_ ?_
    · rw [hphase]
      intro hle
      simpa [World.setWorker, Phase.calls] using hle
    · rw [hphase]
      exact Nat.le_refl 1
  | @failed a i x message code now hx hphase hopen ha =>
    refine h.work hx ?_ rfl rfl ?_ ?_
    · simpa using DomainEvent.Incidental.of_type (.inl rfl)
    · exact fun hle => hle.trans x.phase.calls_le_one
    · simpa [DomainEvent.type, Phase.leases] using x.phase.leases_le_one

theorem Claims.workers_of_open (h : Claims w) (hopen : w.ledger.row.status.isSettled = false)
    (i : ℕ) : w.workers i = none := by
  cases h with
  | idle hworkers => exact hworkers i
  | held j x hworkers hstatus => rw [hstatus] at hopen; cases hopen

theorem Claims.unique (h : Claims w) {i j : ℕ} {x y : Worker} (hx : w.workers i = some x)
    (hy : w.workers j = some y) : j = i := by
  cases h with
  | idle hworkers => rw [hworkers i] at hx; cases hx
  | held k z hworkers =>
    exact (eq_of_update hworkers hy).1.symm.trans (eq_of_update hworkers hx).1

theorem Claims.settled (h : Claims w) {i : ℕ} {x : Worker} (hx : w.workers i = some x) :
    w.ledger.row.status.isSettled = true := by
  by_contra hopen
  rw [h.workers_of_open (Bool.not_eq_true _ ▸ hopen) i] at hx
  cases hx

theorem Claims.fresh (p : Procedure) : Claims (World.fresh p) :=
  .idle (fun _ => rfl) rfl rfl rfl (fun h => absurd h (Nat.lt_irrefl 0))

theorem Claims.of_created {normalized : Entries} {target : BackendTarget}
    (h : Created S req p normalized target w) : Claims w := by
  cases h with
  | approval =>
    refine (Claims.fresh p).decide rfl ?_ ?_ (.inr ?_) rfl rfl rfl
    all_goals simp [DomainEvent.WellNamed, DomainEvent.type]
  | direct hopen hs =>
    refine (Claims.fresh p).decide rfl ?_ ?_ (.inr ?_) (congrArg Prod.snd hs) rfl rfl
    all_goals simp [DomainEvent.WellNamed, DomainEvent.type]

theorem Claims.run {normalized : Entries} {target : BackendTarget} {w₀ : World}
    (hcreate : create S req p normalized target = some w₀) (actions : List Action) :
    Claims (Transition.run (step S req) w₀ actions) :=
  Transition.run_invariant (fun _ _ _ hstep h => h.move (.of_step hstep)) actions
    (.of_created (.of_create hcreate))

end

theorem halts_pos {events : List EventRecord} {r : EventRecord} (hr : r ∈ events)
    (htype : r.type? = some .executionCancelled ∨ r.type? = some .executionRejected ∨
      r.type? = some .executionExpired) : 0 < halts events := by
  have hpos : ∀ t, r.type? = some t → 0 < countOf t events := fun t ht =>
    List.countP_pos_iff.mpr ⟨r, hr, by simpa using ht⟩
  unfold halts
  rcases htype with h | h | h
  · have := hpos _ h
    omega
  · have := hpos _ h
    omega
  · have := hpos _ h
    omega

/-- In every history the execution is started, leased and sent to the backend at most once, and
not at all when a cancellation, rejection or expiry was recorded before any claim. -/
theorem at_most_one_dispatch {S : Site} {req : ExecutionRequest} {p : Procedure}
    {normalized : Entries} {target : BackendTarget} {w₀ : World}
    (hcreate : create S req p normalized target = some w₀) (actions : List Action) :
    let w := Transition.run (step S req) w₀ actions
    countOf .executionStarted w.ledger.events ≤ 1 ∧
      countOf .dispatchLeaseIssued w.ledger.events ≤ 1 ∧ w.calls.length ≤ 1 ∧
      ∀ before r after, w.ledger.events = before ++ r :: after →
        (r.type? = some .executionCancelled ∨ r.type? = some .executionRejected ∨
          r.type? = some .executionExpired) →
        countOf .executionStarted before = 0 → w.calls = [] := by
  intro w
  cases Claims.run hcreate actions with
  | idle hworkers hcalls hstarts hleases hhalts =>
    refine ⟨hstarts.le.trans (Nat.zero_le 1), hleases.le.trans (Nat.zero_le 1),
      (congrArg List.length hcalls).le.trans (Nat.zero_le 1), ?_⟩
    intro _ _ _ _ _ _
    exact hcalls
  | held i x hworkers hstatus hcalls hstarts hleases hhalts =>
    refine ⟨hstarts.le, hleases.trans x.phase.leases_le_one, hcalls.trans x.phase.calls_le_one, ?_⟩
    intro before r after hevents htype _
    -- A claimed execution has no halt in its stream at all.
    have hpos : 0 < halts w.ledger.events := halts_pos (by rw [hevents]; simp) htype
    exact absurd hhalts hpos.ne'

def racingDeliveries : List Action :=
  [.claim 0 false none 0, .claim 1 false none 0, .admission 0, .prepare 0 [] default .commits,
    .lease 0 (some ⟨"n", "k", 1, "nms", .time 60⟩) .commits, .call 0] ++ dispatchActions 1

theorem at_most_one_dispatch_race : ∃ w₀,
    create default default directProcedure [] default = some w₀ ∧
      let w := Transition.run (step default default) w₀ racingDeliveries
      (w.calls.length = 1 ∧ 0 < countOf .executionStarted w.ledger.events ∧
        0 < countOf .dispatchLeaseIssued w.ledger.events) ∧
      countOf .executionStarted w.ledger.events ≤ 1 ∧
      countOf .dispatchLeaseIssued w.ledger.events ≤ 1 := by
  have hcreate : create default default directProcedure [] default = some _ := rfl
  have hdispatch := at_most_one_dispatch hcreate racingDeliveries
  exact ⟨_, hcreate, by decide +kernel, hdispatch.1, hdispatch.2.1⟩

end NetboxRpc
