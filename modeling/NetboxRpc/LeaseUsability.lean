import NetboxRpc.LeaseStream
import NetboxRpc.LeaseAgreement

/-!
# When a lease stays usable

Over every interleaving of the creator with the worker, `_issuance_event` accepts the lease of a
running execution exactly if `JobEnqueued` came before `ParametersNormalized`, or not yet, and
redaction keeps the configured texts of the lease.
-/

namespace NetboxRpc

def WorkersAt (w : World) (ok : Phase → Prop) : Prop := ∀ i x, w.workers i = some x → ok x.phase

def Phase.isEarly : Phase → Bool
  | .claimed | .admitted => true
  | _ => false

/-- How far an execution without a terminal event is on its way to a lease. -/
inductive LeaseStage (P : Platform) (s : LeaseWorld) : Prop
  | unprepared (hworkers : WorkersAt s.world (· ≠ .prepared))
      (htypes : ∀ e ∈ s.world.ledger.events,
        e.type? ≠ some .parametersNormalized ∧ e.type? ≠ some .dispatchLeaseIssued)
      (hminted : s.minted = none) (hissued : s.issued = none)
  | prepared (before : List EventRecord) (r : EventRecord) (rest : List EventRecord)
      (hworkers : WorkersAt s.world (fun p => p.isEarly = false))
      (hclaimed : ∃ i x, s.world.workers i = some x)
      (hevents : s.world.ledger.events = before ++ r :: rest)
      (hbefore : ∀ e ∈ before,
        e.type? ≠ some .parametersNormalized ∧ e.type? ≠ some .dispatchLeaseIssued)
      (hnormalized : r.type? = some .parametersNormalized)
      (hrest : ∀ e ∈ rest, e.type? = some .jobEnqueued)
      (hminted : ∀ c, s.minted = some c → ∃ read later, rest = read ++ later ∧
        c.streamVersion = (before ++ r :: read).length ∧ Legible P c)
      (hissued : s.issued = none)
  | issued (c : SignedClaims) (before : List EventRecord) (r : EventRecord)
      (read later : List EventRecord) (l : EventRecord) (after : List EventRecord)
      (hworkers : WorkersAt s.world (fun p => p.isEarly = false ∧ p ≠ .prepared))
      (hclaimed : ∃ i x, s.world.workers i = some x)
      (hshape : LeaseShape P s.world.ledger.events c before r read later l after)
      (hissued : s.issued = some c)

structure LeaseInvariant (P : Platform) (s : LeaseWorld) : Prop where
  claims : Claims s.world
  numbered : Numbered s.world.ledger.events
  stage : (∃ e ∈ s.world.ledger.events, e.isTerminal = true) ∨ LeaseStage P s

section

variable {S : Site} {req : ExecutionRequest} {w w' : World} {s s' : LeaseWorld} {p : Procedure}
  {copy : ProjectionState} {es : List DomainEvent} {P : Platform}

theorem WorkersAt.update {ok : Phase → Prop} (h : WorkersAt w ok) {i : ℕ} {y : Worker}
    (hworkers : w'.workers = Function.update w.workers i (some y)) (hy : ok y.phase) :
    WorkersAt w' ok := by
  intro j x hx
  rw [hworkers] at hx
  rcases of_update_eq_some hx with ⟨-, rfl⟩ | ⟨-, hx⟩
  · exact hy
  · exact h j x hx

theorem exists_worker_update {i : ℕ} {y : Worker}
    (hworkers : w'.workers = Function.update w.workers i (some y)) :
    ∃ j x, w'.workers j = some x :=
  ⟨i, y, by rw [hworkers, Function.update_self]⟩

/-- A worker moves on without a write, and not back. -/
theorem LeaseStage.advance (h : LeaseStage P s) {i : ℕ} {x y : Worker}
    (hx : s.world.workers i = some x)
    (hworkers : s'.world.workers = Function.update s.world.workers i (some y))
    (hevents : s'.world.ledger.events = s.world.ledger.events) (hminted : s'.minted = s.minted)
    (hissued : s'.issued = s.issued) (hprepared : y.phase = .prepared → x.phase = .prepared)
    (hearly : y.phase.isEarly = true → x.phase.isEarly = true) : LeaseStage P s' := by
  have hlate : x.phase.isEarly = false → y.phase.isEarly = false := by
    intro hfalse
    by_contra htrue
    rw [hearly (Bool.not_eq_false _ ▸ htrue)] at hfalse
    cases hfalse
  cases h with
  | unprepared hat htypes hm hi =>
    refine .unprepared (hat.update hworkers fun hy => hat i x hx (hprepared hy)) ?_
      (hminted.trans hm) (hissued.trans hi)
    rw [hevents]
    exact htypes
  | prepared before r rest hat hclaimed hev hbefore hr hrest hm hi =>
    refine .prepared before r rest (hat.update hworkers (hlate (hat i x hx)))
      (exists_worker_update hworkers) (hevents.trans hev) hbefore hr hrest ?_ (hissued.trans hi)
    rw [hminted]
    exact hm
  | issued c before r read later l after hat hclaimed hshape hi =>
    refine .issued c before r read later l after (hat.update hworkers ?_)
      (exists_worker_update hworkers) (hevents ▸ hshape) (hissued.trans hi)
    obtain ⟨hfalse, hne⟩ := hat i x hx
    exact ⟨hlate hfalse, fun hy => hne (hprepared hy)⟩

theorem exists_types_append (h : ∀ e ∈ es, e.type ≠ .backendEventRecorded) :
    ∃ added, (w.append S req p copy es).2.events = w.ledger.events ++ added ∧
      added.map EventRecord.type? = es.map (fun e => some e.type) := by
  obtain ⟨added, hevents, hnames⟩ := exists_events_appendAll S.platform (executionContext req p)
    (copy, w.ledger) es
  refine ⟨added, hevents, ?_⟩
  have htypes : added.map EventRecord.type? =
      (added.map EventRecord.event).map EventType.ofName? := by
    rw [List.map_map]
    rfl
  rw [htypes, hnames, List.map_map]
  refine List.map_congr_left fun e he => ?_
  rw [Function.comp_apply, DomainEvent.eventName_of_type (h e he), EventType.ofName?_eventName]

theorem exists_type_append {e : DomainEvent} (h : e.type ≠ .backendEventRecorded) :
    ∃ r, (w.append S req p copy [e]).2.events = w.ledger.events ++ [r] ∧
      r.type? = some e.type := by
  obtain ⟨added, hevents, htypes⟩ := @exists_types_append S req w p copy [e] (by simpa using h)
  obtain ⟨r, rfl⟩ : ∃ r, added = [r] := by
    refine List.length_eq_one_iff.mp ?_
    simpa using congrArg List.length htypes
  exact ⟨r, hevents, by simpa using htypes⟩

/-- The creator's event lands at the end of the stream. -/
theorem LeaseStage.enqueue (h : LeaseStage P s) {j : EventRecord}
    (hj : j.type? = some .jobEnqueued)
    (hevents : s'.world.ledger.events = s.world.ledger.events ++ [j])
    (hworkers : s'.world.workers = s.world.workers) (hminted : s'.minted = s.minted)
    (hissued : s'.issued = s.issued) : LeaseStage P s' := by
  have hat : ∀ ok, WorkersAt s.world ok → WorkersAt s'.world ok := by
    intro ok hok
    unfold WorkersAt
    rw [hworkers]
    exact hok
  have hsome : (∃ i x, s.world.workers i = some x) → ∃ i x, s'.world.workers i = some x := by
    rw [hworkers]
    exact id
  cases h with
  | unprepared hok htypes hm hi =>
    refine .unprepared (hat _ hok) (fun e he => ?_) (hminted.trans hm) (hissued.trans hi)
    rw [hevents] at he
    rcases List.mem_append.mp he with he | he
    · exact htypes e he
    · rw [List.mem_singleton.mp he, hj]
      decide
  | prepared before r rest hok hclaimed hev hbefore hr hrest hm hi =>
    refine .prepared before r (rest ++ [j]) (hat _ hok) (hsome hclaimed)
      (by rw [hevents, hev]; simp) hbefore hr (fun e he => ?_) ?_ (hissued.trans hi)
    · rcases List.mem_append.mp he with he | he
      · exact hrest e he
      · rw [List.mem_singleton.mp he, hj]
    · intro c hc
      obtain ⟨read, later, hsplit, hfacts⟩ := hm c (hminted ▸ hc)
      exact ⟨read, later ++ [j], by rw [hsplit, List.append_assoc], hfacts⟩
  | issued c before r read later l after hok hclaimed hshape hi =>
    refine .issued c before r read later l (after ++ [j]) (hat _ hok) (hsome hclaimed)
      { hshape with events_eq := ?_, enqueued := ?_ } (hissued.trans hi)
    · rw [hevents, hshape.events_eq]
      simp
    · intro e he
      rcases List.mem_append.mp he with he | he
      · exact hshape.enqueued e (List.mem_append_left _ he)
      · rw [← List.append_assoc] at he
        rcases List.mem_append.mp he with he | he
        · exact hshape.enqueued e (List.mem_append_right _ he)
        · rw [List.mem_singleton.mp he, hj]

/-- Before any claim the stage is the first one, and other events keep it. -/
theorem LeaseStage.open (h : LeaseStage P s) (hnone : ∀ i, s.world.workers i = none)
    {added : List EventRecord}
    (hevents : s'.world.ledger.events = s.world.ledger.events ++ added)
    (htypes : ∀ e ∈ added, e.type? ≠ some .parametersNormalized ∧
      e.type? ≠ some .dispatchLeaseIssued)
    (hworkers : WorkersAt s'.world (· ≠ .prepared)) (hminted : s'.minted = s.minted)
    (hissued : s'.issued = s.issued) : LeaseStage P s' := by
  have hfree : ¬ ∃ i x, s.world.workers i = some x := by
    rintro ⟨i, x, hx⟩
    rw [hnone i] at hx
    cases hx
  cases h with
  | unprepared hok hold hm hi =>
    refine .unprepared hworkers (fun e he => ?_) (hminted.trans hm) (hissued.trans hi)
    rw [hevents] at he
    exact (List.mem_append.mp he).elim (hold e) (htypes e)
  | prepared before r rest hok hclaimed => exact absurd hclaimed hfree
  | issued c before r read later l after hok hclaimed => exact absurd hclaimed hfree

theorem mem_append_of_mem {r : EventRecord} (hr : r ∈ w.ledger.events) :
    r ∈ (w.append S req p copy es).2.events := by
  obtain ⟨added, hevents, _⟩ := exists_events_appendAll S.platform (executionContext req p)
    (copy, w.ledger) es
  rw [World.append, hevents]
  exact List.mem_append_left _ hr

/-- A write that ends the execution leaves a terminal event. -/
theorem exists_terminal_append (hwell : ∀ e ∈ es, e.WellNamed) {e : DomainEvent} (he : e ∈ es)
    {t : ExecutionStatus} (hstatus : e.type.status = some t) (hterm : t.isTerminal = true) :
    ∃ r ∈ (w.append S req p copy es).2.events, r.isTerminal = true := by
  have hmem : some t ∈ statuses (w.append S req p copy es).2.events := by
    rw [World.append, statuses_appendAll hwell]
    exact List.mem_append_right _ (List.mem_map.mpr ⟨e, he, hstatus⟩)
  obtain ⟨r, hr, hrstatus⟩ := List.mem_map.mp hmem
  exact ⟨r, hr, by rw [EventRecord.isTerminal, hrstatus]; exact hterm⟩

theorem exists_terminal_append_one {e : DomainEvent} {t : ExecutionStatus}
    (hstatus : e.type.status = some t) (hterm : t.isTerminal = true) :
    ∃ r ∈ (w.append S req p copy [e]).2.events, r.isTerminal = true :=
  exists_terminal_append (by simpa using DomainEvent.wellNamed_of_status hstatus)
    List.mem_cons_self hstatus hterm

/-- A decision or a claim is made before any worker exists. -/
theorem LeaseStage.append_open (h : LeaseStage P s) (hclaims : Claims s.world)
    (hopen : s.world.ledger.row.status.isSettled = false)
    (hes : ∀ e ∈ es, e.type ≠ .backendEventRecorded ∧ e.type ≠ .parametersNormalized ∧
      e.type ≠ .dispatchLeaseIssued)
    (hevents : s'.world.ledger.events = (s.world.append S req p copy es).2.events)
    (hworkers : WorkersAt s'.world (· ≠ .prepared)) (hminted : s'.minted = s.minted)
    (hissued : s'.issued = s.issued) : LeaseStage P s' := by
  obtain ⟨added, hadded, htypes⟩ := @exists_types_append S req s.world p copy es
    fun e he => (hes e he).1
  refine h.open (hclaims.workers_of_open hopen) (hevents.trans hadded) (fun r hr => ?_) hworkers
    hminted hissued
  have hmem : r.type? ∈ es.map (fun e => some e.type) := htypes ▸ List.mem_map_of_mem hr
  obtain ⟨e, he, heq⟩ := List.mem_map.mp hmem
  obtain ⟨_, hne, hne'⟩ := hes e he
  rw [← heq]
  exact ⟨fun h => hne (Option.some.inj h), fun h => hne' (Option.some.inj h)⟩

/-- The worker's normalized parameters reach the stream. -/
theorem LeaseStage.prepare (h : LeaseStage P s) {i : ℕ} {x y : Worker} {params : Entries}
    {hash : String} (hx : s.world.workers i = some x) (hphase : x.phase = .admitted)
    (hworkers : s'.world.workers = Function.update s.world.workers i (some y))
    (hy : y.phase = .prepared)
    (hevents : s'.world.ledger.events =
      (s.world.append S req p copy [.parametersNormalized params hash]).2.events)
    (hclaims : Claims s.world) (hminted : s'.minted = s.minted)
    (hissued : s'.issued = s.issued) : LeaseStage P s' := by
  obtain ⟨r, hr, htype⟩ := @exists_type_append S req s.world p copy
    (.parametersNormalized params hash) (by simp [DomainEvent.type])
  have hlate : ∀ q : Phase, q.isEarly = false → x.phase ≠ q := by
    rintro q hq rfl
    rw [hphase] at hq
    cases hq
  cases h with
  | unprepared hat htypes hm hi =>
    refine .prepared s.world.ledger.events r [] ?_ (exists_worker_update hworkers)
      (hevents.trans hr) htypes htype (by simp) ?_ (hissued.trans hi)
    · intro j z hz
      rw [hworkers] at hz
      rcases of_update_eq_some hz with ⟨-, rfl⟩ | ⟨hij, hz⟩
      · rw [hy]
        rfl
      · exact absurd (hclaims.unique hx hz) hij
    · intro c hc
      rw [hminted, hm] at hc
      cases hc
  | prepared before r rest hat => exact absurd rfl (hlate _ (hat i x hx))
  | issued c before r read later l after hat => exact absurd rfl (hlate _ (hat i x hx).1)

/-- The stage under any step of the lifecycle but the lease itself. -/
theorem LeaseStage.move {a : Action} (h : LeaseStage P s) (hmove : Move S req s.world a w')
    (hclaims : Claims s.world) (hlease : a.isLease = false) :
    (∃ e ∈ w'.ledger.events, e.isTerminal = true) ∨ LeaseStage P { s with world := w' } := by
  have hnone : s.world.ledger.row.status.isSettled = false →
      WorkersAt s.world (· ≠ .prepared) := by
    intro hopen i x hx
    rw [hclaims.workers_of_open hopen i] at hx
    cases hx
  have hframe : w'.ledger = s.world.ledger → w'.workers = s.world.workers →
      LeaseStage P { s with world := w' } := by
    intro hledger hworkers
    cases h with
    | unprepared hat htypes hm hi =>
      refine .unprepared ?_ ?_ hm hi
      · unfold WorkersAt
        rw [hworkers]
        exact hat
      · rw [hledger]
        exact htypes
    | prepared before r rest hat hclaimed hev hbefore hr hrest hm hi =>
      refine .prepared before r rest ?_ ?_ ?_ hbefore hr hrest hm hi
      · unfold WorkersAt
        rw [hworkers]
        exact hat
      · rw [hworkers]
        exact hclaimed
      · rw [hledger]
        exact hev
    | issued c before r read later l after hat hclaimed hshape hi =>
      refine .issued c before r read later l after ?_ ?_ ?_ hi
      · unfold WorkersAt
        rw [hworkers]
        exact hat
      · rw [hworkers]
        exact hclaimed
      · rw [hledger]
        exact hshape
  cases hmove with
  | load | editProcedure | enqueueLost => exact .inr (hframe rfl rfl)
  | cancelled he hopen =>
    exact .inl (exists_terminal_append_one (t := .cancelled) (by rw [he]; rfl) rfl)
  | failedLocked => exact .inl (exists_terminal_append_one (t := .failed) rfl rfl)
  | enqueueRaised => exact .inl (exists_terminal_append_one (t := .failed) rfl rfl)
  | failed => exact .inl (exists_terminal_append_one (t := .failed) rfl rfl)
  | decided hloaded hpending he =>
    have hopen : s.world.ledger.row.status.isSettled = false := by rw [hpending]; rfl
    cases he with
    | approved =>
      exact .inr (h.append_open hclaims hopen (by simp [DomainEvent.type]) rfl (hnone hopen) rfl rfl)
    | rejected => exact .inl (exists_terminal_append_one (t := .rejected) rfl rfl)
    | expired => exact .inl (exists_terminal_append_one (t := .expired) rfl rfl)
  | approvedProtected userId hash at_ reason hpending hs =>
    have hopen : s.world.ledger.row.status.isSettled = false := by rw [hpending]; rfl
    exact .inr (h.append_open hclaims hopen (by simp [DomainEvent.type])
      (congrArg (fun s => s.2.events) hs) (hnone hopen) rfl rfl)
  | @enqueued jobId copy henqueuer =>
    obtain ⟨j, hj, htype⟩ := @exists_type_append S req s.world s.world.procedure copy
      (.jobEnqueued jobId) (by simp [DomainEvent.type])
    exact .inr (h.enqueue htype hj rfl rfl rfl)
  | claimed hfree hqueued hs =>
    have hopen : s.world.ledger.row.status.isSettled = false := by rw [hqueued]; rfl
    refine .inr (h.append_open hclaims hopen (by simp [DomainEvent.type])
      (congrArg (fun s => s.2.events) hs) ((hnone hopen).update rfl ?_) rfl rfl)
    simp
  | advanced hx hadv =>
    refine .inr (h.advance hx rfl rfl rfl rfl ?_ ?_)
    · cases hadv <;> intro hy <;> cases hy
    · cases hadv with
      | admitted hc => intro _; rw [hc]; rfl
      | leased | failing | ended => intro hy; cases hy
  | called hx hphase =>
    refine .inr (h.advance hx rfl rfl rfl rfl ?_ ?_)
    · intro hy; cases hy
    · intro hy; cases hy
  | @worked a i x x' events fate done hx hrunning ha hwork =>
    cases fate with
    | aborts n =>
      refine .inr (h.advance hx rfl rfl rfl rfl ?_ ?_)
      · intro hy; cases hy
      · intro hy; cases hy
    | commits =>
      cases hwork with
      | prepare j raw target fate payload hash hphase =>
        exact .inr (h.prepare hx hphase rfl rfl rfl hclaims rfl rfl)
      | lease => cases hlease
      | record j response fate now events hphase hevents =>
        left
        have hwell := backendResponseEvents_wellNamed hevents
        obtain ⟨progress, last, rfl, _, hlast⟩ := exists_of_backendResponseEvents hevents
        obtain ⟨t, hstatus, hterm⟩ := hlast.status
        exact exists_terminal_append hwell (by simp) hstatus hterm

/-! ### The worker's two steps -/

def isIsoChar (c : Char) : Bool :=
  c.isDigit || c == '-' || c == ':' || c == 'T' || c == '+' || c == '.'

theorem outsideMarker_of_isIsoChar {c : Char} (h : isIsoChar c = true) :
    outsideMarker c = false := by
  simp only [isIsoChar, Bool.or_eq_true, beq_iff_eq] at h
  rcases h with ((((hdigit | rfl) | rfl) | rfl) | rfl) | rfl
  · exact outsideMarker_of_isHexDigit (by rw [isHexDigit, hdigit]; rfl)
  all_goals decide

/-- A minted lease carries the version that was read, and legible texts. -/
theorem legible_of_mint {H : KeyHost} {E : Ed25519} {settings : LeaseSettings}
    {procedure : LeaseProcedure} {execution : LeaseExecution} {streamVersion : ℤ}
    {nonce : TokenHex} {now : DateTime} {lease : SignedDispatchLease}
    (hiso : ∀ t, (S.platform.isoformat t).toList.all isIsoChar = true)
    (h : mintDispatchLease S H E settings procedure execution streamVersion nonce.text now =
      some lease) :
    Legible S.platform lease.claims ∧ lease.claims.streamVersion = streamVersion := by
  simp only [mintDispatchLease, issueDispatchLease, Option.bind_eq_bind, Option.bind_eq_some_iff,
    Option.guard_eq_some', Option.pure_def, Option.some.injEq] at h
  obtain ⟨policy, _, key, _, _, hwell, rfl⟩ := h
  refine ⟨⟨?_, ?_⟩, rfl⟩
  · refine redactEventText_of_unmarked _ (countP_eq_zero_of_all
      (fun _ => outsideMarker_of_isHexDigit) nonce.hex) ?_
    have hlength := nonce.length_eq
    simp only [leaseClaims, hlength]
    decide
  · refine redactEventText_of_unmarked _ (countP_eq_zero_of_all
      (fun _ => outsideMarker_of_isIsoChar) (hiso _)) ?_
    simp only [SignedClaims.wellFormed, decide_eq_true_eq] at hwell
    obtain ⟨_, _, _, _, _, _, _, _, _, _, _, _, _, _, _, _, _, hlength, _⟩ := hwell
    exact hlength.trans (by decide)

theorem Numbered.currentStreamVersion {events : List EventRecord} (h : Numbered events) :
    currentStreamVersion events = events.length := by
  have hnext := h.nextEventSequence
  unfold NetboxRpc.nextEventSequence at hnext
  unfold NetboxRpc.currentStreamVersion
  omega

/-- The worker reads the version while its parameters are normalized. -/
theorem LeaseStage.mint (h : LeaseStage P s) (hnum : Numbered s.world.ledger.events) {i : ℕ}
    {x : Worker} (hx : s.world.workers i = some x) (hphase : x.phase = .prepared)
    {c : SignedClaims} (hlegible : Legible P c)
    (hversion : c.streamVersion = currentStreamVersion s.world.ledger.events) :
    LeaseStage P { s with minted := some c } := by
  cases h with
  | unprepared hat => exact absurd hphase (hat i x hx)
  | issued c before r read later l after hat => exact absurd hphase (hat i x hx).2
  | prepared before r rest hat hclaimed hev hbefore hr hrest hm hi =>
    refine .prepared before r rest hat hclaimed hev hbefore hr hrest (fun d hd => ?_) hi
    cases hd
    refine ⟨rest, [], (List.append_nil rest).symm, ?_, hlegible⟩
    rw [hversion, hnum.currentStreamVersion, hev]

/-- The event of the minted lease reaches the stream, or its transaction aborts. -/
theorem LeaseStage.appendLease (h : LeaseStage S.platform s) (hclaims : Claims s.world) {i : ℕ}
    {x : Worker} (hx : s.world.workers i = some x) (hphase : x.phase = .prepared)
    {c : SignedClaims} (hminted : s.minted = some c) (fate : Fate) :
    LeaseStage S.platform
      { world := s.world.writeWorker S req i x [c.event] fate .leased
        minted := none
        issued := if fate = .commits then some c else s.issued } := by
  cases h with
  | unprepared hat => exact absurd hphase (hat i x hx)
  | issued c before r read later l after hat => exact absurd hphase (hat i x hx).2
  | prepared before r rest hat hclaimed hev hbefore hr hrest hm hi =>
    obtain ⟨read, later, rfl, hversion, hlegible⟩ := hm c hminted
    cases fate with
    | aborts n =>
      refine .prepared before r (read ++ later) (hat.update rfl rfl) (exists_worker_update rfl) hev
        hbefore hr hrest (fun d hd => nomatch hd) ?_
      rw [if_neg (by simp)]
      exact hi
    | commits =>
      have hrecord : (s.world.append S req x.procedure x.copy [c.event]).2.events =
          before ++ r :: (read ++ (later ++ [eventRecord S.platform
            (executionContext req x.procedure) s.world.ledger.events c.event])) := by
        rw [World.append, appendAll_cons, appendAll_nil, events_appendAndProject, hev]
        simp only [List.append_assoc, List.cons_append]
        rfl
      have hshape : LeaseShape S.platform (s.world.append S req x.procedure x.copy
          [c.event]).2.events c before r read later (eventRecord S.platform
            (executionContext req x.procedure) s.world.ledger.events c.event) [] := by
        refine ⟨hrecord, hbefore, hr, ?_, rfl, rfl, hversion, hlegible⟩
        rw [List.append_nil]
        exact hrest
      refine .issued c before r read later _ [] ?_ (exists_worker_update rfl) hshape ?_
      · intro j z hz
        rcases of_update_eq_some hz with ⟨-, rfl⟩ | ⟨hij, hz⟩
        · exact ⟨rfl, by simp⟩
        · exact absurd (hclaims.unique hx hz) hij
      · simp

theorem DomainEvent.Incidental.event (c : SignedClaims) : c.event.Incidental :=
  .of_type (.inr (.inr (.inr (.inr (.inr rfl)))))

/-- The claim is held by the same worker when its lease's event is written. -/
theorem Claims.appendLease (h : Claims w) {i : ℕ} {x : Worker} (hx : w.workers i = some x)
    (hphase : x.phase = .prepared) (c : SignedClaims) (fate : Fate) :
    Claims (w.writeWorker S req i x [c.event] fate .leased) := by
  cases fate with
  | commits =>
    refine h.work hx (by simpa using DomainEvent.Incidental.event c) rfl rfl ?_ ?_
    · rw [hphase]
      exact id
    · rw [hphase]
      exact Nat.le_refl 1
  | aborts n =>
    refine h.advance hx rfl rfl ?_ ?_
    · exact fun hle => hle.trans x.phase.calls_le_one
    · exact x.phase.leases_le_one

/-- Every step keeps the invariant. -/
theorem LeaseInvariant.step {H : KeyHost} {E : Ed25519} {settings : LeaseSettings}
    {a : LeaseAction} (hiso : ∀ t, (S.platform.isoformat t).toList.all isIsoChar = true)
    (hstep : leaseStep S H E settings req s a = some s') (h : LeaseInvariant S.platform s) :
    LeaseInvariant S.platform s' := by
  cases a with
  | other a =>
    simp only [leaseStep, Option.bind_eq_bind, Option.bind_eq_some_iff, Option.guard_eq_some',
      Option.pure_def, Option.some.injEq] at hstep
    obtain ⟨_, ⟨hlease, _⟩, w', hw, rfl⟩ := hstep
    have hmove := Move.of_step hw
    refine ⟨h.claims.move hmove, hmove.numbered h.numbered, ?_⟩
    rcases h.stage with ⟨e, he, hterm⟩ | hstage
    · obtain ⟨p, copy, es, hevents⟩ := hmove.exists_append
      exact .inl ⟨e, by rw [hevents]; exact mem_append_of_mem he, hterm⟩
    · exact hstage.move hmove h.claims hlease
  | mint i procedure execution nonce now =>
    simp only [leaseStep, Option.bind_eq_bind, Option.bind_eq_some_iff, Option.guard_eq_some',
      Option.pure_def, Option.some.injEq] at hstep
    obtain ⟨x, hx, _, ⟨hphase, _⟩, lease, hlease, rfl⟩ := hstep
    obtain ⟨hlegible, hversion⟩ := legible_of_mint hiso hlease
    refine ⟨h.claims, h.numbered, h.stage.imp id fun hstage => ?_⟩
    exact hstage.mint h.numbered hx hphase hlegible hversion
  | appendLease i fate =>
    simp only [leaseStep, Option.bind_eq_bind, Option.bind_eq_some_iff, Option.guard_eq_some',
      Option.pure_def, Option.some.injEq] at hstep
    obtain ⟨x, hx, c, hc, _, ⟨hphase, _⟩, rfl⟩ := hstep
    refine ⟨h.claims.appendLease hx hphase c fate, ?_, ?_⟩
    · cases fate with
      | commits => exact Numbered.appendAll (s := (x.copy, s.world.ledger)) h.numbered [c.event]
      | aborts n => exact h.numbered
    · rcases h.stage with ⟨e, he, hterm⟩ | hstage
      · refine .inl ⟨e, ?_, hterm⟩
        cases fate with
        | commits => exact mem_append_of_mem he
        | aborts n => exact he
      · exact .inr (hstage.appendLease h.claims hx hphase hc fate)

theorem LeaseInvariant.of_created {normalized : Entries} {target : BackendTarget}
    (h : Created S req p normalized target w) : LeaseInvariant P ⟨w, none, none⟩ := by
  have hfresh : LeaseStage P ⟨World.fresh p, none, none⟩ :=
    .unprepared (fun _ _ hx => by cases hx) (fun _ he => by cases he) rfl rfl
  refine ⟨.of_created h, .of_created h, .inr ?_⟩
  cases h with
  | approval =>
    exact hfresh.append_open (Claims.fresh p) rfl (by simp [DomainEvent.type]) rfl
      (fun _ _ hx => by cases hx) rfl rfl
  | direct hopen hs =>
    exact hfresh.append_open (Claims.fresh p) rfl (by simp [DomainEvent.type])
      (congrArg (fun s => s.2.events) hs) (fun _ _ hx => by cases hx) rfl rfl

end

/-- Over every interleaving, the lease of an execution without a terminal event is accepted exactly
if the creator's event is not after the normalized parameters and redaction keeps the names that
the settings give. -/
theorem issued_lease_accepted_iff {S : Site} {H : KeyHost} {E : Ed25519} {settings : LeaseSettings}
    {req : ExecutionRequest} {p : Procedure} {normalized : Entries} {target : BackendTarget}
    {w₀ : World} (hiso : ∀ t, (S.platform.isoformat t).toList.all isIsoChar = true)
    (hcreate : create S req p normalized target = some w₀) (actions : List LeaseAction)
    {c : SignedClaims}
    (hissued : (Transition.run (leaseStep S H E settings req) ⟨w₀, none, none⟩ actions).issued =
      some c)
    (hopen : ∀ e ∈ (Transition.run (leaseStep S H E settings req) ⟨w₀, none, none⟩
      actions).world.ledger.events, e.isTerminal = false) :
    let events := (Transition.run (leaseStep S H E settings req) ⟨w₀, none, none⟩
      actions).world.ledger.events
    (issuanceEvent events c).isSome = true ↔ EnqueuedFirst events ∧ c.namesKept S.platform := by
  have hinv : LeaseInvariant S.platform
      (Transition.run (leaseStep S H E settings req) ⟨w₀, none, none⟩ actions) :=
    Transition.run_invariant (fun _ _ _ hstep h => h.step hiso hstep) actions
      (.of_created (.of_create hcreate))
  generalize Transition.run (leaseStep S H E settings req) ⟨w₀, none, none⟩ actions = s at *
  intro events
  rcases hinv.stage with ⟨e, he, hterm⟩ | hstage
  · rw [hopen e he] at hterm
    cases hterm
  · cases hstage with
    | unprepared hat htypes hm hi =>
      rw [hi] at hissued
      cases hissued
    | prepared before r rest hat hclaimed hev hbefore hr hrest hm hi =>
      rw [hi] at hissued
      cases hissued
    | issued d before r read later l after hat hclaimed hshape hi =>
      rw [hi] at hissued
      cases hissued
      rw [hshape.accepted_iff hinv.numbered, hshape.enqueuedFirst_iff hinv.numbered]
      exact and_comm

/-! ### The creator is late -/

def zeroNonce : TokenHex where
  text := String.ofList (List.replicate 32 '0')
  length_eq := by rw [String.length_ofList, List.length_replicate]
  hex := by rw [String.toList_ofList]; decide

theorem isoformat_decimalSite (t : DateTime) :
    (decimalSite.platform.isoformat t).toList.all isIsoChar = true := by
  have htext : (decimalSite.platform.isoformat t).toList =
      (if t < 0 then '-' else '+') :: Nat.toDigits 10 t.natAbs := String.toList_ofList
  rw [htext, List.all_cons, Bool.and_eq_true, List.all_eq_true]
  constructor
  · split_ifs <;> decide
  · intro c hc
    rw [isIsoChar, Nat.isDigit_of_mem_toDigits (by decide) (by decide) hc]
    rfl

def issueActions : List LeaseAction :=
  [.other (.claim 0 false none 0), .other (.admission 0),
    .other (.prepare 0 leasedExecution.normalizedParams default .commits),
    .mint 0 (leasedProcedure 1) leasedExecution zeroNonce 0, .appendLease 0 .commits]

def lateActions : List LeaseAction := issueActions ++ [.other (.enqueued (.int 7))]

def leaseRun (w₀ : World) : LeaseWorld :=
  Transition.run (leaseStep decimalSite toyHost toyEd25519 oneKeySettings leasedExecution.req)
    ⟨w₀, none, none⟩ lateActions

theorem leaseRun_facts :
    (create decimalSite leasedExecution.req directProcedure [] default).map (fun w₀ =>
      ((leaseRun w₀).world.ledger.row.status, (leaseRun w₀).issued.map fun c =>
        (issuanceEvent (leaseRun w₀).world.ledger.events c).isSome,
        (leaseRun w₀).world.ledger.events.all fun e => !e.isTerminal)) =
      some (.running, some false, true) := by
  decide +kernel

theorem issued_lease_accepted_iff_late : ∃ w₀ c,
    create decimalSite leasedExecution.req directProcedure [] default = some w₀ ∧
      (leaseRun w₀).issued = some c ∧
      ((issuanceEvent (leaseRun w₀).world.ledger.events c).isSome = true ↔
        EnqueuedFirst (leaseRun w₀).world.ledger.events ∧ c.namesKept decimalSite.platform) := by
  obtain ⟨w₀, hcreate, hfacts⟩ := Option.map_eq_some_iff.mp leaseRun_facts
  simp only [Prod.mk.injEq, Option.map_eq_some_iff, List.all_eq_true, Bool.not_eq_true'] at hfacts
  obtain ⟨_, ⟨c, hc, _⟩, hopen⟩ := hfacts
  exact ⟨w₀, c, hcreate, hc, issued_lease_accepted_iff isoformat_decimalSite hcreate lateActions hc
    hopen⟩

/-- The lease of the running execution is refused. -/
theorem late_job_enqueued_refuses_lease : ∃ w₀ c,
    create decimalSite leasedExecution.req directProcedure [] default = some w₀ ∧
      (leaseRun w₀).world.ledger.row.status = .running ∧ (leaseRun w₀).issued = some c ∧
      (∀ e ∈ (leaseRun w₀).world.ledger.events, e.isTerminal = false) ∧
      (issuanceEvent (leaseRun w₀).world.ledger.events c).isSome = false := by
  obtain ⟨w₀, hcreate, hfacts⟩ := Option.map_eq_some_iff.mp leaseRun_facts
  simp only [Prod.mk.injEq, Option.map_eq_some_iff, List.all_eq_true, Bool.not_eq_true'] at hfacts
  obtain ⟨hstatus, ⟨c, hc, hrefused⟩, hopen⟩ := hfacts
  exact ⟨w₀, c, hcreate, hstatus, hc, hopen, hrefused⟩

end NetboxRpc
