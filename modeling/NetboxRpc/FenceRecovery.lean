import NetboxRpc.RunnerRuns

/-!
# Recovery of a fenced scope

A `reconcile` run is the only way out of a fenced scope. It is admitted exactly when no earlier
reconciliation still owns the fence, the execution of a blocked fence has ended, and the keys and
generations are not exhausted. An admitted run that gets a valid successful response clears the
fence. A reconciliation that dies after its reservation owns the fence for good.
-/

namespace NetboxRpc

open JsonSchema

/-! ## What a successful reconciliation proves -/

theorem eq_str_of_pyEq {v : Json} {s : String} (h : v.PyEq (.str s)) : v = .str s := by
  cases v with
  | str t => rw [Json.pyEq_str h]
  | null | int n | float q | bool b | arr items | obj entries =>
    simp only [Json.PyEq, Json.canon, Json.normalize, Json.numeric] at h
    try split_ifs at h
    all_goals cases h

theorem equal_of_valid_constant {search : String → String → Bool} {fuel : ℕ} {c v : Json}
    (h : valid search fuel (Schema.constant c) v = true) : equal c v = true := by
  cases fuel with
  | zero => cases h
  | succ fuel => exact @keyword_of_valid search fuel _ _ h "const" c (by simp)

theorem equal_of_alternative {search : String → String → Bool} {fuel : ℕ}
    {props entries : List (String × Json)} {name : String} {c v : Json}
    (h : valid search fuel (Schema.alternative props) (.obj entries) = true)
    (hc : (name, Schema.constant c) ∈ props) (hv : Json.find entries name = some v) :
    equal c v = true := by
  cases fuel with
  | zero => cases h
  | succ fuel => exact equal_of_valid_constant (valid_property h (by simp) hc hv)

theorem exists_of_oneOf {search : String → String → Bool} {fuel : ℕ} {schema : List (String × Json)}
    {alternatives : List Json} {inst : Json} (h : valid search fuel (.obj schema) inst = true)
    (hmem : ("oneOf", .arr alternatives) ∈ schema) :
    ∃ fuel', ∃ s ∈ alternatives, valid search fuel' s inst = true := by
  cases fuel with
  | zero => cases h
  | succ fuel =>
    have hkey : (alternatives.countP (fun s => valid search fuel s inst) == 1) = true :=
      @keyword_of_valid search fuel _ _ h "oneOf" _ hmem
    have hpos : 0 < alternatives.countP (fun s => valid search fuel s inst) := by
      rw [beq_iff_eq] at hkey
      omega
    obtain ⟨s, hs, hvalid⟩ := List.countP_pos_iff.mp hpos
    exact ⟨fuel, s, hs, hvalid⟩

/-- The alternative of a successful reconciliation fixes the two token flags. -/
theorem resetProven_of_reconciled {P : Platform}
    (hP : P.Implements RunnerContract.giteaRunner.resultSchema) {result : Entries}
    (hvalid : P.schemaError RunnerContract.giteaRunner.resultSchema (.obj result) = none)
    (hok : Json.find result "ok" = some (.bool true))
    (hop : Json.find result "operation" = some (.str "reconcile")) : resetProven result = true := by
  have hschema := (hP _).mp hvalid
  rw [validates] at hschema
  generalize depth RunnerContract.giteaRunner.resultSchema = fuel at hschema
  have hpresent : ∀ name ∈ GiteaRunner.resultNames, ∃ v, Json.find result name = some v := by
    intro name hname
    cases fuel with
    | zero => cases hschema
    | succ fuel =>
      refine find_of_required hschema (List.mem_of_getElem? (i := 2) rfl) ?_
      simpa [strings, Schema.texts, List.filterMap_map] using hname
  obtain ⟨invalidated, hinvalidated⟩ := hpresent "token_invalidated" (by decide)
  obtain ⟨required, hrequired⟩ := hpresent "token_reset_required" (by decide)
  obtain ⟨fuel', s, hs, halternative⟩ := exists_of_oneOf hschema (List.mem_of_getElem? (i := 4) rfl)
  have hfalse : equal (.bool false) (.bool true) ≠ true := by decide
  have hregister : equal (.str "register") (.str "reconcile") ≠ true := by decide
  simp only [GiteaRunner.resultAlternatives, List.mem_cons, List.not_mem_nil, or_false] at hs
  rcases hs with rfl | rfl | rfl | rfl | rfl | rfl
  · exact absurd (equal_of_alternative halternative (List.mem_of_getElem? (i := 1) rfl) hop) hregister
  · exact absurd (equal_of_alternative halternative (List.mem_of_getElem? (i := 0) rfl) hok) hfalse
  · exact absurd (equal_of_alternative halternative (List.mem_of_getElem? (i := 0) rfl) hok) hfalse
  · exact absurd (equal_of_alternative halternative (List.mem_of_getElem? (i := 0) rfl) hok) hfalse
  · have h₁ := eq_of_equal_bool
      (equal_of_alternative halternative (List.mem_of_getElem? (i := 4) rfl) hinvalidated)
    have h₂ := eq_of_equal_bool
      (equal_of_alternative halternative (List.mem_of_getElem? (i := 5) rfl) hrequired)
    rw [h₁] at hinvalidated
    rw [h₂] at hrequired
    simp [resetProven, valueOf, hinvalidated, hrequired]
  · exact absurd (equal_of_alternative halternative (List.mem_of_getElem? (i := 0) rfl) hok) hfalse

/-- The reset state of a valid result fits its column. -/
theorem resetState_fits {P : Platform} (hP : P.Implements RunnerContract.giteaRunner.resultSchema)
    {result : Entries}
    (hvalid : P.schemaError RunnerContract.giteaRunner.resultSchema (.obj result) = none) :
    (textOr P result "reset_state" "").length ≤ 64 := by
  have hshort : ∀ s ∈ resetStates, s.length ≤ 64 := by decide
  cases hfind : Json.find result "reset_state" with
  | none => simp [textOr, hfind]
  | some v =>
    have hproperty := valid_property ((hP _).mp hvalid)
      (List.mem_of_getElem? (i := 3) rfl : ("properties", Json.obj GiteaRunner.resultProperties) ∈ _)
      (List.mem_of_getElem? (i := 12) rfl :
        ("reset_state", Schema.textChoice resetStates) ∈ GiteaRunner.resultProperties) hfind
    obtain ⟨s, hs, rfl⟩ := mem_of_valid_choice hproperty
    rw [textOr_of_find hfind]
    exact hshort s hs

/-! ## One more run -/

section

variable (P : Platform)

def RunnerWorld.claimedRun (w : RunnerWorld) (e : StoredExecution) : RunnerWorld :=
  RunnerWorld.claim P { w with
    site := w.site.setExecution (w.created + 1) e, created := w.created + 1 } (w.created + 1) e

def RunnerWorld.prepareRun (w : RunnerWorld) (e : StoredExecution)
    (facts : Except RPCExecutionError RunnerFacts) : RunnerWorld :=
  Transition.run (RunnerWorld.step P) w
    [.request e, .claim (w.created + 1), .work (w.created + 1) (.prepare facts)]

def RunnerWorld.reserveRun (w : RunnerWorld) (e : StoredExecution)
    (facts : Except RPCExecutionError RunnerFacts) : RunnerWorld :=
  Transition.next (RunnerWorld.step P) (w.prepareRun P e facts) (.work (w.created + 1) .reserve)

end

structure RunnerWorld.Frames (w w' : RunnerWorld) : Prop where
  fences : w'.site.fences = w.site.fences
  executions : ∀ {pk}, pk ≠ w.created + 1 → w'.site.executions pk = w.site.executions pk
  workers : ∀ {pk}, pk ≠ w.created + 1 → w'.workers pk = w.workers pk
  created : w'.created = w.created + 1
  now : w'.now = w.now

section

variable {P : Platform} {w : RunnerWorld} {e : StoredExecution} {r : RegistrationRequest}
  {fence : ScopeFence}

theorem RunnerWorld.Sound.fresh (h : w.Sound) :
    w.site.executions (w.created + 1) = none ∧ w.workers (w.created + 1) = none := by
  have hkey : w.site.executions (w.created + 1) = none := by
    by_contra hne
    have := h.keys hne
    omega
  refine ⟨hkey, ?_⟩
  cases hx : w.workers (w.created + 1) with
  | none => rfl
  | some x =>
    obtain ⟨d, hd, -⟩ := (h.workers hx).1
    rw [hkey] at hd
    cases hd

theorem run_request_claim (h : w.Sound) (he : e.isRunnerRequest = true) :
    Transition.run (RunnerWorld.step P) w [.request e, .claim (w.created + 1)] =
      w.claimedRun P e := by
  have hrequest : w.step P (.request e) = some { w with
      site := w.site.setExecution (w.created + 1) e, created := w.created + 1 } := if_pos he
  have hclaim : RunnerWorld.step P { w with
      site := w.site.setExecution (w.created + 1) e, created := w.created + 1 }
      (.claim (w.created + 1)) = some (w.claimedRun P e) := by
    simp [RunnerWorld.step, h.fresh.2, he, RunnerWorld.claimedRun]
  rw [Transition.run_cons, Transition.run_cons, Transition.run_nil,
    Transition.next_of_step hrequest, Transition.next_of_step hclaim]

theorem frames_claimedRun (P : Platform) (w : RunnerWorld) (e : StoredExecution) :
    w.Frames (w.claimedRun P e) := by
  refine ⟨rfl, fun hpk => ?_, fun hpk => workers_setWorker_ne _ _ hpk, rfl, rfl⟩
  exact (executions_setExecution_ne _ hpk).trans (executions_setExecution_ne e hpk)

theorem worker_claimedRun (P : Platform) (w : RunnerWorld) (e : StoredExecution) :
    ∃ x d, (w.claimedRun P e).workers (w.created + 1) = some x ∧ x.phase = .claimed ∧
      x.context = e.context ∧ x.copy.status = .running ∧
      (w.claimedRun P e).site.executions (w.created + 1) = some d := by
  refine ⟨_, _, workers_setWorker_self _ _ _, rfl, rfl, ?_, executions_setExecution_self _ _ _⟩
  exact status_appendAndProject_copy P e.context e.ledger.row e.ledger _

structure RunnerWorld.Prepared (P : Platform) (w w' : RunnerWorld) (e : StoredExecution)
    (r : RegistrationRequest) (fence : ScopeFence) (x : RunWorker) : Prop where
  frames : w.Frames w'
  worker : w'.workers (w.created + 1) = some x
  phase : x.phase = .prepared
  context : x.context = e.context
  running : x.copy.status = .running
  binds : Binds P r fence x.normalized
  stored : ∃ d, w'.site.executions (w.created + 1) = some d

theorem prepareRun_eq (h : w.Sound) (he : e.isRunnerRequest = true)
    (facts : Except RPCExecutionError RunnerFacts) :
    w.prepareRun P e facts = Transition.next (RunnerWorld.step P) (w.claimedRun P e)
      (.work (w.created + 1) (.prepare facts)) := by
  rw [← run_request_claim h he]
  rfl

/-- The normalizer reads the fences as they were, and the executions except the new one. -/
theorem normalize_claimedRun {facts : Except RPCExecutionError RunnerFacts} {raw : Entries} :
    normalizeGiteaRunnerRegistrationExecution (w.claimedRun P e).now (w.claimedRun P e).site
        e.context.params facts = .ok raw ↔
      ∃ r fence f, registrationRequest e.context.params = .ok r ∧
        w.site.fences r.canonicalScope = some fence ∧
        fence.registrationRefusal (w.claimedRun P e).site.executions w.now r.operation = none ∧
        facts = .ok f ∧ f.principalError = none ∧ raw = normalizedRegistration f r fence :=
  normalize_iff

theorem prepared_of_admitted (h : w.Sound) (he : e.isRunnerRequest = true)
    (hr : registrationRequest e.context.params = .ok r)
    (hfence : w.site.fences r.canonicalScope = some fence)
    (hrefusal : fence.registrationRefusal (w.claimedRun P e).site.executions w.now r.operation = none)
    {f : RunnerFacts} (hf : f.principalError = none) :
    ∃ x, w.Prepared P (w.prepareRun P e (.ok f)) e r fence x := by
  obtain ⟨y, d, hy, hphase, hcontext, hrunning, hd⟩ := worker_claimedRun P w e
  have hframes := frames_claimedRun P w e
  have hraw : normalizeGiteaRunnerRegistrationExecution (w.claimedRun P e).now (w.claimedRun P e).site
      y.context.params (.ok f) = .ok (normalizedRegistration f r fence) := by
    rw [hcontext]
    exact normalize_claimedRun.mpr ⟨r, fence, f, hr, hfence, hrefusal, rfl, hf, rfl⟩
  have hbinds := binds_ledger P f (reviewed_of_request hr) (h.site.digests hfence)
  generalize normalizedRegistration f r fence = raw at hraw hbinds
  have hstep : (w.claimedRun P e).step P (.work (w.created + 1) (.prepare (.ok f))) =
      some ((w.claimedRun P e).normalize P (w.created + 1) y d raw) := by
    simp [RunnerWorld.step, RunnerWorld.workerStep, hy, hphase, hd, hraw]
  rw [prepareRun_eq h he, Transition.next_of_step hstep]
  unfold RunnerWorld.normalize
  generalize ledgerNormalizedParams P raw = normalized at hbinds
  refine ⟨_, ⟨hframes.fences, fun hpk => ?_, fun hpk => ?_, hframes.created, hframes.now⟩,
    workers_setWorker_self _ _ _, rfl, hcontext, ?_, hbinds, _, executions_setExecution_self _ _ _⟩
  · exact (executions_setExecution_ne _ hpk).trans (hframes.executions hpk)
  · exact (workers_setWorker_ne _ _ hpk).trans (hframes.workers hpk)
  · exact (status_appendAndProject_copy P y.context y.copy d.ledger _).trans hrunning

structure RunnerWorld.ReservedRun (P : Platform) (w w' : RunnerWorld) (e : StoredExecution)
    (r : RegistrationRequest) (fence row : ScopeFence) (x : RunWorker) : Prop where
  workers : ∀ {pk}, pk ≠ w.created + 1 → w'.workers pk = w.workers pk
  created : w'.created = w.created + 1
  now : w'.now = w.now
  worker : w'.workers (w.created + 1) = some x
  phase : x.phase = .reserved
  context : x.context = e.context
  running : x.copy.status = .running
  binds : Binds P r fence x.normalized
  stored : ∃ d, w'.site.executions (w.created + 1) = some d
  row : w'.site.fences r.canonicalScope = some row

theorem Binds.operation_call {x : RunWorker} (h : Binds P r fence x.normalized) (pk : ℕ) :
    (x.call pk).operation P = r.operation := textOr_of_find h.operation

theorem Binds.canonicalScope_call {x : RunWorker} (h : Binds P r fence x.normalized) (pk : ℕ) :
    (x.call pk).canonicalScope P = r.canonicalScope := textOr_of_find h.canonicalScope

theorem contract_of_request {x : RunWorker} (he : e.isRunnerRequest = true)
    (hcontext : x.context = e.context) (pk : ℕ) : (x.call pk).contract = .giteaRunner := by
  simp only [StoredExecution.isRunnerRequest, Bool.and_eq_true, beq_iff_eq] at he
  rw [RunnerCall.contract, RunWorker.call, hcontext, he.2]
  rfl

/-- A prepared run whose reservation commits. -/
theorem reservedRun_of_reserve {f : RunnerFacts} {x : RunWorker} {site : RunnerSite}
    {row : ScopeFence} (hx : w.Prepared P (w.prepareRun P e (.ok f)) e r fence x)
    (hcommit : reserveGiteaRunnerScope P w.now (w.prepareRun P e (.ok f)).site
      (x.call (w.created + 1)) = .ok site)
    (hrow : site.fences r.canonicalScope = some row)
    (hstored : ∃ d, site.executions (w.created + 1) = some d) :
    w.ReservedRun P (w.reserveRun P e (.ok f)) e r fence row { x with phase := .reserved } := by
  have hstep : (w.prepareRun P e (.ok f)).step P (.work (w.created + 1) .reserve) =
      some ({ (w.prepareRun P e (.ok f)) with site }.setWorker (w.created + 1)
        { x with phase := .reserved }) := by
    rw [← hx.frames.now] at hcommit
    simp [RunnerWorld.step, RunnerWorld.workerStep, hx.worker, hx.phase, hcommit]
  rw [RunnerWorld.reserveRun, Transition.next_of_step hstep]
  refine ⟨fun hpk => ?_, hx.frames.created, hx.frames.now, workers_setWorker_self _ _ _, rfl,
    hx.context, hx.running, hx.binds, hstored, hrow⟩
  exact (workers_setWorker_ne _ _ hpk).trans (hx.frames.workers hpk)

/-- A registration reserves a clear fence. -/
theorem reserveRun_register (h : w.Sound) (he : e.isRunnerRequest = true)
    (hr : registrationRequest e.context.params = .ok r) (hop : r.operation = "register")
    (hfence : w.site.fences r.canonicalScope = some fence)
    (hgeneration : fence.takeoverGeneration < jsSafeIntegerMax) (hstate : fence.state = .clear)
    (hblocking : fence.blockingExecutionId = none)
    (hreconciliation : fence.reconciliationExecutionId = none) {f : RunnerFacts}
    (hf : f.principalError = none) :
    ∃ x, w.ReservedRun P (w.reserveRun P e (.ok f)) e r fence
      (fence.acquire (w.created + 1) (fence.takeoverGeneration + 1) w.now) x := by
  have hrefusal : fence.registrationRefusal (w.claimedRun P e).site.executions w.now r.operation =
      none := by
    rw [hop]
    exact registrationRefusal_register hgeneration hstate hblocking hreconciliation
  obtain ⟨x, hx⟩ := prepared_of_admitted h he hr hfence hrefusal hf
  have hscope := hx.binds.canonicalScope_call (w.created + 1)
  have hrow : (w.prepareRun P e (.ok f)).site.fences ((x.call (w.created + 1)).canonicalScope P) =
      some fence := by
    rw [hscope, hx.frames.fences]
    exact hfence
  have hstart : (x.call (w.created + 1)).operation P =
      (x.call (w.created + 1)).contract.startOperation := by
    rw [hx.binds.operation_call, hop, contract_of_request he hx.context]
    rfl
  have hreserved : reserveGiteaRunnerScope P w.now (w.prepareRun P e (.ok f)).site
      (x.call (w.created + 1)) = .ok _ :=
    (Reserved.started hrow (hx.binds.approvedGeneration hgeneration) hstart hstate hblocking).reserve
  refine ⟨_, reservedRun_of_reserve hx hreserved ?_ hx.stored⟩
  rw [hscope]
  exact fences_setFence_self _ _ _

/-! ## Which fences a reconciliation can take over -/

/-- No reconciliation owns the fence, the execution of a blocked fence has ended, and neither its
key nor the generation is exhausted. -/
structure ScopeFence.Recoverable (fence : ScopeFence) (executions : ℕ → Option StoredExecution) :
    Prop where
  unowned : fence.reconciliationExecutionId = none
  ended : fence.state = .blocked → ∀ pk e, fence.blockingExecutionId = some pk →
    executions pk = some e → e.status.isTerminal = true
  generation : fence.takeoverGeneration < jsSafeIntegerMax
  key : ∀ pk, fence.blockingExecutionId = some pk → pk ≤ jsSafeIntegerMax

/-- A fence that is not clear names the claimed execution that it waits for. -/
theorem RunnerSite.Sound.owner {site : RunnerSite} (h : site.Sound) {scope : String}
    (hscope : scope ∈ canonicalScopes) (hfence : site.fences scope = some fence)
    (hheld : fence.state ≠ .clear) :
    ∃ pk d, fence.blockingExecutionId = some pk ∧ site.executions pk = some d ∧
      d.status.isClaimed = true := by
  obtain ⟨reservations, hfenced⟩ := h.fenced
  obtain ⟨f, hf, hsound⟩ := hfenced scope hscope
  obtain ⟨row, hrow, hrepresents⟩ := hf.row
  have hsame : some row = some fence := hrow.symm.trans hfence
  cases hsame
  have hblocking : fence.blockingExecutionId ≠ none := fun hnone =>
    hheld ((hrepresents.safe hsound).clear_iff.mpr hnone)
  obtain ⟨pk, hpk⟩ := Option.ne_none_iff_exists'.mp hblocking
  obtain ⟨d, hd, hclaimed⟩ := h.owners hfence hpk
  exact ⟨pk, d, hpk, hd, hclaimed⟩

theorem executions_claimedRun_owner (h : w.Sound) {pk : ℕ} {d : StoredExecution}
    (hd : w.site.executions pk = some d) : (w.claimedRun P e).site.executions pk = some d := by
  have hle : pk ≤ w.created := h.keys (by rw [hd]; exact Option.some_ne_none d)
  rw [(frames_claimedRun P w e).executions (by omega), hd]

/-- The safety window has passed and the owner cannot act any more. -/
theorem isQuiescent_iff {executions : ℕ → Option StoredExecution} {now : DateTime} {pk : ℕ}
    {d : StoredExecution} (hpk : fence.blockingExecutionId = some pk) (hd : executions pk = some d)
    (hclaimed : d.status.isClaimed = true) (hheld : fence.state ≠ .clear)
    (helapsed : fence.lastUpdated ≤ now - quiescenceDelay) :
    fence.isQuiescent executions now = true ↔ (fence.state = .blocked → d.status.isTerminal = true) := by
  simp only [ScopeFence.isQuiescent, hpk, Option.bind_some, hd, helapsed, decide_true, Bool.and_true,
    Bool.or_eq_true, Bool.and_eq_true, beq_iff_eq]
  simp only [ExecutionStatus.isClaimed, Bool.or_eq_true, beq_iff_eq] at hclaimed
  cases hstate : fence.state with
  | clear => exact absurd hstate hheld
  | pending => simpa [or_comm] using hclaimed
  | blocked => simp

theorem admitted_iff_recoverable (h : w.Sound) {scope : String} (hscope : scope ∈ canonicalScopes)
    (hfence : w.site.fences scope = some fence) (hheld : fence.state ≠ .clear)
    (helapsed : fence.lastUpdated ≤ w.now - quiescenceDelay) :
    fence.registrationRefusal (w.claimedRun P e).site.executions w.now "reconcile" = none ↔
      fence.Recoverable w.site.executions := by
  obtain ⟨pk, d, hpk, hd, hclaimed⟩ := h.site.owner hscope hfence hheld
  rw [registrationRefusal_reconcile,
    isQuiescent_iff hpk (executions_claimedRun_owner h hd) hclaimed hheld helapsed]
  constructor
  · rintro ⟨hgeneration, -, ⟨pk', hpk', hle⟩, hunowned, hended⟩
    rw [hpk] at hpk'
    cases hpk'
    refine ⟨hunowned, fun hblocked other d' hother hd' => ?_, hgeneration, fun other hother => ?_⟩
    · rw [hpk] at hother
      cases hother
      rw [hd] at hd'
      cases hd'
      exact hended hblocked
    · rw [hpk] at hother
      cases hother
      exact hle
  · intro hrec
    exact ⟨hrec.generation, hheld, ⟨pk, hpk, hrec.key pk hpk⟩, hrec.unowned,
      fun hblocked => hrec.ended hblocked pk d hpk hd⟩

theorem failLostWorker_of_claimed (now : DateTime) {site : RunnerSite} {pk : ℕ} {d : StoredExecution}
    (hd : site.executions pk = some d) (hclaimed : d.status.isClaimed = true) :
    ∃ after, failLostWorker P now site (some pk) = .ok after := by
  simp only [failLostWorker, hd]
  split_ifs with hrunning hterminal
  · exact ⟨_, rfl⟩
  · exact ⟨_, rfl⟩
  · simp [ExecutionStatus.isClaimed, hrunning, hterminal] at hclaimed

/-- A reconciliation takes over every recoverable fence. -/
theorem reserveRun_reconcile (h : w.Sound) (he : e.isRunnerRequest = true)
    (hr : registrationRequest e.context.params = .ok r) (hop : r.operation = "reconcile")
    (hscope : r.canonicalScope ∈ canonicalScopes)
    (hfence : w.site.fences r.canonicalScope = some fence) (hheld : fence.state ≠ .clear)
    (helapsed : fence.lastUpdated ≤ w.now - quiescenceDelay)
    (hrec : fence.Recoverable w.site.executions) {f : RunnerFacts} (hf : f.principalError = none) :
    ∃ x, w.ReservedRun P (w.reserveRun P e (.ok f)) e r fence
      (fence.takeOver (w.created + 1) (fence.takeoverGeneration + 1) w.now) x := by
  obtain ⟨pk, d, hpk, hd, hclaimed⟩ := h.site.owner hscope hfence hheld
  have hrefusal : fence.registrationRefusal (w.claimedRun P e).site.executions w.now r.operation =
      none := by
    rw [hop]
    exact (admitted_iff_recoverable h hscope hfence hheld helapsed).mpr hrec
  obtain ⟨x, hx⟩ := prepared_of_admitted h he hr hfence hrefusal hf
  have hcanonical := hx.binds.canonicalScope_call (w.created + 1)
  have hle : pk ≤ w.created := h.keys (by rw [hd]; exact Option.some_ne_none d)
  have hd' : (w.prepareRun P e (.ok f)).site.executions pk = some d := by
    rw [hx.frames.executions (by omega), hd]
  have hrow : (w.prepareRun P e (.ok f)).site.fences ((x.call (w.created + 1)).canonicalScope P) =
      some fence := by
    rw [hcanonical, hx.frames.fences]
    exact hfence
  have hquiescent : fence.isQuiescent (w.prepareRun P e (.ok f)).site.executions w.now = true :=
    (isQuiescent_iff hpk hd' hclaimed hheld helapsed).mpr
      (fun hblocked => hrec.ended hblocked pk d hpk hd)
  have hlost : ∃ site', (w.prepareRun P e (.ok f)).site.Evolves site' ∧
      (fence.state = .pending ∧ failLostWorker P w.now (w.prepareRun P e (.ok f)).site
          fence.blockingExecutionId = .ok site' ∨
        fence.state ≠ .pending ∧ site' = (w.prepareRun P e (.ok f)).site) := by
    by_cases hpending : fence.state = .pending
    · obtain ⟨site', hsite'⟩ := failLostWorker_of_claimed (P := P) w.now hd' hclaimed
      rw [← hpk] at hsite'
      exact ⟨site', RunnerSite.evolves_failLostWorker hsite', .inl ⟨hpending, hsite'⟩⟩
    · exact ⟨_, .refl _, .inr ⟨hpending, rfl⟩⟩
  obtain ⟨site', hevolves, hlost⟩ := hlost
  have hreserved : reserveGiteaRunnerScope P w.now (w.prepareRun P e (.ok f)).site
      (x.call (w.created + 1)) = .ok _ :=
    (Reserved.takenOver hrow (hx.binds.approvedGeneration hrec.generation)
      ((hx.binds.operation_call _).trans hop) hheld (by rw [hpk]; exact Option.some_ne_none pk)
      hrec.unowned hquiescent hlost).reserve
  refine ⟨_, reservedRun_of_reserve hx hreserved ?_ ?_⟩
  · rw [hcanonical]
    exact fences_setFence_self _ _ _
  · obtain ⟨d', hstored⟩ := hx.stored
    refine Option.ne_none_iff_exists'.mp (fun hnone => ?_)
    rw [(hevolves.keys _).mp hnone] at hstored
    cases hstored

end

/-! ## A valid response clears the fence -/

/-- A successful response to a reconciliation, within its closed contract: it repeats the digest that
the fence expects, and its own digest fills its column. -/
structure ReconcileProof (P : Platform) (c : RunnerCall) (response result : Entries) : Prop where
  accepted : acceptedResult P c response = some result
  succeeded : Json.find result "ok" = some (.bool true)
  digest : (valueOf result "token_sha256").PyEq (valueOf c.normalized "fence_expected_sha256")
  column : (textOr P result "prior_active_sha256" "").length ≤ 64

/-- The run of an execution holds a reservation, and every valid successful response clears the
fence of the scope. -/
def RunnerWorld.WillClear (P : Platform) (w : RunnerWorld) (pk : ℕ) (scope : String) : Prop :=
  ∃ x, w.workers pk = some x ∧ x.phase = .reserved ∧ ∀ loads exchange response result,
    callBackend P loads (resolveBackendTransportPolicy (x.call pk) x.copy) exchange = .ok response →
    ReconcileProof P (x.call pk) response result →
    ∃ w' fence, w.step P (.work pk (.answer loads exchange)) = some w' ∧
      w'.site.fences scope = some fence ∧ fence.state = .clear

def StoredExecution.Reconciles (e : StoredExecution) (scope : String) : Prop :=
  e.isRunnerRequest = true ∧ ∃ r, registrationRequest e.context.params = .ok r ∧
    r.operation = "reconcile" ∧ r.canonicalScope = scope

/-- Some reconciliation run passes normalization and reservation, and a valid successful response
then clears the fence. -/
def RunnerWorld.CanClear (P : Platform) (w : RunnerWorld) (scope : String) : Prop :=
  ∃ e facts, e.Reconciles scope ∧ (w.reserveRun P e facts).WillClear P (w.created + 1) scope

section

variable {P : Platform} {w : RunnerWorld} {e : StoredExecution} {r : RegistrationRequest}
  {fence : ScopeFence}

theorem fitsColumns_of_proof (hP : P.Implements RunnerContract.giteaRunner.resultSchema)
    {c : RunnerCall} (hcontract : c.contract = .giteaRunner) {response result : Entries}
    (hproof : ReconcileProof P c response result) (hproven : resetProven result = true)
    (fence : ScopeFence) (now : DateTime) : (fence.settle P c result now).fitsColumns = true := by
  have hvalid := (Accepted.of_acceptedResult hproof.accepted).valid
  rw [hcontract] at hvalid
  have hstate := resetState_fits hP hvalid
  have hactive := hproof.column
  simp [ScopeFence.settle, hproven, ScopeFence.fitsColumns, hstate, hactive]

theorem willClear_of_reserved (hP : P.Implements RunnerContract.giteaRunner.resultSchema)
    {w' : RunnerWorld} {x : RunWorker} (he : e.isRunnerRequest = true)
    (hop : r.operation = "reconcile")
    (h : w.ReservedRun P w' e r fence
      (fence.takeOver (w.created + 1) (fence.takeoverGeneration + 1) w.now) x) :
    w'.WillClear P (w.created + 1) r.canonicalScope := by
  refine ⟨x, h.worker, h.phase, fun loads exchange response result hcall hproof => ?_⟩
  have hcontract := contract_of_request he h.context (w.created + 1)
  have hoperation := (h.binds.operation_call (w.created + 1)).trans hop
  have hcanonical := h.binds.canonicalScope_call (w.created + 1)
  have haccepted := Accepted.of_acceptedResult hproof.accepted
  have hproven : resetProven result = true := by
    have hvalid := haccepted.valid
    rw [hcontract] at hvalid
    have hvalue := eq_str_of_pyEq haccepted.operation
    rw [hoperation] at hvalue
    refine resetProven_of_reconciled hP hvalid hproof.succeeded ?_
    cases hfind : Json.find result "operation" with
    | none => rw [valueOf, hfind] at hvalue; cases hvalue
    | some v => rw [valueOf, hfind] at hvalue; exact congrArg some hvalue
  have howned : (fence.takeOver (w.created + 1) (fence.takeoverGeneration + 1) w.now).OwnedBy P
      (x.call (w.created + 1)) := by
    refine ⟨?_, fun hstart => ?_, fun _ => rfl⟩
    · have hgeneration : valueOf (x.call (w.created + 1)).normalized "fence_generation" =
          .int (fence.takeoverGeneration + 1) := by
        rw [RunWorker.call, valueOf, h.binds.generation]
        rfl
      rw [hgeneration]
      exact rfl
    · rw [hoperation] at hstart
      exact absurd hstart.symm (RunnerContract.startOperation_ne _)
  obtain ⟨d, hd⟩ := h.stored
  have hname : x.context.procedureName ∈ giteaRunnerScopeProcedureNames := by
    simp only [StoredExecution.isRunnerRequest, Bool.and_eq_true, beq_iff_eq] at he
    rw [h.context, he.2]
    exact List.mem_cons_self
  have hevents : ∃ events, backendResponseEvents P x.context response (.time w'.now) =
      some events := by
    simp [backendResponseEvents, responseContract_of_runner hname, backendFailureFields]
  obtain ⟨events, hevents⟩ := hevents
  have hfence : w'.site.fences ((x.call (w.created + 1)).canonicalScope P) =
      some (fence.takeOver (w.created + 1) (fence.takeoverGeneration + 1) w.now) := by
    rw [hcanonical]
    exact h.row
  have hfits := fitsColumns_of_proof hP hcontract hproof hproven
    (fence.takeOver (w.created + 1) (fence.takeoverGeneration + 1) w.now) w'.now
  have hclear : ((fence.takeOver (w.created + 1) (fence.takeoverGeneration + 1) w.now).settle P
      (x.call (w.created + 1)) result w'.now).state = .clear := by
    rw [state_settle, hproven, Bool.or_true, if_pos rfl]
  generalize fence.takeOver (w.created + 1) (fence.takeoverGeneration + 1) w.now = row at *
  have hcommit : ∃ s, recordGiteaRunnerResponse P w'.now w'.site (x.call (w.created + 1)) x.copy
      response = .ok s ∧ s.1.fences r.canonicalScope =
        some (row.settle P (x.call (w.created + 1)) result w'.now) := by
    refine ⟨(_, _), recordGiteaRunnerResponse_iff.mpr ⟨result, row, hproof.accepted,
      fun _ => hproof.digest, hfence, howned, hfits, recordBackendResponse_iff.mpr
        ⟨h.running, d, events, hd, hevents, rfl, rfl⟩⟩, ?_⟩
    rw [hcanonical]
    exact fences_setFence_self _ _ _
  obtain ⟨s, hcommit, hrow⟩ := hcommit
  refine ⟨{ w' with site := s.1 }.endRun (w.created + 1), _, ?_, hrow, hclear⟩
  simp [RunnerWorld.step, RunnerWorld.workerStep, h.worker, h.phase, hcall, bind, Except.bind, hcommit]

/-- A run that holds a reservation passed the normalizer. -/
theorem normalized_of_reserved (h : w.Sound) (he : e.isRunnerRequest = true)
    {facts : Except RPCExecutionError RunnerFacts} {x : RunWorker}
    (hx : (w.reserveRun P e facts).workers (w.created + 1) = some x) (hphase : x.phase = .reserved) :
    ∃ raw, normalizeGiteaRunnerRegistrationExecution (w.claimedRun P e).now (w.claimedRun P e).site
      e.context.params facts = .ok raw := by
  obtain ⟨y, d, hy, hclaimed, hcontext, -, hd⟩ := worker_claimedRun P w e
  cases hraw : normalizeGiteaRunnerRegistrationExecution (w.claimedRun P e).now
      (w.claimedRun P e).site e.context.params facts with
  | ok raw => exact ⟨raw, rfl⟩
  | error err =>
    -- The refused run fails, and a failing worker reserves nothing.
    have hprepare : (w.claimedRun P e).step P (.work (w.created + 1) (.prepare facts)) =
        some ((w.claimedRun P e).setWorker (w.created + 1) { y with phase := .failing err }) := by
      rw [← hcontext] at hraw
      simp [RunnerWorld.step, RunnerWorld.workerStep, hy, hclaimed, hd, hraw]
    have hreserve : RunnerWorld.step P ((w.claimedRun P e).setWorker (w.created + 1)
        { y with phase := .failing err }) (.work (w.created + 1) .reserve) = none := by
      simp [RunnerWorld.step, RunnerWorld.workerStep]
    rw [RunnerWorld.reserveRun, prepareRun_eq h he, Transition.next_of_step hprepare,
      Transition.next_of_refused hreserve, workers_setWorker_self] at hx
    cases hx
    cases hphase

theorem recoverable_of_canClear (h : w.Sound) {scope : String} (hscope : scope ∈ canonicalScopes)
    (hfence : w.site.fences scope = some fence) (hheld : fence.state ≠ .clear)
    (helapsed : fence.lastUpdated ≤ w.now - quiescenceDelay) (hclear : w.CanClear P scope) :
    fence.Recoverable w.site.executions := by
  obtain ⟨e, facts, ⟨he, r, hr, hop, hcanonical⟩, x, hx, hphase, -⟩ := hclear
  obtain ⟨raw, hraw⟩ := normalized_of_reserved h he hx hphase
  obtain ⟨r', fence', f, hr', hfence', hrefusal, -, -, -⟩ := normalize_claimedRun.mp hraw
  rw [hr] at hr'
  cases hr'
  rw [hcanonical, hfence] at hfence'
  cases hfence'
  rw [hop] at hrefusal
  exact (admitted_iff_recoverable h hscope hfence hheld helapsed).mp hrefusal

end

def runnerRequest (operation scope : String) : StoredExecution where
  context := ⟨giteaRunnerRegister, RunnerContract.giteaRunner.resultSchema,
    .obj [("operation", .str operation), ("scope", .str scope)], .int 1⟩
  ledger := ⟨{ ProjectionState.initial with status := .queued }, []⟩

def reviewedSnapshot (principal : String) : SshSnapshot :=
  ⟨.int 1, .str "1", .int 1, .str "1", none, principal, .str "key", .str "10.0.30.96",
    .str fenceUnknownSha256, .str "policy"⟩

def reviewedFacts : RunnerFacts :=
  ⟨"10.0.30.40", reviewedSnapshot "nms-runner-bootstrap", reviewedSnapshot "nms-gitea-runner-control",
    .str giteaRunnerRegister⟩

theorem reviewedFacts_principals : reviewedFacts.principalError = none := by decide

theorem isRunnerRequest_runnerRequest (operation scope : String) :
    (runnerRequest operation scope).isRunnerRequest = true := rfl

theorem registrationRequest_runnerRequest {operation scope canonicalScope : String}
    (hop : operation ∈ GiteaRunner.operations)
    (hscope : GiteaRunner.scopeToGiteaScope.lookup scope = some canonicalScope) :
    registrationRequest (runnerRequest operation scope).context.params =
      .ok ⟨operation, scope, canonicalScope⟩ := by
  simp [registrationRequest, runnerRequest, Json.find, hop, hscope, GiteaRunner.internalParamKeys]

theorem exists_reviewed_scope {scope : String} (h : scope ∈ canonicalScopes) :
    ∃ name, GiteaRunner.scopeToGiteaScope.lookup name = some scope := by
  simp only [canonicalScopes, List.mem_cons, List.not_mem_nil, or_false] at h
  rcases h with rfl | rfl | rfl
  · exact ⟨"nmulticloud-org", by decide⟩
  · exact ⟨"netbox-proxbox", by decide⟩
  · exact ⟨"proxbox-api", by decide⟩

theorem canClear_of_recoverable {P : Platform}
    (hP : P.Implements RunnerContract.giteaRunner.resultSchema) {w : RunnerWorld} {fence : ScopeFence}
    (h : w.Sound) {scope : String} (hscope : scope ∈ canonicalScopes)
    (hfence : w.site.fences scope = some fence) (hheld : fence.state ≠ .clear)
    (helapsed : fence.lastUpdated ≤ w.now - quiescenceDelay)
    (hrec : fence.Recoverable w.site.executions) : w.CanClear P scope := by
  obtain ⟨name, hname⟩ := exists_reviewed_scope hscope
  have hr := @registrationRequest_runnerRequest "reconcile" name scope (by decide) hname
  have he := isRunnerRequest_runnerRequest "reconcile" name
  obtain ⟨x, hx⟩ := reserveRun_reconcile (P := P) h he hr rfl hscope hfence hheld helapsed hrec
    reviewedFacts_principals
  exact ⟨_, _, ⟨he, _, hr, rfl, rfl⟩, willClear_of_reserved hP he rfl hx⟩

/-- After any runs of any workers, each of which may have died at any point, and once the safety
window of a fenced scope has passed: a reconciliation can clear the scope exactly when no
reconciliation owns its fence, the execution of a blocked fence has ended, and neither the key nor
the generation is exhausted. -/
theorem reconcile_can_clear_iff {P : Platform}
    (hP : P.Implements RunnerContract.giteaRunner.resultSchema) (hsearch : P.ReadsDigests)
    (start : DateTime) (actions : List RunnerAction) {scope : String}
    (hscope : scope ∈ canonicalScopes) {w : RunnerWorld}
    (hw : w = Transition.run (RunnerWorld.step P) (RunnerWorld.seed start) actions)
    {fence : ScopeFence} (hfence : w.site.fences scope = some fence) (hheld : fence.state ≠ .clear)
    (helapsed : fence.lastUpdated ≤ w.now - quiescenceDelay) :
    w.CanClear P scope ↔ fence.Recoverable w.site.executions := by
  have h : w.Sound := hw ▸ RunnerWorld.sound_run hP hsearch start actions
  constructor
  · exact recoverable_of_canClear h hscope hfence hheld helapsed
  · exact canClear_of_recoverable hP h hscope hfence hheld helapsed

/-! ## Workers that die after their reservation -/

section

variable (P : Platform)

def abandonedRun (pk : ℕ) (operation scope : String) : List RunnerAction :=
  [.request (runnerRequest operation scope), .claim pk, .work pk (.prepare (.ok reviewedFacts)),
    .work pk .reserve, .work pk .die, .tick 1800000000]

variable {P} {w : RunnerWorld} {r : RegistrationRequest} {fence row : ScopeFence} {x : RunWorker}

theorem run_abandoned {operation scope : String}
    (h : w.ReservedRun P (w.reserveRun P (runnerRequest operation scope) (.ok reviewedFacts))
      (runnerRequest operation scope) r fence row x) {w' : RunnerWorld}
    (hw' : w' = Transition.run (RunnerWorld.step P) w (abandonedRun (w.created + 1) operation scope)) :
    w'.site.fences r.canonicalScope = some row ∧ w'.now = w.now + quiescenceDelay ∧
      w'.created = w.created + 1 ∧ ((∀ pk, w.workers pk = none) → ∀ pk, w'.workers pk = none) := by
  have hrun : w' = Transition.run (RunnerWorld.step P)
      (w.reserveRun P (runnerRequest operation scope) (.ok reviewedFacts))
      [.work (w.created + 1) .die, .tick 1800000000] := hw'
  have hdie : RunnerWorld.step P (w.reserveRun P (runnerRequest operation scope) (.ok reviewedFacts))
      (.work (w.created + 1) .die) = some
        ((w.reserveRun P (runnerRequest operation scope) (.ok reviewedFacts)).endRun
          (w.created + 1)) := by
    simp [RunnerWorld.step, RunnerWorld.workerStep, h.worker]
  rw [Transition.run_cons, Transition.next_of_step hdie] at hrun
  subst hrun
  refine ⟨h.row, ?_, h.created, fun hidle pk => ?_⟩
  · exact congrArg (· + quiescenceDelay) h.now
  · by_cases hpk : pk = w.created + 1
    · subst hpk
      exact workers_endRun_self _ _
    · exact (workers_endRun_ne _ hpk).trans ((h.workers hpk).trans (hidle pk))

end

def digestSearch (pattern s : String) : Bool :=
  if pattern = GiteaRunner.sha256Pattern then isSha256Text s else true

def digestPlatform : Platform :=
  { (default : Platform) with
    search := digestSearch
    schemaError := fun schema inst =>
      if validates digestSearch schema inst then none else some ([], "schema") }

theorem implements_digestPlatform (schema : Json) : digestPlatform.Implements schema := by
  intro inst
  change (if validates digestSearch schema inst = true then none else some _) = none ↔
    validates digestSearch schema inst = true
  split_ifs with h <;> simp [h]

theorem readsDigests_digestPlatform : digestPlatform.ReadsDigests := by
  intro s
  change digestSearch GiteaRunner.sha256Pattern s = isSha256Text s
  rw [digestSearch, if_pos rfl]

def lostRegistration : RunnerWorld :=
  Transition.run (RunnerWorld.step digestPlatform) (RunnerWorld.seed 0)
    (abandonedRun 1 "register" "proxbox-api")

theorem lostRegistration_row :
    lostRegistration.site.fences proxboxScope = some ((ScopeFence.seed 0).acquire 1 1 0) ∧
      lostRegistration.now = 0 + quiescenceDelay ∧ lostRegistration.created = 1 ∧
      ∀ pk, lostRegistration.workers pk = none := by
  have hr := @registrationRequest_runnerRequest "register" "proxbox-api" proxboxScope (by decide)
    (by decide)
  have hfence : (RunnerWorld.seed 0).site.fences proxboxScope = some (ScopeFence.seed 0) := rfl
  obtain ⟨x, hx⟩ := reserveRun_register (P := digestPlatform) (RunnerWorld.sound_seed 0)
    (isRunnerRequest_runnerRequest _ _) hr rfl hfence (by decide) rfl rfl rfl reviewedFacts_principals
  have hw : lostRegistration = Transition.run (RunnerWorld.step digestPlatform) (RunnerWorld.seed 0)
      (abandonedRun ((RunnerWorld.seed 0).created + 1) "register" "proxbox-api") := by
    rw [lostRegistration]
    rfl
  generalize lostRegistration = lost at hw ⊢
  obtain ⟨hrow, hnow, hcreated, hidle⟩ := run_abandoned hx hw
  exact ⟨hrow, hnow, hcreated, hidle (fun _ => rfl)⟩

theorem lostRegistration_elapsed : ((ScopeFence.seed 0).acquire 1 1 0).lastUpdated ≤
    lostRegistration.now - quiescenceDelay := by
  rw [lostRegistration_row.2.1]
  exact (Int.add_sub_cancel 0 quiescenceDelay).ge

theorem lostRegistration_recoverable :
    ((ScopeFence.seed 0).acquire 1 1 0).Recoverable lostRegistration.site.executions := by
  refine ⟨rfl, fun hblocked => ?_, by decide, fun pk hpk => ?_⟩
  · cases hblocked
  · cases hpk
    decide

/-- A registration whose worker died can be reconciled. -/
theorem reconcile_can_clear_lost_registration : lostRegistration.CanClear digestPlatform proxboxScope := by
  have hw : lostRegistration = Transition.run (RunnerWorld.step digestPlatform) (RunnerWorld.seed 0)
      (abandonedRun 1 "register" "proxbox-api") := by rw [lostRegistration]
  have hheld : ((ScopeFence.seed 0).acquire 1 1 0).state ≠ .clear := by decide
  exact (reconcile_can_clear_iff (implements_digestPlatform _) readsDigests_digestPlatform 0 _
    (by decide) hw lostRegistration_row.1 hheld lostRegistration_elapsed).mpr
      lostRegistration_recoverable

/-- A reconciliation that dies with its reservation leaves a fence that nothing clears. -/
theorem not_canClear_of_abandoned {P : Platform}
    (hP : P.Implements RunnerContract.giteaRunner.resultSchema) (hsearch : P.ReadsDigests)
    {w w' : RunnerWorld} (h : w.Sound) {scope canonicalScope : String}
    (hname : GiteaRunner.scopeToGiteaScope.lookup scope = some canonicalScope)
    (hscope : canonicalScope ∈ canonicalScopes) {fence : ScopeFence}
    (hfence : w.site.fences canonicalScope = some fence) (hheld : fence.state ≠ .clear)
    (helapsed : fence.lastUpdated ≤ w.now - quiescenceDelay)
    (hrec : fence.Recoverable w.site.executions)
    (hw' : w' = Transition.run (RunnerWorld.step P) w
      (abandonedRun (w.created + 1) "reconcile" scope)) :
    ∃ row, w'.site.fences canonicalScope = some row ∧ row.state ≠ .clear ∧
      row.lastUpdated ≤ w'.now - quiescenceDelay ∧ ¬ w'.CanClear P canonicalScope ∧
      ((∀ pk, w.workers pk = none) → ∀ pk, w'.workers pk = none) := by
  have hr := @registrationRequest_runnerRequest "reconcile" scope canonicalScope (by decide) hname
  obtain ⟨x, hx⟩ := reserveRun_reconcile (P := P) h (isRunnerRequest_runnerRequest _ _) hr rfl hscope
    hfence hheld helapsed hrec reviewedFacts_principals
  obtain ⟨hrow, hnow, -, hidle⟩ := run_abandoned hx hw'
  have hsound : w'.Sound := by
    rw [hw']
    exact Transition.run_invariant (fun _ _ _ hstep h => h.step hP hsearch hstep) _ h
  have helapsed' : w.now ≤ w'.now - quiescenceDelay := by
    rw [hnow]
    exact (Int.add_sub_cancel w.now quiescenceDelay).ge
  refine ⟨_, hrow, by simp [ScopeFence.takeOver], helapsed', fun hclear => ?_, hidle⟩
  have hrec' := recoverable_of_canClear hsound hscope hrow (by simp [ScopeFence.takeOver]) helapsed'
    hclear
  cases hrec'.unowned

/-- The reconciliation dies too. No worker is alive, the safety window has passed, and no
reconciliation is ever admitted again. -/
theorem dead_reconciliation_keeps_fence :
    ∃ w fence, w = Transition.run (RunnerWorld.step digestPlatform) (RunnerWorld.seed 0)
        (abandonedRun 1 "register" "proxbox-api" ++ abandonedRun 2 "reconcile" "proxbox-api") ∧
      (∀ pk, w.workers pk = none) ∧ w.site.fences proxboxScope = some fence ∧
      fence.state ≠ .clear ∧ fence.lastUpdated ≤ w.now - quiescenceDelay ∧
      ¬ w.CanClear digestPlatform proxboxScope := by
  obtain ⟨hrow, -, hcreated, hidle⟩ := lostRegistration_row
  have hsound : lostRegistration.Sound := RunnerWorld.sound_run (implements_digestPlatform _)
    readsDigests_digestPlatform 0 _
  have hheld : ((ScopeFence.seed 0).acquire 1 1 0).state ≠ .clear := by decide
  obtain ⟨row, hrow', hheld', helapsed', hdead, hidle'⟩ := not_canClear_of_abandoned
    (implements_digestPlatform _) readsDigests_digestPlatform hsound
    (by decide : GiteaRunner.scopeToGiteaScope.lookup "proxbox-api" = some proxboxScope) (by decide)
    hrow hheld lostRegistration_elapsed lostRegistration_recoverable rfl
  refine ⟨_, row, ?_, hidle' hidle, hrow', hheld', helapsed', hdead⟩
  rw [hcreated, lostRegistration, Transition.run_append]

end NetboxRpc
