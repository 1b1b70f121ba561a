import NetboxRpc.Lifecycle
import NetboxRpc.RunnerNormalization
import NetboxRpc.TransportOutcomes

/-!
# Runs of runner workers

Any number of `register` and `reconcile` runs over one set of fences, one committed transaction at a
time. A worker can die before any of them: its run then makes no further step. The invariant says
that each fence row still represents a custody, that its blocking execution was claimed, and that
its digest passes redaction unchanged.
-/

namespace NetboxRpc

inductive RunPhase
  | claimed
  | prepared
  | reserved
  /-- An error was raised after the reservation; the fence is blocked next. -/
  | raised (e : RPCExecutionError)
  /-- The failure is recorded next. -/
  | failing (e : RPCExecutionError)

structure RunWorker where
  phase : RunPhase
  context : ExecutionContext
  normalized : Entries
  copy : ProjectionState

def RunWorker.call (x : RunWorker) (pk : ℕ) : RunnerCall := ⟨pk, x.context, x.normalized⟩

structure RunnerWorld where
  site : RunnerSite
  workers : ℕ → Option RunWorker
  /-- The executions have the keys from 1 to `created`. -/
  created : ℕ
  now : DateTime

inductive WorkerAction
  | prepare (facts : Except RPCExecutionError RunnerFacts)
  /-- Any other check before the reservation raises. -/
  | raise (e : RPCExecutionError)
  | reserve
  | answer (loads : List UInt8 → Except ReadFailure Json) (x : Exchange)
  | block (commits : Bool)
  | fail
  | die

inductive RunnerAction
  | tick (elapsed : ℕ)
  | request (e : StoredExecution)
  | claim (pk : ℕ)
  | work (pk : ℕ) (a : WorkerAction)

def RunnerWorld.setWorker (w : RunnerWorld) (pk : ℕ) (x : RunWorker) : RunnerWorld :=
  { w with workers := Function.update w.workers pk (some x) }

def RunnerWorld.endRun (w : RunnerWorld) (pk : ℕ) : RunnerWorld :=
  { w with workers := Function.update w.workers pk none }

def StoredExecution.isRunnerRequest (e : StoredExecution) : Bool :=
  e.status == .queued && e.context.procedureName == giteaRunnerRegister

@[simp] theorem workers_setWorker_self (w : RunnerWorld) (pk : ℕ) (x : RunWorker) :
    (w.setWorker pk x).workers pk = some x :=
  Function.update_self _ _ _

theorem workers_setWorker_ne (w : RunnerWorld) {pk other : ℕ} (x : RunWorker) (h : other ≠ pk) :
    (w.setWorker pk x).workers other = w.workers other :=
  Function.update_of_ne h _ _

@[simp] theorem workers_endRun_self (w : RunnerWorld) (pk : ℕ) : (w.endRun pk).workers pk = none :=
  Function.update_self _ _ _

theorem workers_endRun_ne (w : RunnerWorld) {pk other : ℕ} (h : other ≠ pk) :
    (w.endRun pk).workers other = w.workers other :=
  Function.update_of_ne h _ _

section

variable (P : Platform)

def RunnerWorld.claim (w : RunnerWorld) (pk : ℕ) (e : StoredExecution) : RunnerWorld :=
  let s := appendAndProject P e.context e.ledger.row e.ledger (.executionStarted (.time w.now))
  { w with site := w.site.setExecution pk { e with ledger := s.2 } }.setWorker pk
    ⟨.claimed, e.context, [], s.1⟩

def RunnerWorld.normalize (w : RunnerWorld) (pk : ℕ) (x : RunWorker) (e : StoredExecution)
    (raw : Entries) : RunnerWorld :=
  let normalized := ledgerNormalizedParams P raw
  let s := appendAndProject P x.context x.copy e.ledger (.parametersNormalized normalized
    (hashJson P (valueOf normalized "command_fingerprint")))
  { w with site := w.site.setExecution pk { e with ledger := s.2 } }.setWorker pk
    { x with phase := .prepared, normalized, copy := s.1 }

def RunnerWorld.workerStep (w : RunnerWorld) (pk : ℕ) (x : RunWorker) :
    WorkerAction → Option RunnerWorld
  | .prepare facts => match x.phase, w.site.executions pk with
    | .claimed, some e =>
      match normalizeGiteaRunnerRegistrationExecution w.now w.site x.context.params facts with
      | .ok raw => some (w.normalize P pk x e raw)
      | .error e => some (w.setWorker pk { x with phase := .failing e })
    | _, _ => none
  | .raise e => match x.phase with
    | .claimed | .prepared => some (w.setWorker pk { x with phase := .failing e })
    | _ => none
  | .reserve => match x.phase with
    | .prepared => match reserveGiteaRunnerScope P w.now w.site (x.call pk) with
      | .ok site => some ({ w with site }.setWorker pk { x with phase := .reserved })
      | .error e => some (w.setWorker pk { x with phase := .failing e })
    | _ => none
  | .answer loads exchange => match x.phase with
    | .reserved =>
      let recorded := do
        let response ← callBackend P loads (resolveBackendTransportPolicy (x.call pk) x.copy) exchange
        recordGiteaRunnerResponse P w.now w.site (x.call pk) x.copy response
      match recorded with
      | .ok s => some ({ w with site := s.1 }.endRun pk)
      | .error e => some (w.setWorker pk { x with phase := .raised e })
    | _ => none
  | .block commits => match x.phase with
    | .raised e =>
      let site := if commits then blockRunnerScopeAfterFailure P w.now w.site (x.call pk) else w.site
      some ({ w with site }.setWorker pk { x with phase := .failing e })
    | _ => none
  | .fail => match x.phase with
    | .failing e => some ({ w with
        site := failExecution P w.now w.site (x.call pk) x.copy e }.endRun pk)
    | _ => none
  | .die => some (w.endRun pk)

def RunnerWorld.step (w : RunnerWorld) : RunnerAction → Option RunnerWorld
  | .tick elapsed => some { w with now := w.now + elapsed }
  | .request e => if e.isRunnerRequest then
      some { w with site := w.site.setExecution (w.created + 1) e, created := w.created + 1 } else none
  | .claim pk => match w.site.executions pk, w.workers pk with
    | some e, none => if e.isRunnerRequest then some (w.claim P pk e) else none
    | _, _ => none
  | .work pk a => (w.workers pk).bind (fun x => w.workerStep P pk x a)

end

def RunnerWorld.seed (now : DateTime) : RunnerWorld where
  site := (FenceWorld.seed now (fun _ => none)).site
  workers := fun _ => none
  created := 0
  now := now

/-! ## Digests -/

/-- The texts that `^[0-9a-f]{64}$` finds: 64 digits, with or without a final line feed. -/
def isSha256Text (s : String) : Bool :=
  let digits := if s.toList.getLast? = some '\n' then s.toList.dropLast else s.toList
  digits.length == 64 && digits.all isHexDigit

/-- `re.search` reads the digest pattern of the contract as documented. -/
def Platform.ReadsDigests (P : Platform) : Prop :=
  ∀ s, P.search GiteaRunner.sha256Pattern s = isSha256Text s

theorem plain_of_isHexDigit {c : Char} (h : isHexDigit c = true) :
    isAssignment c = false ∧ isStructuralMark c = false ∧ (c == '-') = false := by
  have hdigits : "0123456789abcdef".toList.all
      (fun c => !isAssignment c && (!isStructuralMark c && !(c == '-'))) = true := by decide
  simpa using List.all_eq_true.mp hdigits c (mem_of_isHexDigit h)

theorem isPlainText_of_digest {s : String} (h : isSha256Text s = true) (hlength : s.length ≤ 64) :
    IsPlainText s := by
  have hdigits : s.toList.all isHexDigit = true := by
    unfold isSha256Text at h
    dsimp only at h
    rw [Bool.and_eq_true, beq_iff_eq] at h
    split_ifs at h with hbreak
    · have hlen : s.toList.length = s.length := String.length_toList
      rw [List.length_dropLast] at h
      omega
    · exact h.2
  have hnone : ∀ p : Char → Bool, (∀ c, isHexDigit c = true → p c = false) →
      s.toList.countP p = 0 := by
    intro p hp
    rw [List.countP_eq_zero]
    intro c hc
    rw [hp c (List.all_eq_true.mp hdigits c hc)]
    exact Bool.false_ne_true
  refine ⟨?_, hlength.trans (by decide)⟩
  rw [isPlainName, hnone _ (fun c hc => (plain_of_isHexDigit hc).1),
    hnone _ (fun c hc => (plain_of_isHexDigit hc).2.1),
    hnone _ (fun c hc => (plain_of_isHexDigit hc).2.2)]
  rfl

theorem search_of_valid_digest {search : String → String → Bool} {fuel : ℕ} {pattern s : String}
    {type : Json} (h : JsonSchema.valid search fuel (Schema.digest pattern type) (.str s) = true) :
    search pattern s = true := by
  cases fuel with
  | zero => cases h
  | succ fuel =>
    exact @JsonSchema.keyword_of_valid search fuel _ _ h "pattern" (.str pattern) (by simp)

/-- The token digest of a valid result is one of the pattern. -/
theorem digest_of_valid {P : Platform} (hP : P.Implements RunnerContract.giteaRunner.resultSchema)
    (hsearch : P.ReadsDigests) {result : Entries} {token : String}
    (hvalid : P.schemaError RunnerContract.giteaRunner.resultSchema (.obj result) = none)
    (htoken : Json.find result "token_sha256" = some (.str token)) : isSha256Text token = true := by
  have hproperty := JsonSchema.valid_property ((hP _).mp hvalid)
    (List.mem_of_getElem? (i := 3) rfl : ("properties", Json.obj GiteaRunner.resultProperties) ∈ _)
    (List.mem_of_getElem? (i := 11) rfl : ("token_sha256", Schema.digest GiteaRunner.sha256Pattern
      Schema.nullableText) ∈ GiteaRunner.resultProperties) htoken
  rw [← hsearch]
  exact search_of_valid_digest hproperty

/-! ## What every transaction keeps of the rows -/

def ExecutionStatus.isClaimed (s : ExecutionStatus) : Bool := s == .running || s.isTerminal

def RunnerSite.Claimed (site : RunnerSite) (pk : ℕ) : Prop :=
  ∃ e, site.executions pk = some e ∧ e.status.isClaimed = true

def RunnerSite.Fenced (site : RunnerSite) : Prop :=
  ∃ reservations, (FenceWorld.mk site reservations).Fenced

structure RunnerSite.Sound (site : RunnerSite) : Prop where
  fenced : site.Fenced
  digests : ∀ {scope fence}, site.fences scope = some fence → fence.DigestPlain
  owners : ∀ {scope fence pk}, site.fences scope = some fence →
    fence.blockingExecutionId = some pk → site.Claimed pk

structure RunnerSite.Evolves (site after : RunnerSite) : Prop where
  sound : site.Sound → after.Sound
  claimed : ∀ {pk}, site.Claimed pk → after.Claimed pk
  keys : ∀ pk, after.executions pk = none ↔ site.executions pk = none

section

variable {P : Platform} {site after : RunnerSite} {pk : ℕ}

theorem RunnerSite.Evolves.refl (site : RunnerSite) : site.Evolves site :=
  ⟨id, id, fun _ => Iff.rfl⟩

theorem RunnerSite.Fenced.congr (h : site.Fenced) (hfences : after.fences = site.fences) :
    after.Fenced := by
  obtain ⟨reservations, hfenced⟩ := h
  refine ⟨reservations, fun scope hscope => ?_⟩
  obtain ⟨f, hf, hsound⟩ := hfenced scope hscope
  exact ⟨f, hf.frame (congrFun hfences scope) rfl, hsound⟩

theorem RunnerSite.Fenced.step (h : site.Fenced) (P : Platform) (a : FenceAction)
    (hstep : ∀ reservations, ((FenceWorld.mk site reservations).step P a).map FenceWorld.site =
      some after) : after.Fenced := by
  obtain ⟨reservations, hfenced⟩ := h
  obtain ⟨w, hw, rfl⟩ := Option.map_eq_some_iff.mp (hstep reservations)
  exact ⟨w.reservations, hfenced.step hw⟩

theorem executions_setExecution_ne {other : ℕ} (e : StoredExecution) (h : other ≠ pk) :
    (site.setExecution pk e).executions other = site.executions other :=
  Function.update_of_ne h _ _

@[simp] theorem executions_setExecution_self (site : RunnerSite) (pk : ℕ) (e : StoredExecution) :
    (site.setExecution pk e).executions pk = some e :=
  Function.update_self _ _ _

theorem claimed_setExecution {e : StoredExecution} {other : ℕ}
    (hstatus : site.Claimed pk → e.status.isClaimed = true) (h : site.Claimed other) :
    (site.setExecution pk e).Claimed other := by
  by_cases hpk : other = pk
  · subst hpk
    exact ⟨e, executions_setExecution_self _ _ _, hstatus h⟩
  · obtain ⟨d, hd, hclaimed⟩ := h
    exact ⟨d, (executions_setExecution_ne e hpk).trans hd, hclaimed⟩

theorem RunnerSite.Sound.setExecution (h : site.Sound) {e : StoredExecution}
    (hstatus : site.Claimed pk → e.status.isClaimed = true) : (site.setExecution pk e).Sound where
  fenced := h.fenced.congr rfl
  digests := h.digests
  owners := fun hfence hblocking => claimed_setExecution hstatus (h.owners hfence hblocking)

theorem RunnerSite.evolves_setExecution {e e' : StoredExecution} (he : site.executions pk = some e)
    (hstatus : e.status.isClaimed = true → e'.status.isClaimed = true) :
    site.Evolves (site.setExecution pk e') := by
  have hkeep : site.Claimed pk → e'.status.isClaimed = true := by
    rintro ⟨d, hd, hclaimed⟩
    rw [he] at hd
    cases hd
    exact hstatus hclaimed
  refine ⟨fun h => h.setExecution hkeep, claimed_setExecution hkeep, fun other => ?_⟩
  by_cases hpk : other = pk
  · subst hpk
    simp [he]
  · rw [executions_setExecution_ne e' hpk]

theorem isClaimed_appendAll {ctx : ExecutionContext} {copy : ProjectionState} {ledger : Ledger}
    {events : List DomainEvent} (hends : ∀ e ∈ events, e.Ends)
    (h : ledger.row.status.isClaimed = true) :
    (appendAll P ctx (copy, ledger) events).2.row.status.isClaimed = true := by
  rcases (status_appendAll_of_ends P ctx (s := (copy, ledger)) hends).2 with hsame | hend
  · rw [hsame]
    exact h
  · simp [ExecutionStatus.isClaimed, hend]

theorem RunnerSite.evolves_append {e : StoredExecution} (he : site.executions pk = some e)
    {ctx : ExecutionContext} {copy : ProjectionState} {event : DomainEvent} (hends : event.Ends) :
    site.Evolves (site.setExecution pk
      { e with ledger := (appendAndProject P ctx copy e.ledger event).2 }) := by
  have hall : ∀ d ∈ [event], d.Ends := by simpa using hends
  exact RunnerSite.evolves_setExecution he (fun h => isClaimed_appendAll hall h)

theorem ends_executionFailed (message code : String) (finished : Stamp) (result : Entries) :
    (DomainEvent.executionFailed message code finished result).Ends := by
  intro s hs
  cases hs
  rfl

theorem RunnerSite.evolves_failExecution (now : DateTime) (site : RunnerSite) (c : RunnerCall)
    (copy : ProjectionState) (e : RPCExecutionError) :
    site.Evolves (failExecution P now site c copy e) := by
  unfold failExecution
  split
  · rename_i d hd
    split_ifs
    · exact .refl site
    · exact RunnerSite.evolves_append hd (ends_executionFailed _ _ _ _)
  · exact .refl site

theorem RunnerSite.evolves_failLostWorker {now : DateTime} {blocking : Option ℕ}
    (h : failLostWorker P now site blocking = .ok after) : site.Evolves after := by
  unfold failLostWorker at h
  split at h
  · cases h
  split at h
  · cases h
  rename_i e he
  split_ifs at h
  · cases h
    exact RunnerSite.evolves_append he (ends_executionFailed _ _ _ _)
  · cases h
    exact .refl site

/-- A transaction that writes one fence row. -/
theorem RunnerSite.Sound.writeFence (h : site.Sound) {scope : String} {fence : ScopeFence}
    (hfenced : after.Fenced) (hfences : after.fences = (site.setFence scope fence).fences)
    (hclaimed : ∀ {pk}, site.Claimed pk → after.Claimed pk) (hdigest : fence.DigestPlain)
    (howner : ∀ pk, fence.blockingExecutionId = some pk → site.Claimed pk) : after.Sound := by
  refine ⟨hfenced, fun {other row} hrow => ?_, fun {other row pk} hrow hpk => ?_⟩
  · rw [hfences] at hrow
    by_cases hscope : other = scope
    · subst hscope
      rw [fences_setFence_self] at hrow
      cases hrow
      exact hdigest
    · rw [fences_setFence_ne fence hscope] at hrow
      exact h.digests hrow
  · rw [hfences] at hrow
    by_cases hscope : other = scope
    · subst hscope
      rw [fences_setFence_self] at hrow
      cases hrow
      exact hclaimed (howner pk hpk)
    · rw [fences_setFence_ne fence hscope] at hrow
      exact hclaimed (h.owners hrow hpk)

theorem isPlainText_empty : IsPlainText "" := by decide

theorem RunnerSite.evolves_reserve {now : DateTime} {c : RunnerDispatch}
    (hcommit : reserveGiteaRunnerScope P now site c.toRunnerCall = .ok after)
    (hpk : site.Claimed c.pk) : site.Evolves after := by
  have hfenced : site.Sound → after.Fenced := by
    intro h
    refine h.fenced.step P (.reserve c now) (fun reservations => ?_)
    rw [FenceWorld.step, hcommit]
    rfl
  cases Reserved.of_reserve hcommit with
  | started hfence hgeneration hop hstate hblocking =>
    refine ⟨fun h => ?_, id, fun _ => Iff.rfl⟩
    refine h.writeFence (hfenced h) rfl id isPlainText_empty (fun pk hblock => ?_)
    cases hblock
    exact hpk
  | @takenOver fence generation site' hfence hgeneration hop hstate hblocking hreconciliation
      hquiescent hlost =>
    have hsite' : site.Evolves site' ∧ site'.fences = site.fences := by
      rcases hlost with ⟨-, hlost⟩ | ⟨-, rfl⟩
      · exact ⟨RunnerSite.evolves_failLostWorker hlost, fences_failLostWorker hlost⟩
      · exact ⟨.refl site', rfl⟩
    obtain ⟨hevolves, hfences⟩ := hsite'
    refine ⟨fun h => ?_, hevolves.claimed, hevolves.keys⟩
    have hdigest : fence.DigestPlain := h.digests hfence
    have hrow : (site'.setFence (c.canonicalScope P) (fence.takeOver c.pk generation now)).fences =
        (site.setFence (c.canonicalScope P) (fence.takeOver c.pk generation now)).fences := by
      rw [RunnerSite.setFence, RunnerSite.setFence, hfences]
    exact h.writeFence (hfenced h) hrow hevolves.claimed hdigest
      (fun pk hblock => h.owners hfence hblock)

theorem RunnerSite.evolves_block {now : DateTime} {c : RunnerDispatch}
    (hcommit : blockGiteaRunnerScope P now site c.toRunnerCall = .ok after) : site.Evolves after := by
  have hfenced : site.Sound → after.Fenced := by
    intro h
    refine h.fenced.step P (.block c now) (fun reservations => ?_)
    rw [FenceWorld.step, hcommit]
    rfl
  obtain ⟨fence, hfence, -, rfl⟩ := blockGiteaRunnerScope_iff.mp hcommit
  refine ⟨fun h => ?_, id, fun _ => Iff.rfl⟩
  have hdigest : fence.DigestPlain := h.digests hfence
  exact h.writeFence (hfenced h) rfl id hdigest (fun pk hblock => h.owners hfence hblock)

theorem RunnerSite.evolves_blockAfterFailure (now : DateTime) (site : RunnerSite) (c : RunnerDispatch) :
    site.Evolves (blockRunnerScopeAfterFailure P now site c.toRunnerCall) := by
  unfold blockRunnerScopeAfterFailure
  cases hblock : blockGiteaRunnerScope P now site c.toRunnerCall with
  | ok after => exact RunnerSite.evolves_block hblock
  | error e => exact .refl site

/-- The digest after an accepted result is cleared, kept, or read from the result. -/
theorem digest_settle (P : Platform) (fence : ScopeFence) (c : RunnerCall) (result : Entries)
    (now : DateTime) :
    (fence.settle P c result now).expectedTokenSha256 = "" ∨
      (fence.settle P c result now).expectedTokenSha256 = fence.expectedTokenSha256 ∨
      Json.find result "token_sha256" =
        some (.str (fence.settle P c result now).expectedTokenSha256) := by
  have hvalue : ∀ token, valueOf result "token_sha256" = .str token →
      Json.find result "token_sha256" = some (.str token) := by
    intro token h
    unfold valueOf at h
    cases hfind : Json.find result "token_sha256" with
    | none => rw [hfind] at h; cases h
    | some v => rw [hfind] at h; exact congrArg some h
  unfold ScopeFence.settle
  dsimp only
  by_cases hclears : (clearWithoutToken P c result || resetProven result) = true
  · rw [if_pos hclears]
    exact .inl rfl
  · rw [if_neg hclears]
    right
    dsimp only [ScopeFence.block]
    cases htoken : valueOf result "token_sha256" with
    | str token =>
      dsimp only
      by_cases hop : c.operation P = c.contract.startOperation
      · rw [if_pos hop]
        exact .inr (hvalue token htoken)
      · rw [if_neg hop]
        exact .inl rfl
    | null | bool b | int n | float q | arr items | obj entries => exact .inl rfl

theorem owner_settle {fence : ScopeFence} {c : RunnerCall} {result : Entries} {now : DateTime}
    (h : (fence.settle P c result now).blockingExecutionId = some pk) :
    fence.blockingExecutionId = some pk := by
  unfold ScopeFence.settle at h
  dsimp only at h
  by_cases hclears : (clearWithoutToken P c result || resetProven result) = true
  · rw [if_pos hclears] at h
    cases h
  · rw [if_neg hclears] at h
    exact h

/-- The columns hold a digest that a valid result named. -/
theorem digestPlain_settle {c : RunnerCall} (hP : P.Implements RunnerContract.giteaRunner.resultSchema)
    (hsearch : P.ReadsDigests) (hcontract : c.contract = .giteaRunner) {fence : ScopeFence}
    (hfence : fence.DigestPlain) {response result : Entries} (now : DateTime)
    (haccepted : acceptedResult P c response = some result)
    (hfits : (fence.settle P c result now).fitsColumns = true) :
    (fence.settle P c result now).DigestPlain := by
  have hvalid := (Accepted.of_acceptedResult haccepted).valid
  rw [hcontract] at hvalid
  rw [ScopeFence.DigestPlain]
  rcases digest_settle P fence c result now with hempty | hsame | htoken
  · rw [hempty]
    exact isPlainText_empty
  · rw [hsame]
    exact hfence
  · refine isPlainText_of_digest (digest_of_valid hP hsearch hvalid htoken) ?_
    simp only [ScopeFence.fitsColumns, List.all_cons, Bool.and_eq_true, decide_eq_true_eq] at hfits
    exact hfits.1

theorem ends_of_backendResponseEvents {ctx : ExecutionContext} {response : Entries}
    {finishedAt : Stamp} {events : List DomainEvent}
    (h : backendResponseEvents P ctx response finishedAt = some events) : ∀ e ∈ events, e.Ends := by
  obtain ⟨progress, last, rfl, hprogress, hlast⟩ := exists_of_backendResponseEvents h
  intro e he
  rcases List.mem_append.mp he with he | he
  · exact .of_silent (by rw [hprogress e he]; rfl)
  · rw [List.mem_singleton.mp he]
    obtain ⟨t, ht, hterminal⟩ := hlast.status
    intro s hs
    rw [ht] at hs
    cases hs
    exact hterminal

theorem RunnerSite.evolves_record {now : DateTime} {c : RunnerDispatch}
    (hP : P.Implements RunnerContract.giteaRunner.resultSchema) (hsearch : P.ReadsDigests)
    (hcontract : c.contract = .giteaRunner) {copy copy' : ProjectionState} {response : Entries}
    (hcommit : recordGiteaRunnerResponse P now site c.toRunnerCall copy response =
      .ok (after, copy')) : site.Evolves after := by
  have hfenced : site.Sound → after.Fenced := by
    intro h
    refine h.fenced.step P (.record c copy response now) (fun reservations => ?_)
    rw [FenceWorld.step, hcommit]
    rfl
  obtain ⟨result, fence, haccepted, -, hfence, -, hfits, hrecord⟩ :=
    recordGiteaRunnerResponse_iff.mp hcommit
  obtain ⟨-, e, events, he, hevents, rfl, -⟩ := recordBackendResponse_iff.mp hrecord
  have hrow : site.Evolves (site.setExecution c.pk
      { e with ledger := (appendAll P c.context (copy, e.ledger) events).2 }) :=
    RunnerSite.evolves_setExecution he
      (fun h => isClaimed_appendAll (ends_of_backendResponseEvents hevents) h)
  refine ⟨fun h => ?_, hrow.claimed, hrow.keys⟩
  have hdigest := digestPlain_settle hP hsearch hcontract (h.digests hfence) now haccepted hfits
  exact h.writeFence (hfenced h) rfl hrow.claimed hdigest
    (fun pk hblock => h.owners hfence (owner_settle hblock))

end

/-! ## The invariant of every run -/

def RunWorker.IsNormalized (x : RunWorker) : Prop :=
  ∃ op ∈ GiteaRunner.operations, Json.find x.normalized "operation" = some (.str op)

structure RunWorker.Ready (x : RunWorker) : Prop where
  procedure : x.context.procedureName = giteaRunnerRegister
  normalized : match x.phase with
    | .prepared | .reserved | .raised _ => x.IsNormalized
    | _ => True

structure RunnerWorld.Sound (w : RunnerWorld) : Prop where
  site : w.site.Sound
  workers : ∀ {pk x}, w.workers pk = some x → w.site.Claimed pk ∧ x.Ready
  keys : ∀ {pk}, w.site.executions pk ≠ none → pk ≤ w.created

theorem RunWorker.Ready.contract {x : RunWorker} (h : x.Ready) (pk : ℕ) :
    (x.call pk).contract = .giteaRunner := by
  rw [RunnerCall.contract, RunWorker.call, h.procedure]
  rfl

def RunWorker.dispatch (x : RunWorker) (pk : ℕ) (hready : x.Ready) (hn : x.IsNormalized) :
    RunnerDispatch where
  toRunnerCall := x.call pk
  operation_mem := by
    rw [hready.contract pk]
    exact hn

section

variable {P : Platform} {w : RunnerWorld} {pk : ℕ} {x : RunWorker}

theorem RunnerWorld.Sound.evolve (h : w.Sound) {site : RunnerSite} (hsite : w.site.Evolves site) :
    { w with site }.Sound where
  site := hsite.sound h.site
  workers := fun hx => ⟨hsite.claimed (h.workers hx).1, (h.workers hx).2⟩
  keys := fun {pk} hne => h.keys (fun hnone => hne ((hsite.keys pk).mpr hnone))

theorem RunnerWorld.Sound.setWorker (h : w.Sound) (hclaimed : w.site.Claimed pk) (hx : x.Ready) :
    (w.setWorker pk x).Sound := by
  refine ⟨h.site, fun {other y} hy => ?_, h.keys⟩
  by_cases hpk : other = pk
  · subst hpk
    rw [workers_setWorker_self] at hy
    cases hy
    exact ⟨hclaimed, hx⟩
  · rw [workers_setWorker_ne w x hpk] at hy
    exact h.workers hy

theorem RunnerWorld.Sound.endRun (h : w.Sound) : (w.endRun pk).Sound := by
  refine ⟨h.site, fun {other y} hy => ?_, h.keys⟩
  by_cases hpk : other = pk
  · subst hpk
    rw [workers_endRun_self] at hy
    cases hy
  · rw [workers_endRun_ne w hpk] at hy
    exact h.workers hy

theorem RunnerWorld.Sound.giveUp (h : w.Sound) (hx : w.workers pk = some x) (e : RPCExecutionError) :
    (w.setWorker pk { x with phase := .failing e }).Sound :=
  h.setWorker (h.workers hx).1 ⟨(h.workers hx).2.procedure, trivial⟩

theorem RunnerWorld.Sound.normalize (h : w.Sound) (hx : w.workers pk = some x) {e : StoredExecution}
    (he : w.site.executions pk = some e) {now : DateTime} {params : Json}
    {facts : Except RPCExecutionError RunnerFacts} {raw : Entries}
    (hraw : normalizeGiteaRunnerRegistrationExecution now w.site params facts = .ok raw) :
    (w.normalize P pk x e raw).Sound := by
  obtain ⟨r, fence, f, hr, hfence, -, -, -, hbound⟩ := normalize_iff.mp hraw
  have hreviewed := reviewed_of_request hr
  have hoperation : Json.find (ledgerNormalizedParams P raw) "operation" = some (.str r.operation) := by
    rw [hbound]
    exact (binds_ledger P f hreviewed (h.site.digests hfence)).operation
  have hsite : w.site.Evolves (w.normalize P pk x e raw).site :=
    RunnerSite.evolves_append he (.of_silent rfl)
  unfold RunnerWorld.normalize at hsite ⊢
  generalize ledgerNormalizedParams P raw = normalized at hsite hoperation ⊢
  exact (h.evolve hsite).setWorker (hsite.claimed (h.workers hx).1)
    ⟨(h.workers hx).2.procedure, r.operation, hreviewed.operation_mem, hoperation⟩

/-- Each step of a live worker keeps the invariant. -/
theorem RunnerWorld.Sound.workerStep (hP : P.Implements RunnerContract.giteaRunner.resultSchema)
    (hsearch : P.ReadsDigests) (h : w.Sound) (hx : w.workers pk = some x) {a : WorkerAction}
    {w' : RunnerWorld} (hstep : w.workerStep P pk x a = some w') : w'.Sound := by
  obtain ⟨hclaimed, hready⟩ := h.workers hx
  have hnormalized := hready.normalized
  cases a with
  | prepare facts =>
    simp only [RunnerWorld.workerStep] at hstep
    split at hstep
    · rename_i e hphase he
      cases hraw : normalizeGiteaRunnerRegistrationExecution w.now w.site x.context.params facts with
      | error e =>
        rw [hraw] at hstep
        cases hstep
        exact h.giveUp hx e
      | ok raw =>
        rw [hraw] at hstep
        cases hstep
        exact h.normalize hx he hraw
    · cases hstep
  | raise e =>
    simp only [RunnerWorld.workerStep] at hstep
    split at hstep
    · cases hstep
      exact h.giveUp hx e
    · cases hstep
      exact h.giveUp hx e
    · cases hstep
  | reserve =>
    simp only [RunnerWorld.workerStep] at hstep
    split at hstep
    · rename_i hphase
      rw [hphase] at hnormalized
      cases hcommit : reserveGiteaRunnerScope P w.now w.site (x.call pk) with
      | error e =>
        rw [hcommit] at hstep
        cases hstep
        exact h.giveUp hx e
      | ok site =>
        rw [hcommit] at hstep
        cases hstep
        have hsite := RunnerSite.evolves_reserve (c := x.dispatch pk hready hnormalized) hcommit hclaimed
        exact (h.evolve hsite).setWorker (hsite.claimed hclaimed) ⟨hready.procedure, hnormalized⟩
    · cases hstep
  | answer loads exchange =>
    simp only [RunnerWorld.workerStep] at hstep
    split at hstep
    · rename_i hphase
      rw [hphase] at hnormalized
      split at hstep
      · rename_i s hs
        cases hstep
        obtain ⟨response, -, hcommit⟩ := exists_of_bind_ok hs
        have hsite := RunnerSite.evolves_record (c := x.dispatch pk hready hnormalized) hP hsearch
          (hready.contract pk) hcommit
        exact (h.evolve hsite).endRun
      · cases hstep
        exact h.setWorker hclaimed ⟨hready.procedure, hnormalized⟩
    · cases hstep
  | block commits =>
    simp only [RunnerWorld.workerStep] at hstep
    split at hstep
    · rename_i e hphase
      rw [hphase] at hnormalized
      cases hstep
      have hsite : w.site.Evolves (if commits then
          blockRunnerScopeAfterFailure P w.now w.site (x.call pk) else w.site) := by
        split_ifs
        · exact RunnerSite.evolves_blockAfterFailure w.now w.site (x.dispatch pk hready hnormalized)
        · exact .refl w.site
      exact (h.evolve hsite).setWorker (hsite.claimed hclaimed) ⟨hready.procedure, trivial⟩
    · cases hstep
  | fail =>
    simp only [RunnerWorld.workerStep] at hstep
    split at hstep
    · cases hstep
      exact (h.evolve (RunnerSite.evolves_failExecution w.now w.site (x.call pk) x.copy _)).endRun
    · cases hstep
  | die =>
    cases hstep
    exact h.endRun

theorem status_executionStarted (e : StoredExecution) (now : DateTime) :
    (appendAndProject P e.context e.ledger.row e.ledger (.executionStarted (.time now))).2.row.status =
      .running := by
  rw [status_appendAndProject_row]
  change (if e.ledger.row.status = .running then e.ledger.row.status else .running) = _
  split_ifs with hsame
  · exact hsame
  · rfl

theorem RunnerWorld.Sound.claim (h : w.Sound) {e : StoredExecution}
    (he : w.site.executions pk = some e) (hrequest : e.isRunnerRequest = true) :
    (w.claim P pk e).Sound := by
  have hrunning : (appendAndProject P e.context e.ledger.row e.ledger
      (.executionStarted (.time w.now))).2.row.status.isClaimed = true := by
    rw [status_executionStarted]
    rfl
  have hsite : w.site.Evolves (w.claim P pk e).site :=
    RunnerSite.evolves_setExecution he (fun _ => hrunning)
  refine (h.evolve hsite).setWorker ⟨_, executions_setExecution_self _ _ _, hrunning⟩ ⟨?_, trivial⟩
  simp only [StoredExecution.isRunnerRequest, Bool.and_eq_true, beq_iff_eq] at hrequest
  exact hrequest.2

/-- A new request takes a key that no execution has. -/
theorem RunnerWorld.Sound.request (h : w.Sound) (e : StoredExecution) :
    RunnerWorld.Sound { w with
      site := w.site.setExecution (w.created + 1) e, created := w.created + 1 } := by
  have hfresh : w.site.executions (w.created + 1) = none := by
    by_contra hne
    have := h.keys hne
    omega
  have hunclaimed : ¬ w.site.Claimed (w.created + 1) := by
    rintro ⟨d, hd, -⟩
    rw [hfresh] at hd
    cases hd
  refine ⟨h.site.setExecution (fun hc => absurd hc hunclaimed), fun {other y} hy => ?_,
    fun {other} hne => ?_⟩
  · obtain ⟨hclaimed, hready⟩ := h.workers hy
    exact ⟨claimed_setExecution (fun hc => absurd hc hunclaimed) hclaimed, hready⟩
  · by_cases hother : other = w.created + 1
    · exact hother.le
    · have hold : w.site.executions other ≠ none := by
        rwa [← executions_setExecution_ne e hother]
      exact (h.keys hold).trans (Nat.le_succ _)

theorem RunnerWorld.Sound.step (hP : P.Implements RunnerContract.giteaRunner.resultSchema)
    (hsearch : P.ReadsDigests) (h : w.Sound) {a : RunnerAction} {w' : RunnerWorld}
    (hstep : w.step P a = some w') : w'.Sound := by
  cases a with
  | tick elapsed =>
    cases hstep
    exact ⟨h.site, h.workers, h.keys⟩
  | request e =>
    simp only [RunnerWorld.step] at hstep
    split_ifs at hstep
    cases hstep
    exact h.request e
  | claim pk =>
    simp only [RunnerWorld.step] at hstep
    split at hstep
    · rename_i e he hnone
      split_ifs at hstep with hrequest
      cases hstep
      exact h.claim he hrequest
    · cases hstep
  | work pk a =>
    obtain ⟨x, hx, hwork⟩ := Option.bind_eq_some_iff.mp hstep
    exact h.workerStep hP hsearch hx hwork

theorem RunnerWorld.sound_seed (now : DateTime) : (RunnerWorld.seed now).Sound := by
  refine ⟨⟨⟨[], FenceWorld.fenced_seed now (fun _ => none)⟩, fun {scope fence} hfence => ?_,
    fun {scope fence pk} hfence hpk => ?_⟩, fun {pk x} hx => ?_, fun {pk} hne => ?_⟩
  · simp only [RunnerWorld.seed, FenceWorld.seed] at hfence
    split_ifs at hfence
    cases hfence
    exact isPlainText_empty
  · simp only [RunnerWorld.seed, FenceWorld.seed] at hfence
    split_ifs at hfence
    cases hfence
    cases hpk
  · cases hx
  · exact absurd rfl hne

theorem RunnerWorld.sound_run (hP : P.Implements RunnerContract.giteaRunner.resultSchema)
    (hsearch : P.ReadsDigests) (now : DateTime) (actions : List RunnerAction) :
    (Transition.run (RunnerWorld.step P) (RunnerWorld.seed now) actions).Sound :=
  Transition.run_invariant (fun _ _ _ hstep h => h.step hP hsearch hstep) actions
    (RunnerWorld.sound_seed now)

end

end NetboxRpc
