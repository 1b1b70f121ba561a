import NetboxRpc.Custody
import NetboxRpc.ScopeFence
import NetboxRpc.Transition

/-!
# Safety of the runner scope fence

Any interleaving of reservations, recorded responses and failure blocks, by any number of
executions, moves each fence row as a custody under fencing generations moves. The row constraints,
the generations and the refusal of stale callers follow.
-/

namespace NetboxRpc

open Custody

structure RunnerDispatch extends RunnerCall where
  operation_mem : ∃ op ∈ toRunnerCall.contract.operations,
    Json.find toRunnerCall.normalized "operation" = some (.str op)

theorem RunnerDispatch.operation_cases (P : Platform) (c : RunnerDispatch) :
    c.operation P = c.contract.startOperation ∨ c.operation P = "reconcile" := by
  obtain ⟨op, hop, hfind⟩ := c.operation_mem
  have htext : op ≠ "" → c.operation P = op := fun hne => by
    simp [RunnerCall.operation, textOr, hfind, Json.truthy, pyStr, hne]
  cases hcontract : c.contract with
  | giteaRunner =>
    rw [hcontract] at hop
    simp only [RunnerContract.operations, GiteaRunner.operations, List.mem_cons, List.not_mem_nil,
      or_false] at hop
    rcases hop with rfl | rfl
    · exact .inr (htext (by decide))
    · exact .inl (htext (by decide))
  | giteaOrgCiRunner =>
    rw [hcontract] at hop
    simp only [RunnerContract.operations, GiteaOrgCiRunner.operations, List.mem_cons,
      List.not_mem_nil, or_false] at hop
    rcases hop with rfl | rfl
    · exact .inl (htext (by decide))
    · exact .inr (htext (by decide))

/-! ## The rows and the reservations they granted -/

structure Reservation where
  scope : String
  generation : ℕ
  pk : ℕ

structure FenceWorld where
  site : RunnerSite
  reservations : List Reservation

inductive FenceAction
  | reserve (c : RunnerDispatch) (now : DateTime)
  | record (c : RunnerDispatch) (copy : ProjectionState) (response : Entries) (now : DateTime)
  | block (c : RunnerDispatch) (now : DateTime)
  /-- Any other transaction on the row or the stream of an execution. -/
  | write (pk : ℕ) (e : StoredExecution)

/-- One committed transaction; a refused one changes nothing. -/
def FenceWorld.step (P : Platform) (w : FenceWorld) : FenceAction → Option FenceWorld
  | .reserve c now => do
    let site ← (reserveGiteaRunnerScope P now w.site c.toRunnerCall).toOption
    let granted := (site.fences (c.canonicalScope P)).map (fun fence =>
      Reservation.mk (c.canonicalScope P) fence.takeoverGeneration c.pk)
    return ⟨site, w.reservations ++ granted.toList⟩
  | .record c copy response now => do
    let s ← (recordGiteaRunnerResponse P now w.site c.toRunnerCall copy response).toOption
    return { w with site := s.1 }
  | .block c now => do
    let site ← (blockGiteaRunnerScope P now w.site c.toRunnerCall).toOption
    return { w with site }
  | .write pk e => some { w with site := w.site.setExecution pk e }

def FenceWorld.reservationsOn (w : FenceWorld) (scope : String) : List Reservation :=
  w.reservations.filter (fun r => r.scope == scope)

def canonicalScopes : List String :=
  ["N-MultiCloud", "emersonfelipesp/netbox-proxbox", "emersonfelipesp/proxbox-api"]

def FenceWorld.seed (now : DateTime) (executions : ℕ → Option StoredExecution) : FenceWorld where
  site := ⟨fun scope => if scope ∈ canonicalScopes then some (ScopeFence.seed now) else none,
    executions⟩
  reservations := []

/-! ## The custody that a row holds -/

def holdingState : Holding ℕ → FenceState
  | .clear => .clear
  | .pending _ => .pending
  | .blocked _ | .contested _ _ => .blocked

def holdingTaker : Holding ℕ → Option ℕ
  | .contested _ taker => some taker
  | _ => none

structure ScopeFence.Represents (fence : ScopeFence) (f : Fenced ℕ) : Prop where
  state : fence.state = holdingState f.holding
  blocking : fence.blockingExecutionId = f.holding.owner
  reconciliation : fence.reconciliationExecutionId = holdingTaker f.holding
  generation : fence.takeoverGeneration = f.generation
  digest : fence.state = .clear → fence.expectedTokenSha256 = ""

section

variable {P : Platform} {now : DateTime} {fence : ScopeFence} {f : Fenced ℕ} {c : RunnerDispatch}

/-- An owner of the row is the holder of the custody. -/
theorem ScopeFence.OwnedBy.holder (h : fence.OwnedBy P c.toRunnerCall) (hf : fence.Represents f) :
    f.holding.holder = some c.pk := by
  have hblocking := hf.blocking
  have hreconciliation := hf.reconciliation
  rcases c.operation_cases P with hop | hop
  · obtain ⟨hpk, hnone⟩ := h.start hop
    rw [hpk] at hblocking
    rw [hnone] at hreconciliation
    cases hholding : f.holding with
    | clear => rw [hholding] at hblocking; cases hblocking
    | pending owner | blocked owner => rw [hholding] at hblocking; exact hblocking.symm
    | contested owner taker => rw [hholding] at hreconciliation; cases hreconciliation
  · rw [h.reconcile hop] at hreconciliation
    cases hholding : f.holding with
    | clear | pending owner | blocked owner => rw [hholding] at hreconciliation; cases hreconciliation
    | contested owner taker => rw [hholding] at hreconciliation; exact hreconciliation.symm

/-- Blocking keeps the owner and ends a contest. -/
theorem ScopeFence.Represents.block (hf : fence.Represents f)
    (h : fence.OwnedBy P c.toRunnerCall) :
    (fence.block (c.operation P) now).Represents { f with holding := f.holding.retained } := by
  have hholder := h.holder hf
  have hnotClear : f.holding ≠ .clear := by
    rintro hclear
    rw [hclear] at hholder
    cases hholder
  have hretained : holdingState f.holding.retained = .blocked ∧
      holdingTaker f.holding.retained = none := by
    cases hholding : f.holding with
    | clear => exact absurd hholding hnotClear
    | pending owner | blocked owner | contested owner taker => exact ⟨rfl, rfl⟩
  refine ⟨hretained.1.symm, ?_, ?_, hf.generation, fun hstate => ?_⟩
  · rw [f.holding.owner_retained]
    exact hf.blocking
  · rw [hretained.2]
    by_cases hop : c.operation P = "reconcile"
    · exact if_pos hop
    · have hstart := (c.operation_cases P).resolve_right hop
      exact (if_neg hop).trans (h.start hstart).2
  · cases hstate

theorem ScopeFence.Represents.settle (now : DateTime) (hf : fence.Represents f)
    (h : fence.OwnedBy P c.toRunnerCall) (result : Entries) :
    ∃ release : Bool, (fence.settle P c.toRunnerCall result now).Represents
      { f with holding := if release then .clear else f.holding.retained } := by
  unfold ScopeFence.settle
  dsimp only
  by_cases hclears : (clearWithoutToken P c.toRunnerCall result || resetProven result) = true
  · refine ⟨true, ?_⟩
    rw [if_pos hclears]
    exact ⟨rfl, rfl, rfl, hf.generation, fun _ => rfl⟩
  · refine ⟨false, ?_⟩
    rw [if_neg hclears]
    have hblock : (fence.block (c.operation P) now).Represents
        { f with holding := f.holding.retained } := hf.block h
    exact ⟨hblock.state, hblock.blocking, hblock.reconciliation, hblock.generation,
      fun hstate => by cases hstate⟩

/-- A start operation acquires a clear custody. -/
theorem ScopeFence.Represents.acquire (now : DateTime) (hf : fence.Represents f) {generation : ℕ}
    (hstate : fence.state = .clear)
    (hnext : generation = fence.takeoverGeneration + 1 ∧ generation ≤ jsSafeIntegerMax) (pk : ℕ) :
    ∃ f', Custody.step jsSafeIntegerMax f (.acquire pk) = some f' ∧ f'.log = f.log ++ [pk] ∧
      (fence.acquire pk generation now).Represents f' := by
  have hclear : f.holding = .clear := by
    have := hf.state
    rw [hstate] at this
    cases hholding : f.holding <;> rw [hholding] at this <;> first | rfl | cases this
  have hgeneration := hf.generation
  have hlt : f.generation < jsSafeIntegerMax := by omega
  refine ⟨⟨.pending pk, f.generation + 1, f.log ++ [pk]⟩, ?_, rfl, ?_⟩
  · simp [Custody.step, hclear, hlt]
  · refine ⟨rfl, rfl, rfl, ?_, fun h => by cases h⟩
    rw [ScopeFence.acquire, hnext.1, hgeneration]

/-- A reconciliation takes over a custody that no other reconciliation contests. -/
theorem ScopeFence.Represents.takeOver (now : DateTime) (hf : fence.Represents f) {generation : ℕ}
    (hstate : fence.state ≠ .clear) (hreconciliation : fence.reconciliationExecutionId = none)
    (hnext : generation = fence.takeoverGeneration + 1 ∧ generation ≤ jsSafeIntegerMax) (pk : ℕ) :
    ∃ f', Custody.step jsSafeIntegerMax f (.takeover pk) = some f' ∧ f'.log = f.log ++ [pk] ∧
      (fence.takeOver pk generation now).Represents f' := by
  have hgeneration := hf.generation
  have hlt : f.generation < jsSafeIntegerMax := by omega
  have htaken : ∀ owner, f.holding.owner = some owner → (fence.takeOver pk generation now).Represents
      ⟨.contested owner pk, f.generation + 1, f.log ++ [pk]⟩ := by
    intro owner howner
    refine ⟨rfl, hf.blocking.trans howner, rfl, ?_, fun h => by cases h⟩
    rw [ScopeFence.takeOver, hnext.1, hgeneration]
  cases hholding : f.holding with
  | clear =>
    have := hf.state
    rw [hholding] at this
    exact absurd this hstate
  | pending owner | blocked owner =>
    refine ⟨⟨.contested owner pk, f.generation + 1, f.log ++ [pk]⟩, ?_, rfl,
      htaken owner (by rw [hholding]; rfl)⟩
    simp [Custody.step, hholding, hlt]
  | contested owner taker =>
    have := hf.reconciliation
    rw [hholding, hreconciliation] at this
    cases this

end

/-! ## Refinement -/

/-- One scope of the world represents a custody, whose log the granted reservations repeat. -/
structure FenceWorld.Represents (w : FenceWorld) (scope : String) (f : Fenced ℕ) : Prop where
  row : ∃ fence, w.site.fences scope = some fence ∧ fence.Represents f
  parties : (w.reservationsOn scope).map Reservation.pk = f.log
  generations : (w.reservationsOn scope).map Reservation.generation = List.range' 1 f.log.length

section

variable {P : Platform} {w w' : FenceWorld} {scope : String} {f : Fenced ℕ}

theorem FenceWorld.Represents.frame (h : w.Represents scope f)
    (hfence : w'.site.fences scope = w.site.fences scope)
    (hreservations : w'.reservationsOn scope = w.reservationsOn scope) : w'.Represents scope f where
  row := hfence ▸ h.row
  parties := hreservations ▸ h.parties
  generations := hreservations ▸ h.generations

theorem fences_setFence_ne {site : RunnerSite} {scope other : String} (fence : ScopeFence)
    (h : scope ≠ other) : (site.setFence other fence).fences scope = site.fences scope :=
  Function.update_of_ne h _ _

@[simp] theorem fences_setFence_self (site : RunnerSite) (scope : String) (fence : ScopeFence) :
    (site.setFence scope fence).fences scope = some fence :=
  Function.update_self _ _ _

/-- A granted reservation is the next entry of the log. -/
theorem FenceWorld.Represents.grant (h : w.Represents scope f) (hsound : Sound jsSafeIntegerMax f)
    {site : RunnerSite} {fence' : ScopeFence} {f' : Fenced ℕ} {pk : ℕ}
    (hrow : site.fences scope = some fence') (hf' : fence'.Represents f')
    (hgeneration : f'.generation = f.generation + 1) (hlog : f'.log = f.log ++ [pk]) :
    FenceWorld.Represents ⟨site, w.reservations ++ [⟨scope, fence'.takeoverGeneration, pk⟩]⟩
      scope f' := by
  have hfilter : FenceWorld.reservationsOn
      ⟨site, w.reservations ++ [⟨scope, fence'.takeoverGeneration, pk⟩]⟩ scope =
        w.reservationsOn scope ++ [⟨scope, fence'.takeoverGeneration, pk⟩] := by
    simp [FenceWorld.reservationsOn]
  have hlength := hsound.log_length
  have hfence := hf'.generation
  refine ⟨⟨fence', hrow, hf'⟩, ?_, ?_⟩
  · rw [hfilter, List.map_append, h.parties, hlog]
    rfl
  · rw [hfilter, List.map_append, h.generations, hlog, List.length_append, List.length_singleton,
      List.range'_concat]
    congr 1
    simp only [List.map_cons, List.map_nil, List.cons.injEq, and_true]
    omega

/-- A committed reservation acquires or takes over the custody that its row represents. -/
theorem Reserved.custody {now : DateTime} {site after : RunnerSite} {c : RunnerCall}
    (h : Reserved P now site c after) :
    ∃ fence taken, site.fences (c.canonicalScope P) = some fence ∧
      after.fences = (site.setFence (c.canonicalScope P) taken).fences ∧
      ∀ f : Fenced ℕ, fence.Represents f → ∃ op f', Custody.step jsSafeIntegerMax f op = some f' ∧
        f'.generation = f.generation + 1 ∧ f'.log = f.log ++ [c.pk] ∧ taken.Represents f' := by
  cases h with
  | @started fence generation hfence hgeneration hop hstate hblocking =>
    have hnext := approvedGeneration_eq_some hgeneration
    refine ⟨fence, _, hfence, rfl, fun f hf => ?_⟩
    obtain ⟨f', hstep, hlog, htaken⟩ := hf.acquire now hstate hnext c.pk
    exact ⟨_, f', hstep, (htaken.generation.symm.trans hnext.1).trans (by rw [hf.generation]), hlog,
      htaken⟩
  | @takenOver fence generation site' hfence hgeneration hop hstate hblocking hreconciliation
      hquiescent hlost =>
    have hnext := approvedGeneration_eq_some hgeneration
    have hfences : site'.fences = site.fences := by
      rcases hlost with ⟨-, hlost⟩ | ⟨-, rfl⟩
      · exact fences_failLostWorker hlost
      · rfl
    refine ⟨fence, fence.takeOver c.pk generation now, hfence, ?_, fun f hf => ?_⟩
    · rw [RunnerSite.setFence, RunnerSite.setFence, hfences]
    obtain ⟨f', hstep, hlog, htaken⟩ := hf.takeOver now hstate hreconciliation hnext c.pk
    exact ⟨_, f', hstep, (htaken.generation.symm.trans hnext.1).trans (by rw [hf.generation]), hlog,
      htaken⟩

/-- Each committed transaction is a step of the custody of its scope and leaves every other scope
alone. -/
theorem FenceWorld.Represents.step {a : FenceAction} (h : w.Represents scope f)
    (hsound : Sound jsSafeIntegerMax f) (hstep : w.step P a = some w') :
    ∃ f', w'.Represents scope f' ∧
      (f' = f ∨ ∃ op, Custody.step jsSafeIntegerMax f op = some f') := by
  obtain ⟨fence, hrow, hf⟩ := h.row
  cases a with
  | write pk e =>
    cases hstep
    exact ⟨f, h.frame rfl rfl, .inl rfl⟩
  | block c now =>
    obtain ⟨site, hcommit, hw⟩ := Option.bind_eq_some_iff.mp hstep
    cases hw
    obtain ⟨fence', hfence', howned, rfl⟩ :=
      blockGiteaRunnerScope_iff.mp (eq_ok_of_toOption hcommit)
    by_cases hscope : scope = c.canonicalScope P
    · subst hscope
      rw [hrow] at hfence'
      cases hfence'
      refine ⟨_, ⟨⟨_, fences_setFence_self _ _ _, hf.block howned⟩, h.parties, h.generations⟩,
        .inr ⟨.settle c.pk f.generation false, ?_⟩⟩
      simp [Custody.step, howned.holder hf]
    · exact ⟨f, h.frame (fences_setFence_ne _ hscope) rfl, .inl rfl⟩
  | record c copy response now =>
    obtain ⟨s, hcommit, hw⟩ := Option.bind_eq_some_iff.mp hstep
    cases hw
    obtain ⟨result, fence', -, -, hfence', howned, -, hrecord⟩ :=
      recordGiteaRunnerResponse_iff.mp (eq_ok_of_toOption hcommit)
    obtain ⟨-, e, events, -, -, hsite, -⟩ := recordBackendResponse_iff.mp hrecord
    have hfences : s.1.fences = (w.site.setFence (c.canonicalScope P)
        (fence'.settle P c.toRunnerCall result now)).fences := by rw [hsite]; rfl
    by_cases hscope : scope = c.canonicalScope P
    · subst hscope
      rw [hrow] at hfence'
      cases hfence'
      obtain ⟨release, hsettled⟩ := hf.settle now howned result
      refine ⟨_, ⟨⟨_, by rw [hfences]; exact fences_setFence_self _ _ _, hsettled⟩, h.parties,
        h.generations⟩, .inr ⟨.settle c.pk f.generation release, ?_⟩⟩
      simp [Custody.step, howned.holder hf]
    · exact ⟨f, h.frame (by rw [hfences]; exact fences_setFence_ne _ hscope) rfl, .inl rfl⟩
  | reserve c now =>
    obtain ⟨site, hcommit, hw⟩ := Option.bind_eq_some_iff.mp hstep
    have hreserved := Reserved.of_reserve (eq_ok_of_toOption hcommit)
    obtain ⟨fence', taken, hfence', hsite, hmove⟩ := hreserved.custody
    cases hw
    have hgranted : (site.fences (c.canonicalScope P)).map (fun fence =>
        Reservation.mk (c.canonicalScope P) fence.takeoverGeneration c.pk) =
          some ⟨c.canonicalScope P, taken.takeoverGeneration, c.pk⟩ := by
      rw [hsite, fences_setFence_self]
      rfl
    rw [hgranted]
    by_cases hscope : scope = c.canonicalScope P
    · subst hscope
      rw [hrow] at hfence'
      cases hfence'
      obtain ⟨op, f', hop, hgeneration, hlog, htaken⟩ := hmove f hf
      exact ⟨f', h.grant hsound (by rw [hsite]; exact fences_setFence_self _ _ _) htaken hgeneration
        hlog, .inr ⟨op, hop⟩⟩
    · refine ⟨f, h.frame (by rw [hsite]; exact fences_setFence_ne _ hscope) ?_, .inl rfl⟩
      simp [FenceWorld.reservationsOn, Ne.symm hscope]

end

/-! ## Whole runs -/

def FenceWorld.Fenced (w : FenceWorld) : Prop :=
  ∀ scope ∈ canonicalScopes, ∃ f, w.Represents scope f ∧ Sound jsSafeIntegerMax f

theorem FenceWorld.Fenced.step {P : Platform} {w w' : FenceWorld} {a : FenceAction}
    (hstep : w.step P a = some w') (h : w.Fenced) : w'.Fenced := by
  intro scope hscope
  obtain ⟨f, hf, hsound⟩ := h scope hscope
  obtain ⟨f', hf', rfl | ⟨op, hop⟩⟩ := hf.step hsound hstep
  · exact ⟨f', hf', hsound⟩
  · exact ⟨f', hf', hsound.step hop⟩

theorem FenceWorld.fenced_seed (now : DateTime) (executions : ℕ → Option StoredExecution) :
    (FenceWorld.seed now executions).Fenced := by
  intro scope hscope
  refine ⟨Custody.fresh, ⟨⟨ScopeFence.seed now, if_pos hscope, ?_⟩, rfl, rfl⟩, Sound.fresh _⟩
  exact ⟨rfl, rfl, rfl, rfl, fun _ => rfl⟩

theorem FenceWorld.fenced_run (P : Platform) (now : DateTime)
    (executions : ℕ → Option StoredExecution) (actions : List FenceAction) :
    (Transition.run (FenceWorld.step P) (FenceWorld.seed now executions) actions).Fenced :=
  Transition.run_invariant (fun _ _ _ hstep h => h.step hstep) actions
    (FenceWorld.fenced_seed now executions)

/-! ## The safety of every committed state -/

structure ScopeFence.Safe (fence : ScopeFence) : Prop where
  clear_iff : fence.state = .clear ↔ fence.blockingExecutionId = none
  clear_digest : fence.state = .clear → fence.expectedTokenSha256 = ""
  reconciling : fence.reconciliationExecutionId ≠ none → fence.state = .blocked
  generation_le : fence.takeoverGeneration ≤ jsSafeIntegerMax

def ScopeFence.owner (fence : ScopeFence) : Option ℕ :=
  fence.reconciliationExecutionId <|> fence.blockingExecutionId

structure FenceWorld.Safe (P : Platform) (w : FenceWorld) : Prop where
  rows : ∀ scope ∈ canonicalScopes, ∃ fence, w.site.fences scope = some fence ∧ fence.Safe
  /-- A reservation takes the next generation. -/
  reserve : ∀ c now w', w.step P (.reserve c now) = some w' → ∃ fence fence',
    w.site.fences (c.canonicalScope P) = some fence ∧
    w'.site.fences (c.canonicalScope P) = some fence' ∧
    fence'.takeoverGeneration = fence.takeoverGeneration + 1 ∧
    fence'.takeoverGeneration ≤ jsSafeIntegerMax
  /-- No generation of a scope was granted twice. -/
  granted : ∀ scope ∈ canonicalScopes, ((w.reservationsOn scope).map Reservation.generation).Nodup
  /-- A caller with another generation, or that does not own the fence, changes no fence. -/
  stale : ∀ (c : RunnerDispatch) fence, w.site.fences (c.canonicalScope P) = some fence →
    ¬ (Json.int fence.takeoverGeneration).PyEq (valueOf c.normalized "fence_generation") ∨
      fence.owner ≠ some c.pk →
    (∀ now, (Transition.next (FenceWorld.step P) w (.block c now)).site.fences = w.site.fences) ∧
    ∀ copy response now, (Transition.next (FenceWorld.step P) w
      (.record c copy response now)).site.fences = w.site.fences

theorem ScopeFence.Represents.safe {fence : ScopeFence} {f : Fenced ℕ} (hf : fence.Represents f)
    (hsound : Sound jsSafeIntegerMax f) : fence.Safe where
  clear_iff := by
    rw [hf.state, hf.blocking]
    cases f.holding <;> simp [holdingState, Holding.owner]
  clear_digest := hf.digest
  reconciling := by
    rw [hf.state, hf.reconciliation]
    cases f.holding <;> simp [holdingState, holdingTaker]
  generation_le := hf.generation ▸ hsound.generation_le

theorem ScopeFence.OwnedBy.owner {P : Platform} {fence : ScopeFence} {c : RunnerDispatch}
    (h : fence.OwnedBy P c.toRunnerCall) : fence.owner = some c.pk := by
  rcases c.operation_cases P with hop | hop
  · obtain ⟨hblocking, hnone⟩ := h.start hop
    rw [ScopeFence.owner, hnone, hblocking]
    rfl
  · rw [ScopeFence.owner, h.reconcile hop]
    rfl

section

variable {P : Platform} {w : FenceWorld} {c : RunnerDispatch} {fence : ScopeFence}

/-- A call that its fence does not own is refused. -/
theorem FenceWorld.refused_of_not_owned (hfence : w.site.fences (c.canonicalScope P) = some fence)
    (hnot : ¬ fence.OwnedBy P c.toRunnerCall) :
    (∀ now, w.step P (.block c now) = none) ∧
      ∀ copy response now, w.step P (.record c copy response now) = none := by
  constructor
  · intro now
    rw [FenceWorld.step, Option.bind_eq_bind, Option.bind_eq_none_iff]
    intro site hcommit
    obtain ⟨fence', hfence', howned, -⟩ := blockGiteaRunnerScope_iff.mp (eq_ok_of_toOption hcommit)
    rw [hfence] at hfence'
    cases hfence'
    exact absurd howned hnot
  · intro copy response now
    rw [FenceWorld.step, Option.bind_eq_bind, Option.bind_eq_none_iff]
    intro s hcommit
    obtain ⟨result, fence', -, -, hfence', howned, -⟩ :=
      recordGiteaRunnerResponse_iff.mp (eq_ok_of_toOption hcommit)
    rw [hfence] at hfence'
    cases hfence'
    exact absurd howned hnot

theorem FenceWorld.step_reserve {w' : FenceWorld} {now : DateTime}
    (hstep : w.step P (.reserve c now) = some w') :
    Reserved P now w.site c.toRunnerCall w'.site := by
  obtain ⟨site, hcommit, hw⟩ := Option.bind_eq_some_iff.mp hstep
  cases hw
  exact Reserved.of_reserve (eq_ok_of_toOption hcommit)

end

theorem Reserved.generation {P : Platform} {now : DateTime} {site after : RunnerSite}
    {c : RunnerCall} (h : Reserved P now site c after) :
    ∃ fence fence', site.fences (c.canonicalScope P) = some fence ∧
      after.fences (c.canonicalScope P) = some fence' ∧
      fence'.takeoverGeneration = fence.takeoverGeneration + 1 ∧
      fence'.takeoverGeneration ≤ jsSafeIntegerMax := by
  cases h with
  | started hfence hgeneration hop hstate hblocking =>
    exact ⟨_, _, hfence, fences_setFence_self _ _ _, approvedGeneration_eq_some hgeneration⟩
  | takenOver hfence hgeneration hop hstate hblocking hreconciliation hquiescent hlost =>
    exact ⟨_, _, hfence, fences_setFence_self _ _ _, approvedGeneration_eq_some hgeneration⟩

/-- Every state that any interleaving of the three transactions commits is safe. -/
theorem scope_fence_safe (P : Platform) (now : DateTime)
    (executions : ℕ → Option StoredExecution) (actions : List FenceAction) :
    (Transition.run (FenceWorld.step P) (FenceWorld.seed now executions) actions).Safe P := by
  have hfenced := FenceWorld.fenced_run P now executions actions
  generalize Transition.run (FenceWorld.step P) (FenceWorld.seed now executions) actions = w at *
  constructor
  · intro scope hscope
    obtain ⟨f, hf, hsound⟩ := hfenced scope hscope
    obtain ⟨fence, hrow, hrep⟩ := hf.row
    exact ⟨fence, hrow, hrep.safe hsound⟩
  · intro c now w' hstep
    exact (FenceWorld.step_reserve hstep).generation
  · intro scope hscope
    obtain ⟨f, hf, -⟩ := hfenced scope hscope
    rw [hf.generations]
    exact List.nodup_range'
  · intro c fence hfence hstale
    have hnot : ¬ fence.OwnedBy P c.toRunnerCall := by
      intro howned
      rcases hstale with hgeneration | howner
      · exact hgeneration howned.generation
      · exact howner howned.owner
    obtain ⟨hblock, hrecord⟩ := FenceWorld.refused_of_not_owned hfence hnot
    refine ⟨fun now => ?_, fun copy response now => ?_⟩
    · rw [Transition.next, hblock]
      rfl
    · rw [Transition.next, hrecord]
      rfl

end NetboxRpc
