import Mathlib

/-!
# The wall clock of a protected exchange

`_protected_backend_wall_clock` in `jobs.py` borrows the process timer from the worker, whose own
deadline may be armed on it. The timer, the handler of `SIGALRM` and the clock are one state. The
statements of the guard take no time; the guarded body takes any.
-/

namespace NetboxRpc

inductive AlarmHandler
  | default
  | ignored
  /-- A Python function of the worker. -/
  | worker (id : ℕ)
  /-- `_deadline_exceeded` of the guard. -/
  | deadlineExceeded
  /-- A handler that was not installed from Python, for which `getsignal` gives `None`. -/
  | foreign
  deriving DecidableEq

/-- `ITIMER_REAL` when armed: the time of its first alarm and the distance of the following ones. -/
structure AlarmTimer (τ : Type) where
  first : τ
  interval : τ
  deriving DecidableEq

structure AlarmState (τ : Type) where
  now : τ
  handler : AlarmHandler
  timer : Option (AlarmTimer τ)
  /-- The alarms so far in order, each with the handler that received it. -/
  delivered : List (τ × AlarmHandler)

inductive GuardResult
  | returned
  | wallClockError
  | bodyRaised
  | typeError
  deriving DecidableEq

variable {τ : Type} [CommRing τ] [LinearOrder τ] [IsStrictOrderedRing τ]

/-- What a guarded body does: the time it takes by itself, whether it ends with an exception of its
own, and the time it still takes once an alarm has interrupted it. -/
structure GuardedBody (τ : Type) [Zero τ] [LE τ] where
  work : τ
  raises : Bool
  cleanup : τ
  work_nonneg : 0 ≤ work
  cleanup_nonneg : 0 ≤ cleanup

namespace AlarmState

def getitimer (s : AlarmState τ) : τ × τ :=
  match s.timer with
  | none => (0, 0)
  | some t => (t.first - s.now, t.interval)

def setitimer (s : AlarmState τ) (seconds interval : τ) : AlarmState τ :=
  { s with timer := if seconds = 0 then none else some ⟨s.now + seconds, interval⟩ }

/-- The first alarm while the body is running interrupts it. A timer without an interval is then
disarmed. -/
def runBody (s : AlarmState τ) (body : GuardedBody τ) : AlarmState τ × GuardResult :=
  let finished := if body.raises then GuardResult.bodyRaised else .returned
  match s.timer with
  | none => ({ s with now := s.now + body.work }, finished)
  | some t =>
    if s.now + body.work < t.first then ({ s with now := s.now + body.work }, finished)
    else
      ({ s with
          now := t.first + body.cleanup
          timer := if t.interval = 0 then none else some t
          delivered := s.delivered ++ [(t.first, s.handler)] }, .bodyRaised)

def protectedBackendWallClock (s : AlarmState τ) (mainThread : Bool) (deadline : τ)
    (body : GuardedBody τ) : AlarmState τ × GuardResult :=
  let remaining := deadline - s.now
  if !mainThread || decide (remaining ≤ 0) then (s, .wallClockError)
  else
    let (previousRemaining, previousInterval) := s.getitimer
    if 0 < previousRemaining ∧ previousRemaining ≤ remaining then
      -- The worker's own deadline is the tighter one and stays in place.
      let (after, result) := s.runBody body
      (after, if result = .returned ∧ deadline ≤ after.now then .wallClockError else result)
    else
      let started := deadline - remaining
      let armed := { s with handler := .deadlineExceeded }.setitimer remaining 0
      let (left, result) := armed.runBody body
      let elapsed := left.now - started
      let disarmed := left.setitimer 0 0
      if s.handler = .foreign then (disarmed, .typeError)
      else
        let restored := { disarmed with handler := s.handler }
        let result := if deadline ≤ left.now then .wallClockError else result
        if elapsed < previousRemaining then
          (restored.setitimer (previousRemaining - elapsed) previousInterval, result)
        else (restored, result)

/-- The worker's timer after the guard: its handler is back, and the alarm is armed for its time or,
once that has passed, has been delivered or still will be. -/
structure OuterKept (before : AlarmState τ) (outer : AlarmTimer τ) (after : AlarmState τ) : Prop where
  handler : after.handler = before.handler
  ahead : after.now < outer.first → after.timer = some outer
  passed : outer.first ≤ after.now →
    (outer.first, before.handler) ∈ after.delivered.drop before.delivered.length ∨
      after.timer.isSome

/-- The guard takes the timer over and the worker's alarm falls into the cleanup after its own, or
the handler cannot be put back. -/
def AlarmLost (before : AlarmState τ) (outer : AlarmTimer τ) (mainThread : Bool) (deadline : τ)
    (body : GuardedBody τ) : Prop :=
  mainThread = true ∧ before.now < deadline ∧ deadline < outer.first ∧
    (before.handler = .foreign ∨
      deadline ≤ before.now + body.work ∧ outer.first ≤ deadline + body.cleanup)

section Branches

variable {s : AlarmState τ} {outer : AlarmTimer τ} {deadline : τ} {body : GuardedBody τ}

theorem runBody_keeps (htimer : s.timer = some outer) : OuterKept s outer (s.runBody body).1 := by
  simp only [runBody, htimer]
  by_cases hearly : s.now + body.work < outer.first
  · rw [if_pos hearly]
    exact ⟨rfl, fun _ => rfl, fun hpassed => absurd hearly (not_lt.mpr hpassed)⟩
  · rw [if_neg hearly]
    have hcleanup := body.cleanup_nonneg
    refine ⟨rfl, fun hahead => ?_, fun _ => .inl (by simp)⟩
    have hafter : outer.first + body.cleanup < outer.first := hahead
    linarith

def exitTime (s : AlarmState τ) (deadline : τ) (body : GuardedBody τ) : τ :=
  if s.now + body.work < deadline then s.now + body.work else deadline + body.cleanup

def ownAlarms (s : AlarmState τ) (deadline : τ) (body : GuardedBody τ) : List (τ × AlarmHandler) :=
  if s.now + body.work < deadline then [] else [(deadline, .deadlineExceeded)]

/-- The state in which the guard that has taken the timer over leaves the process. -/
theorem wallClock_takenOver (htimer : s.timer = some outer) (hopen : s.now < deadline)
    (hlater : deadline < outer.first) :
    (s.protectedBackendWallClock true deadline body).1 =
      { now := exitTime s deadline body
        handler := if s.handler = .foreign then .deadlineExceeded else s.handler
        timer := if s.handler ≠ .foreign ∧ exitTime s deadline body < outer.first then some outer
          else none
        delivered := s.delivered ++ ownAlarms s deadline body } := by
  have hremaining : ¬ deadline - s.now ≤ 0 := by linarith
  have htaken : ¬ (0 < outer.first - s.now ∧ outer.first - s.now ≤ deadline - s.now) := by
    rintro ⟨-, hle⟩
    linarith
  have harmed : s.now + (deadline - s.now) = deadline := by ring
  have hstarted : deadline - (deadline - s.now) = s.now := by ring
  have hnonzero : deadline - s.now ≠ 0 := fun hzero => hremaining hzero.le
  -- What the body leaves behind, whichever way it ends.
  have hleft : (({ s with handler := .deadlineExceeded }.setitimer (deadline - s.now) 0).runBody
      body).1.setitimer 0 0 =
        { now := exitTime s deadline body, handler := .deadlineExceeded, timer := none,
          delivered := s.delivered ++ ownAlarms s deadline body } := by
    simp only [setitimer, runBody, if_neg hnonzero, harmed, exitTime, ownAlarms]
    split_ifs <;> simp
  have hnow : (({ s with handler := .deadlineExceeded }.setitimer (deadline - s.now) 0).runBody
      body).1.now = exitTime s deadline body := congrArg AlarmState.now hleft
  rw [htimer] at hleft hnow
  simp only [protectedBackendWallClock, getitimer, htimer, hremaining, decide_false, Bool.not_true,
    Bool.or_self, Bool.false_eq_true, if_false, htaken, hleft, hnow, hstarted]
  by_cases hforeign : s.handler = .foreign
  · simp [hforeign]
  simp only [hforeign, if_false, not_false_eq_true, ne_eq, true_and]
  by_cases hahead : exitTime s deadline body < outer.first
  · have helapsed : exitTime s deadline body - s.now < outer.first - s.now := by linarith
    have hrearmed : exitTime s deadline body +
        (outer.first - s.now - (exitTime s deadline body - s.now)) = outer.first := by ring
    have hleftover : outer.first - s.now - (exitTime s deadline body - s.now) ≠ 0 := by
      intro hzero
      linarith
    simp only [if_pos helapsed, if_pos hahead, setitimer, if_neg hleftover, hrearmed]
  · have helapsed : ¬ exitTime s deadline body - s.now < outer.first - s.now := by linarith
    simp only [if_neg helapsed, if_neg hahead]

end Branches

end AlarmState

open AlarmState in
/-- The worker's deadline survives a guarded exchange exactly when its alarm does not fall into the
cleanup after the guard's own and its handler can be put back. -/
theorem outer_deadline_kept_iff (s : AlarmState τ) (outer : AlarmTimer τ) (mainThread : Bool)
    (deadline : τ) (body : GuardedBody τ) (htimer : s.timer = some outer)
    (harmed : s.now < outer.first) :
    OuterKept s outer (s.protectedBackendWallClock mainThread deadline body).1 ↔
      ¬ AlarmLost s outer mainThread deadline body := by
  -- A guard that refuses leaves everything as it was.
  by_cases hrefused : mainThread = false ∨ deadline ≤ s.now
  · have hstate : (s.protectedBackendWallClock mainThread deadline body).1 = s := by
      have hcond : (!mainThread || decide (deadline - s.now ≤ 0)) = true := by
        rcases hrefused with rfl | hpast
        · rfl
        · simp [hpast]
      simp only [protectedBackendWallClock, hcond, if_true]
    rw [hstate]
    refine iff_of_true ⟨rfl, fun _ => htimer, fun hpassed => absurd harmed (not_lt.mpr hpassed)⟩ ?_
    rintro ⟨rfl, hopen, -⟩
    rcases hrefused with hfalse | hpast
    · cases hfalse
    · exact absurd hopen (not_lt.mpr hpast)
  obtain ⟨hmain, hopen⟩ := not_or.mp hrefused
  rw [Bool.not_eq_false] at hmain
  subst hmain
  rw [not_le] at hopen
  by_cases hlater : deadline < outer.first
  · rw [wallClock_takenOver htimer hopen hlater]
    have hwork := body.work_nonneg
    have hcleanup := body.cleanup_nonneg
    constructor
    · rintro hkept ⟨-, -, -, hforeign | ⟨hinterrupted, hpassed⟩⟩
      · have hhandler := hkept.handler
        rw [hforeign] at hhandler
        cases hhandler
      · have hexit : exitTime s deadline body = deadline + body.cleanup :=
          if_neg (not_lt.mpr hinterrupted)
        have hgone := hkept.passed (by rw [hexit]; exact hpassed)
        have hunarmed : ¬ (s.handler ≠ .foreign ∧ deadline + body.cleanup < outer.first) :=
          fun hboth => absurd hboth.2 (not_lt.mpr hpassed)
        simp only [hexit, if_neg hunarmed, ownAlarms, if_neg (not_lt.mpr hinterrupted),
          List.drop_left, List.mem_singleton, Prod.mk.injEq, Option.isSome_none,
          Bool.false_eq_true, or_false] at hgone
        exact absurd hgone.1 hlater.ne'
    · intro hlost
      have hforeign : s.handler ≠ .foreign := fun h => hlost ⟨rfl, hopen, hlater, .inl h⟩
      have hexit : exitTime s deadline body < outer.first := by
        rw [exitTime]
        split_ifs with hearly
        · linarith
        · by_contra hpassed
          exact hlost ⟨rfl, hopen, hlater, .inr ⟨not_lt.mp hearly, not_lt.mp hpassed⟩⟩
      exact ⟨if_neg hforeign, fun _ => if_pos ⟨hforeign, hexit⟩,
        fun hpassed => absurd hexit (not_lt.mpr hpassed)⟩
  · -- The worker's deadline comes first: the guard leaves the timer alone.
    have hstate : (s.protectedBackendWallClock true deadline body).1 = (s.runBody body).1 := by
      have hyields : 0 < outer.first - s.now ∧ outer.first - s.now ≤ deadline - s.now :=
        ⟨by linarith, by linarith⟩
      have hremaining : ¬ deadline - s.now ≤ 0 := by linarith
      simp only [protectedBackendWallClock, getitimer, htimer, hremaining, decide_false,
        Bool.not_true, Bool.or_self, Bool.false_eq_true, if_false, hyields, and_self, if_true]
    rw [hstate]
    exact iff_of_true (runBody_keeps htimer) (fun hlost => hlater hlost.2.2.1)

/-- A worker's deadline at 3, a guard until 2 around a body that is done at 1. -/
theorem outer_deadline_kept_iff_early :
    AlarmState.OuterKept ⟨0, .worker 1, some ⟨3, 0⟩, []⟩ (⟨3, 0⟩ : AlarmTimer ℚ)
      ((⟨0, .worker 1, some ⟨3, 0⟩, []⟩ : AlarmState ℚ).protectedBackendWallClock true 2
        ⟨1, false, 0, by norm_num, by norm_num⟩).1 := by
  refine (outer_deadline_kept_iff _ ⟨3, 0⟩ true 2 ⟨1, false, 0, by norm_num, by norm_num⟩ rfl
    (by norm_num)).mpr ?_
  rintro ⟨-, -, -, hforeign | ⟨hinterrupted, -⟩⟩
  · cases hforeign
  · norm_num at hinterrupted

/-- A worker's deadline at 3, a guard until 1, and a body that cleans up until 6 after the guard's
alarm: the worker's alarm is neither delivered nor armed. -/
theorem alarm_in_cleanup_lost :
    let before : AlarmState ℚ := ⟨0, .worker 1, some ⟨3, 0⟩, []⟩
    let after := (before.protectedBackendWallClock true 1
      ⟨2, false, 5, by norm_num, by norm_num⟩).1
    3 ≤ after.now ∧ after.delivered = [(1, .deadlineExceeded)] ∧ after.timer = none := by
  intro before after
  have hafter := @AlarmState.wallClock_takenOver ℚ _ _ _ before ⟨3, 0⟩ 1
    ⟨2, false, 5, by norm_num, by norm_num⟩ rfl (by norm_num [before]) (by norm_num)
  have hexit : AlarmState.exitTime before 1 ⟨2, false, 5, by norm_num, by norm_num⟩ = 6 := by
    norm_num [AlarmState.exitTime, before]
  change after = _ at hafter
  rw [hafter, hexit]
  norm_num [AlarmState.ownAlarms, before]

end NetboxRpc
