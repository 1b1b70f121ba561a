import Mathlib.Data.Rat.Floor
import NetboxRpc.Events

/-!
# The worker's deadline and the HTTP timeouts

`create_execution` stamps the procedure's `timeout_seconds` into the parameters. The RQ
`job_timeout` comes from that stamp, at creation or when a protected execution is approved, and so
do the HTTP timeouts at dispatch, unless the stamp is not positive.
-/

namespace NetboxRpc

def rpcJobTimeoutHeadroomSeconds : ℤ := 60

def rpcJobTimeoutFloorSeconds : ℤ := 600

def timeoutSecondsSnapshotParamKey : String := "_timeout_seconds_snapshot"

def truncate (q : ℚ) : ℤ := if 0 ≤ q then ⌊q⌋ else ⌈q⌉

def executionJobTimeout (timeoutSeconds : ℚ) : ℤ :=
  max (truncate timeoutSeconds + rpcJobTimeoutHeadroomSeconds) rpcJobTimeoutFloorSeconds

/-- The number of a value that is an `int` or a `float`, to which the booleans belong. -/
def number? : Json → Option ℚ
  | .bool b => some (if b then 1 else 0)
  | .int n => some n
  | .float q => some q
  | _ => none

/-- What bears on the timeouts of an execution: the procedure's column, which an operator may edit,
the stored parameters, and the `job_timeout` of its RQ job once there is one. -/
structure TimedExecution where
  procedureTimeout : ℕ
  params : Entries
  jobTimeout : Option ℤ

def TimedExecution.create (isProtected : Bool) (timeoutSeconds : ℕ) (params : Entries) :
    TimedExecution where
  procedureTimeout := timeoutSeconds
  params := Json.set params timeoutSecondsSnapshotParamKey (.int timeoutSeconds)
  jobTimeout := if isProtected then none else some (executionJobTimeout timeoutSeconds)

inductive TimeoutStep
  /-- An operator edits `timeout_seconds` of the procedure. -/
  | edit (timeoutSeconds : ℕ)
  /-- `_approve_protected_execution` enqueues the execution. -/
  | approve

def TimedExecution.snapshot (x : TimedExecution) : Option ℚ :=
  match Json.find x.params timeoutSecondsSnapshotParamKey with
  | none => some x.procedureTimeout
  | some v => number? v

def TimedExecution.step (x : TimedExecution) : TimeoutStep → TimedExecution
  | .edit timeoutSeconds => { x with procedureTimeout := timeoutSeconds }
  | .approve => { x with jobTimeout := x.snapshot.map executionJobTimeout }

def TimedExecution.run (x : TimedExecution) (steps : List TimeoutStep) : TimedExecution :=
  steps.foldl TimedExecution.step x

def TimedExecution.resolveBackendTimeoutSeconds (x : TimedExecution) : ℚ :=
  match (Json.find x.params timeoutSecondsSnapshotParamKey).bind number? with
  | some timeoutSeconds => if timeoutSeconds ≤ 0 then x.procedureTimeout else timeoutSeconds
  | none => x.procedureTimeout

/-- The connect and read timeouts of `_build_backend_request_plan`; `limits` holds the route budget
of a transport with fixed response limits. -/
def requestTimeouts (limits : Option ℚ) (timeoutSeconds : ℚ) : ℚ × ℚ :=
  match limits with
  | none => (10, max (timeoutSeconds + 10) 30)
  | some budget => (min 10 budget, max 1 (budget - min 10 budget))

/-! ## What a run keeps -/

/-- The stamp is the value at creation, and a job has the deadline that belongs to it. -/
structure TimedExecution.Stamped (timeoutSeconds : ℕ) (x : TimedExecution) : Prop where
  stamp : Json.find x.params timeoutSecondsSnapshotParamKey = some (.int timeoutSeconds)
  job : ∀ job, x.jobTimeout = some job → job = executionJobTimeout timeoutSeconds

theorem TimedExecution.stamped_create (isProtected : Bool) (timeoutSeconds : ℕ) (params : Entries) :
    (create isProtected timeoutSeconds params).Stamped timeoutSeconds where
  stamp := Json.find_set params timeoutSecondsSnapshotParamKey (.int timeoutSeconds)
  job := by
    intro job hjob
    cases isProtected with
    | true => cases hjob
    | false =>
      cases hjob
      rfl

theorem TimedExecution.Stamped.step {timeoutSeconds : ℕ} {x : TimedExecution}
    (h : x.Stamped timeoutSeconds) (s : TimeoutStep) : (x.step s).Stamped timeoutSeconds := by
  cases s with
  | edit edited => exact ⟨h.stamp, h.job⟩
  | approve =>
    refine ⟨h.stamp, fun job hjob => ?_⟩
    have hsnapshot : x.snapshot = some (timeoutSeconds : ℚ) := by
      rw [snapshot, h.stamp]
      simp [number?]
    simp only [TimedExecution.step, hsnapshot, Option.map_some, Option.some.injEq] at hjob
    exact hjob.symm

theorem TimedExecution.Stamped.run {timeoutSeconds : ℕ} {x : TimedExecution}
    (h : x.Stamped timeoutSeconds) (steps : List TimeoutStep) :
    (x.run steps).Stamped timeoutSeconds := by
  induction steps generalizing x with
  | nil => exact h
  | cons s steps ih => exact ih (h.step s)

theorem executionJobTimeout_natCast (timeoutSeconds : ℕ) :
    executionJobTimeout timeoutSeconds = max ((timeoutSeconds : ℤ) + 60) 600 := by
  rw [executionJobTimeout, truncate, if_pos (Nat.cast_nonneg _), Int.floor_natCast]
  rfl

theorem TimedExecution.Stamped.resolve {timeoutSeconds : ℕ} {x : TimedExecution}
    (h : x.Stamped timeoutSeconds) :
    x.resolveBackendTimeoutSeconds =
      if timeoutSeconds = 0 then (x.procedureTimeout : ℚ) else timeoutSeconds := by
  have hpositive : (timeoutSeconds : ℚ) ≤ 0 ↔ timeoutSeconds = 0 := by
    rw [Nat.cast_nonpos]
  rw [resolveBackendTimeoutSeconds, h.stamp]
  simp only [Option.bind_some, number?, Int.cast_natCast, hpositive]

/-- The worker outlives connecting and reading exactly when the procedure had a positive timeout at
creation or has one below 580 seconds at dispatch. -/
theorem job_timeout_covers_http_iff (isProtected : Bool) (timeoutSeconds : ℕ) (params : Entries)
    (steps : List TimeoutStep) (job : ℤ)
    (hjob : ((TimedExecution.create isProtected timeoutSeconds params).run steps).jobTimeout =
      some job) :
    let x := (TimedExecution.create isProtected timeoutSeconds params).run steps
    let timeouts := requestTimeouts none x.resolveBackendTimeoutSeconds
    timeouts.1 + timeouts.2 < job ↔ 0 < timeoutSeconds ∨ x.procedureTimeout < 580 := by
  intro x timeouts
  have hstamped : x.Stamped timeoutSeconds :=
    (TimedExecution.stamped_create isProtected timeoutSeconds params).run steps
  have hdeadline := hstamped.job job hjob
  rw [executionJobTimeout_natCast] at hdeadline
  -- All numbers are whole, so the comparison can be made in the integers.
  have hwhole : ∀ n : ℕ, (10 : ℚ) + max ((n : ℚ) + 10) 30 < (job : ℚ) ↔
      (10 : ℤ) + max ((n : ℤ) + 10) 30 < job := by
    intro n
    exact_mod_cast Iff.rfl
  simp only [timeouts, requestTimeouts, hstamped.resolve]
  by_cases hzero : timeoutSeconds = 0
  · rw [if_pos hzero, hwhole, hdeadline]
    omega
  · rw [if_neg hzero, hwhole, hdeadline]
    omega

theorem job_timeout_covers_http_iff_long :
    let x := (TimedExecution.create false 7200 []).run [.edit 9000]
    let timeouts := requestTimeouts none x.resolveBackendTimeoutSeconds
    timeouts.1 + timeouts.2 < (7260 : ℤ) :=
  (job_timeout_covers_http_iff false 7200 [] [.edit 9000] 7260 (by
    rw [show ((TimedExecution.create false 7200 []).run [.edit 9000]).jobTimeout =
      some (executionJobTimeout (7200 : ℕ)) from rfl, executionJobTimeout_natCast]
    rfl)).mpr (.inl (by decide))

/-- A procedure created with timeout zero and edited to an hour before dispatch: the job is killed
after 600 seconds, the read may take 3610. -/
theorem zero_timeout_outlives_job :
    let x := (TimedExecution.create false 0 []).run [.edit 3600]
    x.jobTimeout = some 600 ∧
      ¬ (requestTimeouts none x.resolveBackendTimeoutSeconds).1 +
        (requestTimeouts none x.resolveBackendTimeoutSeconds).2 < (600 : ℤ) := by
  intro x
  have hstamped : x.Stamped 0 := (TimedExecution.stamped_create false 0 []).run [.edit 3600]
  constructor
  · rw [show x.jobTimeout = some (executionJobTimeout (0 : ℕ)) from rfl, executionJobTimeout_natCast]
    rfl
  · rw [hstamped.resolve, if_pos rfl]
    norm_num [requestTimeouts, show x.procedureTimeout = 3600 from rfl]

end NetboxRpc
