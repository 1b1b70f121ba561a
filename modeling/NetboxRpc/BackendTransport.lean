import NetboxRpc.ScopeFence

/-!
# The backend exchange of a runner procedure

`_call_backend` in `jobs.py` for the runner transport: the request, the HTTP status, the bounded
read, the closed envelope and the wall-clock guard around all of them. What the network, the clock
and the signal handler do is an `Exchange`.
-/

namespace NetboxRpc

/-! ## The bounded read -/

inductive ReadFailure
  /-- A `ValueError` or a `RequestException`: over a limit, cut short, encoded, not JSON. -/
  | rejected
  /-- The wall-clock error, alone or behind the exception that was raised. -/
  | expired
  /-- Any other exception. -/
  | raised (e : RPCExecutionError)

inductive StreamItem
  | chunk (bytes : List UInt8)
  | nonBytes
  | fails (f : ReadFailure)

structure HttpResponse where
  status : ℕ
  contentEncoding : String
  contentLength : Option String
  stream : List StreamItem

def readExtra (body : List UInt8) : List StreamItem → Except ReadFailure (List UInt8)
  | [] | .chunk [] :: _ => .ok body
  | .chunk (_ :: _) :: _ | .nonBytes :: _ => .error .rejected
  | .fails f :: _ => .error f

def readChunks (maxBytes : ℕ) (expected : Option ℕ) :
    List StreamItem → List UInt8 → Except ReadFailure (List UInt8)
  | [], body => .ok body
  | item :: rest, body =>
    if expected.any (· ≤ body.length) then .ok body
    else match item with
      | .fails f => .error f
      | .nonBytes => .error .rejected
      | .chunk [] => readChunks maxBytes expected rest body
      | .chunk (b :: bs) =>
        if maxBytes < body.length + (bs.length + 1) then .error .rejected
        else if expected = none ∧ body.length + (bs.length + 1) = maxBytes then
          readExtra (body ++ b :: bs) rest
        else readChunks maxBytes expected rest (body ++ b :: bs)

def decimalValue (text : String) : ℕ :=
  text.toList.foldl (fun n c => 10 * n + (c.toNat - '0'.toNat)) 0

def isAsciiDecimal (text : String) : Bool :=
  !text.toList.isEmpty && text.toList.all (fun c => decide ('0' ≤ c) && decide (c ≤ '9'))

/-- `_read_bounded_json_response`, with `loads` for `json.loads`. -/
def readBoundedJsonResponse (loads : List UInt8 → Except ReadFailure Json) (maxBytes : ℕ)
    (r : HttpResponse) : Except ReadFailure Json :=
  if lower r.contentEncoding ≠ [] ∧ lower r.contentEncoding ≠ "identity".toList then
    .error .rejected
  else if r.contentLength.any (fun text => !isAsciiDecimal text || maxBytes < decimalValue text) then
    .error .rejected
  else do
    let expected := r.contentLength.map decimalValue
    let body ← readChunks maxBytes expected r.stream []
    if expected.any (· ≠ body.length) then .error .rejected
    else if body = [] then .error .rejected
    else loads body

/-! ## Closed envelopes -/

structure TransportPolicy where
  params : Entries
  normalized : Entries

section

variable (P : Platform)

def TransportPolicy.operation (p : TransportPolicy) : String :=
  textOr P p.params "operation" "register"

def TransportPolicy.runnerScope (p : TransportPolicy) : String := textOr P p.params "scope" ""

def isSafePositive : Json → Bool
  | .int n => decide (0 < n) && decide (n ≤ jsSafeIntegerMax)
  | _ => false

def isHexDigest : Json → Bool
  | .str s => s.length == 64 && s.toList.all isHexDigit
  | _ => false

def giteaRunnerTransportFailureResponse (p : TransportPolicy) (stage : String) : Entries :=
  let operation := if p.operation P ∈ GiteaRunner.operations then p.operation P else "register"
  let stage := if operation = "reconcile" ∧ stage = "generate_token" then "reconcile" else stage
  let indeterminate : Bool := stage = "indeterminate"
  let scope := if p.runnerScope P ∈ GiteaRunner.scopes then p.runnerScope P else "netbox-proxbox"
  let owner := valueOf p.normalized "fence_execution_id"
  let owner := if isSafePositive owner then owner else .null
  let generation := valueOf p.normalized "fence_generation"
  let generation := if isSafePositive generation then generation else .int 1
  let digest := valueOf p.normalized "fence_expected_sha256"
  let digest := if isHexDigest digest then digest else .str fenceUnknownSha256
  let common : Entries := [("ok", .bool false), ("procedure", .str giteaRunnerRegister),
    ("target", .str GiteaRunner.runnerTargetName), ("operation", .str operation),
    ("scope", .str scope), ("fence_execution_id", owner), ("fence_generation", generation)]
  let outcome : Entries := if operation = "reconcile" then
      [("registered", .null), ("reconciled", .bool false), ("token_invalidated", .bool false),
        ("token_reset_required", .bool true), ("token_sha256", digest),
        ("reset_state", .str "indeterminate")]
    else
      [("registered", if indeterminate then .null else .bool false), ("reconciled", .null),
        ("token_invalidated", .bool false), ("token_reset_required", .bool indeterminate),
        ("token_sha256", .null),
        ("reset_state", .str (if indeterminate then "indeterminate" else "not_started"))]
  [("ok", .bool false), ("result", .obj (common ++ outcome ++ [("prior_token_id", .null),
    ("prior_active_sha256", .null), ("replacement_token_id", .null), ("stage", .str stage)]))]

def envelopeNames : List String := ["ok", "result", "events", "error_code", "error_message"]

def normalizeGiteaRunnerClosedResponse (p : TransportPolicy) (data : Json) : Option Entries :=
  match data with
  | .obj entries =>
    match Json.find entries "ok", Json.find entries "result", Json.find entries "error_code",
      Json.find entries "error_message" with
    | some (.bool ok), some (.obj result), some (.str code), some (.str message) =>
      if entries.all (fun e => envelopeNames.contains e.1) = true ∧
          Json.find result "ok" = some (.bool ok) ∧
          (valueOf result "operation").PyEq (.str (p.operation P)) ∧
          (valueOf result "scope").PyEq (.str (p.runnerScope P)) ∧
          (valueOf result "fence_execution_id").PyEq (valueOf p.normalized "fence_execution_id") ∧
          (valueOf result "fence_generation").PyEq (valueOf p.normalized "fence_generation") ∧
          Json.find entries "events" = some (.arr []) ∧
          (ok = true → code = "" ∧ message = "") ∧
          P.schemaError RunnerContract.giteaRunner.resultSchema (.obj result) = none then
        some [("ok", .bool ok), ("result", .obj result)]
      else none
    | _, _, _, _ => none
  | _ => none

/-- `_normalize_gitea_runner_backend_response`: a success needs a success status. -/
def normalizeGiteaRunnerBackendResponse (p : TransportPolicy) (status : ℕ) (data : Json) :
    Entries :=
  match normalizeGiteaRunnerClosedResponse P p data with
  | some normalized =>
    if 200 ≤ status ∧ status < 300 ∨ Json.find normalized "ok" = some (.bool false) then normalized
    else giteaRunnerTransportFailureResponse P p "indeterminate"
  | none => giteaRunnerTransportFailureResponse P p "indeterminate"

/-! ## The call -/

inductive PostOutcome
  /-- A `RequestException`, which `expired` says the wall-clock error is behind. -/
  | requestException (connectTimeout expired : Bool)
  /-- The alarm went off. -/
  | expired
  /-- Any other exception. -/
  | raised (e : RPCExecutionError)
  | response (r : HttpResponse)

/-- One protected exchange: whether the guard let it start, how the request ended, and whether the
deadline had passed when the body of the guard finished. -/
structure Exchange where
  admitted : Bool
  post : PostOutcome
  late : Bool

def backendResponseMaxBytes : ℕ := 4096

/-- `_call_backend_with_plan`; the error `none` is the wall-clock error. -/
def callBackendWithPlan (loads : List UInt8 → Except ReadFailure Json) (p : TransportPolicy) :
    PostOutcome → Except (Option RPCExecutionError) Entries
  | .requestException _ true | .expired => .error none
  | .requestException true false => .ok (giteaRunnerTransportFailureResponse P p "generate_token")
  | .requestException false false => .ok (giteaRunnerTransportFailureResponse P p "indeterminate")
  | .raised e => .error (some e)
  | .response r =>
    if 300 ≤ r.status ∧ r.status < 400 then
      .ok (giteaRunnerTransportFailureResponse P p "indeterminate")
    else match readBoundedJsonResponse loads backendResponseMaxBytes r with
      | .ok data => .ok (normalizeGiteaRunnerBackendResponse P p r.status data)
      | .error .rejected => .ok (giteaRunnerTransportFailureResponse P p "indeterminate")
      | .error .expired => .error none
      | .error (.raised e) => .error (some e)

def callBackend (loads : List UInt8 → Except ReadFailure Json) (p : TransportPolicy)
    (x : Exchange) : Except RPCExecutionError Entries :=
  let expired := giteaRunnerTransportFailureResponse P p "indeterminate"
  if !x.admitted then .ok expired
  else match callBackendWithPlan P loads p x.post with
    | .ok response => .ok (if x.late then expired else response)
    | .error none => .ok expired
    | .error (some e) => .error e

/-! ## The end of a run -/

def resolveBackendTransportPolicy (c : RunnerCall) (copy : ProjectionState) : TransportPolicy where
  params := match c.context.params with
    | .obj entries => entries
    | _ => []
  normalized := copy.normalizedParams

/-- `aggregate.fail`, which a terminal instance refuses. -/
def failExecution (now : DateTime) (site : RunnerSite) (c : RunnerCall) (copy : ProjectionState)
    (e : RPCExecutionError) : RunnerSite :=
  match site.executions c.pk with
  | some x =>
    if copy.status.isTerminal then site
    else site.setExecution c.pk { x with ledger := (appendAndProject P c.context copy x.ledger
      (.executionFailed e.message e.code (.time now) [])).2 }
  | none => site

/-- `_block_runner_scope_after_failure`: a failed block keeps the fence. -/
def blockRunnerScopeAfterFailure (now : DateTime) (site : RunnerSite) (c : RunnerCall) :
    RunnerSite :=
  match blockGiteaRunnerScope P now site c with
  | .ok site => site
  | .error _ => site

/-- The rest of `run_execution` after the reservation: the call, the recorded response, and the
block and failure that follow any error. -/
def finishReservedRun (loads : List UInt8 → Except ReadFailure Json) (now : DateTime)
    (site : RunnerSite) (c : RunnerCall) (copy : ProjectionState) (x : Exchange) : RunnerSite :=
  let recorded := do
    let response ← callBackend P loads (resolveBackendTransportPolicy c copy) x
    recordGiteaRunnerResponse P now site c copy response
  match recorded with
  | .ok s => s.1
  | .error e => failExecution P now (blockRunnerScopeAfterFailure P now site c) c copy e

end

end NetboxRpc
