import NetboxRpc.ScopeFence
import NetboxRpc.SensitiveResults

/-!
# The terminal event of a runner response

A response that passes the runner contract is validated again by the event store, in its ledger
form. The token fields of both contracts have sensitive names, so the ledger form never validates
and the terminal event is a schema mismatch, whatever the fence does.
-/

namespace NetboxRpc

open JsonSchema

def giteaRunnerScopeProcedureNames : List String := [giteaRunnerRegister, giteaOrgCiRunnerProvision]

theorem requiresNumber_priorTokenId (contract : RunnerContract) :
    RequiresNumber contract.schemaEntries "prior_token_id" := by
  cases contract with
  | giteaRunner =>
    refine ⟨⟨_, List.mem_of_getElem? (i := 2) rfl, ?_⟩,
      ⟨GiteaRunner.resultProperties, _, _, List.mem_of_getElem? (i := 3) rfl,
        List.mem_of_getElem? (i := 13) rfl, List.mem_of_getElem? (i := 0) rfl, ?_⟩⟩
    · decide
    · decide
  | giteaOrgCiRunner =>
    refine ⟨⟨_, List.mem_of_getElem? (i := 2) rfl, ?_⟩,
      ⟨GiteaOrgCiRunner.resultProperties, _, _, List.mem_of_getElem? (i := 3) rfl,
        List.mem_of_getElem? (i := 18) rfl, List.mem_of_getElem? (i := 0) rfl, ?_⟩⟩
    · decide
    · decide

theorem sensitiveName_priorTokenId : SensitiveName "prior_token_id" := by decide +kernel

section

variable {P : Platform} {ctx : ExecutionContext} {contract : RunnerContract} {response : Entries}

theorem responseContract_of_runner (h : ctx.procedureName ∈ giteaRunnerScopeProcedureNames) :
    responseContract ctx.procedureName = ⟨false, false, true, false, true⟩ := by
  simp only [giteaRunnerScopeProcedureNames, List.mem_cons, List.not_mem_nil, or_false] at h
  rcases h with h | h <;> rw [h] <;> rfl

theorem backendResultSchemaMismatch_ne {schema result : Json} (htruthy : schema.truthy = true)
    (herror : P.schemaError schema result ≠ none) :
    backendResultSchemaMismatch P schema result [] ≠ "" := by
  obtain ⟨⟨path, validator⟩, herror⟩ := Option.ne_none_iff_exists'.mp herror
  have hhead : ∀ rest : String,
      clip 512 ("Backend result schema mismatch at " ++ rest) ≠ "" := fun rest h => by
    have := congrArg String.toList h
    simp [clip] at this
  simp only [backendResultSchemaMismatch, htruthy, Bool.not_true, Bool.false_eq_true, if_false,
    if_true, herror, String.append_assoc]
  exact hhead _

/-- The second validation reads the ledger form, which the schema of the contract never accepts. -/
theorem responseMismatch_ne (hP : P.Implements contract.resultSchema)
    (hschema : ctx.resultSchema = contract.resultSchema) {result : Entries}
    (hresult : Json.find response "result" = some (.obj result)) (hne : result ≠ []) :
    responseMismatch P ctx response ≠ "" := by
  have hskip : skipsResultValidation (responseContract ctx.procedureName) response = false := by
    have hraw : (Json.obj result == .obj []) = false := by simpa using hne
    simp [skipsResultValidation, hresult, hraw]
  have hinvalid : P.schemaError ctx.resultSchema (ledgerResult P
      (resultSchemaStringLimits ctx.resultSchema) (entriesOr response "result")) ≠ none := by
    rw [hschema]
    intro hnone
    have hvalid := (hP _).mp hnone
    rw [validates, RunnerContract.resultSchema, ledgerResult_not_valid
      (requiresNumber_priorTokenId contract) sensitiveName_priorTokenId] at hvalid
    cases hvalid
  have htruthy : ctx.resultSchema.truthy = true := by
    rw [hschema]
    cases contract <;> rfl
  simp only [responseMismatch, hskip, hresult, Option.isSome_some, Bool.or_true, Bool.true_or,
    Bool.not_false, Bool.and_self, Bool.false_eq_true, if_false]
  unfold responseSchemaMismatch
  dsimp only
  split_ifs with henvelope hraw
  · simpa using henvelope
  · exact hraw
  · exact backendResultSchemaMismatch_ne htruthy hinvalid

/-- The one event that an accepted response appends. -/
theorem backendResponseEvents_of_runner (hP : P.Implements contract.resultSchema)
    (hname : ctx.procedureName ∈ giteaRunnerScopeProcedureNames)
    (hschema : ctx.resultSchema = contract.resultSchema) {result : Entries}
    (hresult : Json.find response "result" = some (.obj result)) (hne : result ≠ [])
    (finishedAt : Stamp) :
    ∃ message, backendResponseEvents P ctx response finishedAt =
      some [.executionFailed message resultSchemaMismatchCode finishedAt []] := by
  have hmismatch := responseMismatch_ne hP hschema hresult hne
  refine ⟨DomainEvent.orText (boundedEventMessage P (responseMismatch P ctx response))
    "RPC execution failed.", ?_⟩
  simp only [backendResponseEvents, responseContract_of_runner hname, backendFailureFields]
  simp [backendTerminalEvent, hmismatch, DomainEvent.orText, resultSchemaMismatchCode]

end

/-! ## The committed transaction -/

def appendedEvents (before after : RunnerSite) (pk : ℕ) : List EventRecord :=
  let events := fun site : RunnerSite =>
    ((site.executions pk).map (fun e => e.ledger.events)).getD []
  (events after).drop (events before).length

/-- The terminal event repeats what the response reports: a success exactly when the response is
one, and otherwise a failure that is no schema mismatch. -/
def TerminalAgrees (response : Entries) (appended : List EventRecord) : Prop :=
  (valueOf response "ok" = .bool true ↔ ∃ r ∈ appended, r.event = "ExecutionSucceeded") ∧
    (valueOf response "ok" ≠ .bool true → ∃ r ∈ appended, r.event = "ExecutionFailed" ∧
      valueOf r.data "code" ≠ .str resultSchemaMismatchCode)

theorem code_of_mismatch (P : Platform) (ctx : ExecutionContext) (events : List EventRecord)
    (message : String) (now : DateTime) :
    valueOf (eventRecord P ctx events (.executionFailed message resultSchemaMismatchCode (.time now)
      [])).data "code" = .str resultSchemaMismatchCode := by
  have hplain : isPlainName resultSchemaMismatchCode = true := by decide
  have hlimit : ∀ limits : StringLimits,
      resultSchemaMismatchCode.length ≤ limitAt (underResult limits) ["code"] := by
    intro limits
    have hnone : (underResult limits).find? (fun l => l.1 == ["code"]) = none := by
      rw [List.find?_eq_none]
      intro l hl
      obtain ⟨l', -, rfl⟩ := List.mem_map.mp hl
      simp
    rw [limitAt, hnone]
    decide
  have hname : OpenName "code" := openName_of_mem (by decide)
  rw [eventRecord, executionEventRecord,
    valueOf_redactEventData_str hname (plainMapping_data P (by simp [DomainEvent.type])) rfl]
  exact congrArg Json.str (redactEventText_of_plain P hplain (hlimit _))

/-- A committed response of a runner procedure appends one event, a schema mismatch. -/
theorem appendedEvents_of_record {P : Platform} {now : DateTime} {site after : RunnerSite}
    {c : RunnerCall} {copy copy' : ProjectionState} {response : Entries}
    (hP : P.Implements c.contract.resultSchema)
    (hname : c.context.procedureName ∈ giteaRunnerScopeProcedureNames)
    (hschema : c.context.resultSchema = c.contract.resultSchema)
    (hcommit : recordGiteaRunnerResponse P now site c copy response = .ok (after, copy')) :
    ∃ r, appendedEvents site after c.pk = [r] ∧ r.event = "ExecutionFailed" ∧
      valueOf r.data "code" = .str resultSchemaMismatchCode := by
  obtain ⟨result, fence, haccepted, -, -, -, -, hrecord⟩ := recordGiteaRunnerResponse_iff.mp hcommit
  have hresponse := Accepted.of_acceptedResult haccepted
  obtain ⟨ok, -, hinner⟩ := hresponse.envelope
  have hne : result ≠ [] := by
    rintro rfl
    cases hinner
  obtain ⟨-, e, events, he, hevents, rfl, -⟩ := recordBackendResponse_iff.mp hrecord
  obtain ⟨message, hterminal⟩ :=
    backendResponseEvents_of_runner hP hname hschema hresponse.carries hne (.time now)
  rw [hterminal] at hevents
  cases hevents
  have hbefore : site.executions c.pk = some e := he
  refine ⟨eventRecord P c.context e.ledger.events
    (.executionFailed message resultSchemaMismatchCode (.time now) []), ?_, rfl,
    code_of_mismatch P _ _ _ _⟩
  have hcode : isCatalogErrorCode resultSchemaMismatchCode = true := by decide +kernel
  simp [appendedEvents, RunnerSite.setExecution, hbefore, appendAll, appendAndProject,
    persistableFailureEvent, hcode]

/-- The terminal event of an accepted response never agrees with the response. -/
theorem runner_terminal_event_disagrees {P : Platform} {now : DateTime} {site after : RunnerSite}
    {c : RunnerCall} {copy copy' : ProjectionState} {response : Entries}
    (hP : P.Implements c.contract.resultSchema)
    (hname : c.context.procedureName ∈ giteaRunnerScopeProcedureNames)
    (hschema : c.context.resultSchema = c.contract.resultSchema)
    (hcommit : recordGiteaRunnerResponse P now site c copy response = .ok (after, copy')) :
    ¬ TerminalAgrees response (appendedEvents site after c.pk) := by
  obtain ⟨r, happended, hevent, hcode⟩ := appendedEvents_of_record hP hname hschema hcommit
  rw [happended]
  rintro ⟨hsuccess, hfailure⟩
  by_cases hok : valueOf response "ok" = .bool true
  · obtain ⟨r', hr', hsucceeded⟩ := hsuccess.mp hok
    rw [List.mem_singleton.mp hr', hevent] at hsucceeded
    exact absurd hsucceeded (by decide)
  · obtain ⟨r', hr', -, hne⟩ := hfailure hok
    rw [List.mem_singleton.mp hr'] at hne
    exact hne hcode

/-! ## A successful registration -/

def proxboxScope : String := "emersonfelipesp/proxbox-api"

def registerCall : RunnerCall where
  pk := 1
  context := ⟨giteaRunnerRegister, RunnerContract.giteaRunner.resultSchema,
    .obj [("operation", .str "register"), ("scope", .str "proxbox-api")], .int 1⟩
  normalized := [("operation", .str "register"), ("scope", .str "proxbox-api"),
    ("gitea_scope", .str proxboxScope), ("fence_state", .str "clear"),
    ("fence_expected_sha256", .str fenceUnknownSha256), ("fence_execution_id", .null),
    ("fence_generation", .int 1)]

def runningRow : ProjectionState := { ProjectionState.initial with status := .running }

def reservedSite : RunnerSite where
  fences := fun scope => if scope = proxboxScope then
    some { ScopeFence.seed 0 with state := .pending, blockingExecutionId := some 1,
                                  takeoverGeneration := 1 }
    else none
  executions := fun pk => if pk = 1 then some ⟨registerCall.context, ⟨runningRow, []⟩⟩ else none

def registeredResponse : Entries :=
  [("ok", .bool true), ("result", .obj [("ok", .bool true), ("procedure", .str giteaRunnerRegister),
    ("target", .str GiteaRunner.runnerTargetName), ("operation", .str "register"),
    ("scope", .str "proxbox-api"), ("fence_execution_id", .null), ("fence_generation", .int 1),
    ("registered", .bool true), ("reconciled", .null), ("token_invalidated", .bool true),
    ("token_reset_required", .bool false), ("token_sha256", .str fenceUnknownSha256),
    ("reset_state", .str "rotated"), ("prior_token_id", .int 7), ("prior_active_sha256", .null),
    ("replacement_token_id", .int 8), ("stage", .str "complete")])]

/-- The transaction commits and clears the fence. -/
theorem registeredResponse_clears :
    ∃ after copy, recordGiteaRunnerResponse default 0 reservedSite registerCall runningRow
        registeredResponse = .ok (after, copy) ∧
      (after.fences proxboxScope).map ScopeFence.state = some .clear := by
  have hclears : (recordGiteaRunnerResponse default 0 reservedSite registerCall runningRow
      registeredResponse).toOption.map (fun s => (s.1.fences proxboxScope).map ScopeFence.state) =
        some (some .clear) := by decide +kernel
  obtain ⟨⟨after, copy⟩, hsome, hclear⟩ := Option.map_eq_some_iff.mp hclears
  refine ⟨after, copy, ?_, hclear⟩
  cases h : recordGiteaRunnerResponse default 0 reservedSite registerCall runningRow
      registeredResponse with
  | error e => rw [h] at hsome; cases hsome
  | ok s => rw [h] at hsome; cases hsome; rfl

theorem runner_terminal_event_disagrees_registered :
    ∃ after copy, recordGiteaRunnerResponse default 0 reservedSite registerCall runningRow
        registeredResponse = .ok (after, copy) ∧
      ¬ TerminalAgrees registeredResponse (appendedEvents reservedSite after registerCall.pk) := by
  obtain ⟨after, copy, hcommit, -⟩ := registeredResponse_clears
  exact ⟨after, copy, hcommit,
    runner_terminal_event_disagrees (implements_default _) (by decide) rfl hcommit⟩

/-- A successful registration clears the fence, and the same transaction fails its execution. -/
theorem registered_response_recorded_as_mismatch :
    valueOf registeredResponse "ok" = .bool true ∧
      ∃ after copy, recordGiteaRunnerResponse default 0 reservedSite registerCall runningRow
          registeredResponse = .ok (after, copy) ∧
        (after.fences proxboxScope).map ScopeFence.state = some .clear ∧
        ∃ r, appendedEvents reservedSite after 1 = [r] ∧ r.event = "ExecutionFailed" ∧
          valueOf r.data "code" = .str "RPC_RESULT_SCHEMA_MISMATCH" := by
  obtain ⟨after, copy, hcommit, hclear⟩ := registeredResponse_clears
  have happended := appendedEvents_of_record (implements_default _) (by decide) rfl hcommit
  exact ⟨rfl, after, copy, hcommit, hclear, happended⟩

end NetboxRpc
