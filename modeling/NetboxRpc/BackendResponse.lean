import NetboxRpc.EventStore

/-!
# Recording a backend response

`record_backend_response` in `event_store.py`: which contract applies to a procedure, whether the
response matches it, and the progress and terminal events that follow.
-/

namespace NetboxRpc

def resultSchemaMismatchCode : String := "RPC_RESULT_SCHEMA_MISMATCH"
def maxBackendEvents : ℕ := 50

structure ResponseContract where
  isStagingRotation : Bool
  isDnsStagingDeploy : Bool
  isProtected : Bool
  isGiteaUpgrade : Bool
  requiresEnvelopeStateMatch : Bool

def ResponseContract.hasDedicatedValidation (c : ResponseContract) : Bool :=
  c.isGiteaUpgrade || c.isStagingRotation || c.isDnsStagingDeploy

def responseContract (procedureName : String) : ResponseContract :=
  let isProtected := protectedApprovalProcedureNames.contains procedureName
  { isStagingRotation := procedureName == netboxStagingRotateBackendToken
    isDnsStagingDeploy := procedureName == netboxStagingDeployDnsPair
    isProtected := isProtected
    isGiteaUpgrade := procedureName == giteaProductionUpgrade
    requiresEnvelopeStateMatch := isProtected ||
      akvoradoBootstrapProcedureNames.contains procedureName ||
      influxdb3ProcedureNames.contains procedureName }

def resultDiagnosticsTable : List (List Json × String × String) :=
  [([.bool true, .bool true, .bool true, .str "complete"], "", ""),
    ([.bool true, .bool false, .bool true, .str "complete"], "", ""),
    ([.bool false, .bool false, .bool false, .str "execute"],
      "RPC_GITEA_UPGRADE_PRE_MUTATION_FAILURE",
      "Production Gitea upgrade failed before guest mutation."),
    ([.bool false, .bool false, .bool true, .str "rolled_back"], "RPC_GITEA_UPGRADE_ROLLED_BACK",
      "Production Gitea upgrade failed and was rolled back safely."),
    ([.bool false, .bool true, .bool false, .str "complete"],
      "RPC_GITEA_UPGRADE_COMMITTED_FAILURE",
      "Production Gitea upgrade committed but did not become healthy."),
    ([.bool false, .null, .null, .str "indeterminate"], "RPC_BACKEND_INDETERMINATE",
      "Backend dispatch outcome is indeterminate; reconcile before retry.")]

def isHashable : Json → Bool
  | .arr _ | .obj _ => false
  | _ => true

/-- `result_diagnostics`; `none` is the error that an unhashable state raises. -/
def resultDiagnostics (result : Entries) : Option (String × String) :=
  let state := ["ok", "changed", "healthy", "stage"].map (valueOf result)
  if state.all isHashable then
    some (((resultDiagnosticsTable.find? (fun d => decide ((Json.arr d.1).PyEq (.arr state)))).map
      Prod.snd).getD ("", ""))
  else none

def backendFailureFields (P : Platform) (contract : ResponseContract) (response : Entries) :
    Option (String × String) :=
  match contract.isGiteaUpgrade, Json.find response "result" with
  | true, some (.obj result) => resultDiagnostics result
  | _, _ => some (textOr P response "error_code" "", textOr P response "error_message" "")

def skipsResultValidation (contract : ResponseContract) (response : Entries) : Bool :=
  !contract.hasDedicatedValidation && Json.find response "ok" == some (.bool false) &&
    (match Json.find response "result" with
      | none => true
      | some raw => raw == .obj []) &&
    (match Json.find response "error_code" with
      | some (.str code) => isCatalogErrorCode code
      | _ => false)

def envelopeOkStateMismatch (response : Entries) : String :=
  match Json.find response "ok" with
  | some (.bool ok) =>
    match Json.find response "result" with
    | none => "Backend result schema mismatch at result: required validation failed."
    | some (.obj result) =>
      if Json.find result "ok" = some (.bool ok) then ""
      else "Backend result schema mismatch at result.ok: envelope state mismatch."
    | some _ => "Backend result schema mismatch at result: object validation failed."
  | _ => "Backend result schema mismatch at response.ok: boolean required."

def protectedBackendResponseMismatch (response : Entries) : String :=
  let envelope := envelopeOkStateMismatch response
  if envelope ≠ "" then envelope
  else match Json.find response "events" with
    | none | some .null | some (.arr []) => ""
    | _ => "Backend result schema mismatch at events: protected events are forbidden."

def giteaBackendResponseMismatch (response : Entries) : String :=
  if response.length = 2 ∧ (Json.find response "ok").isSome ∧ (Json.find response "result").isSome
  then protectedBackendResponseMismatch response
  else "Backend result schema mismatch at response: unexpected property."

def stagingBackendResponseMismatch (response : Entries) : String :=
  protectedBackendResponseMismatch response

def dnsStagingResponseMismatch (ctx : ExecutionContext) (response : Entries) : String :=
  let mismatch := protectedBackendResponseMismatch response
  let expectedCommit := (ctx.params.get? "commit_sha").getD .null
  match Json.find response "result" with
  | some (.obj result) =>
    if mismatch = "" ∧ ¬ (valueOf result "commit_sha").PyEq expectedCommit then
      "Backend result schema mismatch at commit_sha."
    else mismatch
  | _ => mismatch

def envelopeResponseMismatch (ctx : ExecutionContext) (contract : ResponseContract)
    (response : Entries) : String :=
  if contract.isGiteaUpgrade then giteaBackendResponseMismatch response
  else if contract.isStagingRotation then stagingBackendResponseMismatch response
  else if contract.isDnsStagingDeploy then dnsStagingResponseMismatch ctx response
  else if contract.requiresEnvelopeStateMatch then envelopeOkStateMismatch response
  else ""

def clip (n : ℕ) (s : String) : String := String.ofList (s.toList.take n)

def backendResultSchemaMismatch (P : Platform) (schema : Json) (result : Json)
    (limits : StringLimits) : String :=
  if !schema.truthy then ""
  else match P.schemaError (if limits = [] then schema else relaxSchemaStringLengths schema limits)
      result with
    | none => ""
    | some (path, validator) =>
      let path := ".".intercalate (path.map (clip 64))
      let location := if path = "" then "result" else "result." ++ path
      clip 512 ("Backend result schema mismatch at " ++ location ++ ": " ++
        clip 64 (DomainEvent.orText validator "schema") ++ " validation failed.")

/-- The raw value is checked against the relaxed schema, then the ledger form against the schema
itself. -/
def responseSchemaMismatch (P : Platform) (ctx : ExecutionContext) (contract : ResponseContract)
    (response : Entries) (ledgerResult : Json) (limits : StringLimits) (shouldValidate : Bool) :
    String :=
  let envelope := envelopeResponseMismatch ctx contract response
  if !shouldValidate || envelope ≠ "" then envelope
  else
    let raw := backendResultSchemaMismatch P ctx.resultSchema (valueOf response "result") limits
    if raw ≠ "" then raw else backendResultSchemaMismatch P ctx.resultSchema ledgerResult []

def ledgerResult (P : Platform) (limits : StringLimits) (result : Entries) : Json :=
  valueOf (redactEventData P (underResult limits) [("result", .obj result)]) "result"

def backendEventPrefix : String := "Backend::"

def backendProgressName (P : Platform) (item : Entries) : String :=
  backendEventPrefix ++ String.ofList (redactBounded P.word
    (List.take (100 - backendEventPrefix.length))
    (textOr P item "event" "BackendEventRecorded").toList)

def backendProgressEvent (P : Platform) (item : Entries) : DomainEvent :=
  .backendEventRecorded (backendProgressName P item) (entriesOr item "data")
    (eventLevel (match Json.find item "level" with | some (.str s) => s | _ => "")).value
    (textOr P item "message" "")

def backendProgressEvents (P : Platform) (response : Entries) : List DomainEvent :=
  match Json.find response "events" with
  | some (.arr items) => (items.take maxBackendEvents).filterMap (fun item => match item with
      | .obj entries => some (backendProgressEvent P entries)
      | _ => none)
  | _ => []

def backendTerminalEvent (P : Platform) (response : Entries) (skip : Bool)
    (failure : String × String) (mismatch : String) (finishedAt : Stamp) : DomainEvent :=
  let result := entriesOr response "result"
  if (valueOf response "ok").truthy ∧ mismatch = "" then .executionSucceeded result finishedAt
  else
    let (code, message) :=
      if mismatch ≠ "" then (resultSchemaMismatchCode, mismatch)
      else if skip then (failure.1, "Backend reported " ++ failure.1 ++ ".")
      else failure
    .executionFailed (DomainEvent.orText (boundedEventMessage P message) "RPC execution failed.")
      (DomainEvent.orText code "RPC_EXECUTION_FAILED") finishedAt
      (if mismatch = "" then result else [])

def responseMismatch (P : Platform) (ctx : ExecutionContext) (response : Entries) : String :=
  let contract := responseContract ctx.procedureName
  let limits := resultSchemaStringLimits ctx.resultSchema
  let skip := skipsResultValidation contract response
  let shouldValidate := !skip && ((valueOf response "ok").truthy ||
    (Json.find response "result").isSome || contract.requiresEnvelopeStateMatch)
  if skip then ""
  else responseSchemaMismatch P ctx contract response
    (ledgerResult P limits (entriesOr response "result")) limits shouldValidate

/-- The events that one response appends in its transaction; `none` when it raises before any. -/
def backendResponseEvents (P : Platform) (ctx : ExecutionContext) (response : Entries)
    (finishedAt : Stamp) : Option (List DomainEvent) := do
  let contract := responseContract ctx.procedureName
  let failure ← backendFailureFields P contract response
  let skip := skipsResultValidation contract response
  let progress := if !contract.isProtected && !skip then backendProgressEvents P response else []
  return progress ++
    [backendTerminalEvent P response skip failure (responseMismatch P ctx response) finishedAt]

end NetboxRpc
