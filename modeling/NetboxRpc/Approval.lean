import NetboxRpc.EventStore

/-!
# Protected approvals

The decision surface of a protected procedure in `command_handlers.py`: the catalog policy check,
the hashed payload of an approval request, and the identities that may approve.
-/

namespace NetboxRpc

/-- The stored procedure row; `commands` holds the contract columns of its commands in sequence
order. -/
structure Procedure where
  pk : ℤ
  name : String
  handlerId : Json
  version : Json
  enabled : Bool
  targetModels : Json
  effect : String
  timeoutSeconds : Json
  approvalRequired : Json
  transportDriver : Json
  transportDriverChain : Json
  transportPinned : Json
  outputParser : Json
  outputSchema : Json
  paramsSchema : Json
  resultSchema : Json
  commands : List Json
deriving Inhabited

structure ExecutionRequest where
  pk : ℤ
  requestedById : Json
  params : Json
  backendId : Json
  assignedObjectTypeId : Json
  assignedObjectId : Json
  targetModelLabel : Json
  targetDisplay : String
  credentialReferences : Json
  credentialAuthority : Json
deriving Inhabited

structure BackendTarget where
  url : String
  verifySsl : Bool
deriving Inhabited

structure Contract where
  backendId : Option ℤ
  backend : Option BackendTarget
  policy : String → Json
  paramsSchema : Json
  resultSchema : String → Json
  semanticSha256 : String → Option Json
  pinsTransport : Bool
deriving Inhabited

structure Site where
  platform : Platform
  contract : String → Option Contract
  protectedLabel : String → String
  /-- `derive_command_contract_hash`, and the reviewed value for the Akvorado installer. -/
  commandContractHash : Procedure → String
  akvoradoCapabilityHash : String
  isSuperuser : Json → Bool
  /-- The keyed digest of a secret-bearing target label. -/
  displayDigest : String → String

instance : Inhabited Site where
  default :=
    { platform := default
      contract := fun _ => some default
      protectedLabel := id
      commandContractHash := fun _ => ""
      akvoradoCapabilityHash := ""
      isSuperuser := fun _ => false
      displayDigest := id }

def isProtected (name : String) : Bool := protectedApprovalProcedureNames.contains name

/-! ## Catalog policy -/

def protectedProcedurePolicy (S : Site) (contract : Contract) (p : Procedure) : Json :=
  .obj ([("name", .str p.name), ("handler_id", p.handlerId), ("version", p.version),
    ("enabled", .bool p.enabled), ("target_models", p.targetModels), ("effect", .str p.effect),
    ("timeout_seconds", p.timeoutSeconds), ("approval_required", p.approvalRequired),
    ("transport_driver", p.transportDriver), ("transport_driver_chain", p.transportDriverChain),
    ("output_parser", p.outputParser), ("output_schema", p.outputSchema),
    ("command_contract_sha256", .str (S.platform.stableHash (.arr p.commands)))] ++
    (match contract.semanticSha256 p.name with
      | some sha => [("semantic_contract_sha256", sha)]
      | none => []) ++
    if contract.pinsTransport then [("transport_pinned", p.transportPinned)] else [])

def protectedProcedurePolicyHolds (S : Site) (p : Procedure) : Bool :=
  match S.contract p.name with
  | none => false
  | some contract =>
    if p.name = akvoradoInstall then
      p.enabled && S.commandContractHash p == S.akvoradoCapabilityHash
    else
      decide ((protectedProcedurePolicy S contract p).PyEq (contract.policy p.name)) &&
        decide (p.paramsSchema.PyEq contract.paramsSchema) &&
        decide (p.resultSchema.PyEq (contract.resultSchema p.name))

/-! ## The approval payload -/

/-- `_require_concrete_protected_backend_id`; `none` is its validation error. -/
def concreteProtectedBackendId (contract : Contract) : Json → Option ℤ
  | .int n => if 0 < n ∧ contract.backendId.all (· == n) then some n else none
  | _ => none

def protectedBackendTargetSha256 (S : Site) (contract : Contract) (backendId : Json)
    (target : BackendTarget) : Option String := do
  let concrete ← concreteProtectedBackendId contract backendId
  guard (contract.backend.all (fun b => b.url == target.url && b.verifySsl == target.verifySsl))
  return S.platform.stableHash (.obj [("backend_id", .int concrete), ("url", .str target.url),
    ("verify_ssl", .bool target.verifySsl)])

def approvalTargetDisplay (S : Site) (display : String) : String :=
  if containsSecretText S.platform.word display.toList then
    "keyed-display:" ++ S.displayDigest display
  else display

def isSpace (c : Char) : Bool := spaceRanges.any (fun r => decide (r.1 ≤ c) && decide (c ≤ r.2))

def strip (text : Text) : Text := ((text.dropWhile isSpace).reverse.dropWhile isSpace).reverse

def isControl (c : Char) : Bool := decide (c.toNat < 32) || c.toNat == 127

/-- A bounded, non-secret reference to the credential policy in force; `none` when it does not
match the authority of a reference-bearing execution. -/
def credentialPolicyReference (S : Site) (req : ExecutionRequest) (effect : String)
    (normalized : Entries) : Option String :=
  let P := S.platform
  let normalized := ledgerNormalizedParams P normalized
  let byEffect := match valueOf normalized "rpc_ssh_credential_pk" with
    | .null => String.ofList (("procedure_effect:" ++ effect).toList.take 255)
    | pk => String.ofList (("device_credential:" ++ pyStr P pk).toList.take 255)
  if req.credentialReferences.truthy then
    let expected := "credential-authority:" ++ P.stableHash req.credentialAuthority
    if valueOf normalized "credential_policy_ref" = .str expected then some expected else none
  else match valueOf normalized "ssh_policy_ref" with
    | .str policy =>
      let policy := strip policy.toList
      if policy ≠ [] ∧ policy.length ≤ 200 ∧ policy.any isControl = false then
        some (String.ofList policy)
      else some byEffect
    | _ => some byEffect

def commandFingerprint (normalized : Entries) : Json :=
  .obj (entriesOr normalized "command_fingerprint")

/-- `_approval_protected_payload`; `none` when the backend or the credential policy is refused. -/
def approvalProtectedPayload (S : Site) (p : Procedure) (req : ExecutionRequest)
    (normalized : Entries) (target : BackendTarget) : Option Json := do
  let P := S.platform
  let normalized := ledgerNormalizedParams P normalized
  let contract ← S.contract p.name
  let backendSha ← protectedBackendTargetSha256 S contract req.backendId target
  let credentialPolicy ← credentialPolicyReference S req p.effect normalized
  let targetSnapshot : Json := .obj [("target_type_id", req.assignedObjectTypeId),
    ("target_id", req.assignedObjectId), ("target_model_label", req.targetModelLabel),
    ("target_display", .str (approvalTargetDisplay S req.targetDisplay))]
  return .obj [("procedure_id", .int p.pk), ("procedure_version", .str (pyStr P p.version)),
    ("procedure_policy_sha256", .str (P.stableHash (protectedProcedurePolicy S contract p))),
    ("params_schema_sha256", .str (P.stableHash p.paramsSchema)),
    ("result_schema_sha256", .str (P.stableHash p.resultSchema)),
    ("effect", .str p.effect), ("target_type_id", req.assignedObjectTypeId),
    ("target_id", req.assignedObjectId),
    ("target_snapshot_hash", .str (P.stableHash targetSnapshot)),
    ("normalized_params", .obj normalized),
    ("command_fingerprint", commandFingerprint normalized),
    ("backend_id", req.backendId), ("backend_target_sha256", .str backendSha),
    ("credential_policy_ref", .str credentialPolicy), ("requested_by_id", req.requestedById)]

structure ApprovalRequest where
  requestedById : Json
  backendTargetSha256 : Json
  payloadHash : String

def createApprovalRequest (P : Platform) (req : ExecutionRequest) (payload : Json) :
    ApprovalRequest where
  requestedById := req.requestedById
  backendTargetSha256 := (payload.get? "backend_target_sha256").getD .null
  payloadHash := P.stableHash payload

def ApprovalRequest.matchesCurrent (P : Platform) (snapshot : ApprovalRequest) (current : Json) :
    Bool :=
  snapshot.payloadHash != "" && snapshot.payloadHash == P.stableHash current

/-! ## Identities -/

def approvalIdentitiesAreAuthorized (S : Site) (procedureName : String)
    (requestedById approvedById : Json) : Bool :=
  if requestedById = .null ∨ approvedById = .null then false
  else if pyStr S.platform requestedById ≠ pyStr S.platform approvedById then true
  else if procedureName = netboxProductionRestartRqWorker then false
  else S.isSuperuser approvedById

def allowProtectedSelfApproval (S : Site) (procedureName : String) (userId : Json) : Bool :=
  procedureName != netboxProductionRestartRqWorker && S.isSuperuser userId

def isDistinctActor (P : Platform) (actorId : Json) (snapshot : ApprovalRequest) : Bool :=
  actorId != .null &&
    (snapshot.requestedById == .null || pyStr P actorId != pyStr P snapshot.requestedById)

def mayApprove (P : Platform) (allowRequester : Bool) (actorId : Json)
    (snapshot : ApprovalRequest) : Bool :=
  if allowRequester then actorId != .null else isDistinctActor P actorId snapshot

def requiresSignedDispatch (req : ExecutionRequest) (procedureName : String) : Bool :=
  isProtected procedureName || req.credentialReferences.truthy

end NetboxRpc
