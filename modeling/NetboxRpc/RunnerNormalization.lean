import Mathlib.Data.List.Perm.Subperm
import NetboxRpc.RedactedData
import NetboxRpc.ScopeFence

/-!
# Normalization of runner registrations

`_normalize_gitea_runner_registration_execution`: the parameters of a `register` or `reconcile` run,
bound to the fence row as it stands and to what NetBox holds about the two machines. The dispatch
keeps the ledger form of the result, which leaves every field that the fence compares unchanged.
-/

namespace NetboxRpc

namespace GiteaRunner

def runnerTargetId : ℤ := 399

def giteaTargetId : ℤ := 170

def targetObject (id : ℤ) : Json :=
  .obj [("content_type", .str "virtualization.virtualmachine"), ("object_id", .int id)]

def runnerTargetObjectSha256 : String :=
  "88df1357034bcc700bdf62f9c1c8a04322562c6b33bc38546d8520e818785704"

def giteaTargetObjectSha256 : String :=
  "3bd33992a1cb7401c9dd60ac0cb7eacd874a6e2f2a87c3374096e269e18cd916"

def runnerRegisterHelperSha256 : String :=
  "15b72776c546ff433dc585bb8bab0645524adada7151aa9038d7b7e2711a49ed"

def giteaTokenResetHelperSha256 : String :=
  "67562056a5c00c1f667383b98d83ff43a136ea10079ab041079680a511614c78"

def giteaTargetName : String := "Gitea"

def giteaIpv4Address : String := "10.0.30.96"

def internalParamKeys : List String := ["_intent", "_intent_name", "_timeout_seconds_snapshot"]

end GiteaRunner

open GiteaRunner

/-- The non-secret snapshot of one SSH service; an OpenBao identity adds the UUID, the type and the
KV version of its credential. -/
structure SshSnapshot where
  serviceId : Json
  serviceRevision : Json
  identityId : Json
  identityRevision : Json
  openbao : Option (Json × Json × Json)
  principal : String
  method : Json
  host : Json
  knownHostsSha256 : Json
  policyRef : Json

def SshSnapshot.entries (s : SshSnapshot) : Entries :=
  let access : Entries := [("ssh_principal", .str s.principal), ("ssh_method", s.method),
    ("ssh_host", s.host), ("ssh_port", .int 22), ("ssh_known_hosts_sha256", s.knownHostsSha256),
    ("ssh_policy_ref", s.policyRef)]
  let identity : Entries := [("ssh_service_id", s.serviceId),
    ("ssh_service_revision", s.serviceRevision), ("ssh_identity_id", s.identityId),
    ("ssh_identity_revision", s.identityRevision)]
  match s.openbao with
  | none => identity ++ [("ssh_storage_backend", .str "local")] ++ access
  | some (uuid, type, version) => [("ssh_storage_backend", .str "openbao")] ++ identity ++
      [("ssh_credential_uuid", uuid), ("ssh_credential_type", type), ("ssh_kv_version", version)] ++
      access

structure RunnerFacts where
  runnerIpv4 : String
  runnerSsh : SshSnapshot
  giteaSsh : SshSnapshot
  handlerId : Json

/-- `validate_gitea_runner_target`, whose checks leave only the address open. -/
def RunnerFacts.targetMetadata (f : RunnerFacts) : Entries :=
  [("target", .str runnerTargetName), ("target_object", targetObject runnerTargetId),
    ("runner_cluster_id", .int 8), ("runner_node_id", .int 34), ("runner_node", .str "node01"),
    ("runner_proxmox_vmid", .int 10040), ("runner_tenant_id", .int 14), ("runner_role_id", .int 5),
    ("runner_vcpus", .float 8), ("runner_memory_mib", .int 16384), ("runner_disk_mib", .int 122880),
    ("runner_ipv4", .str f.runnerIpv4)]

structure RegistrationRequest where
  operation : String
  scope : String
  canonicalScope : String

def registrationParamError : RPCExecutionError :=
  ⟨"Gitea runner lifecycle requires one exact operation and reviewed scope.", "RPC_PARAM_INVALID"⟩

/-- The parameter checks. A list or a mapping cannot be looked up in the table of scopes. -/
def registrationRequest (params : Json) : Except RPCExecutionError RegistrationRequest :=
  let params := match params with
    | .obj entries => entries
    | _ => []
  let known := internalParamKeys ++ ["operation", "scope"]
  if params.any (fun e => !known.contains e.1) then .error registrationParamError
  else match Json.find params "operation", Json.find params "scope" with
    | some (.str operation), some (.str scope) =>
      match operations.contains operation, scopeToGiteaScope.lookup scope with
      | true, some canonicalScope => .ok ⟨operation, scope, canonicalScope⟩
      | _, _ => .error registrationParamError
    | some (.str operation), some (.arr _) =>
      .error (if operations.contains operation then
        ⟨"unhashable type: 'list'", "RPC_EXECUTION_FAILED"⟩ else registrationParamError)
    | some (.str operation), some (.obj _) =>
      .error (if operations.contains operation then
        ⟨"unhashable type: 'dict'", "RPC_EXECUTION_FAILED"⟩ else registrationParamError)
    | _, _ => .error registrationParamError

def ScopeFence.registrationRefusal (fence : ScopeFence) (executions : ℕ → Option StoredExecution)
    (now : DateTime) (operation : String) : Option RPCExecutionError :=
  if jsSafeIntegerMax ≤ fence.takeoverGeneration then
    some (fenceChanged "Gitea runner scope fence generation is invalid or exhausted.")
  else if operation = "register" ∧ (fence.state ≠ .clear ∨ fence.blockingExecutionId ≠ none ∨
      fence.reconciliationExecutionId ≠ none) then
    some ⟨"Gitea runner token scope requires reconciliation before registration.",
      "RPC_SCOPE_FENCE_BLOCKED"⟩
  else if operation = "reconcile" ∧ (fence.state = .clear ∨
      fence.blockingExecutionId.all (fun pk => jsSafeIntegerMax < pk) = true ∨
      fence.reconciliationExecutionId ≠ none) then
    some ⟨"Gitea runner token scope has no blocked operation to reconcile.",
      "RPC_SCOPE_FENCE_CLEAR"⟩
  else if operation = "reconcile" ∧ fence.isQuiescent executions now = false then
    some ⟨"Gitea runner token scope is still inside its remote-operation safety window.",
      "RPC_SCOPE_FENCE_BUSY"⟩
  else none

def RunnerFacts.principalError (f : RunnerFacts) : Option RPCExecutionError :=
  if f.runnerSsh.principal ≠ "nms-runner-bootstrap" then
    some ⟨"Runner registration SSH principal does not match reviewed policy.", "RPC_TARGET_INVALID"⟩
  else if f.giteaSsh.principal ≠ "nms-gitea-runner-control" then
    some ⟨"Gitea token-control SSH principal does not match reviewed policy.", "RPC_TARGET_INVALID"⟩
  else none

def named (start : String) (entries : Entries) : Entries := entries.map (fun e => (start ++ e.1, e.2))

def RegistrationRequest.binding (r : RegistrationRequest) (fence : ScopeFence) : Entries :=
  [("operation", .str r.operation), ("scope", .str r.scope), ("gitea_scope", .str r.canonicalScope),
    ("gitea_target", .str giteaTargetName), ("gitea_target_object", targetObject giteaTargetId),
    ("gitea_ipv4", .str giteaIpv4Address), ("fence_state", .str fence.state.value),
    ("fence_expected_sha256", .str (DomainEvent.orText fence.expectedTokenSha256 fenceUnknownSha256)),
    ("fence_execution_id", keyValue fence.blockingExecutionId),
    ("fence_generation", .int (fence.takeoverGeneration + 1)),
    ("register_helper_sha256", .str runnerRegisterHelperSha256),
    ("token_reset_helper_sha256", .str giteaTokenResetHelperSha256)]

def normalizedRegistration (f : RunnerFacts) (r : RegistrationRequest) (fence : ScopeFence) :
    Entries :=
  let normalized := f.targetMetadata ++ r.binding fence ++ named "runner_" f.runnerSsh.entries ++
    named "gitea_" f.giteaSsh.entries
  let fingerprint : Entries := [("handler_id", f.handlerId),
    ("assigned_object_id", .int runnerTargetId),
    ("target_object_sha256", .str runnerTargetObjectSha256),
    ("runner_target_object_sha256", .str runnerTargetObjectSha256),
    ("gitea_target_object_sha256", .str giteaTargetObjectSha256)] ++ normalized
  normalized ++ [("command_fingerprint", .obj fingerprint)]

def normalizeGiteaRunnerRegistrationExecution (now : DateTime) (site : RunnerSite) (params : Json)
    (facts : Except RPCExecutionError RunnerFacts) : Except RPCExecutionError Entries := do
  let r ← registrationRequest params
  match site.fences r.canonicalScope with
  | none => .error fenceUnavailable
  | some fence =>
    match fence.registrationRefusal site.executions now r.operation with
    | some e => .error e
    | none =>
      let f ← facts
      match f.principalError with
      | some e => .error e
      | none => return normalizedRegistration f r fence

/-! ## What the normalizer accepts -/

theorem normalize_iff {now : DateTime} {site : RunnerSite} {params : Json}
    {facts : Except RPCExecutionError RunnerFacts} {normalized : Entries} :
    normalizeGiteaRunnerRegistrationExecution now site params facts = .ok normalized ↔
      ∃ r fence f, registrationRequest params = .ok r ∧ site.fences r.canonicalScope = some fence ∧
        fence.registrationRefusal site.executions now r.operation = none ∧ facts = .ok f ∧
        f.principalError = none ∧ normalized = normalizedRegistration f r fence := by
  unfold normalizeGiteaRunnerRegistrationExecution
  cases hr : registrationRequest params with
  | error e => simp [bind, Except.bind]
  | ok r =>
    cases hfence : site.fences r.canonicalScope with
    | none => simp [hfence, bind, Except.bind]
    | some fence =>
      cases hrefusal : fence.registrationRefusal site.executions now r.operation with
      | some e => simp [hfence, hrefusal, bind, Except.bind]
      | none =>
        cases facts with
        | error e => simp [hfence, hrefusal, bind, Except.bind]
        | ok f =>
          cases hprincipal : f.principalError with
          | some e => simp [hfence, hrefusal, hprincipal, bind, Except.bind]
          | none =>
            simp [hfence, hrefusal, hprincipal, bind, Except.bind, pure, Except.pure, eq_comm]

structure RegistrationRequest.Reviewed (r : RegistrationRequest) : Prop where
  operation_mem : r.operation ∈ operations
  scope_mem : (r.scope, r.canonicalScope) ∈ scopeToGiteaScope

theorem reviewed_of_request {params : Json} {r : RegistrationRequest}
    (h : registrationRequest params = .ok r) : r.Reviewed := by
  have hlookup : ∀ scope canonicalScope, scopeToGiteaScope.lookup scope = some canonicalScope →
      (scope, canonicalScope) ∈ scopeToGiteaScope := by
    intro scope canonicalScope hfound
    obtain ⟨l₁, l₂, hsplit, -⟩ := List.lookup_eq_some_iff.mp hfound
    rw [hsplit]
    exact List.mem_append_right _ List.mem_cons_self
  unfold registrationRequest at h
  dsimp only at h
  split_ifs at h
  split at h
  · split at h
    · rename_i operation scope _ _ _ _ canonicalScope hop hscope
      cases h
      exact ⟨by simpa using hop, hlookup scope canonicalScope hscope⟩
    · cases h
  · cases h
  · cases h
  · cases h

/-- The fence lets a reconciliation start. -/
theorem registrationRefusal_reconcile {fence : ScopeFence} {executions : ℕ → Option StoredExecution}
    {now : DateTime} : fence.registrationRefusal executions now "reconcile" = none ↔
      fence.takeoverGeneration < jsSafeIntegerMax ∧ fence.state ≠ .clear ∧
        (∃ pk, fence.blockingExecutionId = some pk ∧ pk ≤ jsSafeIntegerMax) ∧
        fence.reconciliationExecutionId = none ∧ fence.isQuiescent executions now = true := by
  have hblocking : fence.blockingExecutionId.all (fun pk => jsSafeIntegerMax < pk) = false ↔
      ∃ pk, fence.blockingExecutionId = some pk ∧ pk ≤ jsSafeIntegerMax := by
    cases fence.blockingExecutionId with
    | none => simp
    | some pk => simp
  have hregister : ¬ ("reconcile" : String) = "register" := by decide
  rw [← hblocking, ScopeFence.registrationRefusal]
  simp only [hregister, false_and, if_false, true_and]
  split_ifs with hgeneration hheld hquiescent
  · simp [Nat.not_lt.mpr hgeneration]
  · simp only [false_iff, not_and]
    intro _ hstate hpk hnone
    rcases hheld with h | h | h
    · exact absurd h hstate
    · rw [h] at hpk
      cases hpk
    · exact absurd hnone h
  · simp [hquiescent]
  · simp only [not_or, Bool.not_eq_true, ne_eq, not_not] at hheld hquiescent
    simp only [Bool.not_eq_false] at hquiescent
    simp [Nat.not_le.mp hgeneration, hheld, hquiescent]

theorem registrationRefusal_register {fence : ScopeFence} {executions : ℕ → Option StoredExecution}
    {now : DateTime} (hgeneration : fence.takeoverGeneration < jsSafeIntegerMax)
    (hstate : fence.state = .clear) (hblocking : fence.blockingExecutionId = none)
    (hreconciliation : fence.reconciliationExecutionId = none) :
    fence.registrationRefusal executions now "register" = none := by
  simp [ScopeFence.registrationRefusal, Nat.not_le.mpr hgeneration, hstate, hblocking,
    hreconciliation]

/-! ## The ledger form -/

def sshNames (openbao : Bool) : List String :=
  let access := ["ssh_principal", "ssh_method", "ssh_host", "ssh_port", "ssh_known_hosts_sha256",
    "ssh_policy_ref"]
  let identity := ["ssh_service_id", "ssh_service_revision", "ssh_identity_id",
    "ssh_identity_revision"]
  if openbao then ["ssh_storage_backend"] ++ identity ++
    ["ssh_credential_uuid", "ssh_credential_type", "ssh_kv_version"] ++ access
  else identity ++ ["ssh_storage_backend"] ++ access

def fixedNames : List String :=
  ["target", "target_object", "runner_cluster_id", "runner_node_id", "runner_node",
    "runner_proxmox_vmid", "runner_tenant_id", "runner_role_id", "runner_vcpus",
    "runner_memory_mib", "runner_disk_mib", "runner_ipv4",
    "operation", "scope", "gitea_scope", "gitea_target", "gitea_target_object", "gitea_ipv4",
    "fence_state", "fence_expected_sha256", "fence_execution_id", "fence_generation",
    "register_helper_sha256", "token_reset_helper_sha256"]

def registrationNames (runner gitea : Bool) : List String :=
  fixedNames ++ (sshNames runner).map ("runner_" ++ ·) ++ (sshNames gitea).map ("gitea_" ++ ·) ++
    ["command_fingerprint"]

theorem SshSnapshot.names_entries (s : SshSnapshot) :
    s.entries.map Prod.fst = sshNames s.openbao.isSome := by
  unfold SshSnapshot.entries
  cases s.openbao <;> rfl

theorem names_normalizedRegistration (f : RunnerFacts) (r : RegistrationRequest)
    (fence : ScopeFence) : (normalizedRegistration f r fence).map Prod.fst =
      registrationNames f.runnerSsh.openbao.isSome f.giteaSsh.openbao.isSome := by
  have hnamed : ∀ (start : String) (s : SshSnapshot), (named start s.entries).map Prod.fst =
      (sshNames s.openbao.isSome).map (start ++ ·) := fun start s => by
    rw [← s.names_entries, named, List.map_map, List.map_map]
    rfl
  simp only [normalizedRegistration, List.map_append, hnamed]
  rfl

/-- The local snapshot uses fewer of the names. -/
theorem registrationNames_subperm (runner gitea : Bool) :
    (registrationNames runner gitea).Subperm (registrationNames true true) := by
  have hssh : ∀ b, (sshNames b).Nodup ∧ sshNames b ⊆ sshNames true := by decide +kernel
  have hmap : ∀ (start : String) b,
      ((sshNames b).map (start ++ ·)).Subperm ((sshNames true).map (start ++ ·)) := by
    intro start b
    refine List.subperm_of_subset ((hssh b).1.map fun x y h => ?_) (List.map_subset _ (hssh b).2)
    exact String.append_right_inj start |>.mp h
  have hrunner := List.Subperm.append (List.Subperm.refl fixedNames) (hmap "runner_" runner)
  exact List.Subperm.append (List.Subperm.append hrunner (hmap "gitea_" gitea)) (List.Subperm.refl _)

theorem registrationNames_nodup (runner gitea : Bool) : (registrationNames runner gitea).Nodup := by
  have hall : (registrationNames true true).Nodup := by decide +kernel
  obtain ⟨names, hperm, hsub⟩ := registrationNames_subperm runner gitea
  exact hperm.nodup_iff.mp (hall.sublist hsub)

theorem plain_registrationNames {runner gitea : Bool} {name : String}
    (h : name ∈ registrationNames runner gitea) : isPlainName name = true := by
  have hfixed : (fixedNames ++ ["command_fingerprint"]).all isPlainName = true := by
    unfold fixedNames
    repeat refine all_plain_cons (by rw [isPlainName_ofList]; decide) ?_
    rfl
  have hssh : (sshNames true).all isPlainName = true := by
    unfold sshNames
    repeat refine all_plain_cons (by rw [isPlainName_ofList]; decide) ?_
    rfl
  have hstart : ∀ start ∈ ["runner_", "gitea_"], isPlainName start = true ∧
      start.toList.countP (· == '-') = 0 := by decide +kernel
  have hmem := (registrationNames_subperm runner gitea).subset h
  simp only [registrationNames, List.mem_append, List.mem_map] at hmem
  rcases hmem with ((hmem | ⟨ssh, hmem, rfl⟩) | ⟨ssh, hmem, rfl⟩) | hmem
  · exact List.all_eq_true.mp hfixed name (List.mem_append_left _ hmem)
  · obtain ⟨hplain, hdashes⟩ := hstart "runner_" (by simp)
    exact isPlainName_append hplain hdashes (List.all_eq_true.mp hssh ssh hmem)
  · obtain ⟨hplain, hdashes⟩ := hstart "gitea_" (by simp)
    exact isPlainName_append hplain hdashes (List.all_eq_true.mp hssh ssh hmem)
  · exact List.all_eq_true.mp hfixed name (List.mem_append_right _ hmem)

theorem plainMapping_normalizedRegistration (f : RunnerFacts) (r : RegistrationRequest)
    (fence : ScopeFence) : PlainMapping (normalizedRegistration f r fence) := by
  have hnames := names_normalizedRegistration f r fence
  have hlength : (normalizedRegistration f r fence).length ≤ (registrationNames true true).length := by
    rw [← List.length_map Prod.fst, hnames]
    exact (registrationNames_subperm _ _).length_le
  refine ⟨hnames ▸ registrationNames_nodup _ _, hlength.trans (by decide), fun e he => ?_⟩
  exact plain_registrationNames (hnames ▸ List.mem_map_of_mem he)

theorem find_binding (f : RunnerFacts) {r : RegistrationRequest} {fence : ScopeFence} {key : String}
    {v : Json} (h : (key, v) ∈ r.binding fence) :
    Json.find (normalizedRegistration f r fence) key = some v := by
  rw [Json.find_eq_some_iff (plainMapping_normalizedRegistration f r fence).nodup]
  simp only [normalizedRegistration, List.mem_append]
  exact .inl (.inl (.inl (.inr h)))

def IsPlainText (s : String) : Prop := isPlainName s = true ∧ s.length ≤ maxEventStringLength

instance (s : String) : Decidable (IsPlainText s) :=
  inferInstanceAs (Decidable (isPlainName s = true ∧ s.length ≤ maxEventStringLength))

section

variable (P : Platform) (f : RunnerFacts) {r : RegistrationRequest} {fence : ScopeFence}
  {key : String}

theorem find_ledger_str (hkey : OpenName key) {s : String} (h : (key, .str s) ∈ r.binding fence)
    (hs : IsPlainText s) :
    Json.find (ledgerNormalizedParams P (normalizedRegistration f r fence)) key = some (.str s) := by
  rw [find_ledgerNormalizedParams P (plainMapping_normalizedRegistration f r fence),
    find_binding f h, Option.map_some, redactLevels_str hkey,
    redactEventText_of_plain P hs.1 (hs.2.trans (maxEventStringLength_le_limit _))]

theorem find_ledger_scalar (hkey : OpenName key) {v : Json} (h : (key, v) ∈ r.binding fence)
    (hobj : ∀ d, v ≠ .obj d) (harr : ∀ xs, v ≠ .arr xs) (hstr : ∀ s, v ≠ .str s) :
    Json.find (ledgerNormalizedParams P (normalizedRegistration f r fence)) key = some v := by
  rw [find_ledgerNormalizedParams P (plainMapping_normalizedRegistration f r fence),
    find_binding f h, Option.map_some, redactLevels_scalar hkey _ _ hobj harr hstr]

end

structure Binds (P : Platform) (r : RegistrationRequest) (fence : ScopeFence) (normalized : Entries) :
    Prop where
  operation : Json.find normalized "operation" = some (.str r.operation)
  scope : Json.find normalized "scope" = some (.str r.scope)
  canonicalScope : Json.find normalized "gitea_scope" = some (.str r.canonicalScope)
  state : Json.find normalized "fence_state" = some (.str fence.state.value)
  digest : Json.find normalized "fence_expected_sha256" =
    some (.str (DomainEvent.orText fence.expectedTokenSha256 fenceUnknownSha256))
  owner : Json.find normalized "fence_execution_id" = some (keyValue fence.blockingExecutionId)
  generation : Json.find normalized "fence_generation" = some (.int (fence.takeoverGeneration + 1))

def ScopeFence.DigestPlain (fence : ScopeFence) : Prop := IsPlainText fence.expectedTokenSha256

theorem RegistrationRequest.Reviewed.plain {r : RegistrationRequest} (h : r.Reviewed) :
    IsPlainText r.operation ∧ IsPlainText r.scope ∧ IsPlainText r.canonicalScope := by
  have hops : ∀ op ∈ operations, IsPlainText op := by decide +kernel
  have hscopes : ∀ e ∈ scopeToGiteaScope, IsPlainText e.1 ∧ IsPlainText e.2 := by decide +kernel
  have hscope := hscopes (r.scope, r.canonicalScope) h.scope_mem
  exact ⟨hops _ h.operation_mem, hscope⟩

theorem binds_ledger (P : Platform) (f : RunnerFacts) {r : RegistrationRequest} {fence : ScopeFence}
    (hr : r.Reviewed) (hdigest : fence.DigestPlain) :
    Binds P r fence (ledgerNormalizedParams P (normalizedRegistration f r fence)) := by
  obtain ⟨hop, hscope, hcanonical⟩ := hr.plain
  have hstate : IsPlainText fence.state.value := by
    cases fence.state <;> decide +kernel
  have hexpected : IsPlainText (DomainEvent.orText fence.expectedTokenSha256 fenceUnknownSha256) := by
    unfold DomainEvent.orText
    split_ifs
    · decide +kernel
    · exact hdigest
  have hopen : ∀ key ∈ ["operation", "scope", "gitea_scope", "fence_state", "fence_expected_sha256",
      "fence_execution_id", "fence_generation"], OpenName key := by decide +kernel
  constructor
  · exact find_ledger_str P f (hopen _ (by simp)) (by simp [RegistrationRequest.binding]) hop
  · exact find_ledger_str P f (hopen _ (by simp)) (by simp [RegistrationRequest.binding]) hscope
  · exact find_ledger_str P f (hopen _ (by simp)) (by simp [RegistrationRequest.binding]) hcanonical
  · exact find_ledger_str P f (hopen _ (by simp)) (by simp [RegistrationRequest.binding]) hstate
  · exact find_ledger_str P f (hopen _ (by simp)) (by simp [RegistrationRequest.binding]) hexpected
  · refine find_ledger_scalar P f (hopen _ (by simp)) (by simp [RegistrationRequest.binding]) ?_ ?_ ?_
    all_goals cases fence.blockingExecutionId <;> simp [keyValue]
  · exact find_ledger_scalar P f (hopen _ (by simp)) (by simp [RegistrationRequest.binding]) (by simp)
      (by simp) (by simp)

section

variable {P : Platform} {r : RegistrationRequest} {fence : ScopeFence} {normalized : Entries}

theorem textOr_of_find {key s : String} (h : Json.find normalized key = some (.str s)) :
    textOr P normalized key "" = s := by
  by_cases hs : s = ""
  · simp [textOr, h, Json.truthy, hs]
  · simp [textOr, h, Json.truthy, pyStr, hs]

/-- The row that a run was normalized against grants it the next generation. -/
theorem Binds.approvedGeneration (h : Binds P r fence normalized)
    (hlt : fence.takeoverGeneration < jsSafeIntegerMax) :
    fence.approvedGeneration P normalized = some (fence.takeoverGeneration + 1) := by
  have hgeneration : valueOf normalized "fence_generation" = .int (fence.takeoverGeneration + 1) := by
    rw [valueOf, h.generation]
    rfl
  have howner : valueOf normalized "fence_execution_id" = keyValue fence.blockingExecutionId := by
    rw [valueOf, h.owner]
    rfl
  have hle : ((fence.takeoverGeneration + 1 : ℕ) : ℤ) ≤ jsSafeIntegerMax := by exact_mod_cast hlt
  rw [ScopeFence.approvedGeneration, hgeneration]
  dsimp only
  rw [if_pos]
  · congr 1
  · exact ⟨(textOr_of_find h.state).symm, by rw [howner]; exact rfl, (textOr_of_find h.digest).symm,
      rfl, by exact_mod_cast hle⟩

end

end NetboxRpc
