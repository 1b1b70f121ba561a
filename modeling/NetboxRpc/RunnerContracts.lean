import NetboxRpc.JsonSchema
import NetboxRpc.Procedures

/-!
# The runner contracts

`gitea_runner_contract.py` and `gitea_org_ci_runner_contract.py`: the two procedures that share the
token scope fence, with the constants and result schemas that the fence and the transport read.
-/

namespace NetboxRpc

def jsSafeIntegerMax : ℕ := 9007199254740991

def fenceUnknownSha256 : String := "0000000000000000000000000000000000000000000000000000000000000000"

/-! ## Schema building blocks -/

namespace Schema

def texts (values : List String) : Json := .arr (values.map .str)

def typed (name : String) : Json := .obj [("type", .str name)]

def typedAny (names : List String) : Json := .obj [("type", texts names)]

def constant (value : Json) : Json := .obj [("const", value)]

def choice (values : List String) : Json := .obj [("enum", texts values)]

def textChoice (values : List String) : Json :=
  .obj [("type", .str "string"), ("enum", texts values)]

def safeInteger (type : Json) : Json :=
  .obj [("type", type), ("minimum", .int 1), ("maximum", .int jsSafeIntegerMax)]

def positive (type : Json) : Json := .obj [("type", type), ("minimum", .int 1)]

def digest (pattern : String) (type : Json) : Json := .obj [("type", type), ("pattern", .str pattern)]

def text : Json := .str "string"
def integer : Json := .str "integer"
def nullableText : Json := texts ["string", "null"]
def nullableInteger : Json := texts ["integer", "null"]

def alternative (props : List (String × Json)) : Json := .obj [("properties", .obj props)]

end Schema

open Schema

def resetStates : List String :=
  ["not_started", "rotated", "already_inactive", "reconciled_expected_active",
    "reconciled_expected_inactive", "reconciled_no_active", "failed", "indeterminate"]

def reconciledStates : List String :=
  ["reconciled_expected_active", "reconciled_expected_inactive", "reconciled_no_active"]

/-! ## `gitea_runner_contract` -/

namespace GiteaRunner

def runnerTargetName : String := "nmultifibra-ci-untrusted-01"

def operations : List String := ["reconcile", "register"]

def scopeToGiteaScope : List (String × String) :=
  [("netbox-proxbox", "emersonfelipesp/netbox-proxbox"), ("nmulticloud-org", "N-MultiCloud"),
    ("nmulticloud-org-root", "N-MultiCloud"), ("proxbox-api", "emersonfelipesp/proxbox-api"),
    ("release-netbox-proxbox-validation", "emersonfelipesp/netbox-proxbox"),
    ("release-netbox-proxbox-build", "emersonfelipesp/netbox-proxbox"),
    ("release-proxbox-api-validation", "emersonfelipesp/proxbox-api"),
    ("release-proxbox-api-build", "emersonfelipesp/proxbox-api")]

def scopes : List String :=
  ["netbox-proxbox", "nmulticloud-org", "nmulticloud-org-root", "proxbox-api",
    "release-netbox-proxbox-build", "release-netbox-proxbox-validation",
    "release-proxbox-api-build", "release-proxbox-api-validation"]

def stages : List String :=
  ["generate_token", "register", "reset", "reconcile", "complete", "indeterminate"]

def sha256Pattern : String := "^[0-9a-f]{64}$"

def resultNames : List String :=
  ["ok", "procedure", "target", "operation", "scope", "fence_execution_id", "fence_generation",
    "registered", "reconciled", "token_invalidated", "token_reset_required", "token_sha256",
    "reset_state", "prior_token_id", "prior_active_sha256", "replacement_token_id", "stage"]

def resultProperties : List (String × Json) :=
  [("ok", typed "boolean"),
    ("procedure", constant (.str giteaRunnerRegister)),
    ("target", constant (.str runnerTargetName)),
    ("operation", textChoice operations),
    ("scope", textChoice scopes),
    ("fence_execution_id", safeInteger nullableInteger),
    ("fence_generation", safeInteger integer),
    ("registered", typedAny ["boolean", "null"]),
    ("reconciled", typedAny ["boolean", "null"]),
    ("token_invalidated", typed "boolean"),
    ("token_reset_required", typed "boolean"),
    ("token_sha256", digest sha256Pattern nullableText),
    ("reset_state", textChoice resetStates),
    ("prior_token_id", safeInteger nullableInteger),
    ("prior_active_sha256", digest sha256Pattern nullableText),
    ("replacement_token_id", safeInteger nullableInteger),
    ("stage", textChoice stages)]

def resultAlternatives : List Json :=
  [alternative
    [("ok", constant (.bool true)),
      ("operation", constant (.str "register")),
      ("registered", constant (.bool true)),
      ("reconciled", constant .null),
      ("token_invalidated", constant (.bool true)),
      ("token_reset_required", constant (.bool false)),
      ("token_sha256", digest sha256Pattern text),
      ("reset_state", choice ["rotated", "already_inactive"]),
      ("prior_token_id", positive integer),
      ("prior_active_sha256", constant .null),
      ("replacement_token_id", positive integer),
      ("stage", constant (.str "complete"))],
  alternative
    [("ok", constant (.bool false)),
      ("operation", constant (.str "register")),
      ("registered", constant (.bool false)),
      ("reconciled", constant .null),
      ("token_invalidated", constant (.bool false)),
      ("token_reset_required", constant (.bool false)),
      ("token_sha256", constant .null),
      ("reset_state", constant (.str "not_started")),
      ("prior_token_id", constant .null),
      ("prior_active_sha256", constant .null),
      ("replacement_token_id", constant .null),
      ("stage", constant (.str "generate_token"))],
  alternative
    [("ok", constant (.bool false)),
      ("operation", constant (.str "register")),
      ("registered", typedAny ["boolean", "null"]),
      ("reconciled", constant .null),
      ("token_invalidated", constant (.bool true)),
      ("token_reset_required", constant (.bool false)),
      ("token_sha256", digest sha256Pattern text),
      ("reset_state", choice ["rotated", "already_inactive"]),
      ("prior_token_id", positive integer),
      ("prior_active_sha256", constant .null),
      ("replacement_token_id", positive integer),
      ("stage", choice ["register", "indeterminate"])],
  alternative
    [("ok", constant (.bool false)),
      ("operation", constant (.str "register")),
      ("registered", typedAny ["boolean", "null"]),
      ("reconciled", constant .null),
      ("token_invalidated", constant (.bool false)),
      ("token_reset_required", constant (.bool true)),
      ("token_sha256", digest sha256Pattern nullableText),
      ("reset_state", choice ["failed", "indeterminate"]),
      ("prior_token_id", positive nullableInteger),
      ("prior_active_sha256", constant .null),
      ("replacement_token_id", positive nullableInteger),
      ("stage", choice ["register", "reset", "indeterminate"])],
  alternative
    [("ok", constant (.bool true)),
      ("operation", constant (.str "reconcile")),
      ("registered", constant .null),
      ("reconciled", constant (.bool true)),
      ("token_invalidated", constant (.bool true)),
      ("token_reset_required", constant (.bool false)),
      ("token_sha256", digest sha256Pattern text),
      ("reset_state", choice reconciledStates),
      ("prior_token_id", positive nullableInteger),
      ("prior_active_sha256", digest sha256Pattern nullableText),
      ("replacement_token_id", positive integer),
      ("stage", constant (.str "complete"))],
  alternative
    [("ok", constant (.bool false)),
      ("operation", constant (.str "reconcile")),
      ("registered", constant .null),
      ("reconciled", typedAny ["boolean", "null"]),
      ("token_invalidated", constant (.bool false)),
      ("token_reset_required", constant (.bool true)),
      ("token_sha256", digest sha256Pattern text),
      ("reset_state", choice ["failed", "indeterminate"]),
      ("prior_token_id", positive nullableInteger),
      ("prior_active_sha256", digest sha256Pattern nullableText),
      ("replacement_token_id", positive nullableInteger),
      ("stage", choice ["reconcile", "indeterminate"])]]

def resultSchema : List (String × Json) :=
  [("type", .str "object"),
    ("additionalProperties", .bool false),
    ("required", texts resultNames),
    ("properties", .obj resultProperties),
    ("oneOf", .arr resultAlternatives)]

end GiteaRunner

/-! ## `gitea_org_ci_runner_contract` -/

namespace GiteaOrgCiRunner

def targetName : String := "Gitea-Runner"

def defaultGiteaInstanceUrl : String := "http://10.0.30.96:3000"

def defaultOrganization : String := "N-MultiCloud"

def operations : List String := ["provision", "reconcile"]

def hostGenerationDependency : String := "N-MultiCloud/nmulticloud-context#411"

def sha256Pattern : String := "^[0-9a-f]{64}(?![\\s\\S])"

def rootLane : String := "root-python312"

def rootScope : String := "nmulticloud-org-root"

def jobNetworkPolicy : Json :=
  .obj [("default_action", .str "deny"),
    ("build", .obj [("network_mode", .str "none"), ("dns_resolvers", .arr []), ("egress", .arr [])]),
    ("publisher", .obj [("network_mode", .str "filtered"),
      ("dns_required", .bool false),
      ("dns_resolvers", .arr []),
      ("host_bindings", .arr [.obj [("hostname", .str "git.nmulti.cloud"),
        ("ipv4", .str "10.0.30.96")]]),
      ("https_origins", texts ["https://git.nmulti.cloud:443"]),
      ("ipv4_destinations", texts ["10.0.30.96/32"]),
      ("tcp_ports", .arr [.int 443]),
      ("tls_server_names", texts ["git.nmulti.cloud"]),
      ("tls_verify", .bool true),
      ("redirects", .bool false)]),
    ("other_egress", .str "deny")]

def tmpfs (path : String) (size : ℤ) : Json :=
  .obj [("path", .str path), ("size_bytes", .int size),
    ("options", texts ["nodev", "nosuid", "noexec"])]

def ulimit (bound : ℤ) : Json := .obj [("soft", .int bound), ("hard", .int bound)]

def jobResourceLimits : Json :=
  .obj [("cgroup_version", .int 2),
    ("cpu_period_us", .int 100000),
    ("cpu_quota_us", .int 200000),
    ("cpu_weight", .int 100),
    ("memory_max_bytes", .int 4294967296),
    ("memory_swap_max_bytes", .int 0),
    ("pids_max", .int 512),
    ("root_filesystem_read_only", .bool true),
    ("writable_paths", texts ["/workspace", "/tmp", "/run"]),
    ("workspace", .obj [("path", .str "/workspace"), ("kind", .str "ephemeral-volume"),
      ("host_bind", .bool false), ("disk_quota_bytes", .int 8589934592)]),
    ("tmpfs", .arr [tmpfs "/tmp" 1073741824, tmpfs "/run" 67108864]),
    ("ulimits", .obj [("core", ulimit 0), ("fsize", ulimit 8589934592), ("nofile", ulimit 1024),
      ("nproc", ulimit 512)]),
    ("wall_clock_timeout_seconds", .int 1800),
    ("kill_grace_seconds", .int 10)]

/-- The fields of the one lane whose result property is the constant of the lane itself. -/
def fixedLaneFields : List (String × Json) :=
  [("runner_label", .str "ci-untrusted-root-python312"),
    ("service_user", .str "gitea-runner-nmulticloud-org-root"),
    ("service_user_login", .bool false),
    ("state_dir", .str "/var/lib/gitea-runner-nmulticloud-org-root"),
    ("config_path", .str "/etc/gitea-runner/nmulticloud-org-root.yaml"),
    ("capacity", .int 1),
    ("fresh_container_per_job", .bool true),
    ("rootless_user_namespace", .bool true),
    ("container_uid0_maps_to_host_root", .bool false),
    ("container_privileged", .bool false),
    ("container_host_network", .bool false),
    ("container_host_pid", .bool false),
    ("container_host_ipc", .bool false),
    ("container_host_uts", .bool false),
    ("container_bind_workdir", .bool false),
    ("container_valid_volumes", .arr []),
    ("container_devices", .arr []),
    ("container_host_effective_capabilities", .arr []),
    ("container_host_ambient_capabilities", .arr []),
    ("job_cap_drop_all", .bool true),
    ("job_no_new_privileges", .bool true),
    ("container_cap_add", texts ["CHOWN", "SETUID", "SETGID", "FOWNER", "DAC_OVERRIDE"]),
    ("container_daemon_socket_in_job", .bool false),
    ("job_network_policy", jobNetworkPolicy),
    ("job_resource_limits", jobResourceLimits),
    ("management_egress_policy", .str "deny-except-gitea-publisher"),
    ("production_egress_policy", .str "deny-except-gitea-publisher"),
    ("cross_scope_state", .bool false),
    ("activation_eligible", .bool false),
    ("activation_blocker", .str hostGenerationDependency),
    ("base_image_reference", .str ("ghcr.io/astral-sh/uv:0.12.5-python3.12-trixie-slim@" ++
      "sha256:0d05436f6b7b8c88236dcaeab65c2b819df944e9af0be7f4b3a2117c38fe868f")),
    ("base_image_digest",
      .str "0d05436f6b7b8c88236dcaeab65c2b819df944e9af0be7f4b3a2117c38fe868f"),
    ("provision_helper_path", .null),
    ("provision_helper_sha256", .null),
    ("prove_helper_path", .null),
    ("prove_helper_sha256", .null),
    ("python_version", .str "3.12.14"),
    ("python_source_sha256",
      .str "5c8462af5790baf43a321a1559dbe0db06d1be4300fb85fb53c40060668e548a"),
    ("uv_version", .str "0.12.5"),
    ("uv_archive_sha256",
      .str "68a509da24b06b4223a1c0175fb5eb5bc79342b76cbeff0cfe51ac3f5b17b6b2")]

def rootLaneContract : List (String × Json) :=
  [("compose_project_dir", .str "/opt/nmc-ci-untrusted-root-org-241"),
    ("runner_name", .str "ci-untrusted-root-nmulticloud-org-241"),
    ("runner_image", .null),
    ("runner_labels", texts ["ci-untrusted-root-python312"]),
    ("executor", .str "docker"),
    ("runner_mounts_docker_socket", .bool true),
    ("jobs_mount_docker_socket", .bool false),
    ("runner_cap_drop_all", .bool true),
    ("runner_no_new_privileges", .bool true),
    ("job_user", .str "0:0")] ++ fixedLaneFields

def laneBinding : Json :=
  .obj [("if", .obj [("properties", .obj [("lane", constant (.str rootLane))]),
      ("required", texts ["lane"])]),
    ("then", .obj [("required", texts (rootLaneContract.map Prod.fst)),
      ("properties", .obj (("scope", constant (.str rootScope)) ::
        rootLaneContract.map (fun f => (f.1, constant f.2))))])]

def laneResultProperties : List (String × Json) :=
  [("compose_project_dir", choice ["/opt/nmc-ci-untrusted-root-org-241"]),
    ("runner_name", choice ["ci-untrusted-root-nmulticloud-org-241"]),
    ("runner_image", .obj [("enum", .arr [.null])]),
    ("runner_labels", .obj [("type", .str "array"),
      ("items", .obj [("type", .str "string"), ("maxLength", .int 512)]),
      ("minItems", .int 1), ("maxItems", .int 8), ("uniqueItems", .bool true)]),
    ("executor", textChoice ["host", "docker"]),
    ("runner_mounts_docker_socket", typed "boolean"),
    ("jobs_mount_docker_socket", typed "boolean"),
    ("runner_cap_drop_all", typed "boolean"),
    ("runner_no_new_privileges", typed "boolean"),
    ("job_user", .obj [("type", nullableText), ("maxLength", .int 64)])] ++
  fixedLaneFields.map (fun f => (f.1, constant f.2))

def stages : List String :=
  ["preconditions", "docker", "image", "config", "register", "start", "verify", "reset",
    "reconcile", "complete", "indeterminate"]

def resultNames : List String :=
  ["ok", "procedure", "target", "operation", "scope", "lane", "fence_execution_id",
    "fence_generation", "provisioned", "registered", "reconciled", "stage", "organization",
    "gitea_instance_url", "token_invalidated", "token_reset_required", "token_sha256",
    "reset_state", "prior_token_id", "prior_active_sha256", "replacement_token_id",
    "runner_name", "runner_labels", "runner_image", "compose_project_dir", "executor",
    "runner_mounts_docker_socket", "jobs_mount_docker_socket", "runner_cap_drop_all",
    "runner_no_new_privileges", "job_user"]

def resultProperties : List (String × Json) :=
  [("ok", typed "boolean"),
    ("procedure", constant (.str giteaOrgCiRunnerProvision)),
    ("target", constant (.str targetName)),
    ("operation", textChoice operations),
    ("scope", textChoice [rootScope]),
    ("lane", textChoice [rootLane]),
    ("fence_execution_id", safeInteger nullableInteger),
    ("fence_generation", safeInteger integer),
    ("provisioned", typedAny ["boolean", "null"]),
    ("registered", typedAny ["boolean", "null"]),
    ("reconciled", typedAny ["boolean", "null"]),
    ("stage", textChoice stages),
    ("organization", constant (.str defaultOrganization)),
    ("gitea_instance_url", constant (.str defaultGiteaInstanceUrl)),
    ("token_invalidated", typed "boolean"),
    ("token_reset_required", typed "boolean"),
    ("token_sha256", digest sha256Pattern nullableText),
    ("reset_state", textChoice resetStates),
    ("prior_token_id", safeInteger nullableInteger),
    ("prior_active_sha256", digest sha256Pattern nullableText),
    ("replacement_token_id", safeInteger nullableInteger)] ++ laneResultProperties

def resultAlternatives : List Json :=
  [alternative
    [("ok", constant (.bool true)),
      ("operation", constant (.str "provision")),
      ("provisioned", constant (.bool true)),
      ("registered", constant (.bool true)),
      ("reconciled", constant .null),
      ("stage", constant (.str "complete")),
      ("token_invalidated", constant (.bool true)),
      ("token_reset_required", constant (.bool false)),
      ("token_sha256", digest sha256Pattern text),
      ("reset_state", choice ["rotated", "already_inactive"]),
      ("prior_token_id", positive integer),
      ("replacement_token_id", positive integer)],
  alternative
    [("ok", constant (.bool false)),
      ("operation", constant (.str "provision")),
      ("provisioned", constant (.bool false)),
      ("registered", constant (.bool false)),
      ("reconciled", constant .null),
      ("token_invalidated", constant (.bool false)),
      ("token_reset_required", constant (.bool false)),
      ("token_sha256", constant .null),
      ("reset_state", constant (.str "not_started")),
      ("prior_token_id", constant .null),
      ("prior_active_sha256", constant .null),
      ("replacement_token_id", constant .null),
      ("stage", choice ["preconditions", "docker", "image", "config"])],
  alternative
    [("ok", constant (.bool false)),
      ("operation", constant (.str "provision")),
      ("provisioned", typedAny ["boolean", "null"]),
      ("registered", typedAny ["boolean", "null"]),
      ("reconciled", constant .null),
      ("token_invalidated", constant (.bool true)),
      ("token_reset_required", constant (.bool false)),
      ("token_sha256", digest sha256Pattern text),
      ("reset_state", choice ["rotated", "already_inactive"]),
      ("prior_token_id", positive integer),
      ("replacement_token_id", positive integer),
      ("stage", choice ["register", "start", "verify", "indeterminate"])],
  alternative
    [("ok", constant (.bool false)),
      ("operation", constant (.str "provision")),
      ("provisioned", typedAny ["boolean", "null"]),
      ("registered", typedAny ["boolean", "null"]),
      ("reconciled", constant .null),
      ("token_invalidated", constant (.bool false)),
      ("token_reset_required", constant (.bool true)),
      ("reset_state", choice ["failed", "indeterminate"]),
      ("stage", choice ["register", "start", "verify", "reset", "indeterminate"])],
  alternative
    [("ok", constant (.bool true)),
      ("operation", constant (.str "reconcile")),
      ("provisioned", constant .null),
      ("registered", constant .null),
      ("reconciled", constant (.bool true)),
      ("stage", constant (.str "complete")),
      ("token_invalidated", constant (.bool true)),
      ("token_reset_required", constant (.bool false)),
      ("token_sha256", digest sha256Pattern text),
      ("reset_state", choice reconciledStates),
      ("replacement_token_id", positive integer)],
  alternative
    [("ok", constant (.bool false)),
      ("operation", constant (.str "reconcile")),
      ("provisioned", constant .null),
      ("registered", constant .null),
      ("reconciled", typedAny ["boolean", "null"]),
      ("token_invalidated", constant (.bool false)),
      ("token_reset_required", constant (.bool true)),
      ("token_sha256", digest sha256Pattern text),
      ("reset_state", choice ["failed", "indeterminate"]),
      ("replacement_token_id", positive nullableInteger),
      ("stage", choice ["reconcile", "indeterminate"])]]

def resultSchema : List (String × Json) :=
  [("type", .str "object"),
    ("additionalProperties", .bool false),
    ("required", texts resultNames),
    ("properties", .obj resultProperties),
    ("allOf", .arr [laneBinding]),
    ("oneOf", .arr resultAlternatives)]

end GiteaOrgCiRunner

/-! ## The contract of a procedure -/

inductive RunnerContract
  | giteaRunner
  | giteaOrgCiRunner
deriving DecidableEq, Repr

def giteaRunnerScopeContract (procedureName : String) : RunnerContract :=
  if procedureName = giteaOrgCiRunnerProvision then .giteaOrgCiRunner else .giteaRunner

def RunnerContract.startOperation : RunnerContract → String
  | .giteaRunner => "register"
  | .giteaOrgCiRunner => "provision"

def RunnerContract.operations : RunnerContract → List String
  | .giteaRunner => GiteaRunner.operations
  | .giteaOrgCiRunner => GiteaOrgCiRunner.operations

def RunnerContract.schemaEntries : RunnerContract → List (String × Json)
  | .giteaRunner => GiteaRunner.resultSchema
  | .giteaOrgCiRunner => GiteaOrgCiRunner.resultSchema

def RunnerContract.resultSchema (c : RunnerContract) : Json := .obj c.schemaEntries

def reconciliationQuiescenceSeconds : ℕ := 1800

end NetboxRpc
