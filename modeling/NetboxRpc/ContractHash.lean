import NetboxRpc.JsonReading
import NetboxRpc.KeyOrder
import NetboxRpc.KeyedTable

/-!
# The command contract hash

`derive_command_contract_hash` hashes the canonical JSON text of what a procedure runs: its handler,
version and effect and its commands in sequence order. Procedures of some handlers also hash a
semantic contract; those contracts are a parameter here.
-/

namespace NetboxRpc

namespace Capabilities

structure Command where
  sequence : ℕ
  stepType : String
  deviceCliMode : String
  argv : Json
  renderMode : String
  producesVar : String
  captureKind : String
  captureExpression : String
  conditionParam : String
  conditionNegate : Bool
  forEachParam : String
  continueOnError : Bool

structure Procedure where
  handlerId : String
  version : ℕ
  effect : String
  commands : KeyedTable Command Command.sequence

/-! ## The payload -/

/-- `list(argv or [])`; `none` when the value cannot be iterated. -/
def argvTokens (argv : Json) : Option (List Json) :=
  if argv.truthy then
    match argv with
    | .arr items => some items
    | .str s => some (s.toList.map fun c => .str (String.singleton c))
    | .obj entries => some (entries.map fun e => .str e.1)
    | _ => none
  else some []

def Command.contract (c : Command) (tokens : List Json) : List (String × Json) :=
  [("sequence", .int c.sequence), ("step_type", .str c.stepType),
    ("device_cli_mode", .str c.deviceCliMode), ("argv", .arr tokens),
    ("render_mode", .str c.renderMode), ("produces_var", .str c.producesVar),
    ("capture_kind", .str c.captureKind), ("capture_expression", .str c.captureExpression),
    ("condition_param", .str c.conditionParam), ("condition_negate", .bool c.conditionNegate),
    ("for_each_param", .str c.forEachParam), ("continue_on_error", .bool c.continueOnError)]

def commandContracts : List Command → Option (List Json)
  | [] => some []
  | c :: rest => do
    let tokens ← argvTokens c.argv
    let contracts ← commandContracts rest
    return .obj (c.contract tokens) :: contracts

def Procedure.ordered (p : Procedure) : List Command :=
  p.commands.rows.insertionSort fun c d => c.sequence ≤ d.sequence

def readVersion (version : ℕ) : ℕ := if version = 0 then 1 else version

def contractPayload (p : Procedure) (commands : List Json) : List (String × Json) :=
  [("handler_id", .str p.handlerId), ("version", .int (readVersion p.version)),
    ("effect", .str p.effect), ("commands", .arr commands)]

def baseCommandContractPayload (p : Procedure) : Option (List (String × Json)) :=
  (commandContracts p.ordered).map (contractPayload p)

/-! ## The hash -/

def semanticCapabilityHandlerIds : List String :=
  ["service.gitea.production.upgrade_1_27_1", "service.gitea.runner.register",
    "service.gitea.actions_runner.provision_org_ci_runner",
    "service.gitea.actions_runner.protected_pair.prove",
    "service.gitea.actions_runner.protected_pair.provision",
    "service.gitea.actions_runner.diagnose_user_ci_runner",
    "service.gitea.actions_runner.recover_user_ci_runner",
    "service.gitea.actions_runner.diagnose_org_ci_runner",
    "service.gitea.actions_runner.recover_org_ci_runner",
    "service.netbox.staging.deploy_dns_pair"]

def iamUiHandlerIds : List String :=
  ["inspect", "configure", "certificate", "activate"].map ("service.keycloak.iam_ui." ++ ·)

def netboxProductionRqWorkerProcedureNames : List String :=
  ["service.netbox.production.status_rq_worker", "service.netbox.production.restart_rq_worker"]

def sambaAdDcHandlerIds : List String :=
  ["os.linux.ubuntu.26.samba_ad_dc.preflight", "os.linux.ubuntu.26.samba_ad_dc.provision",
    "os.linux.ubuntu.26.samba_ad_dc.verify"]

def akvoradoBootstrapHandlerIds : List String :=
  ["os.linux_debian_13.preflight_akvorado", "os.linux_debian_13.install_akvorado"]

def akvoradoLifecycleHandlerIds : List String :=
  ["service.akvorado.1.config_read", "service.akvorado.1.config_deploy",
    "service.akvorado.1.status_stack", "service.akvorado.1.restart_stack"]

def hasSemanticContract (handlerId : String) : Bool :=
  handlerId ∈ semanticCapabilityHandlerIds || handlerId ∈ iamUiHandlerIds ||
    handlerId ∈ netboxProductionRqWorkerProcedureNames || handlerId ∈ sambaAdDcHandlerIds ||
    handlerId ∈ akvoradoBootstrapHandlerIds || handlerId ∈ akvoradoLifecycleHandlerIds

structure Hashing (δ : Type) where
  floatText : ℚ → String
  readable : Json.ReadableFloats floatText
  sha256 : List Char → δ
  semanticContract : Procedure → Json

variable {δ : Type}

def Hashing.canonical (H : Hashing δ) (value : Json) : List Char := value.sorted.dumps H.floatText

/-- `derive_command_contract_hash`; `none` when an argv cannot be iterated. -/
def Hashing.deriveCommandContractHash (H : Hashing δ) (p : Procedure) : Option δ :=
  (baseCommandContractPayload p).map fun payload =>
    H.sha256 (H.canonical (.obj
      (if hasSemanticContract p.handlerId then
        payload ++ [("semantic_contract", H.semanticContract p)]
      else payload)))

/-! ## What equal hashes say -/

/-- The commands agree on every field of the contract; the tokens are equal as Python values. -/
structure CommandsAgree (c d : Command) : Prop where
  sequence : c.sequence = d.sequence
  stepType : c.stepType = d.stepType
  deviceCliMode : c.deviceCliMode = d.deviceCliMode
  argv : ∃ tokens tokens', argvTokens c.argv = some tokens ∧ argvTokens d.argv = some tokens' ∧
    List.Forall₂ Json.KeyEq tokens tokens'
  renderMode : c.renderMode = d.renderMode
  producesVar : c.producesVar = d.producesVar
  captureKind : c.captureKind = d.captureKind
  captureExpression : c.captureExpression = d.captureExpression
  conditionParam : c.conditionParam = d.conditionParam
  conditionNegate : c.conditionNegate = d.conditionNegate
  forEachParam : c.forEachParam = d.forEachParam
  continueOnError : c.continueOnError = d.continueOnError

/-- The procedures have the same contract, up to how their versions are compared. -/
structure SameContract (p q : Procedure) : Prop where
  handlerId : p.handlerId = q.handlerId
  effect : p.effect = q.effect
  commands : List.Forall₂ CommandsAgree p.ordered q.ordered

theorem commandContracts_cons {c : Command} {rest : List Command} {contracts : List Json}
    (h : commandContracts (c :: rest) = some contracts) :
    ∃ tokens more, argvTokens c.argv = some tokens ∧ commandContracts rest = some more ∧
      contracts = .obj (c.contract tokens) :: more := by
  cases htokens : argvTokens c.argv with
  | none => simp [commandContracts, htokens] at h
  | some tokens =>
    cases hmore : commandContracts rest with
    | none => simp [commandContracts, htokens, hmore] at h
    | some more =>
      refine ⟨tokens, more, rfl, rfl, ?_⟩
      simpa [commandContracts, htokens, hmore] using h.symm

theorem commandsAgree_of_keyEq {c d : Command} {tokens tokens' : List Json}
    (hc : argvTokens c.argv = some tokens) (hd : argvTokens d.argv = some tokens')
    (h : Json.KeyEq (.obj (c.contract tokens)) (.obj (d.contract tokens'))) :
    CommandsAgree c d := by
  have hnodup : ((d.contract tokens').map Prod.fst).Nodup := by
    change (["sequence", "step_type", "device_cli_mode", "argv", "render_mode", "produces_var",
      "capture_kind", "capture_expression", "condition_param", "condition_negate",
      "for_each_param", "continue_on_error"] : List String).Nodup
    decide
  have hfields := Json.forall₂_entryEq_of_names h rfl hnodup
  simp only [Command.contract, List.forall₂_cons, Json.EntryEq, true_and] at hfields
  obtain ⟨hsequence, hstep, hmode, hargv, hrender, hproduces, hkind, hexpression, hparam, hnegate,
    heach, hcontinue, -⟩ := hfields
  constructor
  · exact Int.ofNat.inj (Json.int.inj hsequence)
  · exact Json.str.inj hstep
  · exact Json.str.inj hmode
  · exact ⟨tokens, tokens', hc, hd, Json.keyEq_arr_iff.mp hargv⟩
  · exact Json.str.inj hrender
  · exact Json.str.inj hproduces
  · exact Json.str.inj hkind
  · exact Json.str.inj hexpression
  · exact Json.str.inj hparam
  · exact Json.bool.inj hnegate
  · exact Json.str.inj heach
  · exact Json.bool.inj hcontinue

theorem commandsAgree_of_contracts {cs ds : List Command} {contracts contracts' : List Json}
    (hcs : commandContracts cs = some contracts) (hds : commandContracts ds = some contracts')
    (h : List.Forall₂ Json.KeyEq contracts contracts') : List.Forall₂ CommandsAgree cs ds := by
  induction cs generalizing ds contracts contracts' with
  | nil =>
    cases hcs
    cases h
    cases ds with
    | nil => exact .nil
    | cons d ds =>
      obtain ⟨_, _, _, _, hempty⟩ := commandContracts_cons hds
      cases hempty
  | cons c cs ih =>
    obtain ⟨tokens, more, htokens, hmore, rfl⟩ := commandContracts_cons hcs
    cases h with
    | cons hhead htail =>
      cases ds with
      | nil => cases hds
      | cons d ds =>
        obtain ⟨tokens', more', htokens', hmore', heq⟩ := commandContracts_cons hds
        obtain ⟨rfl, rfl⟩ := List.cons.inj heq
        exact .cons (commandsAgree_of_keyEq htokens htokens' hhead) (ih hmore hmore' htail)

/-- Equal hashes of procedures without a semantic contract: everything agrees, the versions once 0
is read as 1. -/
theorem sameContract_of_hash {H : Hashing δ} (hsha : Function.Injective H.sha256) {p q : Procedure}
    (hp : hasSemanticContract p.handlerId = false) (hq : hasSemanticContract q.handlerId = false)
    {digest : δ} (hhash : H.deriveCommandContractHash p = some digest)
    (hhash' : H.deriveCommandContractHash q = some digest) :
    SameContract p q ∧ readVersion p.version = readVersion q.version := by
  rw [Hashing.deriveCommandContractHash, baseCommandContractPayload, Option.map_map,
    Option.map_eq_some_iff] at hhash hhash'
  obtain ⟨contracts, hcontracts, hdigest⟩ := hhash
  obtain ⟨contracts', hcontracts', hdigest'⟩ := hhash'
  simp only [Function.comp_apply, hp, hq, Bool.false_eq_true, if_false] at hdigest hdigest'
  have hpayload : Json.KeyEq (.obj (contractPayload p contracts))
      (.obj (contractPayload q contracts')) :=
    Json.dumps_injective H.readable (hsha (hdigest.trans hdigest'.symm))
  have hfields := Json.forall₂_entryEq_of_names hpayload rfl (by
    change (["handler_id", "version", "effect", "commands"] : List String).Nodup
    decide)
  simp only [contractPayload, List.forall₂_cons, Json.EntryEq, true_and] at hfields
  obtain ⟨hhandler, hversion, heffect, hcommands, -⟩ := hfields
  refine ⟨⟨Json.str.inj hhandler, Json.str.inj heffect, ?_⟩,
    Int.ofNat.inj (Json.int.inj hversion)⟩
  exact commandsAgree_of_contracts hcontracts hcontracts' (Json.keyEq_arr_iff.mp hcommands)

theorem eq_iff_of_readVersion_eq {m n : ℕ} (h : readVersion m = readVersion n) :
    m = n ↔ ¬ (m = 0 ∧ n = 1 ∨ m = 1 ∧ n = 0) := by
  unfold readVersion at h
  split_ifs at h <;> omega

/-- Equal hashes of two procedures without a semantic contract mean equal contracts, and equal
versions exactly when the versions are not 0 and 1. -/
theorem contract_of_equal_hashes {H : Hashing δ} (hsha : Function.Injective H.sha256)
    {p q : Procedure} (hp : hasSemanticContract p.handlerId = false)
    (hq : hasSemanticContract q.handlerId = false) {digest : δ}
    (hhash : H.deriveCommandContractHash p = some digest)
    (hhash' : H.deriveCommandContractHash q = some digest) :
    SameContract p q ∧ (p.version = q.version ↔
      ¬ (p.version = 0 ∧ q.version = 1 ∨ p.version = 1 ∧ q.version = 0)) := by
  obtain ⟨hsame, hversion⟩ := sameContract_of_hash hsha hp hq hhash hhash'
  exact ⟨hsame, eq_iff_of_readVersion_eq hversion⟩

def echoProcedure (version : ℕ) : Procedure where
  handlerId := "service.echo"
  version := version
  effect := "read"
  commands := ⟨[⟨1, "shell_argv", "", .arr [.str "echo", .str "hello"], "literal", "", "", "", "",
    false, "", false⟩], List.nodup_singleton _⟩

theorem hasSemanticContract_echo (version : ℕ) :
    hasSemanticContract (echoProcedure version).handlerId = false := by
  change hasSemanticContract "service.echo" = false
  decide +kernel

theorem hash_echo (H : Hashing δ) : ∃ digest,
    H.deriveCommandContractHash (echoProcedure 0) = some digest ∧
      H.deriveCommandContractHash (echoProcedure 1) = some digest :=
  ⟨_, rfl, rfl⟩

/-- Equal hashes mean equal contracts, for the procedures with versions of a given set, exactly when
the set does not have both 0 and 1. -/
theorem contract_hash_identifies_iff (H : Hashing δ) (hsha : Function.Injective H.sha256)
    (versions : Set ℕ) :
    (∀ p q digest, p.version ∈ versions → q.version ∈ versions →
      hasSemanticContract p.handlerId = false → hasSemanticContract q.handlerId = false →
      H.deriveCommandContractHash p = some digest → H.deriveCommandContractHash q = some digest →
      SameContract p q ∧ p.version = q.version) ↔ ¬ (0 ∈ versions ∧ 1 ∈ versions) := by
  constructor
  · rintro h ⟨hzero, hone⟩
    obtain ⟨digest, hhash, hhash'⟩ := hash_echo H
    have hsame := h (echoProcedure 0) (echoProcedure 1) digest hzero hone
      (hasSemanticContract_echo 0) (hasSemanticContract_echo 1) hhash hhash'
    exact absurd hsame.2 (by decide)
  · intro h p q digest hp hq hplain hplain' hhash hhash'
    obtain ⟨hsame, hversion⟩ := contract_of_equal_hashes hsha hplain hplain' hhash hhash'
    refine ⟨hsame, hversion.mpr ?_⟩
    rintro (⟨hzero, hone⟩ | ⟨hone, hzero⟩)
    · exact h ⟨hzero ▸ hp, hone ▸ hq⟩
    · exact h ⟨hzero ▸ hq, hone ▸ hp⟩

def textHashing : Hashing (List Char) where
  floatText := Json.fractionText
  readable := Json.readableFloats_fractionText
  sha256 := id
  semanticContract := fun _ => .null

def dictProcedure (entries : List (String × Json)) : Procedure :=
  { echoProcedure 1 with
    commands := ⟨[⟨1, "shell_argv", "", .arr [.str "echo", .obj entries], "literal", "", "", "", "",
      false, "", false⟩], List.nodup_singleton _⟩ }

theorem hash_dictProcedure_swap : ∃ digest,
    textHashing.deriveCommandContractHash (dictProcedure [("a", .int 1), ("b", .int 2)]) =
        some digest ∧
      textHashing.deriveCommandContractHash (dictProcedure [("b", .int 2), ("a", .int 1)]) =
        some digest :=
  ⟨_, rfl, by decide +kernel⟩

theorem contract_hash_identifies_iff_positive :
    ¬ (0 ∈ ({1} : Set ℕ) ∧ 1 ∈ ({1} : Set ℕ)) ∧
      SameContract (dictProcedure [("a", .int 1), ("b", .int 2)])
        (dictProcedure [("b", .int 2), ("a", .int 1)]) := by
  have hpositive : ¬ (0 ∈ ({1} : Set ℕ) ∧ 1 ∈ ({1} : Set ℕ)) := by
    rintro ⟨hzero, -⟩
    exact absurd hzero (by simp)
  obtain ⟨digest, hhash, hhash'⟩ := hash_dictProcedure_swap
  have hidentifies := (contract_hash_identifies_iff textHashing Function.injective_id {1}).mpr
    hpositive
  exact ⟨hpositive, (hidentifies (dictProcedure _) (dictProcedure _) digest rfl rfl
    (hasSemanticContract_echo 1) (hasSemanticContract_echo 1) hhash hhash').1⟩

/-- Versions 0 and 1 of one procedure have the same hash. -/
theorem versions_zero_one_collide :
    textHashing.deriveCommandContractHash (echoProcedure 0) =
        textHashing.deriveCommandContractHash (echoProcedure 1) ∧
      (textHashing.deriveCommandContractHash (echoProcedure 0)).isSome = true ∧
      (echoProcedure 0).version ≠ (echoProcedure 1).version :=
  ⟨rfl, rfl, by decide⟩

end Capabilities

end NetboxRpc
