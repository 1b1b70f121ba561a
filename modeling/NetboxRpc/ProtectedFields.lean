import Mathlib.Data.Finset.Sort
import NetboxRpc.Json

/-!
# Protected fields of a procedure

`transport.py`: the table of the safety-relevant fields of `RPCProcedure`, the rule that decides for
each of them whether an edit needs the approve permission, and the type-exact comparison behind the
fixed fields. The serializer and the form apply this one table.
-/

namespace NetboxRpc

/-! ## Comparison -/

mutual

/-- `_as_comparable(v) == _as_comparable(w)`: values of one type, mappings as sets of entries. -/
def sameComparable : Json → Json → Bool
  | .null, .null => true
  | .bool a, .bool b => a == b
  | .int a, .int b => decide (a = b)
  | .float a, .float b => decide (a = b)
  | .str a, .str b => decide (a = b)
  | .arr a, .arr b => sameItems a b
  | .obj a, .obj b => entriesWithin a b && b.all (hasEntry a)
  | _, _ => false
termination_by structural v => v

def sameItems : List Json → List Json → Bool
  | [], [] => true
  | v :: vs, w :: ws => sameComparable v w && sameItems vs ws
  | _, _ => false
termination_by structural vs => vs

def entriesWithin : List (String × Json) → List (String × Json) → Bool
  | [], _ => true
  | (key, v) :: rest, entries =>
    (entries.any fun e => e.1 = key && sameComparable v e.2) && entriesWithin rest entries
termination_by structural entries => entries

def hasEntry : List (String × Json) → String × Json → Bool
  | [], _ => false
  | (key, v) :: rest, e => (e.1 = key && sameComparable v e.2) || hasEntry rest e
termination_by structural entries => entries

end

theorem entriesWithin_iff {entries others : List (String × Json)} :
    entriesWithin entries others = true ↔
      ∀ e ∈ entries, ∃ f ∈ others, f.1 = e.1 ∧ sameComparable e.2 f.2 = true := by
  induction entries with
  | nil => simp [entriesWithin]
  | cons e rest ih =>
    obtain ⟨key, v⟩ := e
    simp only [entriesWithin, Bool.and_eq_true, List.any_eq_true, decide_eq_true_eq, ih,
      List.forall_mem_cons]

theorem hasEntry_iff {entries : List (String × Json)} {f : String × Json} :
    hasEntry entries f = true ↔ ∃ e ∈ entries, f.1 = e.1 ∧ sameComparable e.2 f.2 = true := by
  induction entries with
  | nil => simp [hasEntry]
  | cons e rest ih =>
    obtain ⟨key, v⟩ := e
    simp only [hasEntry, Bool.or_eq_true, Bool.and_eq_true, decide_eq_true_eq, ih,
      List.exists_mem_cons_iff]

theorem sameComparable_refl (v : Json) : sameComparable v v = true := by
  induction v using Json.induct with
  | arr items ih =>
    rw [sameComparable]
    induction items with
    | nil => rfl
    | cons v vs ihvs =>
      rw [sameItems, ih v List.mem_cons_self, Bool.true_and]
      exact ihvs (fun w hw => ih w (List.mem_cons_of_mem v hw))
  | obj entries ih =>
    rw [sameComparable, Bool.and_eq_true, entriesWithin_iff, List.all_eq_true]
    refine ⟨fun e he => ⟨e, he, rfl, ih e he⟩, fun e he => ?_⟩
    exact hasEntry_iff.mpr ⟨e, he, rfl, ih e he⟩
  | null => rfl
  | bool b => simp [sameComparable]
  | int n => simp [sameComparable]
  | float q => simp [sameComparable]
  | str s => simp [sameComparable]

theorem sameItems_trans {us : List Json}
    (ih : ∀ u ∈ us, ∀ v w, sameComparable u v = true → sameComparable v w = true →
      sameComparable u w = true) {vs ws : List Json} (huv : sameItems us vs = true)
    (hvw : sameItems vs ws = true) : sameItems us ws = true := by
  induction us generalizing vs ws with
  | nil =>
    cases vs with
    | nil => exact hvw
    | cons v vs => cases huv
  | cons u us ihus =>
    cases vs with
    | nil => cases huv
    | cons v vs =>
      cases ws with
      | nil => cases hvw
      | cons w ws =>
        rw [sameItems, Bool.and_eq_true] at huv hvw ⊢
        refine ⟨ih u List.mem_cons_self v w huv.1 hvw.1, ?_⟩
        exact ihus (fun u' hu' => ih u' (List.mem_cons_of_mem u hu')) huv.2 hvw.2

theorem sameComparable_trans (u : Json) : ∀ v w, sameComparable u v = true →
    sameComparable v w = true → sameComparable u w = true := by
  induction u using Json.induct with
  | arr us ih =>
    intro v w huv hvw
    cases v <;> try cases huv
    rename_i vs
    cases w <;> try cases hvw
    rw [sameComparable] at huv hvw ⊢
    exact sameItems_trans ih huv hvw
  | obj us ih =>
    intro v w huv hvw
    cases v <;> try cases huv
    rename_i vs
    cases w <;> try cases hvw
    rename_i ws
    simp only [sameComparable, Bool.and_eq_true, entriesWithin_iff, List.all_eq_true,
      hasEntry_iff] at huv hvw ⊢
    constructor
    · intro e he
      obtain ⟨f, hf, hef, hsame⟩ := huv.1 e he
      obtain ⟨g, hg, hfg, hsame'⟩ := hvw.1 f hf
      exact ⟨g, hg, hfg.trans hef, ih e he _ _ hsame hsame'⟩
    · intro g hg
      obtain ⟨f, hf, hgf, hsame'⟩ := hvw.2 g hg
      obtain ⟨e, he, hfe, hsame⟩ := huv.2 f hf
      exact ⟨e, he, hgf.trans hfe, ih e he _ _ hsame hsame'⟩
  | null =>
    intro v w huv hvw
    cases v <;> try cases huv
    exact hvw
  | bool b | int b | float b | str b =>
    intro v w huv hvw
    cases v <;> try cases huv
    simp only [sameComparable, beq_iff_eq, decide_eq_true_eq] at huv
    rwa [huv]

/-! ## Rules -/

def loweringIsRefused (previouslySet requested : Option Json) (mayApprove : Bool) : Bool :=
  if previouslySet ≠ some (.bool true) then false
  else match requested with
    | none => false
    | some value => !value.truthy && !mayApprove

/-- `EFFECT_RANKS.get(str(value), default)`: only texts have a rank. -/
def effectRank (default : ℤ) : Json → ℤ
  | .str "read" => 0
  | .str "write" => 1
  | .str "destructive" => 2
  | _ => default

def effectLoweringIsRefused (previous requested : Option Json) (mayApprove : Bool) : Bool :=
  match previous, requested with
  | some previous, some requested =>
    if requested = previous then false
    else if effectRank 3 previous ≤ effectRank (-1) requested then false
    else !mayApprove
  | _, _ => false

def enablingIsRefused (previouslyEnabled requested : Option Json) (mayApprove : Bool) : Bool :=
  if previouslyEnabled ≠ some (.bool false) ∨ requested = none ∨ requested = some (.bool false) then
    false
  else !mayApprove

def changeIsRefused (previous requested : Option Json) (mayApprove : Bool) : Bool :=
  match previous, requested with
  | some previous, some requested =>
    if sameComparable previous requested then false else !mayApprove
  | _, _ => false

inductive FieldRule
  | lowering
  | effect
  | enabling
  | change
  deriving DecidableEq

def FieldRule.refuses : FieldRule → Option Json → Option Json → Bool → Bool
  | lowering => loweringIsRefused
  | effect => effectLoweringIsRefused
  | enabling => enablingIsRefused
  | change => changeIsRefused

def FieldRule.Keeps : FieldRule → Json → Json → Prop
  | lowering, first, last => first = .bool true → last = .bool true
  | effect, first, last => last = first ∨ effectRank 3 first ≤ effectRank (-1) last
  | enabling, first, last => first = .bool false → last = .bool false
  | change, first, last => sameComparable first last = true

/-! ## The table -/

inductive ProtectedField
  | transportPinned | approvalRequired | effect | enabled | transportDriver | transportDriverChain
  | handlerId | name | version | targetModels | paramsSchema | timeoutSeconds | resultSchema
  | outputParser | outputSchema | tags | customFieldData
  deriving DecidableEq

def changeDeniedMessage (label : String) : String :=
  "Only users with netbox_rpc.approve_rpcprocedure can change the " ++ label ++
    " of an existing RPC procedure."

namespace ProtectedField

def key : ProtectedField → String
  | transportPinned => "transport_pinned"
  | approvalRequired => "approval_required"
  | effect => "effect"
  | enabled => "enabled"
  | transportDriver => "transport_driver"
  | transportDriverChain => "transport_driver_chain"
  | handlerId => "handler_id"
  | name => "name"
  | version => "version"
  | targetModels => "target_models"
  | paramsSchema => "params_schema"
  | timeoutSeconds => "timeout_seconds"
  | resultSchema => "result_schema"
  | outputParser => "output_parser"
  | outputSchema => "output_schema"
  | tags => "tags"
  | customFieldData => "custom_field_data"

def rule : ProtectedField → FieldRule
  | transportPinned | approvalRequired => .lowering
  | effect => .effect
  | enabled => .enabling
  | _ => .change

def message : ProtectedField → String
  | transportPinned => "Only users with netbox_rpc.approve_rpcprocedure can un-pin a " ++
      "transport-pinned RPC procedure."
  | approvalRequired => "Only users with netbox_rpc.approve_rpcprocedure can disable " ++
      "approval for an existing RPC procedure."
  | effect => "Only users with netbox_rpc.approve_rpcprocedure can lower the effect " ++
      "of an existing RPC procedure."
  | enabled => "Only users with netbox_rpc.approve_rpcprocedure can enable a disabled " ++
      "RPC procedure."
  | transportDriver => changeDeniedMessage "transport driver"
  | transportDriverChain => changeDeniedMessage "transport driver chain"
  | handlerId => changeDeniedMessage "handler"
  | name => changeDeniedMessage "name"
  | version => changeDeniedMessage "version"
  | targetModels => changeDeniedMessage "target models"
  | paramsSchema => changeDeniedMessage "parameter schema"
  | timeoutSeconds => changeDeniedMessage "timeout"
  | resultSchema => changeDeniedMessage "result schema"
  | outputParser => changeDeniedMessage "output parser"
  | outputSchema => changeDeniedMessage "output schema"
  | tags => changeDeniedMessage "tags"
  | customFieldData => changeDeniedMessage "custom fields"

def all : List ProtectedField :=
  [transportPinned, approvalRequired, effect, enabled, transportDriver, transportDriverChain,
    handlerId, name, version, targetModels, paramsSchema, timeoutSeconds, resultSchema,
    outputParser, outputSchema, tags, customFieldData]

theorem mem_all (f : ProtectedField) : f ∈ all := by
  cases f <;> decide

end ProtectedField

/-- `protected_field_refusals`: the refused fields with their messages. A missing snapshot stands for
a new procedure, and an absent value for a field that is not being changed. -/
def protectedFieldRefusals (stored : Option (ProtectedField → Option Json))
    (requested : ProtectedField → Option Json) (mayApprove : Bool) : List (String × String) :=
  match stored with
  | none => []
  | some stored => (ProtectedField.all.filter fun f =>
      f.rule.refuses (stored f) (requested f) mayApprove).map fun f => (f.key, f.message)

theorem refuses_eq_false {stored requested : ProtectedField → Option Json}
    (h : protectedFieldRefusals (some stored) requested false = []) (f : ProtectedField) :
    f.rule.refuses (stored f) (requested f) false = false := by
  rw [protectedFieldRefusals, List.map_eq_nil_iff, List.filter_eq_nil_iff] at h
  exact Bool.eq_false_of_not_eq_true (h f f.mem_all)

end NetboxRpc
