import NetboxRpc.Approval
import NetboxRpc.CommandTemplating
import NetboxRpc.ContractHash
import NetboxRpc.Regex

/-!
# Command rows of a procedure

`RPCProcedureCommand.clean` with the checks it calls: literal tokens of `command_contract.py`, the
capture of `command_templating.py`, and the check that a change leaves no other command of the
procedure with an unresolved variable.
-/

namespace NetboxRpc

open Regex

/-- Jinja2 and the library functions behind a capture. -/
structure CommandLibrary where
  engine : Jinja.Engine
  /-- `re.compile(expression).groups`, or the text of the `re.error`. -/
  compileGroups : String → Except String ℕ
  /-- `int(expression)` succeeds. -/
  parsesInt : String → Bool

/-! ## Literal tokens -/

def identStart : CharSet := ⟨false, [('A', 'Z'), ('a', 'z'), ('_', '_')]⟩

def identRest : CharSet := ⟨false, [('A', 'Z'), ('a', 'z'), ('0', '9'), ('_', '_')]⟩

def placeholderRe : Rx :=
  seqs [lit "\x7b", .group "1" (.seq (.set identStart) (Rx.star (.set identRest))), lit "\x7d"]

def isSafeTokenChar (c : Char) : Bool :=
  c.isAlphanum || "_@%+=:,./\x7b\x7d-".toList.contains c

def tokenIsSafe (token : String) : Bool := token ≠ "" && token.toList.all isSafeTokenChar

def extractPlaceholders (token : String) : List String :=
  (placeholderRe.finditer token.toList).filterMap fun m =>
    (m.groups.lookup "1").map fun g => String.ofList g.2

def withoutPlaceholders (token : String) : List Char :=
  let found := placeholderRe.finditer token.toList
  (token.toList.zipIdx.filter fun c => !found.any fun m => m.start ≤ c.2 && c.2 < m.stop).map
    Prod.fst

def tokenHasBalancedPlaceholders (token : String) : Bool :=
  let stripped := withoutPlaceholders token
  !stripped.contains '\x7b' && !stripped.contains '\x7d'

def commandRuntimeKeys : List String :=
  ["rpc_ssh_host", "rpc_ssh_port", "rpc_ssh_credential_pk", "rpc_openbao_assignment_id",
    "rpc_ssh_known_hosts_entry", "rpc_ssh_strict_host_key_checking", "target", "item",
    "members_csv"]

section

variable (L : CommandLibrary)

def literalTokenErrors (allowed : List String) (index : ℕ) : Json → List String
  | .str token =>
    if token = "" then ["token " ++ toString index ++ " must be a non-empty string"]
    else if !tokenIsSafe token then [L.engine.repr token ++ " contains unsafe characters"]
    else
      let placeholders := extractPlaceholders token
      (if placeholders.length > 1 then [L.engine.repr token ++ " contains more than one placeholder"]
        else []) ++
      (if tokenHasBalancedPlaceholders token then []
        else [L.engine.repr token ++ " contains malformed placeholder braces"]) ++
      (placeholders.filter fun name => !allowed.contains name).map fun name =>
        L.engine.repr token ++ " references unknown placeholder " ++ L.engine.repr name
  | _ => ["token " ++ toString index ++ " must be a non-empty string"]

/-! ## Captures -/

def isVarName (name : String) : Bool := match name.toList with
  | [] => false
  | c :: rest => c.isLower && rest.all fun c => c.isLower || c.isDigit || c == '_'

def isJsonPath (path : String) : Bool :=
  path ≠ "" && path.toList.all fun c => c.isAlphanum || "_.[]\"'-".toList.contains c

def captureKinds : List String := ["json", "line", "regex", "stdout", "stdout_stripped"]

def captureKindsRequiringExpression : List String := ["json", "line", "regex"]

def stripped (value : String) : String := String.ofList (strip value.toList)

def captureExpressionErrors (kind expression : String) : List String :=
  if kind = "regex" ∧ expression ≠ "" then
    match L.compileGroups expression with
    | .error message => ["capture_expression is not a valid regex: " ++ message ++ "."]
    | .ok groups =>
      if groups ≠ 1 then
        ["regex capture_expression must contain exactly one capturing group (found " ++
          toString groups ++ ")."]
      else []
  else if kind = "line" ∧ expression ≠ "" then
    if L.parsesInt expression then []
    else ["line capture_expression must be an integer line index."]
  else if kind = "json" ∧ expression ≠ "" ∧ !isJsonPath expression then
    ["json capture_expression may only contain identifiers, digits, dots, and [] indexing."]
  else []

def captureKindErrors (kind expression : String) : List String :=
  if kind = "" then ["capture_kind is required when produces_var is set."]
  else if !captureKinds.contains kind then
    ["capture_kind " ++ L.engine.repr kind ++
      " is not one of ['json', 'line', 'regex', 'stdout', 'stdout_stripped']."]
  else
    let requires := captureKindsRequiringExpression.contains kind
    (if requires && expression = "" then
      ["capture_expression is required for capture_kind=" ++ kind ++ "."] else []) ++
    (if !requires && expression ≠ "" then
      ["capture_expression must be empty for capture_kind=" ++ kind ++ "."] else []) ++
    captureExpressionErrors L kind expression

def validateCapture (producesVar captureKind captureExpression : String)
    (otherVarNames : List String) : List String :=
  let var := stripped producesVar
  let kind := stripped captureKind
  let expression := stripped captureExpression
  if var = "" then
    if kind ≠ "" ∨ expression ≠ "" then
      ["capture_kind/capture_expression require produces_var to be set."]
    else []
  else
    (if isVarName var then []
      else ["produces_var " ++ L.engine.repr var ++
        " must be a snake_case identifier ([a-z][a-z0-9_]*)."]) ++
    (if jinjaContextRoots.contains var then
      ["produces_var " ++ L.engine.repr var ++ " is a reserved context name (" ++
        ", ".intercalate jinjaContextRoots ++ ")."] else []) ++
    (if otherVarNames.contains var then
      ["produces_var " ++ L.engine.repr var ++ " is already produced by another command in this " ++
        "procedure; output variable names must be unique."] else []) ++
    captureKindErrors L kind expression

end

/-! ## Command rows -/

structure CommandRow extends Capabilities.Command where
  pk : ℕ
  procedure : ℕ

abbrev CommandTable := KeyedTable CommandRow CommandRow.pk

structure Catalog where
  /-- The stored procedures with their `params_schema`. -/
  procedures : ℕ → Option Json
  commands : CommandTable

namespace CommandRow

def mode (row : CommandRow) : String := if row.renderMode = "" then "literal" else row.renderMode

def outputVar (row : CommandRow) : Option String :=
  if stripped row.producesVar = "" then none else some (stripped row.producesVar)

end CommandRow

def schemaProperties (schema : Option Json) : List String :=
  match schema.bind (Json.get? · "properties") with
  | some (.obj properties) => properties.map Prod.fst
  | _ => []

namespace Catalog

variable (cat : Catalog) (row : CommandRow)

def paramNames : List String := schemaProperties (cat.procedures row.procedure)

def allowedPlaceholderNames : List String := cat.paramNames row ++ commandRuntimeKeys

def siblingCommands : List CommandRow :=
  if (cat.procedures row.procedure).isSome then
    cat.commands.rows.filter fun sib => sib.procedure = row.procedure && sib.pk ≠ row.pk
  else []

end Catalog

def producedBefore (rows : List CommandRow) (sequence : ℕ) : List String :=
  (rows.filter fun row => row.sequence < sequence).filterMap CommandRow.outputVar

def tokenVars (E : Jinja.Engine) : Json → List String
  | .str token => (analyzeToken E (.str token)).refs.filterMap fun ref =>
    if ref.root = "vars" then ref.attr.filter (· ≠ "") else none
  | _ => []

def CommandRow.referenced (E : Jinja.Engine) (row : CommandRow) : List String :=
  if row.mode = "jinja" then
    match row.argv with
    | .arr tokens => tokens.flatMap (tokenVars E)
    | _ => []
  else []

section

variable (L : CommandLibrary)

def chainConsistencyErrors (row : CommandRow) (siblings : List CommandRow) : List String :=
  siblings.filterMap fun sib =>
    let before := producedBefore (siblings ++ [row]) sib.sequence
    let missing := ((sib.referenced L.engine).dedup.filter (· ∉ before)).insertionSort (· ≤ ·)
    if missing = [] then none
    else some ("This change leaves command #" ++ toString sib.sequence ++ "'s output variable " ++
      "reference(s) " ++ ", ".intercalate missing ++ " unresolved (no earlier command produces " ++
      "them).")

def argvErrors (cat : Catalog) (row : CommandRow) : List String :=
  match row.argv with
  | .arr (token :: rest) =>
    if row.mode = "jinja" then
      validateJinjaArgv L.engine
        { paramNames := cat.paramNames row
          producedVars := producedBefore (cat.siblingCommands row) row.sequence
          forEachPresent := row.forEachParam ≠ "" } row.argv
    else (token :: rest).zipIdx.flatMap fun item =>
      literalTokenErrors L (cat.allowedPlaceholderNames row) (item.2 + 1) item.1
  | _ => ["argv must be a non-empty list of non-empty string tokens."]

def declaredErrors (cat : Catalog) (row : CommandRow) (value : String) : List String :=
  if value ≠ "" ∧ value ∉ cat.allowedPlaceholderNames row then
    [L.engine.repr value ++ " is not declared in the procedure params schema."]
  else []

/-- `RPCProcedureCommand.clean`: the fields with errors, and their messages. -/
def CommandRow.clean (cat : Catalog) (row : CommandRow) : List (String × List String) :=
  let siblings := cat.siblingCommands row
  [("device_cli_mode",
      if row.stepType ≠ "device_cli" ∧ row.deviceCliMode ≠ "" then
        ["device_cli_mode is only valid for device_cli steps."] else []),
    ("render_mode",
      if ["literal", "jinja"].contains row.mode then []
      else [L.engine.repr row.mode ++ " is not a valid render mode."]),
    ("argv", argvErrors L cat row),
    ("condition_param", declaredErrors L cat row row.conditionParam),
    ("for_each_param", declaredErrors L cat row row.forEachParam),
    ("produces_var", validateCapture L row.producesVar row.captureKind row.captureExpression
      (siblings.filterMap CommandRow.outputVar)),
    ("__all__", chainConsistencyErrors L row siblings)].filter fun field => field.2 ≠ []

/-! ## Changes of the catalog -/

inductive CatalogAction
  /-- A new row; the database chooses its primary key. -/
  | create (row : CommandRow)
  /-- Any fields of the row with this primary key, the procedure included. -/
  | edit (row : CommandRow)
  /-- The delete views check nothing. -/
  | delete (pk : ℕ)
  | editProcedure (pk : ℕ) (paramsSchema : Json)

/-- `full_clean`: the foreign key, the checks of `clean` and `unique_together`. -/
def accepts (cat : Catalog) (row : CommandRow) : Bool :=
  (cat.procedures row.procedure).isSome && (row.clean L cat).isEmpty &&
    (cat.siblingCommands row).all fun sib => sib.sequence ≠ row.sequence

end

namespace CommandTable

def save (t : CommandTable) (row : CommandRow) : CommandTable :=
  t.update row.pk (fun old => { row with pk := old.pk }) (fun _ => rfl)

def remove (t : CommandTable) (pk : ℕ) : CommandTable where
  rows := t.rows.filter fun row => row.pk ≠ pk
  nodup_keys := t.nodup_keys.sublist (List.filter_sublist.map _)

end CommandTable

def catalogStep (L : CommandLibrary) (cat : Catalog) : CatalogAction → Option Catalog
  | .create row =>
    if h : row.pk ∉ cat.commands.rows.map CommandRow.pk then
      if accepts L cat row then some { cat with commands := cat.commands.insert row h } else none
    else none
  | .edit row =>
    if row.pk ∈ cat.commands.rows.map CommandRow.pk ∧ accepts L cat row then
      some { cat with commands := CommandTable.save cat.commands row }
    else none
  | .delete pk => some { cat with commands := CommandTable.remove cat.commands pk }
  | .editProcedure pk schema =>
    if (cat.procedures pk).isSome then
      some { cat with procedures := fun k => if k = pk then some schema else cat.procedures k }
    else none

end NetboxRpc
