import Mathlib.Data.List.Sort
import NetboxRpc.Json
import NetboxRpc.TemplateNodes

/-!
# Author-time checks of command templates

`command_templating.py`: the structural analysis of one token, the resolution of its references
and the validation of an `argv`.
-/

namespace NetboxRpc

open Jinja

/-! ## Patterns -/

def isArgvSafe (c : Char) : Bool :=
  c.isAlphanum || "_@%+=:,./-".toList.contains c

def isLiteralSafe (s : String) : Bool := s.toList.all isArgvSafe

def statementBrackets : List (List Char) :=
  [['\x7b', '%'], ['%', '\x7d'], ['\x7b', '#'], ['#', '\x7d']]

def hasStatement (token : String) : Bool :=
  token.toList.tails.any fun rest => statementBrackets.contains (rest.take 2)

def allowedFilters : List String :=
  ["abs", "capitalize", "default", "float", "int", "join", "length", "lower", "replace", "round",
    "string", "title", "trim", "truncate", "upper"]

def jinjaContextRoots : List String := ["item", "params", "runtime", "target", "vars"]

def jinjaRuntimeKeys : List String :=
  ["rpc_ssh_credential_pk", "rpc_ssh_host", "rpc_ssh_known_hosts_entry", "rpc_ssh_port",
    "rpc_ssh_strict_host_key_checking"]

/-! ## Analysis of a token -/

/-- A first-level reference; `attr` is the first attribute or string key after the root. -/
structure VarRef where
  root : String
  attr : Option String
deriving DecidableEq, Repr

structure TokenAnalysis where
  errors : List String
  refs : List VarRef

def constStr : Node → Option String
  | .const (.str s) => some s
  | _ => none

def accessOf : Node → Option (Node × Option String)
  | .getattr node attr => some (node, some attr)
  | .getitem node arg => some (node, constStr arg)
  | _ => none

/-- What the search of the analysis finds: nodes with their addresses, which stand for `id`. -/
abbrev FoundNodes := List (List ℕ × Node)

section

variable (E : Engine) (token : String)

def callErrors (found : FoundNodes) : List String :=
  let isCall := fun f : List ℕ × Node => match f.2 with
    | .call .. => true
    | _ => false
  if found.any isCall then
    [E.repr token ++ ": function/method calls are not allowed in command tokens"]
  else []

def filterErrors (found : FoundNodes) : List String :=
  found.filterMap fun f => match f.2 with
    | .filter _ name _ _ _ _ =>
      if allowedFilters.contains name then none
      else some (E.repr token ++ ": filter " ++ E.repr name ++ " is not allowed (allowed: " ++
        ", ".intercalate allowedFilters ++ ")")
    | _ => none

def dataErrors (found : FoundNodes) : List String :=
  found.filterMap fun f => match f.2 with
    | .templateData data =>
      if isLiteralSafe data then none
      else some (E.repr token ++ ": literal text " ++ E.repr data ++
        " contains characters outside the safe argv charset")
    | _ => none

def constErrors (found : FoundNodes) : List String :=
  found.filterMap fun f => match f.2 with
    | .const (.str s) =>
      if isLiteralSafe s then none
      else some (E.repr token ++ ": string literal " ++ E.repr s ++
        " contains characters outside the safe argv charset")
    | _ => none

def isPrivate (name : String) : Bool := name.toList.head? = some '_'

def privateErrors (found : FoundNodes) : List String :=
  found.filterMap fun f => match accessOf f.2 with
    | some (_, some attr) =>
      if isPrivate attr then
        some (E.repr token ++ ": private/dunder attribute access (" ++ E.repr attr ++
          ") is not allowed")
      else none
    | _ => none

end

def accessRefs (found : FoundNodes) : List VarRef :=
  found.filterMap fun f => match accessOf f.2 with
    | some (.name root, attr) => some ⟨root, attr⟩
    | _ => none

def attributedNameIds (found : FoundNodes) : List (List ℕ) :=
  found.filterMap fun f => match accessOf f.2 with
    | some (.name _, _) => some (f.1 ++ [0])
    | _ => none

def bareRefs (found : FoundNodes) : List VarRef :=
  found.filterMap fun f => match f.2 with
    | .name name => if (attributedNameIds found).contains f.1 then none else some ⟨name, none⟩
    | _ => none

def analyzeToken (E : Engine) : Json → TokenAnalysis
  | .str token =>
    if token = "" then ⟨["must be a non-empty string"], []⟩
    else if !E.available then ⟨["Jinja2 is not installed; cannot validate jinja tokens"], []⟩
    else if hasStatement token then
      ⟨[E.repr token ++ ": statement/comment blocks (\x7b% %\x7d / \x7b# #\x7d) are not " ++
        "allowed; command tokens are expressions only"], []⟩
    else match E.parse token with
      | .error message => ⟨[E.repr token ++ ": invalid Jinja template (" ++ message ++ ")"], []⟩
      | .ok nodes =>
        let found := E.findAll nodes
        ⟨callErrors E token found ++ filterErrors E token found ++ dataErrors E token found ++
          constErrors E token found ++ privateErrors E token found,
          accessRefs found ++ bareRefs found⟩
  | _ => ⟨["must be a non-empty string"], []⟩

/-! ## Resolution of references -/

def listed (names : List String) (empty : String) : String :=
  if names = [] then empty else ", ".intercalate (names.insertionSort (· ≤ ·))

structure Scope where
  paramNames : List String
  producedVars : List String
  forEachPresent : Bool

def validateRef (E : Engine) (scope : Scope) (ref : VarRef) : List String :=
  if !jinjaContextRoots.contains ref.root then
    ["unknown variable root " ++ E.repr ref.root ++ " (allowed roots: " ++
      ", ".intercalate jinjaContextRoots ++ ")"]
  else if ref.root = "item" then
    if scope.forEachPresent then []
    else ["'item' is only available when a 'for each' parameter is set"]
  else match ref.attr with
    | none => ["reference a specific key of " ++ E.repr ref.root ++ " (for example " ++ ref.root ++
        ".<name>), not the whole object"]
    | some attr =>
      if ref.root = "params" ∧ attr ∉ scope.paramNames then
        ["params." ++ attr ++ " is not declared in the procedure params schema (available: " ++
          listed scope.paramNames "(none declared)" ++ ")"]
      else if ref.root = "vars" ∧ attr ∉ scope.producedVars then
        ["vars." ++ attr ++ " is not produced by any earlier command (available output " ++
          "variables: " ++ listed scope.producedVars "(none produced earlier)" ++ ")"]
      else if ref.root = "runtime" ∧ attr ∉ jinjaRuntimeKeys then
        ["runtime." ++ attr ++ " is not a known runtime key (available: " ++
          ", ".intercalate jinjaRuntimeKeys ++ ")"]
      else []

def tokenErrors (E : Engine) (scope : Scope) (token : Json) : List String :=
  (analyzeToken E token).errors ++ (analyzeToken E token).refs.flatMap (validateRef E scope)

def validateJinjaArgv (E : Engine) (scope : Scope) : Json → List String
  | .arr (token :: rest) => (token :: rest).zipIdx.flatMap fun item =>
    (tokenErrors E scope item.1).map fun message =>
      "token " ++ toString (item.2 + 1) ++ ": " ++ message
  | _ => ["argv must be a non-empty list of non-empty string tokens."]

end NetboxRpc
