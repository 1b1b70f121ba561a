import Mathlib.Data.Int.Notation
import Mathlib.Data.List.Basic
import NetboxRpc.TreeSearch

/-!
# Jinja2 syntax trees

The nodes the Jinja2 parser builds for a template without statement or comment blocks: literal
text and expressions, under one output node. Keyword arguments, dict entries and comparison
operands are nodes of their own, as in `jinja2.nodes`. The parser and the search through a tree
belong to the engine.
-/

namespace NetboxRpc.Jinja

inductive Const
  | none
  | bool (b : Bool)
  | int (n : ℤ)
  | float (bits : UInt64)
  | str (s : String)
  deriving DecidableEq

inductive CompareOp
  | eq | ne | gt | gteq | lt | lteq | in | notin
  deriving DecidableEq

inductive BinaryOp
  | add | sub | mul | div | floordiv | mod | pow
  deriving DecidableEq

inductive UnaryOp
  | neg | pos
  deriving DecidableEq

inductive Node
  | output (nodes : List Node)
  | templateData (data : String)
  | name (name : String)
  | const (value : Const)
  | tuple (items : List Node)
  | list (items : List Node)
  | dict (items : List Node)
  | pair (key value : Node)
  | condExpr (test expr1 : Node) (expr2 : Option Node)
  | filter (node : Node) (name : String) (args kwargs : List Node)
      (dynArgs dynKwargs : Option Node)
  | test (node : Node) (name : String) (args kwargs : List Node)
      (dynArgs dynKwargs : Option Node)
  | call (node : Node) (args kwargs : List Node) (dynArgs dynKwargs : Option Node)
  | keyword (key : String) (value : Node)
  | getitem (node arg : Node)
  | getattr (node : Node) (attr : String)
  | slice (start stop step : Option Node)
  | concat (nodes : List Node)
  | compare (expr : Node) (ops : List Node)
  | operand (op : CompareOp) (expr : Node)
  | binary (op : BinaryOp) (left right : Node)
  | and (left right : Node)
  | or (left right : Node)
  | not (node : Node)
  | unary (op : UnaryOp) (node : Node)

namespace Node

def argumentNodes (args kwargs : List Node) (dynArgs dynKwargs : Option Node) : List Node :=
  args ++ kwargs ++ dynArgs.toList ++ dynKwargs.toList

def children : Node → List Node
  | templateData _ | name _ | const _ => []
  | output nodes | tuple nodes | list nodes | dict nodes | concat nodes => nodes
  | pair key value => [key, value]
  | condExpr cond expr1 expr2 => cond :: expr1 :: expr2.toList
  | filter node _ args kwargs dynArgs dynKwargs
  | test node _ args kwargs dynArgs dynKwargs
  | call node args kwargs dynArgs dynKwargs =>
    node :: argumentNodes args kwargs dynArgs dynKwargs
  | keyword _ value => [value]
  | getitem node arg => [node, arg]
  | getattr node _ => [node]
  | slice start stop step => start.toList ++ stop.toList ++ step.toList
  | compare expr ops => expr :: ops
  | operand _ expr => [expr]
  | binary _ left right | and left right | or left right => [left, right]
  | not node | unary _ node => [node]

mutual

def size : Node → ℕ
  | templateData _ | name _ | const _ => 1
  | output nodes | tuple nodes | list nodes | dict nodes | concat nodes => 1 + sizeAll nodes
  | pair key value => 1 + key.size + value.size
  | condExpr cond expr1 expr2 => 1 + cond.size + expr1.size + sizeOption expr2
  | filter node _ args kwargs dynArgs dynKwargs
  | test node _ args kwargs dynArgs dynKwargs
  | call node args kwargs dynArgs dynKwargs =>
    1 + node.size + sizeAll args + sizeAll kwargs + sizeOption dynArgs + sizeOption dynKwargs
  | keyword _ value => 1 + value.size
  | getitem node arg => 1 + node.size + arg.size
  | getattr node _ => 1 + node.size
  | slice start stop step => 1 + sizeOption start + sizeOption stop + sizeOption step
  | compare expr ops => 1 + expr.size + sizeAll ops
  | operand _ expr => 1 + expr.size
  | binary _ left right | and left right | or left right => 1 + left.size + right.size
  | not node | unary _ node => 1 + node.size

def sizeAll : List Node → ℕ
  | [] => 0
  | node :: rest => node.size + sizeAll rest

def sizeOption : Option Node → ℕ
  | .none => 0
  | some node => node.size

end

theorem sizeAll_append (left right : List Node) :
    sizeAll (left ++ right) = sizeAll left + sizeAll right := by
  induction left with
  | nil => simp [sizeAll]
  | cons node rest ih => rw [List.cons_append, sizeAll, sizeAll, ih, Nat.add_assoc]

theorem sizeAll_toList (node : Option Node) : sizeAll node.toList = sizeOption node := by
  cases node with
  | none => rfl
  | some node => rfl

theorem size_le_sizeAll {nodes : List Node} {node : Node} (h : node ∈ nodes) :
    node.size ≤ sizeAll nodes := by
  induction nodes with
  | nil => exact nomatch h
  | cons first rest ih =>
    rw [sizeAll]
    rcases List.mem_cons.mp h with rfl | h
    · exact Nat.le_add_right _ _
    · exact Nat.le_add_left_of_le (ih h)

theorem size_eq (node : Node) : node.size = 1 + sizeAll node.children := by
  cases node <;>
    simp only [size, children, argumentNodes, sizeAll, sizeAll_append, sizeAll_toList] <;> omega

theorem descends : TreeSearch.Descends children size := by
  intro node child hchild
  have hle := size_le_sizeAll hchild
  rw [size_eq node]
  omega

end Node

structure Engine where
  /-- The import of `jinja2` succeeded. -/
  available : Bool
  /-- `repr` of a text. -/
  repr : String → String
  /-- The output nodes of a template without statement or comment blocks, or the message of the
  syntax error. -/
  parse : String → Except String (List Node)
  /-- What `find_all` yields for a parsed template, without its type test. A node comes with its
  address, which stands for its `id`. -/
  findAll : List Node → List (List ℕ × Node)

/-- `find_all` yields every node below the template, and nothing else. -/
def Engine.FindsAll (E : Engine) : Prop :=
  ∀ nodes path node, (path, node) ∈ E.findAll nodes ↔
    path ≠ [] ∧ TreeSearch.nodeAt Node.children path (.output nodes) = some node

def Engine.onTree (nodes : List Node) : Engine where
  available := true
  repr s := s
  parse _ := .ok nodes
  findAll nodes := TreeSearch.search Node.children (Node.output nodes).size [] (.output nodes)

theorem Engine.findsAll_onTree (nodes : List Node) : (Engine.onTree nodes).FindsAll :=
  fun _ _ _ => Node.descends.mem_search_rank

end NetboxRpc.Jinja
