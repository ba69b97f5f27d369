import TypeFlow.Decimal.Binary

/-! Programs as trees. A node of a tree has no identity of its own: the nodes of a tree that
lies at address `i` have the addresses `i`, `i + 1`, … in preorder, so that a second copy of a
tree is the same tree at another address. -/

namespace TypeFlow

/-- A name as it occurs in a program. Spot zero stands for a name that is built in. -/
structure Token where
  text : String
  spot : Int
  deriving DecidableEq

inductive LiteralKind where
  | bool | int | float | char | string
  deriving DecidableEq

/-- What a literal was written as. Inference reads only its kind. -/
inductive LiteralValue where
  | none
  | bool (b : Bool)
  | int (i : Int)
  | float (x : Decimal.Binary)
  | text (s : String)
  deriving DecidableEq

structure Literal where
  kind : LiteralKind
  value : LiteralValue
  spot : Int
  deriving DecidableEq

inductive PlaceKind where
  | localVar | instanceVar
  deriving DecidableEq

/-- A name that holds a value and can be assigned to. -/
structure Place where
  kind : PlaceKind
  name : Token
  deriving DecidableEq

/-- A program or a part of one. -/
inductive Expr where
  | literal (l : Literal)
  | place (p : Place)
  | const (name : Token)
  | assign (target : Place) (value : Expr)
  | block (body : List Expr)
  | loop (test body : Expr)
  | cond (test yes : Expr) (no : Option Expr)
  | call (receiver : Option Expr) (name : Token) (args : List Expr) (parens : Bool)
  | method (name : Token) (params : List Token) (body : Expr)
  | klass (name : Token) (body : Expr)

namespace Expr

/-- Only a place can be assigned to. -/
def place? : Expr → Option Place
  | .place p => some p
  | _ => none

/-- The assignment to an expression, if it can be assigned to. -/
def assign? (target value : Expr) : Option Expr := target.place?.map (.assign · value)

/-- An `else` part that is an empty block counts as none. -/
def hasElse : Option Expr → Bool
  | none | some (.block []) => false
  | some _ => true

/-- The name that an expression is written with. -/
def name? : Expr → Option Token
  | .place p => some p.name
  | .const n | .call _ n _ _ | .method n _ _ | .klass n _ => some n
  | _ => none

/-! ## Addresses -/

mutual
/-- The number of nodes. An assignment's target is a node. -/
def size : Expr → Nat
  | .literal _ | .place _ | .const _ => 1
  | .assign _ v => 2 + v.size
  | .block es => 1 + sizeList es
  | .loop c b => 1 + c.size + b.size
  | .cond c t e => 1 + c.size + t.size + sizeOption e
  | .call r _ as _ => 1 + sizeOption r + sizeList as
  | .method _ _ b => 1 + b.size
  | .klass _ b => 1 + b.size

def sizeList : List Expr → Nat
  | [] => 0
  | e :: es => e.size + sizeList es

def sizeOption : Option Expr → Nat
  | none => 0
  | some e => e.size
end

/-- Trees that follow each other, with their addresses. -/
def spread : Nat → List Expr → List (Nat × Expr)
  | _, [] => []
  | i, e :: es => (i, e) :: spread (i + e.size) es

mutual
/-- All nodes in preorder, each with its address in a tree that lies at `i`. -/
def nodes (i : Nat) : Expr → List (Nat × Expr)
  | e@(.literal _) | e@(.place _) | e@(.const _) => [(i, e)]
  | e@(.assign t v) => (i, e) :: (i + 1, .place t) :: v.nodes (i + 2)
  | e@(.block es) => (i, e) :: nodesList (i + 1) es
  | e@(.loop c b) => (i, e) :: c.nodes (i + 1) ++ b.nodes (i + 1 + c.size)
  | e@(.cond c t f) =>
      (i, e) :: c.nodes (i + 1) ++ t.nodes (i + 1 + c.size) ++
        nodesOption (i + 1 + c.size + t.size) f
  | e@(.call r _ as _) =>
      (i, e) :: nodesOption (i + 1) r ++ nodesList (i + 1 + sizeOption r) as
  | e@(.method _ _ b) => (i, e) :: b.nodes (i + 1)
  | e@(.klass _ b) => (i, e) :: b.nodes (i + 1)

def nodesList (i : Nat) : List Expr → List (Nat × Expr)
  | [] => []
  | e :: es => e.nodes i ++ nodesList (i + e.size) es

def nodesOption (i : Nat) : Option Expr → List (Nat × Expr)
  | none => []
  | some e => e.nodes i
end

end Expr

end TypeFlow
