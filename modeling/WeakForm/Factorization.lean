import Std.Data.TreeMap
import WeakForm.Expr.Build
import WeakForm.Graph.Basic

/-!
# Factorization into arguments

Every target of a scalar graph is written as a sum of terms that are linear in the
arguments of the form:

    target = ∑ over keys k of  factor k * argument k₀ * argument k₁ * …

The distinct arguments, sorted, make the *argument vector*, and a key is a list of
positions in it, in ascending order. Factors are free of arguments. They live in a
graph of their own, whose first nodes are the argument vector, so the position of
an argument is also its node.

* `Factors` — a value as a factor or as a sum of terms by key;
* `Factors.sum`, `Factors.product`, `Factors.division` — arithmetic on such sums;
* `ScalarGraph.factorize` — a forward sweep over the graph;
* `Factorization.rebuild` — a target, put together again from its factors.
-/

namespace WeakForm

/-- Positions in the argument vector, in ascending order. -/
abbrev ArgumentKey := List Nat

/-- Factors of the terms of a sum, by key. -/
abbrev FactorMap := Std.TreeMap ArgumentKey NodeId

/-- A single term. -/
def FactorMap.single (key : ArgumentKey) (factor : NodeId) : FactorMap :=
  (∅ : FactorMap).insert key factor

/-- The value of a node in terms of the arguments. -/
inductive Factors where
  /-- A value that depends on no argument. -/
  | free (factor : NodeId)
  /-- A sum of terms with arguments. -/
  | terms (factors : FactorMap)

namespace Factors

def isFree : Factors → Bool
  | free _ => true
  | terms _ => false

/-- The number of arguments in the first term. -/
def rank : Factors → Nat
  | free _ => 0
  | terms factors => (factors.keys.head?.map List.length).getD 0

end Factors

/-- The targets of a graph as sums of products of factors and arguments. -/
structure Factorization (R : Type) [DecidableEq R] where
  /-- The argument vector, then the factors. Targets are the factors in use. -/
  graph : ScalarGraph R
  /-- The argument vector. -/
  arguments : List (ModifiedTerminal R)
  /-- By key, each factor with the target component it belongs to. -/
  terms : Std.TreeMap ArgumentKey (List (NodeId × Nat))
  /-- The number of target components. -/
  size : Nat

namespace Factorization

variable {R : Type} [Scalar R] [DecidableEq R]

/-- The expression at a position of the argument vector. -/
def argument (f : Factorization R) (position : Nat) : Checked R (Expr R) :=
  f.graph.expr position

/-- A factor times the arguments of its key. -/
def term (f : Factorization R) (key : ArgumentKey) (factor : NodeId) : Checked R (Expr R) := do
  key.foldlM (fun product position => do product.mul (← f.argument position))
    (← f.graph.expr factor)

/-- The keys and factors of a target component, in ascending order of key. -/
def termsOf (f : Factorization R) (component : Nat) : List (ArgumentKey × NodeId) :=
  f.terms.toList.flatMap fun (key, factors) =>
    (factors.filter (·.2 = component)).map fun (factor, _) => (key, factor)

/-- A target component, as the sum of its terms. -/
def rebuild (f : Factorization R) (component : Nat) : Checked R (Expr R) :=
  (f.termsOf component).foldlM (fun sum (key, factor) => do sum.add (← f.term key factor))
    (Expr.zero [])

end Factorization

namespace ScalarGraph

variable {R : Type} [DecidableEq R]

/-! ## The argument vector -/

/-- The descriptor of a leaf: the one noted about it, or that of its expression. -/
def leafTerminal (n : Node R) : Result R (ModifiedTerminal R) :=
  match n.terminal with
  | some m => .ok m
  | none => do
    match ← n.expr.analyse with
    | some m => return m
    | none => throw (.unexpectedNode n.expr)

/-- The leaves of a graph with their descriptors. -/
def leafTerminals (g : ScalarGraph R) : Result R (List (NodeId × ModifiedTerminal R)) :=
  (g.nodes.toList.zipIdx.filter (·.1.isLeaf)).mapM fun (n, i) => do return (i, ← leafTerminal n)

/-- Leaves in the order of the argument vector, and of equals the earlier node first. -/
def sortArguments (leaves : List (NodeId × ModifiedTerminal R)) :
    List (NodeId × ModifiedTerminal R) :=
  leaves.mergeSort fun a b =>
    (((a.2.compareArguments? b.2.toDescriptor).getD .eq).then (compare a.1 b.1)).isLE

/-- The first of every descriptor. -/
def distinct (terminals : List (ModifiedTerminal R)) : List (ModifiedTerminal R) :=
  (terminals.foldl
    (fun seen m => if seen.any (·.toDescriptor = m.toDescriptor) then seen else m :: seen)
    []).reverse

/-- The position of a leaf in the argument vector. -/
def argumentPosition? (arguments : List (ModifiedTerminal R)) (m : ModifiedTerminal R) :
    Option Nat :=
  arguments.findIdx? (·.toDescriptor = m.toDescriptor)

end ScalarGraph

/-! ## Arithmetic on factors -/

namespace Factors

variable {R : Type} [Scalar R] [DecidableEq R]

/-- Insert an operator over two factors. -/
def combine (op : BinaryOp) (x y : NodeId) : Building R NodeId := do
  let g ← get
  let e ← (op.apply (← g.expr x) (← g.expr y) : Checked R _)
  ScalarGraph.insert e

/-- Every term combined with a value free of arguments. -/
def scale (op : BinaryOp) (factors : FactorMap) (x : NodeId) : Building R Factors := do
  return terms <|
    ← factors.foldlM (fun scaled key f => return scaled.insert key (← combine op f x)) ∅

/-- The sum of two sums of terms with the same number of arguments. -/
def sum (e : Expr R) (a b : Factors) : Building R Factors := do
  match a, b with
  | terms as, terms bs =>
    -- every term has as many arguments as the first one
    unless (as.keys ++ bs.keys).all (·.length = a.rank) do throw (.mixedRank a.rank b.rank e)
    return terms <| ← bs.foldlM
      (fun merged key y => do
        match as[key]? with
        | some x => return merged.insert key (← combine .sum x y)
        | none => return merged.insert key y) as
  | _, _ => throw (.mixedRank a.rank b.rank e)

/-- Add a factor to the term of a key. -/
def addTerm (factors : FactorMap) (key : ArgumentKey) (x : NodeId) : Building R FactorMap := do
  match factors[key]? with
  | some previous => return factors.insert key (← combine .sum previous x)
  | none => return factors.insert key x

/-- The product of two values: terms are multiplied pairwise. -/
def product (e : Expr R) (a b : Factors) : Building R Factors := do
  match a, b with
  | free x, terms bs => scale .product bs x
  | terms as, free y => scale .product as y
  | terms as, terms bs =>
    -- different pairs of terms may come to one key, and are then added
    return terms <| ← as.foldlM
      (fun out k x => bs.foldlM
        (fun out l y => do addTerm out (k ++ l).mergeSort (← combine .product x y)) out) ∅
  | free _, free _ => return free (← ScalarGraph.insert e)

/-- The quotient by a value free of arguments. -/
def division (e : Expr R) (a b : Factors) : Building R Factors := do
  match a, b with
  | _, terms _ => throw (.argumentDivisor e)
  | terms as, free y => scale .division as y
  | free _, free _ => return free (← ScalarGraph.insert e)

/-- An operator over values of which one depends on an argument. -/
def operator (e : Expr R) (operands : List Factors) : Building R Factors :=
  match e, operands with
  | .binary .sum _ _, [a, b] => sum e a b
  | .binary .product _ _, [a, b] => product e a b
  | .binary .division _ _, [a, b] => division e a b
  | _, _ => throw (.nonlinear e)

end Factors

/-! ## The sweep -/

namespace ScalarGraph

variable {R : Type} [Scalar R] [DecidableEq R]

/-- The factors of an operand that was swept before. -/
def sweptOperand (swept : Array Factors) (i : NodeId) : Building R Factors :=
  match swept[i]? with
  | some f => return f
  | none => throw (.breach .outOfBounds)

/-- The factors of a node, given those of the nodes before it. -/
def sweepNode (position? : NodeId → Option Nat) (one : NodeId) (swept : Array Factors)
    (n : Node R) (i : NodeId) : Building R Factors := do
  match position? i with
  | some p => return .terms (.single [p] one)
  | none =>
    let operands ← n.operands.mapM (sweptOperand swept)
    -- a node over operands without arguments is a factor itself
    if operands.all (·.isFree) then return .free (← insert n.expr)
    else Factors.operator n.expr operands

/-- The terms of a target in a form of the given rank. -/
def targetTerms (rank : Nat) (e : Expr R) (factors : Factors) : Building R FactorMap := do
  match factors with
  | .terms factors =>
    match factors.keys.find? (·.length != rank) with
    | some key => throw (.rankMismatch rank key.length e)
    | none => return factors
  | .free f =>
    -- in a form with arguments, zero has no terms, and no other value may lack them
    if rank = 0 then return .single [] f
    else if (← (← get).expr f).isZero then return ∅
    else throw (.rankMismatch rank 0 e)

/-- Add the terms of a target component to those of the components before. -/
def collectTerms (terms : Std.TreeMap ArgumentKey (List (NodeId × Nat))) (factors : FactorMap)
    (component : Nat) : Std.TreeMap ArgumentKey (List (NodeId × Nat)) :=
  factors.foldl (fun terms key f => terms.insert key (terms.getD key [] ++ [(f, component)])) terms

/-- Add a factor to the targets, once. -/
def useFactor (g : ScalarGraph R) (f : NodeId) : ScalarGraph R :=
  if g.isTarget f then g else g.pushTarget f

/-- The terms of all targets, with factors that are built in a new graph. -/
def sweep (g : ScalarGraph R) (rank : Nat) (arguments : List (ModifiedTerminal R))
    (position? : NodeId → Option Nat) :
    Building R (Std.TreeMap ArgumentKey (List (NodeId × Nat))) := do
  -- the argument vector first: the position of an argument is its node
  for m in arguments do
    let _ ← insert m.expr
  let one ← insert (Expr.real Scalar.one)
  let swept ← g.nodes.toList.zipIdx.foldlM
    (fun swept (n, i) => return swept.push (← sweepNode position? one swept n i)) #[]
  let terms ← g.targets.toList.zipIdx.foldlM
    (fun terms (t, component) => do
      let factors ← sweptOperand swept t
      return collectTerms terms (← targetTerms rank (← g.expr t) factors) component) ∅
  -- the factors in use are the targets of the new graph
  modify fun factors =>
    (terms.toList.flatMap fun (_, uses) => uses.map (·.1)).foldl useFactor factors
  return terms

/-- The factorization of a graph's targets, for a form with `rank` arguments. -/
def factorize (g : ScalarGraph R) (rank : Nat) : Result R (Factorization R) := do
  let leaves := sortArguments ((← g.leafTerminals).filter (·.2.isArgument))
  let arguments := distinct (leaves.map (·.2))
  -- leaves with one descriptor have one position
  let positions : Std.HashMap NodeId Nat := .ofList <| leaves.filterMap fun (i, m) =>
    (argumentPosition? arguments m).map (i, ·)
  match (g.sweep rank arguments (positions[·]?)).run.run {} with
  | (.ok terms, graph) => return { graph, arguments, terms, size := g.targets.size }
  | (.error e, _) => throw e

end ScalarGraph

end WeakForm
