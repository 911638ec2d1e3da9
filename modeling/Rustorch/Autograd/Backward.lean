import Rustorch.Lib.Outcome
import Rustorch.Lib.PostOrder

/-!
# The backward pass

`backward.rs` and `node.rs`: a depth-first search lists the nodes below the output, and the list is
walked from its end.  Nodes and gradient slots are known by their addresses; a gradient is any type
with a fallible addition.
-/

namespace Rustorch
namespace Autograd

open List Function

inductive BackwardError
  | noGradFn
  | backend (op message : String)
  deriving DecidableEq, Repr

structure Edge (K S : Type) where
  node : Option K
  gradSlot : Option S
  deriving DecidableEq, Repr

namespace Edge

variable {K S : Type}

def leaf (slot : S) : Edge K S where
  node := none
  gradSlot := some slot

def fromNode (node : K) : Edge K S where
  node := some node
  gradSlot := none

def detached : Edge K S where
  node := none
  gradSlot := none

end Edge

/-- `apply` answers `none` where the code panics. -/
structure Node (K S G : Type) where
  name : String
  apply : G → Option (List (Option G))
  nextEdges : List (Edge K S)

abbrev Graph (K S G : Type) : Type := K → Node K S G

/-- The gradients that wait at nodes, those in the slots, and the calls of `apply` so far. -/
structure Tape (K S G : Type) where
  grads : K → Option G
  slots : S → Option G
  applied : List (K × G)

section Backward

variable {K S G : Type} [DecidableEq K] [DecidableEq S] (graph : Graph K S G)
  (add : G → G → Except String G)

def visit : Nat → K → List K × Finset K → List K × Finset K
  | 0, _, st => st
  | fuel + 1, node, (topo, visited) =>
    if node ∈ visited then (topo, visited)
    else
      let (topo, visited) := (graph node).nextEdges.foldl
        (fun st edge =>
          match edge.node with
          | some n => visit fuel n st
          | none => st)
        (topo, insert node visited)
      (topo ++ [node], visited)

/-- The previous gradient is taken out before the addition, so a failure leaves none. -/
def accumulateIntoEdge (edge : Edge K S) (grad : G) (tape : Tape K S G) :
    Tape K S G × Outcome BackwardError Unit :=
  match edge.node with
  | some upstream =>
    match tape.grads upstream with
    | some prev =>
      match add prev grad with
      | .ok summed =>
        ({ tape with grads := update tape.grads upstream (some summed) }, .ok ())
      | .error message =>
        ({ tape with grads := update tape.grads upstream none },
          .err (.backend "accumulate" message))
    | none => ({ tape with grads := update tape.grads upstream (some grad) }, .ok ())
  | none =>
    match edge.gradSlot with
    | some slot =>
      match tape.slots slot with
      | some prev =>
        match add prev grad with
        | .ok next =>
          ({ tape with slots := update tape.slots slot (some next) }, .ok ())
        | .error message =>
          ({ tape with slots := update tape.slots slot none },
            .err (.backend "accumulate_leaf" message))
      | none => ({ tape with slots := update tape.slots slot (some grad) }, .ok ())
    | none => (tape, .ok ())

/-- The entries of `apply` go to the edges, one by one. -/
def accumulate : List (Edge K S × Option G) → Tape K S G → Tape K S G × Outcome BackwardError Unit
  | [], tape => (tape, .ok ())
  | (_, none) :: rest, tape => accumulate rest tape
  | (edge, some g) :: rest, tape =>
    match accumulateIntoEdge add edge g tape with
    | (tape, .ok ()) => accumulate rest tape
    | (tape, out) => (tape, out)

/-- One turn of the loop over the nodes. -/
def process (tape : Tape K S G) (node : K) : Tape K S G × Outcome BackwardError Unit :=
  match tape.grads node with
  | none => (tape, .ok ())
  | some upstream =>
    let tape : Tape K S G :=
      { tape with
        grads := update tape.grads node none
        applied := tape.applied ++ [(node, upstream)] }
    match (graph node).apply upstream with
    | none => (tape, .panic)
    | some inputGrads =>
      let edges := (graph node).nextEdges
      if inputGrads.length ≠ edges.length then
        let found := inputGrads.length
        let wanted := edges.length
        (tape, .err (.backend (graph node).name
          s!"input_grads.len() ({found}) != next_edges.len() ({wanted})"))
      else
        accumulate add (edges.zip inputGrads) tape

def processAll : List K → Tape K S G → Tape K S G × Outcome BackwardError Unit
  | [], tape => (tape, .ok ())
  | node :: rest, tape =>
    match process graph add tape node with
    | (tape, .ok ()) => processAll rest tape
    | (tape, out) => (tape, out)

/-- The part of a variable that `backward` reads; `ones` is absent where `ones_like` panics. -/
structure Output (K G : Type) where
  gradFn : Option K
  ones : Option G

def backward (fuel : Nat) (output : Output K G) (initialGrad : Option G) (slots : S → Option G) :
    Tape K S G × Outcome BackwardError Unit :=
  let tape : Tape K S G := { grads := fun _ => none, slots := slots, applied := [] }
  match output.gradFn with
  | none => (tape, .err .noGradFn)
  | some root =>
    match initialGrad.orElse (fun _ => output.ones) with
    | none => (tape, .panic)
    | some grad =>
      let topo := (visit graph fuel root ([], ∅)).1
      processAll graph add topo.reverse
        { tape with grads := update tape.grads root (some grad) }

/-! ## The search -/

/-- The nodes that the edges of a node lead to. -/
def successors (node : K) : List K :=
  (graph node).nextEdges.filterMap Edge.node

omit [DecidableEq S] in
theorem visit_eq (fuel : Nat) : ∀ (node : K) (st : List K × Finset K),
    visit graph fuel node st = PostOrder.visit (successors graph) fuel node st := by
  induction fuel with
  | zero => exact fun _ _ => rfl
  | succ fuel ih =>
    rintro node ⟨topo, visited⟩
    -- an edge without a node is no step of the search
    have hedges : ∀ (edges : List (Edge K S)) (st : List K × Finset K),
        edges.foldl (fun st edge =>
          match edge.node with
          | some n => visit graph fuel n st
          | none => st) st =
        (edges.filterMap Edge.node).foldl
          (fun st n => PostOrder.visit (successors graph) fuel n st) st := by
      intro edges
      induction edges with
      | nil => exact fun _ => rfl
      | cons edge edges ihe =>
        intro st
        rw [foldl_cons, ihe]
        cases hnode : edge.node with
        | none => rw [filterMap_cons_none hnode]
        | some n => rw [filterMap_cons_some hnode, foldl_cons, ← ih]
    unfold visit PostOrder.visit
    rw [hedges]
    rfl

end Backward

end Autograd
end Rustorch
