import Mathlib.Algebra.Group.WithOne.Basic
import Rustorch.Autograd.Relaying

/-!
# Gradient checkpointing

`checkpoint.rs`, with the parts of `variable.rs`, `tape.rs` and `ops.rs` that it works on.  A pure
function is the straight-line code that it runs on the tensors it is given.  Addresses are handed
out in order: the gradient slot of a variable and the node behind it share one.
-/

namespace Rustorch
namespace Autograd

structure Variable (T : Type) where
  tensor : T
  gradFn : Option Nat
  grad : Nat
  requiresGrad : Bool
  deriving DecidableEq, Repr

def Variable.edge {T : Type} (v : Variable T) : Edge Nat Nat :=
  if v.requiresGrad then
    match v.gradFn with
    | some node => Edge.fromNode node
    | none => Edge.leaf v.grad
  else
    Edge.detached

/-- A node on the heap; what its `apply` does may depend on whether gradients are enabled then. -/
structure Record (T : Type) where
  name : String
  apply : Bool → T → Option (List (Option T))
  nextEdges : List (Edge Nat Nat)

def Record.absent {T : Type} : Record T where
  name := ""
  apply := fun _ _ => some []
  nextEdges := []

structure Heap (T : Type) where
  nodes : Nat → Record T
  next : Nat

namespace Heap

variable {T : Type}

def graph (heap : Heap T) (gradEnabled : Bool) : Graph Nat Nat T := fun k =>
  { name := (heap.nodes k).name
    apply := (heap.nodes k).apply gradEnabled
    nextEdges := (heap.nodes k).nextEdges }

/-- `Variable::new` -/
def newVariable (heap : Heap T) (tensor : T) : Variable T × Heap T :=
  ({ tensor := tensor, gradFn := none, grad := heap.next, requiresGrad := false },
    { heap with next := heap.next + 1 })

/-- `out.grad_fn = Some(node); out.requires_grad = true;` -/
def attach (heap : Heap T) (out : Variable T) (record : Record T) : Variable T × Heap T :=
  ({ out with gradFn := some out.grad, requiresGrad := true },
    { heap with nodes := Function.update heap.nodes out.grad record })

end Heap

/-- An autograd op: its forward and backward formulas on the tensors of its arguments. -/
structure Op (T : Type) where
  name : String
  backwardName : String
  forward : List T → Except String T
  vjp : List T → T → List T
  vjp_length : ∀ xs g, (vjp xs g).length = xs.length

namespace Op

variable {T : Type}

def record (op : Op T) (args : List (Variable T)) : Record T where
  name := op.backwardName
  apply := fun _ grad => some ((op.vjp (args.map Variable.tensor) grad).map some)
  nextEdges := args.map Variable.edge

/-- The second half of an op, after its forward formula succeeded. -/
def finish (gradEnabled : Bool) (op : Op T) (args : List (Variable T)) (out : T) (heap : Heap T) :
    Variable T × Heap T :=
  let (out, heap) := heap.newVariable out
  if gradEnabled && args.any Variable.requiresGrad then heap.attach out (op.record args)
  else (out, heap)

def call (gradEnabled : Bool) (op : Op T) (args : List (Variable T)) (heap : Heap T) :
    Outcome BackwardError (Variable T × Heap T) :=
  match op.forward (args.map Variable.tensor) with
  | .ok out => .ok (op.finish gradEnabled args out heap)
  | .error message => .err (.backend op.name message)

end Op

/-- One op of a function; arguments are positions among the inputs and the results so far. -/
structure Instr (T : Type) where
  op : Op T
  args : List Nat

/-- The ops that a function runs, and the position of what it returns. -/
structure Trace (T : Type) where
  code : List (Instr T)
  result : Nat

/-- A pure function of variables: which ops it runs depends on the tensors alone. -/
abbrev PureFn (T : Type) : Type := List T → Trace T

section Run

variable {T : Type}

def lookup (env : List (Variable T)) (args : List Nat) : Option (List (Variable T)) :=
  args.mapM (fun a => env[a]?)

def run (gradEnabled : Bool) : List (Instr T) → List (Variable T) → Heap T →
    Outcome BackwardError (List (Variable T) × Heap T)
  | [], env, heap => .ok (env, heap)
  | instr :: rest, env, heap =>
    match lookup env instr.args with
    | none => .panic
    | some args =>
      match instr.op.call gradEnabled args heap with
      | .ok (out, heap) => run gradEnabled rest (env ++ [out]) heap
      | .err e => .err e
      | .panic => .panic

/-- `f(inputs)` -/
def call (gradEnabled : Bool) (f : PureFn T) (inputs : List (Variable T)) (heap : Heap T) :
    Outcome BackwardError (Variable T × Heap T) :=
  let trace := f (inputs.map Variable.tensor)
  match run gradEnabled trace.code inputs heap with
  | .ok (env, heap) =>
    match env[trace.result]? with
    | some out => .ok (out, heap)
    | none => .panic
  | .err e => .err e
  | .panic => .panic

end Run

section Checkpoint

variable {T : Type} (add : T → T → Except String T) (ones : T → Option T)

/-- `backward(&out, initial_grad)` -/
def backwardFrom (gradEnabled : Bool) (heap : Heap T) (out : Variable T) (initialGrad : Option T)
    (slots : Nat → Option T) : Tape Nat Nat T × Outcome BackwardError Unit :=
  backward (heap.graph gradEnabled) add (heap.next + 1)
    { gradFn := out.gradFn, ones := ones out.tensor } initialGrad slots

/-- Fresh leaves for the saved inputs.  Nothing else can reach them, so their addresses, and those
of the nodes built on them, are a heap of their own. -/
def leaves (savedInputs : List T) : List (Variable T) :=
  savedInputs.zipIdx.map (fun (tensor, i) =>
    { tensor := tensor, gradFn := none, grad := i, requiresGrad := true })

def leafHeap (savedInputs : List T) : Heap T where
  nodes := fun _ => Record.absent
  next := savedInputs.length

/-- Run the function again on fresh leaves, and `backward` from what it returns. -/
def recompute (gradEnabled : Bool) (f : PureFn T) (savedInputs : List T) (grad : T) :
    Option (Nat → Option T) :=
  match call gradEnabled f (leaves savedInputs) (leafHeap savedInputs) with
  | .ok (out, heap) =>
    match backwardFrom add ones gradEnabled heap out (some grad) (fun _ => none) with
    | (tape, .ok ()) => some tape.slots
    | _ => none
  | _ => none

def CheckpointNBackward.apply (f : PureFn T) (savedInputs : List T) (gradEnabled : Bool)
    (grad : T) : Option (List (Option T)) :=
  match recompute add ones gradEnabled f savedInputs grad with
  | some slots => some ((leaves savedInputs).map (fun leaf => slots leaf.grad))
  | none => none

/-- One leaf, whose gradient is expected to be there. -/
def CheckpointBackward.apply (f : PureFn T) (savedInput : T) (gradEnabled : Bool) (grad : T) :
    Option (List (Option T)) :=
  match recompute add ones gradEnabled f [savedInput] grad with
  | some slots =>
    match slots 0 with
    | some g => some [some g]
    | none => none
  | none => none

def checkpointN (gradEnabled : Bool) (f : PureFn T) (inputs : List (Variable T)) (heap : Heap T) :
    Outcome BackwardError (Variable T × Heap T) :=
  -- the forward run records nothing
  match call false f inputs heap with
  | .ok (outNoGrad, heap) =>
    let (out, heap) := heap.newVariable outNoGrad.tensor
    if gradEnabled && inputs.any Variable.requiresGrad then
      .ok (heap.attach out
        { name := "CheckpointNBackward"
          apply := CheckpointNBackward.apply add ones f (inputs.map Variable.tensor)
          nextEdges := inputs.map Variable.edge })
    else .ok (out, heap)
  | .err e => .err e
  | .panic => .panic

def checkpoint (gradEnabled : Bool) (f : PureFn T) (x : Variable T) (heap : Heap T) :
    Outcome BackwardError (Variable T × Heap T) :=
  match call false f [x] heap with
  | .ok (outNoGrad, heap) =>
    let (out, heap) := heap.newVariable outNoGrad.tensor
    if gradEnabled && x.requiresGrad then
      .ok (heap.attach out
        { name := "CheckpointBackward"
          apply := CheckpointBackward.apply add ones f x.tensor
          nextEdges := [x.edge] })
    else .ok (out, heap)
  | .err e => .err e
  | .panic => .panic

end Checkpoint

end Autograd
end Rustorch

/-!
# The backward pass over a heap

On a heap whose nodes lead to earlier addresses, `backward` relays gradients along the addresses
below the root, from the largest: which of them it visits, and in which order, does not matter.
-/

namespace Rustorch
namespace Autograd

open Relay List Function

section Held

variable {K S T : Type}

/-- Optional gradients as a monoid; nothing is zero. -/
def held : Option T → WithZero T
  | some g => (g : WithZero T)
  | none => 0

theorem held_injective : Injective (held : Option T → WithZero T) := by
  intro x y h
  cases x with
  | none =>
    cases y with
    | none => rfl
    | some b => exact absurd h (WithZero.coe_ne_zero).symm
  | some a =>
    cases y with
    | none => exact absurd h WithZero.coe_ne_zero
    | some b => exact congrArg some (WithZero.coe_inj.1 h)

theorem reading_held [AddCommSemigroup T] : Reading (held : Option T → WithZero T) where
  none := rfl
  add x y := WithZero.coe_add x y

/-- What a node emits: nothing from nothing, and else the entries of its `apply`. -/
def emitHeld (graph : Graph K S T) (k : K) : WithZero T → List ((K ⊕ S) × WithZero T) :=
  WithZero.recZeroCoe [] (fun g =>
    parts held ((graph k).nextEdges.zip (((graph k).apply g).getD [])))

theorem emitHeld_zero (graph : Graph K S T) (k : K) : emitHeld graph k 0 = [] := rfl

theorem emitHeld_coe (graph : Graph K S T) (k : K) (g : T) :
    emitHeld graph k (g : WithZero T) =
      parts held ((graph k).nextEdges.zip (((graph k).apply g).getD [])) := rfl

theorem dest_of_mem_parts {edges : List (Edge K S)} {entries : List (Option T)}
    {part : (K ⊕ S) × WithZero T} (hpart : part ∈ parts held (edges.zip entries)) :
    some part.1 ∈ edges.map Edge.dest := by
  obtain ⟨⟨edge, entry⟩, hzip, hshow⟩ := mem_filterMap.1 hpart
  simp only at hshow
  split at hshow
  · next d g hdest =>
      cases hshow
      rw [← hdest]
      exact mem_map_of_mem (of_mem_zip hzip).1
  · cases hshow

variable [AddCommSemigroup T]

theorem out_of_notMem [DecidableEq K] [DecidableEq S] {graph : Graph K S T} {k : K} {d : K ⊕ S}
    (hd : some d ∉ (graph k).nextEdges.map Edge.dest) (x : WithZero T) :
    out (emitHeld graph) k x d = 0 := by
  apply out_eq_zero
  intro part hpart heq
  cases x using WithZero.recZeroCoe with
  | zero =>
    cases hpart
  | coe g =>
    have hmem := dest_of_mem_parts hpart
    rw [heq] at hmem
    exact hd hmem

theorem follows_emitHeld [DecidableEq K] [DecidableEq S] (graph : Graph K S T) :
    Follows (emitHeld graph) (successors graph) where
  node k x n hn := out_of_notMem (fun hmem => hn (mem_successors.2 hmem)) x
  quiet k st := by
    rw [emitHeld_zero]
    rfl

end Held

/-! ## Heaps -/

section Heaps

variable {T : Type}

/-- Edges lead to earlier nodes and to known slots, addresses not yet handed out are unused, and
each call of `apply` answers one entry for each edge. -/
structure Heap.Sound (gradEnabled : Bool) (heap : Heap T) : Prop where
  below : ∀ k n, some (Sum.inl n) ∈ (heap.nodes k).nextEdges.map Edge.dest → n < k
  slot : ∀ k s, some (Sum.inr s) ∈ (heap.nodes k).nextEdges.map Edge.dest → s < heap.next
  unused : ∀ k, heap.next ≤ k → heap.nodes k = Record.absent
  total : ∀ k g, ∃ entries, (heap.nodes k).apply gradEnabled g = some entries ∧
    entries.length = (heap.nodes k).nextEdges.length

variable {gradEnabled : Bool} {heap : Heap T}

theorem Heap.Sound.edge_below (h : heap.Sound gradEnabled) {k n : Nat}
    (hn : n ∈ successors (heap.graph gradEnabled) k) : n < k :=
  h.below k n (mem_successors.1 hn)

variable [AddCommSemigroup T] {add : T → T → Except String T} {ones : T → Option T}

theorem emits_emitHeld (h : heap.Sound gradEnabled) :
    Emits held (heap.graph gradEnabled) (emitHeld (heap.graph gradEnabled)) where
  apply k x := by
    obtain ⟨entries, happly, hlength⟩ := h.total k x
    refine ⟨entries, happly, hlength, ?_⟩
    change emitHeld (heap.graph gradEnabled) k (x : WithZero T) = _
    rw [emitHeld_coe]
    have happly' : ((heap.graph gradEnabled) k).apply x = some entries := happly
    rw [happly', Option.getD_some]
  quiet := (follows_emitHeld (heap.graph gradEnabled)).quiet

/-- The state in which only the root and the slots hold something. -/
def start (root : Nat) (grad : T) (slots : Nat → Option T) : Nat ⊕ Nat → WithZero T
  | .inl k => if k = root then (grad : WithZero T) else 0
  | .inr s => held (slots s)

theorem backwardFrom_sweep (hadd : ∀ x y, add x y = .ok (x + y)) (h : heap.Sound gradEnabled)
    {out : Variable T} {root : Nat} (hroot : out.gradFn = some root) (hlt : root < heap.next)
    {initialGrad : Option T} {grad : T}
    (hgrad : initialGrad.orElse (fun _ => ones out.tensor) = some grad) (slots : Nat → Option T) :
    ∃ tape, backwardFrom add ones gradEnabled heap out initialGrad slots = (tape, .ok ()) ∧
      ∀ s, held (tape.slots s) =
        relay (emitHeld (heap.graph gradEnabled)) (start root grad slots)
          (PostOrder.descending heap.next) (.inr s) := by
  have hbelow : ∀ k, ∀ n ∈ successors (heap.graph gradEnabled) k, n < k :=
    fun k n hn => h.edge_below hn
  obtain ⟨hordered, hlisted⟩ := @PostOrder.ordered_visit Nat _ _ id (heap.next + 1) root hbelow
    (lt_trans hlt (Nat.lt_succ_self _))
  have hinside : ∀ v ∈ (PostOrder.visit (successors (heap.graph gradEnabled)) (heap.next + 1) root
      ([], ∅)).1, v < heap.next :=
    PostOrder.visit_inside (fun k hk n hn => lt_trans (hbelow k n hn) hk) _ _ _ hlt
      (fun v hv => absurd hv not_mem_nil)
  have hreads : Reads held
      { grads := Function.update (fun _ => none) root (some grad), slots := slots, applied := [] }
      (start root grad slots) := by
    constructor
    · intro k
      change _ = held (Function.update (fun _ => none) root (some grad) k)
      by_cases hk : k = root
      · subst hk
        rw [update_self]
        exact if_pos rfl
      · rw [update_of_ne hk]
        exact if_neg hk
    · exact fun s => rfl
  obtain ⟨tape, log, hrun, _, hfinal, _⟩ := processAll_reads reading_held hadd (emits_emitHeld h)
    _ _ _ hreads hordered.nodup
  have hsame := relay_of_subset (follows_emitHeld (heap.graph gradEnabled))
    (fun k hk => lt_irrefl k (hbelow k k hk)) (PostOrder.descending heap.next) _
    (start root grad slots) (PostOrder.ordered_descending hbelow heap.next) hordered
    (fun k hk => PostOrder.mem_descending.2 (hinside k (mem_reverse.1 hk)))
    (fun k hk => if_neg (fun heq : k = root => hk (mem_reverse.2 (heq ▸ hlisted))))
  refine ⟨tape, ?_, ?_⟩
  · unfold backwardFrom backward
    simp only [hroot, hgrad, visit_eq]
    exact hrun
  · intro s
    rw [hsame]
    exact (hfinal.slots s).symm

end Heaps

end Autograd
end Rustorch
