import Rustorch.Autograd.Relaying

/-!
# Gradients of the leaves after a failed backward pass

A pass delivers gradients to edges, one after another, until a delivery fails.  A leaf slot that
held a gradient holds the sum of what it was given, unless a delivery to it failed: its gradient is
taken out before the addition (`backward_keeps_iff`).
-/

namespace Rustorch
namespace Autograd

open List Function

variable {K S G : Type} [DecidableEq K] [DecidableEq S]

/-! ## Deliveries -/

/-- A gradient for an edge, and the tape that it meets. -/
structure Delivery (K S G : Type) where
  tape : Tape K S G
  edge : Edge K S
  grad : G

section Trace

variable (graph : Graph K S G) (add : G → G → Except String G)

def Delivery.outcome (d : Delivery K S G) : Outcome BackwardError Unit :=
  (accumulateIntoEdge add d.edge d.grad d.tape).2

/-- The deliveries of `accumulate`; a failed one is the last. -/
def accumulateTrace : List (Edge K S × Option G) → Tape K S G → List (Delivery K S G)
  | [], _ => []
  | (_, none) :: rest, tape => accumulateTrace rest tape
  | (edge, some g) :: rest, tape =>
    { tape := tape, edge := edge, grad := g } ::
      match accumulateIntoEdge add edge g tape with
      | (tape, .ok ()) => accumulateTrace rest tape
      | _ => []

/-- The deliveries of one turn of the loop. -/
def processTrace (tape : Tape K S G) (node : K) : List (Delivery K S G) :=
  match tape.grads node with
  | none => []
  | some upstream =>
    match (graph node).apply upstream with
    | none => []
    | some inputGrads =>
      if inputGrads.length ≠ (graph node).nextEdges.length then
        []
      else
        accumulateTrace add ((graph node).nextEdges.zip inputGrads)
          { tape with
            grads := Function.update tape.grads node none
            applied := tape.applied ++ [(node, upstream)] }

def processAllTrace : List K → Tape K S G → List (Delivery K S G)
  | [], _ => []
  | node :: rest, tape =>
    processTrace graph add tape node ++
      match process graph add tape node with
      | (tape, .ok ()) => processAllTrace rest tape
      | _ => []

/-- The deliveries of a backward pass. -/
def backwardTrace (fuel : Nat) (output : Output K G) (initialGrad : Option G)
    (slots : S → Option G) : List (Delivery K S G) :=
  match output.gradFn, initialGrad.orElse (fun _ => output.ones) with
  | some root, some grad =>
    processAllTrace graph add (visit graph fuel root ([], ∅)).1.reverse
      { grads := Function.update (fun _ => none) root (some grad), slots := slots, applied := [] }
  | _, _ => []

/-- What a slot was given. -/
def contributions (s : S) (trace : List (Delivery K S G)) : List G :=
  trace.filterMap fun d =>
    if d.edge.dest = some (.inr s) ∧ d.outcome add = .ok () then some d.grad else none

/-- The addition to the gradient that a slot holds, if this is one, succeeds. -/
def Accepts (s : S) (d : Delivery K S G) : Prop :=
  d.edge.dest = some (.inr s) → ∀ prev, d.tape.slots s = some prev →
    ∃ next, add prev d.grad = .ok next

/-- A failed pass leaves in every slot that held a gradient the sum of it and of what the slot was
given. -/
def KeepsLeafGrads (fuel : Nat) (output : Output K G) (initialGrad : Option G)
    (slots : S → Option G) : Prop :=
  ∀ e, (backward graph add fuel output initialGrad slots).2 = .err e →
    ∀ s old, slots s = some old → ∃ new,
      (backward graph add fuel output initialGrad slots).1.slots s = some new ∧
        (contributions add s (backwardTrace graph add fuel output initialGrad slots)).foldlM add old =
          .ok new

end Trace

/-! ## One slot over a run -/

section Slot

variable {graph : Graph K S G} {add : G → G → Except String G} {s : S} {x : G}

theorem contributions_append (s : S) (before after : List (Delivery K S G)) :
    contributions add s (before ++ after) =
      contributions add s before ++ contributions add s after :=
  filterMap_append

/-- What a run with this trace makes of a slot that holds `x`. -/
structure Runs (add : G → G → Except String G) (s : S) (x : G) (trace : List (Delivery K S G))
    (run : Tape K S G × Outcome BackwardError Unit) : Prop where
  kept : (∀ d ∈ trace, Accepts add s d) → ∃ y, run.1.slots s = some y ∧
    (contributions add s trace).foldlM add x = .ok y
  lost : (∃ d ∈ trace, ¬ Accepts add s d) → run.1.slots s = none ∧ ∃ e, run.2 = .err e

variable {tape : Tape K S G} {edge : Edge K S}

theorem Runs.nil {out : Outcome BackwardError Unit} :
    tape.slots s = some x → Runs add s x [] (tape, out) := by
  intro h
  constructor
  · exact fun _ => ⟨x, h, rfl⟩
  · rintro ⟨d, hd, _⟩
    cases hd

theorem Runs.append {before after : List (Delivery K S G)}
    {run : Tape K S G × Outcome BackwardError Unit} (h : Runs add s x before (tape, .ok ())) :
    (∀ y, tape.slots s = some y → Runs add s y after run) → Runs add s x (before ++ after) run := by
  intro hafter
  have hbefore : ∀ d ∈ before, Accepts add s d := by
    by_contra hbad
    push Not at hbad
    obtain ⟨_, e, he⟩ := h.lost hbad
    cases he
  obtain ⟨y, hy, hsum⟩ := h.kept hbefore
  have hrest := hafter y hy
  constructor
  · intro hall
    obtain ⟨z, hz, hsum'⟩ := hrest.kept fun d hd => hall d (mem_append_right _ hd)
    refine ⟨z, hz, ?_⟩
    rw [contributions_append, foldlM_append, hsum]
    exact hsum'
  · rintro ⟨d, hd, hbad⟩
    rcases mem_append.1 hd with hd | hd
    · exact absurd (hbefore d hd) hbad
    · exact hrest.lost ⟨d, hd, hbad⟩

/-- A delivery that goes elsewhere leaves a slot alone. -/
theorem slots_of_dest_ne {g : G} : edge.dest ≠ some (.inr s) →
      (accumulateIntoEdge add edge g tape).1.slots s = tape.slots s := by
  intro hdest
  obtain ⟨node, gradSlot⟩ := edge
  unfold accumulateIntoEdge
  cases node with
  | some n =>
    cases hgrads : tape.grads n with
    | none => simp only [hgrads]
    | some prev =>
      cases hadd : add prev g with
      | ok summed => simp only [hgrads, hadd]
      | error message => simp only [hgrads, hadd]
  | none =>
    cases gradSlot with
    | none => rfl
    | some slot =>
      have hne : s ≠ slot := by
        rintro rfl
        exact hdest rfl
      cases hslot : tape.slots slot with
      | none =>
        simp only [hslot]
        exact update_of_ne hne _ _
      | some prev =>
        cases hadd : add prev g with
        | ok next =>
          simp only [hslot, hadd]
          exact update_of_ne hne _ _
        | error message =>
          simp only [hslot, hadd]
          exact update_of_ne hne _ _

theorem accumulateIntoEdge_slot {g : G} : edge.dest = some (.inr s) → tape.slots s = some x →
      accumulateIntoEdge add edge g tape =
        match add x g with
        | .ok next => ({ tape with slots := update tape.slots s (some next) }, .ok ())
        | .error message =>
          ({ tape with slots := update tape.slots s none },
            .err (.backend "accumulate_leaf" message)) := by
  intro hdest hx
  obtain ⟨node, gradSlot⟩ := edge
  cases node with
  | some n => cases hdest
  | none =>
    cases gradSlot with
    | none => cases hdest
    | some slot =>
      obtain rfl : slot = s := Sum.inr_injective (Option.some.inj hdest)
      cases hadd : add x g with
      | ok next => simp only [accumulateIntoEdge, hx, hadd]
      | error message => simp only [accumulateIntoEdge, hx, hadd]

/-- One delivery. -/
theorem accumulateIntoEdge_runs (edge : Edge K S) (g : G) : tape.slots s = some x →
      Runs add s x [{ tape := tape, edge := edge, grad := g }]
        (accumulateIntoEdge add edge g tape) := by
  intro hx
  by_cases hdest : edge.dest = some (.inr s)
  · have heq := @accumulateIntoEdge_slot _ _ _ _ _ add s x tape edge g hdest hx
    cases hadd : add x g with
    | ok next =>
      rw [hadd] at heq
      have hsum : contributions add s [{ tape := tape, edge := edge, grad := g }] = [g] := by
        simp [contributions, Delivery.outcome, hdest, heq]
      constructor
      · intro _
        refine ⟨next, ?_, ?_⟩
        · rw [heq]
          exact update_self _ _ _
        · rw [hsum, foldlM_cons, hadd]
          rfl
      · rintro ⟨d, hd, hbad⟩
        rw [mem_singleton.1 hd] at hbad
        refine absurd ?_ hbad
        intro _ prev hprev
        cases hx.symm.trans hprev
        exact ⟨next, hadd⟩
    | error message =>
      rw [hadd] at heq
      constructor
      · intro hall
        obtain ⟨next, hnext⟩ := hall _ (mem_singleton_self _) hdest x hx
        rw [hadd] at hnext
        cases hnext
      · intro _
        rw [heq]
        exact ⟨update_self _ _ _, _, rfl⟩
  -- a delivery to another destination contributes nothing and leaves the slot
  · have hnone : contributions add s [{ tape := tape, edge := edge, grad := g }] = [] := by
      simp [contributions, hdest]
    constructor
    · intro _
      refine ⟨x, (slots_of_dest_ne hdest).trans hx, ?_⟩
      rw [hnone]
      rfl
    · rintro ⟨d, hd, hbad⟩
      rw [mem_singleton.1 hd] at hbad
      exact absurd (fun h => absurd h hdest) hbad

theorem accumulate_runs (entries : List (Edge K S × Option G)) :
    ∀ (tape : Tape K S G) (x : G), tape.slots s = some x →
      Runs add s x (accumulateTrace add entries tape) (accumulate add entries tape) := by
  induction entries with
  | nil =>
    intro tape x hx
    exact Runs.nil hx
  | cons entry entries ih =>
    intro tape x hx
    obtain ⟨edge, g⟩ := entry
    cases g with
    | none => exact ih tape x hx
    | some g =>
      have hone := @accumulateIntoEdge_runs _ _ _ _ _ add s x tape edge g hx
      rw [accumulateTrace, accumulate]
      cases hrun : accumulateIntoEdge add edge g tape with
      | mk tape' out =>
        rw [hrun] at hone
        cases out with
        | ok u => exact hone.append fun y hy => ih tape' y hy
        | err e => exact hone
        | panic => exact hone

theorem process_runs (node : K) : tape.slots s = some x →
      Runs add s x (processTrace graph add tape node) (process graph add tape node) := by
  intro hx
  rw [processTrace, process]
  cases tape.grads node with
  | none => exact Runs.nil hx
  | some upstream =>
    simp only
    cases (graph node).apply upstream with
    | none => exact Runs.nil hx
    | some inputGrads =>
      simp only
      split
      · exact Runs.nil hx
      · exact accumulate_runs _ _ x hx

theorem processAll_runs (nodes : List K) :
    ∀ (tape : Tape K S G) (x : G), tape.slots s = some x →
      Runs add s x (processAllTrace graph add nodes tape) (processAll graph add nodes tape) := by
  induction nodes with
  | nil =>
    intro tape x hx
    exact Runs.nil hx
  | cons node nodes ih =>
    intro tape x hx
    have hone := @process_runs _ _ _ _ _ graph add s x tape node hx
    rw [processAllTrace, processAll]
    cases hrun : process graph add tape node with
    | mk tape' out =>
      rw [hrun] at hone
      cases out with
      | ok u => exact hone.append fun y hy => ih tape' y hy
      | err e =>
        rw [append_nil]
        exact hone
      | panic =>
        rw [append_nil]
        exact hone

theorem backward_runs (fuel : Nat) (output : Output K G) (initialGrad : Option G)
    {slots : S → Option G} : slots s = some x →
      Runs add s x (backwardTrace graph add fuel output initialGrad slots)
        (backward graph add fuel output initialGrad slots) := by
  intro hx
  rw [backwardTrace, backward]
  cases output.gradFn with
  | none => exact Runs.nil hx
  | some root =>
    cases initialGrad.orElse fun _ => output.ones with
    | none => exact Runs.nil hx
    | some grad => exact processAll_runs _ _ x hx

end Slot

/-! ## The gradients that were there -/

/-- A failed pass keeps the gradients of the leaves exactly if every delivery to a slot that held a
gradient before the pass fits what the slot then holds. -/
theorem backward_keeps_iff (graph : Graph K S G) (add : G → G → Except String G) (fuel : Nat)
    (output : Output K G) (initialGrad : Option G) (slots : S → Option G) :
    KeepsLeafGrads graph add fuel output initialGrad slots ↔
      ∀ s, slots s ≠ none → ∀ d ∈ backwardTrace graph add fuel output initialGrad slots,
        Accepts add s d := by
  constructor
  · intro hkeeps s hheld
    obtain ⟨old, hold⟩ := Option.ne_none_iff_exists'.1 hheld
    by_contra hbad
    push Not at hbad
    have hruns := @backward_runs _ _ _ _ _ graph add s old fuel output initialGrad slots hold
    obtain ⟨hnone, e, he⟩ := hruns.lost hbad
    obtain ⟨new, hnew, _⟩ := hkeeps e he s old hold
    rw [hnone] at hnew
    cases hnew
  · intro hall e _ s old hold
    have hheld : slots s ≠ none := by
      rw [hold]
      exact Option.some_ne_none old
    exact (backward_runs fuel output initialGrad hold).kept (hall s hheld)

/-! ## A leaf whose gradient has another shape -/

/-- A node with two edges to one leaf; gradients are known by their shapes. -/
def twiceGraph : Graph Unit Unit (List Nat) := fun _ =>
  { name := "MulBackward"
    apply := fun g => some [some g, some g]
    nextEdges := [Edge.leaf (), Edge.leaf ()] }

def addShapes (x y : List Nat) : Except String (List Nat) :=
  if x = y then .ok x else .error "add: sizes of tensors must match"

/-- The leaf holds a gradient of shape `[3]` and is given one of shape `[2]`. -/
theorem backward_loses_leafGrad :
    ¬ KeepsLeafGrads twiceGraph addShapes 1 { gradFn := some (), ones := none } (some [2])
      (fun _ => some [3]) := by
  intro hkeeps
  obtain ⟨new, hnew, _⟩ := hkeeps _ rfl () [3] rfl
  have hnone : (backward twiceGraph addShapes 1 { gradFn := some (), ones := none } (some [2])
      (fun _ => some [3])).1.slots () = none := rfl
  rw [hnone] at hnew
  cases hnew

end Autograd
end Rustorch
