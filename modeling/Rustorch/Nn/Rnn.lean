import Rustorch.Nn.SingleHead

/-!
# The recurrent cell on the tape

`rnn.rs`: `RnnCell::forward_seq` with gradients enabled.  The outputs of the steps are stacked as
tensors and go into a new variable without a node, so that a backward pass from the result ends with
`NoGradFn` before it comes to any step (`not_backpropagates`).
-/

namespace Rustorch
namespace Nn
namespace Recorded

open Rustorch.Core Autograd Finset Outcome
open Autograd.Recorder (constant leaf fail op)

/-! ## The cell -/

section Model

variable {F : Type} [Field F]

structure RnnCell (F : Type) where
  wIh : Linear F
  wHh : Linear F
  hiddenSize : Nat

variable (backend : Backend (Tensor F))

def RnnCell.step (cell : RnnCell F) (x h : Var F) : Taped F (Var F) := do
  let xw ← cell.wIh.forward backend x
  let hw ← cell.wHh.forward backend h
  let pre ← op backend "Add" [] [xw, hw]
  op backend "Tanh" [] [pre]

/-- The loop over the time steps: the outputs, in order. -/
def RnnCell.steps (cell : RnnCell F) (input : Var F) (b hIn : Nat) :
    List Nat → Var F → Taped F (List (Var F))
  | [], _ => pure []
  | ti :: rest, h => do
    let xt ← op backend "IndexSelect" [ti] [input]
    let xt ← op backend "Reshape" [b, hIn] [xt]
    let hNew ← cell.step backend xt h
    let outs ← cell.steps input b hIn rest hNew
    pure (hNew :: outs)

/-- `RnnCell::forward_seq` -/
def RnnCell.forwardSeq (cell : RnnCell F) (input : Var F) : Taped F (Var F) :=
  let s := input.tensor.shape
  if s.length ≠ 3 then
    fail (.backend "rnn_forward" ("expected [T, B, H_in], got " ++ toString s))
  else do
    let b := s.getD 1 0
    let zeros ← StateT.lift (unwrap (ofExcept
      (fromVecTyped .f32 [b, cell.hiddenSize] (List.replicate (b * cell.hiddenSize) 0))))
    let h0 ← leaf zeros
    let outs ← cell.steps backend input b (s.getD 2 0) (List.range (s.getD 0 0)) h0
    let stacked ← StateT.lift (backend.value "Stack" [0] (outs.map Variable.tensor))
    constant stacked

end Model

/-! ## The recurrence -/

section Recurrence

/-- Cell `c` of `h_t`, for inputs `[T, b, hIn]` and weights `[hIn, width]`, `[width]` and
`[width, width]`. -/
def hidden {R : Type} [CommRing R] (act : R → R) (b hIn width : Nat) (x w bias u : Nat → R) :
    Nat → Nat → R
  | 0, _ => 0
  | t + 1, c =>
    act ((∑ i ∈ range hIn, x ((t * b + c / width) * hIn + i) * w (i * width + c % width)) +
      bias (c % width) +
      ∑ j ∈ range width, hidden act b hIn width x w bias u t (c / width * width + j) *
        u (j * width + c % width))

variable {F : Type} [Field F]

/-- Cell `l` of the rows `h_1, …, h_T`. -/
def hiddenRows {R : Type} [CommRing R] (act : R → R) (b hIn width : Nat) (x w bias u : Nat → R)
    (l : Nat) : R :=
  hidden act b hIn width x w bias u (l / (b * width) + 1) (l % (b * width))

/-- `tanh (a + a' ε) = tanh a + tanh' a * a' ε`. -/
def liftTanh (tanh tanh' : F → F) (x : DualNumber F) : DualNumber F :=
  DualNumbers.dual (tanh x.fst) (tanh' x.fst * x.snd)

def cellsOf (t : Tensor F) (i : Nat) : F :=
  (t.elements.getD []).getD i 0

/-- `RnnCell::new(hIn, width)` with these parameters, in the slots 1, 2 and 3. -/
def rnnCell (w bias u : Tensor F) (hIn width : Nat) : RnnCell F where
  wIh := { weight := leafAt w 1, bias := some (leafAt bias 2), inFeatures := hIn, outFeatures := width }
  wHh := { weight := leafAt u 3, bias := none, inFeatures := width, outFeatures := width }
  hiddenSize := width

/-- `forward_seq` returns the rows of the recurrence, and the gradients of `sum(g * output)` in the
three parameters pair with every direction to the derivative of the recurrence. -/
def Backpropagates (backend : Backend (Tensor F)) (tanh tanh' : F → F) (T b hIn width : Nat)
    (x w bias u : Tensor F) : Prop :=
  let prog := (rnnCell w bias u hIn width).forwardSeq backend (leafAt x 0)
  let size := T * b * width
  (∃ y, prog trainingHeap = .ok y ∧ y.1.tensor.shape = [T, b, width] ∧ y.1.tensor.elements =
    some ((List.range size).map
      (hiddenRows tanh b hIn width (cellsOf x) (cellsOf w) (cellsOf bias) (cellsOf u)))) ∧
  ∀ g, ∃ slots gw gb gu, gradients backend prog g trainingHeap = .ok slots ∧ slots 1 = some gw ∧
    slots 2 = some gb ∧ slots 3 = some gu ∧ ∀ w' bias' u' : Nat → F,
      ∑ l ∈ range size, cellsOf g l * (hiddenRows (liftTanh tanh tanh') b hIn width
        (fun i => DualNumbers.dual (cellsOf x i) 0) (fun i => DualNumbers.dual (cellsOf w i) (w' i))
        (fun i => DualNumbers.dual (cellsOf bias i) (bias' i))
        (fun i => DualNumbers.dual (cellsOf u i) (u' i)) l).snd =
      ∑ i ∈ range (hIn * width), cellsOf gw i * w' i + ∑ i ∈ range width, cellsOf gb i * bias' i +
        ∑ i ∈ range (width * width), cellsOf gu i * u' i

end Recurrence

/-! ## No gradient -/

section Ungraded

variable {F α β : Type} {P : α → Prop} {Q : β → Prop}

/-- Every result of the program satisfies `P`. -/
def Ends (P : α → Prop) (prog : Taped F α) : Prop :=
  ∀ heap a heap', prog heap = .ok (a, heap') → P a

theorem Ends.bind {prog : Taped F α} {rest : α → Taped F β} (h : Ends P prog)
    (hrest : ∀ a, P a → Ends Q (rest a)) : Ends Q (prog >>= rest) := by
  intro heap b heap'' hrun
  obtain ⟨⟨a, heap'⟩, hprog, hrun⟩ := bind_eq_ok.1 hrun
  exact hrest a (h heap a heap' hprog) heap' b heap'' hrun

theorem ends_true (prog : Taped F α) : Ends (fun _ => True) prog :=
  fun _ _ _ _ => trivial

/-- No node belongs to the variable, and no gradient goes to it. -/
def Ungraded (v : Var F) : Prop :=
  v.gradFn = none ∧ v.requiresGrad = false

theorem constant_ungraded (tensor : Tensor F) : Ends Ungraded (constant tensor) := by
  rintro heap out heap' ⟨⟩
  exact ⟨rfl, rfl⟩

variable {backend : Backend (Tensor F)}

theorem op_ungraded {name : String} {saved : List Nat} {args : List (Var F)}
    (hargs : ∀ v ∈ args, Ungraded v) : Ends Ungraded (op backend name saved args) := by
  intro heap out heap' hrun
  obtain ⟨value, _, hrun⟩ := bind_eq_ok.1 hrun
  have hany : args.any Variable.requiresGrad = false :=
    List.any_eq_false.2 fun v hv => by simp [(hargs v hv).2]
  simp only [Heap.newVariable, hany] at hrun
  cases hrun
  exact ⟨rfl, rfl⟩

theorem gradients_noGradFn {prog : Taped F (Var F)} {g : Tensor F} {heap : Heap (Tensor F)}
    (hprog : Ends Ungraded prog) {slots : Nat → Option (Tensor F)} :
    gradients backend prog g heap ≠ .ok slots := by
  intro hrun
  obtain ⟨⟨loss, heap'⟩, hloss, hrun⟩ := bind_eq_ok.1 hrun
  have hplain : Ungraded loss := by
    refine hprog.bind (fun out hout => ?_) _ _ _ hloss
    refine (constant_ungraded g).bind fun weight hweight => ?_
    refine (op_ungraded (by simp [hweight, hout])).bind fun product hproduct => ?_
    exact op_ungraded (by simp [hproduct])
  simp only [backwardFrom, backward, hplain.1] at hrun
  cases hrun

theorem forwardSeq_ungraded [Field F] {cell : RnnCell F} {input : Var F} :
    Ends Ungraded (cell.forwardSeq backend input) := by
  unfold RnnCell.forwardSeq
  simp only
  split
  · rintro heap out heap' ⟨⟩
  · refine (ends_true _).bind fun zeros _ => (ends_true _).bind fun h0 _ => ?_
    refine (ends_true _).bind fun outs _ => (ends_true _).bind fun stacked _ => ?_
    exact constant_ungraded stacked

theorem gradients_forwardSeq [Field F] (backend : Backend (Tensor F)) (cell : RnnCell F) (x g : Tensor F)
    (slots : Nat → Option (Tensor F)) :
    gradients backend (cell.forwardSeq backend (leafAt x 0)) g trainingHeap ≠ .ok slots :=
  gradients_noGradFn forwardSeq_ungraded

theorem not_backpropagates [Field F] (backend : Backend (Tensor F)) (tanh tanh' : F → F)
    (T b hIn width : Nat) (x w bias u : Tensor F) :
    ¬ Backpropagates backend tanh tanh' T b hIn width x w bias u := by
  rintro ⟨_, hgrad⟩
  obtain ⟨slots, _, _, _, hrun, _⟩ := hgrad x
  exact gradients_forwardSeq backend _ x x slots hrun

end Ungraded

theorem oneStep_not_backpropagates : ¬ ∃ backend : Backend (Tensor ℚ),
    Backpropagates backend (fun x => x) (fun _ => 1) 1 1 1 1 oneCell unitProjection.weight
      unitProjection.bias unitProjection.weight := by
  rintro ⟨backend, _, hgrad⟩
  obtain ⟨slots, _, _, _, hrun, _⟩ := hgrad oneCell
  exact gradients_forwardSeq backend _ _ _ slots hrun

end Recorded
end Nn
end Rustorch
