import Rustorch.Cpu.Backend

/-!
# Reduced axes

Row-major strides and what the reductions share: the check of the axes, the elements of a tensor in
order, and the shape and the multi-index without the reduced axes.
-/

namespace Rustorch
namespace Cpu

open Rustorch.Core List MixedRadix

/-- The loop of `contiguous_strides`, from the last axis on. -/
def usizeStridesFrom : List Nat → Nat → List Nat
  | [], _ => []
  | d :: ds, acc => acc :: usizeStridesFrom ds (acc * d)

def contiguousStrides (shape : Shape) : List Nat :=
  (usizeStridesFrom shape.reverse 1).reverse

def decodeCoords (linear : Nat) (shape : Shape) : List Nat :=
  coordsOf shape linear

theorem usizeStridesFrom_eq (ds : List Nat) :
    ∀ acc : Nat, usizeStridesFrom ds acc = (weights ds).map (acc * ·) := by
  induction ds with
  | nil =>
    intro acc
    rfl
  | cons d ds ih =>
    intro acc
    rw [usizeStridesFrom, weights, ih, map_cons, Nat.mul_one, map_map]
    refine congrArg _ (map_congr_left ?_)
    intro w _
    simp only [Function.comp_apply, Nat.mul_assoc]

/-- Row-major strides give a multi-index its position. -/
theorem dot_usizeStrides (S : Shape) {coords : List Nat} :
    coords.length = S.length →
      dot coords (contiguousStrides S) = linearOf S coords := by
  intro hlen
  have hweights : (contiguousStrides S).reverse = weights S.reverse := by
    rw [contiguousStrides, reverse_reverse, usizeStridesFrom_eq]
    simp
  have hsame : coords.length = (contiguousStrides S).length := by
    rw [← @List.length_reverse _ (contiguousStrides S), hweights, length_weights,
      length_reverse, hlen]
  rw [linearOf, value_eq_dot, ← hweights, dot, dot, ← reverse_zipWith hsame, sum_reverse]

section Reduce

variable {F : Type}

def validateDims (src : Tensor F) (dims : List Nat) (op : String) : Outcome BackendError Unit :=
  match dims.find? (fun d => decide (src.shape.length ≤ d)) with
  | some d => .err (.indexOutOfBounds op d src.shape.length)
  | none => .ok ()

/-- `iter_elements::<T>().expect("dtype").collect()`. -/
def collect (T : Dtype) (src : Tensor F) : Outcome BackendError (List F) :=
  Outcome.expect ((src.iterElements T).bind (fun it => it.collect it.numel))

/-- The shape with the reduced axes kept at size 1, or removed. -/
def reducedShape (shape : Shape) (dims : List Nat) (keepdim : Bool) : Shape :=
  if keepdim then
    shape.zipIdx.map (fun di => if di.2 ∈ dims then 1 else di.1)
  else
    shape.zipIdx.filterMap (fun di => if di.2 ∈ dims then none else some di.1)

/-- The multi-index of the output cell. -/
def reducedCoords (coords : List Nat) (dims : List Nat) (keepdim : Bool) : List Nat :=
  coords.zipIdx.filterMap fun ci =>
    if ci.2 ∈ dims then
      if keepdim then some 0 else none
    else
      some ci.1

theorem collect_dense {a : Tensor F} {f : Nat → F} {T : Dtype} {S : Shape} (ha : Dense a T S f) :
    collect T a = .ok ((List.range S.prod).map f) := by
  have helems := ha.elements
  rw [Tensor.elements, ha.dtype] at helems
  rw [collect, helems]
  rfl

end Reduce

end Cpu
end Rustorch
