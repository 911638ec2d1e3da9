import Rustorch.Autograd.Backward
import Rustorch.Cpu.Unbroadcast

/-!
# Values of the autograd operations

The forward part of `ops.rs` on CPU tensors.  An operation calls the backend and turns its error
into a `BackwardError`; the node for the backward pass is recorded after the value is there, so the
value is the same with gradients enabled and disabled.
-/

namespace Rustorch
namespace Autograd

open Rustorch.Core Cpu Outcome

/-! ## Error texts -/

/-- The derived `Debug` text. -/
def debugTensorError : TensorError → String
  | .shapeDataMismatch expected got shape =>
    "ShapeDataMismatch \x7b expected: " ++ toString expected ++ ", got: " ++ toString got ++
      ", shape: " ++ toString shape ++ " \x7d"

def backendErr (op : String) (e : BackendError) : BackwardError :=
  .backend op e.display

namespace Ops

section Model

variable {F : Type}

/-- `Tensor::scalar`. -/
def scalar (v : F) : Outcome BackwardError (Tensor F) :=
  unwrap (ofExcept (fromVecTyped .f32 [] [v]))

def add [Add F] (lhs rhs : Tensor F) : Outcome BackwardError (Tensor F) :=
  mapErr (backendErr "add") (Cpu.add lhs rhs)

def sub [Sub F] (lhs rhs : Tensor F) : Outcome BackwardError (Tensor F) :=
  mapErr (backendErr "sub") (Cpu.sub lhs rhs)

def mul [Mul F] (lhs rhs : Tensor F) : Outcome BackwardError (Tensor F) :=
  mapErr (backendErr "mul") (Cpu.mul lhs rhs)

def div [Div F] (lhs rhs : Tensor F) : Outcome BackwardError (Tensor F) :=
  mapErr (backendErr "div") (Cpu.div lhs rhs)

def sqrt (sqrtF : F → F) (src : Tensor F) : Outcome BackwardError (Tensor F) :=
  mapErr (backendErr "sqrt") (Cpu.sqrt sqrtF src)

def matmul [AddCommMonoid F] [Mul F] (gemm : Gemm F) (lhs rhs : Tensor F) :
    Outcome BackwardError (Tensor F) :=
  mapErr (backendErr "matmul") (Cpu.matmul gemm lhs rhs)

def addBias [Add F] (x bias : Tensor F) : Outcome BackwardError (Tensor F) :=
  match x.shape, bias.shape with
  | [_, nOut], [nBias] =>
    if nBias ≠ nOut then
      .err (.backend "add_bias" ("bias shape " ++ toString bias.shape ++
        " does not match x.shape[1] = " ++ toString nOut))
    else
      mapErr (backendErr "add_bias") (Cpu.addBias x bias)
  | _, _ =>
    .err (.backend "add_bias" ("expected x: rank-2, bias: rank-1; got " ++ toString x.shape ++
      " and " ++ toString bias.shape))

def indexSelect (src : Tensor F) (indices : Tensor Int) : Outcome BackwardError (Tensor F) :=
  mapErr (backendErr "index_select") (Cpu.indexSelect src 0 indices)

/-- The data is copied out of the slice of `src`. -/
def reshape (src : Tensor F) (shape : Shape) : Outcome BackwardError (Tensor F) :=
  if numel shape ≠ src.numel then
    .err (.backend "reshape" ("shape " ++ toString shape ++ " has " ++ toString (numel shape) ++
      " elements, src has " ++ toString src.numel ++ " elements"))
  else do
    let data ← mapErr (fun _ => .backend "reshape" "expected contiguous F32")
      (src.asSlice .f32)
    mapErr (fun e => .backend "reshape" (tensorErrorDisplay e))
      (ofExcept (fromVecTyped .f32 shape data))

def meanDim [Field F] (src : Tensor F) (dims : List Nat) : Outcome BackwardError (Tensor F) :=
  mapErr (backendErr "mean_dim") (Cpu.meanDim src dims true)

end Model

/-! ## Dense operands -/

section Dense

variable {F : Type} {A S L : Shape} {D m k n : Nat} {a b : Tensor F} {f g : Nat → F}

theorem mapErr_ok {ε : Type} {err : ε → BackwardError} {r : Outcome ε (Tensor F)} {T : Dtype} :
    (∃ out, r = .ok out ∧ Fresh out T S f) →
      ∃ out, mapErr err r = .ok out ∧ Fresh out T S f := by
  rintro ⟨out, hout, hfresh⟩
  exact ⟨out, mapErr_eq_ok.2 hout, hfresh⟩

theorem scalar_fresh (v : F) : ∃ out, scalar v = .ok out ∧ Fresh out .f32 [] (fun _ => v) := by
  obtain ⟨out, hout, hfresh⟩ := @fromVecTyped_fresh F .f32 [] (fun _ => v) (by decide)
  refine ⟨out, ?_, hfresh⟩
  rw [scalar, show [v] = (List.range ([] : Shape).prod).map (fun _ => v) from rfl, hout]
  rfl

theorem add_dense [Add F] (ha : Dense a .f32 S f) (hb : Dense b .f32 A g) : Stretches A S →
    ∃ out, add a b = .ok out ∧ Fresh out .f32 S (fun i => f i + g (sourceIndex A S i)) := by
  intro hA
  exact mapErr_ok (dispatchBinary_dense ha hb hA)

theorem sub_dense [Sub F] (ha : Dense a .f32 S f) (hb : Dense b .f32 A g) : Stretches A S →
    ∃ out, sub a b = .ok out ∧ Fresh out .f32 S (fun i => f i - g (sourceIndex A S i)) := by
  intro hA
  exact mapErr_ok (dispatchBinary_dense ha hb hA)

theorem mul_dense [Mul F] (ha : Dense a .f32 S f) (hb : Dense b .f32 A g) : Stretches A S →
    ∃ out, mul a b = .ok out ∧ Fresh out .f32 S (fun i => f i * g (sourceIndex A S i)) := by
  intro hA
  exact mapErr_ok (dispatchBinary_dense ha hb hA)

theorem div_dense [Div F] (ha : Dense a .f32 S f) (hb : Dense b .f32 A g) : Stretches A S →
    ∃ out, div a b = .ok out ∧ Fresh out .f32 S (fun i => f i / g (sourceIndex A S i)) := by
  intro hA
  exact mapErr_ok (dispatchBinary_dense ha hb hA)

theorem sqrt_dense {sqrtF : F → F} (ha : Dense a .f32 S f) :
    ∃ out, sqrt sqrtF a = .ok out ∧ Fresh out .f32 S (fun i => sqrtF (f i)) :=
  mapErr_ok (mapUnary_holds ha.holds ha.bytes)

theorem meanDim_dense [Field F] (ha : Dense a .f32 (L ++ [D]) f) : 0 < D → 0 ∉ L →
    ∃ out, meanDim a [L.length] = .ok out ∧
      Fresh out .f32 (L ++ [1]) (fun o => (∑ c ∈ Finset.range D, f (o * D + c)) / (D : F)) := by
  intro hD hL
  exact mapErr_ok (Cpu.meanDim_dense ha hD hL)

variable {op : F → F → F} {r : Outcome BackwardError (Tensor F)}

theorem same_shape :
    (∃ out, r = .ok out ∧ Fresh out .f32 S (fun i => op (f i) (g (sourceIndex S S i)))) →
      ∃ out, r = .ok out ∧ Fresh out .f32 S (fun i => op (f i) (g i)) := by
  rintro ⟨out, hout, hfresh⟩
  refine ⟨out, hout, hfresh.toDense.of_eq ?_, hfresh.offset⟩
  intro i hi
  rw [sourceIndex_self hi]

/-- With one value for each row. -/
theorem keepdim_axis : (∃ out, r = .ok out ∧
      Fresh out .f32 (L ++ [D]) (fun i => op (f i) (g (sourceIndex (L ++ [1]) (L ++ [D]) i)))) →
      ∃ out, r = .ok out ∧ Fresh out .f32 (L ++ [D]) (fun i => op (f i) (g (i / D))) := by
  rintro ⟨out, hout, hfresh⟩
  refine ⟨out, hout, hfresh.toDense.of_eq ?_, hfresh.offset⟩
  intro i hi
  rw [sourceIndex_keepdim hi]

/-- With one value for each column. -/
theorem last_axis : (∃ out, r = .ok out ∧
      Fresh out .f32 (L ++ [D]) (fun i => op (f i) (g (sourceIndex [D] (L ++ [D]) i)))) →
      ∃ out, r = .ok out ∧ Fresh out .f32 (L ++ [D]) (fun i => op (f i) (g (i % D))) := by
  rintro ⟨out, hout, hfresh⟩
  refine ⟨out, hout, hfresh.toDense.of_eq ?_, hfresh.offset⟩
  intro i hi
  rw [sourceIndex_last hi]

/-- The shape changes, the values stay where they are. -/
theorem reshape_fresh (ha : Fresh a .f32 S f) : A.prod = S.prod →
    ∃ out, reshape a A = .ok out ∧ Fresh out .f32 A f := by
  intro hprod
  have hbytes : A.prod * Dtype.byteSize .f32 < 2 ^ 63 := by
    rw [hprod]
    exact ha.bytes
  obtain ⟨out, hout, hfresh⟩ := @fromVecTyped_fresh F .f32 A f hbytes
  refine ⟨out, ?_, hfresh⟩
  have hnumel : ¬ numel A ≠ a.numel := by
    rw [numel_of_bytes hbytes, ha.numel, hprod]
    exact not_not.2 rfl
  rw [reshape, if_neg hnumel, ha.asSlice, ← hprod]
  simp only [mapErr, ok_bind, hout, ofExcept_ok]

theorem reshape_offset : a.layout.storageOffset ≠ 0 → ∀ out, reshape a A ≠ .ok out := by
  intro hoff out h
  rw [reshape, Tensor.asSlice_offset .f32 hoff] at h
  split at h
  · cases h
  · cases h

end Dense

end Ops

end Autograd
end Rustorch
