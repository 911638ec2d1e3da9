import Rustorch.Cpu.Reduction

/-!
# Matrix product and bias

The `F32` arms of `matmul` and `add_bias`.  A product with a side below 32 runs the scalar loop
over strides; a larger one goes to the `gemm` routine, which is a parameter with the exact product
as its contract (`ExactGemm`).
-/

namespace Rustorch
namespace Cpu

open Rustorch.Core List Outcome Chunks Accumulate
open Option (map₂)

section Matmul

variable {F : Type}

/-- A routine that multiplies a row-major `[m, k]` by a row-major `[k, n]` buffer. -/
abbrev Gemm (F : Type) : Type := Nat → Nat → Nat → List F → List F → List F

def gemmDispatchMin : Nat := 32

/-- `matmul_naive::<f32>`: the operands are read through their strides. -/
def matmulNaive [AddCommMonoid F] [Mul F] (lhs rhs : Tensor F) (m k n : Nat) :
    Outcome BackendError (Tensor F) := do
  withCapacity .f32 (m * n)
  let out ← expect (grid m n fun i j =>
    sumLoop k (fun kk => map₂ (· * ·)
      lhs.storage[address lhs.layout.axes lhs.layout.storageOffset [i, kk]]?
      rhs.storage[address rhs.layout.axes rhs.layout.storageOffset [kk, j]]?) 0)
  fromVecOrOom .f32 [m, n] out (m * n)

/-- The slice of the operand, or its collected elements where there is none. -/
def sliceOrCollect (t lhs rhs : Tensor F) : Outcome BackendError (List F) :=
  match t.asSlice .f32 with
  | .ok xs => .ok xs
  | .panic => .panic
  | .err _ =>
    match t.iterElements .f32 with
    | none => .err (.dtypeMismatch "matmul" lhs.layout.dtype rhs.layout.dtype)
    | some it => expect (it.collect it.numel)

/-- `matmul_dispatch_f32_via_gemm_rs`. -/
def matmulDispatchF32ViaGemmRs (gemm : Gemm F) (lhs rhs : Tensor F) (m k n : Nat) :
    Outcome BackendError (Tensor F) := do
  let lhsSlice ← sliceOrCollect lhs lhs rhs
  let rhsSlice ← sliceOrCollect rhs lhs rhs
  withCapacity .f32 (m * n)
  fromVecOrOom .f32 [m, n] (gemm m k n lhsSlice rhsSlice) (m * n)

def matmulDispatchF32 [AddCommMonoid F] [Mul F] (gemm : Gemm F) (lhs rhs : Tensor F)
    (m k n : Nat) : Outcome BackendError (Tensor F) :=
  if m < gemmDispatchMin ∨ n < gemmDispatchMin ∨ k < gemmDispatchMin then
    matmulNaive lhs rhs m k n
  else
    matmulDispatchF32ViaGemmRs gemm lhs rhs m k n

/-- The `F32` arm of `matmul`. -/
def matmul [AddCommMonoid F] [Mul F] (gemm : Gemm F) (lhs rhs : Tensor F) :
    Outcome BackendError (Tensor F) :=
  if lhs.layout.dtype ≠ rhs.layout.dtype then
    .err (.dtypeMismatch "matmul" lhs.layout.dtype rhs.layout.dtype)
  else
    match lhs.shape, rhs.shape with
    | [m, k₁], [k₂, n] =>
      if k₁ ≠ k₂ then
        .err (.shapeMismatch "matmul" lhs.shape rhs.shape)
      else
        matmulDispatchF32 gemm lhs rhs m k₁ n
    | _, _ => .err (.shapeMismatch "matmul" lhs.shape rhs.shape)

def addBiasParallelThreshold : Nat := 16384

/-- `add_bias` of the backend. -/
def addBias [Add F] (x bias : Tensor F) : Outcome BackendError (Tensor F) :=
  match x.shape, bias.shape with
  | [batch, nOut], [nBias] =>
    if nBias ≠ nOut then
      .err (.shapeMismatch "add_bias" x.shape bias.shape)
    else do
      let biasBuf ← match bias.asSlice .f32 with
        | .ok xs => .ok xs
        | .panic => .panic
        | .err _ =>
          .err (.numericalError "add_bias: expected contiguous F32 bias")
      match x.asSlice .f32 with
      | .panic => .panic
      | .ok xBuf => do
        let n := batch * nOut
        withCapacity .f32 n
        let out ← expect (
          if n < addBiasParallelThreshold then
            grid batch nOut fun b j =>
              map₂ (· + ·) xBuf[b * nOut + j]? biasBuf[j]?
          else
            ((chunks nOut xBuf).mapM fun xRow =>
              (range nOut).mapM fun j =>
                map₂ (· + ·) xRow[j]? biasBuf[j]?).map flatten)
        fromVecOrOom .f32 [batch, nOut] out n
      | .err _ => do
        -- Fallback for non-contiguous `x`.
        let wide := (replicate batch biasBuf).flatten
        let biasWide ← mapErr
          (fun e => match e with
            | .shapeDataMismatch expected got shape =>
              .numericalError ("add_bias broadcast: shape " ++ toString shape ++
                " requires " ++ toString expected ++ " elements, got " ++ toString got))
          (ofExcept (fromVecTyped .f32 [batch, nOut] wide))
        add x biasWide
  | _, _ => .err (.shapeMismatch "add_bias" x.shape bias.shape)

end Matmul

/-! ## Dense operands -/

section Spec

variable {F : Type} [Field F] {m k n : Nat} {f g : Nat → F}

/-- The product of a `[m, k]` by a `[k, n]` matrix, by linear index. -/
def product (k n : Nat) (f g : Nat → F) (l : Nat) : F :=
  ∑ kk ∈ Finset.range k, f (l / n * k + kk) * g (kk * n + l % n)

/-- The contract of the `gemm` routine. -/
def ExactGemm (gemm : Gemm F) : Prop :=
  ∀ (m k n : Nat) (f g : Nat → F),
    gemm m k n ((range (m * k)).map f) ((range (k * n)).map g) =
      (range (m * n)).map (product k n f g)

theorem linearOf_pair (m k i kk : Nat) : linearOf [m, k] [i, kk] = i * k + kk := by
  simp [linearOf, MixedRadix.value, Nat.mul_comm, Nat.add_comm]

theorem inBounds_pair {i kk : Nat} : i < m → kk < k → InBounds [m, k] [i, kk] := by
  intro hi hkk
  exact Forall₂.cons hi (Forall₂.cons hkk Forall₂.nil)

omit [Field F] in
theorem sliceOrCollect_dense {S : Shape} {a : Tensor F} (lhs rhs : Tensor F)
    (ha : Dense a .f32 S f) : sliceOrCollect a lhs rhs = .ok ((range S.prod).map f) := by
  by_cases hoff : a.layout.storageOffset = 0
  · rw [sliceOrCollect, (Fresh.mk ha hoff).asSlice]
  · have hcollect := collect_dense ha
    rw [collect] at hcollect
    rw [sliceOrCollect, Tensor.asSlice_offset .f32 hoff]
    cases hit : a.iterElements .f32 with
    | none =>
      rw [hit] at hcollect
      cases hcollect
    | some it =>
      rw [hit] at hcollect
      exact hcollect

theorem matmulDispatchF32_dense {gemm : Gemm F} {a b : Tensor F} (hgemm : ExactGemm gemm)
    (ha : Dense a .f32 [m, k] f) (hb : Dense b .f32 [k, n] g) :
    [m, n].prod * Dtype.byteSize .f32 < 2 ^ 63 →
      ∃ out, matmulDispatchF32 gemm a b m k n = .ok out ∧
        Fresh out .f32 [m, n] (product k n f g) := by
  intro hbytes
  have hmn : [m, n].prod = m * n := by simp
  have hmk : [m, k].prod = m * k := by simp
  have hkn : [k, n].prod = k * n := by simp
  obtain ⟨out, hout, hfresh⟩ := @fromVecOrOom_fresh F .f32 [m, n] (product k n f g) (m * n) hbytes
  rw [hmn] at hout hbytes
  refine ⟨out, ?_, hfresh⟩
  unfold matmulDispatchF32
  split
  · have hgrid := @grid_eq F m n
      (fun i j => sumLoop k (fun kk => map₂ (· * ·)
        a.storage[address a.layout.axes a.layout.storageOffset [i, kk]]?
        b.storage[address b.layout.axes b.layout.storageOffset [kk, j]]?) 0)
      (fun i j => ∑ kk ∈ Finset.range k, f (i * k + kk) * g (kk * n + j)) (by
        intro i hi j hj
        rw [← zero_add (∑ kk ∈ Finset.range k, f (i * k + kk) * g (kk * n + j))]
        refine sumLoop_eq 0 ?_
        intro kk hkk
        rw [ha.address (inBounds_pair hi hkk), hb.address (inBounds_pair hkk hj), linearOf_pair,
          linearOf_pair]
        rfl)
    simp only [matmulNaive, withCapacity_ok hbytes, hgrid, ok_bind, expect_some]
    exact hout
  · simp only [matmulDispatchF32ViaGemmRs, sliceOrCollect_dense a b ha, sliceOrCollect_dense a b hb,
      withCapacity_ok hbytes, ok_bind, hmk, hkn, hgemm m k n f g]
    exact hout

theorem matmulDispatchF32_panic {gemm : Gemm F} {a b : Tensor F}
    (ha : Dense a .f32 [m, k] f) (hb : Dense b .f32 [k, n] g) :
    ¬ m * n * Dtype.byteSize .f32 < 2 ^ 63 → matmulDispatchF32 gemm a b m k n = .panic := by
  intro hbytes
  have hcap : withCapacity .f32 (m * n) = .panic := if_neg hbytes
  unfold matmulDispatchF32
  split
  · simp only [matmulNaive, hcap, panic_bind]
  · simp only [matmulDispatchF32ViaGemmRs, sliceOrCollect_dense a b ha, sliceOrCollect_dense a b hb,
      hcap, ok_bind, panic_bind]

theorem addBias_fresh {x bias : Tensor F} {batch nOut : Nat}
    (hx : Fresh x .f32 [batch, nOut] f) (hbias : Fresh bias .f32 [nOut] g) :
    0 < nOut →
      ∃ out, addBias x bias = .ok out ∧
        Fresh out .f32 [batch, nOut] (fun l => f l + g (l % nOut)) := by
  intro hpos
  have hprod : [batch, nOut].prod = batch * nOut := by simp
  have hprod₁ : [nOut].prod = nOut := by simp
  have hbytes := hx.bytes
  obtain ⟨out, hout, hfresh⟩ := @fromVecOrOom_fresh F .f32 [batch, nOut]
    (fun l => f l + g (l % nOut)) (batch * nOut) hbytes
  rw [hprod] at hout hbytes
  refine ⟨out, ?_, hfresh⟩
  have hxs := hx.asSlice
  have hbs := hbias.asSlice
  rw [hprod] at hxs
  rw [hprod₁] at hbs
  have hcells : ((range batch).map fun b => (range nOut).map fun j =>
      f (b * nOut + j) + g j).flatten =
        (range (batch * nOut)).map (fun l => f l + g (l % nOut)) := by
    rw [flatten_rows]
    simp only [Nat.div_add_mod']
  -- the small loop, by row and column
  have hgrid : grid batch nOut (fun b j => map₂ (· + ·)
      ((range (batch * nOut)).map f)[b * nOut + j]? ((range nOut).map g)[j]?) =
        some ((range (batch * nOut)).map (fun l => f l + g (l % nOut))) := by
    rw [@grid_eq F batch nOut _ (fun b j => f (b * nOut + j) + g j)]
    · simp only [Nat.div_add_mod']
    · intro b hb j hj
      have hlt : b * nOut + j < batch * nOut := Rows.cell_lt hb hj
      simp [hlt, hj]
  -- the parallel loop, one chunk for each row
  have hchunks : ((chunks nOut ((range (batch * nOut)).map f)).mapM fun xRow =>
      (range nOut).mapM fun j => map₂ (· + ·) xRow[j]?
        ((range nOut).map g)[j]?).map flatten =
          some ((range (batch * nOut)).map (fun l => f l + g (l % nOut))) := by
    have hrows : ((range batch).map fun b => (range nOut).map fun j =>
        f (b * nOut + j)).mapM (fun xRow => (range nOut).mapM fun j =>
          map₂ (· + ·) xRow[j]? ((range nOut).map g)[j]?) =
        some ((range batch).map fun b => (range nOut).map fun j =>
          f (b * nOut + j) + g j) := by
      rw [mapM_map]
      refine Traversal.mapM_eq_map ?_
      intro b _
      refine Traversal.mapM_eq_map ?_
      intro j hj
      have hj := mem_range.1 hj
      simp [hj]
    rw [chunks_map_range hpos, hrows, Option.map_some, hcells]
  rw [addBias, hx.shape, hbias.shape]
  simp only [hxs, hbs, withCapacity_ok hbytes, hgrid, hchunks, ite_self, ok_bind,
    expect_some, ne_eq, not_true_eq_false, if_false]
  exact hout

omit [Field F] in
theorem addBias_offset [Add F] {x bias out : Tensor F} :
    addBias x bias = .ok out → bias.layout.storageOffset = 0 := by
  intro h
  by_contra hoff
  rw [addBias, Tensor.asSlice_offset .f32 hoff] at h
  split at h
  · split at h
    · cases h
    · cases h
  · cases h

end Spec

end Cpu
end Rustorch
