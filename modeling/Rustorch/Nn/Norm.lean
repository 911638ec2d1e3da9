import Mathlib.Tactic.Positivity
import Rustorch.Lib.Lanes
import Rustorch.Nn.Modes

/-!
# Normalization layers

`LayerNorm` and `RMSNorm` have two forwards: a fused kernel that runs over the rows of the last axis,
and a composition of autograd operations.  Over an ordered field both give every row the same values
(`LayerNorm.fused_fresh`, `LayerNorm.composed_fresh`); the fused one takes its operands as slices.
-/

namespace Rustorch
namespace Nn

open Rustorch.Core Cpu Finset Outcome Autograd.Ops List Chunks
open Finset (range)
open Autograd (BackwardError Ops.scalar debugTensorError)
open Lanes (Register dup load fma)

/-! ## The kernels -/

/-- `target_arch`, as far as the kernels distinguish it. -/
inductive Arch
  | aarch64
  | wasm32
  | other
  deriving DecidableEq, Repr

section Rows

variable {F : Type} [Field F] [LinearOrder F]

/-- The first pass over a row. -/
def rowSum (arch : Arch) (update : Register F → Register F → Register F) (scalar : F → F → F)
    (d : Nat) (row : List F) : F :=
  match arch with
  | .aarch64 => Lanes.groupSum update scalar d row
  | _ => row.foldl scalar 0

/-- The second pass over a row. -/
def rowCells (arch : Arch) (lanes : Nat → Register F) (cell : Nat → Option F) (d : Nat) :
    Option (List F) :=
  match arch with
  | .aarch64 => Lanes.groupMap lanes cell d
  | _ => (List.range d).mapM cell

/-- `process_row` of the LayerNorm kernel. -/
def layerNormRow (arch : Arch) (sqrtF : F → F) (eps : F) (g b : List F) (d : Nat) (xRow : List F) :
    Option (List F) :=
  let invD : F := 1 / (d : F)
  -- The loop keeps the accumulators of both sums, which do not meet.
  let sum := rowSum arch (· + ·) (· + ·) d xRow
  let sumSq := rowSum arch (fun acc v => fma acc v v) (fun s v => s + v * v) d xRow
  let mean := sum * invD
  let var := max (sumSq * invD - mean * mean) 0
  let invStd := 1 / sqrtF (var + eps)
  rowCells arch
    (fun off => fma (load b off) (fma (dup (-mean * invStd)) (load xRow off) (dup invStd))
      (load g off))
    (fun i => do
      let x ← xRow[i]?
      let gi ← g[i]?
      let bi ← b[i]?
      some ((x - mean) * invStd * gi + bi)) d

/-- `process_row` of the RMSNorm kernel. -/
def rmsNormRow (arch : Arch) (sqrtF : F → F) (eps : F) (g : List F) (d : Nat) (xRow : List F) :
    Option (List F) :=
  let invD : F := 1 / (d : F)
  let sumSq := rowSum arch (fun acc v => fma acc v v) (fun s v => s + v * v) d xRow
  let meanSq := sumSq * invD
  let invRms := 1 / sqrtF (meanSq + eps)
  rowCells arch (fun off => load xRow off * dup invRms * load g off)
    (fun i => do
      let x ← xRow[i]?
      let gi ← g[i]?
      some (x * invRms * gi)) d

def parallelOuterMin : Nat := 64

def rowsPerTask : Nat := 16

/-- The rows, in chunks of rows or one after the other; `none` is a panic. -/
def processRows (arch : Arch) (outer d : Nat) (xs : List F) (row : List F → Option (List F)) :
    Option (List F) :=
  if arch ≠ .wasm32 ∧ parallelOuterMin ≤ outer then
    -- `par_chunks_mut` refuses chunks of size 0.
    if d = 0 then
      none
    else
      ((chunks (d * rowsPerTask) xs).mapM fun chunk =>
        ((chunks d chunk).mapM row).map flatten).map flatten
  else
    ((List.range outer).mapM fun o =>
      if (o + 1) * d ≤ xs.length then row (Rows.row d o xs) else none).map flatten

/-- What the two fused kernels share: the kernel of a row is made from the slices of the
parameters. -/
def fusedForward (arch : Arch) (op : String) (x : Tensor F)
    (kernel : Nat → Outcome BackwardError (List F → Option (List F))) :
    Outcome BackwardError (Tensor F) := do
  let d ← expect x.shape.getLast?
  let outer := numel x.shape.dropLast
  let n := outer * d % u64Size
  let xSlice ← unwrap (x.asSlice .f32)
  let row ← kernel d
  unwrap (withCapacity .f32 n)
  let out ← expect (processRows arch outer d xSlice row)
  mapErr (fun e => .backend op (debugTensorError e))
    (ofExcept (fromVecTyped .f32 x.shape out))

def layerNormForwardF32Fused (arch : Arch) (sqrtF : F → F) (x gamma beta : Tensor F) (eps : F) :
    Outcome BackwardError (Tensor F) :=
  fusedForward arch "LayerNorm::forward(fused)" x fun d => do
    let gSlice ← unwrap (gamma.asSlice .f32)
    let bSlice ← unwrap (beta.asSlice .f32)
    pure (layerNormRow arch sqrtF eps gSlice bSlice d)

def rmsNormForwardF32Fused (arch : Arch) (sqrtF : F → F) (x gamma : Tensor F) (eps : F) :
    Outcome BackwardError (Tensor F) :=
  fusedForward arch "RMSNorm::forward(fused)" x fun d => do
    let gSlice ← unwrap (gamma.asSlice .f32)
    pure (rmsNormRow arch sqrtF eps gSlice d)

end Rows

/-! ## The layers -/

/-- A parameter of the fused kernels: `F32`, contiguous, of the stated number of elements. -/
def FusableParam {F : Type} (size : Nat) (p : Tensor F) : Prop :=
  p.layout.dtype = .f32 ∧ p.layout.isContiguous = true ∧ p.numel = size

/-- An input of the fused kernels. -/
def FusableInput {F : Type} (size : Nat) (x : Tensor F) : Prop :=
  x.layout.dtype = .f32 ∧ x.layout.isContiguous = true ∧ x.shape.getLast? = some size

instance {F : Type} (size : Nat) (p : Tensor F) : Decidable (FusableParam size p) := by
  unfold FusableParam
  infer_instance

instance {F : Type} (size : Nat) (x : Tensor F) : Decidable (FusableInput size x) := by
  unfold FusableInput
  infer_instance

/-- `ndim() - 1`, which wraps at rank 0. -/
def lastDim {F : Type} (x : Tensor F) : Nat :=
  if x.shape.length = 0 then u64Size - 1 else x.shape.length - 1

structure RMSNorm (F : Type) where
  gamma : Tensor F
  eps : F
  normalizedSize : Nat

structure LayerNorm (F : Type) where
  gamma : Tensor F
  beta : Tensor F
  eps : F
  normalizedSize : Nat

section Forward

variable {F : Type} [Field F] [LinearOrder F]

/-- The composition of autograd operations. -/
def RMSNorm.composed (sqrtF : F → F) (l : RMSNorm F) (input : Tensor F) :
    Outcome BackwardError (Tensor F) := do
  let xSq ← mul input input
  let meanXSq ← meanDim xSq [lastDim input]
  let epsVar ← scalar l.eps
  let rmsSq ← add meanXSq epsVar
  let rms ← sqrt sqrtF rmsSq
  let normed ← div input rms
  mul normed l.gamma

/-- `RMSNorm::forward`. -/
def RMSNorm.forward (arch : Arch) (sqrtF : F → F) (gradEnabled : Bool) (l : RMSNorm F)
    (input : Tensor F) : Outcome BackwardError (Tensor F) :=
  if gradEnabled = false ∧ FusableInput l.normalizedSize input ∧
      FusableParam l.normalizedSize l.gamma then
    rmsNormForwardF32Fused arch sqrtF input l.gamma l.eps
  else
    l.composed sqrtF input

/-- The composition of autograd operations. -/
def LayerNorm.composed (sqrtF : F → F) (l : LayerNorm F) (input : Tensor F) :
    Outcome BackwardError (Tensor F) := do
  let mean ← meanDim input [lastDim input]
  let centered ← sub input mean
  let centeredSq ← mul centered centered
  let var ← meanDim centeredSq [lastDim input]
  let epsVar ← scalar l.eps
  let varEps ← add var epsVar
  let std ← sqrt sqrtF varEps
  let normed ← div centered std
  let scaled ← mul normed l.gamma
  add scaled l.beta

/-- `LayerNorm::forward`. -/
def LayerNorm.forward (arch : Arch) (sqrtF : F → F) (gradEnabled : Bool) (l : LayerNorm F)
    (input : Tensor F) : Outcome BackwardError (Tensor F) :=
  if gradEnabled = false ∧ FusableInput l.normalizedSize input ∧
      FusableParam l.normalizedSize l.gamma ∧ FusableParam l.normalizedSize l.beta then
    layerNormForwardF32Fused arch sqrtF input l.gamma l.beta l.eps
  else
    l.composed sqrtF input

end Forward

/-! ## What a row becomes -/

section Values

variable {F : Type} [Field F] {arch : Arch} {sqrtF : F → F} {eps : F} {d : Nat}
  {f g b : Nat → F}

/-- The mean of a row. -/
def rowMean (d : Nat) (f : Nat → F) : F :=
  (∑ c ∈ range d, f c) / (d : F)

/-- The LayerNorm of a row. -/
def layerNormValue (sqrtF : F → F) (eps : F) (d : Nat) (g b f : Nat → F) (c : Nat) : F :=
  (f c - rowMean d f) / sqrtF (rowMean d (fun c => (f c - rowMean d f) * (f c - rowMean d f)) + eps) *
    g c + b c

/-- The RMSNorm of a row. -/
def rmsNormValue (sqrtF : F → F) (eps : F) (d : Nat) (g f : Nat → F) (c : Nat) : F :=
  f c / sqrtF (rowMean d (fun c => f c * f c) + eps) * g c

theorem rowSum_eq {update : Register F → Register F → Register F} {scalar : F → F → F} {v : F → F}
    (hupdate : ∀ acc r : Register F, update acc r = fun lane => acc lane + v (r lane))
    (hscalar : ∀ s x, scalar s x = s + v x) :
    rowSum arch update scalar d ((List.range d).map f) = ∑ c ∈ range d, v (f c) := by
  have hfold : ((List.range d).map f).foldl scalar 0 = ∑ c ∈ range d, v (f c) := by
    rw [Lanes.foldl_scalar hscalar, zero_add, List.map_map]
    rfl
  cases arch with
  | aarch64 => exact Lanes.groupSum_eq hupdate hscalar
  | wasm32 => exact hfold
  | other => exact hfold

theorem rowSum_cells :
    rowSum arch (· + ·) (· + ·) d ((List.range d).map f) = ∑ c ∈ range d, f c :=
  rowSum_eq (v := fun x => x) (fun _ _ => rfl) (fun _ _ => rfl)

theorem rowSum_squares :
    rowSum arch (fun acc v => fma acc v v) (fun s v => s + v * v) d ((List.range d).map f) =
      ∑ c ∈ range d, f c * f c :=
  rowSum_eq (v := fun x => x * x) (fun _ _ => rfl) (fun _ _ => rfl)

omit [Field F] in
theorem rowCells_eq {lanes : Nat → Register F} {cell : Nat → Option F} {h : Nat → F}
    (hlanes : ∀ off, off + 4 ≤ d → lanes off = fun lane : Fin 4 => h (off + lane))
    (hcell : ∀ i < d, cell i = some (h i)) :
    rowCells arch lanes cell d = some ((List.range d).map h) := by
  have hloop : (List.range d).mapM cell = some ((List.range d).map h) := by
    refine Traversal.mapM_eq_map ?_
    intro i hi
    exact hcell i (List.mem_range.1 hi)
  cases arch with
  | aarch64 => exact Lanes.groupMap_eq hlanes hcell
  | wasm32 => exact hloop
  | other => exact hloop

variable [LinearOrder F]

theorem variance_eq [IsStrictOrderedRing F] (hd : 0 < d) :
    rowMean d (fun c => f c * f c) - rowMean d f * rowMean d f =
      rowMean d (fun c => (f c - rowMean d f) * (f c - rowMean d f)) := by
  have hne : (d : F) ≠ 0 := Nat.cast_ne_zero.2 hd.ne'
  have hsum : ∑ c ∈ range d, f c = (d : F) * rowMean d f := by
    rw [rowMean, mul_div_cancel₀ _ hne]
  have hexpand : ∑ c ∈ range d, (f c - rowMean d f) * (f c - rowMean d f) =
      (∑ c ∈ range d, f c * f c) - (d : F) * (rowMean d f * rowMean d f) := by
    calc
      ∑ c ∈ range d, (f c - rowMean d f) * (f c - rowMean d f)
          = ∑ c ∈ range d,
              (f c * f c - 2 * rowMean d f * f c + rowMean d f * rowMean d f) := by
            refine sum_congr rfl ?_
            intro c _
            ring
      _ = (∑ c ∈ range d, f c * f c) - 2 * rowMean d f * (∑ c ∈ range d, f c) +
            (d : F) * (rowMean d f * rowMean d f) := by
            rw [sum_add_distrib, sum_sub_distrib, ← mul_sum, sum_const, card_range, nsmul_eq_mul]
      _ = _ := by
            rw [hsum]
            ring
  have hmean : rowMean d (fun c => (f c - rowMean d f) * (f c - rowMean d f)) =
      ((∑ c ∈ range d, f c * f c) - (d : F) * (rowMean d f * rowMean d f)) / (d : F) :=
    congrArg (· / (d : F)) hexpand
  rw [hmean, sub_div, mul_div_cancel_left₀ _ hne]
  rfl

theorem variance_nonneg [IsStrictOrderedRing F] :
    0 ≤ rowMean d (fun c => (f c - rowMean d f) * (f c - rowMean d f)) := by
  refine div_nonneg ?_ (Nat.cast_nonneg d)
  exact sum_nonneg fun c _ => mul_self_nonneg _

theorem layerNormRow_eq [IsStrictOrderedRing F] (hd : 0 < d) :
    layerNormRow arch sqrtF eps ((List.range d).map g) ((List.range d).map b) d
        ((List.range d).map f) = some ((List.range d).map (layerNormValue sqrtF eps d g b f)) := by
  have hsum : rowSum arch (· + ·) (· + ·) d ((List.range d).map f) * (1 / (d : F)) = rowMean d f := by
    rw [rowSum_cells, mul_one_div]
    rfl
  have hsumSq : rowSum arch (fun acc v => fma acc v v) (fun s v => s + v * v) d
      ((List.range d).map f) * (1 / (d : F)) = rowMean d (fun c => f c * f c) := by
    rw [rowSum_squares, mul_one_div]
    rfl
  have hvar : max (rowMean d (fun c => f c * f c) - rowMean d f * rowMean d f) 0 =
      rowMean d (fun c => (f c - rowMean d f) * (f c - rowMean d f)) := by
    rw [variance_eq hd, max_eq_left variance_nonneg]
  simp only [layerNormRow, hsum, hsumSq, hvar]
  refine rowCells_eq ?_ ?_
  · intro off hoff
    funext lane
    simp only [Lanes.load_map_range hoff, fma, dup, layerNormValue]
    ring
  · intro i hi
    have hget : ∀ v : Nat → F, ((List.range d).map v)[i]? = some (v i) := by
      intro v
      simp [hi]
    simp only [hget, Option.bind_eq_bind, Option.bind_some, layerNormValue]
    ring_nf

omit [LinearOrder F] in
theorem rmsNormRow_eq :
    rmsNormRow arch sqrtF eps ((List.range d).map g) d ((List.range d).map f) =
      some ((List.range d).map (rmsNormValue sqrtF eps d g f)) := by
  have hsumSq : rowSum arch (fun acc v => fma acc v v) (fun s v => s + v * v) d
      ((List.range d).map f) * (1 / (d : F)) = rowMean d (fun c => f c * f c) := by
    rw [rowSum_squares, mul_one_div]
    rfl
  simp only [rmsNormRow, hsumSq]
  refine rowCells_eq ?_ ?_
  · intro off hoff
    funext lane
    simp only [Lanes.load_map_range hoff, Pi.mul_apply, dup, rmsNormValue]
    ring
  · intro i hi
    have hget : ∀ v : Nat → F, ((List.range d).map v)[i]? = some (v i) := by
      intro v
      simp [hi]
    simp only [hget, Option.bind_eq_bind, Option.bind_some, rmsNormValue]
    ring_nf

end Values

/-! ## The fused forwards -/

section Fused

variable {F : Type} {arch : Arch} {op : String} {x : Tensor F} {L : Shape} {D : Nat} {f : Nat → F}

theorem processRows_eq {outer : Nat} (hD : 0 < D) {row : List F → Option (List F)}
    {h : Nat → Nat → F}
    (hrow : ∀ o < outer, row ((List.range D).map fun c => f (o * D + c)) =
      some ((List.range D).map (h o))) :
    processRows arch outer D ((List.range (outer * D)).map f) row =
      some ((List.range (outer * D)).map fun l => h (l / D) (l % D)) := by
  have hcells : ((List.range outer).map fun o => (List.range D).map (h o)).flatten =
      (List.range (outer * D)).map fun l => h (l / D) (l % D) :=
    Accumulate.flatten_rows h outer D
  rw [processRows]
  split
  · -- The row kernel is total on the chunks, so its value on a row is `getD`.
    have hchunks := @chunks_map_range F D hD outer f
    have hall : ∀ r ∈ chunks D ((List.range (outer * D)).map f),
        row r = some ((row r).getD []) := by
      intro r hr
      rw [hchunks] at hr
      obtain ⟨o, ho, rfl⟩ := mem_map.1 hr
      rw [hrow o (List.mem_range.1 ho)]
      rfl
    rw [if_neg hD.ne', mapM_chunks_chunks hD (by decide : 0 < rowsPerTask) hall, hchunks,
      List.map_map, ← hcells]
    refine congrArg (fun rows : List (List F) => some rows.flatten) (map_congr_left ?_)
    intro o ho
    rw [Function.comp_apply, hrow o (List.mem_range.1 ho)]
    rfl
  · have hloop : (List.range outer).mapM (fun o =>
        if (o + 1) * D ≤ ((List.range (outer * D)).map f).length then
          row (Rows.row D o ((List.range (outer * D)).map f)) else none) =
        some ((List.range outer).map fun o => (List.range D).map (h o)) := by
      refine Traversal.mapM_eq_map ?_
      intro o ho
      have ho := List.mem_range.1 ho
      have hle : (o + 1) * D ≤ ((List.range (outer * D)).map f).length := by
        rw [length_map, length_range]
        exact Nat.mul_le_mul_right D ho
      rw [if_pos hle, Rows.row_map_range f ho, hrow o ho]
    rw [hloop, Option.map_some, hcells]

/-- On an input in front of its buffer the kernel returns the values of the rows. -/
theorem fusedForward_fresh (hx : Fresh x .f32 (L ++ [D]) f) (hD : 0 < D)
    {kernel : Nat → Outcome BackwardError (List F → Option (List F))}
    {row : List F → Option (List F)} (hkernel : kernel D = .ok row) {h : Nat → Nat → F}
    (hrow : ∀ o < L.prod, row ((List.range D).map fun c => f (o * D + c)) =
      some ((List.range D).map (h o))) :
    ∃ y, fusedForward arch op x kernel = .ok y ∧
      Fresh y .f32 (L ++ [D]) (fun l => h (l / D) (l % D)) := by
  have hprod := prod_concat L D
  have hfit := prod_lt_of_bytes hx.bytes
  have hbytes := hx.bytes
  obtain ⟨y, hy, hfresh⟩ := @fromVecTyped_fresh F .f32 (L ++ [D]) (fun l => h (l / D) (l % D)) hx.bytes
  refine ⟨y, ?_, hfresh⟩
  have houter : numel (L ++ [D]).dropLast = L.prod := by
    rw [dropLast_concat]
    refine numel_of_fits ?_
    rw [hprod] at hfit
    exact lt_of_le_of_lt (Nat.le_mul_of_pos_right _ hD) hfit
  rw [hprod] at hfit hy hbytes
  have hcap : (unwrap (withCapacity .f32 (L.prod * D % u64Size)) :
      Outcome BackwardError Unit) = .ok () := by
    rw [Nat.mod_eq_of_lt hfit, withCapacity_ok hbytes]
    rfl
  have hslice := hx.asSlice
  rw [hprod] at hslice
  rw [fusedForward, hx.shape]
  simp only [getLast?_concat, expect_some, ok_bind, houter, hslice,
    unwrap_ok, hkernel, hcap, processRows_eq hD hrow, hy, ofExcept_ok]
  rfl

variable [Field F] [LinearOrder F] {gamma beta : Tensor F} {sqrtF : F → F} {eps : F} {g b : Nat → F}

omit [LinearOrder F] in
theorem RMSNorm.fused_fresh (hx : Fresh x .f32 (L ++ [D]) f) (hg : Fresh gamma .f32 [D] g)
    (hD : 0 < D) :
    ∃ y, rmsNormForwardF32Fused arch sqrtF x gamma eps = .ok y ∧ Fresh y .f32 (L ++ [D])
      (fun l => rmsNormValue sqrtF eps D g (fun c => f (l / D * D + c)) (l % D)) := by
  have hgs := hg.asSlice
  rw [List.prod_singleton] at hgs
  refine @fusedForward_fresh F arch _ x L D f hx hD _
    (rmsNormRow arch sqrtF eps ((List.range D).map g) D) ?_
    (fun o => rmsNormValue sqrtF eps D g fun c => f (o * D + c)) ?_
  · rw [hgs]
    rfl
  · intro o _
    exact rmsNormRow_eq

/-- The fused kernel gives every row its LayerNorm. -/
theorem LayerNorm.fused_fresh [IsStrictOrderedRing F] (hx : Fresh x .f32 (L ++ [D]) f)
    (hg : Fresh gamma .f32 [D] g) (hb : Fresh beta .f32 [D] b) (hD : 0 < D) :
    ∃ y, layerNormForwardF32Fused arch sqrtF x gamma beta eps = .ok y ∧ Fresh y .f32 (L ++ [D])
      (fun l => layerNormValue sqrtF eps D g b (fun c => f (l / D * D + c)) (l % D)) := by
  have hgs := hg.asSlice
  have hbs := hb.asSlice
  rw [List.prod_singleton] at hgs hbs
  refine @fusedForward_fresh F arch _ x L D f hx hD _
    (layerNormRow arch sqrtF eps ((List.range D).map g) ((List.range D).map b) D) ?_
    (fun o => layerNormValue sqrtF eps D g b fun c => f (o * D + c)) ?_
  · rw [hgs, hbs]
    rfl
  · intro o _
    exact layerNormRow_eq hD

end Fused

/-! ## The compositions -/

section Composed

variable {F : Type} [Field F] {sqrtF : F → F} {x : Tensor F} {L : Shape} {D : Nat}
  {f g b : Nat → F}

omit [Field F] in
theorem lastDim_concat (h : x.shape = L ++ [D]) : lastDim x = L.length := by
  rw [lastDim, h, length_append, length_singleton, if_neg (Nat.succ_ne_zero _), Nat.add_sub_cancel]

theorem RMSNorm.composed_fresh {layer : RMSNorm F} (hx : Dense x .f32 (L ++ [D]) f)
    (hg : Dense layer.gamma .f32 [D] g) (hD : 0 < D) (hL : 0 ∉ L) :
    ∃ y, layer.composed sqrtF x = .ok y ∧ Fresh y .f32 (L ++ [D])
      (fun l => rmsNormValue sqrtF layer.eps D g (fun c => f (l / D * D + c)) (l % D)) := by
  obtain ⟨sq, hsq, hsqf⟩ := same_shape (mul_dense hx hx (stretches_self _))
  obtain ⟨mean, hmean, hmeanf⟩ := Autograd.Ops.meanDim_dense hsqf.toDense hD hL
  obtain ⟨e, he, hef⟩ := scalar_fresh layer.eps
  obtain ⟨rmsSq, hrmsSq, hrmsSqf⟩ := add_dense hmeanf.toDense hef.toDense (stretches_nil _)
  obtain ⟨rms, hrms, hrmsf⟩ := @sqrt_dense F _ _ _ sqrtF hrmsSqf.toDense
  obtain ⟨normed, hnormed, hnormedf⟩ := keepdim_axis
    (div_dense hx hrmsf.toDense (stretches_keepdim L D))
  obtain ⟨y, hy, hyf⟩ := last_axis
    (mul_dense hnormedf.toDense hg (stretches_last L D))
  refine ⟨y, ?_, ?_⟩
  · simp only [RMSNorm.composed, lastDim_concat hx.shape, hsq, hmean, he, hrmsSq, hrms, hnormed, hy,
      ok_bind]
  · refine ⟨hyf.toDense.of_eq ?_, hyf.offset⟩
    intro l _
    rw [rmsNormValue, Nat.div_add_mod']
    rfl

/-- The composition gives every row its LayerNorm. -/
theorem LayerNorm.composed_fresh {layer : LayerNorm F} (hx : Dense x .f32 (L ++ [D]) f)
    (hg : Dense layer.gamma .f32 [D] g) (hb : Dense layer.beta .f32 [D] b) (hD : 0 < D)
    (hL : 0 ∉ L) :
    ∃ y, layer.composed sqrtF x = .ok y ∧ Fresh y .f32 (L ++ [D])
      (fun l => layerNormValue sqrtF layer.eps D g b (fun c => f (l / D * D + c)) (l % D)) := by
  obtain ⟨mean, hmean, hmeanf⟩ := Autograd.Ops.meanDim_dense hx hD hL
  obtain ⟨centered, hcentered, hcenteredf⟩ := keepdim_axis
    (sub_dense hx hmeanf.toDense (stretches_keepdim L D))
  obtain ⟨sq, hsq, hsqf⟩ := same_shape
    (mul_dense hcenteredf.toDense hcenteredf.toDense (stretches_self _))
  obtain ⟨var, hvar, hvarf⟩ := Autograd.Ops.meanDim_dense hsqf.toDense hD hL
  obtain ⟨e, he, hef⟩ := scalar_fresh layer.eps
  obtain ⟨varEps, hvarEps, hvarEpsf⟩ :=
    add_dense hvarf.toDense hef.toDense (stretches_nil _)
  obtain ⟨std, hstd, hstdf⟩ := @sqrt_dense F _ _ _ sqrtF hvarEpsf.toDense
  obtain ⟨normed, hnormed, hnormedf⟩ := keepdim_axis
    (div_dense hcenteredf.toDense hstdf.toDense (stretches_keepdim L D))
  obtain ⟨scaled, hscaled, hscaledf⟩ := last_axis
    (mul_dense hnormedf.toDense hg (stretches_last L D))
  obtain ⟨y, hy, hyf⟩ := last_axis
    (add_dense hscaledf.toDense hb (stretches_last L D))
  refine ⟨y, ?_, ?_⟩
  · simp only [LayerNorm.composed, lastDim_concat hx.shape, hmean, hcentered, hsq, hvar, he, hvarEps,
      hstd, hnormed, hscaled, hy, ok_bind]
  · refine ⟨hyf.toDense.of_eq ?_, hyf.offset⟩
    intro l _
    -- The cells of a row have one mean.
    have hrow : ∑ c ∈ range D,
        (f (l / D * D + c) - (∑ c' ∈ range D, f ((l / D * D + c) / D * D + c')) / (D : F)) *
          (f (l / D * D + c) - (∑ c' ∈ range D, f ((l / D * D + c) / D * D + c')) / (D : F)) =
        ∑ c ∈ range D, (f (l / D * D + c) - rowMean D fun c => f (l / D * D + c)) *
          (f (l / D * D + c) - rowMean D fun c => f (l / D * D + c)) := by
      refine sum_congr rfl ?_
      intro c hc
      rw [Rows.cell_div (Finset.mem_range.1 hc)]
      rfl
    rw [hrow, layerNormValue, Nat.div_add_mod']
    rfl

end Composed

/-! ## The two modes -/

section Modes

variable {F : Type} {arch : Arch} {sqrtF : F → F} {x : Tensor F}

theorem fusable_of_dense {p : Tensor F} {size : Nat} {g : Nat → F} (h : Dense p .f32 [size] g) :
    FusableParam size p := by
  refine ⟨h.dtype, h.flag, ?_⟩
  rw [h.numel]
  simp

theorem fusedForward_ok {op : String} {y : Tensor F}
    {kernel : Nat → Outcome BackwardError (List F → Option (List F))} :
    fusedForward arch op x kernel = .ok y →
      x.layout.storageOffset = 0 ∧ ∃ d row, kernel d = .ok row := by
  intro h
  obtain ⟨d, _, h⟩ := bind_eq_ok.1 h
  obtain ⟨xs, hxs, h⟩ := bind_eq_ok.1 h
  obtain ⟨row, hrow, _⟩ := bind_eq_ok.1 h
  exact ⟨offset_of_slice hxs, d, row, hrow⟩

structure RMSNorm.Operands (l : RMSNorm F) (x : Tensor F) : Prop where
  input : Contiguous x .f32
  nonempty : 0 ∉ x.shape
  gamma : ChannelParam l.gamma l.normalizedSize

/-- The tensors start at offset 0, if the input has the channels of the layer. -/
def RMSNorm.Condition (l : RMSNorm F) (x : Tensor F) : Prop :=
  x.shape.getLast? = some l.normalizedSize →
    x.layout.storageOffset = 0 ∧ l.gamma.layout.storageOffset = 0

variable [Field F]

/-- The modes of RMSNorm agree exactly if the fused kernel gets its slices. -/
theorem RMSNorm.agrees_iff {l : RMSNorm F} (h : l.Operands x) :
    Agrees (l.forward arch sqrtF false x) (l.forward arch sqrtF true x) ↔ l.Condition x := by
  let _ : Inhabited F := ⟨0⟩
  have htrain : l.forward arch sqrtF true x = l.composed sqrtF x := by
    rw [RMSNorm.forward, if_neg (by simp)]
  rw [htrain, RMSNorm.Condition]
  by_cases hlast : x.shape.getLast? = some l.normalizedSize
  · obtain ⟨L, f, hf, hD, hL⟩ := dense_of_last h.input h.nonempty hlast
    obtain ⟨g, hg⟩ := h.gamma.dense
    have heval : l.forward arch sqrtF false x =
        rmsNormForwardF32Fused arch sqrtF x l.gamma l.eps := by
      rw [RMSNorm.forward, if_pos ⟨rfl, ⟨hf.dtype, hf.flag, hlast⟩, fusable_of_dense hg⟩]
    rw [heval, imp_iff_right hlast]
    refine Agrees.iff_of_fresh (RMSNorm.composed_fresh hf hg hD hL) ?_ ?_
    · rintro ⟨hoff, hgoff⟩
      exact RMSNorm.fused_fresh ⟨hf, hoff⟩ ⟨hg, hgoff⟩ hD
    · intro y hy
      obtain ⟨hoff, d, row, hrow⟩ := fusedForward_ok hy
      obtain ⟨gs, hgs, _⟩ := bind_eq_ok.1 hrow
      exact ⟨hoff, offset_of_slice hgs⟩
  · -- Without the channels of the layer there is one path for both modes.
    have heval : l.forward arch sqrtF false x = l.composed sqrtF x := by
      rw [RMSNorm.forward, if_neg]
      rintro ⟨_, hinput, _⟩
      exact hlast hinput.2.2
    rw [heval]
    exact ⟨fun _ hl => absurd hl hlast, fun _ => Agrees.refl _⟩

structure LayerNorm.Operands (l : LayerNorm F) (x : Tensor F) : Prop where
  input : Contiguous x .f32
  nonempty : 0 ∉ x.shape
  gamma : ChannelParam l.gamma l.normalizedSize
  beta : ChannelParam l.beta l.normalizedSize

/-- The tensors start at offset 0, if the input has the channels of the layer. -/
def LayerNorm.Condition (l : LayerNorm F) (x : Tensor F) : Prop :=
  x.shape.getLast? = some l.normalizedSize →
    x.layout.storageOffset = 0 ∧ l.gamma.layout.storageOffset = 0 ∧ l.beta.layout.storageOffset = 0

variable [LinearOrder F]

/-- The modes of LayerNorm agree exactly if the fused kernel gets its slices. -/
theorem LayerNorm.agrees_iff [IsStrictOrderedRing F] {l : LayerNorm F} (h : l.Operands x) :
    Agrees (l.forward arch sqrtF false x) (l.forward arch sqrtF true x) ↔ l.Condition x := by
  let _ : Inhabited F := ⟨0⟩
  have htrain : l.forward arch sqrtF true x = l.composed sqrtF x := by
    rw [LayerNorm.forward, if_neg (by simp)]
  rw [htrain, LayerNorm.Condition]
  by_cases hlast : x.shape.getLast? = some l.normalizedSize
  · obtain ⟨L, f, hf, hD, hL⟩ := dense_of_last h.input h.nonempty hlast
    obtain ⟨g, hg⟩ := h.gamma.dense
    obtain ⟨b, hb⟩ := h.beta.dense
    have heval : l.forward arch sqrtF false x =
        layerNormForwardF32Fused arch sqrtF x l.gamma l.beta l.eps := by
      rw [LayerNorm.forward, if_pos ⟨rfl, ⟨hf.dtype, hf.flag, hlast⟩, fusable_of_dense hg,
        fusable_of_dense hb⟩]
    rw [heval, imp_iff_right hlast]
    refine Agrees.iff_of_fresh (LayerNorm.composed_fresh hf hg hb hD hL) ?_ ?_
    · rintro ⟨hoff, hgoff, hboff⟩
      exact LayerNorm.fused_fresh ⟨hf, hoff⟩ ⟨hg, hgoff⟩ ⟨hb, hboff⟩ hD
    · intro y hy
      obtain ⟨hoff, d, row, hrow⟩ := fusedForward_ok hy
      obtain ⟨gs, hgs, hrow⟩ := bind_eq_ok.1 hrow
      obtain ⟨bs, hbs, _⟩ := bind_eq_ok.1 hrow
      exact ⟨hoff, offset_of_slice hgs, offset_of_slice hbs⟩
  · have heval : l.forward arch sqrtF false x = l.composed sqrtF x := by
      rw [LayerNorm.forward, if_neg]
      rintro ⟨_, hinput, _⟩
      exact hlast hinput.2.2
    rw [heval]
    exact ⟨fun _ hl => absurd hl hlast, fun _ => Agrees.refl _⟩

end Modes

end Nn
end Rustorch
