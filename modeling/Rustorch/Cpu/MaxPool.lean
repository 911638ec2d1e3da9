import Mathlib.Data.Int.ConditionallyCompleteOrder
import Rustorch.Cpu.Conv
import Rustorch.Lib.Extended
import Rustorch.Lib.RunningMax

/-!
# Max-pooling

`maxpool2d_forward` scans the window of each output for its largest value and records where it lies;
`maxpool2d_backward` adds each output gradient at the recorded place.  The scan starts at `-∞` and
at index 0, so a window in which nothing compares greater than `-∞` records index 0, wherever the
window is.
-/

namespace Rustorch
namespace Cpu

open Rustorch.Core List Outcome Extended
open LoopNest (indices)

/-! ## The kernels -/

section Model

variable {V F : Type}

/-- `(size - k) / stride + 1`; a stride of 0 divides by zero. -/
def poolOut (size k stride : Nat) : Outcome BackendError Nat :=
  if stride = 0 then
    .panic
  else
    .ok (((size - k) / stride + 1) % u64Size)

/-- The scan of one window, from `best` and `best_idx` at `-∞` and 0. -/
def poolWindow [LT V] [DecidableLT V] (inData : List (Extended V)) (c h w kh kw sh sw ni ci ho wo : Nat) :
    Option (Extended V × Int) :=
  LoopNest.run [kh, kw] (fun K best =>
    match K with
    | [kr, kc] => do
      let inIdx := index4 ni ci (ho * sh + kr) (wo * sw + kc) c h w
      let v ← inData[inIdx]?
      some (RunningMax.step lt best (v, asI64 inIdx))
    | _ => some best) (.negInf, 0)

def maxpool2dForward [LT V] [DecidableLT V] (input : Tensor (Extended V))
    (kernelSize stride : Nat × Nat) :
    Outcome BackendError (Tensor (Extended V) × Tensor Int) :=
  if input.layout.dtype ≠ .f32 then
    .err (.dtypeMismatch "maxpool2d" input.layout.dtype .f32)
  else if input.shape.length ≠ 4 then
    .err (.shapeMismatch "maxpool2d" input.shape (replicate 4 0))
  else do
    let n ← axisSize input.shape 0
    let c ← axisSize input.shape 1
    let h ← axisSize input.shape 2
    let w ← axisSize input.shape 3
    if h < kernelSize.1 ∨ w < kernelSize.2 then
      .err (.shapeMismatch "maxpool2d" input.shape [n, c, kernelSize.1, kernelSize.2])
    else do
      let hOut ← poolOut h kernelSize.1 stride.1
      let wOut ← poolOut w kernelSize.2 stride.2
      let inData ← sliceExpect input
      let nOut := numel [n, c, hOut, wOut]
      let out ← filled .f32 (negInf : Extended V) nOut
      let idx ← filled .i64 (0 : Int) nOut
      let buffers ← expect (LoopNest.run [n, c, hOut, wOut] (fun O buffers =>
        match O with
        | [ni, ci, ho, wo] => do
          let best ← poolWindow inData c h w kernelSize.1 kernelSize.2 stride.1 stride.2 ni ci ho wo
          let outIdx := index4 ni ci ho wo c hOut wOut
          let out ← LoopNest.put buffers.1 outIdx best.1
          let idx ← LoopNest.put buffers.2 outIdx best.2
          some (out, idx)
        | _ => some buffers) (out, idx))
      let outT ← fromVecOrOom .f32 [n, c, hOut, wOut] buffers.1 nOut
      let idxT ← fromVecOrOom .i64 [n, c, hOut, wOut] buffers.2 nOut
      .ok (outT, idxT)

/-- `if i < n_total { din[i] += g[linear] }`. -/
def scatterGrad [Add F] (g : List F) (nTotal : Nat) (din : List F) (entry : Int × Nat) :
    Option (List F) :=
  let i := asU64 entry.1
  if i < nTotal then do
    let a ← din[i]?
    let v ← g[entry.2]?
    some (din.set i (a + v))
  else
    some din

def maxpool2dBackward [Zero F] [Add F] (gradOutput : Tensor F) (argmaxIdx : Tensor Int)
    (inShape : Shape) : Outcome BackendError (Tensor F) := do
  let g ← sliceExpect gradOutput
  let idx ← unwrap (argmaxIdx.asSlice .i64)
  let nTotal := numel inShape
  let din ← filled .f32 (0 : F) nTotal
  let din ← expect (idx.zipIdx.foldlM (scatterGrad g nTotal) din)
  fromVecOrOom .f32 inShape din nTotal

end Model

/-! ## Windows -/

/-- The number of windows along an axis. -/
def outSize (size k stride : Nat) : Nat :=
  (size - k) / stride + 1

def outShape (n c h w : Nat) (kernel stride : Nat × Nat) : Shape :=
  [n, c, outSize h kernel.1 stride.1, outSize w kernel.2 stride.2]

/-- The cells of the window of an output, in the order of the scan. -/
def windowCells (kernel stride : Nat × Nat) : List Nat → List (List Nat)
  | [ni, ci, ho, wo] =>
    (indices [kernel.1, kernel.2]).map fun K =>
      [ni, ci, ho * stride.1 + K.getD 0 0, wo * stride.2 + K.getD 1 0]
  | _ => []

theorem mem_windowCells {kernel stride : Nat × Nat} {ni ci ho wo : Nat} {I : List Nat} :
    I ∈ windowCells kernel stride [ni, ci, ho, wo] ↔
      ∃ kr < kernel.1, ∃ kc < kernel.2,
        I = [ni, ci, ho * stride.1 + kr, wo * stride.2 + kc] := by
  rw [windowCells, mem_map]
  constructor
  · rintro ⟨K, hK, rfl⟩
    rcases mem_indices.1 hK with _ | ⟨hkr, _ | ⟨hkc, _ | _⟩⟩
    exact ⟨_, hkr, _, hkc, rfl⟩
  · rintro ⟨kr, hkr, kc, hkc, rfl⟩
    exact ⟨[kr, kc], mem_indices.2 (.cons hkr (.cons hkc .nil)), rfl⟩

/-- A nonempty batch of nonempty planes, and a kernel that fits into them. -/
structure PoolGeometry (n c h w : Nat) (kernel stride : Nat × Nat) : Prop where
  sizes : 0 < n ∧ 0 < c ∧ 0 < h ∧ 0 < w
  kernelPos : 0 < kernel.1 ∧ 0 < kernel.2
  stridePos : 0 < stride.1 ∧ 0 < stride.2
  fits : kernel.1 ≤ h ∧ kernel.2 ≤ w

section Geometry

variable {n c h w : Nat} {kernel stride : Nat × Nat}

theorem outSize_cell {size k stride o i : Nat} (hfits : k ≤ size) :
    o < outSize size k stride → i < k → o * stride + i < size := by
  intro ho hi
  have hle : o * stride ≤ (size - k) / stride * stride :=
    Nat.mul_le_mul_right _ (Nat.lt_succ_iff.1 ho)
  have hdiv := Nat.div_mul_le_self (size - k) stride
  omega

theorem outSize_le {size k stride : Nat} (hk : 0 < k) (hfits : k ≤ size) :
    outSize size k stride ≤ size := by
  have hle := Nat.div_le_self (size - k) stride
  unfold outSize
  omega

theorem poolOut_eq {size k stride : Nat} (hk : 0 < k) (hfits : k ≤ size) (hstride : 0 < stride)
    (hsize : size < u64Size) : poolOut size k stride = .ok (outSize size k stride) := by
  rw [poolOut, if_neg hstride.ne']
  refine congrArg ok (Nat.mod_eq_of_lt ?_)
  exact lt_of_le_of_lt (@outSize_le size k stride hk hfits) hsize

namespace PoolGeometry

variable (hgeo : PoolGeometry n c h w kernel stride)

include hgeo

theorem inBounds {O I : List Nat} :
    InBounds (outShape n c h w kernel stride) O → I ∈ windowCells kernel stride O →
      InBounds [n, c, h, w] I := by
  rintro (_ | ⟨hni, _ | ⟨hci, _ | ⟨hho, _ | ⟨hwo, _ | _⟩⟩⟩⟩) hI
  obtain ⟨kr, hkr, kc, hkc, rfl⟩ := mem_windowCells.1 hI
  exact inBounds_four hni hci (outSize_cell hgeo.fits.1 hho hkr) (outSize_cell hgeo.fits.2 hwo hkc)

theorem outShape_prod_le :
    (outShape n c h w kernel stride).prod ≤ [n, c, h, w].prod := by
  have hh := @outSize_le h kernel.1 stride.1 hgeo.kernelPos.1 hgeo.fits.1
  have hw := @outSize_le w kernel.2 stride.2 hgeo.kernelPos.2 hgeo.fits.2
  simp only [outShape, prod_cons, prod_nil, mul_one]
  gcongr

theorem zero_mem {O I : List Nat} :
    InBounds (outShape n c h w kernel stride) O → I ∈ windowCells kernel stride O →
      linearOf [n, c, h, w] I = 0 → O = [0, 0, 0, 0] := by
  rintro (_ | ⟨_, _ | ⟨_, _ | ⟨_, _ | ⟨_, _ | _⟩⟩⟩⟩) hI hzero
  obtain ⟨kr, _, kc, _, rfl⟩ := mem_windowCells.1 hI
  obtain ⟨_, hc, hh, hw⟩ := hgeo.sizes
  rw [linearOf_four] at hzero
  simp only [Nat.add_eq_zero_iff, Nat.mul_eq_zero, hc.ne', hh.ne', hw.ne',
    hgeo.stridePos.1.ne', hgeo.stridePos.2.ne', or_false] at hzero
  obtain ⟨⟨⟨rfl, rfl⟩, rfl, _⟩, rfl, _⟩ := hzero
  rfl

end PoolGeometry

end Geometry

/-! ## The forward kernel -/

section Forward

variable {V : Type} {f : Nat → Extended V} {n c h w : Nat} {kernel stride : Nat × Nat}

/-- The largest value of a window and the linear index at which the scan found it. -/
def windowBest [LT V] [DecidableLT V] (f : Nat → Extended V) (S : Shape) (kernel stride : Nat × Nat)
    (O : List Nat) : Extended V × Int :=
  RunningMax.scan lt (.negInf, 0)
    ((windowCells kernel stride O).map fun I => (f (linearOf S I), (linearOf S I : Int)))

theorem poolWindow_eq [LT V] [DecidableLT V] (hgeo : PoolGeometry n c h w kernel stride)
    (hbytes : [n, c, h, w].prod * Dtype.byteSize .f32 < 2 ^ 63) {ni ci ho wo : Nat}
    (hO : InBounds (outShape n c h w kernel stride) [ni, ci, ho, wo]) :
    poolWindow ((range [n, c, h, w].prod).map f) c h w kernel.1 kernel.2 stride.1 stride.2
        ni ci ho wo = some (windowBest f [n, c, h, w] kernel stride [ni, ci, ho, wo]) := by
  have hfit := prod_lt_of_bytes hbytes
  have hsmall : [n, c, h, w].prod < 2 ^ 63 := by
    have hfour : Dtype.byteSize .f32 = 4 := rfl
    rw [hfour] at hbytes
    omega
  rw [poolWindow, LoopNest.run_fold (f := fun best K => RunningMax.step lt best
    (f (linearOf [n, c, h, w] [ni, ci, ho * stride.1 + K.getD 0 0, wo * stride.2 + K.getD 1 0]),
      (linearOf [n, c, h, w]
        [ni, ci, ho * stride.1 + K.getD 0 0, wo * stride.2 + K.getD 1 0] : Int)))]
  · rw [windowBest, windowCells, RunningMax.scan, map_map, foldl_map]
    rfl
  · rintro K (_ | ⟨hkr, _ | ⟨hkc, _ | _⟩⟩) best
    have hI := hgeo.inBounds hO (mem_windowCells.2 ⟨_, hkr, _, hkc, rfl⟩)
    have hlt := linearOf_lt hI
    simp only [index4_eq hI hfit, getElem?_map, getElem?_range hlt,
      asI64_eq_self (lt_trans hlt hsmall)]
    rfl

/-- The window at `O`, written into both buffers. -/
def poolBody [LT V] [DecidableLT V] (f : Nat → Extended V) (n c h w : Nat)
    (kernel stride : Nat × Nat) (O : List Nat) (buffers : List (Extended V) × List Int) :
    Option (List (Extended V) × List Int) :=
  match O with
  | [ni, ci, ho, wo] => do
    let best ← poolWindow ((range [n, c, h, w].prod).map f) c h w kernel.1 kernel.2
      stride.1 stride.2 ni ci ho wo
    let outIdx := index4 ni ci ho wo c (outSize h kernel.1 stride.1) (outSize w kernel.2 stride.2)
    let out ← LoopNest.put buffers.1 outIdx best.1
    let idx ← LoopNest.put buffers.2 outIdx best.2
    some (out, idx)
  | _ => some buffers

theorem poolNest_eq [LT V] [DecidableLT V] (hgeo : PoolGeometry n c h w kernel stride)
    (hin : [n, c, h, w].prod * Dtype.byteSize .f32 < 2 ^ 63)
    (hbytes : (outShape n c h w kernel stride).prod * Dtype.byteSize .i64 < 2 ^ 63) :
    LoopNest.run (outShape n c h w kernel stride) (poolBody f n c h w kernel stride)
      (replicate (outShape n c h w kernel stride).prod negInf,
        replicate (outShape n c h w kernel stride).prod (0 : Int)) =
      some ((indices (outShape n c h w kernel stride)).map fun O =>
          (windowBest f [n, c, h, w] kernel stride O).1,
        (indices (outShape n c h w kernel stride)).map fun O =>
          (windowBest f [n, c, h, w] kernel stride O).2) := by
  refine LoopNest.run_zip ?_ (LoopNest.run_write length_replicate fun I _ out => rfl)
    (LoopNest.run_write length_replicate fun I _ out => rfl)
  intro O hO out idx
  have hO' : InBounds (outShape n c h w kernel stride) O := hO
  rcases hO with _ | ⟨_, _ | ⟨_, _ | ⟨_, _ | ⟨_, _ | _⟩⟩⟩⟩
  simp only [poolBody, poolWindow_eq hgeo hin hO', index4_eq hO' (prod_lt_of_bytes hbytes)]
  rfl

variable {x : Tensor (Extended V)}

theorem maxpool2dForward_eq [LT V] [DecidableLT V] (hx : Fresh x .f32 [n, c, h, w] f)
    (hgeo : PoolGeometry n c h w kernel stride) : maxpool2dForward x kernel stride = (do
      let out ← filled .f32 (negInf : Extended V) (outShape n c h w kernel stride).prod
      let idx ← filled .i64 (0 : Int) (outShape n c h w kernel stride).prod
      let buffers ← expect (LoopNest.run (outShape n c h w kernel stride) (poolBody f n c h w kernel stride)
        (out, idx))
      let outT ← fromVecOrOom .f32 (outShape n c h w kernel stride) buffers.1
        (outShape n c h w kernel stride).prod
      let idxT ← fromVecOrOom .i64 (outShape n c h w kernel stride) buffers.2
        (outShape n c h w kernel stride).prod
      ok (outT, idxT)) := by
  have hsizes := size_lt (by simp [hgeo.sizes]) hx.bytes
  simp only [mem_cons, not_mem_nil, or_false, forall_eq_or_imp, forall_eq] at hsizes
  have hh := @poolOut_eq h kernel.1 stride.1 hgeo.kernelPos.1 hgeo.fits.1 hgeo.stridePos.1
    (by unfold u64Size; omega)
  have hw := @poolOut_eq w kernel.2 stride.2 hgeo.kernelPos.2 hgeo.fits.2 hgeo.stridePos.2
    (by unfold u64Size; omega)
  have hfits : ¬ (h < kernel.1 ∨ w < kernel.2) := by
    rw [not_or, not_lt, not_lt]
    exact hgeo.fits
  have hnumel : numel [n, c, outSize h kernel.1 stride.1, outSize w kernel.2 stride.2] =
      (outShape n c h w kernel stride).prod :=
    numel_of_bytes (lt_of_le_of_lt (Nat.mul_le_mul_right _ hgeo.outShape_prod_le) hx.bytes)
  rw [maxpool2dForward, if_neg (not_not.2 hx.dtype), if_neg (by simp [hx.shape])]
  simp only [hx.shape, axisSize, getElem?_cons_zero, getElem?_cons_succ,
    expect_some, ok_bind, hh, hw, sliceExpect, hx.asSlice, unwrap_ok,
    hnumel]
  rw [if_neg hfits]
  rfl

theorem maxpool2dForward_fresh [LT V] [DecidableLT V] (hx : Fresh x .f32 [n, c, h, w] f)
    (hgeo : PoolGeometry n c h w kernel stride)
    (hbytes : (outShape n c h w kernel stride).prod * Dtype.byteSize .i64 < 2 ^ 63) :
    ∃ y idx, maxpool2dForward x kernel stride = .ok (y, idx) ∧
      y.shape = outShape n c h w kernel stride ∧
      Fresh idx .i64 (outShape n c h w kernel stride) (fun l =>
        (windowBest f [n, c, h, w] kernel stride
          (coordsOf (outShape n c h w kernel stride) l)).2) := by
  have hbytes4 : (outShape n c h w kernel stride).prod * Dtype.byteSize .f32 < 2 ^ 63 :=
    lt_of_le_of_lt (Nat.mul_le_mul_right _ hgeo.outShape_prod_le) hx.bytes
  obtain ⟨y, hy, hyfresh⟩ := @fromVecOrOom_fresh (Extended V) .f32 (outShape n c h w kernel stride)
    (fun l => (windowBest f [n, c, h, w] kernel stride
      (coordsOf (outShape n c h w kernel stride) l)).1)
    (outShape n c h w kernel stride).prod hbytes4
  obtain ⟨idx, hidx, hidxfresh⟩ := @fromVecOrOom_fresh Int .i64 (outShape n c h w kernel stride)
    (fun l => (windowBest f [n, c, h, w] kernel stride
      (coordsOf (outShape n c h w kernel stride) l)).2)
    (outShape n c h w kernel stride).prod hbytes
  refine ⟨y, idx, ?_, hyfresh.shape, hidxfresh⟩
  rw [maxpool2dForward_eq hx hgeo, filled_ok hbytes4, ok_bind, filled_ok hbytes,
    ok_bind, poolNest_eq hgeo hx.bytes hbytes, expect_some, ok_bind]
  simp only [map_indices, hy, hidx, ok_bind]

/-- Nothing in the window compares greater than `-∞`, and index 0 is recorded; or a cell of the
window is recorded that nothing in the window compares greater than. -/
theorem windowBest_spec [Preorder V] [DecidableLT V] (f : Nat → Extended V) (S : Shape)
    (kernel stride : Nat × Nat) (O : List Nat) :
    ((windowBest f S kernel stride O).2 = 0 ∧
        ∀ I ∈ windowCells kernel stride O, lt .negInf (f (linearOf S I)) = false) ∨
      ∃ J ∈ windowCells kernel stride O, (windowBest f S kernel stride O).2 = linearOf S J ∧
        lt .negInf (f (linearOf S J)) = true ∧
        ∀ I ∈ windowCells kernel stride O,
          lt (f (linearOf S J)) (f (linearOf S I)) = false := by
  rcases RunningMax.scan_spec lt_self (fun _ _ _ => lt_trans)
    ((windowCells kernel stride O).map fun I => (f (linearOf S I), (linearOf S I : Int)))
    (.negInf, 0) with ⟨heq, hnone⟩ | ⟨hmem, hbeats, hnone⟩
  · refine Or.inl ⟨congrArg Prod.snd heq, ?_⟩
    intro I hI
    exact hnone _ (mem_map_of_mem hI)
  · obtain ⟨J, hJ, hbest⟩ := mem_map.1 hmem
    rw [← hbest] at hbeats hnone
    refine Or.inr ⟨J, hJ, (congrArg Prod.snd hbest).symm, hbeats, ?_⟩
    intro I hI
    exact hnone _ (mem_map_of_mem hI)

end Forward

/-! ## The backward kernel -/

section Backward

variable {F : Type} [AddCommMonoid F]

theorem foldlM_scatterGrad {g : List F} {nTotal : Nat} {u : Nat → F} (entries : List (Int × Nat)) :
    ∀ din : List F, (∀ e ∈ entries, asU64 e.1 < nTotal ∧ g[e.2]? = some (u e.2)) →
      entries.foldlM (scatterGrad g nTotal) din =
        Update.foldAt (· + ·) (entries.map fun e => (asU64 e.1, u e.2)) din := by
  induction entries with
  | nil =>
    intro din _
    rfl
  | cons e entries ih =>
    intro din h
    obtain ⟨hlt, hg⟩ := h e mem_cons_self
    rw [foldlM_cons, map_cons, Update.foldAt, scatterGrad, if_pos hlt, hg]
    cases din[asU64 e.1]? with
    | none => rfl
    | some a => exact ih _ fun e' he' => h e' (mem_cons_of_mem e he')

theorem maxpool2dBackward_fresh {g : Tensor F} {idx : Tensor Int} {S K : Shape} {u : Nat → F}
    {cell : Nat → Nat} (hg : Fresh g .f32 K u) (hidx : Fresh idx .i64 K (fun l => (cell l : Int)))
    (hS : S.prod * Dtype.byteSize .f32 < 2 ^ 63) (hcell : ∀ l < K.prod, cell l < S.prod) :
    ∃ din, maxpool2dBackward g idx S = .ok din ∧ Fresh din .f32 S (fun j =>
      ∑ l ∈ (Finset.range K.prod).filter (fun l => cell l = j), u l) := by
  obtain ⟨din, hdin, hfresh⟩ := @fromVecOrOom_fresh F .f32 S
    (fun j => ∑ l ∈ (Finset.range K.prod).filter (fun l => cell l = j), u l) S.prod hS
  refine ⟨din, ?_, hfresh⟩
  have hentries : ((range K.prod).map fun l => (cell l : Int)).zipIdx =
      (range K.prod).map fun l => ((cell l : Int), l) := by
    apply ext_getElem
    · simp
    · intro l _ _
      simp
  have hcells : ((range K.prod).map fun l => ((cell l : Int), l)).map
      (fun e => (asU64 e.1, u e.2)) = (range K.prod).map fun l => (cell l, u l) := by
    rw [map_map]
    refine map_congr_left ?_
    intro l hl
    have hlt := lt_trans (hcell l (mem_range.1 hl)) (prod_lt_of_bytes hS)
    rw [Function.comp_apply, asU64_of_nonneg (Int.natCast_nonneg _) (by exact_mod_cast hlt),
      Int.toNat_natCast]
  have hloop : ((range K.prod).map fun l => ((cell l : Int), l)).foldlM
      (scatterGrad ((range K.prod).map u) S.prod) (replicate S.prod 0) =
      some ((range S.prod).map fun j =>
        ∑ l ∈ (Finset.range K.prod).filter (fun l => cell l = j), u l) := by
    rw [@foldlM_scatterGrad F _ _ _ u, hcells, Update.foldAt_replicate 0 hcell]
    · refine congrArg some (map_congr_left ?_)
      intro j _
      rw [Update.foldl_add, zero_add, Update.sum_filter_range]
    · intro e he
      obtain ⟨l, hl, rfl⟩ := mem_map.1 he
      have hl := mem_range.1 hl
      have hlt := hcell l hl
      refine ⟨?_, ?_⟩
      · rwa [asU64_of_nonneg (Int.natCast_nonneg _)
          (by exact_mod_cast lt_trans hlt (prod_lt_of_bytes hS)), Int.toNat_natCast]
      · rw [getElem?_map, getElem?_range hl]
        rfl
  rw [maxpool2dBackward, sliceExpect, hg.asSlice, hidx.asSlice]
  simp only [unwrap_ok, Outcome.ok_bind, numel_of_bytes hS, filled_ok hS, hentries, hloop,
    Outcome.expect_some, hdin]

end Backward

end Cpu
end Rustorch

/-!
# Where max-pooling sends its gradients

`Routing` says that every output names a largest cell of its own window, and that the backward
kernel adds the output's gradient there and nowhere else.  The kernels do so for tensors that
`as_slice` hands out, if every window but the first of the first plane has an element that compares
greater than `-∞`; a window without one names index 0 (`maxpool2d_routes_iff`).
-/

namespace Rustorch
namespace Cpu

open Rustorch.Core
open LoopNest (indices)

section Routing

variable {V F : Type} [Preorder V] [DecidableLT V] [AddCommMonoid F]

/-- `route` names the input cell of each output. -/
structure Routing (x : Tensor (Extended V)) (g : Tensor F) (kernel stride : Nat × Nat)
    (idx : Tensor Int) (din : Tensor F) (route : List Nat → List Nat) (u : List Nat → F) :
    Prop where
  recorded : idx.elements =
    some ((indices g.shape).map fun O => (linearOf x.shape (route O) : Int))
  inside : ∀ O ∈ indices g.shape, route O ∈ windowCells kernel stride O
  largest : ∀ O ∈ indices g.shape, ∃ best, elementAt x (route O) = some best ∧
    ∀ I ∈ windowCells kernel stride O, ∃ v, elementAt x I = some v ∧ Extended.lt best v = false
  gradient : ∀ O ∈ indices g.shape, elementAt g O = some (u O)
  scattered : ∀ I ∈ indices x.shape,
    elementAt din I = some (((indices g.shape).filter fun O => route O = I).map u).sum
  conserved : ∃ ds gs, din.elements = some ds ∧ g.elements = some gs ∧ ds.sum = gs.sum

/-- Both kernels return, and route each gradient to its own window. -/
def PoolRoutes (x : Tensor (Extended V)) (g : Tensor F) (kernel stride : Nat × Nat) : Prop :=
  ∃ y idx din route u, maxpool2dForward x kernel stride = .ok (y, idx) ∧ y.shape = g.shape ∧
    maxpool2dBackward g idx x.shape = .ok din ∧ Routing x g kernel stride idx din route u

/-- A nonempty input and a gradient of the shape of the output. -/
structure PoolOperands (x : Tensor (Extended V)) (g : Tensor F) (n c h w : Nat)
    (kernel stride : Nat × Nat) : Prop where
  input : Reachable x
  gradient : Reachable g
  inputShape : x.shape = [n, c, h, w]
  gradientShape : g.shape = outShape n c h w kernel stride
  geometry : PoolGeometry n c h w kernel stride

/-- `as_slice::<f32>` hands out the buffer. -/
def InFront {α : Type} (t : Tensor α) : Prop :=
  t.layout.dtype = .f32 ∧ t.layout.isContiguous = true ∧ t.layout.storageOffset = 0

/-- The tensors are in front of their buffers, the index map fits into a vector, and every window
but the first of the first plane has an element that compares greater than `-∞`. -/
def PoolCondition (x : Tensor (Extended V)) (g : Tensor F) (kernel stride : Nat × Nat) : Prop :=
  InFront x ∧ InFront g ∧ g.shape.prod * Dtype.byteSize .i64 < 2 ^ 63 ∧
    ∀ O ∈ indices g.shape, O ≠ [0, 0, 0, 0] →
      ∃ I ∈ windowCells kernel stride O, ∃ v, elementAt x I = some v ∧
        Extended.lt .negInf v = true

variable {α : Type} {t : Tensor α}

theorem sliceExpect_inFront {data : List α} : sliceExpect t = .ok data → InFront t := by
  intro h
  by_contra hnot
  have hflags : t.layout.dtype ≠ .f32 ∨ t.layout.isContiguous = false ∨
      t.layout.storageOffset ≠ 0 := by
    simpa only [InFront, not_and_or, Bool.not_eq_true] using hnot
  rw [sliceExpect, Tensor.asSlice, if_pos hflags] at h
  cases h

theorem InFront.fresh [Inhabited α] (h : InFront t) :
    Reachable t → ∃ f, Fresh t .f32 t.shape f := by
  intro hreach
  obtain ⟨f, hf⟩ := reachable_dense hreach h.2.1
  rw [h.1] at hf
  exact ⟨f, hf, h.2.2⟩

omit [Preorder V] [DecidableLT V] in
/-- The sum over the outputs of one cell, by multi-index and by linear index. -/
theorem sum_routed {S K : Shape} {route : List Nat → List Nat} {u : Nat → F} {I : List Nat}
    (hin : ∀ l < S.prod, InBounds K (route (coordsOf S l))) (hI : InBounds K I) :
    (((indices S).filter fun O => route O = I).map fun O => u (linearOf S O)).sum =
      ∑ l ∈ (Finset.range S.prod).filter (fun l => linearOf K (route (coordsOf S l)) =
        linearOf K I), u l := by
  rw [sum_indices_filter]
  refine Finset.sum_congr (Finset.filter_congr ?_) ?_
  · intro l hl
    have hl := hin l (Finset.mem_range.1 hl)
    constructor
    · intro heq
      rw [heq]
    · intro heq
      rw [← coordsOf_linearOf hl, heq, coordsOf_linearOf hI]
  · intro l hl
    rw [linearOf_coordsOf (Finset.mem_range.1 (Finset.mem_filter.1 hl).1)]

namespace PoolOperands

variable {x : Tensor (Extended V)} {g : Tensor F} {n c h w : Nat} {kernel stride : Nat × Nat}

omit [AddCommMonoid F] in
theorem input_inFront (hop : PoolOperands x g n c h w kernel stride)
    {out : Tensor (Extended V) × Tensor Int} :
    maxpool2dForward x kernel stride = .ok out → InFront x := by
  intro hy
  have hfits : ¬ (h < kernel.1 ∨ w < kernel.2) := by
    rw [not_or, not_lt, not_lt]
    exact hop.geometry.fits
  rw [maxpool2dForward] at hy
  split_ifs at hy with hdtype hrank
  simp only [hop.inputShape, axisSize, List.getElem?_cons_zero, List.getElem?_cons_succ,
    Outcome.expect_some, Outcome.ok_bind] at hy
  rw [if_neg hfits] at hy
  obtain ⟨_, _, hy⟩ := Outcome.bind_eq_ok.1 hy
  obtain ⟨_, _, hy⟩ := Outcome.bind_eq_ok.1 hy
  obtain ⟨data, hdata, _⟩ := Outcome.bind_eq_ok.1 hy
  exact sliceExpect_inFront hdata

variable {f : Nat → Extended V}

theorem recorded_cell (hgeo : PoolGeometry n c h w kernel stride) {O : List Nat}
    (hO : InBounds (outShape n c h w kernel stride) O)
    (hwin : O ≠ [0, 0, 0, 0] → ∃ I ∈ windowCells kernel stride O,
      Extended.lt .negInf (f (linearOf [n, c, h, w] I)) = true) : ∃ J ∈ windowCells kernel stride O,
      (windowBest f [n, c, h, w] kernel stride O).2 = linearOf [n, c, h, w] J ∧
        ∀ I ∈ windowCells kernel stride O, Extended.lt (f (linearOf [n, c, h, w] J))
          (f (linearOf [n, c, h, w] I)) = false := by
  rcases windowBest_spec f [n, c, h, w] kernel stride O with ⟨hzero, hnone⟩ | ⟨J, hJ, hidx, _, hmax⟩
  · have hfirst : O = [0, 0, 0, 0] := by
      by_contra hne
      obtain ⟨I, hI, hgt⟩ := hwin hne
      rw [hnone I hI] at hgt
      cases hgt
    subst hfirst
    -- The first window starts at index 0.
    refine ⟨[0, 0, 0, 0], ?_, ?_, ?_⟩
    · exact mem_windowCells.2 ⟨0, hgeo.kernelPos.1, 0, hgeo.kernelPos.2, by simp⟩
    · rw [hzero, linearOf_four]
      simp
    · intro I hI
      by_contra hgt
      have hbottom := Extended.negInf_lt_of_lt (eq_true_of_ne_false hgt)
      rw [hnone I hI] at hbottom
      cases hbottom
  · exact ⟨J, hJ, hidx, hmax⟩

variable (hop : PoolOperands x g n c h w kernel stride)

include hop

omit [AddCommMonoid F] in
theorem cells_of_condition
    (hf : Fresh x .f32 [n, c, h, w] f)
    (hwin : ∀ O ∈ indices (outShape n c h w kernel stride), O ≠ [0, 0, 0, 0] →
      ∃ I ∈ windowCells kernel stride O, ∃ v, elementAt x I = some v ∧
        Extended.lt .negInf v = true) :
    ∀ O ∈ indices (outShape n c h w kernel stride), ∃ J ∈ windowCells kernel stride O,
      (windowBest f [n, c, h, w] kernel stride O).2 = linearOf [n, c, h, w] J ∧
        ∀ I ∈ windowCells kernel stride O, Extended.lt (f (linearOf [n, c, h, w] J))
          (f (linearOf [n, c, h, w] I)) = false := by
  intro O hO
  have hO' := mem_indices.1 hO
  refine recorded_cell hop.geometry hO' ?_
  intro hne
  obtain ⟨I, hI, v, hv, hgt⟩ := hwin O hO hne
  rw [elementAt_holds hf.holds (hop.geometry.inBounds hO' hI)] at hv
  cases hv
  exact ⟨I, hI, hgt⟩

theorem routing_of_fresh {u : Nat → F}
    {idx : Tensor Int} {din : Tensor F} {route : List Nat → List Nat}
    (hf : Fresh x .f32 [n, c, h, w] f) (hu : Fresh g .f32 (outShape n c h w kernel stride) u)
    (hidx : Fresh idx .i64 (outShape n c h w kernel stride) fun l =>
      (linearOf [n, c, h, w] (route (coordsOf (outShape n c h w kernel stride) l)) : Int))
    (hdin : Fresh din .f32 [n, c, h, w] fun i =>
      ∑ l ∈ (Finset.range (outShape n c h w kernel stride).prod).filter
        (fun l => linearOf [n, c, h, w] (route (coordsOf (outShape n c h w kernel stride) l)) = i),
          u l)
    (hroute : ∀ O ∈ indices (outShape n c h w kernel stride), route O ∈ windowCells kernel stride O ∧
      ∀ I ∈ windowCells kernel stride O, Extended.lt (f (linearOf [n, c, h, w] (route O)))
        (f (linearOf [n, c, h, w] I)) = false) : Routing x g kernel stride idx din route
      fun O => u (linearOf (outShape n c h w kernel stride) O) := by
  have hread : ∀ O ∈ indices (outShape n c h w kernel stride), ∀ I ∈ windowCells kernel stride O,
      elementAt x I = some (f (linearOf [n, c, h, w] I)) := by
    intro O hO I hI
    exact elementAt_holds hf.holds (hop.geometry.inBounds (mem_indices.1 hO) hI)
  -- a routed cell lies in its window, so in the input
  have hin : ∀ l < (outShape n c h w kernel stride).prod,
      InBounds [n, c, h, w] (route (coordsOf (outShape n c h w kernel stride) l)) := by
    intro l hl
    have hl := @inBounds_coordsOf _ l (not_mem_of_lt_prod hl)
    exact hop.geometry.inBounds hl (hroute _ (mem_indices.2 hl)).1
  constructor
  · rw [hop.gradientShape, hop.inputShape, map_indices, hidx.elements]
  · rw [hop.gradientShape]
    intro O hO
    exact (hroute O hO).1
  · rw [hop.gradientShape]
    intro O hO
    refine ⟨_, hread O hO _ (hroute O hO).1, ?_⟩
    intro I hI
    exact ⟨_, hread O hO I hI, (hroute O hO).2 I hI⟩
  · rw [hop.gradientShape]
    intro O hO
    exact elementAt_holds hu.holds (mem_indices.1 hO)
  · rw [hop.gradientShape, hop.inputShape]
    intro I hI
    rw [elementAt_holds hdin.holds (mem_indices.1 hI), sum_routed hin (mem_indices.1 hI)]
  · -- Every output is counted at the one cell that it names.
    refine ⟨_, _, hdin.elements, hu.elements, ?_⟩
    have hmaps : ∀ l ∈ Finset.range (outShape n c h w kernel stride).prod,
        linearOf [n, c, h, w] (route (coordsOf (outShape n c h w kernel stride) l)) ∈
          Finset.range [n, c, h, w].prod := by
      intro l hl
      exact Finset.mem_range.2 (linearOf_lt (hin l (Finset.mem_range.1 hl)))
    exact Finset.sum_fiberwise_of_maps_to hmaps u

/-- Under the condition every gradient goes to its own window. -/
theorem routes (hcond : PoolCondition x g kernel stride) : PoolRoutes x g kernel stride := by
  obtain ⟨hxf, hgf, hbytes, hwin⟩ := hcond
  let _ : Inhabited (Extended V) := ⟨.nan⟩
  let _ : Inhabited F := ⟨0⟩
  obtain ⟨f, hf⟩ := hxf.fresh hop.input
  obtain ⟨u, hu⟩ := hgf.fresh hop.gradient
  rw [hop.inputShape] at hf
  rw [hop.gradientShape] at hu hbytes hwin
  obtain ⟨y, idx, hy, hyshape, hidx⟩ := maxpool2dForward_fresh hf hop.geometry hbytes
  choose! route hroute using hop.cells_of_condition hf hwin
  have hmem : ∀ l < (outShape n c h w kernel stride).prod,
      coordsOf (outShape n c h w kernel stride) l ∈ indices (outShape n c h w kernel stride) := by
    intro l hl
    exact mem_indices.2 (inBounds_coordsOf (not_mem_of_lt_prod hl))
  have hidx' : Fresh idx .i64 (outShape n c h w kernel stride) (fun l =>
      (linearOf [n, c, h, w] (route (coordsOf (outShape n c h w kernel stride) l)) : Int)) := by
    refine ⟨hidx.toDense.of_eq ?_, hidx.offset⟩
    intro l hl
    exact (hroute _ (hmem l hl)).2.1
  have hlt : ∀ l < (outShape n c h w kernel stride).prod,
      linearOf [n, c, h, w] (route (coordsOf (outShape n c h w kernel stride) l)) <
        [n, c, h, w].prod := by
    intro l hl
    have hl := hmem l hl
    exact linearOf_lt (hop.geometry.inBounds (mem_indices.1 hl) (hroute _ hl).1)
  obtain ⟨din, hdin, hdfresh⟩ := maxpool2dBackward_fresh hu hidx' hf.bytes hlt
  refine ⟨y, idx, din, route, fun O => u (linearOf (outShape n c h w kernel stride) O), hy,
    hyshape.trans hop.gradientShape.symm, ?_, ?_⟩
  · rw [hop.inputShape, hdin]
  · exact hop.routing_of_fresh hf hu hidx' hdfresh
      fun O hO => ⟨(hroute O hO).1, (hroute O hO).2.2⟩

/-- A window that records a cell of its own has an element that compares greater than `-∞`, unless
it is the first window of the first plane. -/
theorem condition (hroutes : PoolRoutes x g kernel stride) : PoolCondition x g kernel stride := by
  obtain ⟨y, idx, din, route, u, hy, _, hdin, hrouting⟩ := hroutes
  have hxf := hop.input_inFront hy
  have hgf : InFront g := by
    obtain ⟨data, hdata, _⟩ := Outcome.bind_eq_ok.1 hdin
    exact sliceExpect_inFront hdata
  let _ : Inhabited (Extended V) := ⟨.nan⟩
  obtain ⟨f, hf⟩ := hxf.fresh hop.input
  rw [hop.inputShape] at hf
  have hbytes : (outShape n c h w kernel stride).prod * Dtype.byteSize .i64 < 2 ^ 63 := by
    have hrun := hy
    rw [maxpool2dForward_eq hf hop.geometry] at hrun
    obtain ⟨_, _, hrun⟩ := Outcome.bind_eq_ok.1 hrun
    obtain ⟨_, hfilled, _⟩ := Outcome.bind_eq_ok.1 hrun
    exact filled_bytes hfilled
  refine ⟨hxf, hgf, ?_, ?_⟩
  · rw [hop.gradientShape]
    exact hbytes
  · intro O hO hne
    obtain ⟨y', idx', hy', _, hidx⟩ := maxpool2dForward_fresh hf hop.geometry hbytes
    rw [hy] at hy'
    cases hy'
    have hrecorded := hrouting.recorded
    have hinside := hrouting.inside O hO
    rw [hop.gradientShape] at hO hrecorded
    have hO' := mem_indices.1 hO
    rw [hidx.elements, ← map_indices _ fun O => (windowBest f [n, c, h, w] kernel stride O).2,
      hop.inputShape] at hrecorded
    have hcell := List.map_inj_left.1 (Option.some.inj hrecorded) O hO
    rcases windowBest_spec f [n, c, h, w] kernel stride O with ⟨hzero, _⟩ | ⟨J, hJ, _, hgt, _⟩
    · refine absurd (hop.geometry.zero_mem hO' hinside ?_) hne
      rw [hzero] at hcell
      exact_mod_cast hcell.symm
    · exact ⟨J, hJ, _, elementAt_holds hf.holds (hop.geometry.inBounds hO' hJ), hgt⟩

end PoolOperands

/-- The kernels route every gradient to a largest cell of its own window exactly if the input and
the gradient are in front of their buffers, the index map fits into a vector, and every window but
the first of the first plane has an element that compares greater than `-∞`. -/
theorem maxpool2d_routes_iff {x : Tensor (Extended V)} {g : Tensor F} {n c h w : Nat}
    {kernel stride : Nat × Nat} (hop : PoolOperands x g n c h w kernel stride) :
    PoolRoutes x g kernel stride ↔ PoolCondition x g kernel stride :=
  ⟨hop.condition, hop.routes⟩

end Routing

/-! ## Two windows -/

/-- A finite value beside `-∞`. -/
def masked : Tensor (Extended Int) where
  storage := [.fin 1, .negInf]
  layout := Layout.contiguous [1, 1, 1, 2] .f32

/-- Two windows of four cells, each with a finite value. -/
def unmasked : Tensor (Extended Int) where
  storage := [.fin 1, .fin 5, .negInf, .fin 3, .fin 2, .fin 0, .fin 7, .negInf]
  layout := Layout.contiguous [1, 1, 2, 4] .f32

def outputGrad : Tensor Int where
  storage := [5, 7]
  layout := Layout.contiguous [1, 1, 1, 2] .f32

theorem outputGrad_reachable : Reachable outputGrad :=
  @Reachable.fromVecTyped Int .f32 [1, 1, 1, 2] [5, 7] outputGrad (by decide) (by decide) rfl

theorem cells_geometry : PoolGeometry 1 1 1 2 (1, 1) (1, 1) :=
  ⟨by decide, by decide, by decide, by decide⟩

theorem masked_operands : PoolOperands masked outputGrad 1 1 1 2 (1, 1) (1, 1) :=
  ⟨@Reachable.fromVecTyped (Extended Int) .f32 [1, 1, 1, 2] [.fin 1, .negInf] masked (by decide)
    (by decide) rfl, outputGrad_reachable, rfl, rfl, cells_geometry⟩

theorem unmasked_operands : PoolOperands unmasked outputGrad 1 1 2 4 (2, 2) (2, 2) :=
  ⟨@Reachable.fromVecTyped (Extended Int) .f32 [1, 1, 2, 4] unmasked.storage unmasked (by decide)
    (by decide) rfl, outputGrad_reachable, rfl, rfl, ⟨by decide, by decide, by decide, by decide⟩⟩

theorem maxpool2d_routes_unmasked :
    PoolRoutes unmasked outputGrad (2, 2) (2, 2) ↔ PoolCondition unmasked outputGrad (2, 2) (2, 2) :=
  maxpool2d_routes_iff unmasked_operands

/-- The window of `-∞` records the cell of the other window, which takes both gradients. -/
theorem maxpool2d_masked_fails :
    PoolOperands masked outputGrad 1 1 1 2 (1, 1) (1, 1) ∧
      (∃ y idx din, maxpool2dForward masked (1, 1) (1, 1) = .ok (y, idx) ∧ idx.storage = [0, 0] ∧
        maxpool2dBackward outputGrad idx masked.shape = .ok din ∧ din.storage = [12, 0]) ∧
      ¬ PoolRoutes masked outputGrad (1, 1) (1, 1) := by
  refine ⟨masked_operands, ⟨_, _, _, rfl, rfl, rfl, rfl⟩, ?_⟩
  intro hroutes
  obtain ⟨_, _, _, hwin⟩ := masked_operands.condition hroutes
  obtain ⟨I, hI, v, hv, hgt⟩ := hwin [0, 0, 0, 1] (by decide) (by decide)
  have hcell : I = [0, 0, 0, 1] := by
    simpa [windowCells, indices] using hI
  subst hcell
  cases hv
  cases hgt

end Cpu
end Rustorch
