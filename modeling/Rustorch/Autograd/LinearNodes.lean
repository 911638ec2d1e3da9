import Rustorch.Attention.Adjoint
import Rustorch.Autograd.LossNodes
import Rustorch.Core.Transpose

/-!
# Backward of the linear operations

`bmm`, `index_select` along the first axis, `mean_dim`, `transpose` and `reshape` are linear in their
operands.  The nodes of `bmm`, `index_select` and `reshape` read slices of `F32` and `I64`; that of
`mean_dim` multiplies by a tensor of `1 / N` that reads the gradient as a row-major buffer; that of
`transpose` follows the strides.  Each gradient is the adjoint of its operation exactly where these
readings are right (`linear_adjoint_iff`).
-/

namespace Rustorch
namespace Autograd

open Rustorch.Core Cpu AxisSwap List Outcome Rows Layout
open Finset (mul_sum sum_comm sum_congr)

/-! ## The operations and their nodes -/

section Model

variable {F : Type} [Field F]

/-- The accumulator of the innermost loop over `kk` in `0..len`. -/
def dotCells {ε : Type} (len : Nat) (xs ys : List F) (p q : Nat → Nat) : Outcome ε F :=
  (range len).foldlM (fun acc kk => do
    let x ← expect xs[p kk]?
    let y ← expect ys[q kk]?
    pure (acc + x * y)) 0

/-- The three nested loops that fill a buffer of `b` matrices of `m` rows, cell after cell. -/
def batched {ε : Type} (b m n : Nat) (cell : Nat → Nat → Nat → Outcome ε F) : Outcome ε (List F) := do
  let blocks ← (range b).mapM fun bi => do
    let rows ← (range m).mapM fun i => (range n).mapM fun j => cell bi i j
    pure rows.flatten
  pure blocks.flatten

/-- `bmm_impl`. -/
def bmm (lhs rhs : Tensor F) : Outcome BackendError (Tensor F) :=
  match lhs.shape, rhs.shape with
  | [b, m, k1], [b2, k2, n] =>
    if b ≠ b2 ∨ k1 ≠ k2 then
      .err (.shapeMismatch "bmm" lhs.shape rhs.shape)
    else do
      let lData ← mapErr (fun _ => .numericalError "bmm: lhs must be contiguous F32")
        (lhs.asSlice .f32)
      let rData ← mapErr (fun _ => .numericalError "bmm: rhs must be contiguous F32")
        (rhs.asSlice .f32)
      withCapacity .f32 (b * m * n)
      let out ← batched b m n fun bi i j =>
        dotCells k1 lData rData (fun kk => bi * m * k1 + i * k1 + kk)
          (fun kk => bi * k1 * n + kk * n + j)
      mapErr (fun e => .numericalError ("bmm output build: " ++ tensorErrorDisplay e))
        (ofExcept (fromVecTyped .f32 [b, m, n] out))
  | _, _ => .err (.shapeMismatch "bmm" lhs.shape rhs.shape)

/-- `dA[bi] = grad[bi] @ B[bi].T` and `dB[bi] = A[bi].T @ grad[bi]`. -/
def bmmGradInputs (grad lhs rhs : Tensor F) : Outcome BackwardError (Tensor F × Tensor F) :=
  match lhs.shape, rhs.shape with
  | b :: m :: k :: _, _ :: _ :: n :: _ => do
    let g ← unwrap (grad.asSlice .f32)
    let l ← unwrap (lhs.asSlice .f32)
    let r ← unwrap (rhs.asSlice .f32)
    let da ← batched b m k fun bi i kk =>
      dotCells n g r (fun j => bi * m * n + i * n + j) (fun j => bi * k * n + kk * n + j)
    let db ← batched b k n fun bi kk j =>
      dotCells m l g (fun i => bi * m * k + i * k + kk) (fun i => bi * m * n + i * n + j)
    let daT ← unwrap (ofExcept (fromVecTyped .f32 [b, m, k] da))
    let dbT ← unwrap (ofExcept (fromVecTyped .f32 [b, k, n] db))
    pure (daT, dbT)
  | _, _ => .panic

/-- The entries of the gradients that `BmmBackward::apply` returns. -/
def bmmBackward {α : Type} (side : Tensor F × Tensor F → α) (grad lhs rhs : Tensor F) :
    Outcome BackwardError α := do
  let grads ← bmmGradInputs grad lhs rhs
  pure (side grads)

/-- `src_grad[s_off + j] += g_data[g_off + j]`; `none` is an index past the end. -/
def addCell (gData srcGrad : List F) (sg : Nat × Nat) : Option (List F) := do
  let x ← gData[sg.2]?
  let v ← srcGrad[sg.1]?
  some (srcGrad.set sg.1 (v + x))

/-- `IndexSelectBackward::apply`. -/
def indexSelectBackward (inShape : Shape) (indices : Tensor Int) (grad : Tensor F) :
    Outcome BackwardError (Tensor F) :=
  match inShape with
  | [] => .panic
  | v :: rest => do
    let rowSize := max (numel rest) 1
    let gData ← unwrap (grad.asSlice .f32)
    let idxData ← unwrap (indices.asSlice .i64)
    let cells := (idxData.zipIdx.take indices.numel).flatMap fun vi =>
      (range rowSize).map fun j => (asU64 vi.1 * rowSize + j, vi.2 * rowSize + j)
    let srcGrad ← expect (cells.foldlM (addCell gData) (replicate (v * rowSize) 0))
    unwrap (ofExcept (fromVecTyped .f32 inShape srcGrad))

/-- `MeanDimBackward::apply`. -/
def meanDimBackward (inShape : Shape) (dims : List Nat) (grad : Tensor F) :
    Outcome BackwardError (Tensor F) := do
  let nReduced := (dims.map (fun d => inShape.getD d 0)).prod
  let invN : F := 1 / nReduced
  let scaledOnes ← unwrap (ofExcept
    (fromVecTyped .f32 inShape (replicate (numel inShape) invN)))
  unwrap (dispatchBinaryTyped "mul" (· * ·) grad scaledOnes)

/-- `format!("{e}")` of the errors of `transpose`. -/
def transposeErrorDisplay : ViewError → String
  | .dimOutOfRange dim ndim =>
    "dim " ++ toString dim ++ " out of range for tensor of rank " ++ toString ndim
  | _ => ""

def transpose (src : Tensor F) (d0 d1 : Nat) : Outcome BackwardError (Tensor F) := do
  let outView ← mapErr (fun e => .backend "transpose" (transposeErrorDisplay e))
    (ofExcept (src.runView (.transpose d0 d1)))
  expect outView.contiguous

/-- `TransposeBackward::apply`. -/
def transposeBackward (d0 d1 : Nat) (grad : Tensor F) : Outcome BackwardError (Tensor F) := do
  let view ← unwrap (ofExcept (grad.runView (.transpose d0 d1)))
  expect view.contiguous

/-- `ReshapeBackward::apply`. -/
def reshapeBackward (inShape : Shape) (grad : Tensor F) : Outcome BackwardError (Tensor F) := do
  let data ← unwrap (grad.asSlice .f32)
  unwrap (ofExcept (fromVecTyped .f32 inShape data))

end Model

/-! ## Adjoints -/

section Adjoint

variable {F : Type} [Field F]

/-- The gradient has the shape of the operand `x`, and pairs with every tangent of its layout as `g`
pairs with what the operation makes of the tangent. -/
def IsAdjoint {ε δ : Type} (forward : Tensor F → Outcome ε (Tensor F))
    (gradient : Outcome δ (Tensor F)) (x g : Tensor F) : Prop :=
  ∀ v : Tensor F, v.layout = x.layout → v.elements.isSome →
    ∃ out dx total paired, forward v = .ok out ∧ out.shape = g.shape ∧ gradient = .ok dx ∧
      dx.shape = x.shape ∧ innerProduct g out = some total ∧ innerProduct dx v = some paired ∧
      total = paired

variable {S G : Shape} {T U : Dtype} {x g v : Tensor F} {a f : Nat → F}

theorem tangent_dense (hx : Dense x T S a) (hlayout : v.layout = x.layout)
    (hsome : v.elements.isSome) : ∃ e, Dense v T S e := by
  obtain ⟨vs, hvs⟩ := Option.isSome_iff_exists.1 hsome
  have hshape : v.shape = S := (congrArg shape hlayout).trans hx.shape
  have hnumel : v.numel = S.prod := by
    rw [Tensor.numel, hlayout]
    exact hx.numel
  have hlen : vs.length = S.prod := by
    rw [Tensor.elements_eq, Traversal.mapM_eq_some] at hvs
    have hlen := hvs.length_eq
    rw [length_range, hnumel] at hlen
    exact hlen.symm
  have hholds : Holds v T S fun i => vs.getD i 0 := by
    refine ⟨(congrArg dtype hlayout).trans hx.dtype, hshape, hx.bytes, ?_⟩
    rw [hvs, ← hlen]
    refine congrArg some (ext_getElem (by simp) fun i hi _ => ?_)
    simp [hi]
  refine ⟨_, hholds.dense ?_⟩
  rw [hlayout, hx.flag]

omit [Field F] in
theorem SliceOf.of_layout (h : SliceOf T x) (hlayout : v.layout = x.layout) : SliceOf T v := by
  rw [SliceOf, hlayout]
  exact h

theorem isAdjoint_of_values {ε δ : Type} {forward : Tensor F → Outcome ε (Tensor F)}
    {gradient : Outcome δ (Tensor F)} {U' : Dtype} {dx : Tensor F} {r : Nat → F} (T' : Dtype)
    (φ : (Nat → F) → Nat → F) (hx : Dense x T S a) (hg : Holds g U G f)
    (hgradient : gradient = .ok dx) (hdx : Fresh dx U' S r)
    (hforward : ∀ v e, v.layout = x.layout → Dense v T S e →
      ∃ out, forward v = .ok out ∧ Fresh out T' G (φ e))
    (hsum : ∀ e : Nat → F, ∑ o ∈ Finset.range G.prod, f o * φ e o =
      ∑ l ∈ Finset.range S.prod, r l * e l) : IsAdjoint forward gradient x g := by
  intro v hlayout hsome
  obtain ⟨e, hv⟩ := tangent_dense hx hlayout hsome
  obtain ⟨out, hout, hfresh⟩ := hforward v e hlayout hv
  exact ⟨out, dx, _, _, hout, hfresh.shape.trans hg.shape.symm, hgradient,
    hdx.shape.trans hx.shape.symm, innerProduct_holds hg hfresh.holds,
    innerProduct_holds hdx.holds hv.holds, hsum e⟩

/-- The operand is a tangent of itself. -/
theorem IsAdjoint.self {ε δ : Type} {forward : Tensor F → Outcome ε (Tensor F)}
    {gradient : Outcome δ (Tensor F)} (h : IsAdjoint forward gradient x g) (hx : Dense x T S a) :
    ∃ out dx total paired, forward x = .ok out ∧ out.shape = g.shape ∧ gradient = .ok dx ∧
      innerProduct g out = some total ∧ innerProduct dx x = some paired ∧ total = paired := by
  obtain ⟨out, dx, total, paired, hout, hshape, hdx, _, htotal, hpaired, heq⟩ :=
    h x rfl (by rw [hx.elements]; rfl)
  exact ⟨out, dx, total, paired, hout, hshape, hdx, htotal, hpaired, heq⟩

end Adjoint

/-! ## Batched products -/

section Batched

variable {F : Type} [Field F] {b m n k : Nat}

theorem dotCells_ok {ε : Type} {N M len : Nat} {p q : Nat → Nat} (a c : Nat → F)
    (hp : ∀ t < len, p t < N) (hq : ∀ t < len, q t < M) :
    (dotCells len ((range N).map a) ((range M).map c) p q : Outcome ε F) =
      .ok (∑ t ∈ Finset.range len, a (p t) * c (q t)) := by
  obtain ⟨s, hs, hsum⟩ := @foldlM_range ε len F (fun acc kk => do
    let x ← expect ((range N).map a)[p kk]?
    let y ← expect ((range M).map c)[q kk]?
    pure (acc + x * y)) (fun t s => s = ∑ t ∈ Finset.range t, a (p t) * c (q t)) 0 rfl (by
      rintro t ht s rfl
      refine ⟨_, ?_, (Finset.sum_range_succ _ t).symm⟩
      simp only [getElem?_map, getElem?_range (hp t ht), getElem?_range (hq t ht),
        Option.map_some, expect_some, ok_bind]
      rfl)
  rw [dotCells, hs, hsum]

/-- The value of a cell of `b` matrices of `m` rows and `n` columns. -/
def byCell (m n : Nat) (φ : Nat → Nat → Nat → F) (l : Nat) : F :=
  φ (l / (m * n)) (l / n % m) (l % n)

omit [Field F] in
theorem byCell_at (φ : Nat → Nat → Nat → F) {bi i j : Nat} (hi : i < m) (hj : j < n) :
    byCell m n φ (bi * (m * n) + (i * n + j)) = φ bi i j := by
  have hassoc : bi * (m * n) + (i * n + j) = (bi * m + i) * n + j := by ring
  have hrow : (bi * (m * n) + (i * n + j)) / n % m = i := by
    rw [hassoc, cell_div hj, cell_mod hi]
  have hcol : (bi * (m * n) + (i * n + j)) % n = j := by
    rw [hassoc, cell_mod hj]
  rw [byCell, cell_div (cell_lt hi hj), hrow, hcol]

theorem map_byCell {α : Type} (b m n : Nat) (φ : Nat → Nat → Nat → α) :
    (range (b * (m * n))).map (byCell m n φ) =
      (range b).flatMap fun bi => (range m).flatMap fun i => (range n).map (φ bi i) := by
  rw [map_eq_flatMap, flatMap_range_mul]
  refine flatMap_congr fun bi _ => ?_
  rw [flatMap_range_mul]
  refine flatMap_congr fun i hi => ?_
  rw [map_eq_flatMap]
  refine flatMap_congr fun j hj => ?_
  rw [byCell_at φ (mem_range.1 hi) (mem_range.1 hj)]

omit [Field F] in
theorem batched_ok {ε : Type} {cell : Nat → Nat → Nat → Outcome ε F} {φ : Nat → Nat → Nat → F}
    (h : ∀ bi < b, ∀ i < m, ∀ j < n, cell bi i j = .ok (φ bi i j)) :
    batched b m n cell = .ok ((range (b * (m * n))).map (byCell m n φ)) := by
  have hrow : ∀ bi < b, ∀ i < m, (range n).mapM (fun j => cell bi i j) =
      .ok ((range n).map (φ bi i)) := fun bi hbi i hi =>
    mapM_eq_ok fun j hj => h bi hbi i hi j (mem_range.1 hj)
  have hblock : ∀ bi < b, (do
      let rows ← (range m).mapM fun i => (range n).mapM fun j => cell bi i j
      pure rows.flatten : Outcome ε (List F)) =
      .ok ((range m).map fun i => (range n).map (φ bi i)).flatten := by
    intro bi hbi
    rw [mapM_eq_ok fun i hi => hrow bi hbi i (mem_range.1 hi)]
    rfl
  rw [batched, mapM_eq_ok fun bi hbi => hblock bi (mem_range.1 hbi)]
  rw [map_byCell]
  rfl

theorem sum_byCell (w : Nat → F) (φ : Nat → Nat → Nat → F) :
    ∑ l ∈ Finset.range (b * (m * n)), w l * byCell m n φ l =
      ∑ bi ∈ Finset.range b, ∑ i ∈ Finset.range m, ∑ j ∈ Finset.range n,
        w (bi * (m * n) + (i * n + j)) * φ bi i j := by
  rw [Attention.sum_range_mul]
  refine sum_congr rfl fun bi _ => ?_
  rw [Attention.sum_range_mul]
  refine sum_congr rfl fun i hi => sum_congr rfl fun j hj => ?_
  rw [byCell_at φ (Finset.mem_range.1 hi) (Finset.mem_range.1 hj)]

end Batched

section Bmm

variable {F : Type} [Field F] {b m n k : Nat} {T U V : Dtype} {l r g v : Tensor F}
  {a c f : Nat → F}

/-- The product of the matrices of one batch. -/
def productAt (m n k : Nat) (a c : Nat → F) (bi i j : Nat) : F :=
  ∑ kk ∈ Finset.range k, a (bi * m * k + i * k + kk) * c (bi * k * n + kk * n + j)

/-- The gradients of the two operands. -/
def leftGradAt (m n k : Nat) (f c : Nat → F) (bi i kk : Nat) : F :=
  ∑ j ∈ Finset.range n, f (bi * m * n + i * n + j) * c (bi * k * n + kk * n + j)

def rightGradAt (m n k : Nat) (a f : Nat → F) (bi kk j : Nat) : F :=
  ∑ i ∈ Finset.range m, a (bi * m * k + i * k + kk) * f (bi * m * n + i * n + j)

omit [Field F] in
theorem cell_lt_batched {x y bi i j : Nat} (hbi : bi < b) (hi : i < x) (hj : j < y) :
    bi * x * y + i * y + j < b * (x * y) := by
  have hcell := cell_lt hbi (cell_lt hi hj)
  calc
    bi * x * y + i * y + j = bi * (x * y) + (i * y + j) := by ring
    _ < b * (x * y) := hcell

omit [Field F] in
theorem prod_three (x y z : Nat) : [x, y, z].prod = x * (y * z) := by
  simp

theorem bmm_fresh (hl : Fresh l .f32 [b, m, k] a) (hr : Fresh r .f32 [b, k, n] c)
    (hbytes : [b, m, n].prod * Dtype.byteSize .f32 < 2 ^ 63) :
    ∃ out, bmm l r = .ok out ∧ Fresh out .f32 [b, m, n] (byCell m n (productAt m n k a c)) := by
  obtain ⟨out, hout, hfresh⟩ := @fromVecTyped_fresh F .f32 [b, m, n]
    (byCell m n (productAt m n k a c)) hbytes
  refine ⟨out, ?_, hfresh⟩
  have hcap : b * m * n * Dtype.byteSize .f32 < 2 ^ 63 := by
    rw [Nat.mul_assoc b]
    rwa [prod_three] at hbytes
  have hloop := @batched_ok F b m n BackendError _ (productAt m n k a c)
    fun bi hbi i hi j hj => dotCells_ok a c
      (fun kk hkk => cell_lt_batched hbi hi hkk) (fun kk hkk => cell_lt_batched hbi hkk hj)
  rw [prod_three] at hout
  rw [bmm, hl.shape, hr.shape]
  simp only [ne_eq, not_true_eq_false, or_self, if_false, hl.asSlice, hr.asSlice, prod_three,
    withCapacity_ok hcap, mapErr, ok_bind, hloop, hout, ofExcept_ok]

theorem bmmGradInputs_fresh (hl : Fresh l .f32 [b, m, k] a) (hr : Fresh r .f32 [b, k, n] c)
    (hg : Fresh g .f32 [b, m, n] f) :
    ∃ da db, bmmGradInputs g l r = .ok (da, db) ∧
      Fresh da .f32 [b, m, k] (byCell m k (leftGradAt m n k f c)) ∧
      Fresh db .f32 [b, k, n] (byCell k n (rightGradAt m n k a f)) := by
  obtain ⟨da, hda, hdaf⟩ := @fromVecTyped_fresh F .f32 [b, m, k]
    (byCell m k (leftGradAt m n k f c)) hl.bytes
  obtain ⟨db, hdb, hdbf⟩ := @fromVecTyped_fresh F .f32 [b, k, n]
    (byCell k n (rightGradAt m n k a f)) hr.bytes
  refine ⟨da, db, ?_, hdaf, hdbf⟩
  have hleft := @batched_ok F b m k BackwardError _ (leftGradAt m n k f c)
    fun bi hbi i hi kk hkk => dotCells_ok f c
      (fun j hj => cell_lt_batched hbi hi hj) (fun j hj => cell_lt_batched hbi hkk hj)
  have hright := @batched_ok F b k n BackwardError _ (rightGradAt m n k a f)
    fun bi hbi kk hkk j hj => dotCells_ok a f
      (fun i hi => cell_lt_batched hbi hi hkk) (fun i hi => cell_lt_batched hbi hi hj)
  rw [prod_three] at hda hdb
  rw [bmmGradInputs, hl.shape, hr.shape]
  simp only [hl.asSlice, hr.asSlice, hg.asSlice, prod_three, unwrap_ok, ok_bind,
    hleft, hright, hda, hdb, ofExcept_ok]
  rfl

theorem sum_leftGrad (f c e : Nat → F) :
    ∑ o ∈ Finset.range [b, m, n].prod, f o * byCell m n (productAt m n k e c) o =
      ∑ x ∈ Finset.range [b, m, k].prod, byCell m k (leftGradAt m n k f c) x * e x := by
  rw [prod_three, prod_three, sum_byCell]
  simp only [mul_comm _ (e _)]
  rw [sum_byCell]
  refine sum_congr rfl fun bi _ => sum_congr rfl fun i _ => ?_
  simp only [productAt, leftGradAt, mul_sum]
  rw [sum_comm]
  refine sum_congr rfl fun kk _ => sum_congr rfl fun j _ => ?_
  rw [show bi * (m * n) + (i * n + j) = bi * m * n + i * n + j by ring,
    show bi * (m * k) + (i * k + kk) = bi * m * k + i * k + kk by ring]
  ring

theorem sum_rightGrad (f a e : Nat → F) :
    ∑ o ∈ Finset.range [b, m, n].prod, f o * byCell m n (productAt m n k a e) o =
      ∑ x ∈ Finset.range [b, k, n].prod, byCell k n (rightGradAt m n k a f) x * e x := by
  rw [prod_three, prod_three, sum_byCell]
  simp only [mul_comm _ (e _)]
  rw [sum_byCell]
  refine sum_congr rfl fun bi _ => ?_
  simp only [productAt, rightGradAt, mul_sum]
  calc
    _ = ∑ i ∈ Finset.range m, ∑ kk ∈ Finset.range k, ∑ j ∈ Finset.range n,
          f (bi * (m * n) + (i * n + j)) *
            (a (bi * m * k + i * k + kk) * e (bi * k * n + kk * n + j)) :=
          sum_congr rfl fun i _ => sum_comm
    _ = ∑ kk ∈ Finset.range k, ∑ i ∈ Finset.range m, ∑ j ∈ Finset.range n,
          f (bi * (m * n) + (i * n + j)) *
            (a (bi * m * k + i * k + kk) * e (bi * k * n + kk * n + j)) := sum_comm
    _ = ∑ kk ∈ Finset.range k, ∑ j ∈ Finset.range n, ∑ i ∈ Finset.range m,
          f (bi * (m * n) + (i * n + j)) *
            (a (bi * m * k + i * k + kk) * e (bi * k * n + kk * n + j)) :=
          sum_congr rfl fun kk _ => sum_comm
    _ = _ := by
          refine sum_congr rfl fun kk _ => sum_congr rfl fun j _ =>
            sum_congr rfl fun i _ => ?_
          rw [show bi * (m * n) + (i * n + j) = bi * m * n + i * n + j by ring,
            show bi * (k * n) + (kk * n + j) = bi * k * n + kk * n + j by ring]
          ring

/-- The gradients of a batched product are right exactly if all three tensors are slices. -/
theorem bmm_adjoint_iff (hl : Dense l T [b, m, k] a) (hr : Dense r U [b, k, n] c)
    (hg : Holds g V [b, m, n] f) :
    (IsAdjoint (fun v => bmm v r) (bmmBackward Prod.fst g l r) l g ∧
      IsAdjoint (fun v => bmm l v) (bmmBackward Prod.snd g l r) r g) ↔
      SliceOf .f32 l ∧ SliceOf .f32 r ∧ SliceOf .f32 g := by
  constructor
  · rintro ⟨hleft, _⟩
    obtain ⟨out, dx, _, _, _, _, hdx, _⟩ := hleft.self hl
    obtain ⟨_, hgrads, _⟩ := bind_eq_ok.1 hdx
    rw [bmmGradInputs, hl.shape, hr.shape] at hgrads
    obtain ⟨_, hgs, hgrads⟩ := bind_eq_ok.1 hgrads
    obtain ⟨_, hls, hgrads⟩ := bind_eq_ok.1 hgrads
    obtain ⟨_, hrs, _⟩ := bind_eq_ok.1 hgrads
    exact ⟨sliceOf_of_unwrap hls, sliceOf_of_unwrap hrs, sliceOf_of_unwrap hgs⟩
  · rintro ⟨hls, hrs, hgs⟩
    have hlf := fresh_of_sliceOf hls hl.holds
    have hrf := fresh_of_sliceOf hrs hr.holds
    have hgf := fresh_of_sliceOf hgs hg
    obtain ⟨da, db, hgrads, hda, hdb⟩ := bmmGradInputs_fresh hlf hrf hgf
    constructor
    · refine isAdjoint_of_values .f32 _ hl hg (bind_eq_ok.2 ⟨(da, db), hgrads, rfl⟩) hda
        (fun v e hlayout hv => ?_) fun e => sum_leftGrad f c e
      exact bmm_fresh (fresh_of_sliceOf (hls.of_layout hlayout) hv.holds) hrf hgf.bytes
    · refine isAdjoint_of_values .f32 _ hr hg (bind_eq_ok.2 ⟨(da, db), hgrads, rfl⟩) hdb
        (fun v e hlayout hv => ?_) fun e => sum_rightGrad f a e
      exact bmm_fresh hlf (fresh_of_sliceOf (hrs.of_layout hlayout) hv.holds) hgf.bytes

end Bmm

/-! ## Selected rows -/

section Select

variable {F : Type} [Field F] {n k : Nat} {S : Shape} {T V : Dtype} {x g : Tensor F}
  {idx : Tensor Int} {a f : Nat → F} {gi : Nat → Int}

theorem addCell_range {N M s t : Nat} (q f : Nat → F) (hs : s < N) (ht : t < M) :
    addCell ((range M).map f) ((range N).map q) (s, t) =
      some ((range N).map fun l => q l + if l = s then f t else 0) := by
  have hget : ((range N).map q)[s]? = some (q s) := by
    rw [getElem?_map, getElem?_range hs]
    rfl
  have hgrad : ((range M).map f)[t]? = some (f t) := by
    rw [getElem?_map, getElem?_range ht]
    rfl
  simp only [addCell, hget, hgrad, Option.bind_eq_bind, Option.bind_some, Option.some.injEq]
  refine ext_getElem (by simp) fun l hl hl' => ?_
  by_cases hcell : s = l
  · simp [hcell]
  · simp [hcell, Ne.symm hcell]

theorem foldlM_addCell {N M : Nat} (f : Nat → F) (cells : List (Nat × Nat))
    (hcells : ∀ p ∈ cells, p.1 < N ∧ p.2 < M) (q : Nat → F) :
    cells.foldlM (addCell ((range M).map f)) ((range N).map q) =
      some ((range N).map fun l =>
        q l + (cells.map fun p => if l = p.1 then f p.2 else 0).sum) := by
  induction cells generalizing q with
  | nil => simp
  | cons p cells ih =>
    obtain ⟨hp, hrest⟩ := forall_mem_cons.1 hcells
    rw [foldlM_cons, addCell_range q f hp.1 hp.2, Option.bind_eq_bind, Option.bind_some, ih hrest]
    simp only [map_cons, sum_cons, add_assoc]

/-- The gradient of cell `l` of the source: the cells of the result that were selected from it. -/
def scatterAt (k w : Nat) (gi : Nat → Int) (f : Nat → F) (l : Nat) : F :=
  ∑ i ∈ Finset.range k, ∑ j ∈ Finset.range w,
    if l = (gi i).toNat * w + j then f (i * w + j) else 0

theorem sum_scatterAt (hgi : ∀ i < k, (gi i).toNat < n) {w : Nat} (f e : Nat → F) :
    ∑ o ∈ Finset.range (k * w), f o * e ((gi (o / w)).toNat * w + o % w) =
      ∑ l ∈ Finset.range (n * w), scatterAt k w gi f l * e l := by
  rw [Attention.sum_range_mul _ k]
  simp only [scatterAt, Finset.sum_mul, ite_mul, zero_mul]
  symm
  rw [sum_comm]
  refine sum_congr rfl fun i hi => ?_
  rw [sum_comm]
  refine sum_congr rfl fun j hj => ?_
  have hj := Finset.mem_range.1 hj
  have hcell := cell_lt (hgi i (Finset.mem_range.1 hi)) hj
  rw [Finset.sum_ite_eq', if_pos (Finset.mem_range.2 hcell), cell_div hj, cell_mod hj]

theorem indexSelectBackward_ok (hS : 0 < S.prod) (hk : 0 < k) (hidx : Fresh idx .i64 [k] gi)
    (hgi : ∀ i < k, 0 ≤ gi i ∧ (gi i).toNat < n) (hg : Fresh g .f32 (k :: S) f)
    (hbytes : (n :: S).prod * Dtype.byteSize .f32 < 2 ^ 63) :
    ∃ dx, indexSelectBackward (n :: S) idx g = .ok dx ∧
      Fresh dx .f32 (n :: S) (scatterAt k S.prod gi f) := by
  obtain ⟨dx, hdx, hfresh⟩ := @fromVecTyped_fresh F .f32 (n :: S) (scatterAt k S.prod gi f) hbytes
  refine ⟨dx, ?_, hfresh⟩
  have hwhole := prod_lt_of_bytes hbytes
  rw [prod_cons] at hdx hwhole
  have hlarge : ∀ i < k, S.prod ≤ n * S.prod ∧ n ≤ n * S.prod := by
    intro i hi
    have hn := Nat.zero_lt_of_lt (hgi i hi).2
    exact ⟨Nat.le_mul_of_pos_left _ hn, Nat.le_mul_of_pos_right _ hS⟩
  have hw : max (numel S) 1 = S.prod := by
    rw [numel_of_fits (lt_of_le_of_lt (hlarge 0 hk).1 hwhole)]
    omega
  have hnumel : idx.numel = k := by
    rw [hidx.numel]
    simp
  have hidxs : idx.asSlice .i64 = .ok ((range k).map gi) := by
    have hslice := hidx.asSlice
    rwa [show ([k] : Shape).prod = k by simp] at hslice
  have hzip : (((range k).map gi).zipIdx).take k = (range k).map fun i => (gi i, i) := by
    refine ext_getElem (by simp) fun i _ _ => ?_
    simp
  have hclass : ∀ i < k, asU64 (gi i) = (gi i).toNat := by
    intro i hi
    obtain ⟨hsign, hrow⟩ := hgi i hi
    have hle := (hlarge i hi).2
    have hfits : n * S.prod < 2 ^ 64 := hwhole
    exact asU64_of_nonneg hsign (by omega)
  let cells := (range k).flatMap fun i =>
    (range S.prod).map fun j => ((gi i).toNat * S.prod + j, i * S.prod + j)
  have hcells : (((range k).map fun i => (gi i, i)).flatMap fun vi =>
      (range S.prod).map fun j => (asU64 vi.1 * S.prod + j, vi.2 * S.prod + j)) = cells := by
    rw [flatMap_map]
    refine flatMap_congr fun i hi => ?_
    rw [hclass i (mem_range.1 hi)]
  have hinside : ∀ p ∈ cells, p.1 < n * S.prod ∧ p.2 < k * S.prod := by
    intro p hp
    obtain ⟨i, hi, hp⟩ := mem_flatMap.1 hp
    obtain ⟨j, hj, rfl⟩ := mem_map.1 hp
    have hi := mem_range.1 hi
    have hj := mem_range.1 hj
    exact ⟨cell_lt (hgi i hi).2 hj, cell_lt hi hj⟩
  have hsum : ∀ l, (cells.map fun p => if l = p.1 then f p.2 else 0).sum =
      scatterAt k S.prod gi f l := by
    intro l
    rw [map_flatMap, flatMap_def, sum_flatten, map_map]
    refine congrArg sum (map_congr_left fun i _ => ?_)
    simp only [Function.comp_apply, map_map]
    rfl
  have hgrad := hg.asSlice
  rw [prod_cons] at hgrad
  have hzeros : replicate (n * S.prod) (0 : F) = (range (n * S.prod)).map fun _ => 0 := by
    simp
  rw [indexSelectBackward]
  simp only [hw, hgrad, hidxs, hnumel, hzip, hcells, hzeros, unwrap_ok, ok_bind,
    foldlM_addCell f cells hinside, expect_some, hsum, zero_add, hdx, ofExcept_ok]

/-- The gradient of the selected rows is right exactly if the kernel takes the source, and the
indices and the gradient are slices. -/
theorem indexSelect_adjoint_iff (hx : Dense x T (n :: S) a) (hidx : Dense idx .i64 [k] gi)
    (hg : Holds g V (k :: S) f) (h0 : 0 ∉ n :: S) (hk : 0 < k)
    (hgi : ∀ i < k, 0 ≤ gi i ∧ (gi i).toNat < n)
    (hbytes : (k :: S).prod * T.byteSize < 2 ^ 63) :
    IsAdjoint (fun v => indexSelect v 0 idx) (indexSelectBackward (n :: S) idx g) x g ↔
      selectable T = true ∧ SliceOf .i64 idx ∧ SliceOf .f32 g := by
  have hS : 0 < S.prod := prod_pos fun d hd =>
    Nat.pos_of_ne_zero fun h => h0 (mem_cons_of_mem _ (h ▸ hd))
  constructor
  · intro hadj
    obtain ⟨out, dx, _, _, hout, _, hdx, _⟩ := hadj.self hx
    have hselect : selectable T = true := by
      rw [indexSelect, hx.dtype] at hout
      split_ifs at hout with _ _ _ hsel
      exact hsel
    obtain ⟨_, hgs, hdx⟩ := bind_eq_ok.1 hdx
    obtain ⟨_, hidxs, _⟩ := bind_eq_ok.1 hdx
    exact ⟨hselect, sliceOf_of_unwrap hidxs, sliceOf_of_unwrap hgs⟩
  · rintro ⟨hselect, hidxs, hgs⟩
    have hbytesF : (n :: S).prod * Dtype.byteSize .f32 < 2 ^ 63 := by
      refine lt_of_le_of_lt (Nat.mul_le_mul_left _ ?_) hx.bytes
      revert hselect
      cases T <;> simp [selectable, Dtype.byteSize]
    obtain ⟨dx, hdx, hdxf⟩ := indexSelectBackward_ok hS hk (fresh_of_sliceOf hidxs hidx.holds) hgi
      (fresh_of_sliceOf hgs hg) hbytesF
    refine isAdjoint_of_values T (fun e l => e ((gi (l / S.prod)).toNat * S.prod + l % S.prod)) hx hg
      hdx hdxf (fun v e hlayout hv => ?_) fun e => ?_
    · have hlen : ((range (n :: S).prod).map e).length = (n :: S).prod := by simp
      obtain ⟨out, hout, hfresh⟩ := @indexSelect_rows F v idx _ n k S gi 0 (hv.dtype.symm ▸ hselect)
        hv.shape hv.elements hlen hidx (fun _ => hgi) (hv.dtype.symm ▸ hbytes)
      rw [hv.dtype] at hfresh
      refine ⟨out, hout, ⟨hfresh.toDense.of_eq fun l hl => ?_, hfresh.offset⟩⟩
      have hrow : l / S.prod < k := Nat.div_lt_of_lt_mul (by rwa [Nat.mul_comm])
      have hcell := cell_lt (hgi _ hrow).2 (Nat.mod_lt l hS)
      rw [getD_eq_getElem?_getD, getElem?_map, prod_cons, getElem?_range hcell]
      exact rfl
    · rw [prod_cons, prod_cons]
      exact sum_scatterAt (fun i hi => (hgi i hi).2) f e

end Select

/-! ## Means -/

section Mean

variable {F : Type} [Field F] {S : Shape} {dims : List Nat} {T V : Dtype} {x g : Tensor F}
  {a f : Nat → F}

theorem forall₂_reduceFrom (dims : List Nat) (S : List Nat) :
    ∀ k, Forall₂ FitsAxis (reduceFrom dims true 1 k S) S := by
  induction S with
  | nil => exact fun _ => .nil
  | cons d S ih =>
    intro k
    rw [reduceFrom_cons]
    by_cases hk : k ∈ dims
    · rw [if_pos hk, if_pos rfl]
      exact .cons (Or.inr rfl) (ih (k + 1))
    · rw [if_neg hk]
      exact .cons (Or.inl rfl) (ih (k + 1))

theorem fits_reducedShape (S : Shape) (dims : List Nat) :
    Forall₂ FitsAxis (reducedShape S dims true) S := by
  rw [reducedShape_eq]
  exact forall₂_reduceFrom dims S 0

theorem inBounds_reduced (h0 : 0 ∉ S) {R : List Nat} (hR : InBounds (reducedShape S dims true) R) :
    InBounds S R :=
  bounded_of_fits (fits_reducedShape S dims)
    (fun _ hd => Nat.pos_of_ne_zero fun hz => h0 (hz ▸ hd)) hR

theorem stretches_reducedShape (S : Shape) (dims : List Nat) :
    Stretches (reducedShape S dims true) S := by
  have hfits := fits_reducedShape S dims
  refine ⟨hfits.length_eq.le, ?_⟩
  rwa [hfits.length_eq, Nat.sub_self, drop_zero]

theorem restrictAxes_reduceFrom {S I : List Nat} (dims : List Nat) (hI : MixedRadix.Bounded S I) :
    ∀ k, restrictAxes (reduceFrom dims true 1 k S) I = reduceFrom dims true 0 k I := by
  induction hI with
  | nil => exact fun _ => rfl
  | @cons d c S I hc _ ih =>
    intro k
    rw [reduceFrom_cons, reduceFrom_cons]
    have hrest := ih (k + 1)
    rw [restrictAxes] at hrest
    by_cases hk : k ∈ dims
    · simp [restrictAxes, hrest, hk]
    · have hhead : (if d = 1 then 0 else c) = c := by
        split_ifs with hd
        · omega
        · rfl
      simp [restrictAxes, hrest, hk, hhead]

theorem restrict_reducedShape (h0 : 0 ∉ S) (l : Nat) :
    restrict (reducedShape S dims true) S (coordsOf S l) =
      reducedCoords (coordsOf S l) dims true := by
  have hlen := (fits_reducedShape S dims).length_eq
  rw [restrict, hlen, Nat.sub_self, drop_zero, reducedShape_eq, reducedCoords_eq]
  exact restrictAxes_reduceFrom dims (inBounds_coordsOf h0) 0

theorem reducedCell_lt (h0 : 0 ∉ S) (l : Nat) :
    reducedCell S dims true l < (reducedShape S dims true).prod :=
  linearOf_lt (inBounds_reducedCoords dims true (inBounds_coordsOf h0))

theorem broadcastWith_reducedShape (S : Shape) (dims : List Nat) :
    broadcastWith (reducedShape S dims true) S = .ok S := by
  obtain ⟨r, hr, hfits⟩ := broadcastWith_least (stretches_reducedShape S dims) (stretches_self S)
  obtain ⟨_, hfits'⟩ := broadcastWith_stretches hr
  have hrS : r = S := reverse_injective
    ((stretches_iff.1 hfits).antisymm (stretches_iff.1 hfits'))
  rw [hr, hrS]

theorem sum_cellSum (h0 : 0 ∉ S) (f e : Nat → F) (c : F) :
    ∑ o ∈ Finset.range (reducedShape S dims true).prod, f o * (cellSum S dims true e o / c) =
      ∑ l ∈ Finset.range S.prod, f (reducedCell S dims true l) * (1 / c) * e l := by
  have hmaps : ∀ l ∈ Finset.range S.prod,
      reducedCell S dims true l ∈ Finset.range (reducedShape S dims true).prod :=
    fun l _ => Finset.mem_range.2 (reducedCell_lt h0 l)
  rw [← Finset.sum_fiberwise_of_maps_to hmaps]
  refine sum_congr rfl fun o _ => ?_
  rw [cellSum, Finset.sum_div, mul_sum]
  refine sum_congr rfl fun l hl => ?_
  rw [(Finset.mem_filter.1 hl).2]
  ring

/-- The kernel reads the gradient, of the elements `f`, as a row-major buffer. -/
def ReadsAs (g : Tensor F) (G : Shape) (f : Nat → F) : Prop :=
  ∀ o < G.prod, rowMajorAt g (coordsOf G o) = some (f o)

theorem meanDimBackward_eq (hbytes : S.prod * Dtype.byteSize .f32 < 2 ^ 63) :
    ∃ ones, Fresh ones .f32 S (fun _ => (1 : F) / ((dims.map fun d => S.getD d 0).prod : Nat)) ∧
      meanDimBackward S dims g = unwrap (dispatchBinaryTyped "mul" (· * ·) g ones) := by
  obtain ⟨ones, hones, hfresh⟩ := @fromVecTyped_fresh F .f32 S
    (fun _ => (1 : F) / ((dims.map fun d => S.getD d 0).prod : Nat)) hbytes
  refine ⟨ones, hfresh, ?_⟩
  have hfill : replicate (numel S) ((1 : F) / ((dims.map fun d => S.getD d 0).prod : Nat)) =
      (range S.prod).map fun _ => (1 : F) / ((dims.map fun d => S.getD d 0).prod : Nat) := by
    rw [numel_of_bytes hbytes]
    simp
  rw [meanDimBackward]
  simp only [hfill, hones, ofExcept_ok, unwrap_ok, ok_bind]

/-- The product with the broadcast gradient returns exactly if its reading stays inside. -/
theorem meanDimBackward_ok_iff (h0 : 0 ∉ S) (hbytes : S.prod * Dtype.byteSize .f32 < 2 ^ 63)
    (hg : Holds g V (reducedShape S dims true) f) {dx : Tensor F} :
    meanDimBackward S dims g = .ok dx → V = .f32 ∧
      ReadsAs g (reducedShape S dims true) (rowMajorValue g (reducedShape S dims true) 0) := by
  obtain ⟨ones, hones, heq⟩ := @meanDimBackward_eq F _ S dims g hbytes
  intro h
  rw [heq, unwrap_eq_ok] at h
  obtain ⟨hdtype, _, hmap⟩ := dispatchBinaryTyped_eq_ok h
  refine ⟨hg.dtype.symm.trans (hdtype.trans hones.dtype), fun o ho => ?_⟩
  have hS : broadcastWith g.shape ones.shape = .ok S := by
    rw [hg.shape, hones.shape]
    exact broadcastWith_reducedShape S dims
  obtain ⟨_, data, hloop, _⟩ := (mapBinary_eq_ok rfl hdtype.symm hS).1 hmap
  have hR : InBounds (reducedShape S dims true) (coordsOf (reducedShape S dims true) o) :=
    inBounds_coordsOf (not_mem_of_lt_prod ho)
  have hfits := fits_reducedShape S dims
  have hI := inBounds_reduced h0 hR
  obtain ⟨u, _, hu, _⟩ := broadcastLoop_eq_some (prod_lt_of_bytes hbytes) hloop _ hI
  have hself : restrict g.shape S (coordsOf (reducedShape S dims true) o) =
      coordsOf (reducedShape S dims true) o := by
    rw [hg.shape, restrict, hfits.length_eq, Nat.sub_self, drop_zero]
    exact restrictAxes_self hR
  rw [hself] at hu
  rw [rowMajorValue, hu, Option.getD_some]

theorem meanDimBackward_reads (h0 : 0 ∉ S) (hbytes : S.prod * Dtype.byteSize .f32 < 2 ^ 63)
    (hg : Holds g .f32 (reducedShape S dims true) f) {u : Nat → F}
    (hread : ReadsAs g (reducedShape S dims true) u) :
    ∃ dx, meanDimBackward S dims g = .ok dx ∧ Fresh dx .f32 S (fun l =>
      u (reducedCell S dims true l) * (1 / ((dims.map fun d => S.getD d 0).prod : Nat))) := by
  obtain ⟨ones, hones, heq⟩ := @meanDimBackward_eq F _ S dims g hbytes
  rw [heq]
  simp only [unwrap_eq_ok]
  refine dispatchBinaryTyped_fresh hg.dtype hones.dtype rfl ?_ hbytes (fun l hl => ?_)
    fun l hl => rowMajorAt_dense hones.toDense (stretches_self S) hl
  · rw [hg.shape, hones.shape]
    exact broadcastWith_reducedShape S dims
  · have hin := inBounds_reducedCoords dims true (@inBounds_coordsOf S l h0)
    have hat := hread _ (reducedCell_lt h0 l)
    rw [reducedCell, coordsOf_linearOf hin] at hat
    rw [hg.shape, restrict_reducedShape h0, hat, reducedCell]

theorem exists_reducedCell (h0 : 0 ∉ S) {o : Nat} (ho : o < (reducedShape S dims true).prod) :
    ∃ l < S.prod, reducedCell S dims true l = o := by
  have hR : InBounds (reducedShape S dims true) (coordsOf (reducedShape S dims true) o) :=
    inBounds_coordsOf (not_mem_of_lt_prod ho)
  have hI := inBounds_reduced h0 hR
  refine ⟨_, linearOf_lt hI, ?_⟩
  have hrestrict := @restrict_reducedShape S dims h0
    (linearOf S (coordsOf (reducedShape S dims true) o))
  rw [restrict, (fits_reducedShape S dims).length_eq, Nat.sub_self, drop_zero, coordsOf_linearOf hI,
    restrictAxes_self hR] at hrestrict
  rw [reducedCell, coordsOf_linearOf hI, ← hrestrict, linearOf_coordsOf ho]

theorem meanDim_float {dims : List Nat} {out : Tensor F} (h : meanDim x dims true = .ok out) :
    x.layout.dtype = .f32 ∨ x.layout.dtype = .f64 := by
  obtain ⟨_, _, h⟩ := bind_eq_ok.1 h
  dsimp only at h
  split_ifs at h
  cases hdtype : x.layout.dtype with
  | f32 => exact Or.inl rfl
  | f64 => exact Or.inr rfl
  | _ => simp [hdtype] at h

/-- The gradient of the mean is right exactly if the operand is of floating-point type, the gradient
is `F32`, and its row-major reading is the gradient. -/
theorem meanDim_adjoint_iff [CharZero F] (hx : Dense x T S a)
    (hg : Holds g V (reducedShape S dims true) f) (h0 : 0 ∉ S) (hdims : ∀ d ∈ dims, d < S.length)
    (hbytes : S.prod * Dtype.byteSize .f32 < 2 ^ 63) :
    IsAdjoint (fun v => meanDim v dims true) (meanDimBackward S dims g) x g ↔
      (T = .f32 ∨ T = .f64) ∧ V = .f32 ∧ ReadsAs g (reducedShape S dims true) f := by
  have hcount : ((dims.map fun d => S.getD d 0).prod : F) ≠ 0 := Nat.cast_ne_zero.2 (prod_sizes_ne_zero h0 hdims)
  constructor
  · intro hadj
    obtain ⟨out, dx, _, _, hout, _, hdx, _⟩ := hadj.self hx
    have hT : T = .f32 ∨ T = .f64 := hx.dtype ▸ meanDim_float hout
    obtain ⟨hV, hread⟩ := meanDimBackward_ok_iff h0 hbytes hg hdx
    subst hV
    refine ⟨hT, rfl, fun o ho => ?_⟩
    obtain ⟨l, hl, rfl⟩ := exists_reducedCell h0 ho
    -- The tangent that is 1 at the cell and 0 elsewhere.
    obtain ⟨v, hlayout, hv⟩ : ∃ v : Tensor F, v.layout = x.layout ∧
        Dense v T S fun i => if i = l then (1 : F) else 0 := by
      refine ⟨_, ?_, hx.refill _⟩
      rfl
    obtain ⟨out, dx, total, paired, hout, _, hdx, _, htotal, hpaired, heq⟩ :=
      hadj v hlayout (by rw [hv.elements]; rfl)
    obtain ⟨out', hout', houtf⟩ := meanDim_fresh hv hT h0 hdims
    obtain ⟨dx', hdx', hdxf⟩ := meanDimBackward_reads h0 hbytes hg hread
    cases hout'.symm.trans hout
    cases hdx'.symm.trans hdx
    rw [innerProduct_holds hg houtf.holds, sum_cellSum h0, Option.some_inj] at htotal
    rw [innerProduct_holds hdxf.holds hv.holds, Option.some_inj] at hpaired
    rw [← htotal, ← hpaired] at heq
    simp only [mul_ite, mul_one, mul_zero, Finset.sum_ite_eq', Finset.mem_range, hl, if_true] at heq
    have hcell := mul_right_cancel₀ (one_div_ne_zero hcount) heq
    rw [hread _ (reducedCell_lt h0 l), ← hcell]
  · rintro ⟨hT, rfl, hread⟩
    obtain ⟨dx, hdx, hdxf⟩ := meanDimBackward_reads h0 hbytes hg hread
    exact isAdjoint_of_values T _ hx hg hdx hdxf
      (fun v e _ hv => meanDim_fresh hv hT h0 hdims) fun e => sum_cellSum h0 f e _

end Mean

/-! ## Transposes and reshapes -/

section Views

variable {F : Type} {S G : Shape} {d0 d1 : Nat} {T V : Dtype} {x g : Tensor F}
  {a f : Nat → F}

theorem transpose_fresh (hx : Holds x T S a) (h0 : 0 ∉ S) (hd0 : d0 < S.length)
    (hd1 : d1 < S.length) :
    ∃ out, transpose x d0 d1 = .ok out ∧
      Fresh out T (swapAt d0 d1 S) (fun l => a (swapCell S d0 d1 l)) := by
  obtain ⟨view, hview, hholds⟩ := hx.transpose h0 hd0 hd1
  obtain ⟨out, hout, hfresh⟩ := hholds.contiguous
  refine ⟨out, ?_, hfresh⟩
  rw [transpose, hview]
  simp only [ofExcept_ok, mapErr, ok_bind, hout, expect_some]

theorem transposeBackward_fresh (hg : Holds g V (swapAt d0 d1 S) f) (h0 : 0 ∉ S)
    (hd0 : d0 < S.length) (hd1 : d1 < S.length) :
    ∃ dx, transposeBackward d0 d1 g = .ok dx ∧
      Fresh dx V S (fun l => f (swapCell (swapAt d0 d1 S) d0 d1 l)) := by
  have hlen : (swapAt d0 d1 S).length = S.length := length_swapAt d0 d1 S
  obtain ⟨view, hview, hholds⟩ := hg.transpose (not_mem_swapAt h0) (hlen.symm ▸ hd0)
    (hlen.symm ▸ hd1)
  obtain ⟨dx, hdx, hfresh⟩ := hholds.contiguous
  rw [swapAt_swapAt hd0 hd1] at hfresh
  refine ⟨dx, ?_, hfresh⟩
  rw [transposeBackward, hview]
  simp only [ofExcept_ok, unwrap_ok, ok_bind, hdx, expect_some]

variable [Field F]

/-- The pairing with the transposed tensor, moved to the tensor. -/
theorem sum_swapCell (h0 : 0 ∉ S) (hd0 : d0 < S.length) (hd1 : d1 < S.length) (f e : Nat → F) :
    ∑ o ∈ Finset.range (swapAt d0 d1 S).prod, f o * e (swapCell S d0 d1 o) =
      ∑ l ∈ Finset.range S.prod, f (swapCell (swapAt d0 d1 S) d0 d1 l) * e l := by
  have h0' : 0 ∉ swapAt d0 d1 S := not_mem_swapAt h0
  have hd0' : d0 < (swapAt d0 d1 S).length := by simpa
  have hd1' : d1 < (swapAt d0 d1 S).length := by simpa
  have hback : ∀ o < (swapAt d0 d1 S).prod,
      swapCell (swapAt d0 d1 S) d0 d1 (swapCell S d0 d1 o) = o := by
    intro o ho
    have hcell := swapCell_swapCell h0' hd0' hd1' ho
    rwa [swapAt_swapAt hd0 hd1] at hcell
  refine Finset.sum_nbij' (swapCell S d0 d1) (swapCell (swapAt d0 d1 S) d0 d1) ?_ ?_ ?_ ?_ ?_
  · exact fun o _ => Finset.mem_range.2 (swapCell_lt h0 hd0 hd1 o)
  · exact fun l _ => Finset.mem_range.2 (swapCell_lt h0' hd0' hd1' l)
  · exact fun o ho => hback o (Finset.mem_range.1 ho)
  · exact fun l hl => swapCell_swapCell h0 hd0 hd1 (Finset.mem_range.1 hl)
  · intro o ho
    rw [hback o (Finset.mem_range.1 ho)]

theorem transpose_adjoint (hx : Dense x T S a) (hg : Holds g V (swapAt d0 d1 S) f) (h0 : 0 ∉ S)
    (hd0 : d0 < S.length) (hd1 : d1 < S.length) :
    IsAdjoint (fun v => transpose v d0 d1) (transposeBackward d0 d1 g) x g := by
  obtain ⟨dx, hdx, hdxf⟩ := transposeBackward_fresh hg h0 hd0 hd1
  exact isAdjoint_of_values T _ hx hg hdx hdxf
    (fun v e _ hv => transpose_fresh hv.holds h0 hd0 hd1) fun e => sum_swapCell h0 hd0 hd1 f e

/-- The gradient of a reshape is right exactly if the operand and the gradient are slices. -/
theorem reshape_adjoint_iff (hx : Dense x T S a) (hg : Holds g V G f) (hGS : G.prod = S.prod) :
    IsAdjoint (fun v => Ops.reshape v G) (reshapeBackward S g) x g ↔
      SliceOf .f32 x ∧ SliceOf .f32 g := by
  have hfits : G.prod < u64Size := by
    rw [hGS]
    exact prod_lt_of_bytes hx.bytes
  constructor
  · intro hadj
    obtain ⟨out, dx, _, _, hout, _, hdx, _⟩ := hadj.self hx
    rw [Ops.reshape] at hout
    split_ifs at hout
    obtain ⟨_, hslice, _⟩ := bind_eq_ok.1 hout
    obtain ⟨_, hgrad, _⟩ := bind_eq_ok.1 hdx
    exact ⟨sliceOf_of_asSlice (mapErr_eq_ok.1 hslice), sliceOf_of_unwrap hgrad⟩
  · rintro ⟨hxs, hgs⟩
    have hgf := fresh_of_sliceOf hgs hg
    have hxf := fresh_of_sliceOf hxs hx.holds
    obtain ⟨dx, hdx, hdxf⟩ := @fromVecTyped_fresh F .f32 S f hxf.bytes
    have hgradient : reshapeBackward S g = .ok dx := by
      rw [reshapeBackward, hgf.asSlice, hGS]
      simp only [unwrap_ok, ok_bind, hdx, ofExcept_ok]
    refine isAdjoint_of_values .f32 (fun e => e) hx hg hgradient hdxf (fun v e hlayout hv => ?_)
      fun e => by rw [hGS]
    have hvf := fresh_of_sliceOf (hxs.of_layout hlayout) hv.holds
    obtain ⟨out, hout, hfresh⟩ := @fromVecTyped_fresh F .f32 G e hgf.bytes
    refine ⟨out, ?_, hfresh⟩
    rw [Ops.reshape, numel_of_fits hfits, hvf.holds.numel, if_neg (not_not.2 hGS), hvf.asSlice,
      ← hGS]
    simp only [mapErr, ok_bind, hout, ofExcept_ok]

end Views

/-! ## All of them -/

section Linear

variable {F : Type} [Field F] [CharZero F]

/-- The gradients of the linear operations, for contiguous operands: those of `bmm`, `index_select`
and `reshape` are adjoint exactly if the operands, the indices and the gradient are slices, that of
`mean_dim` exactly if the row-major reading of the `F32` gradient is the gradient, and that of
`transpose` always. -/
theorem linear_adjoint_iff {l r gb xi gi xm gm xt gt xr gr : Tensor F} {idx : Tensor Int}
    {b m k n rows picks d0 d1 : Nat} {dims : List Nat} {R M P Q Q' : Shape}
    {Tl Tr Tb Ti Ui Tm Um Tt Ut Tr' Ur : Dtype} {vl vr vb vi wi vm wm vt wt vq wq : Nat → F}
    {cls : Nat → Int} (hl : Dense l Tl [b, m, k] vl) (hr : Dense r Tr [b, k, n] vr)
    (hgb : Holds gb Tb [b, m, n] vb) (hxi : Dense xi Ti (rows :: R) vi)
    (hidx : Dense idx .i64 [picks] cls) (hgi : Holds gi Ui (picks :: R) wi) (hR : 0 ∉ rows :: R)
    (hpicks : 0 < picks) (hcls : ∀ i < picks, 0 ≤ cls i ∧ (cls i).toNat < rows)
    (hresult : (picks :: R).prod * Ti.byteSize < 2 ^ 63) (hxm : Dense xm Tm M vm)
    (hgm : Holds gm Um (reducedShape M dims true) wm) (hM : 0 ∉ M) (hdims : ∀ d ∈ dims, d < M.length)
    (hones : M.prod * Dtype.byteSize .f32 < 2 ^ 63) (hxt : Dense xt Tt P vt)
    (hgt : Holds gt Ut (swapAt d0 d1 P) wt) (hP : 0 ∉ P) (hd0 : d0 < P.length) (hd1 : d1 < P.length)
    (hxr : Dense xr Tr' Q vq) (hgr : Holds gr Ur Q' wq) (hQ : Q'.prod = Q.prod) :
    ((IsAdjoint (fun v => bmm v r) (bmmBackward Prod.fst gb l r) l gb ∧
      IsAdjoint (fun v => bmm l v) (bmmBackward Prod.snd gb l r) r gb) ↔
        SliceOf .f32 l ∧ SliceOf .f32 r ∧ SliceOf .f32 gb) ∧
    (IsAdjoint (fun v => indexSelect v 0 idx) (indexSelectBackward (rows :: R) idx gi) xi gi ↔
      selectable Ti = true ∧ SliceOf .i64 idx ∧ SliceOf .f32 gi) ∧
    (IsAdjoint (fun v => meanDim v dims true) (meanDimBackward M dims gm) xm gm ↔
      (Tm = .f32 ∨ Tm = .f64) ∧ Um = .f32 ∧ ReadsAs gm (reducedShape M dims true) wm) ∧
    IsAdjoint (fun v => transpose v d0 d1) (transposeBackward d0 d1 gt) xt gt ∧
    (IsAdjoint (fun v => Ops.reshape v Q') (reshapeBackward Q gr) xr gr ↔
      SliceOf .f32 xr ∧ SliceOf .f32 gr) :=
  ⟨bmm_adjoint_iff hl hr hgb, indexSelect_adjoint_iff hxi hidx hgi hR hpicks hcls hresult,
    meanDim_adjoint_iff hxm hgm hM hdims hones, transpose_adjoint hxt hgt hP hd0 hd1,
    reshape_adjoint_iff hxr hgr hQ⟩

end Linear

/-! ## Small operands -/

section Small

/-- A buffer of the numbers of its cells. -/
def countedOf (S : Shape) : Tensor ℚ :=
  bufferOf .f32 S fun l => (l : ℚ)

theorem linear_adjoint_small :
    (IsAdjoint (fun v => bmm v (countedOf [1, 2, 2])) (bmmBackward Prod.fst (countedOf [1, 2, 2])
        (countedOf [1, 2, 2]) (countedOf [1, 2, 2])) (countedOf [1, 2, 2]) (countedOf [1, 2, 2]) ∧
      IsAdjoint (fun v => bmm (countedOf [1, 2, 2]) v) (bmmBackward Prod.snd (countedOf [1, 2, 2])
        (countedOf [1, 2, 2]) (countedOf [1, 2, 2])) (countedOf [1, 2, 2]) (countedOf [1, 2, 2])) ∧
    IsAdjoint (fun v => indexSelect v 0 (bufferOf .i64 [3] fun _ => 1))
      (indexSelectBackward [2, 2] (bufferOf .i64 [3] fun _ => 1) (countedOf [3, 2]))
      (countedOf [2, 2]) (countedOf [3, 2]) ∧
    IsAdjoint (fun v => meanDim v [0] true) (meanDimBackward [2, 2] [0] (countedOf [1, 2]))
      (countedOf [2, 2]) (countedOf [1, 2]) ∧
    IsAdjoint (fun v => transpose v 0 1) (transposeBackward 0 1 (countedOf [3, 2]))
      (countedOf [2, 3]) (countedOf [3, 2]) ∧
    IsAdjoint (fun v => Ops.reshape v [3, 2]) (reshapeBackward [2, 3] (countedOf [3, 2]))
      (countedOf [2, 3]) (countedOf [3, 2]) := by
  have hfresh : ∀ S : Shape, S.prod * Dtype.byteSize .f32 < 2 ^ 63 →
      Fresh (countedOf S) .f32 S fun l => (l : ℚ) := fun S h => bufferOf_fresh _ h
  have hslice : ∀ S : Shape, SliceOf .f32 (countedOf S) := fun S =>
    ⟨rfl, rfl, rfl⟩
  have hcube := hfresh [1, 2, 2] (by decide)
  have hsquare := hfresh [2, 2] (by decide)
  have hwide := hfresh [2, 3] (by decide)
  have htall := hfresh [3, 2] (by decide)
  have hrow := hfresh [1, 2] (by decide)
  have hidx := @bufferOf_fresh Int .i64 [3] (fun _ => 1) (by decide)
  have hread : ReadsAs (countedOf [1, 2]) (reducedShape [2, 2] [0] true) fun l => (l : ℚ) := by
    intro o ho
    have ho : o < [1, 2].prod := ho
    have hcell := rowMajorAt_dense hrow.toDense (stretches_self [1, 2]) ho
    rwa [hrow.shape, restrict_self (inBounds_coordsOf (by decide)), sourceIndex_self ho] at hcell
  have hdims : ∀ d ∈ [0], d < [2, 2].length := by decide
  have hfirst : 0 < [2, 3].length := by decide
  have hlast : 1 < [2, 3].length := by decide
  obtain ⟨hbmm, hselect, hmean, htranspose, hreshape⟩ := linear_adjoint_iff hcube.toDense
    hcube.toDense hcube.holds hsquare.toDense hidx.toDense htall.holds (by decide) (by decide)
    (fun _ _ => by decide) (by decide) hsquare.toDense hrow.holds (by decide) hdims (by decide)
    hwide.toDense htall.holds (by decide) hfirst hlast hwide.toDense htall.holds rfl
  exact ⟨hbmm.2 ⟨hslice _, hslice _, hslice _⟩, hselect.2 ⟨rfl, ⟨rfl, rfl, rfl⟩, hslice _⟩,
    hmean.2 ⟨Or.inl rfl, rfl, hread⟩, htranspose, hreshape.2 ⟨hslice _, hslice _⟩⟩

/-- A gradient with its last two axes swapped. -/
def swappedGrad : Tensor ℚ where
  storage := [0, 1, 2, 3]
  layout := ofAxes [⟨1, 4⟩, ⟨2, 1⟩, ⟨2, 2⟩] 0 u64Size_pos .f32

/-- The mean over the first axis reads a swapped gradient in the order of its buffer. -/
theorem meanDim_swapped_fails :
    ¬ IsAdjoint (fun v => meanDim v [0] true) (meanDimBackward [2, 2, 2] [0] swappedGrad)
      (countedOf [2, 2, 2]) swappedGrad := by
  intro hadj
  have hx := @bufferOf_fresh ℚ .f32 [2, 2, 2] (fun l => (l : ℚ)) (by decide)
  have hg : Holds swappedGrad .f32 (reducedShape [2, 2, 2] [0] true)
      (fun l => ([0, 2, 1, 3] : List ℚ).getD l 0) := ⟨rfl, rfl, by decide, rfl⟩
  have hreads := ((meanDim_adjoint_iff hx.toDense hg (by decide) (by decide) (by decide)).1
    hadj).2.2
  -- The second cell is read as 1, and is 2.
  have hsecond : some (1 : ℚ) = some 2 := hreads 1 (by decide)
  norm_num at hsecond

end Small

end Autograd
end Rustorch
