import Rustorch.Cpu.Coords
import Rustorch.Cpu.Matmul
import Rustorch.Cpu.ShapeOps
import Rustorch.Lib.Update

/-!
# Sum along axes

`sum_dim` adds every element into the cell of its multi-index without the reduced coordinates; two
loops of its own serve dense two-dimensional `F32` tensors.  Every element of the result is the
sum of the elements that agree with it on the kept axes, and both ways give the same tensor
(`sumDim_reference`).
-/

namespace Rustorch
namespace Cpu

open Rustorch.Core List Outcome MixedRadix Layout
open LoopNest (indices)

/-! ## The kernels -/

section Model

variable {F : Type}

/-- `vec![init; n]`. -/
def filled (T : Dtype) (init : F) (n : Nat) : Outcome BackendError (List F) := do
  withCapacity T n
  pure (replicate n init)

/-- `reduce_dim`. -/
def reduceDim (T : Dtype) (src : Tensor F) (dims : List Nat) (keepdim : Bool) (init : F)
    (op : F → F → F) : Outcome BackendError (Tensor F) := do
  let buf ← collect T src
  let outShape := reducedShape src.shape dims keepdim
  let nOut := max (numel outShape) 1
  let out ← filled T init nOut
  let cells := (buf.zipIdx.take src.numel).map fun vl =>
    (flatIndex (reducedCoords (decodeCoords vl.2 src.shape) dims keepdim)
      (contiguousStrides outShape), vl.1)
  let out ← expect (Update.foldAt op cells out)
  fromVecOrOom T outShape out nOut

def meanDim [Field F] (src : Tensor F) (dims : List Nat) (keepdim : Bool) :
    Outcome BackendError (Tensor F) := do
  validateDims src dims "mean_dim"
  let n := (dims.map (fun d => src.shape.getD d 0)).prod
  if n = 0 then
    .err (.numericalError "mean over empty axis is NaN — refused")
  else
    match src.layout.dtype with
    | .f32 => mean .f32 n
    | .f64 => mean .f64 n
    | d => .err (.dtypeMismatch "mean_dim" d d)
where
  /-- The arm of one element type. -/
  mean (T : Dtype) (n : Nat) : Outcome BackendError (Tensor F) := do
    let s ← reduceDim T src dims keepdim 0 (· + ·)
    let data ← unwrap (s.asSlice T)
    mapErr (fun _ => .outOfMemory 0)
      (ofExcept (fromVecTyped T s.shape (data.map (· / (n : F)))))

/-- `&buf[r * cols..r * cols + cols]`. -/
def rowSlice (buf : List F) (cols r : Nat) : Outcome BackendError (List F) :=
  sliceRange buf (r * cols % u64Size) ((r * cols + cols) % u64Size)

variable [AddCommMonoid F]

/-- `sum_dim_2d_f32`; the inner option is the fallback to the generic path. -/
def sumDim2dF32 (src : Tensor F) (axis : Nat) (keepdim : Bool) :
    Option (Outcome BackendError (Tensor F)) :=
  let rows := src.shape.getD 0 0
  let cols := src.shape.getD 1 0
  match src.asSlice .f32 with
  | .err _ => none
  | .panic => some .panic
  | .ok buf =>
    if axis = 0 then
      some do
        let out ← filled .f32 0 cols
        let out ← (range rows).foldlM (fun out r => do
          let row ← rowSlice buf cols r
          pure (zipWith (· + ·) out row)) out
        fromVecOrOom .f32 (if keepdim then [1, cols] else [cols]) out cols
    else if axis = 1 then
      some do
        let _ ← filled .f32 (0 : F) rows
        let out ← (range rows).mapM fun r => do
          let row ← rowSlice buf cols r
          pure (row.foldl (· + ·) 0)
        fromVecOrOom .f32 (if keepdim then [rows, 1] else [rows]) out rows
    else
      none

/-- The element types that `sum_dim` has an arm for. -/
def summable (T : Dtype) : Bool :=
  T = .f32 ∨ T = .f64 ∨ T = .i64 ∨ T = .i32

/-- The `match` on the element type. -/
def sumDimGeneric (src : Tensor F) (dims : List Nat) (keepdim : Bool) :
    Outcome BackendError (Tensor F) :=
  if summable src.layout.dtype then
    reduceDim src.layout.dtype src dims keepdim 0 (· + ·)
  else
    .err (.dtypeMismatch "sum_dim" src.layout.dtype src.layout.dtype)

/-- The operands that the two-dimensional paths take. -/
abbrev TakesRows (src : Tensor F) (dims : List Nat) : Prop :=
  src.layout.dtype = .f32 ∧ src.shape.length = 2 ∧ dims.length = 1 ∧
    src.layout.isContiguous = true ∧ src.layout.storageOffset = 0

def sumDim (src : Tensor F) (dims : List Nat) (keepdim : Bool) :
    Outcome BackendError (Tensor F) := do
  validateDims src dims "sum_dim"
  if TakesRows src dims then
    match sumDim2dF32 src (dims.getD 0 0) keepdim with
    | some out => out
    | none => sumDimGeneric src dims keepdim
  else
    sumDimGeneric src dims keepdim

end Model

/-! ## Kept coordinates -/

/-- The coordinates on the axes that are not reduced. -/
def keptCoords (dims : List Nat) (I : List Nat) : List Nat :=
  I.zipIdx.filterMap fun ci => if ci.2 ∈ dims then none else some ci.1

/-- A multi-index of the input agrees with one of the output on the kept axes. -/
def Agrees (dims : List Nat) (keepdim : Bool) (J I : List Nat) : Bool :=
  keptCoords dims I = if keepdim then keptCoords dims J else J

/-- A list without its reduced entries, or with a fixed value in their places; `k` is the axis of
its first entry. -/
def reduceFrom (dims : List Nat) (keepdim : Bool) (fill k : Nat) (xs : List Nat) : List Nat :=
  (xs.zipIdx k).filterMap fun x =>
    if x.2 ∈ dims then
      if keepdim then some fill else none
    else
      some x.1

theorem reduceFrom_cons (dims : List Nat) (keepdim : Bool) (fill k x : Nat) (xs : List Nat) :
    reduceFrom dims keepdim fill k (x :: xs) =
      (if k ∈ dims then (if keepdim then [fill] else []) else [x]) ++
        reduceFrom dims keepdim fill (k + 1) xs := by
  rw [reduceFrom, zipIdx_cons, filterMap_cons, reduceFrom]
  by_cases hk : k ∈ dims
  · cases keepdim <;> simp [hk]
  · simp [hk]

theorem reducedShape_eq (S : Shape) (dims : List Nat) (keepdim : Bool) :
    reducedShape S dims keepdim = reduceFrom dims keepdim 1 0 S := by
  cases keepdim with
  | false => rfl
  | true =>
    rw [reducedShape, if_pos rfl, reduceFrom, ← filterMap_eq_map]
    refine filterMap_congr ?_
    intro x _
    by_cases hx : x.2 ∈ dims
    · simp [hx]
    · simp [hx]

theorem reducedCoords_eq (I : List Nat) (dims : List Nat) (keepdim : Bool) :
    reducedCoords I dims keepdim = reduceFrom dims keepdim 0 0 I :=
  rfl

variable {S I : List Nat}

theorem bounded_reduceFrom (dims : List Nat) (keepdim : Bool) (h : Bounded S I) :
    ∀ k : Nat, Bounded (reduceFrom dims keepdim 1 k S) (reduceFrom dims keepdim 0 k I) := by
  induction h with
  | nil =>
    intro k
    exact Forall₂.nil
  | @cons d c S I hc _ ih =>
    intro k
    rw [reduceFrom_cons, reduceFrom_cons]
    refine rel_append ?_ (ih (k + 1))
    by_cases hk : k ∈ dims
    · cases keepdim
      · simp [hk]
      · simp [hk]
    · simpa [hk] using hc

theorem inBounds_reducedCoords {S : Shape} (dims : List Nat) (keepdim : Bool) :
    InBounds S I → InBounds (reducedShape S dims keepdim) (reducedCoords I dims keepdim) := by
  intro h
  rw [reducedShape_eq]
  exact bounded_reduceFrom dims keepdim h 0

theorem prod_reduceFrom_pos (dims : List Nat) (keepdim : Bool) (h : ∀ d ∈ S, 0 < d) :
    ∀ k : Nat, 0 < (reduceFrom dims keepdim 1 k S).prod ∧
      (reduceFrom dims keepdim 1 k S).prod ≤ S.prod := by
  induction S with
  | nil =>
    intro k
    exact ⟨Nat.one_pos, le_rfl⟩
  | cons d S ih =>
    intro k
    obtain ⟨hpos, hle⟩ := ih (fun e he => h e (mem_cons_of_mem d he)) (k + 1)
    have hd := h d mem_cons_self
    rw [reduceFrom_cons, prod_append, prod_cons]
    by_cases hk : k ∈ dims
    · have hone : (if keepdim then [1] else ([] : List Nat)).prod = 1 := by
        cases keepdim <;> rfl
      rw [if_pos hk, hone, Nat.one_mul]
      exact ⟨hpos, hle.trans (Nat.le_mul_of_pos_left _ hd)⟩
    · rw [if_neg hk, prod_singleton]
      exact ⟨Nat.mul_pos hd hpos, Nat.mul_le_mul_left d hle⟩

/-- With the reduced axes kept at size 1, a multi-index of the output is determined by its kept
coordinates. -/
theorem reduceFrom_keepdim_iff (dims : List Nat) (h : Bounded S I) :
    ∀ (k : Nat) (J : List Nat), Bounded (reduceFrom dims true 1 k S) J →
      (reduceFrom dims true 0 k I = J ↔
        reduceFrom dims false 0 k I = reduceFrom dims false 0 k J) := by
  induction h with
  | nil =>
    intro k J hJ
    cases hJ
    simp [reduceFrom]
  | @cons d c S I hc _ ih =>
    intro k J hJ
    rw [reduceFrom_cons] at hJ
    by_cases hk : k ∈ dims
    · rw [if_pos hk, if_pos rfl, singleton_append, Bounded, forall₂_cons_left_iff] at hJ
      obtain ⟨b, J, hb, hJ, rfl⟩ := hJ
      rw [Nat.lt_one_iff.1 hb, reduceFrom_cons, reduceFrom_cons, reduceFrom_cons]
      simpa [hk] using ih (k + 1) J hJ
    · rw [if_neg hk, singleton_append, Bounded, forall₂_cons_left_iff] at hJ
      obtain ⟨b, J, hb, hJ, rfl⟩ := hJ
      rw [reduceFrom_cons, reduceFrom_cons, reduceFrom_cons]
      simp [hk, ih (k + 1) J hJ]

/-- The cell that a multi-index is added into is the one it agrees with. -/
theorem agrees_iff {S : Shape} {J : List Nat} {dims : List Nat} {keepdim : Bool} :
    InBounds S I → InBounds (reducedShape S dims keepdim) J →
      (Agrees dims keepdim J I = true ↔ reducedCoords I dims keepdim = J) := by
  intro hI hJ
  rw [reducedShape_eq] at hJ
  rw [Agrees, decide_eq_true_eq, reducedCoords_eq]
  cases keepdim with
  | false => exact Iff.rfl
  | true => exact (reduceFrom_keepdim_iff dims hI 0 J hJ).symm

/-! ## The generic path -/

section Generic

variable {F : Type} {src : Tensor F} {T : Dtype} {S : Shape} {f : Nat → F} {dims : List Nat}
  {keepdim : Bool}

/-- The output cell of a linear index. -/
def reducedCell (S : Shape) (dims : List Nat) (keepdim : Bool) (l : Nat) : Nat :=
  linearOf (reducedShape S dims keepdim) (reducedCoords (coordsOf S l) dims keepdim)

variable {init : F}

theorem filled_ok {n : Nat} (h : n * T.byteSize < 2 ^ 63) :
    filled T init n = .ok (replicate n init) := by
  rw [filled, withCapacity_ok h]
  rfl

/-- A vector that could be allocated. -/
theorem filled_bytes {n : Nat} {data : List F} :
    filled T init n = .ok data → n * T.byteSize < 2 ^ 63 := by
  intro h
  rw [filled, withCapacity] at h
  by_contra hbytes
  rw [if_neg hbytes] at h
  cases h

theorem reduceDim_eq {op : F → F → F} (h : Holds src T S f)
    (hpos : 0 < (reducedShape S dims keepdim).prod)
    (hbytes : (reducedShape S dims keepdim).prod * T.byteSize < 2 ^ 63) :
    reduceDim T src dims keepdim init op = .ok
      { storage := (range (reducedShape S dims keepdim).prod).map fun o =>
          (((range S.prod).filter fun l => reducedCell S dims keepdim l = o).map f).foldl op init
        layout := contiguous (reducedShape S dims keepdim) T } := by
  have hcell : ∀ l < S.prod,
      InBounds (reducedShape S dims keepdim) (reducedCoords (coordsOf S l) dims keepdim) := by
    intro l hl
    exact inBounds_reducedCoords dims keepdim (inBounds_coordsOf (not_mem_of_lt_prod hl))
  have hcells : ((((range S.prod).map f).zipIdx.take S.prod).map fun vl =>
      (flatIndex (reducedCoords (decodeCoords vl.2 S) dims keepdim)
        (contiguousStrides (reducedShape S dims keepdim)), vl.1)) =
      (range S.prod).map fun l => (reducedCell S dims keepdim l, f l) := by
    apply ext_getElem
    · simp
    · intro l hl _
      have hl : l < S.prod := by simpa using hl
      simp [flatIndex_eq (hcell l hl) (prod_lt_of_bytes hbytes), decodeCoords, reducedCell]
  have hfold := @Update.foldAt_replicate F op (reducedCell S dims keepdim) f S.prod
    (reducedShape S dims keepdim).prod init (fun l hl => linearOf_lt (hcell l hl))
  simp only [reduceDim, collect_holds h, h.shape, h.numel, numel_of_bytes hbytes,
    Nat.max_eq_left hpos, filled_ok hbytes, ok_bind, hcells, hfold, expect_some]
  exact (contiguous_fresh hbytes).1

/-- The sum of the elements of one output cell. -/
def cellSum [AddCommMonoid F] (S : Shape) (dims : List Nat) (keepdim : Bool) (f : Nat → F)
    (o : Nat) : F :=
  ∑ l ∈ (Finset.range S.prod).filter (fun l => reducedCell S dims keepdim l = o), f l

theorem reduceDim_sum [AddCommMonoid F] (h : Holds src T S f)
    (hpos : 0 < (reducedShape S dims keepdim).prod)
    (hbytes : (reducedShape S dims keepdim).prod * T.byteSize < 2 ^ 63) :
    reduceDim T src dims keepdim 0 (· + ·) = .ok
      { storage := (range (reducedShape S dims keepdim).prod).map (cellSum S dims keepdim f)
        layout := contiguous (reducedShape S dims keepdim) T } := by
  have hsum : ∀ o, (((range S.prod).filter fun l => reducedCell S dims keepdim l = o).map
      f).foldl (· + ·) 0 = cellSum S dims keepdim f o := by
    intro o
    rw [Update.foldl_add, zero_add, Update.sum_filter_range]
    rfl
  rw [reduceDim_eq h hpos hbytes]
  simp only [hsum]

/-- Reducing axes of nonempty tensors leaves nonempty tensors that are no larger. -/
theorem reducedShape_prod (h0 : 0 ∉ S) (dims : List Nat) (keepdim : Bool) :
    0 < (reducedShape S dims keepdim).prod ∧ (reducedShape S dims keepdim).prod ≤ S.prod := by
  rw [reducedShape_eq]
  refine prod_reduceFrom_pos dims keepdim ?_ 0
  intro d hd
  exact Nat.pos_of_ne_zero fun hz => h0 (hz ▸ hd)

end Generic

/-! ## The two-dimensional paths -/

section Rows

variable {F : Type} {src : Tensor F} {f : Nat → F} {rows cols : Nat}

variable {r c : Nat}

theorem rowSlice_eq (hr : r < rows) (hfit : rows * cols < u64Size) :
    rowSlice ((range (rows * cols)).map f) cols r =
      .ok ((range cols).map fun c => f (r * cols + c)) := by
  have hend : r * cols + cols ≤ rows * cols := by
    rw [← Nat.succ_mul]
    exact Nat.mul_le_mul_right cols hr
  have hlo : r * cols % u64Size = r * cols := Nat.mod_eq_of_lt (by omega)
  have hhi : (r * cols + cols) % u64Size = r * cols + cols := Nat.mod_eq_of_lt (by omega)
  rw [rowSlice, hlo, hhi, sliceRange, if_pos ⟨Nat.le_add_right _ _, by simpa using hend⟩]
  refine congrArg _ (ext_getElem ?_ ?_)
  · simp only [length_take, length_drop, length_map, length_range]
    omega
  · intro c _ _
    simp

variable [AddCommMonoid F]

theorem columns_loop (hfit : rows * cols < u64Size) :
    ∀ k ≤ rows, (range k).foldlM (fun out r => do
        let row ← rowSlice ((range (rows * cols)).map f) cols r
        pure (zipWith (· + ·) out row)) (replicate cols 0) =
      (.ok ((range cols).map fun c => ∑ r ∈ Finset.range k, f (r * cols + c)) :
        Outcome BackendError (List F)) := by
  intro k
  induction k with
  | zero =>
    intro _
    simp only [range_zero, foldlM_nil, Finset.range_zero, Finset.sum_empty,
      map_const', length_range, pure_eq]
  | succ k ih =>
    intro hk
    rw [range_succ, foldlM_append, ih (by omega), ok_bind, foldlM_cons,
      rowSlice_eq (by omega) hfit, ok_bind, pure_eq, ok_bind,
      foldlM_nil, pure_eq, zipWith_map, zipWith_self]
    refine congrArg _ (map_congr_left ?_)
    intro c _
    rw [Finset.sum_range_succ]

/-- A sum over the cells of a matrix that meet a condition. -/
theorem sum_filter_pair (p : Nat → Prop) [DecidablePred p] (f : Nat → F) :
    ∑ l ∈ (Finset.range [rows, cols].prod).filter p, f l =
      ∑ r ∈ Finset.range rows, ∑ c ∈ Finset.range cols,
        if p (r * cols + c) then f (r * cols + c) else 0 := by
  rw [Finset.sum_filter, ← sum_linearOf, LoopNest.sum_indices_cons]
  refine Finset.sum_congr rfl ?_
  intro r _
  rw [LoopNest.sum_indices_cons]
  refine Finset.sum_congr rfl ?_
  intro c _
  rw [LoopNest.sum_indices_nil, linearOf_pair]

section

variable (keepdim : Bool)

include keepdim

theorem reducedCell_pair (hr : r < rows) (hc : c < cols) :
    reducedCell [rows, cols] [0] keepdim (r * cols + c) = c ∧
      reducedCell [rows, cols] [1] keepdim (r * cols + c) = r := by
  rw [reducedCell, reducedCell, ← linearOf_pair rows cols, coordsOf_linearOf (inBounds_pair hr hc)]
  cases keepdim
  · simp [reducedShape, reducedCoords, linearOf, value]
  · simp [reducedShape, reducedCoords, linearOf, value]

theorem cellSum_column (hc : c < cols) :
    cellSum [rows, cols] [0] keepdim f c = ∑ r ∈ Finset.range rows, f (r * cols + c) := by
  rw [cellSum, sum_filter_pair]
  refine Finset.sum_congr rfl ?_
  intro r hr
  rw [Finset.sum_eq_single c]
  · rw [if_pos (reducedCell_pair keepdim (Finset.mem_range.1 hr) hc).1]
  · intro b hb hbc
    rw [(reducedCell_pair keepdim (Finset.mem_range.1 hr) (Finset.mem_range.1 hb)).1, if_neg hbc]
  · intro hnot
    exact absurd (Finset.mem_range.2 hc) hnot

theorem cellSum_row (hr : r < rows) :
    cellSum [rows, cols] [1] keepdim f r = ∑ c ∈ Finset.range cols, f (r * cols + c) := by
  rw [cellSum, sum_filter_pair, Finset.sum_eq_single r]
  · refine Finset.sum_congr rfl ?_
    intro c hc
    rw [if_pos (reducedCell_pair keepdim hr (Finset.mem_range.1 hc)).2]
  · intro b hb hbr
    refine Finset.sum_eq_zero ?_
    intro c hc
    rw [(reducedCell_pair keepdim (Finset.mem_range.1 hb) (Finset.mem_range.1 hc)).2, if_neg hbr]
  · intro hnot
    exact absurd (Finset.mem_range.2 hr) hnot

theorem reducedShape_column :
    reducedShape [rows, cols] [0] keepdim = if keepdim then [1, cols] else [cols] := by
  cases keepdim <;> rfl

theorem reducedShape_row :
    reducedShape [rows, cols] [1] keepdim = if keepdim then [rows, 1] else [rows] := by
  cases keepdim <;> rfl

end

theorem sumDim2dF32_eq (h : Fresh src .f32 [rows, cols] f) {axis : Nat} {keepdim : Bool}
    (haxis : axis < 2)
    (hbytes : (reducedShape [rows, cols] [axis] keepdim).prod * Dtype.byteSize .f32 < 2 ^ 63) :
    sumDim2dF32 src axis keepdim = some (.ok
      { storage := (range (reducedShape [rows, cols] [axis] keepdim).prod).map
          (cellSum [rows, cols] [axis] keepdim f)
        layout := contiguous (reducedShape [rows, cols] [axis] keepdim) .f32 }) := by
  have hfit : rows * cols < u64Size := by
    have hlt := prod_lt_of_bytes h.bytes
    rwa [prod_cons, prod_singleton] at hlt
  have hbuf : src.asSlice .f32 = .ok ((range (rows * cols)).map f) := by
    rw [h.asSlice, prod_cons, prod_singleton]
  have hfin := @contiguous_fresh F .f32 (reducedShape [rows, cols] [axis] keepdim)
    (cellSum [rows, cols] [axis] keepdim f)
  have hcase : axis = 0 ∨ axis = 1 := by omega
  -- axis 0 adds row after row into the columns; axis 1 folds each row
  rcases hcase with rfl | rfl
  · have hprod : (reducedShape [rows, cols] [0] keepdim).prod = cols := by
      cases keepdim <;> simp [reducedShape]
    have hvalues : (range cols).map (fun c => ∑ r ∈ Finset.range rows, f (r * cols + c)) =
        (range cols).map (cellSum [rows, cols] [0] keepdim f) := by
      refine map_congr_left ?_
      intro c hc
      rw [cellSum_column keepdim (mem_range.1 hc)]
    have hfresh := (@hfin cols hbytes).1
    rw [hprod] at hfresh hbytes ⊢
    simp only [sumDim2dF32, hbuf, h.shape, getD_cons_zero, getD_cons_succ, if_true,
      filled_ok hbytes, ok_bind, columns_loop hfit rows le_rfl, hvalues,
      ← @reducedShape_column rows, hfresh]
  · have hprod : (reducedShape [rows, cols] [1] keepdim).prod = rows := by
      cases keepdim <;> simp [reducedShape]
    have hloop : (range rows).mapM (fun r => do
        let row ← rowSlice ((range (rows * cols)).map f) cols r
        pure (row.foldl (· + ·) 0)) =
        (.ok ((range rows).map (cellSum [rows, cols] [1] keepdim f)) :
          Outcome BackendError (List F)) := by
      refine mapM_eq_ok ?_
      intro r hr
      have hr := mem_range.1 hr
      rw [rowSlice_eq hr hfit, ok_bind, Update.foldl_add, zero_add, cellSum_row keepdim hr]
      rfl
    have hfresh := (@hfin rows hbytes).1
    rw [hprod] at hfresh hbytes ⊢
    simp only [sumDim2dF32, hbuf, h.shape, getD_cons_zero, getD_cons_succ, if_true,
      one_ne_zero, if_false, filled_ok hbytes, ok_bind, hloop,
      ← @reducedShape_row _ cols, hfresh]

end Rows

/-! ## Both ways -/

section Reference

variable {F : Type} {src : Tensor F} {T : Dtype} {S : Shape} {f : Nat → F} {dims : List Nat}
  {keepdim : Bool}

theorem validateDims_ok {op : String} (hdims : ∀ d ∈ dims, d < src.shape.length) :
    validateDims src dims op = .ok () := by
  have hnone : dims.find? (fun d => decide (src.shape.length ≤ d)) = none := by
    rw [find?_eq_none]
    intro d hd
    simpa using hdims d hd
  rw [validateDims, hnone]

variable [AddCommMonoid F]

/-- The two-dimensional paths, for the operands that they take. -/
theorem sumDim2dF32_takes (h : Holds src T S f) (hdims : ∀ d ∈ dims, d < S.length)
    (hbytes : (reducedShape S dims keepdim).prod * T.byteSize < 2 ^ 63) :
    TakesRows src dims → sumDim2dF32 src (dims.getD 0 0) keepdim = some (.ok
      { storage := (range (reducedShape S dims keepdim).prod).map (cellSum S dims keepdim f)
        layout := contiguous (reducedShape S dims keepdim) T }) := by
  rintro ⟨hdtype, hrank, hone, hflag, hoff⟩
  obtain ⟨axis, rfl⟩ := length_eq_one_iff.1 hone
  rw [h.shape] at hrank
  obtain ⟨rows, cols, rfl⟩ := length_eq_two.1 hrank
  obtain rfl : T = .f32 := h.dtype.symm.trans hdtype
  exact sumDim2dF32_eq ⟨h.dense hflag, hoff⟩ (hdims axis mem_cons_self) hbytes

theorem sumDim_eq (h : Holds src T S f) (harm : summable T = true)
    (hdims : ∀ d ∈ dims, d < S.length)
    (hbytes : (reducedShape S dims keepdim).prod * T.byteSize < 2 ^ 63)
    (hpos : TakesRows src dims ∨ 0 < (reducedShape S dims keepdim).prod) :
    sumDim src dims keepdim = .ok
      { storage := (range (reducedShape S dims keepdim).prod).map (cellSum S dims keepdim f)
        layout := contiguous (reducedShape S dims keepdim) T } := by
  rw [sumDim, validateDims_ok (by rwa [h.shape]), ok_bind]
  by_cases hrows : TakesRows src dims
  · rw [if_pos hrows, sumDim2dF32_takes h hdims hbytes hrows]
  · rw [if_neg hrows, sumDimGeneric, h.dtype, if_pos harm,
      reduceDim_sum h (hpos.resolve_left hrows) hbytes]

variable {out : Tensor F}

/-- A two-dimensional path returns a tensor of the reduced shape. -/
theorem sumDim2dF32_shape {axis : Nat} (hrank : src.shape.length = 2) :
    sumDim2dF32 src axis keepdim = some (.ok out) →
      out.shape = reducedShape src.shape [axis] keepdim ∧ out.layout.dtype = .f32 := by
  intro h
  obtain ⟨rows, cols, hshape⟩ := length_eq_two.1 hrank
  rw [sumDim2dF32, hshape] at h
  rw [hshape]
  split at h
  · cases h
  · cases h
  · by_cases h0 : axis = 0
    · subst h0
      rw [if_pos rfl, Option.some.injEq, bind_eq_ok] at h
      obtain ⟨_, _, h⟩ := h
      obtain ⟨data, _, h⟩ := bind_eq_ok.1 h
      rw [fromVecOrOom_eq_ok h, reducedShape_column]
      exact ⟨shape_contiguous _ .f32, rfl⟩
    · by_cases h1 : axis = 1
      · subst h1
        rw [if_neg h0, if_pos rfl, Option.some.injEq, bind_eq_ok] at h
        obtain ⟨_, _, h⟩ := h
        obtain ⟨data, _, h⟩ := bind_eq_ok.1 h
        rw [fromVecOrOom_eq_ok h, reducedShape_row]
        exact ⟨shape_contiguous _ .f32, rfl⟩
      · rw [if_neg h0, if_neg h1] at h
        cases h

theorem sumDim_eq_ok : sumDim src dims keepdim = .ok out →
      out.shape = reducedShape src.shape dims keepdim ∧ out.layout.dtype = src.layout.dtype ∧
        summable src.layout.dtype = true := by
  intro h
  have hgeneric : sumDimGeneric src dims keepdim = .ok out →
      out.shape = reducedShape src.shape dims keepdim ∧ out.layout.dtype = src.layout.dtype ∧
        summable src.layout.dtype = true := by
    intro h
    rw [sumDimGeneric] at h
    split_ifs at h with harm
    rw [reduceDim, bind_eq_ok] at h
    obtain ⟨_, _, h⟩ := h
    obtain ⟨_, _, h⟩ := bind_eq_ok.1 h
    obtain ⟨data, _, h⟩ := bind_eq_ok.1 h
    rw [fromVecOrOom_eq_ok h]
    exact ⟨shape_contiguous _ _, rfl, harm⟩
  rw [sumDim, bind_eq_ok] at h
  obtain ⟨_, _, h⟩ := h
  split_ifs at h with hrows
  · obtain ⟨axis, rfl⟩ := length_eq_one_iff.1 hrows.2.2.1
    split at h
    · rename_i path hpath
      rw [h, getD_cons_zero] at hpath
      obtain ⟨hshape, hdtype⟩ := sumDim2dF32_shape hrows.2.1 hpath
      refine ⟨hshape, hdtype.trans hrows.1.symm, ?_⟩
      rw [hrows.1]
      rfl
    · exact hgeneric h
  · exact hgeneric h

theorem cellSum_agrees (h : Holds src T S f) {J : List Nat}
    (hJ : InBounds (reducedShape S dims keepdim) J) :
    ∃ vs, ((indices S).filter (Agrees dims keepdim J)).mapM (elementAt src) = some vs ∧
      cellSum S dims keepdim f (linearOf (reducedShape S dims keepdim) J) = vs.sum := by
  refine ⟨_, elements_at_filter h
    (q := fun l => reducedCell S dims keepdim l = linearOf (reducedShape S dims keepdim) J) ?_,
    (Update.sum_filter_range _ f S.prod).symm⟩
  intro l hl
  have hI : InBounds S (coordsOf S l) := inBounds_coordsOf (not_mem_of_lt_prod hl)
  rw [agrees_iff hI hJ, reducedCell]
  constructor
  · intro hcoords
    rw [hcoords]
  · intro hcell
    rw [← coordsOf_linearOf (inBounds_reducedCoords dims keepdim hI), hcell, coordsOf_linearOf hJ]

/-- `sum_dim` returns the reference sums, and the two-dimensional paths return what the generic
path does. -/
theorem sumDim_reference :
    Reachable src → 0 ∉ src.shape → summable src.layout.dtype = true →
      (∀ d ∈ dims, d < src.shape.length) →
        (∃ out, sumDim src dims keepdim = .ok out ∧
          out.shape = reducedShape src.shape dims keepdim ∧ out.layout.dtype = src.layout.dtype ∧
            ∀ J, InBounds out.shape J → ∃ vs,
              ((indices src.shape).filter (Agrees dims keepdim J)).mapM (elementAt src) = some vs ∧
                elementAt out J = some vs.sum) ∧
          (TakesRows src dims → sumDim2dF32 src (dims.getD 0 0) keepdim =
            some (reduceDim .f32 src dims keepdim 0 (· + ·))) := by
  intro hreach h0 harm hdims
  let _ : Inhabited F := ⟨0⟩
  obtain ⟨f, hf⟩ := reachable_holds hreach
  obtain ⟨hpos, hle⟩ := reducedShape_prod h0 dims keepdim
  have hbytes := lt_of_le_of_lt (Nat.mul_le_mul_right src.layout.dtype.byteSize hle) hf.bytes
  have hfresh := (@contiguous_fresh F src.layout.dtype (reducedShape src.shape dims keepdim)
    (cellSum src.shape dims keepdim f) 0 hbytes).2
  refine ⟨⟨_, sumDim_eq hf harm hdims hbytes (Or.inr hpos), hfresh.shape, hfresh.dtype, ?_⟩, ?_⟩
  · intro J hJ
    rw [hfresh.shape] at hJ
    obtain ⟨vs, hvs, hsum⟩ := cellSum_agrees hf hJ
    exact ⟨vs, hvs, by rw [elementAt_holds hfresh.holds hJ, hsum]⟩
  · intro hrows
    rw [sumDim2dF32_takes hf hdims hbytes hrows, ← hrows.1, reduceDim_sum hf hpos hbytes]

/-! ## Means -/

section Mean

variable {F : Type} [Field F] {x : Tensor F} {T : Dtype} {S L : Shape} {D : Nat} {dims : List Nat}
  {a : Nat → F}

theorem prod_sizes_ne_zero (h0 : 0 ∉ S) (hdims : ∀ d ∈ dims, d < S.length) :
    (dims.map fun d => S.getD d 0).prod ≠ 0 := by
  rw [Ne, prod_eq_zero_iff, mem_map]
  rintro ⟨d, hd, hzero⟩
  have hlt := hdims d hd
  rw [getD_eq_getElem _ _ hlt] at hzero
  exact h0 (hzero ▸ getElem_mem hlt)

theorem meanDim_fresh (hx : Dense x T S a) (hT : T = .f32 ∨ T = .f64) (h0 : 0 ∉ S)
    (hdims : ∀ d ∈ dims, d < S.length) :
    ∃ out, meanDim x dims true = .ok out ∧ Fresh out T (reducedShape S dims true) (fun o =>
      cellSum S dims true a o / ((dims.map fun d => S.getD d 0).prod : Nat)) := by
  obtain ⟨hpos, hle⟩ := reducedShape_prod h0 dims true
  have hbytes : (reducedShape S dims true).prod * T.byteSize < 2 ^ 63 :=
    lt_of_le_of_lt (Nat.mul_le_mul_right _ hle) hx.bytes
  obtain ⟨out, hout, hfresh⟩ := @fromVecTyped_fresh F T (reducedShape S dims true) (fun o =>
    cellSum S dims true a o / ((dims.map fun d => S.getD d 0).prod : Nat)) hbytes
  refine ⟨out, ?_, hfresh⟩
  have hvalid : validateDims x dims "mean_dim" = .ok () :=
    validateDims_ok fun d hd => hx.shape.symm ▸ hdims d hd
  have hsum := @reduceDim_sum F x T S a dims true _ hx.holds hpos hbytes
  have hsumf := @fresh_contiguous F T (reducedShape S dims true) (cellSum S dims true a) hbytes
  have harm : meanDim.mean x dims true T (dims.map fun d => S.getD d 0).prod = .ok out := by
    rw [meanDim.mean, hsum, ok_bind, hsumf.asSlice]
    simp only [unwrap_ok, ok_bind, map_map]
    change mapErr _ (ofExcept (fromVecTyped T (shape _) _)) = _
    rw [shape_contiguous]
    change mapErr _ (ofExcept (fromVecTyped T (reducedShape S dims true)
      ((range (reducedShape S dims true).prod).map fun o =>
        cellSum S dims true a o / ((dims.map fun d => S.getD d 0).prod : Nat)))) = _
    rw [hout]
    rfl
  rw [meanDim, hvalid, ok_bind, hx.shape, if_neg (prod_sizes_ne_zero h0 hdims), hx.dtype]
  rcases hT with rfl | rfl
  · exact harm
  · exact harm

theorem reduceFrom_last (fill d : Nat) (ds : List Nat) :
    ∀ k, reduceFrom [k + ds.length] true fill k (ds ++ [d]) = ds ++ [fill] := by
  induction ds with
  | nil => exact fun k => by simp [reduceFrom]
  | cons e ds ih =>
    intro k
    have hrest := ih (k + 1)
    rw [Nat.add_right_comm] at hrest
    rw [cons_append, reduceFrom_cons, length_cons, ← Nat.add_assoc, hrest,
      if_neg (by rw [mem_singleton]; omega)]
    rfl

theorem reducedShape_last (L : Shape) (D : Nat) :
    reducedShape (L ++ [D]) [L.length] true = L ++ [1] := by
  rw [reducedShape_eq, ← reduceFrom_last 1 D L 0, Nat.zero_add]

theorem reducedCell_last {l : Nat} (hl : l < (L ++ [D]).prod) :
    reducedCell (L ++ [D]) [L.length] true l = l / D := by
  have hcoords := reduceFrom_last 0 (l % D) (coordsOf L (l / D)) 0
  rw [length_coordsOf, Nat.zero_add] at hcoords
  rw [reducedCell, reducedShape_last, coordsOf_concat, reducedCoords_eq, hcoords, linearOf_concat,
    linearOf_coordsOf (div_lt_of_lt_prod hl), Nat.zero_add, Nat.one_mul]

theorem cellSum_last (hD : 0 < D) {o : Nat} (ho : o < L.prod) :
    cellSum (L ++ [D]) [L.length] true a o = ∑ c ∈ Finset.range D, a (o * D + c) := by
  have hrow : (Finset.range (L ++ [D]).prod).filter
      (fun l => reducedCell (L ++ [D]) [L.length] true l = o) = Finset.Ico (o * D) (o * D + D) := by
    ext l
    rw [Finset.mem_filter, Finset.mem_range, Finset.mem_Ico]
    constructor
    · rintro ⟨hl, hcell⟩
      rw [reducedCell_last hl, Nat.div_eq_iff hD] at hcell
      omega
    · intro hl
      have hin : l < (L ++ [D]).prod := by
        rw [prod_concat]
        exact hl.2.trans_le (Nat.succ_mul o D ▸ Nat.mul_le_mul_right D ho)
      refine ⟨hin, ?_⟩
      rw [reducedCell_last hin, Nat.div_eq_iff hD]
      omega
  rw [cellSum, hrow, Finset.sum_Ico_eq_sum_range, Nat.add_sub_cancel_left]

/-- The mean of every row. -/
theorem meanDim_dense (ha : Dense x .f32 (L ++ [D]) a) (hD : 0 < D) (hL : 0 ∉ L) :
    ∃ out, meanDim x [L.length] true = .ok out ∧
      Fresh out .f32 (L ++ [1]) (fun o => (∑ c ∈ Finset.range D, a (o * D + c)) / (D : F)) := by
  have h0 : 0 ∉ L ++ [D] := by simp [hL, hD.ne]
  obtain ⟨out, hout, hf⟩ := @meanDim_fresh F _ x .f32 _ [L.length] a ha (Or.inl rfl) h0 (by simp)
  rw [reducedShape_last] at hf
  refine ⟨out, hout, ⟨hf.toDense.of_eq fun o ho => ?_, hf.offset⟩⟩
  rw [cellSum_last hD (by simpa using ho)]
  simp

end Mean

/-- The rows 1 2 and 3 4, of a given element type. -/
def twoRows (T : Dtype) : Tensor Int where
  storage := [1, 2, 3, 4]
  layout := contiguous [2, 2] T

theorem twoRows_reachable : Reachable (twoRows .f32) :=
  @Reachable.fromVecTyped Int .f32 [2, 2] [1, 2, 3, 4] (twoRows .f32) (by decide) (by decide) rfl

theorem sumDim_reference_twoRows :
    (∃ out, sumDim (twoRows .f32) [0] true = .ok out ∧
      out.shape = reducedShape (twoRows .f32).shape [0] true ∧ out.layout.dtype = .f32 ∧
        ∀ J, InBounds out.shape J → ∃ vs,
          ((indices (twoRows .f32).shape).filter (Agrees [0] true J)).mapM
            (elementAt (twoRows .f32)) = some vs ∧ elementAt out J = some vs.sum) ∧
      (TakesRows (twoRows .f32) [0] → sumDim2dF32 (twoRows .f32) ([0].getD 0 0) true =
        some (reduceDim .f32 (twoRows .f32) [0] true 0 (· + ·))) :=
  sumDim_reference twoRows_reachable (by decide) rfl (by decide)

/-- `sum_dim` has no arm for `I8`. -/
theorem sumDim_i8_rejected : ¬ ∃ out, sumDim (twoRows .i8) [0] true = .ok out := by
  rintro ⟨out, hout⟩
  have herr : sumDim (twoRows .i8) [0] true = .err (.dtypeMismatch "sum_dim" .i8 .i8) := rfl
  rw [herr] at hout
  cases hout

end Reference

end Cpu
end Rustorch
