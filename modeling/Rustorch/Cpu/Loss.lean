import Rustorch.Cpu.Ctc
import Rustorch.Cpu.SoftmaxFinite

/-!
# Losses

`mse_loss` has a fused path for contiguous `F32` operands that are reduced, and a plain one;
`cross_entropy` takes the logarithms of the softmax at the target classes.  Both reduce by a mean or
a sum; only `mse_loss` keeps the elements apart, and `reduce_per_sample` has no arm for it.
-/

namespace Rustorch
namespace Cpu

open Rustorch.Core List Outcome Extended Chunks
open OnlineSoftmax (ExpLaws)

/-! ## Reductions and the squared error -/

section Model

variable {V : Type} [Zero V] [Add V] [Div V]

/-- `reduce_per_sample_f32` and `reduce_per_sample_f64`. -/
def reducePerSample (nan : V) (count : Nat → V) (T : Dtype) (per : List V) :
    Reduction → Outcome BackendError (Tensor V)
  | .mean =>
    fromVecOrOom T []
      [if per.length = 0 then nan else per.foldl (· + ·) 0 / count per.length] 1
  | .sum => fromVecOrOom T [] [per.foldl (· + ·) 0] 1
  | .none => .panic

variable [Sub V] [Mul V]

def squaredError (x t : V) : V :=
  (x - t) * (x - t)

def mseParallelThreshold : Nat := 16384

def mseChunk : Nat := 8192

/-- `mse_f32_fused`. -/
def mseF32Fused (count : Nat → V) (xs ts : List V) (reduction : Reduction) :
    Outcome BackendError (Tensor V) := do
  let total :=
    if xs.length < mseParallelThreshold then
      (zipWith squaredError xs ts).foldl (· + ·) 0
    else
      (zipWith (fun x t => (zipWith squaredError x t).foldl (· + ·) 0)
        (chunks mseChunk xs) (chunks mseChunk ts)).foldl (· + ·) 0
  match reduction with
  | .mean => fromVecOrOom .f32 [1] [total / count xs.length] 1
  | .sum => fromVecOrOom .f32 [1] [total] 1
  | .none => .panic

/-- The path through the elements, which is `mse_f64`. -/
def msePlain (nan : V) (count : Nat → V) (T : Dtype) (input target : Tensor V)
    (reduction : Reduction) : Outcome BackendError (Tensor V) := do
  let xs ← collect T input
  let ts ← collect T target
  let per := zipWith squaredError xs ts
  match reduction with
  | .none => fromVecOrOom T input.shape per 0
  | _ => reducePerSample nan count T per reduction

/-- The operands that the fused path takes. -/
abbrev TakesFused (input target : Tensor V) (reduction : Reduction) : Prop :=
  reduction ≠ .none ∧ input.layout.isContiguous = true ∧ target.layout.isContiguous = true ∧
    input.layout.storageOffset = 0 ∧ target.layout.storageOffset = 0

def mseF32 (nan : V) (count : Nat → V) (input target : Tensor V) (reduction : Reduction) :
    Outcome BackendError (Tensor V) :=
  if TakesFused input target reduction then
    match input.asSlice .f32, target.asSlice .f32 with
    | .ok xs, .ok ts => mseF32Fused count xs ts reduction
    | .panic, _ => .panic
    | _, .panic => .panic
    | _, _ => msePlain nan count .f32 input target reduction
  else
    msePlain nan count .f32 input target reduction

def mseLoss (nan : V) (count : Nat → V) (input target : Tensor V) (reduction : Reduction) :
    Outcome BackendError (Tensor V) :=
  if input.shape ≠ target.shape then
    .err (.shapeMismatch "mse_loss" input.shape target.shape)
  else if input.layout.dtype ≠ target.layout.dtype then
    .err (.dtypeMismatch "mse_loss" input.layout.dtype target.layout.dtype)
  else
    match input.layout.dtype with
    | .f32 => mseF32 nan count input target reduction
    | .f64 => msePlain nan count .f64 input target reduction
    | d => .err (.dtypeMismatch "mse_loss" d d)

end Model

/-! ## Cross-entropy -/

section CrossEntropy

variable {V : Type} [Zero V] [Add V] [Div V] [Neg V]

def isFloat (T : Dtype) : Bool :=
  T = .f32 ∨ T = .f64

/-- The loop over the samples. -/
def nllPerSample (lp : List V) (targetV : List Int) (nSamples nClasses : Nat) :
    Outcome BackendError (List V) :=
  (range nSamples).mapM fun i => do
    let t ← Outcome.expect targetV[i]?
    if t < 0 ∨ nClasses ≤ t.toNat then
      .err (.indexOutOfBounds "nll_loss" t nClasses)
    else do
      let v ← Outcome.expect lp[i * nClasses + t.toNat]?
      pure (-v)

def nllLoss (nan : V) (count : Nat → V) (logProbs : Tensor V) (target : Tensor Int)
    (reduction : Reduction) : Outcome BackendError (Tensor V) :=
  if ¬ isFloat logProbs.layout.dtype then
    .err (.dtypeMismatch "nll_loss" logProbs.layout.dtype .f32)
  else if target.layout.dtype ≠ .i64 then
    .err (.dtypeMismatch "nll_loss" target.layout.dtype .i64)
  else if logProbs.shape.length ≠ 2 then
    .err (.shapeMismatch "nll_loss" logProbs.shape [])
  else if target.numel ≠ logProbs.shape.getD 0 0 then
    .err (.shapeMismatch "nll_loss" logProbs.shape target.shape)
  else do
    let targetV ← collect .i64 target
    let lp ← collect logProbs.layout.dtype logProbs
    withCapacity logProbs.layout.dtype (logProbs.shape.getD 0 0)
    let perSample ← nllPerSample lp targetV (logProbs.shape.getD 0 0) (logProbs.shape.getD 1 0)
    reducePerSample nan count logProbs.layout.dtype perSample reduction

variable {D : Type} [CommRing D] [Div D] [LT D] [DecidableLT D] [DecidableEq D]

def crossEntropy (exp ln : D → D) (input : Tensor (Extended D)) (target : Tensor Int)
    (reduction : Reduction) : Outcome BackendError (Tensor (Extended D)) :=
  if ¬ isFloat input.layout.dtype then
    .err (.dtypeMismatch "cross_entropy" input.layout.dtype .f32)
  else if target.layout.dtype ≠ .i64 then
    .err (.dtypeMismatch "cross_entropy" target.layout.dtype .i64)
  else if input.shape.length ≠ 2 then
    .err (.shapeMismatch "cross_entropy" input.shape [])
  else if target.shape.length ≠ 1 ∨ target.numel ≠ input.shape.getD 0 0 then
    .err (.shapeMismatch "cross_entropy" input.shape target.shape)
  else do
    let logProbs ← logSoftmax exp ln input 1
    @nllLoss _ ⟨.fin 0⟩ _ _ _ .nan (fun n => .fin n) logProbs target reduction

end CrossEntropy

/-! ## The values of the losses -/

section Values

variable {V : Type} [AddCommMonoid V] [Div V] {count : Nat → V} {nan : V} {T : Dtype}

/-- What the elements `per` reduce to. -/
def lossValue (count : Nat → V) (reduction : Reduction) (n : Nat) (per : Nat → V) (l : Nat) : V :=
  match reduction with
  | .none => per l
  | .sum => ∑ i ∈ Finset.range n, per i
  | .mean => (∑ i ∈ Finset.range n, per i) / count n

omit [Div V] in
theorem foldl_map_range (per : Nat → V) (n : Nat) :
    ((range n).map per).foldl (· + ·) 0 = ∑ i ∈ Finset.range n, per i := by
  rw [Update.foldl_add, zero_add]
  rfl

theorem reducePerSample_ok {reduction : Reduction} (hred : reduction ≠ .none) {n : Nat}
    (hn : 0 < n) (per : Nat → V) :
    ∃ out, reducePerSample nan count T ((range n).map per) reduction = .ok out ∧
      Fresh out T [] (lossValue count reduction n per) := by
  have hbytes : ([] : Shape).prod * T.byteSize < 2 ^ 63 := by
    cases T <;> decide
  have hlen : ((range n).map per).length = n := by simp
  cases reduction with
  | mean =>
    rw [reducePerSample, hlen, if_neg hn.ne', foldl_map_range]
    exact @fromVecOrOom_fresh V T [] (lossValue count .mean n per) 1 hbytes
  | sum =>
    rw [reducePerSample, foldl_map_range]
    exact @fromVecOrOom_fresh V T [] (lossValue count .sum n per) 1 hbytes
  | none => exact absurd rfl hred

end Values

section Mse

variable {V : Type} [CommRing V] [Div V] {count : Nat → V} {nan : V} {S : Shape}
  {input target : Tensor V} {e h : Nat → V}

/-- The shape of the loss. -/
def lossShape {α : Type} (reduction : Reduction) (input target : Tensor α) : Shape :=
  match reduction with
  | .none => input.shape
  | _ =>
    if input.layout.dtype = .f32 ∧ input.layout.isContiguous = true ∧
        target.layout.isContiguous = true ∧ input.layout.storageOffset = 0 ∧
        target.layout.storageOffset = 0 then
      [1]
    else
      []

theorem zipWith_map_range {α β γ : Type} (op : α → β → γ) (f : Nat → α) (g : Nat → β) (n : Nat) :
    zipWith op ((range n).map f) ((range n).map g) = (range n).map fun i => op (f i) (g i) := by
  rw [zipWith_map, zipWith_self]

variable {reduction : Reduction}

/-- The chunks add up to the same sum. -/
theorem mseF32Fused_ok (hred : reduction ≠ .none) (n : Nat) (e h : Nat → V) :
    ∃ out, mseF32Fused count ((range n).map e) ((range n).map h) reduction = .ok out ∧
      Fresh out .f32 [1] (lossValue count reduction n fun i => squaredError (e i) (h i)) := by
  have hlen : ((range n).map e).length = n := by simp
  have hchunks : (zipWith (fun x t => (zipWith squaredError x t).foldl (· + ·) 0)
      (chunks mseChunk ((range n).map e))
      (chunks mseChunk ((range n).map h))).foldl (· + ·) 0 =
      ∑ i ∈ Finset.range n, squaredError (e i) (h i) := by
    have hflat := flatten_zipWith_chunks (c := mseChunk) (by decide) squaredError
      ((range n).map e) ((range n).map h) (by simp)
    rw [zipWith_map_range] at hflat
    calc
      _ = ((zipWith (zipWith squaredError)
            (chunks mseChunk ((range n).map e))
            (chunks mseChunk ((range n).map h))).map sum).sum := by
            rw [Update.foldl_add, zero_add, map_zipWith]
            simp only [Update.foldl_add, zero_add]
      _ = _ := by
            rw [← sum_flatten, hflat]
            rfl
  have htotal : (if ((range n).map e).length < mseParallelThreshold then
      (zipWith squaredError ((range n).map e) ((range n).map h)).foldl (· + ·) 0
    else
      (zipWith (fun x t => (zipWith squaredError x t).foldl (· + ·) 0)
        (chunks mseChunk ((range n).map e))
        (chunks mseChunk ((range n).map h))).foldl (· + ·) 0) =
      ∑ i ∈ Finset.range n, squaredError (e i) (h i) := by
    split_ifs
    · rw [zipWith_map_range]
      exact foldl_map_range _ n
    · exact hchunks
  cases reduction with
  | mean =>
    simp only [mseF32Fused, htotal]
    rw [hlen]
    exact @fromVecOrOom_fresh V .f32 [1]
      (lossValue count .mean n fun i => squaredError (e i) (h i)) 1 (by decide)
  | sum =>
    simp only [mseF32Fused, htotal]
    exact @fromVecOrOom_fresh V .f32 [1]
      (lossValue count .sum n fun i => squaredError (e i) (h i)) 1 (by decide)
  | none => exact absurd rfl hred

theorem msePlain_ok {T : Dtype} (hx : Holds input T S e) (ht : Holds target T S h) (hS : 0 < S.prod) :
    ∃ out, msePlain nan count T input target reduction = .ok out ∧
      Fresh out T (if reduction = .none then S else [])
        (lossValue count reduction S.prod fun i => squaredError (e i) (h i)) := by
  simp only [msePlain, collect_holds hx, collect_holds ht, ok_bind, zipWith_map_range, hx.shape]
  cases reduction with
  | none =>
    exact @fromVecOrOom_fresh V T S (fun i => squaredError (e i) (h i)) 0 hx.bytes
  | sum =>
    exact reducePerSample_ok (by simp) hS _
  | mean =>
    exact reducePerSample_ok (by simp) hS _

theorem mseLoss_f32 (hx : Holds input .f32 S e) (ht : Holds target .f32 S h) (hS : 0 < S.prod) :
    ∃ out, mseLoss nan count input target reduction = .ok out ∧
      Fresh out .f32 (lossShape reduction input target)
        (lossValue count reduction S.prod fun i => squaredError (e i) (h i)) := by
  have hcall : mseLoss nan count input target reduction =
      mseF32 nan count input target reduction := by
    rw [mseLoss, hx.shape, ht.shape, hx.dtype, ht.dtype, if_neg (not_not.2 rfl),
      if_neg (not_not.2 rfl)]
  rw [hcall, mseF32]
  by_cases hfused : TakesFused input target reduction
  · obtain ⟨hred, hcx, hct, hox, hot⟩ := hfused
    have hxs := (⟨hx.dense hcx, hox⟩ : Fresh input .f32 S e).asSlice
    have hts := (⟨ht.dense hct, hot⟩ : Fresh target .f32 S h).asSlice
    have hshape : lossShape reduction input target = [1] := by
      have hconds : input.layout.dtype = .f32 ∧ input.layout.isContiguous = true ∧
          target.layout.isContiguous = true ∧ input.layout.storageOffset = 0 ∧
          target.layout.storageOffset = 0 := ⟨hx.dtype, hcx, hct, hox, hot⟩
      cases reduction with
      | none => exact absurd rfl hred
      | sum => exact if_pos hconds
      | mean => exact if_pos hconds
    rw [if_pos ⟨hred, hcx, hct, hox, hot⟩, hxs, hts, hshape]
    exact mseF32Fused_ok hred S.prod e h
  · have hshape : lossShape reduction input target = if reduction = .none then S else [] := by
      cases reduction with
      | none =>
        exact hx.shape
      | sum =>
        exact if_neg fun hconds => hfused ⟨by simp, hconds.2⟩
      | mean =>
        exact if_neg fun hconds => hfused ⟨by simp, hconds.2⟩
    rw [if_neg hfused, hshape]
    exact msePlain_ok hx ht hS

end Mse

section Classes

variable {D : Type} [CommRing D] [Div D] [LT D] [DecidableEq D] {exp ln : D → D}
  {n c : Nat} {T : Dtype} {input : Tensor (Extended D)} {target : Tensor Int} {e o : Nat → D}
  {cls : Nat → Nat}

/-- The loss of one sample: the negative logarithm at its class. -/
def sampleLoss (c : Nat) (o : Nat → D) (cls : Nat → Nat) (i : Nat) : D :=
  -o (i * c + cls i)

omit [Div D] [LT D] [DecidableEq D] in
theorem nllPerSample_ok (hcls : ∀ i < n, cls i < c) :
    nllPerSample ((range (n * c)).map fun l => fin (o l))
      ((range n).map fun i => (cls i : Int)) n c =
      .ok ((range n).map fun i => .fin (sampleLoss c o cls i)) := by
  refine mapM_eq_ok ?_
  intro i hi
  have hi := mem_range.1 hi
  have hlt := hcls i hi
  have hcell : i * c + cls i < n * c := Rows.cell_lt hi hlt
  have hin : ¬ ((cls i : Int) < 0 ∨ c ≤ cls i) := by omega
  simp only [getElem?_map, getElem?_range hi, Option.map_some, expect_some,
    ok_bind, Int.toNat_natCast, if_neg hin, getElem?_range hcell]
  rfl

omit [Div D] [LT D] [DecidableEq D] in
theorem foldl_add_range_fin (per : Nat → D) (n : Nat) :
    ((range n).map fun i => fin (per i)).foldl (· + ·) (.fin 0) =
      .fin (∑ i ∈ Finset.range n, per i) := by
  have hfold := foldl_add_fin (x := fun i => fin (per i)) (f := per) (n := n) 0
    fun i _ => rfl
  rw [zero_add] at hfold
  rw [foldl_map, hfold]

variable {reduction : Reduction}

omit [LT D] in
theorem reducePerSample_fin (hred : reduction ≠ .none) (hn : 0 < n) (hcount : (n : D) ≠ 0)
    (T : Dtype) (per : Nat → D) :
    ∃ out, @reducePerSample (Extended D) ⟨.fin 0⟩ _ _ .nan (fun n => .fin n) T
        ((range n).map fun i => .fin (per i)) reduction = .ok out ∧
      Fresh out T [] (fun l => .fin (lossValue (fun n => (n : D)) reduction n per l)) := by
  let _ : Zero (Extended D) := ⟨.fin 0⟩
  have hscalar : ([] : Shape).prod * T.byteSize < 2 ^ 63 := by
    cases T <;> decide
  have hlen : ((range n).map fun i => fin (per i)).length = n := by simp
  have hsum := foldl_add_range_fin per n
  cases reduction with
  | mean =>
    obtain ⟨out, hout, hfresh⟩ := @fromVecOrOom_fresh (Extended D) T []
      (fun _ => .fin ((∑ i ∈ Finset.range n, per i) / (n : D))) 1 hscalar
    refine ⟨out, ?_, hfresh⟩
    rw [reducePerSample, hlen, if_neg hn.ne']
    change fromVecOrOom T [] [foldl (· + ·) (fin 0) _ / _] 1 = _
    rw [hsum, fin_div hcount]
    exact hout
  | sum =>
    obtain ⟨out, hout, hfresh⟩ := @fromVecOrOom_fresh (Extended D) T []
      (fun _ => .fin (∑ i ∈ Finset.range n, per i)) 1 hscalar
    refine ⟨out, ?_, hfresh⟩
    change fromVecOrOom T [] [foldl (· + ·) (fin 0) _] 1 = _
    rw [hsum]
    exact hout
  | none => exact absurd rfl hred

omit [LT D] in
theorem nllLoss_ok {lp : Tensor (Extended D)} (hn : 0 < n) (hc : 0 < c) (hcount : (n : D) ≠ 0)
    (hT : T = .f32 ∨ T = .f64) (hlp : Holds lp T [n, c] fun l => .fin (o l))
    (ht : Holds target .i64 [n] fun i => (cls i : Int)) (hcls : ∀ i < n, cls i < c)
    (hred : reduction ≠ .none) :
    ∃ out, @nllLoss (Extended D) ⟨.fin 0⟩ _ _ _ .nan (fun n => .fin n) lp target reduction =
        .ok out ∧
      Fresh out T [] (fun l => .fin (lossValue (fun n => (n : D)) reduction n
        (sampleLoss c o cls) l)) := by
  let _ : Zero (Extended D) := ⟨.fin 0⟩
  have hfloat : isFloat T = true := by
    rcases hT with rfl | rfl <;> rfl
  have hprod : [n, c].prod = n * c := by simp
  have hcap : n * T.byteSize < 2 ^ 63 := by
    have hbytes := hlp.bytes
    rw [hprod] at hbytes
    exact lt_of_le_of_lt (Nat.mul_le_mul_right _ (Nat.le_mul_of_pos_right n hc)) hbytes
  have hnumel : target.numel = n := by
    rw [ht.numel]
    simp
  have hper := @nllPerSample_ok D _ n c o cls hcls
  obtain ⟨out, hout, hfresh⟩ := reducePerSample_fin hred hn hcount T (sampleLoss c o cls)
  refine ⟨out, ?_, hfresh⟩
  -- the checks pass, and both tensors are read in row-major order
  rw [nllLoss, hlp.dtype, hfloat, if_neg (by simp), ht.dtype, if_neg (by simp), hlp.shape,
    if_neg (by simp), hnumel, if_neg (by simp)]
  simp only [collect_holds ht, collect_holds hlp, ok_bind, getD_cons_zero,
    getD_cons_succ, withCapacity_ok hcap]
  rw [hprod, show ([n] : Shape).prod = n by simp, hper, ok_bind]
  exact hout

variable [DecidableLT D]

theorem crossEntropy_ok (h : ExpScalars exp) (hn : 0 < n) (hc : 0 < c) (hcount : (n : D) ≠ 0)
    (hT : T = .f32 ∨ T = .f64) (hx : Holds input T [n, c] fun l => .fin (e l))
    (ht : Holds target .i64 [n] fun i => (cls i : Int)) (hcls : ∀ i < n, cls i < c)
    (hred : reduction ≠ .none) :
    ∃ lp o out, logSoftmax exp ln input 1 = .ok lp ∧ Fresh lp T [n, c] (fun l => .fin (o l)) ∧
      IsAgainst exp ln true [n, c] 1 e o ∧ crossEntropy exp ln input target reduction = .ok out ∧
      Fresh out T [] (fun l => .fin (lossValue (fun n => (n : D)) reduction n
        (sampleLoss c o cls) l)) := by
  have h0 : 0 ∉ [n, c] := by
    simp only [mem_cons, not_mem_nil, or_false, not_or]
    omega
  obtain ⟨lp, o, hlp, hlpf, hag⟩ := @softmaxDispatch_holds D _ _ _ _ _ exp ln true [n, c] 1 T input e
    h "log_softmax" h0 (by simp) hT hx
  have hlogs : logSoftmax exp ln input 1 = .ok lp := hlp
  obtain ⟨out, hout, hfresh⟩ := nllLoss_ok hn hc hcount hT hlpf.holds ht hcls hred
  refine ⟨lp, o, out, hlp, hlpf, hag, ?_, hfresh⟩
  have hfloat : isFloat T = true := by
    rcases hT with rfl | rfl <;> rfl
  have hnumel : target.numel = n := by
    rw [ht.numel]
    simp
  rw [crossEntropy, hx.dtype, hfloat, if_neg (by simp), ht.dtype, if_neg (by simp), hx.shape,
    if_neg (by simp), ht.shape, hnumel, if_neg (by simp), hlogs, ok_bind]
  exact hout

/-- Without a reduction the kernel reaches `unreachable!`. -/
theorem crossEntropy_none {out : Tensor (Extended D)} :
    crossEntropy exp ln input target .none ≠ .ok out := by
  let _ : Zero (Extended D) := ⟨.fin 0⟩
  intro h
  rw [crossEntropy] at h
  split_ifs at h
  obtain ⟨lp, _, h⟩ := bind_eq_ok.1 h
  rw [nllLoss] at h
  split_ifs at h
  obtain ⟨_, _, h⟩ := bind_eq_ok.1 h
  obtain ⟨_, _, h⟩ := bind_eq_ok.1 h
  obtain ⟨_, _, h⟩ := bind_eq_ok.1 h
  obtain ⟨_, _, h⟩ := bind_eq_ok.1 h
  cases h

end Classes

end Cpu
end Rustorch
