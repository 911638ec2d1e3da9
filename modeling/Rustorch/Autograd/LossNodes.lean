import Rustorch.Autograd.Ops
import Rustorch.Autograd.SoftmaxNodes
import Rustorch.Cpu.Loss

/-!
# Backward of the losses

`MseBackward` scales the saved difference by the upstream gradient of a reduced loss, and by 2 alone
where the loss was not reduced.  `CrossEntropyBackward` scales the saved softmax, less 1 at the
target classes.  Both read `F32` slices, and the difference was taken of row-major buffers.  The
gradients are the vector-Jacobian product exactly where these readings are right
(`losses_vjp_iff`).
-/

namespace Rustorch
namespace Autograd

open Rustorch.Core Cpu DualNumbers List Finset Outcome Extended Layout
open Finset (sum_congr sum_ite_eq')
open Attention (finPart)
open OnlineSoftmax (ExpLaws)
open TrivSqZeroExt (inl fst_natCast snd_natCast snd_neg snd_sum)

local instance two_atLeastTwo : Nat.AtLeastTwo 2 := ⟨le_rfl⟩

/-! ## The nodes -/

section Model

variable {F : Type} [Field F]

/-- `grad.as_slice::<f32>().expect("f32")[0]`. -/
def gradScalar (grad : Tensor F) : Outcome BackwardError F := do
  let xs ← unwrap (grad.asSlice .f32)
  expect xs[0]?

structure MseBackward (F : Type) where
  diff : Tensor F
  n : Nat
  reduction : Reduction
  inputRequiresGrad : Bool
  targetRequiresGrad : Bool

def MseBackward.scale (node : MseBackward F) (grad : Tensor F) : Outcome BackwardError F :=
  match node.reduction with
  | .mean => do
    let v ← gradScalar grad
    pure (v * 2 / node.n)
  | .sum => do
    let v ← gradScalar grad
    pure (v * 2)
  | .none => pure 2

def MseBackward.apply (node : MseBackward F) (grad : Tensor F) :
    Outcome BackwardError (List (Option (Tensor F))) := do
  let scale ← node.scale grad
  let scaleT ← Ops.scalar scale
  match node.inputRequiresGrad, node.targetRequiresGrad with
  | true, true => do
    let gX ← unwrap (dispatchBinaryTyped "mul" (· * ·) node.diff scaleT)
    let gY ← unwrap (Cpu.neg gX)
    pure [some gX, some gY]
  | true, false => do
    let gX ← unwrap (dispatchBinaryTyped "mul" (· * ·) node.diff scaleT)
    pure [some gX, none]
  | false, true => do
    let negScale ← Ops.scalar (-scale)
    let gY ← unwrap (dispatchBinaryTyped "mul" (· * ·) node.diff negScale)
    pure [none, some gY]
  | false, false => pure [none, none]

/-- The node that `mse_loss` records, applied to a gradient. -/
def mseBackward (reduction : Reduction) (inputRequiresGrad targetRequiresGrad : Bool)
    (input target grad : Tensor F) : Outcome BackwardError (List (Option (Tensor F))) := do
  let diff ← mapErr (backendErr "mse_loss:sub")
    (dispatchBinaryTyped "sub" (· - ·) input target)
  MseBackward.apply
    { diff := diff
      n := input.numel
      reduction := reduction
      inputRequiresGrad := inputRequiresGrad
      targetRequiresGrad := targetRequiresGrad } grad

structure CrossEntropyBackward (F : Type) where
  softmaxSaved : Tensor F
  target : Tensor Int
  nSamples : Nat
  nClasses : Nat
  reduction : Reduction

/-- `grad_input[idx] -= 1.0`; `none` is an index past the end. -/
def subOne (gradInput : List F) (idx : Nat) : Option (List F) := do
  let v ← gradInput[idx]?
  some (gradInput.set idx (v - 1))

def CrossEntropyBackward.scale (node : CrossEntropyBackward F) (grad : Tensor F) :
    Outcome BackwardError F :=
  match node.reduction with
  | .mean => do
    let v ← gradScalar grad
    pure (v / node.nSamples)
  | .sum => gradScalar grad
  | .none => gradScalar grad

def CrossEntropyBackward.apply (node : CrossEntropyBackward F) (grad : Tensor F) :
    Outcome BackwardError (List (Option (Tensor F))) := do
  let gradInput ← unwrap (node.softmaxSaved.asSlice .f32)
  let target ← unwrap (node.target.asSlice .i64)
  let gradInput ← expect (target.zipIdx.foldlM (fun gradInput ti =>
    subOne gradInput ((ti.2 * node.nClasses + asU64 ti.1) % u64Size)) gradInput)
  let scale ← node.scale grad
  let g ← unwrap (ofExcept
    (fromVecTyped .f32 [node.nSamples, node.nClasses] (gradInput.map (· * scale))))
  pure [some g]

/-- The node that `cross_entropy` records with the softmax of its input, applied to a gradient. -/
def crossEntropyBackward (reduction : Reduction) (input softmax : Tensor F) (target : Tensor Int)
    (grad : Tensor F) : Outcome BackwardError (List (Option (Tensor F))) :=
  CrossEntropyBackward.apply
    { softmaxSaved := softmax
      target := target
      nSamples := input.shape.getD 0 0
      nClasses := input.shape.getD 1 0
      reduction := reduction } grad

end Model

open MseBackward

/-! ## Slices of gradients -/

section Slices

variable {F : Type} [Field F] {g : Tensor F} {T U : Dtype} {G : Shape} {f : Nat → F}

/-- What `as_slice` takes. -/
def SliceOf {α : Type} (T : Dtype) (t : Tensor α) : Prop :=
  t.layout.dtype = T ∧ t.layout.isContiguous = true ∧ t.layout.storageOffset = 0

variable {α : Type} {t : Tensor α} {xs : List α}

theorem sliceOf_of_asSlice (h : t.asSlice T = .ok xs) : SliceOf T t := by
  rw [Tensor.asSlice] at h
  split_ifs at h with hflags
  rw [not_or, not_or, not_not, not_not, Bool.not_eq_false] at hflags
  exact hflags

theorem sliceOf_of_unwrap {ε : Type}
    (h : (unwrap (t.asSlice T) : Outcome ε (List α)) = .ok xs) : SliceOf T t :=
  sliceOf_of_asSlice (unwrap_eq_ok.1 h)

theorem fresh_of_sliceOf {v : Nat → α} (h : SliceOf T t) (ht : Holds t U G v) : Fresh t T G v := by
  obtain ⟨hdtype, hflag, hoff⟩ := h
  have hU : U = T := ht.dtype.symm.trans hdtype
  subst hU
  exact ⟨ht.dense hflag, hoff⟩

omit [Field F] in
theorem gradScalar_ok (hg : Holds g U G f) (hG : G.prod = 1) (h : SliceOf .f32 g) :
    gradScalar g = .ok (f 0) := by
  rw [gradScalar, (fresh_of_sliceOf h hg).asSlice, hG]
  rfl

omit [Field F] in
theorem sliceOf_of_gradScalar {v : F} (h : gradScalar g = .ok v) : SliceOf .f32 g := by
  obtain ⟨xs, hxs, _⟩ := bind_eq_ok.1 h
  exact sliceOf_of_unwrap hxs

end Slices

/-! ## Dual tensors of given elements -/

section Duals

variable {F : Type} [Field F] {S : Shape} {T : Dtype} {x : Tensor F} {xt : Tensor (DualNumber F)}
  {a : Nat → F}

/-- A tensor of dual numbers over the elements of `x`. -/
structure IsDualOf (xt : Tensor (DualNumber F)) (x : Tensor F) : Prop where
  dtype : xt.layout.dtype = x.layout.dtype
  shape : xt.shape = x.shape
  elements : (Core.realPart xt).elements = x.elements

/-- The tangent is zero. -/
def Still (xt : Tensor (DualNumber F)) : Prop :=
  ∀ vs, (tangentPart xt).elements = some vs → ∀ v ∈ vs, v = 0

theorem IsDualOf.holds (h : IsDualOf xt x) (hx : Holds x T S a) :
    ∃ e, Holds xt T S e ∧ ∀ l < S.prod, (e l).fst = a l := by
  have hholds : Holds (xt.map TrivSqZeroExt.fst) T S a :=
    ⟨h.dtype.trans hx.dtype, h.shape.trans hx.shape, hx.bytes, h.elements.trans hx.elements⟩
  let _ : Inhabited (DualNumber F) := ⟨0⟩
  exact hholds.of_map

theorem isDualOf_of_holds {v : Nat → F} (hx : Holds x T S a)
    (hxt : Holds xt T S fun l => dual (a l) (v l)) : IsDualOf xt x := by
  refine ⟨hxt.dtype.trans hx.dtype.symm, hxt.shape.trans hx.shape.symm, ?_⟩
  rw [Core.realPart, (hxt.map TrivSqZeroExt.fst).elements, hx.elements]
  simp

variable {e : Nat → DualNumber F}

theorem still_of_holds (hxt : Holds xt T S e) (h : ∀ l < S.prod, (e l).snd = 0) : Still xt := by
  intro vs hvs v hv
  rw [tangentPart, (hxt.map TrivSqZeroExt.snd).elements, Option.some_inj] at hvs
  subst hvs
  obtain ⟨l, hl, rfl⟩ := mem_map.1 hv
  exact h l (List.mem_range.1 hl)

theorem Still.snd (h : Still xt) (hxt : Holds xt T S e) : ∀ l < S.prod, (e l).snd = 0 := by
  intro l hl
  refine h _ (hxt.map TrivSqZeroExt.snd).elements _ ?_
  exact mem_map.2 ⟨l, List.mem_range.2 hl, rfl⟩

/-- A contiguous tensor from a given offset on. -/
def shifted {α : Type} (k : Nat) (hk : k < u64Size) (T : Dtype) (S : Shape) (v : Nat → α) :
    Tensor α where
  storage := replicate k (v 0) ++ (List.range S.prod).map v
  layout := ofAxes (contiguousAxes S) k hk T

theorem shifted_dense {α : Type} {k : Nat} (hk : k ≤ 1) (hbytes : S.prod * T.byteSize < 2 ^ 63)
    (v : Nat → α) : Dense (shifted k (by unfold u64Size; omega) T S v) T S v := by
  refine ⟨shape_contiguous S T, rfl, isContiguousStrides_contiguousAxes S, hbytes, ?_⟩
  intro i hi
  have hlt : k + i < 2 ^ 64 := by
    have hpos := T.byteSize_pos
    have hle : S.prod ≤ S.prod * T.byteSize := Nat.le_mul_of_pos_right _ hpos
    omega
  change (replicate k (v 0) ++ (List.range S.prod).map v)[(k + i) % 2 ^ 64]? = some (v i)
  rw [Nat.mod_eq_of_lt hlt, getElem?_append_right (by simp), length_replicate,
    Nat.add_sub_cancel_left, getElem?_map, getElem?_range hi]
  rfl

end Duals

/-! ## The squared error -/

section Mse

variable {F : Type} [Field F] [LinearOrder F] [IsStrictOrderedRing F] {S : Shape} {T U : Dtype}
  {x t g diff : Tensor F} {a b f r : Nat → F} {reduction : Reduction}

/-- The scale, where the gradient's scalar is `v`. -/
def mseScale (reduction : Reduction) (n : Nat) (v : F) : F :=
  match reduction with
  | .mean => v * 2 / n
  | .sum => v * 2
  | .none => 2

/-- What the loss of one element moves by, against the upstream gradient. -/
def mseCoefficient (reduction : Reduction) (n : Nat) (f : Nat → F) (l : Nat) : F :=
  match reduction with
  | .mean => f 0 * 2 / n
  | .sum => f 0 * 2
  | .none => f l * 2

omit [LinearOrder F] [IsStrictOrderedRing F] in
theorem mseBackward_ok {n : Nat} {s : F} (ia ib : Bool) (hd : Fresh diff .f32 S r)
    (hs : scale
      { diff := diff, n := n, reduction := reduction, inputRequiresGrad := ia,
        targetRequiresGrad := ib } g = .ok s) :
    ∃ gX gY, apply
        { diff := diff, n := n, reduction := reduction, inputRequiresGrad := ia,
          targetRequiresGrad := ib } g =
        .ok [if ia then some gX else none, if ib then some gY else none] ∧
      Fresh gX .f32 S (fun l => r l * s) ∧ Fresh gY .f32 S (fun l => -(r l * s)) := by
  obtain ⟨scaleT, hscale, hscalef⟩ := Ops.scalar_fresh s
  obtain ⟨negT, hneg, hnegf⟩ := Ops.scalar_fresh (-s)
  have hnil : Stretches [] S := ⟨Nat.zero_le _, by simp⟩
  obtain ⟨gX, hgX, hgXf⟩ := @dispatchBinaryTyped_dense F "mul" (· * ·) diff scaleT .f32 [] S r _
    hd.toDense hscalef.toDense rfl hnil
  obtain ⟨gN, hgN, hgNf⟩ := @dispatchBinaryTyped_dense F "mul" (· * ·) diff negT .f32 [] S r _
    hd.toDense hnegf.toDense rfl hnil
  obtain ⟨gY, hgY, hgYf⟩ := neg_holds hgXf.holds rfl
  have hgN' : Fresh gN .f32 S (fun l => -(r l * s)) :=
    ⟨hgNf.toDense.of_eq fun l _ => mul_neg _ _, hgNf.offset⟩
  cases ia with
  | true =>
    cases ib with
    | true =>
      refine ⟨gX, gY, ?_, hgXf, hgYf⟩
      simp [apply, hs, hscale, hgX, hgY]
    | false =>
      refine ⟨gX, gN, ?_, hgXf, hgN'⟩
      simp [apply, hs, hscale, hgX]
  | false =>
    cases ib with
    | true =>
      refine ⟨gX, gN, ?_, hgXf, hgN'⟩
      simp [apply, hs, hscale, hneg, hgN]
    | false =>
      refine ⟨gX, gN, ?_, hgXf, hgN'⟩
      simp [apply, hs, hscale]

/-- The gradient of an operand that requires one, paired with its tangent. -/
def pairing (requires : Bool) (grad tangent : Tensor F) : Option F :=
  if requires then innerProduct grad tangent else some 0

/-- For operands over the elements of `x` and `t` whose loss has the shape of `g`, the loss is the
reduction of the squared errors, and the gradients pair with the tangents to the second part of what
`g` pairs with. -/
def IsMseVjp (nan : DualNumber F) (reduction : Reduction) (ia ib : Bool) (x t g : Tensor F) : Prop :=
  ∀ xt tt : Tensor (DualNumber F), IsDualOf xt x → IsDualOf tt t → (ia = false → Still xt) →
    (ib = false → Still tt) → lossShape reduction xt tt = g.shape →
      ∃ out gX gY total pX pY xs ts,
        mseLoss nan (fun n => (n : DualNumber F)) xt tt reduction = .ok out ∧
        out.shape = g.shape ∧ xt.elements = some xs ∧ tt.elements = some ts ∧
        out.elements = some ((List.range g.shape.prod).map (lossValue
          (fun n => (n : DualNumber F)) reduction xs.length
          fun i => squaredError (xs.getD i 0) (ts.getD i 0))) ∧
        mseBackward reduction ia ib x t g =
          .ok [if ia then some gX else none, if ib then some gY else none] ∧
        gX.shape = x.shape ∧ gY.shape = t.shape ∧ innerProduct (constant g) out = some total ∧
        pairing ia gX (tangentPart xt) = some pX ∧ pairing ib gY (tangentPart tt) = some pY ∧
        total.snd = pX + pY

/-- The difference `d` in place of `d'`: a reduced loss is right where its upstream gradient is 0 or
the two are equal, and a loss that is not reduced where `d` is what the gradient makes of `d'`. -/
def MseAgrees (reduction : Reduction) (f : Nat → F) (d d' : F) (l : Nat) : Prop :=
  match reduction with
  | .none => d = d' * f l
  | _ => f 0 = 0 ∨ d = d'

/-- `F32` operands whose row-major readings are inside their buffers, with differences that agree
with those of the elements; a reduced loss has an upstream gradient that is an `F32` slice. -/
structure MseReads (reduction : Reduction) (x t g : Tensor F) (a b f : Nat → F) : Prop where
  float : x.layout.dtype = .f32
  input : ∀ l < x.shape.prod,
    rowMajorAt x (coordsOf x.shape l) = some (rowMajorValue x x.shape 0 l)
  target : ∀ l < x.shape.prod,
    rowMajorAt t (coordsOf x.shape l) = some (rowMajorValue t x.shape 0 l)
  slice : reduction ≠ .none → SliceOf .f32 g
  agree : ∀ l < x.shape.prod, MseAgrees reduction f
    (rowMajorValue x x.shape 0 l - rowMajorValue t x.shape 0 l) (a l - b l) l

theorem mse_agree_iff {n : Nat} (hn : 0 < n) (d d' : F) (l : Nat) :
    d * mseScale reduction n (f 0) = d' * mseCoefficient reduction n f l ↔
      MseAgrees reduction f d d' l := by
  have hn' : (n : F) ≠ 0 := Nat.cast_ne_zero.2 hn.ne'
  have htwo : (2 : F) ≠ 0 := two_ne_zero
  cases reduction with
  | none =>
    simp only [mseScale, mseCoefficient, MseAgrees]
    rw [← mul_assoc]
    exact mul_left_inj' htwo
  | sum =>
    simp only [mseScale, mseCoefficient, MseAgrees]
    constructor
    · intro h
      by_cases hf : f 0 = 0
      · exact Or.inl hf
      · exact Or.inr (mul_right_cancel₀ (mul_ne_zero hf htwo) h)
    · rintro (hf | rfl)
      · rw [hf, zero_mul, mul_zero, mul_zero]
      · rfl
  | mean =>
    simp only [mseScale, mseCoefficient, MseAgrees]
    constructor
    · intro h
      by_cases hf : f 0 = 0
      · exact Or.inl hf
      · exact Or.inr (mul_right_cancel₀ (div_ne_zero (mul_ne_zero hf htwo) hn') h)
    · rintro (hf | rfl)
      · rw [hf, zero_mul, zero_div, mul_zero, mul_zero]
      · rfl

theorem snd_lossValue (e h : Nat → DualNumber F) {n : Nat} {G : Shape}
    (hG : G.prod = if reduction = .none then n else 1) (f : Nat → F) :
    (∑ l ∈ Finset.range G.prod, inl (f l) *
      lossValue (fun n => (n : DualNumber F)) reduction n
        (fun i => squaredError (e i) (h i)) l).snd =
      ∑ l ∈ Finset.range n, mseCoefficient reduction n f l *
        (((e l).fst - (h l).fst) * ((e l).snd - (h l).snd)) := by
  have hsquare : ∀ i, (squaredError (e i) (h i)).snd =
      2 * (((e i).fst - (h i).fst) * ((e i).snd - (h i).snd)) := by
    intro i
    rw [squaredError, DualNumber.snd_mul]
    simp only [TrivSqZeroExt.fst_sub, TrivSqZeroExt.snd_sub]
    ring
  rw [hG]
  cases reduction with
  | none =>
    rw [if_pos rfl, snd_sum]
    refine sum_congr rfl fun l _ => ?_
    rw [snd_inl_mul, lossValue, hsquare, mseCoefficient, mul_assoc]
  | sum =>
    rw [if_neg (by simp), sum_range_one, snd_inl_mul]
    simp only [lossValue, mseCoefficient, snd_sum, hsquare, mul_sum, mul_assoc]
  | mean =>
    have hcount : ((n : DualNumber F)).snd = 0 := snd_natCast n
    have hcount' : ((n : DualNumber F)).fst = n := fst_natCast n
    rw [if_neg (by simp), sum_range_one, snd_inl_mul]
    simp only [lossValue, mseCoefficient]
    rw [snd_div, hcount, hcount', mul_zero, sub_zero, snd_sum, sum_div, mul_sum]
    refine sum_congr rfl fun l _ => ?_
    rw [hsquare]
    ring

omit [Field F] [LinearOrder F] [IsStrictOrderedRing F] in
theorem prod_lossShape {x t : Tensor F} (hx : x.shape = S) :
    (lossShape reduction x t).prod = if reduction = .none then S.prod else 1 := by
  cases reduction with
  | none =>
    exact congrArg prod hx
  | sum =>
    rw [if_neg (by simp)]
    simp only [lossShape]
    split_ifs <;> rfl
  | mean =>
    rw [if_neg (by simp)]
    simp only [lossShape]
    split_ifs <;> rfl

variable {nan : DualNumber F} {ia ib : Bool}

theorem mse_forward {xt tt : Tensor (DualNumber F)} {e h : Nat → DualNumber F}
    (hxt : Holds xt .f32 S e) (htt : Holds tt .f32 S h) (hS : 0 < S.prod)
    (hg : Holds g U (lossShape reduction xt tt) f) :
    ∃ out total, mseLoss nan (fun n => (n : DualNumber F)) xt tt reduction = .ok out ∧
      Fresh out .f32 (lossShape reduction xt tt) (lossValue (fun n => (n : DualNumber F)) reduction
        S.prod fun i => squaredError (e i) (h i)) ∧
      innerProduct (constant g) out = some total ∧
      total.snd = ∑ l ∈ Finset.range S.prod, mseCoefficient reduction S.prod f l *
        (((e l).fst - (h l).fst) * ((e l).snd - (h l).snd)) := by
  obtain ⟨out, hout, hfresh⟩ := @mseLoss_f32 _ _ _ (fun n => (n : DualNumber F)) nan S xt tt e h
    reduction hxt htt hS
  refine ⟨out, _, hout, hfresh, innerProduct_holds (hg.map inl) hfresh.holds, ?_⟩
  exact snd_lossValue e h (prod_lossShape hxt.shape) f

omit [Field F] [LinearOrder F] [IsStrictOrderedRing F] in
theorem lossShape_shifted (hx : Holds x T S a) :
    ∃ k, ∃ hk : k ≤ 1, ∀ v w : Nat → DualNumber F,
      lossShape reduction (shifted k (by unfold u64Size; omega) T S v)
        (shifted k (by unfold u64Size; omega) T S w) = lossShape reduction x t := by
  have hshape : ∀ k (hk : k < u64Size) (v : Nat → DualNumber F), (shifted k hk T S v).shape = S :=
    fun k hk v => shape_contiguous S T
  have hflag : ∀ k (hk : k < u64Size) (v : Nat → DualNumber F),
      (shifted k hk T S v).layout.isContiguous = true :=
    fun k hk v => isContiguousStrides_contiguousAxes S
  by_cases hconds : x.layout.dtype = .f32 ∧ x.layout.isContiguous = true ∧
      t.layout.isContiguous = true ∧ x.layout.storageOffset = 0 ∧ t.layout.storageOffset = 0
  · refine ⟨0, Nat.zero_le 1, fun v w => ?_⟩
    have hT : T = .f32 := hx.dtype.symm.trans hconds.1
    cases reduction with
    | none => exact (hshape _ _ v).trans hx.shape.symm
    | sum => exact (if_pos ⟨hT, hflag _ _ v, hflag _ _ w, rfl, rfl⟩).trans (if_pos hconds).symm
    | mean => exact (if_pos ⟨hT, hflag _ _ v, hflag _ _ w, rfl, rfl⟩).trans (if_pos hconds).symm
  · refine ⟨1, le_refl 1, fun v w => ?_⟩
    cases reduction with
    | none => exact (hshape _ _ v).trans hx.shape.symm
    | sum => exact (if_neg fun h => one_ne_zero h.2.2.2.1).trans (if_neg hconds).symm
    | mean => exact (if_neg fun h => one_ne_zero h.2.2.2.1).trans (if_neg hconds).symm

omit [LinearOrder F] [IsStrictOrderedRing F] in
theorem mseScale_ok (node : MseBackward F) (hg : Holds g U G f)
    (hG : node.reduction ≠ .none → G.prod = 1 ∧ SliceOf .f32 g) :
    node.scale g = .ok (mseScale node.reduction node.n (f 0)) := by
  unfold scale mseScale
  cases hred : node.reduction with
  | none => rfl
  | sum =>
    obtain ⟨hprod, hslice⟩ := hG (by simp [hred])
    simp only [gradScalar_ok hg hprod hslice]
    rfl
  | mean =>
    obtain ⟨hprod, hslice⟩ := hG (by simp [hred])
    simp only [gradScalar_ok hg hprod hslice]
    rfl

omit [LinearOrder F] [IsStrictOrderedRing F] in
theorem mseBackward_reads (ia ib : Bool) (hx : Holds x .f32 S a) (ht : Holds t .f32 S b)
    (hg : Holds g U G f) (hG : reduction ≠ .none → G.prod = 1 ∧ SliceOf .f32 g)
    (hrx : ∀ l < S.prod, rowMajorAt x (coordsOf S l) = some (rowMajorValue x S 0 l))
    (hrt : ∀ l < S.prod, rowMajorAt t (coordsOf S l) = some (rowMajorValue t S 0 l)) :
    ∃ gX gY, mseBackward reduction ia ib x t g =
        .ok [if ia then some gX else none, if ib then some gY else none] ∧
      Fresh gX .f32 S (fun l => (rowMajorValue x S 0 l - rowMajorValue t S 0 l) *
        mseScale reduction S.prod (f 0)) ∧
      Fresh gY .f32 S (fun l => -((rowMajorValue x S 0 l - rowMajorValue t S 0 l) *
        mseScale reduction S.prod (f 0))) := by
  obtain ⟨diff, hdiff, hfresh⟩ := @dispatchBinaryTyped_both F "sub" (· - ·) x t .f32 S _ _ hx.shape
    ht.shape hx.dtype ht.dtype hx.bytes hrx hrt rfl
  obtain ⟨gX, gY, happly, hgX, hgY⟩ := mseBackward_ok ia ib hfresh
    (mseScale_ok ⟨diff, x.numel, reduction, ia, ib⟩ hg hG)
  rw [hx.numel] at hgX hgY
  refine ⟨gX, gY, ?_, hgX, hgY⟩
  rw [mseBackward, hdiff]
  exact happly

omit [LinearOrder F] [IsStrictOrderedRing F] in
theorem dtype_of_mul_scalar {v : F} {diff s p : Tensor F} (hs : Ops.scalar v = .ok s)
    (hp : unwrap (dispatchBinaryTyped "mul" (· * ·) diff s) =
      (.ok p : Outcome BackwardError _)) : diff.layout.dtype = .f32 := by
  obtain ⟨s', hs', hfresh⟩ := Ops.scalar_fresh v
  cases hs'.symm.trans hs
  exact (dispatchBinaryTyped_eq_ok (unwrap_eq_ok.1 hp)).1.trans hfresh.dtype

omit [LinearOrder F] [IsStrictOrderedRing F] in
theorem reads_of_mseBackward {gs : List (Option (Tensor F))} (hrequires : ia = true ∨ ib = true)
    (hx : Holds x T S a) (ht : Holds t T S b) (h : mseBackward reduction ia ib x t g = .ok gs) :
    T = .f32 ∧ (reduction ≠ .none → SliceOf .f32 g) ∧
      (∀ l < S.prod, rowMajorAt x (coordsOf S l) = some (rowMajorValue x S 0 l)) ∧
      ∀ l < S.prod, rowMajorAt t (coordsOf S l) = some (rowMajorValue t S 0 l) := by
  obtain ⟨diff, hdiff, h⟩ := bind_eq_ok.1 h
  obtain ⟨scale, hscale, h⟩ := bind_eq_ok.1 h
  obtain ⟨scaleT, hscaleT, h⟩ := bind_eq_ok.1 h
  have hdiff := mapErr_eq_ok.1 hdiff
  obtain ⟨hrx, hrt⟩ := @reads_of_dispatchBinaryTyped F "sub" (· - ·) x t S diff 0 hx.shape ht.shape
    (hx.dtype.symm ▸ hx.bytes) hdiff
  have hdtype : diff.layout.dtype = T := by
    obtain ⟨out, hout, hfresh⟩ := @dispatchBinaryTyped_both F "sub" (· - ·) x t T S _ _ hx.shape
      ht.shape hx.dtype ht.dtype hx.bytes hrx hrt
      (hx.dtype ▸ (dispatchBinaryTyped_eq_ok hdiff).2.1)
    cases hout.symm.trans hdiff
    exact hfresh.dtype
  refine ⟨?_, ?_, hrx, hrt⟩
  · rw [← hdtype]
    cases ia with
    | true =>
      cases ib with
      | true =>
        obtain ⟨_, hp, _⟩ := bind_eq_ok.1 h
        exact dtype_of_mul_scalar hscaleT hp
      | false =>
        obtain ⟨_, hp, _⟩ := bind_eq_ok.1 h
        exact dtype_of_mul_scalar hscaleT hp
    | false =>
      cases ib with
      | true =>
        obtain ⟨_, hneg, h⟩ := bind_eq_ok.1 h
        obtain ⟨_, hp, _⟩ := bind_eq_ok.1 h
        exact dtype_of_mul_scalar hneg hp
      | false => simp at hrequires
  · intro hred
    cases reduction with
    | none => exact absurd rfl hred
    | sum =>
      obtain ⟨_, hv, _⟩ := bind_eq_ok.1 hscale
      exact sliceOf_of_gradScalar hv
    | mean =>
      obtain ⟨_, hv, _⟩ := bind_eq_ok.1 hscale
      exact sliceOf_of_gradScalar hv

/-- The gradients are right if the operands and the gradient are read right. -/
theorem mseVjp_of_reads (hx : Holds x T S a) (ht : Holds t T S b)
    (hg : Holds g U (lossShape reduction x t) f) (hS : 0 < S.prod) :
    MseReads reduction x t g a b f → IsMseVjp nan reduction ia ib x t g := by
  rintro ⟨hfloat, hrx, hrt, hslice, hagree⟩ xt tt hdx hdt hia hib hshape
  have hT : T = .f32 := hx.dtype.symm.trans hfloat
  subst hT
  rw [hx.shape] at hrx hrt hagree
  obtain ⟨e, hxt, he⟩ := hdx.holds hx
  obtain ⟨h, htt, hh⟩ := hdt.holds ht
  have hgt : Holds g U (lossShape reduction xt tt) f := by
    rw [hshape, hg.shape]
    exact hg
  obtain ⟨out, total, hout, hfresh, htotal, hsnd⟩ := @mse_forward F _ _ _ S U g f reduction nan xt
    tt e h hxt htt hS hgt
  have hG : reduction ≠ .none → (lossShape reduction x t).prod = 1 ∧ SliceOf .f32 g := fun hred =>
    ⟨by rw [prod_lossShape hx.shape, if_neg hred], hslice hred⟩
  obtain ⟨gX, gY, hgrads, hgX, hgY⟩ := mseBackward_reads ia ib hx ht hg hG hrx hrt
  -- What an operand without a gradient is paired with moves by nothing.
  have hpair : ∀ (requires : Bool) (grad : Tensor F) (yt : Tensor (DualNumber F))
      (y : Nat → DualNumber F) (r : Nat → F), Fresh grad .f32 S r → Holds yt .f32 S y →
        (requires = false → Still yt) → pairing requires grad (tangentPart yt) =
          some (∑ l ∈ Finset.range S.prod, r l * (y l).snd) := by
    intro requires grad yt y r hgrad hyt hstill
    cases requires with
    | true => exact innerProduct_holds hgrad.holds (hyt.map TrivSqZeroExt.snd)
    | false =>
      rw [pairing, if_neg Bool.false_ne_true, Finset.sum_eq_zero]
      intro l hl
      rw [(hstill rfl).snd hyt l (Finset.mem_range.1 hl), mul_zero]
  refine ⟨out, gX, gY, total, _, _, _, _, hout, hfresh.shape.trans hshape, hxt.elements,
    htt.elements, ?_, hgrads, hgX.shape.trans hx.shape.symm, hgY.shape.trans ht.shape.symm, htotal,
    hpair ia gX xt e _ hgX hxt hia, hpair ib gY tt h _ hgY htt hib, ?_⟩
  · rw [hfresh.holds.elements, hshape]
    congr 1
    refine map_congr_left fun l hl => ?_
    have hlen : ((List.range S.prod).map e).length = S.prod := by simp
    have hcells : ∀ (y : Nat → DualNumber F) i, i < S.prod →
        ((List.range S.prod).map y).getD i 0 = y i := by
      intro y i hi
      simp [getD, hi]
    have hl := List.mem_range.1 hl
    rw [← hshape, prod_lossShape hxt.shape] at hl
    rw [hlen]
    cases reduction with
    | none =>
      simp only [lossValue, hcells e l hl, hcells h l hl]
    | sum =>
      simp only [lossValue]
      exact sum_congr rfl fun i hi => by
        rw [hcells e i (Finset.mem_range.1 hi), hcells h i (Finset.mem_range.1 hi)]
    | mean =>
      simp only [lossValue]
      congr 1
      exact sum_congr rfl fun i hi => by
        rw [hcells e i (Finset.mem_range.1 hi), hcells h i (Finset.mem_range.1 hi)]
  · rw [hsnd, ← Finset.sum_add_distrib]
    refine sum_congr rfl fun l hl => ?_
    have hl := Finset.mem_range.1 hl
    have hcoefficient := (mse_agree_iff hS (rowMajorValue x S 0 l - rowMajorValue t S 0 l)
      (a l - b l) l).2 (hagree l hl)
    rw [he l hl, hh l hl, hcoefficient]
    ring

/-- The operands and the gradient are read right if the gradients are right. -/
theorem reads_of_mseVjp (hrequires : ia = true ∨ ib = true) (hx : Holds x T S a)
    (ht : Holds t T S b) (hg : Holds g U (lossShape reduction x t) f) (hS : 0 < S.prod) :
    IsMseVjp nan reduction ia ib x t g → MseReads reduction x t g a b f := by
  intro hvjp
  obtain ⟨k, hk, hlossShape⟩ := @lossShape_shifted F S T x t a reduction hx
  have hk' : k < u64Size := by
    unfold u64Size
    omega
  let tensorOf : (Nat → DualNumber F) → Tensor (DualNumber F) := shifted k hk' T S
  have hholds : ∀ v, Holds (tensorOf v) T S v := fun v => (shifted_dense hk hx.bytes v).holds
  -- What the property says of the tangents `v` of the input and `w` of the target.
  have hrun : ∀ v w : Nat → F, (ia = false → v = 0) → (ib = false → w = 0) →
      (T = .f32 ∧ (reduction ≠ .none → SliceOf .f32 g) ∧
        (∀ l < S.prod, rowMajorAt x (coordsOf S l) = some (rowMajorValue x S 0 l)) ∧
        ∀ l < S.prod, rowMajorAt t (coordsOf S l) = some (rowMajorValue t S 0 l)) ∧
      ∑ l ∈ Finset.range S.prod, mseCoefficient reduction S.prod f l *
          ((a l - b l) * (v l - w l)) =
        ∑ l ∈ Finset.range S.prod, (rowMajorValue x S 0 l - rowMajorValue t S 0 l) *
          mseScale reduction S.prod (f 0) * (v l - w l) := by
    intro v w hv hw
    have hxt := hholds fun l => dual (a l) (v l)
    have htt := hholds fun l => dual (b l) (w l)
    have hshape : lossShape reduction (tensorOf fun l => dual (a l) (v l))
        (tensorOf fun l => dual (b l) (w l)) = g.shape := (hlossShape _ _).trans hg.shape.symm
    obtain ⟨out, gX, gY, total, pX, pY, _, _, hout, _, _, _, _, hgrads, _, _, htotal, hpX, hpY,
        heq⟩ := hvjp _ _ (isDualOf_of_holds hx hxt) (isDualOf_of_holds ht htt)
      (fun h => still_of_holds hxt fun l _ => by rw [snd_dual, hv h]; rfl)
      (fun h => still_of_holds htt fun l _ => by rw [snd_dual, hw h]; rfl) hshape
    have hreads := reads_of_mseBackward hrequires hx ht hgrads
    refine ⟨hreads, ?_⟩
    obtain ⟨hT, hslice, hrx, hrt⟩ := hreads
    subst hT
    have hgt : Holds g U (lossShape reduction (tensorOf fun l => dual (a l) (v l))
        (tensorOf fun l => dual (b l) (w l))) f := by
      rw [hshape, hg.shape]
      exact hg
    obtain ⟨out', total', hout', _, htotal', hsnd⟩ := @mse_forward F _ _ _ S U g f reduction nan _ _
      _ _ hxt htt hS hgt
    cases hout'.symm.trans hout
    cases htotal'.symm.trans htotal
    have hG : reduction ≠ .none → (lossShape reduction x t).prod = 1 ∧ SliceOf .f32 g :=
      fun hred => ⟨by rw [prod_lossShape hx.shape, if_neg hred], hslice hred⟩
    obtain ⟨gX', gY', hgrads', hgX, hgY⟩ := mseBackward_reads ia ib hx ht hg hG hrx hrt
    have hsame := ok.inj (hgrads'.symm.trans hgrads)
    have hX : pX = ∑ l ∈ Finset.range S.prod, (rowMajorValue x S 0 l - rowMajorValue t S 0 l) *
        mseScale reduction S.prod (f 0) * v l := by
      cases ia with
      | true =>
        simp only [if_true, cons.injEq, Option.some.injEq] at hsame
        rw [pairing, if_pos rfl, tangentPart, ← hsame.1,
          innerProduct_holds hgX.holds (hxt.map TrivSqZeroExt.snd)] at hpX
        simpa only [snd_dual] using (Option.some_inj.1 hpX).symm
      | false =>
        rw [hv rfl]
        simpa [pairing, eq_comm] using hpX
    have hY : pY = ∑ l ∈ Finset.range S.prod, -((rowMajorValue x S 0 l - rowMajorValue t S 0 l) *
        mseScale reduction S.prod (f 0)) * w l := by
      cases ib with
      | true =>
        simp only [if_true, cons.injEq, Option.some.injEq] at hsame
        rw [pairing, if_pos rfl, tangentPart, ← hsame.2.1,
          innerProduct_holds hgY.holds (htt.map TrivSqZeroExt.snd)] at hpY
        simpa only [snd_dual] using (Option.some_inj.1 hpY).symm
      | false =>
        rw [hw rfl]
        simpa [pairing, eq_comm] using hpY
    simp only [fst_dual, snd_dual] at hsnd
    rw [← hsnd, heq, hX, hY, ← Finset.sum_add_distrib]
    exact sum_congr rfl fun l _ => by ring
  obtain ⟨⟨hT, hslice, hrx, hrt⟩, _⟩ := hrun 0 0 (fun _ => rfl) fun _ => rfl
  refine ⟨hx.dtype.trans hT, ?_, ?_, hslice, ?_⟩
  · rwa [hx.shape]
  · rwa [hx.shape]
  · rw [hx.shape]
    intro l hl
    refine (mse_agree_iff hS _ _ l).1 ?_
    rcases hrequires with rfl | rfl
    · have hcell := (hrun (fun i => if i = l then 1 else 0) 0 (fun h => by cases h)
        fun _ => rfl).2
      simp only [Pi.zero_apply, sub_zero, mul_ite, mul_one, mul_zero, sum_ite_eq',
        Finset.mem_range, hl, if_true] at hcell
      rw [← hcell, mul_comm]
    · have hcell := (hrun 0 (fun i => if i = l then 1 else 0) (fun _ => rfl)
        fun h => by cases h).2
      simp only [Pi.zero_apply, zero_sub, mul_neg, Finset.sum_neg_distrib, neg_inj, mul_ite,
        mul_one, mul_zero, sum_ite_eq', Finset.mem_range, hl, if_true] at hcell
      rw [← hcell, mul_comm]

end Mse

/-! ## Cross-entropy -/

section TargetLoop

variable {F : Type} [Field F] {n c : Nat} {cls : Nat → Nat}

theorem subOne_range {N idx : Nat} (q : Nat → F) (hidx : idx < N) :
    subOne ((List.range N).map q) idx =
      some ((List.range N).map fun l => q l - if l = idx then 1 else 0) := by
  have hget : ((List.range N).map q)[idx]? = some (q idx) := by
    rw [getElem?_map, getElem?_range hidx]
    rfl
  simp only [subOne, hget, Option.bind_eq_bind, Option.bind_some, Option.some.injEq]
  refine ext_getElem (by simp) fun l hl hl' => ?_
  by_cases hcell : idx = l
  · simp [hcell]
  · simp [hcell, Ne.symm hcell]

theorem foldlM_subOne (hcls : ∀ i < n, cls i < c) (hfits : n * c < u64Size) (s : Nat → F) :
    ∀ m ≤ n, (List.range m).foldlM (fun gradInput i =>
        subOne gradInput ((i * c + asU64 (cls i : Int)) % u64Size)) ((List.range (n * c)).map s) =
      some ((List.range (n * c)).map fun l =>
        s l - if l / c < m ∧ l % c = cls (l / c) then 1 else 0) := by
  intro m hm
  induction m with
  | zero => simp
  | succ m ih =>
    have hlt := hcls m hm
    have hcell : m * c + cls m < n * c := Rows.cell_lt hm hlt
    have hclass : asU64 (cls m : Int) = cls m := by
      rw [asU64_of_nonneg (by omega) (by unfold u64Size at hfits; omega), Int.toNat_natCast]
    rw [range_succ, foldlM_append, ih (by omega), Option.bind_eq_bind, Option.bind_some,
      foldlM_cons, hclass, Nat.mod_eq_of_lt (by omega), subOne_range _ hcell]
    simp only [foldlM_nil, Option.bind_eq_bind, Option.bind_some, Option.pure_def,
      Option.some.injEq]
    refine map_congr_left fun l _ => ?_
    have hc : 0 < c := by omega
    have hwhere : l = m * c + cls m ↔ l / c = m ∧ l % c = cls m := by
      constructor
      · rintro rfl
        rw [Nat.mul_comm]
        exact ⟨by rw [Nat.mul_add_div hc, Nat.div_eq_of_lt hlt, Nat.add_zero],
          by rw [Nat.mul_add_mod, Nat.mod_eq_of_lt hlt]⟩
      · rintro ⟨rfl, hmod⟩
        rw [← hmod, Nat.mul_comm, Nat.div_add_mod]
    rw [sub_sub]
    congr 1
    by_cases hrow : l / c = m
    · by_cases hmod : l % c = cls m
      · rw [if_neg (by omega), if_pos (hwhere.2 ⟨hrow, hmod⟩),
          if_pos ⟨by omega, hrow.symm ▸ hmod⟩, zero_add]
      · rw [if_neg (by omega), if_neg fun h => hmod (hwhere.1 h).2,
          if_neg fun h => hmod (hrow ▸ h.2), add_zero]
    · rw [if_neg fun h => hrow (hwhere.1 h).1, add_zero]
      refine if_congr (and_congr_left fun _ => ?_) rfl rfl
      omega

end TargetLoop

section CrossEntropy

variable {F : Type} [Field F] {n c : Nat} {cls : Nat → Nat} {T U : Dtype} {G : Shape}
  {x g sm : Tensor F} {target : Tensor Int} {a f w : Nat → F} {reduction : Reduction}

theorem cellOn_sample {i k : Nat} (hi : i < n) : cellOn [n, c] 1 i k = i * c + k := by
  have hcoords : coordsOf [n, 1] i = [i, 0] := by
    have hlast := coordsOf_concat [n] 1 i
    have hrow := coordsOf_concat [] n i
    rw [nil_append] at hrow
    rw [Nat.div_one, Nat.mod_one, hrow, Nat.mod_eq_of_lt hi] at hlast
    exact hlast
  change linearOf [n, c] ((coordsOf [n, 1] i).set 1 k) = _
  rw [hcoords]
  change k + c * (i + n * 0) = _
  ring

def crossEntropyScale (reduction : Reduction) (n : Nat) (v : F) : F :=
  match reduction with
  | .mean => v / n
  | _ => v

/-- What the logarithms at the targets move by. -/
theorem sum_sampleLoss (hn : 0 < n) (hc : 0 < c) (hcls : ∀ i < n, cls i < c) (w v : Nat → F) :
    ∑ i ∈ Finset.range n, -(v (i * c + cls i) - lineMean [n, c] 1 w v (i * c + cls i)) =
      ∑ l ∈ Finset.range [n, c].prod,
        (w l - if l / c < n ∧ l % c = cls (l / c) then 1 else 0) * v l := by
  have h0 : 0 ∉ [n, c] := by
    simp only [List.mem_cons, not_mem_nil, or_false, not_or]
    omega
  have hlines : ([n, c].set 1 1).prod = n := by simp
  have hd : 1 < [n, c].length := by simp
  rw [sum_lines h0 hd, hlines]
  refine sum_congr rfl fun i hi => ?_
  have hi := Finset.mem_range.1 hi
  have hwhere : ∀ k < c, (i * c + k) / c = i ∧ (i * c + k) % c = k := by
    intro k hk
    rw [Nat.mul_comm]
    exact ⟨by rw [Nat.mul_add_div hc, Nat.div_eq_of_lt hk, Nat.add_zero],
      by rw [Nat.mul_add_mod, Nat.mod_eq_of_lt hk]⟩
  have hmean := lineMean_cellOn h0 hd w v (hlines.symm ▸ hi) (hcls i hi)
  change _ = ∑ k ∈ Finset.range c, _ at hmean
  simp only [cellOn_sample hi] at hmean ⊢
  calc
    _ = ∑ k ∈ Finset.range c, w (i * c + k) * v (i * c + k) -
          ∑ k ∈ Finset.range c, if k = cls i then v (i * c + k) else 0 := by
          rw [sum_ite_eq', if_pos (Finset.mem_range.2 (hcls i hi)), hmean]
          ring
    _ = _ := by
          rw [← Finset.sum_sub_distrib]
          refine sum_congr rfl fun k hk => ?_
          obtain ⟨hdiv, hmod⟩ := hwhere k (Finset.mem_range.1 hk)
          rw [hdiv, hmod]
          by_cases hclass : k = cls i
          · rw [if_pos hclass, if_pos ⟨hi, hclass⟩]
            ring
          · rw [if_neg hclass, if_neg fun h => hclass h.2]
            ring

/-- What the node returns. -/
theorem crossEntropyBackward_ok (hx : Holds x .f32 [n, c] a) (hsm : Fresh sm .f32 [n, c] w)
    (ht : Holds target .i64 [n] fun i => (cls i : Int)) (htarget : SliceOf .i64 target)
    (hcls : ∀ i < n, cls i < c) (hg : Holds g U G f) (hG : G.prod = 1) (hgrad : SliceOf .f32 g) :
    ∃ gX, crossEntropyBackward reduction x sm target g = .ok [some gX] ∧
      Fresh gX .f32 [n, c] (fun l =>
        (w l - if l / c < n ∧ l % c = cls (l / c) then 1 else 0) *
          crossEntropyScale reduction n (f 0)) := by
  have hprod : [n, c].prod = n * c := by simp
  have hfits : n * c < u64Size := by
    have hlt := prod_lt_of_bytes hx.bytes
    rw [hprod] at hlt
    exact hlt
  have hzip : ((List.range n).map fun i => (cls i : Int)).zipIdx =
      (List.range n).map fun i => ((cls i : Int), i) := by
    refine ext_getElem (by simp) fun i _ _ => ?_
    simp
  have hscale : CrossEntropyBackward.scale
      { softmaxSaved := sm, target := target, nSamples := n, nClasses := c,
        reduction := reduction } g = .ok (crossEntropyScale reduction n (f 0)) := by
    cases reduction <;> simp [CrossEntropyBackward.scale, crossEntropyScale,
      gradScalar_ok hg hG hgrad]
  obtain ⟨gX, hgX, hfresh⟩ := @fromVecTyped_fresh F .f32 [n, c] (fun l =>
    (w l - if l / c < n ∧ l % c = cls (l / c) then 1 else 0) *
      crossEntropyScale reduction n (f 0)) hx.bytes
  refine ⟨gX, ?_, hfresh⟩
  have hloop := foldlM_subOne hcls hfits w n (le_refl n)
  have htargets := (fresh_of_sliceOf htarget ht).asSlice
  rw [show ([n] : Shape).prod = n by simp] at htargets
  rw [hprod] at hgX
  rw [crossEntropyBackward, hx.shape, CrossEntropyBackward.apply, hsm.asSlice, htargets]
  simp only [unwrap_ok, ok_bind, hzip, foldlM_map, getD_cons_zero, getD_cons_succ, hprod]
  rw [hloop]
  simp only [expect_some, ok_bind, hscale, List.map_map]
  rw [show ((fun v => v * crossEntropyScale reduction n (f 0)) ∘ fun l =>
    w l - if l / c < n ∧ l % c = cls (l / c) then 1 else 0) = fun l =>
      (w l - if l / c < n ∧ l % c = cls (l / c) then 1 else 0) *
        crossEntropyScale reduction n (f 0) from rfl, hgX]
  rfl

/-- What a node that returns has read. -/
theorem slices_of_crossEntropyBackward {gs : List (Option (Tensor F))}
    (h : crossEntropyBackward reduction x sm target g = .ok gs) :
    sm.layout.dtype = .f32 ∧ SliceOf .i64 target ∧ SliceOf .f32 g := by
  obtain ⟨_, hsm, h⟩ := bind_eq_ok.1 h
  obtain ⟨_, ht, h⟩ := bind_eq_ok.1 h
  obtain ⟨_, _, h⟩ := bind_eq_ok.1 h
  obtain ⟨_, hscale, _⟩ := bind_eq_ok.1 h
  refine ⟨(sliceOf_of_unwrap hsm).1, sliceOf_of_unwrap ht, ?_⟩
  cases reduction with
  | mean =>
    obtain ⟨_, hv, _⟩ := bind_eq_ok.1 hscale
    exact sliceOf_of_gradScalar hv
  | sum => exact sliceOf_of_gradScalar hscale
  | none => exact sliceOf_of_gradScalar hscale

end CrossEntropy

/-! ## Both losses -/

section Losses

variable {F : Type} [Field F] [LinearOrder F] [IsStrictOrderedRing F] {exp ln : F → F} {n c : Nat}
  {cls : Nat → Nat} {T U : Dtype} {x g : Tensor F} {target : Tensor Int} {a f : Nat → F}
  {reduction : Reduction}

/-- The shape of the loss. -/
def crossEntropyShape (reduction : Reduction) (n : Nat) : Shape :=
  match reduction with
  | .none => [n]
  | _ => []

/-- For inputs over the elements of `x`, the loss is the reduction of the negative logarithms at the
classes, and the gradient pairs with the tangent to the second part of what `g` pairs with. -/
def IsCrossEntropyVjp (exp ln : F → F) (reduction : Reduction) (n c : Nat) (cls : Nat → Nat)
    (x : Tensor F) (target : Tensor Int) (g : Tensor F) : Prop :=
  ∀ xt : Tensor (DualNumber F), IsDualOf xt x →
    ∃ (lp : Tensor (Extended (DualNumber F))) (logs : List (DualNumber F))
      (out sm : Tensor (Extended (DualNumber F))) (gX : Tensor F) (total : DualNumber F)
      (paired : F),
      logSoftmax (liftExp exp) (liftLn ln) (xt.map .fin) 1 = .ok lp ∧
      lp.elements = some (logs.map .fin) ∧
      crossEntropy (liftExp exp) (liftLn ln) (xt.map .fin) target reduction = .ok out ∧
      out.shape = g.shape ∧
      out.elements = some ((List.range g.shape.prod).map fun l => .fin (lossValue
        (fun n => (n : DualNumber F)) reduction n
          (sampleLoss c (fun i => logs.getD i 0) cls) l)) ∧
      softmax (liftExp exp) (liftLn ln) (xt.map .fin) 1 = .ok sm ∧
      crossEntropyBackward reduction x (Core.realPart (sm.map finPart)) target g =
        .ok [some gX] ∧
      gX.shape = x.shape ∧ innerProduct (constant g) (out.map finPart) = some total ∧
      innerProduct gX (tangentPart xt) = some paired ∧ total.snd = paired

/-- A reduction, `F32` logits, and slices of the targets and of the gradient. -/
structure CrossEntropyReads (reduction : Reduction) (x : Tensor F) (target : Tensor Int)
    (g : Tensor F) : Prop where
  reduced : reduction ≠ .none
  float : x.layout.dtype = .f32
  targets : SliceOf .i64 target
  slice : SliceOf .f32 g

omit [LinearOrder F] [IsStrictOrderedRing F] in
theorem snd_crossEntropy (hred : reduction ≠ .none) (o : Nat → DualNumber F) (f : Nat → F) :
    (∑ l ∈ Finset.range (crossEntropyShape reduction n).prod, inl (f l) *
      lossValue (fun n => (n : DualNumber F)) reduction n (sampleLoss c o cls) l).snd =
      crossEntropyScale reduction n (f 0) *
        ∑ i ∈ Finset.range n, -(o (i * c + cls i)).snd := by
  cases reduction with
  | none => exact absurd rfl hred
  | sum =>
    change TrivSqZeroExt.snd (∑ l ∈ range 1, (_ : DualNumber F)) = _
    rw [sum_range_one, snd_inl_mul]
    simp only [lossValue, crossEntropyScale, snd_sum, sampleLoss, snd_neg]
  | mean =>
    have hcount : ((n : DualNumber F)).snd = 0 := snd_natCast n
    have hcount' : ((n : DualNumber F)).fst = n := fst_natCast n
    change TrivSqZeroExt.snd (∑ l ∈ range 1, (_ : DualNumber F)) = _
    rw [sum_range_one, snd_inl_mul]
    simp only [lossValue, crossEntropyScale]
    rw [snd_div, hcount, hcount', mul_zero, sub_zero, snd_sum]
    simp only [sampleLoss, snd_neg]
    ring

omit [LinearOrder F] [IsStrictOrderedRing F] in
theorem lossValue_getD (hred : reduction ≠ .none) (hcls : ∀ i < n, cls i < c)
    (o : Nat → DualNumber F) (l : Nat) :
    lossValue (fun n => (n : DualNumber F)) reduction n (sampleLoss c o cls) l =
      lossValue (fun n => (n : DualNumber F)) reduction n
        (sampleLoss c (fun i => ((List.range [n, c].prod).map o).getD i 0) cls) l := by
  have hsample : ∀ i ∈ Finset.range n, sampleLoss c o cls i =
      sampleLoss c (fun i => ((List.range [n, c].prod).map o).getD i 0) cls i := by
    intro i hi
    have hi := Finset.mem_range.1 hi
    have hcell : i * c + cls i < [n, c].prod := by
      rw [List.prod_cons, List.prod_singleton]
      exact Rows.cell_lt hi (hcls i hi)
    simp only [sampleLoss]
    rw [getD_eq_getElem?_getD, getElem?_map, getElem?_range hcell]
    rfl
  have hsum := sum_congr rfl hsample
  cases reduction with
  | none => exact absurd rfl hred
  | sum => simp only [lossValue, hsum]
  | mean => simp only [lossValue, hsum]

/-- The logarithms at the classes move against the tangent by the softmax, less one at the class. -/
theorem sum_logSoftmax_snd (hexp : ExpLaws exp) (hln : ∀ y, 0 < y → exp (ln y) = y) (hn : 0 < n)
    (hc : 0 < c) (hcls : ∀ i < n, cls i < c) {e o w : Nat → DualNumber F}
    (ho : IsAgainst (liftExp exp) (liftLn ln) true [n, c] 1 e o)
    (hw : IsAgainst (liftExp exp) (liftLn ln) false [n, c] 1 e w) :
    ∑ i ∈ Finset.range n, -(o (i * c + cls i)).snd =
      ∑ l ∈ Finset.range [n, c].prod,
        ((w l).fst - if l / c < n ∧ l % c = cls (l / c) then 1 else 0) * (e l).snd := by
  have h0 : 0 ∉ [n, c] := by
    simp only [List.mem_cons, not_mem_nil, or_false, not_or]
    omega
  have hd : 1 < [n, c].length := by simp
  calc
    _ = ∑ i ∈ Finset.range n, -((e (i * c + cls i)).snd -
          lineMean [n, c] 1 (lineWeight exp [n, c] 1 fun l => (e l).fst)
            (fun l => (e l).snd) (i * c + cls i)) := by
          refine sum_congr rfl fun i hi => ?_
          have hi := Finset.mem_range.1 hi
          have hcell : i * c + cls i < [n, c].prod := by
            rw [← @cellOn_sample n c i (cls i) hi]
            exact cellOn_lt h0 (hcls i hi)
          rw [(logSoftmax_value hexp hln h0 hd ho hcell).2]
    _ = _ := sum_sampleLoss hn hc hcls _ fun l => (e l).snd
    _ = _ := sum_congr rfl fun l hl => by
          rw [(softmax_value hexp h0 hd hw (Finset.mem_range.1 hl)).1]

theorem crossEntropyVjp_of_reads (hexp : ExpLaws exp) (hln : ∀ y, 0 < y → exp (ln y) = y)
    (hx : Holds x T [n, c] a) (ht : Holds target .i64 [n] fun i => (cls i : Int))
    (hg : Holds g U (crossEntropyShape reduction n) f) (hn : 0 < n) (hc : 0 < c)
    (hcls : ∀ i < n, cls i < c) :
    CrossEntropyReads reduction x target g →
      IsCrossEntropyVjp exp ln reduction n c cls x target g := by
  rintro ⟨hred, hfloat, htargets, hslice⟩ xt hdual
  have hT : T = .f32 := hx.dtype.symm.trans hfloat
  subst hT
  have h0 : 0 ∉ [n, c] := by
    simp only [List.mem_cons, not_mem_nil, or_false, not_or]
    omega
  have hd : 1 < [n, c].length := by simp
  obtain ⟨e, hxt, he⟩ := hdual.holds hx
  have hcount : (n : DualNumber F) ≠ 0 := by
    intro hzero
    have hfst := congrArg TrivSqZeroExt.fst hzero
    rw [fst_natCast, TrivSqZeroExt.fst_zero, Nat.cast_eq_zero] at hfst
    omega
  have hG : crossEntropyShape reduction n = [] := by
    cases reduction with
    | none => exact absurd rfl hred
    | sum => rfl
    | mean => rfl
  -- Forward: the logarithms and the loss; backward: the saved softmax and the gradient.
  obtain ⟨lp, o, out, hlp, hlpf, ho, hout, hfresh⟩ := @crossEntropy_ok (DualNumber F) _ _ _ _
    (liftExp exp) (liftLn ln) n c .f32 _ target e cls reduction _ (expScalars_dual hexp) hn hc hcount
    (Or.inl rfl) (hxt.map fin) ht hcls hred
  obtain ⟨sm, w, hsm, hsmf, hw⟩ := @softmaxDispatch_holds (DualNumber F) _ _ _ _ _ (liftExp exp)
    (liftLn ln) false [n, c] 1 .f32 _ e (expScalars_dual hexp) "softmax" h0 hd (Or.inl rfl)
    (hxt.map fin)
  have hsaved : Fresh (Core.realPart (sm.map finPart)) .f32 [n, c] fun l => (w l).fst :=
    (hsmf.map finPart).map TrivSqZeroExt.fst
  obtain ⟨gX, hgX, hgXf⟩ := @crossEntropyBackward_ok F _ n c cls U _ x g _ target a f _ reduction hx
    hsaved ht htargets hcls hg (by rw [hG]; rfl) hslice
  have hgrad : Holds g U [] f := hG ▸ hg
  have houtf : Holds (out.map finPart) .f32 (crossEntropyShape reduction n) fun l =>
      lossValue (fun n => (n : DualNumber F)) reduction n (sampleLoss c o cls) l := by
    rw [hG]
    exact (hfresh.map finPart).holds
  refine ⟨lp, (List.range [n, c].prod).map o, out, sm, gX, _, _, hlp, ?_, hout,
    hfresh.shape.trans hgrad.shape.symm, ?_, hsm, hgX, hgXf.shape.trans hx.shape.symm,
    innerProduct_holds (hg.map inl) houtf,
    innerProduct_holds hgXf.holds (hxt.map TrivSqZeroExt.snd), ?_⟩
  · rw [hlpf.holds.elements, List.map_map]
    rfl
  · rw [hfresh.holds.elements, hgrad.shape]
    congr 1
    exact map_congr_left fun l _ => congrArg fin (lossValue_getD hred hcls o l)
  · rw [snd_crossEntropy hred, sum_logSoftmax_snd hexp hln hn hc hcls ho hw, mul_sum]
    exact sum_congr rfl fun l _ => by ring

theorem reads_of_crossEntropyVjp (hexp : ExpLaws exp)
    (hx : Holds x T [n, c] a) (hn : 0 < n) (hc : 0 < c) :
    IsCrossEntropyVjp exp ln reduction n c cls x target g →
      CrossEntropyReads reduction x target g := by
  intro hvjp
  have h0 : 0 ∉ [n, c] := by
    simp only [List.mem_cons, not_mem_nil, or_false, not_or]
    omega
  have hxt : Holds (x.map fun v => dual v 0) T [n, c] fun l => dual (a l) 0 :=
    hx.map fun v => dual v 0
  obtain ⟨lp, _, out, sm, gX, _, _, hlp, _, hout, _, _, hsm, hgX, _⟩ :=
    hvjp _ (isDualOf_of_holds hx hxt)
  have hT : T = .f32 ∨ T = .f64 := by
    have hfloat := softmaxDispatch_float hsm
    rwa [Tensor.map, Tensor.map, hx.dtype] at hfloat
  obtain ⟨sm', w, hsm', hsmf, _⟩ := @softmaxDispatch_holds (DualNumber F) _ _ _ _ _ (liftExp exp)
    (liftLn ln) false [n, c] 1 T _ _ (expScalars_dual hexp) "softmax" h0 (by simp) hT
    (hxt.map fin)
  cases hsm'.symm.trans hsm
  obtain ⟨hdtype, htargets, hslice⟩ := slices_of_crossEntropyBackward hgX
  refine ⟨?_, hx.dtype.trans (hsmf.dtype.symm.trans hdtype), htargets, hslice⟩
  rintro rfl
  exact crossEntropy_none hout

/-- The gradients of the losses are the vector-Jacobian products exactly if, for the squared error,
the operands and the gradient are read right, and, for cross-entropy, there is a reduction and the
logits, the targets and the gradient are slices of the types that the node takes. -/
theorem losses_vjp_iff {nan : DualNumber F} {ia ib : Bool} {S : Shape} {V W : Dtype}
    {input goal grad : Tensor F} {b h r : Nat → F} (hadd : ∀ x y, exp (x + y) = exp x * exp y)
    (hlnexp : ∀ x, ln (exp x) = x) (hexpln : ∀ y, 0 < y → exp (ln y) = y)
    (hrequires : ia = true ∨ ib = true) (hinput : Holds input V S b) (hgoal : Holds goal V S h)
    (hgrad : Holds grad W (lossShape reduction input goal) r) (hS : 0 < S.prod)
    (hx : Holds x T [n, c] a) (ht : Holds target .i64 [n] fun i => (cls i : Int))
    (hg : Holds g U (crossEntropyShape reduction n) f) (hn : 0 < n) (hc : 0 < c)
    (hcls : ∀ i < n, cls i < c) :
    (IsMseVjp nan reduction ia ib input goal grad ↔ MseReads reduction input goal grad b h r) ∧
      (IsCrossEntropyVjp exp ln reduction n c cls x target g ↔
        CrossEntropyReads reduction x target g) := by
  have hexp := expLaws_of_inverse hadd hlnexp
  constructor
  · exact ⟨reads_of_mseVjp hrequires hinput hgoal hgrad hS, mseVjp_of_reads hinput hgoal hgrad hS⟩
  · exact ⟨reads_of_crossEntropyVjp hexp hx hn hc,
      crossEntropyVjp_of_reads hexp hexpln hx ht hg hn hc hcls⟩

/-- Elements of a shape, in a buffer of their own. -/
def bufferOf {α : Type} (T : Dtype) (S : Shape) (v : Nat → α) : Tensor α where
  storage := (List.range S.prod).map v
  layout := contiguous S T

theorem bufferOf_fresh {α : Type} {T : Dtype} {S : Shape} (v : Nat → α)
    (h : S.prod * T.byteSize < 2 ^ 63) : Fresh (bufferOf T S v) T S v :=
  fresh_contiguous h

/-- The summed losses of two samples of two classes. -/
theorem losses_vjp_two_samples :
    IsMseVjp 0 .sum true true (bufferOf .f32 [2, 2] fun l => (l : ℝ))
        (bufferOf .f32 [2, 2] fun _ => 0) (bufferOf .f32 [1] fun _ => 2) ∧
      IsCrossEntropyVjp Real.exp Real.log .sum 2 2 (fun i => i)
        (bufferOf .f32 [2, 2] fun l => (l : ℝ)) (bufferOf .i64 [2] fun i => (i : Int))
        (bufferOf .f32 [] fun _ => 2) := by
  have hx := @bufferOf_fresh ℝ .f32 [2, 2] (fun l => l) (by decide)
  have ht := @bufferOf_fresh ℝ .f32 [2, 2] (fun _ => 0) (by decide)
  have hgrad := @bufferOf_fresh ℝ .f32 [1] (fun _ => 2) (by decide)
  have hg := @bufferOf_fresh ℝ .f32 [] (fun _ => 2) (by decide)
  have hclasses := @bufferOf_fresh Int .i64 [2] (fun i => i) (by decide)
  have hread : ∀ {v : Nat → ℝ} {t : Tensor ℝ}, Fresh t .f32 [2, 2] v → ∀ l < [2, 2].prod,
      rowMajorAt t (coordsOf [2, 2] l) = some (v l) := by
    intro v t h l hl
    have hcell := rowMajorAt_dense h.toDense (stretches_self [2, 2]) hl
    rwa [h.shape, restrict_self (inBounds_coordsOf (by decide)), sourceIndex_self hl] at hcell
  have hvalue : ∀ {v : Nat → ℝ} {t : Tensor ℝ}, Fresh t .f32 [2, 2] v → ∀ l < [2, 2].prod,
      rowMajorValue t [2, 2] 0 l = v l := by
    intro v t h l hl
    rw [rowMajorValue, hread h l hl, Option.getD_some]
  have hsum : lossShape .sum (bufferOf .f32 [2, 2] fun l => (l : ℝ))
      (bufferOf .f32 [2, 2] fun _ => 0) = [1] := rfl
  obtain ⟨hmse, hcrossEntropy⟩ := @losses_vjp_iff ℝ _ _ _ Real.exp Real.log 2 2 (fun i => i) .f32
    .f32 _ _ _ _ _ .sum 0 true true [2, 2] .f32 .f32 _ _ _ _ _ _ Real.exp_add Real.log_exp
    (fun _ => Real.exp_log) (Or.inl rfl) hx.holds ht.holds (hsum ▸ hgrad.holds) (by decide)
    hx.holds hclasses.holds hg.holds (by decide) (by decide) (fun _ h => h)
  refine ⟨hmse.2 ⟨rfl, ?_, ?_, fun _ => ⟨rfl, rfl, rfl⟩, ?_⟩,
    hcrossEntropy.2 ⟨by simp, rfl, ⟨rfl, rfl, rfl⟩, ⟨rfl, rfl, rfl⟩⟩⟩
  · intro l hl
    exact (hread hx l hl).trans (congrArg some (hvalue hx l hl)).symm
  · intro l hl
    exact (hread ht l hl).trans (congrArg some (hvalue ht l hl)).symm
  · intro l hl
    exact Or.inr (congrArg₂ _ (hvalue hx l hl) (hvalue ht l hl))

/-- Cross-entropy without a reduction does not return. -/
theorem losses_vjp_unreduced_fails :
    ¬ IsCrossEntropyVjp Real.exp Real.log .none 2 2 (fun i => i)
      (bufferOf .f32 [2, 2] fun l => (l : ℝ)) (bufferOf .i64 [2] fun i => (i : Int))
      (bufferOf .f32 [2] fun _ => 2) := by
  intro hvjp
  exact (reads_of_crossEntropyVjp (expLaws_of_inverse Real.exp_add Real.log_exp)
    (bufferOf_fresh (fun l => (l : ℝ)) (by decide)).holds (by decide) (by decide) hvjp).reduced rfl

end Losses

end Autograd
end Rustorch
