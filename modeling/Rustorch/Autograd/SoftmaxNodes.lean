import Rustorch.Attention.KeyTiles
import Rustorch.Autograd.BinaryNodes
import Rustorch.Cpu.SoftmaxFinite
import Rustorch.Lib.DualNumbers

/-!
# Backward of softmax

`SoftmaxBackward` and `LogSoftmaxBackward` reduce along the axis with the axis kept, and broadcast
the sums back over it.  The products and differences read the upstream gradient as a row-major
buffer; the sum of `LogSoftmaxBackward` follows its strides.  What they return is the
vector-Jacobian product of the forward operation exactly if the buffer reads right, for softmax up
to a constant on each line (`softmax_vjp_iff`).
-/

namespace Rustorch
namespace Autograd

open Rustorch.Core Cpu DualNumbers Outcome TrivSqZeroExt Layout
open Attention (finPart)
open OnlineSoftmax (ExpLaws)
open Finset (mem_range nonempty_range_iff range sum_congr sum_mul sum_sub_distrib)

/-! ## The nodes -/

section Model

variable {F : Type}

/-- `unary_float`. -/
def unaryFloat (opName : String) (f : F → F) (src : Tensor F) : Outcome BackendError (Tensor F) :=
  match src.layout.dtype with
  | .f32 => mapUnary .f32 .f32 opName f src
  | .f64 => mapUnary .f64 .f64 opName f src
  | d => .err (.dtypeMismatch opName d d)

structure SoftmaxBackward (F : Type) where
  savedOut : Tensor F
  dim : Nat

structure LogSoftmaxBackward (F : Type) where
  savedOut : Tensor F
  dim : Nat

variable [CommRing F]

def SoftmaxBackward.apply (node : SoftmaxBackward F) (grad : Tensor F) :
    Outcome BackwardError (List (Option (Tensor F))) := do
  let gy ← unwrap (dispatchBinaryTyped "mul" (· * ·) grad node.savedOut)
  let dot ← unwrap (sumDim gy [node.dim] true)
  let diff ← unwrap (dispatchBinaryTyped "sub" (· - ·) grad dot)
  let g ← unwrap (dispatchBinaryTyped "mul" (· * ·) node.savedOut diff)
  pure [some g]

def LogSoftmaxBackward.apply (exp : F → F) (node : LogSoftmaxBackward F) (grad : Tensor F) :
    Outcome BackwardError (List (Option (Tensor F))) := do
  let s ← unwrap (unaryFloat "exp" exp node.savedOut)
  let sumG ← unwrap (sumDim grad [node.dim] true)
  let sSum ← unwrap (dispatchBinaryTyped "mul" (· * ·) s sumG)
  let g ← unwrap (dispatchBinaryTyped "sub" (· - ·) grad sSum)
  pure [some g]

/-- The node that the forward operation records, applied to a gradient. -/
def softmaxBackward (exp : F → F) (logForm : Bool) (savedOut : Tensor F) (dim : Nat)
    (grad : Tensor F) : Outcome BackwardError (List (Option (Tensor F))) :=
  if logForm then
    LogSoftmaxBackward.apply exp { savedOut := savedOut, dim := dim } grad
  else
    SoftmaxBackward.apply { savedOut := savedOut, dim := dim } grad

end Model

/-! ## Sums along one axis -/

section Lines

variable {S : Shape} {d : Nat}

theorem reduceFrom_single (fill : Nat) (xs : List Nat) :
    ∀ (d k : Nat), reduceFrom [k + d] true fill k xs = xs.set d fill := by
  have hpast : ∀ (xs : List Nat) (j k : Nat), j < k → reduceFrom [j] true fill k xs = xs := by
    intro xs
    induction xs with
    | nil => exact fun _ _ _ => rfl
    | cons x xs ih =>
      intro j k hj
      rw [reduceFrom_cons, if_neg (by simp; omega), ih j (k + 1) (by omega)]
      rfl
  induction xs with
  | nil => exact fun _ _ => rfl
  | cons x xs ih =>
    intro d k
    rw [reduceFrom_cons]
    cases d with
    | zero =>
      rw [if_pos (by simp), if_pos rfl, hpast xs _ _ (by omega)]
      rfl
    | succ d =>
      rw [if_neg (by simp), show k + (d + 1) = (k + 1) + d by omega, ih d (k + 1)]
      rfl

theorem reducedShape_single (S : Shape) (d : Nat) : reducedShape S [d] true = S.set d 1 := by
  have hset := reduceFrom_single 1 S d 0
  rwa [Nat.zero_add, ← reducedShape_eq] at hset

theorem reducedCell_single (S : Shape) (d l : Nat) : reducedCell S [d] true l = lineOf S d l := by
  have hset := reduceFrom_single 0 (coordsOf S l) d 0
  rw [Nat.zero_add, ← reducedCoords_eq] at hset
  rw [reducedCell, reducedShape_single, hset]
  rfl

theorem cellSum_line {M : Type} [AddCommMonoid M] (h0 : 0 ∉ S) (hd : d < S.length) (f : Nat → M)
    (l : Nat) :
    cellSum S [d] true f (lineOf S d l) = ∑ k ∈ range (S.getD d 0), alongLine S d f l k := by
  simp only [cellSum, reducedCell_single]
  exact sum_line h0 hd (lineOf_lt h0 l) f

theorem stretches_set (S : Shape) (d : Nat) : Stretches (S.set d 1) S := by
  refine ⟨by simp, ?_⟩
  rw [List.length_set, Nat.sub_self, List.drop_zero]
  induction S generalizing d with
  | nil => exact .nil
  | cons n S ih =>
    cases d with
    | zero => exact .cons (Or.inr rfl) (List.forall₂_same.2 fun _ _ => Or.inl rfl)
    | succ d => exact .cons (Or.inl rfl) (ih d)

theorem sourceIndex_set (h0 : 0 ∉ S) (l : Nat) :
    sourceIndex (S.set d 1) S l = lineOf S d l := by
  have hrestrict : ∀ {S : Shape} {I : List Nat} {d : Nat}, InBounds S I →
      restrictAxes (S.set d 1) I = I.set d 0 := by
    intro S I d hI
    induction hI generalizing d with
    | nil => rfl
    | @cons n c S I hc htail ih =>
      have hself : ∀ {S I : List Nat}, InBounds S I → restrictAxes S I = I := by
        intro S I h
        have hsame := restrict_self h
        rwa [restrict, Nat.sub_self, List.drop_zero] at hsame
      cases d with
      | zero =>
        have hrest := hself htail
        rw [restrictAxes] at hrest
        simp [restrictAxes, hrest]
      | succ d =>
        have hhead : (if n = 1 then 0 else c) = c := by
          split_ifs with hn
          · omega
          · rfl
        have hrest := @ih d
        rw [restrictAxes] at hrest
        simp [restrictAxes, hrest, hhead]
  rw [sourceIndex, restrict, List.length_set, Nat.sub_self, List.drop_zero,
    hrestrict (inBounds_coordsOf h0)]
  rfl

end Lines

/-! ## What the forward operation gives at dual numbers -/

section Values

variable {F : Type} [Field F] [LinearOrder F] [IsStrictOrderedRing F] {exp ln : F → F} {S : Shape}
  {d : Nat} {e o : Nat → DualNumber F}

variable (hexp : ExpLaws exp)

include hexp

theorem expScalars_dual : ExpScalars (liftExp exp) where
  add x y := by
    refine ext ?_ ?_
    · simp [liftExp, hexp.add]
    · simp only [liftExp, snd_dual, fst_dual, fst_add, snd_add, DualNumber.snd_mul, hexp.add]
      ring
  zero := by
    refine ext ?_ ?_
    · simp [liftExp, hexp.zero]
    · simp [liftExp]
  mul_one_div a b := by
    change a * (1 * b⁻¹) = a * b⁻¹
    rw [one_mul]
  sum_pos n a hn := by
    change (0 : DualNumber F).fst < (∑ k ∈ range n, liftExp exp (a k)).fst
    rw [fst_sum, fst_zero]
    exact Finset.sum_pos (fun k _ => by simpa [liftExp] using hexp.pos _)
      (nonempty_range_iff.2 hn.ne')
  ne_zero x hx := by
    rintro rfl
    exact lt_irrefl _ hx

/-- The softmax of the line of a cell, at the cell. -/
def lineWeight (exp : F → F) (S : Shape) (d : Nat) (f : Nat → F) (l : Nat) : F :=
  exp (f l) / ∑ k ∈ range (S.getD d 0), exp (alongLine S d f l k)

/-- The mean of a line under weights. -/
def lineMean (S : Shape) (d : Nat) (w u : Nat → F) (l : Nat) : F :=
  ∑ k ∈ range (S.getD d 0), alongLine S d w l k * alongLine S d u l k

theorem lineWeight_pos (h0 : 0 ∉ S) (hd : d < S.length) (f : Nat → F) (l : Nat) :
    0 < lineWeight exp S d f l :=
  div_pos (hexp.pos _) (sum_exp_pos hexp.pos
    (nonempty_range_iff.2 (axis_size_pos h0 hd).ne'))

variable {α : Type}

omit hexp in
theorem alongLine_cellOn (h0 : 0 ∉ S) (hd : d < S.length) (f : Nat → α) {m k : Nat}
    (hm : m < (S.set d 1).prod) (hk : k < S.getD d 0) :
    alongLine S d f (cellOn S d m k) = fun j => f (cellOn S d m j) := by
  funext j
  rw [alongLine, lineOf_cellOn h0 hd hm hk]

omit [IsStrictOrderedRing F] in
theorem softmax_shift (h0 : 0 ∉ S) (hd : d < S.length) (f : Nat → F) (m : F) {l k : Nat}
    (hk : k < S.getD d 0) :
    OnlineSoftmax.softmax exp (fun k => alongLine S d f l k - m) (range (S.getD d 0)) k =
      alongLine S d (lineWeight exp S d f) l k := by
  have hshift : ∀ x, exp (x - m) = exp x * exp (-m) := by
    intro x
    rw [sub_eq_add_neg, hexp.add]
  have hline := alongLine_cellOn h0 hd f (lineOf_lt h0 l) hk
  calc
    _ = exp (alongLine S d f l k) / ∑ k ∈ range (S.getD d 0), exp (alongLine S d f l k) := by
          simp only [OnlineSoftmax.softmax, hshift, ← sum_mul]
          exact mul_div_mul_right _ _ (hexp.pos (-m)).ne'
    _ = lineWeight exp S d f (cellOn S d (lineOf S d l) k) := by
          rw [lineWeight, hline]
          rfl

theorem sum_lineWeight (h0 : 0 ∉ S) (hd : d < S.length) (f : Nat → F) (l : Nat) :
    ∑ k ∈ range (S.getD d 0), alongLine S d (lineWeight exp S d f) l k = 1 := by
  have hone : ∑ k ∈ range (S.getD d 0),
      OnlineSoftmax.softmax exp (fun k => alongLine S d f l k - 0) (range (S.getD d 0)) k = 1 :=
    sum_softmax hexp.pos (nonempty_range_iff.2 (axis_size_pos h0 hd).ne')
  rw [← hone]
  exact sum_congr rfl fun k hk =>
    (softmax_shift hexp h0 hd f 0 (mem_range.1 hk)).symm

omit hexp in
theorem alongLine_self (h0 : 0 ∉ S) (hd : d < S.length) (f : Nat → α) {l : Nat} (hl : l < S.prod) :
    alongLine S d f l (Cpu.placeOf S d l) = f l := by
  rw [alongLine, cellOn_lineOf h0 hd hl]

omit [IsStrictOrderedRing F] in
/-- The share of a cell, against any reference value. -/
theorem softmax_placeOf (h0 : 0 ∉ S) (hd : d < S.length) (f : Nat → F) (m : F) {l : Nat}
    (hl : l < S.prod) :
    OnlineSoftmax.softmax exp (fun k => alongLine S d f l k - m) (range (S.getD d 0))
        (Cpu.placeOf S d l) = lineWeight exp S d f l :=
  (softmax_shift hexp h0 hd f m (placeOf_lt h0 hd l)).trans (alongLine_self h0 hd _ hl)

theorem softmax_value (h0 : 0 ∉ S) (hd : d < S.length)
    (ho : IsAgainst (liftExp exp) (liftLn ln) false S d e o) {l : Nat} (hl : l < S.prod) :
    (o l).fst = lineWeight exp S d (fun l => (e l).fst) l ∧
      (o l).snd = lineWeight exp S d (fun l => (e l).fst) l * ((e l).snd -
        lineMean S d (lineWeight exp S d fun l => (e l).fst) (fun l => (e l).snd) l) := by
  obtain ⟨m, hm⟩ := ho l hl
  have hshare := softmax_placeOf hexp h0 hd (fun l => (e l).fst) m.fst hl
  rw [againstValue, if_neg Bool.false_ne_true, ← alongLine_self h0 hd e hl] at hm
  rw [hm]
  constructor
  · rw [fst_weight_div, ← hshare]
    rfl
  · rw [snd_weight_div hexp.pos (nonempty_range_iff.2 (axis_size_pos h0 hd).ne'), jacobian,
      alongLine_self h0 hd e hl, ← hshare, lineMean]
    congr 2
    exact sum_congr rfl fun k hk => by
      rw [← softmax_shift hexp h0 hd _ m.fst (mem_range.1 hk)]
      rfl

theorem logSoftmax_value (hln : ∀ y, 0 < y → exp (ln y) = y) (h0 : 0 ∉ S) (hd : d < S.length)
    (ho : IsAgainst (liftExp exp) (liftLn ln) true S d e o) {l : Nat} (hl : l < S.prod) :
    exp (o l).fst = lineWeight exp S d (fun l => (e l).fst) l ∧
      (o l).snd = (e l).snd -
        lineMean S d (lineWeight exp S d fun l => (e l).fst) (fun l => (e l).snd) l := by
  obtain ⟨m, hm⟩ := ho l hl
  have hshare := softmax_placeOf hexp h0 hd (fun l => (e l).fst) m.fst hl
  have hpos : 0 < ∑ k ∈ range (S.getD d 0),
      exp (alongLine S d (fun l => (e l).fst) l k - m.fst) :=
    sum_exp_pos hexp.pos (nonempty_range_iff.2 (axis_size_pos h0 hd).ne')
  have hfst : (∑ k ∈ range (S.getD d 0), liftExp exp (alongLine S d e l k - m)).fst =
      ∑ k ∈ range (S.getD d 0),
        exp (alongLine S d (fun l => (e l).fst) l k - m.fst) := by
    rw [fst_sum]
    simp [liftExp, alongLine]
  rw [againstValue, if_pos rfl] at hm
  rw [hm]
  constructor
  · have hsplit : ∀ x y, exp (x - y) = exp x / exp y := by
      intro x y
      rw [eq_div_iff (hexp.pos y).ne', ← hexp.add, sub_add_cancel]
    rw [← hshare, OnlineSoftmax.softmax, alongLine_self h0 hd (fun l => (e l).fst) hl]
    simp only [fst_sub, liftLn, fst_dual]
    rw [hfst, hsplit, hln _ hpos]
  · have hmoved : (∑ k ∈ range (S.getD d 0), liftExp exp (alongLine S d e l k - m)).snd /
        (∑ k ∈ range (S.getD d 0), liftExp exp (alongLine S d e l k - m)).fst =
        lineMean S d (lineWeight exp S d fun l => (e l).fst) (fun l => (e l).snd) l - m.snd := by
      calc
        _ = ∑ k ∈ range (S.getD d 0), alongLine S d (lineWeight exp S d fun l => (e l).fst)
              l k * ((alongLine S d e l k).snd - m.snd) := by
              rw [hfst, snd_sum, Finset.sum_div]
              refine sum_congr rfl fun k hk => ?_
              rw [← softmax_shift hexp h0 hd _ m.fst (mem_range.1 hk), OnlineSoftmax.softmax]
              simp only [liftExp, snd_dual, fst_sub, snd_sub]
              exact mul_div_right_comm _ _ _
        _ = _ := by
              simp only [mul_sub, sum_sub_distrib]
              rw [← sum_mul, sum_lineWeight hexp h0 hd, one_mul]
              rfl
    simp only [snd_sub, liftLn, snd_dual]
    rw [hmoved]
    ring

end Values

/-! ## Pairings -/

section Pairings

variable {F : Type} [Field F] {S : Shape} {d : Nat}

theorem lineMean_cellOn (h0 : 0 ∉ S) (hd : d < S.length) (w u : Nat → F) {m k : Nat}
    (hm : m < (S.set d 1).prod) (hk : k < S.getD d 0) :
    lineMean S d w u (cellOn S d m k) =
      ∑ j ∈ range (S.getD d 0), w (cellOn S d m j) * u (cellOn S d m j) := by
  rw [lineMean, alongLine_cellOn h0 hd w hm hk, alongLine_cellOn h0 hd u hm hk]

theorem sum_softmax_swap (h0 : 0 ∉ S) (hd : d < S.length) (w u v : Nat → F) :
    ∑ l ∈ range S.prod, u l * (w l * (v l - lineMean S d w v l)) =
      ∑ l ∈ range S.prod, w l * (u l - lineMean S d w u l) * v l := by
  rw [sum_lines h0 hd, sum_lines h0 hd]
  refine sum_congr rfl fun m hm => ?_
  have hm := mem_range.1 hm
  have hsym := sum_jacobian_mul (fun k => w (cellOn S d m k)) (range (S.getD d 0))
    (fun k => v (cellOn S d m k)) (fun k => u (cellOn S d m k))
  simp only [jacobian] at hsym
  calc
    _ = ∑ k ∈ range (S.getD d 0), w (cellOn S d m k) * (v (cellOn S d m k) -
          ∑ j ∈ range (S.getD d 0), w (cellOn S d m j) * v (cellOn S d m j)) *
            u (cellOn S d m k) := sum_congr rfl fun k hk => by
          rw [lineMean_cellOn h0 hd w v hm (mem_range.1 hk), mul_comm]
    _ = _ := hsym
    _ = _ := sum_congr rfl fun k hk => by
          rw [lineMean_cellOn h0 hd w u hm (mem_range.1 hk)]

theorem sum_logSoftmax_swap (h0 : 0 ∉ S) (hd : d < S.length) (w u v : Nat → F) :
    ∑ l ∈ range S.prod, u l * (v l - lineMean S d w v l) =
      ∑ l ∈ range S.prod,
        (u l - w l * ∑ k ∈ range (S.getD d 0), alongLine S d u l k) * v l := by
  rw [sum_lines h0 hd, sum_lines h0 hd]
  refine sum_congr rfl fun m hm => ?_
  have hm := mem_range.1 hm
  calc
    _ = ∑ k ∈ range (S.getD d 0), (u (cellOn S d m k) * v (cellOn S d m k) -
          u (cellOn S d m k) *
            ∑ j ∈ range (S.getD d 0), w (cellOn S d m j) * v (cellOn S d m j)) :=
          sum_congr rfl fun k hk => by
            rw [lineMean_cellOn h0 hd w v hm (mem_range.1 hk), mul_sub]
    _ = ∑ k ∈ range (S.getD d 0), (u (cellOn S d m k) * v (cellOn S d m k) -
          (∑ j ∈ range (S.getD d 0), u (cellOn S d m j)) *
            (w (cellOn S d m k) * v (cellOn S d m k))) := by
          rw [sum_sub_distrib, sum_sub_distrib, ← sum_mul, ← Finset.mul_sum]
    _ = _ := sum_congr rfl fun k hk => by
          rw [alongLine_cellOn h0 hd u hm (mem_range.1 hk)]
          ring

theorem alongLine_alongLine {α : Type} (h0 : 0 ∉ S) (hd : d < S.length) (f : Nat → α) (l : Nat)
    {k : Nat} (hk : k < S.getD d 0) :
    alongLine S d f (cellOn S d (lineOf S d l) k) = alongLine S d f l :=
  alongLine_cellOn h0 hd f (lineOf_lt h0 l) hk

/-- The gradient of softmax, where a line is weighed by `w`. -/
def softmaxGrad (S : Shape) (d : Nat) (w u : Nat → F) (l : Nat) : F :=
  w l * (u l - lineMean S d w u l)

/-- The gradient of log-softmax. -/
def logSoftmaxGrad (S : Shape) (d : Nat) (w u f : Nat → F) (l : Nat) : F :=
  u l - w l * ∑ k ∈ range (S.getD d 0), alongLine S d f l k

variable {w : Nat → F}

theorem sum_softmaxGrad (h0 : 0 ∉ S) (hd : d < S.length) (u : Nat → F) (l : Nat)
    (hw : ∑ k ∈ range (S.getD d 0), alongLine S d w l k = 1) :
    ∑ k ∈ range (S.getD d 0), alongLine S d (softmaxGrad S d w u) l k = 0 := by
  calc
    _ = ∑ k ∈ range (S.getD d 0),
          (alongLine S d w l k * alongLine S d u l k - alongLine S d w l k * lineMean S d w u l) :=
          sum_congr rfl fun k hk => by
            have hk := mem_range.1 hk
            rw [alongLine, softmaxGrad, lineMean, alongLine_alongLine h0 hd w l hk,
              alongLine_alongLine h0 hd u l hk, mul_sub]
            rfl
    _ = 0 := by
          rw [sum_sub_distrib, ← sum_mul, hw, one_mul]
          exact sub_self _

theorem sum_logSoftmaxGrad (h0 : 0 ∉ S) (hd : d < S.length) {u f : Nat → F} (l : Nat)
    (hw : ∑ k ∈ range (S.getD d 0), alongLine S d w l k = 1) (huf : ∀ l < S.prod, u l = f l) :
    ∑ k ∈ range (S.getD d 0), alongLine S d (logSoftmaxGrad S d w u f) l k = 0 := by
  calc
    _ = ∑ k ∈ range (S.getD d 0), (alongLine S d f l k -
          alongLine S d w l k * ∑ k ∈ range (S.getD d 0), alongLine S d f l k) :=
          sum_congr rfl fun k hk => by
            have hk := mem_range.1 hk
            rw [alongLine, logSoftmaxGrad, alongLine_alongLine h0 hd f l hk,
              huf _ (cellOn_lt h0 hk)]
            rfl
    _ = 0 := by
          rw [sum_sub_distrib, ← sum_mul, hw, one_mul]
          exact sub_self _

end Pairings

/-! ## What the nodes return -/

section Nodes

variable {F : Type} [Field F] {exp : F → F} {S : Shape} {d : Nat} {T U : Dtype} {y g : Tensor F}
  {p f u : Nat → F}

omit [Field F] in
theorem unaryFloat_fresh {opName : String} {op : F → F} (hy : Fresh y T S p)
    (hT : T = .f32 ∨ T = .f64) :
    ∃ out, unaryFloat opName op y = .ok out ∧ Fresh out T S fun l => op (p l) := by
  rw [unaryFloat, hy.dtype]
  rcases hT with rfl | rfl
  · exact mapUnary_holds hy.holds hy.bytes
  · exact mapUnary_holds hy.holds hy.bytes

theorem sumLine_fresh {src : Tensor F} (h0 : 0 ∉ S) (hd : d < S.length)
    (hT : T = .f32 ∨ T = .f64) (hsrc : Holds src T S f) :
    ∃ out, sumDim src [d] true = .ok out ∧ Fresh out T (S.set d 1) (cellSum S [d] true f) := by
  have hset := reducedShape_single S d
  have hbytes : (S.set d 1).prod * T.byteSize < 2 ^ 63 :=
    lt_of_le_of_lt (Nat.mul_le_mul_right _ (prod_set_le h0 hd)) hsrc.bytes
  have harm : summable T = true := by
    rcases hT with rfl | rfl <;> rfl
  refine ⟨_, sumDim_eq hsrc harm (by simpa using hd) (by rwa [hset])
    (Or.inr (reducedShape_prod h0 [d] true).1), ?_⟩
  rw [hset]
  exact fresh_contiguous hbytes

theorem arithmetic_float (hT : T = .f32 ∨ T = .f64) : arithmetic T = true := by
  rcases hT with rfl | rfl <;> rfl

theorem softmaxBackward_reads (hy : Fresh y T S p) (hT : T = .f32 ∨ T = .f64) (h0 : 0 ∉ S)
    (hd : d < S.length) (hshape : g.shape = S) (hdtype : g.layout.dtype = T)
    (hread : ∀ l < S.prod, rowMajorAt g (coordsOf S l) = some (u l)) :
    ∃ dx, softmaxBackward exp false y d g = .ok [some dx] ∧
      Fresh dx T S (softmaxGrad S d p u) := by
  have harm := arithmetic_float hT
  have hself := stretches_self S
  obtain ⟨gy, hgy, hgyf⟩ := @dispatchBinaryTyped_reads F "mul" (· * ·) g y T S S u p hshape hdtype
    hy.bytes hread hy.toDense harm hself
  obtain ⟨dot, hdot, hdotf⟩ := sumLine_fresh h0 hd hT hgyf.holds
  obtain ⟨diff, hdiff, hdifff⟩ := @dispatchBinaryTyped_reads F "sub" (· - ·) g dot T (S.set d 1) S u
    _ hshape hdtype hy.bytes hread hdotf.toDense harm (stretches_set S d)
  obtain ⟨dx, hdx, hdxf⟩ := @dispatchBinaryTyped_dense F "mul" (· * ·) y diff T S S p _
    hy.toDense hdifff.toDense harm hself
  refine ⟨dx, ?_, ⟨hdxf.toDense.of_eq fun l hl => ?_, hdxf.offset⟩⟩
  · simp only [softmaxBackward, Bool.false_eq_true, if_false, SoftmaxBackward.apply, hgy, hdot,
      hdiff, hdx, unwrap_ok, ok_bind, pure_eq]
  · rw [sourceIndex_self hl, sourceIndex_set h0, cellSum_line h0 hd, softmaxGrad, lineMean]
    congr 2
    refine sum_congr rfl fun k hk => ?_
    rw [alongLine, sourceIndex_self (cellOn_lt h0 (mem_range.1 hk)), mul_comm]
    rfl

/-- `LogSoftmaxBackward`, whose sum follows the strides. -/
theorem logSoftmaxBackward_reads (hy : Fresh y T S p) (hT : T = .f32 ∨ T = .f64) (h0 : 0 ∉ S)
    (hd : d < S.length) (hg : Holds g T S f)
    (hread : ∀ l < S.prod, rowMajorAt g (coordsOf S l) = some (u l)) :
    ∃ dx, softmaxBackward exp true y d g = .ok [some dx] ∧
      Fresh dx T S (logSoftmaxGrad S d (fun l => exp (p l)) u f) := by
  have harm := arithmetic_float hT
  obtain ⟨s, hs, hsf⟩ := @unaryFloat_fresh F S T y p "exp" exp hy hT
  obtain ⟨sumG, hsumG, hsumGf⟩ := sumLine_fresh h0 hd hT hg
  obtain ⟨sSum, hsSum, hsSumf⟩ := @dispatchBinaryTyped_dense F "mul" (· * ·) s sumG T (S.set d 1) S
    _ _ hsf.toDense hsumGf.toDense harm (stretches_set S d)
  obtain ⟨dx, hdx, hdxf⟩ := @dispatchBinaryTyped_reads F "sub" (· - ·) g sSum T S S u _ hg.shape
    hg.dtype hy.bytes hread hsSumf.toDense harm (stretches_self S)
  refine ⟨dx, ?_, ⟨hdxf.toDense.of_eq fun l hl => ?_, hdxf.offset⟩⟩
  · simp only [softmaxBackward, if_true, LogSoftmaxBackward.apply, hs, hsumG, hsSum, hdx,
      unwrap_ok, ok_bind, pure_eq]
  · rw [sourceIndex_self hl, sourceIndex_set h0, cellSum_line h0 hd, logSoftmaxGrad]

theorem reads_of_softmaxBackward {logForm : Bool} {dx : Tensor F} (hy : Fresh y T S p)
    (hT : T = .f32 ∨ T = .f64) (h0 : 0 ∉ S) (hd : d < S.length) (hg : Holds g U S f) :
    softmaxBackward exp logForm y d g = .ok [some dx] →
      U = T ∧ ∀ l < S.prod, rowMajorAt g (coordsOf S l) = some (rowMajorValue g S 0 l) := by
  intro h
  cases logForm with
  | false =>
    obtain ⟨gy, hgy, _⟩ := bind_eq_ok.1 h
    rw [unwrap_eq_ok] at hgy
    obtain ⟨hdtype, _, _⟩ := dispatchBinaryTyped_eq_ok hgy
    have hU : U = T := hg.dtype.symm.trans (hdtype.trans hy.dtype)
    subst hU
    refine ⟨rfl, ?_⟩
    have hy' : Dense y g.layout.dtype S p := hg.dtype.symm ▸ hy.toDense
    exact (dispatchBinaryTyped_rowMajor 0 hg.shape (hg.dtype.symm ▸ hg.bytes) hy'
      (stretches_self S) hgy).1
  | true =>
    obtain ⟨s, hs, h⟩ := bind_eq_ok.1 h
    obtain ⟨sumG, hsumG, h⟩ := bind_eq_ok.1 h
    obtain ⟨sSum, hsSum, h⟩ := bind_eq_ok.1 h
    obtain ⟨dx', hdx, _⟩ := bind_eq_ok.1 h
    rw [unwrap_eq_ok] at hs hsumG hsSum hdx
    obtain ⟨s', hs', hsf⟩ := @unaryFloat_fresh F S T y p "exp" exp hy hT
    cases hs'.symm.trans hs
    obtain ⟨hmul, _, _⟩ := dispatchBinaryTyped_eq_ok hsSum
    obtain ⟨_, hsumT, _⟩ := sumDim_eq_ok hsumG
    have hU : U = T := hg.dtype.symm.trans (hsumT.symm.trans (hmul.symm.trans hsf.dtype))
    subst hU
    refine ⟨rfl, ?_⟩
    obtain ⟨sumG', hsumG', hsumGf⟩ := sumLine_fresh h0 hd hT hg
    cases hsumG'.symm.trans hsumG
    obtain ⟨sSum', hsSum', hsSumf⟩ := @dispatchBinaryTyped_dense F "mul" (· * ·) s sumG U
      (S.set d 1) S _ _ hsf.toDense hsumGf.toDense (arithmetic_float hT) (stretches_set S d)
    cases hsSum'.symm.trans hsSum
    have hsSum' : Dense sSum g.layout.dtype S _ := hg.dtype.symm ▸ hsSumf.toDense
    exact (dispatchBinaryTyped_rowMajor 0 hg.shape (hg.dtype.symm ▸ hg.bytes) hsSum'
      (stretches_self S) hdx).1

end Nodes

/-! ## The vector-Jacobian product -/

section Vjp

variable {F : Type} [Field F] [LinearOrder F] [IsStrictOrderedRing F] {exp ln : F → F} {S : Shape}
  {d : Nat} {T U : Dtype} {x g : Tensor F} {a f u w : Nat → F} {logForm : Bool}

/-- The elements of every line along the axis add up to 0. -/
def SumsToZero (d : Nat) (dx : Tensor F) : Prop :=
  ∃ v, dx.elements = some ((List.range dx.shape.prod).map v) ∧
    ∀ l < dx.shape.prod, ∑ k ∈ range (dx.shape.getD d 0), alongLine dx.shape d v l k = 0

/-- For every tangent of `x`, the gradient pairs with it to the second part of what the upstream
gradient pairs with. -/
def IsSoftmaxVjp (exp ln : F → F) (logForm : Bool) (d : Nat) (x g : Tensor F) : Prop :=
  ∀ xt : Tensor (DualNumber F), xt.layout = x.layout → (realPart xt).elements = x.elements →
    ∃ out dx total paired,
      softmaxDispatch (liftExp exp) (liftLn ln) (if logForm then "log_softmax" else "softmax")
        logForm (xt.map .fin) d = .ok out ∧
      out.elements = ((out.map finPart).elements).map (List.map .fin) ∧
      softmaxBackward exp logForm (realPart (out.map finPart)) d g = .ok [some dx] ∧
      dx.shape = x.shape ∧ innerProduct (constant g) (out.map finPart) = some total ∧
      innerProduct dx (tangentPart xt) = some paired ∧ total.snd = paired ∧ SumsToZero d dx

/-- The kernels take the operands and read the upstream gradient, of the elements `f`, right: up to
a constant on each line for softmax. -/
structure UpstreamReads (logForm : Bool) (d : Nat) (x g : Tensor F) (f : Nat → F) : Prop where
  float : x.layout.dtype = .f32 ∨ x.layout.dtype = .f64
  dtype : g.layout.dtype = x.layout.dtype
  inside : ∀ l < x.shape.prod,
    rowMajorAt g (coordsOf x.shape l) = some (rowMajorValue g x.shape 0 l)
  agree : ∀ l < x.shape.prod,
    rowMajorValue g x.shape 0 l - f l =
      if logForm then 0
      else
        rowMajorValue g x.shape 0 (cellOn x.shape d (lineOf x.shape d l) 0) -
          f (cellOn x.shape d (lineOf x.shape d l) 0)

/-- The gradient, where a line is weighed by `w` and the upstream gradient `f` is read as `u`. -/
def lineGrad (logForm : Bool) (S : Shape) (d : Nat) (w u f : Nat → F) (l : Nat) : F :=
  if logForm then logSoftmaxGrad S d w u f l else softmaxGrad S d w u l

variable {e o : Nat → DualNumber F} {xt : Tensor (DualNumber F)}

theorem sum_forward (hexp : ExpLaws exp) (hln : ∀ y, 0 < y → exp (ln y) = y) (h0 : 0 ∉ S)
    (hd : d < S.length) (ho : IsAgainst (liftExp exp) (liftLn ln) logForm S d e o) (f : Nat → F) :
    ∑ l ∈ range S.prod, f l * (o l).snd = ∑ l ∈ range S.prod,
      lineGrad logForm S d (lineWeight exp S d fun l => (e l).fst) f f l * (e l).snd := by
  cases logForm with
  | false =>
    calc
      _ = ∑ l ∈ range S.prod, f l * (lineWeight exp S d (fun l => (e l).fst) l *
            ((e l).snd - lineMean S d (lineWeight exp S d fun l => (e l).fst)
              (fun l => (e l).snd) l)) :=
            sum_congr rfl fun l hl => by
              rw [(softmax_value hexp h0 hd ho (mem_range.1 hl)).2]
      _ = _ := sum_softmax_swap h0 hd _ f fun l => (e l).snd
  | true =>
    calc
      _ = ∑ l ∈ range S.prod, f l * ((e l).snd -
            lineMean S d (lineWeight exp S d fun l => (e l).fst) (fun l => (e l).snd) l) :=
            sum_congr rfl fun l hl => by
              rw [(logSoftmax_value hexp hln h0 hd ho (mem_range.1 hl)).2]
      _ = _ := sum_logSoftmax_swap h0 hd _ f fun l => (e l).snd

/-- What the recorded node returns. -/
theorem backward_lineGrad {y : Tensor F} (hexp : ExpLaws exp) (hln : ∀ y, 0 < y → exp (ln y) = y)
    (h0 : 0 ∉ S) (hd : d < S.length) (ho : IsAgainst (liftExp exp) (liftLn ln) logForm S d e o)
    (hy : Fresh y T S fun l => (o l).fst) (hT : T = .f32 ∨ T = .f64) (hg : Holds g T S f)
    (hread : ∀ l < S.prod, rowMajorAt g (coordsOf S l) = some (u l)) :
    ∃ dx, softmaxBackward exp logForm y d g = .ok [some dx] ∧
      Fresh dx T S (lineGrad logForm S d (lineWeight exp S d fun l => (e l).fst) u f) := by
  cases logForm with
  | false =>
    have hy' : Fresh y T S (lineWeight exp S d fun l => (e l).fst) :=
      ⟨hy.toDense.of_eq fun l hl => (softmax_value hexp h0 hd ho hl).1, hy.offset⟩
    exact softmaxBackward_reads hy' hT h0 hd hg.shape hg.dtype hread
  | true =>
    obtain ⟨dx, hdx, hdxf⟩ := @logSoftmaxBackward_reads F _ exp S d T y g _ f u hy hT h0 hd hg
      hread
    refine ⟨dx, hdx, ⟨hdxf.toDense.of_eq fun l hl => ?_, hdxf.offset⟩⟩
    have hweight := (logSoftmax_value hexp hln h0 hd ho hl).1
    simp only [lineGrad, if_true, logSoftmaxGrad, hweight]

omit [LinearOrder F] [IsStrictOrderedRing F] in
/-- A tangent of a contiguous tensor. -/
theorem dense_of_realPart (hx : Dense x T S a) (hlayout : xt.layout = x.layout)
    (hreal : (realPart xt).elements = x.elements) : ∃ e, Dense xt T S e := by
  have hholds : Holds (xt.map fst) T S a := by
    refine ⟨?_, ?_, hx.bytes, hreal.trans hx.elements⟩
    · exact (congrArg dtype hlayout).trans hx.dtype
    · exact (congrArg shape hlayout).trans hx.shape
  let _ : Inhabited (DualNumber F) := ⟨0⟩
  obtain ⟨e, he, _⟩ := hholds.of_map
  refine ⟨e, he.dense ?_⟩
  rw [hlayout, hx.flag]

theorem softmax_run (op : String) (hexp : ExpLaws exp) (h0 : 0 ∉ S) (hd : d < S.length)
    (hT : T = .f32 ∨ T = .f64) (hxt : Dense xt T S e) (hg : Holds g U S f) : ∃ out o total,
      softmaxDispatch (liftExp exp) (liftLn ln) op logForm (xt.map .fin) d = .ok out ∧
      out.elements = ((out.map finPart).elements).map (List.map .fin) ∧
      Fresh (realPart (out.map finPart)) T S (fun l => (o l).fst) ∧
      IsAgainst (liftExp exp) (liftLn ln) logForm S d e o ∧
      innerProduct (constant g) (out.map finPart) = some total ∧
      total.snd = ∑ l ∈ range S.prod, f l * (o l).snd := by
  obtain ⟨out, o, hout, hfresh, hag⟩ := @softmaxDispatch_fin (DualNumber F) _ _ _ _ _ (liftExp exp)
    (liftLn ln) logForm S d T _ e (expScalars_dual hexp) op h0 hd hT (hxt.map Extended.fin)
  have hparts := hfresh.map finPart
  refine ⟨out, o, _, hout, ?_, hparts.map fst, hag,
    innerProduct_holds (hg.map inl) hparts.holds, ?_⟩
  · rw [hfresh.holds.elements, hparts.holds.elements, Option.map_some, List.map_map]
    rfl
  · rw [snd_sum]
    refine sum_congr rfl fun l _ => ?_
    simp [finPart]

omit [LinearOrder F] [IsStrictOrderedRing F] in
/-- Reading up to a constant on each line leaves the gradient of softmax as it is. -/
theorem lineGrad_congr (h0 : 0 ∉ S) (hd : d < S.length)
    (hw : ∀ l, ∑ k ∈ range (S.getD d 0), alongLine S d w l k = 1)
    (hagree : ∀ l < S.prod, u l - f l = if logForm then 0
      else u (cellOn S d (lineOf S d l) 0) - f (cellOn S d (lineOf S d l) 0)) {l : Nat}
    (hl : l < S.prod) : lineGrad logForm S d w u f l = lineGrad logForm S d w f f l := by
  cases logForm with
  | true =>
    have hsame : u l = f l := sub_eq_zero.1 (hagree l hl)
    simp only [lineGrad, if_true, logSoftmaxGrad, hsame]
  | false =>
    have hmean : lineMean S d w u l - lineMean S d w f l = u l - f l := by
      calc
        _ = ∑ k ∈ range (S.getD d 0), alongLine S d w l k *
              (u (cellOn S d (lineOf S d l) 0) - f (cellOn S d (lineOf S d l) 0)) := by
              rw [lineMean, lineMean, ← sum_sub_distrib]
              refine sum_congr rfl fun k hk => ?_
              have hk := mem_range.1 hk
              have hcell := hagree (cellOn S d (lineOf S d l) k) (cellOn_lt h0 hk)
              rw [lineOf_cellOn h0 hd (lineOf_lt h0 l) hk] at hcell
              rw [← mul_sub]
              exact congrArg _ hcell
        _ = u l - f l := by
              rw [← sum_mul, hw, one_mul]
              exact (hagree l hl).symm
    have hdiff : u l - lineMean S d w u l = f l - lineMean S d w f l :=
      sub_eq_sub_iff_sub_eq_sub.2 hmean.symm
    simp only [lineGrad, Bool.false_eq_true, if_false, softmaxGrad, hdiff]

omit [IsStrictOrderedRing F] in
/-- Where the gradient is right in every direction, the upstream gradient was read right. -/
theorem agree_of_lineGrad (hwpos : ∀ l, 0 < w l)
    (hsame : ∀ l < S.prod, lineGrad logForm S d w f f l = lineGrad logForm S d w u f l)
    (h0 : 0 ∉ S) (hd : d < S.length) {l : Nat} (hl : l < S.prod) :
    u l - f l = if logForm then 0
      else u (cellOn S d (lineOf S d l) 0) - f (cellOn S d (lineOf S d l) 0) := by
  cases logForm with
  | true =>
    have hcell := hsame l hl
    simp only [lineGrad, if_true, logSoftmaxGrad, sub_left_inj] at hcell
    rw [hcell, sub_self, if_pos rfl]
  | false =>
    have hdiff : ∀ l < S.prod, u l - f l = lineMean S d w u l - lineMean S d w f l := by
      intro l hl
      have hcell := hsame l hl
      exact sub_eq_sub_iff_sub_eq_sub.1 (mul_left_cancel₀ (hwpos l).ne' hcell).symm
    have hpos := axis_size_pos h0 hd
    have hfront := hdiff _ (@cellOn_lt S d 0 (lineOf S d l) h0 hpos)
    rw [if_neg Bool.false_ne_true, hdiff l hl, hfront, lineMean, lineMean, lineMean, lineMean,
      alongLine_alongLine h0 hd w l hpos, alongLine_alongLine h0 hd u l hpos,
      alongLine_alongLine h0 hd f l hpos]

theorem softmaxDispatch_float {D : Type} [CommRing D] [Div D] [LT D] [DecidableLT D] [DecidableEq D]
    {e l : D → D} {op : String} {src out : Tensor (Extended D)}
    (h : softmaxDispatch e l op logForm src d = .ok out) :
    src.layout.dtype = .f32 ∨ src.layout.dtype = .f64 := by
  obtain ⟨_, _, h⟩ := bind_eq_ok.1 h
  cases hdtype : src.layout.dtype with
  | f32 => exact Or.inl rfl
  | f64 => exact Or.inr rfl
  | _ => simp [hdtype] at h

theorem reads_of_softmaxVjp (hexp : ExpLaws exp) (hln : ∀ y, 0 < y → exp (ln y) = y)
    (hx : Dense x T S a) (hg : Holds g U S f) (h0 : 0 ∉ S) (hd : d < S.length) :
    IsSoftmaxVjp exp ln logForm d x g → UpstreamReads logForm d x g f := by
  intro hvjp
  -- The tangents that are 1 at one cell and 0 elsewhere.
  have htangent : ∀ v : Nat → F, ∃ xt : Tensor (DualNumber F),
      xt.layout = x.layout ∧ (realPart xt).elements = x.elements ∧
        Dense xt T S fun l => dual (a l) (v l) := by
    intro v
    have hdense := (hx.map (inl : F → DualNumber F)).refill fun l => dual (a l) (v l)
    refine ⟨_, rfl, ?_, hdense⟩
    rw [Core.realPart, (hdense.map fst).holds.elements, hx.holds.elements]
    simp
  have hpair : ∀ v : Nat → F, (T = .f32 ∨ T = .f64) ∧ U = T ∧
      (∀ l < S.prod, rowMajorAt g (coordsOf S l) = some (rowMajorValue g S 0 l)) ∧
      ∑ l ∈ range S.prod, lineGrad logForm S d (lineWeight exp S d a) f f l * v l =
        ∑ l ∈ range S.prod,
          lineGrad logForm S d (lineWeight exp S d a) (rowMajorValue g S 0) f l * v l := by
    intro v
    obtain ⟨xt, hlayout, hreal, hxt⟩ := htangent v
    obtain ⟨out, dx, total, paired, hout, _, hdx, _, htotal, hpaired, heq, _⟩ :=
      hvjp xt hlayout hreal
    have hT : T = .f32 ∨ T = .f64 := by
      have hfloat := softmaxDispatch_float hout
      rwa [Tensor.map, hlayout, hx.dtype] at hfloat
    obtain ⟨out', o, total', hout', _, hy, hag, htotal', hsnd⟩ := softmax_run
      (if logForm then "log_softmax" else "softmax") hexp h0 hd hT hxt hg
    cases hout'.symm.trans hout
    obtain ⟨hU, hread⟩ := reads_of_softmaxBackward hy hT h0 hd hg hdx
    subst hU
    obtain ⟨dx', hdx', hdxf⟩ := backward_lineGrad hexp hln h0 hd hag hy hT hg hread
    cases hdx'.symm.trans hdx
    cases htotal'.symm.trans htotal
    rw [tangentPart, innerProduct_holds hdxf.holds (hxt.map snd).holds] at hpaired
    have hforward := sum_forward hexp hln h0 hd hag f
    simp only [fst_dual, snd_dual] at hpaired hforward
    refine ⟨hT, rfl, hread, ?_⟩
    rw [← hforward, ← hsnd, heq]
    exact (Option.some_inj.1 hpaired).symm
  obtain ⟨hT, hU, hread, _⟩ := hpair fun _ => 0
  have hcells : ∀ l < S.prod, lineGrad logForm S d (lineWeight exp S d a) f f l =
      lineGrad logForm S d (lineWeight exp S d a) (rowMajorValue g S 0) f l := by
    intro l hl
    have hunit := (hpair fun i => if i = l then 1 else 0).2.2.2
    simpa [Finset.sum_ite_eq', hl] using hunit
  have hagree := fun l hl => @agree_of_lineGrad F _ _ S d f (rowMajorValue g S 0)
    (lineWeight exp S d a) logForm (lineWeight_pos hexp h0 hd a) hcells h0 hd l hl
  refine ⟨hx.dtype.symm ▸ hT, hg.dtype.trans (hU.trans hx.dtype.symm), ?_, ?_⟩
  · rwa [hx.shape]
  · rwa [hx.shape]

theorem softmaxVjp_of_reads (hexp : ExpLaws exp) (hln : ∀ y, 0 < y → exp (ln y) = y)
    (hx : Dense x T S a) (hg : Holds g U S f) (h0 : 0 ∉ S) (hd : d < S.length) :
    UpstreamReads logForm d x g f → IsSoftmaxVjp exp ln logForm d x g := by
  rintro ⟨hfloat, hdtype, hread, hagree⟩ xt hlayout hreal
  rw [hx.dtype] at hfloat hdtype
  rw [hx.shape] at hread hagree
  have hU : U = T := hg.dtype.symm.trans hdtype
  subst hU
  obtain ⟨e, hxt⟩ := dense_of_realPart hx hlayout hreal
  obtain ⟨out, o, total, hout, hfin, hy, hag, htotal, hsnd⟩ := softmax_run
    (if logForm then "log_softmax" else "softmax") hexp h0 hd hfloat hxt hg
  obtain ⟨dx, hdx, hdxf⟩ := backward_lineGrad hexp hln h0 hd hag hy hfloat hg hread
  have hw := sum_lineWeight hexp h0 hd fun l => (e l).fst
  have hsame := fun l hl => @lineGrad_congr F _ S d f (rowMajorValue g S 0) _ logForm h0 hd hw
    hagree l hl
  refine ⟨out, dx, total, _, hout, hfin, hdx, hdxf.shape.trans hx.shape.symm, htotal,
    innerProduct_holds hdxf.holds (hxt.map snd).holds, ?_, ?_⟩
  · rw [hsnd, sum_forward hexp hln h0 hd hag f]
    exact sum_congr rfl fun l hl => by rw [hsame l (mem_range.1 hl)]
  · rw [SumsToZero, hdxf.shape]
    refine ⟨_, hdxf.holds.elements, fun l _ => ?_⟩
    cases logForm with
    | false => exact sum_softmaxGrad h0 hd _ l (hw l)
    | true => exact sum_logSoftmaxGrad h0 hd l (hw l) fun l hl => sub_eq_zero.1 (hagree l hl)

omit [LinearOrder F] [IsStrictOrderedRing F] in
theorem upstreamReads_of_dense (hx : Dense x T S a) (hT : T = .f32 ∨ T = .f64)
    (hg : Dense g T S f) (h0 : 0 ∉ S) (hd : d < S.length) : UpstreamReads logForm d x g f := by
  have hread : ∀ l < S.prod, rowMajorAt g (coordsOf S l) = some (f l) := by
    intro l hl
    have hcell := rowMajorAt_dense hg (stretches_self S) hl
    rwa [hg.shape, restrict_self (inBounds_coordsOf h0), sourceIndex_self hl] at hcell
  have hvalue : ∀ l < S.prod, rowMajorValue g S 0 l = f l := by
    intro l hl
    rw [rowMajorValue, hread l hl, Option.getD_some]
  refine ⟨hx.dtype.symm ▸ hT, hg.dtype.trans hx.dtype.symm, ?_, ?_⟩
  · rw [hx.shape]
    intro l hl
    rw [hread l hl, hvalue l hl]
  · rw [hx.shape]
    intro l hl
    rw [hvalue l hl, hvalue _ (cellOn_lt h0 (axis_size_pos h0 hd)), sub_self, sub_self, ite_self]

/-- The nodes of softmax and log-softmax compute the vector-Jacobian product along any axis exactly
if the operands have one floating-point type and the row-major reading of the upstream gradient is
the gradient, up to a constant on each line for softmax. -/
theorem softmax_vjp_iff (hadd : ∀ x y, exp (x + y) = exp x * exp y) (hlnexp : ∀ x, ln (exp x) = x)
    (hexpln : ∀ y, 0 < y → exp (ln y) = y) (hx : Dense x T S a) (hg : Holds g U S f) (h0 : 0 ∉ S)
    (hd : d < S.length) :
    IsSoftmaxVjp exp ln logForm d x g ↔ UpstreamReads logForm d x g f := by
  have hexp := expLaws_of_inverse hadd hlnexp
  exact ⟨reads_of_softmaxVjp hexp hexpln hx hg h0 hd, softmaxVjp_of_reads hexp hexpln hx hg h0 hd⟩

end Vjp

/-! ## Two rows -/

section Rows

/-- A two by two matrix, as a tensor of its own. -/
noncomputable def squareOf (v : Nat → ℝ) : Tensor ℝ where
  storage := (List.range [2, 2].prod).map v
  layout := contiguous [2, 2] .f32

/-- Its transposed view. -/
noncomputable def swappedSquare (v : Nat → ℝ) : Tensor ℝ where
  storage := (List.range [2, 2].prod).map v
  layout := ofAxes [⟨2, 1⟩, ⟨2, 2⟩] 0 u64Size_pos .f32

theorem squareOf_fresh (v : Nat → ℝ) : Fresh (squareOf v) .f32 [2, 2] v :=
  fresh_contiguous (by decide)

theorem softmax_vjp_square :
    IsSoftmaxVjp Real.exp Real.log false 0 (squareOf fun _ => 0) (squareOf fun l => l) := by
  have hx := (squareOf_fresh fun _ => 0).toDense
  have hg := (squareOf_fresh fun l => l).toDense
  exact (softmax_vjp_iff Real.exp_add Real.log_exp (fun _ => Real.exp_log) hx hg.holds (by decide)
    (by decide)).2 (upstreamReads_of_dense hx (Or.inl rfl) hg (by decide) (by decide))

/-- A transposed upstream gradient is read in the order of its buffer. -/
theorem softmax_vjp_swapped_fails :
    ¬ IsSoftmaxVjp Real.exp Real.log false 1 (squareOf fun _ => 0) (swappedSquare fun l => l) := by
  intro hvjp
  have hg : Holds (swappedSquare fun l => (l : ℝ)) .f32 [2, 2]
      (fun l => (([0, 2, 1, 3] : List Nat).getD l 0 : ℝ)) := ⟨rfl, rfl, by decide, rfl⟩
  have hreads := reads_of_softmaxVjp (expLaws_of_inverse Real.exp_add Real.log_exp)
    (fun _ => Real.exp_log) (squareOf_fresh _).toDense hg (by decide) (by decide) hvjp
  -- The second cell of the first row is read as 1, and is 2.
  have hsecond : ((1 : Nat) : ℝ) - ((2 : Nat) : ℝ) = ((0 : Nat) : ℝ) - ((0 : Nat) : ℝ) :=
    hreads.agree 1 (by decide)
  norm_num at hsecond

end Rows

end Autograd
end Rustorch
