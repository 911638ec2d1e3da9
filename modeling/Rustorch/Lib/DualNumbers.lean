import Mathlib.Algebra.DualNumber
import Mathlib.Tactic.FieldSimp
import Rustorch.Lib.OnlineSoftmax

/-!
# Dual numbers as scalars

A program over a field that runs at dual numbers `x + x' ε` computes its derivative in the second
part.  A comparison looks at the first part, and so does a function that is constant to first order.
The softmax of dual scores moves by its Jacobian (`snd_weight_div`), which is symmetric
(`sum_jacobian_mul`).
-/

namespace DualNumbers

open OnlineSoftmax TrivSqZeroExt Finset

variable {F : Type*}

/-! ## Scalars -/

instance ltDual [LT F] : LT (DualNumber F) := ⟨fun x y => x.fst < y.fst⟩

instance decidableLTDual [LT F] [DecidableLT F] : DecidableLT (DualNumber F) :=
  fun x y => inferInstanceAs (Decidable (x.fst < y.fst))

instance decidableEqDual [DecidableEq F] : DecidableEq (DualNumber F) :=
  inferInstanceAs (DecidableEq (F × F))

instance divDual [Field F] : Div (DualNumber F) := ⟨fun x y => x * y⁻¹⟩

/-- Multiplication on either side is the same, as one name for the ring of dual numbers. -/
instance centralScalar [Field F] : IsCentralScalar F F := inferInstance

section Field

variable [Field F]

/-- The number `x + x' ε`. -/
def dual (x x' : F) : DualNumber F :=
  inl x + inr x'

@[simp] theorem fst_dual (x x' : F) : (dual x x').fst = x := by
  simp [dual]

@[simp] theorem snd_dual (x x' : F) : (dual x x').snd = x' := by
  simp [dual]

/-- `exp (x + x' ε) = exp x * (1 + x' ε)`. -/
def liftExp (exp : F → F) (x : DualNumber F) : DualNumber F :=
  dual (exp x.fst) (exp x.fst * x.snd)

/-- `sqrt (x + x' ε) = sqrt x + x' / (2 sqrt x) ε`. -/
def liftSqrt (sqrt : F → F) (x : DualNumber F) : DualNumber F :=
  dual (sqrt x.fst) (x.snd / (2 * sqrt x.fst))

/-- `ln (x + x' ε) = ln x + x' / x ε`. -/
def liftLn (ln : F → F) (x : DualNumber F) : DualNumber F :=
  dual (ln x.fst) (x.snd / x.fst)

/-- A function at numbers that do not move. -/
def liftConst (f : F → F) (x : DualNumber F) : DualNumber F :=
  inl (f x.fst)

/-- What a constant multiple moves by. -/
theorem snd_inl_mul (c : F) (v : DualNumber F) : (inl c * v).snd = c * v.snd := by
  rw [DualNumber.snd_mul, fst_inl, snd_inl, zero_mul, add_zero]

theorem fst_div (x y : DualNumber F) : (x / y).fst = x.fst / y.fst := by
  rw [div_eq_mul_inv]
  exact (fst_mul ..).trans (congrArg _ (fst_inv y))

theorem snd_div (x y : DualNumber F) :
    (x / y).snd = (x.snd - x.fst / y.fst * y.snd) / y.fst := by
  have hinv : (y⁻¹).snd = -(y.fst⁻¹ * y.snd * y.fst⁻¹) := by
    simp [mul_comm]
  calc
    (x / y).snd = x.fst * (y⁻¹).snd + x.snd * (y⁻¹).fst := DualNumber.snd_mul x y⁻¹
    _ = (x.snd - x.fst / y.fst * y.snd) / y.fst := by
          rw [hinv, fst_inv]
          ring

/-! ## The softmax of dual scores -/

/-- The Jacobian of a softmax with the weights `p`, applied to `x`. -/
def jacobian {κ : Type*} (p : κ → F) (t : Finset κ) (x : κ → F) (j : κ) : F :=
  p j * (x j - ∑ k ∈ t, p k * x k)

variable {κ : Type*} {t : Finset κ}

theorem sum_jacobian_mul (p : κ → F) (t : Finset κ) (x y : κ → F) :
    ∑ j ∈ t, jacobian p t x j * y j = ∑ j ∈ t, jacobian p t y j * x j := by
  have hexpand : ∀ x y : κ → F, ∑ j ∈ t, jacobian p t x j * y j =
      ∑ j ∈ t, p j * (x j * y j) - (∑ k ∈ t, p k * x k) * ∑ j ∈ t, p j * y j := by
    intro x y
    rw [mul_sum, ← sum_sub_distrib]
    apply sum_congr rfl
    intro j _
    rw [jacobian]
    ring
  rw [hexpand x y, hexpand y x, mul_comm (∑ k ∈ t, p k * x k)]
  simp only [mul_comm (x _)]

variable [LinearOrder F] [IsStrictOrderedRing F] {exp : F → F} {a : κ → DualNumber F}

variable {score : κ → F}

theorem sum_exp_pos (hpos : ∀ x, 0 < exp x) (ht : t.Nonempty) : 0 < ∑ k ∈ t, exp (score k) :=
  sum_pos (fun _ _ => hpos _) ht

theorem sum_softmax (hpos : ∀ x, 0 < exp x) (ht : t.Nonempty) :
    ∑ j ∈ t, softmax exp score t j = 1 := by
  simp only [softmax]
  rw [← sum_div, div_self (sum_exp_pos hpos ht).ne']

omit [LinearOrder F] [IsStrictOrderedRing F] in
theorem fst_weight_div (m : DualNumber F) (j : κ) :
    (liftExp exp (a j - m) / ∑ k ∈ t, liftExp exp (a k - m)).fst =
      softmax exp (fun k => (a k).fst - m.fst) t j := by
  rw [fst_div, fst_sum]
  simp [liftExp, softmax]

/-- The weights of dual scores move by the Jacobian, however what they are taken against moves. -/
theorem snd_weight_div (hpos : ∀ x, 0 < exp x) (ht : t.Nonempty) (m : DualNumber F) (j : κ) :
    (liftExp exp (a j - m) / ∑ k ∈ t, liftExp exp (a k - m)).snd =
      jacobian (softmax exp (fun k => (a k).fst - m.fst) t) t (fun k => (a k).snd) j := by
  have hne : ∑ k ∈ t, exp ((a k).fst - m.fst) ≠ 0 := (sum_exp_pos hpos ht).ne'
  have hshare : ∀ k, exp ((a k).fst - m.fst) =
      softmax exp (fun k => (a k).fst - m.fst) t k * ∑ k ∈ t, exp ((a k).fst - m.fst) := by
    intro k
    rw [softmax, div_mul_cancel₀ _ hne]
  have hmoved : ∑ k ∈ t, exp ((a k).fst - m.fst) * ((a k).snd - m.snd) =
      (∑ k ∈ t, exp ((a k).fst - m.fst)) *
        ((∑ k ∈ t, softmax exp (fun k => (a k).fst - m.fst) t k * (a k).snd) - m.snd) := by
    calc
      _ = ∑ k ∈ t, ((∑ k ∈ t, exp ((a k).fst - m.fst)) *
            (softmax exp (fun k => (a k).fst - m.fst) t k * (a k).snd) -
            (∑ k ∈ t, exp ((a k).fst - m.fst)) * m.snd *
              softmax exp (fun k => (a k).fst - m.fst) t k) := by
            apply sum_congr rfl
            intro k _
            rw [hshare k]
            ring
      _ = _ := by
            rw [sum_sub_distrib, ← mul_sum, ← mul_sum, sum_softmax hpos ht]
            ring
  rw [snd_div, fst_sum, snd_sum]
  simp only [liftExp, fst_dual, snd_dual, fst_sub, snd_sub]
  rw [hmoved, hshare j, jacobian]
  field_simp
  ring

end Field

end DualNumbers
