import Rustorch.Lib.DualNumbers

/-!
# Standardised families

A family minus its mean, over the square root of its variance.  Run at dual numbers, the
standardised family moves by a linear map (`snd_standardized`) which is its own adjoint
(`sum_movement_mul`).
-/

namespace Standardize

open DualNumbers TrivSqZeroExt Finset

variable {ι α F : Type*}

/-! ## The family -/

section Family

variable [CommRing α] [Div α] (sqrt : α → α) (eps : α) (s : Finset ι) (x : ι → α)

def mean : α :=
  (∑ i ∈ s, x i) / (s.card : α)

def variance : α :=
  (∑ i ∈ s, (x i - mean s x) * (x i - mean s x)) / (s.card : α)

def invStd : α :=
  1 / sqrt (variance s x + eps)

def standardized (i : ι) : α :=
  (x i - mean s x) * invStd sqrt eps s x

end Family

section Field

variable [Field F] {sqrt : F → F} {eps : F} {s : Finset ι} {x : ι → F}

theorem sum_sub_mean (hcard : (s.card : F) ≠ 0) : ∑ i ∈ s, (x i - mean s x) = 0 := by
  rw [sum_sub_distrib, sum_const, nsmul_eq_mul, mean, mul_div_cancel₀ _ hcard, sub_self]

theorem variance_nonneg [LinearOrder F] [IsStrictOrderedRing F] (s : Finset ι) (x : ι → F) :
    0 ≤ variance s x :=
  div_nonneg (sum_nonneg fun _ _ => mul_self_nonneg _) (Nat.cast_nonneg _)

/-! ## The movement -/

/-- How a standardised family moves with the tangent `v`. -/
def movement (r : F) (h : ι → F) (s : Finset ι) (v : ι → F) (i : ι) : F :=
  r / (s.card : F) * ((s.card : F) * v i - (∑ k ∈ s, v k) - h i * ∑ k ∈ s, v k * h k)

/-- The movement is its own adjoint. -/
theorem sum_movement_mul (r : F) (h : ι → F) (s : Finset ι) (v g : ι → F) :
    ∑ i ∈ s, g i * movement r h s v i = ∑ i ∈ s, movement r h s g i * v i := by
  have hexpand : ∀ v g : ι → F, ∑ i ∈ s, g i * movement r h s v i =
      r / (s.card : F) * ((s.card : F) * ∑ i ∈ s, g i * v i - (∑ i ∈ s, g i) * (∑ i ∈ s, v i) -
        (∑ i ∈ s, g i * h i) * ∑ i ∈ s, v i * h i) := by
    intro v g
    rw [mul_sum s (fun i => g i * v i), sum_mul, sum_mul,
      ← sum_sub_distrib, ← sum_sub_distrib, mul_sum]
    apply sum_congr rfl
    intro i _
    rw [movement]
    ring
  have hswap : ∑ i ∈ s, movement r h s g i * v i = ∑ i ∈ s, v i * movement r h s g i :=
    sum_congr rfl fun i _ => mul_comm _ _
  rw [hswap, hexpand v g, hexpand g v]
  simp only [mul_comm (v _) (g _)]
  ring

end Field

/-! ## Dual families -/

section Dual

variable [Field F] {sqrt : F → F} {eps : F} {s : Finset ι} {x : ι → DualNumber F}

theorem fst_mean : (mean s x).fst = mean s fun i => (x i).fst := by
  rw [mean, fst_div, fst_sum, fst_natCast, mean]

theorem snd_mean : (mean s x).snd = mean s fun i => (x i).snd := by
  rw [mean, snd_div, snd_sum, fst_natCast, snd_natCast, mul_zero, sub_zero, mean]

theorem fst_variance : (variance s x).fst = variance s fun i => (x i).fst := by
  rw [variance, fst_div, fst_sum, fst_natCast, variance]
  simp only [fst_mul, fst_sub, fst_mean]

theorem snd_variance (hcard : (s.card : F) ≠ 0) :
    (variance s x).snd =
      2 * (∑ i ∈ s, ((x i).fst - mean s fun i => (x i).fst) * (x i).snd) / (s.card : F) := by
  set μ := mean s fun i => (x i).fst with hμ
  set μ' := mean s fun i => (x i).snd with hμ'
  have hzero : ∑ i ∈ s, ((x i).fst - μ) = 0 := sum_sub_mean hcard
  have hterm : ∀ i, ((x i - mean s x) * (x i - mean s x)).snd =
      2 * (((x i).fst - μ) * (x i).snd) - 2 * μ' * ((x i).fst - μ) := by
    intro i
    rw [DualNumber.snd_mul, fst_sub, snd_sub, fst_mean, snd_mean, ← hμ, ← hμ']
    ring
  rw [variance, snd_div, fst_natCast, snd_natCast, mul_zero, sub_zero, snd_sum]
  simp only [hterm]
  rw [sum_sub_distrib, ← mul_sum, ← mul_sum, hzero, mul_zero, sub_zero]

theorem fst_invStd :
    (invStd (liftSqrt sqrt) (inl eps) s x).fst = invStd sqrt eps s fun i => (x i).fst := by
  simp only [invStd, fst_div, fst_one, liftSqrt, fst_dual, fst_add, fst_inl, fst_variance]

theorem fst_standardized (i : ι) :
    (standardized (liftSqrt sqrt) (inl eps) s x i).fst =
      standardized sqrt eps s (fun i => (x i).fst) i := by
  rw [standardized, fst_mul, fst_sub, fst_mean, fst_invStd, standardized]

/-- Standardised dual numbers move by `movement`. -/
theorem snd_standardized [CharZero F] (hcard : (s.card : F) ≠ 0)
    (hsqrt : sqrt ((variance s fun i => (x i).fst) + eps) ≠ 0) (i : ι) :
    (standardized (liftSqrt sqrt) (inl eps) s x i).snd =
      movement (invStd sqrt eps s fun i => (x i).fst)
        (standardized sqrt eps s fun i => (x i).fst) s (fun i => (x i).snd) i := by
  set μ := mean s fun i => (x i).fst with hμ
  set σ := sqrt ((variance s fun i => (x i).fst) + eps) with hσ
  set P := ∑ k ∈ s, ((x k).fst - μ) * (x k).snd with hP
  have hinv : (invStd sqrt eps s fun i => (x i).fst) = 1 / σ := rfl
  have hmoved : (invStd (liftSqrt sqrt) (inl eps) s x).snd =
      -(1 / σ) * (1 / σ) * (1 / σ) * (P / (s.card : F)) := by
    simp only [invStd, snd_div, snd_one, fst_one, liftSqrt, fst_dual, snd_dual, fst_add, snd_add,
      fst_inl, snd_inl, add_zero, fst_variance, snd_variance hcard, ← hσ, ← hμ, ← hP]
    ring
  have hcross : ∑ k ∈ s, (x k).snd * standardized sqrt eps s (fun i => (x i).fst) k =
      P * (1 / σ) := by
    rw [hP, sum_mul]
    apply sum_congr rfl
    intro k _
    rw [standardized, hinv, ← hμ]
    ring
  have hmean : (∑ k ∈ s, (x k).snd) = (s.card : F) * mean s fun i => (x i).snd := by
    rw [mean, mul_div_cancel₀ _ hcard]
  rw [standardized, DualNumber.snd_mul, fst_sub, snd_sub, fst_mean, snd_mean, fst_invStd, hmoved,
    movement, hcross, hmean, standardized, hinv, ← hμ]
  field_simp
  ring

end Dual

end Standardize
