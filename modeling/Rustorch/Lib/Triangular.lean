import Mathlib.Algebra.BigOperators.Field
import Mathlib.Algebra.BigOperators.Intervals
import Mathlib.Algebra.Order.BigOperators.Ring.Finset
import Mathlib.Tactic.Linarith

/-!
# Triangular factors and positive definite forms

Square matrices as functions of two indices, of a size that is passed along.  A lower triangular
`l` with a diagonal without zeros makes `gram n l = l * lᵀ` positive definite (`posDef_gram`).
Where a factorisation of the leading block leaves a remainder that is not positive, the form is
not positive definite (`not_posDef_of_remainder`).
-/

namespace Triangular

open Finset Function
open Finset (range)

variable {F : Type*} [Field F]

def Lower (l : ℕ → ℕ → F) : Prop :=
  ∀ i j, i < j → l i j = 0

/-- The entries of `l * lᵀ`. -/
def gram (n : ℕ) (l : ℕ → ℕ → F) (i j : ℕ) : F :=
  ∑ k ∈ range n, l i k * l j k

/-- `xᵀ * a * x`. -/
def form (n : ℕ) (a : ℕ → ℕ → F) (x : ℕ → F) : F :=
  ∑ i ∈ range n, ∑ j ∈ range n, x i * a i j * x j

/-- The entries of `lᵀ * x`. -/
def transposed (n : ℕ) (l : ℕ → ℕ → F) (x : ℕ → F) (k : ℕ) : F :=
  ∑ i ∈ range n, l i k * x i

theorem gram_comm (n : ℕ) (l : ℕ → ℕ → F) (i j : ℕ) : gram n l i j = gram n l j i :=
  sum_congr rfl fun _ _ => mul_comm _ _

variable {n : ℕ} {a l : ℕ → ℕ → F}

theorem form_congr {b : ℕ → ℕ → F} (x : ℕ → F) (h : ∀ i < n, ∀ j < n, a i j = b i j) :
    form n a x = form n b x := by
  refine sum_congr rfl fun i hi => sum_congr rfl fun j hj => ?_
  rw [h i (mem_range.1 hi) j (mem_range.1 hj)]

theorem form_add (n : ℕ) (a b : ℕ → ℕ → F) (x : ℕ → F) :
    form n (fun i j => a i j + b i j) x = form n a x + form n b x := by
  simp only [form, mul_add, add_mul, sum_add_distrib]

theorem form_gram (n m : ℕ) (l : ℕ → ℕ → F) (x : ℕ → F) :
    form n (gram m l) x = ∑ k ∈ range m, transposed n l x k ^ 2 := by
  have hterm : ∀ i j, x i * gram m l i j * x j = ∑ k ∈ range m, (l i k * x i) * (l j k * x j) := by
    intro i j
    rw [gram, mul_sum, sum_mul]
    exact sum_congr rfl fun k _ => by ring
  calc
    form n (gram m l) x =
        ∑ i ∈ range n, ∑ j ∈ range n, ∑ k ∈ range m,
          (l i k * x i) * (l j k * x j) :=
      sum_congr rfl fun i _ => sum_congr rfl fun j _ => hterm i j
    _ = ∑ i ∈ range n, ∑ k ∈ range m, ∑ j ∈ range n,
          (l i k * x i) * (l j k * x j) :=
      sum_congr rfl fun i _ => sum_comm
    _ = ∑ k ∈ range m, ∑ i ∈ range n, ∑ j ∈ range n,
          (l i k * x i) * (l j k * x j) := sum_comm
    _ = ∑ k ∈ range m, transposed n l x k ^ 2 := by
      refine sum_congr rfl fun k _ => ?_
      rw [sq, transposed, sum_mul_sum]

/-- Entries past the last index where `x` lives do not count. -/
theorem form_of_support {m : ℕ} {x : ℕ → F} (hm : m ≤ n) (hx : ∀ i, m ≤ i → x i = 0) :
    form n a x = form m a x := by
  have hsubset : range m ⊆ range n := range_subset_range.2 hm
  unfold form
  rw [← sum_subset hsubset]
  · refine sum_congr rfl fun i _ => ?_
    rw [← sum_subset hsubset]
    intro j _ hj
    rw [hx j (not_lt.1 fun h => hj (mem_range.2 h)), mul_zero]
  · intro i _ hi
    refine sum_eq_zero fun j _ => ?_
    rw [hx i (not_lt.1 fun h => hi (mem_range.2 h)), zero_mul, zero_mul]

theorem gram_of_lower {i j : ℕ} (hl : Lower l) (hj : j < n) :
    gram n l i j = ∑ k ∈ range (j + 1), l i k * l j k := by
  unfold gram
  rw [← sum_subset (range_subset_range.2 hj)]
  intro k _ hk
  rw [hl j k (not_le.1 fun h => hk (mem_range.2 (Nat.lt_succ_of_le h))), mul_zero]

theorem exists_transposed (hl : Lower l) (hdiag : ∀ i < n, l i i ≠ 0) (y : ℕ → F) :
    ∃ x : ℕ → F, ∀ k < n, transposed n l x k = y k := by
  induction n generalizing y with
  | zero => exact ⟨0, fun k hk => absurd hk (Nat.not_lt_zero k)⟩
  | succ n ih =>
    obtain ⟨x, hx⟩ := ih (fun i hi => hdiag i (Nat.lt_succ_of_lt hi))
      (fun k => y k - l n k * (y n / l n n))
    refine ⟨update x n (y n / l n n), ?_⟩
    have hold : ∀ k, transposed n l (update x n (y n / l n n)) k = transposed n l x k := by
      intro k
      refine sum_congr rfl fun i hi => ?_
      rw [update_of_ne (mem_range.1 hi).ne]
    intro k hk
    rw [transposed, sum_range_succ, update_self]
    change transposed n l (update x n (y n / l n n)) k + _ = _
    rw [hold]
    rcases Nat.lt_succ_iff_lt_or_eq.1 hk with hlt | rfl
    · rw [hx k hlt, sub_add_cancel]
    · have hzero : transposed k l x k = 0 :=
        sum_eq_zero fun i hi => by rw [hl i k (mem_range.1 hi), zero_mul]
      rw [hzero, zero_add, mul_div_cancel₀ _ (hdiag k hk)]

/-! ## Positive definite forms -/

section Ordered

variable [LinearOrder F]

def PosDef (n : ℕ) (a : ℕ → ℕ → F) : Prop :=
  ∀ x : ℕ → F, (∃ i < n, x i ≠ 0) → 0 < form n a x

variable {n : ℕ}

theorem PosDef.congr {a b : ℕ → ℕ → F} (h : ∀ i < n, ∀ j < n, a i j = b i j) :
    PosDef n a ↔ PosDef n b := by
  refine forall_congr' fun x => imp_congr_right fun _ => ?_
  rw [form_congr x h]

variable [IsStrictOrderedRing F]

/-- The last index where `x` lives gives a square that is not zero. -/
theorem posDef_gram {l : ℕ → ℕ → F} (hl : Lower l) (hdiag : ∀ i < n, l i i ≠ 0) :
    PosDef n (gram n l) := by
  rintro x ⟨i₀, hi₀, hx₀⟩
  obtain ⟨i, hi, hlast⟩ : ∃ i, (i < n ∧ x i ≠ 0) ∧ ∀ j, i < j → j < n → x j = 0 := by
    have hne : ((range n).filter fun i => x i ≠ 0).Nonempty :=
      ⟨i₀, mem_filter.2 ⟨mem_range.2 hi₀, hx₀⟩⟩
    obtain ⟨hmem, hnonzero⟩ := mem_filter.1 (max'_mem _ hne)
    refine ⟨max' _ hne, ⟨mem_range.1 hmem, hnonzero⟩, ?_⟩
    intro j hj hjn
    by_contra hxj
    have hmem : j ∈ (range n).filter fun i => x i ≠ 0 :=
      mem_filter.2 ⟨mem_range.2 hjn, hxj⟩
    exact absurd hj (not_lt.2 (le_max' _ j hmem))
  have hentry : transposed n l x i = l i i * x i := by
    refine sum_eq_single_of_mem i (mem_range.2 hi.1) ?_
    intro j hj hne
    rcases Nat.lt_or_gt_of_ne hne with hlt | hgt
    · rw [hl j i hlt, zero_mul]
    · rw [hlast j hgt (mem_range.1 hj), mul_zero]
  rw [form_gram]
  refine sum_pos' (fun k _ => sq_nonneg _) ⟨i, mem_range.2 hi.1, ?_⟩
  rw [hentry]
  exact sq_pos_of_ne_zero (mul_ne_zero (hdiag i hi.1) hi.2)

/-- A vector that the factored part does not see meets only the remainder of the next pivot. -/
theorem not_posDef_of_remainder {r : ℕ} {a l : ℕ → ℕ → F} {s : F} (hl : Lower l) (hr : r < n)
    (hdiag : ∀ i < r, l i i ≠ 0)
    (ha : ∀ i ≤ r, ∀ j ≤ r, a i j = gram r l i j + if i = r ∧ j = r then s else 0) (hs : s ≤ 0) :
    ¬ PosDef n a := by
  obtain ⟨z, hz⟩ := exists_transposed hl hdiag (fun k => -l r k)
  intro hpos
  set x : ℕ → F := fun i => if i < r then z i else if i = r then 1 else 0 with hx
  have hxr : x r = 1 := by simp [hx]
  have hbelow : ∀ i < r, x i = z i := fun i hi => if_pos hi
  have habove : ∀ i, r + 1 ≤ i → x i = 0 := by
    intro i hi
    have hne : ¬ i < r := by omega
    have hne' : ¬ i = r := by omega
    simp [hx, hne, hne']
  have hunseen : ∀ k < r, transposed (r + 1) l x k = 0 := by
    intro k hk
    rw [transposed, sum_range_succ, hxr, mul_one]
    have hsame : ∑ i ∈ range r, l i k * x i = transposed r l z k :=
      sum_congr rfl fun i hi => by rw [hbelow i (mem_range.1 hi)]
    rw [hsame, hz k hk, neg_add_cancel]
  have hcorner : form (r + 1) (fun i j => if i = r ∧ j = r then s else 0) x = s := by
    unfold form
    rw [sum_eq_single_of_mem r (self_mem_range_succ r),
      sum_eq_single_of_mem r (self_mem_range_succ r)]
    · simp [hxr]
    · intro j _ hj
      simp [hj]
    · intro i _ hi
      simp [hi]
  have hform : form n a x = s := by
    rw [form_of_support hr habove, form_congr x (fun i hi j hj =>
      ha i (Nat.le_of_lt_succ hi) j (Nat.le_of_lt_succ hj)), form_add, form_gram, hcorner]
    rw [sum_eq_zero, zero_add]
    intro k hk
    rw [hunseen k (mem_range.1 hk), sq, mul_zero]
  have hpositive := hpos x ⟨r, hr, by rw [hxr]; exact one_ne_zero⟩
  rw [hform] at hpositive
  exact absurd hpositive (not_lt.2 hs)

end Ordered

end Triangular
