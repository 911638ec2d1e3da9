import Mathlib.Algebra.Order.BigOperators.Ring.Finset
import Mathlib.Algebra.BigOperators.Field
import Mathlib.Algebra.BigOperators.Intervals

/-!
# Online softmax

A softmax average weighs each key by the exponential of its score, taken against the largest
score.  A score is `⊥` where the key is masked.  When the keys arrive in parts, the sums over the
keys so far are rescaled by the weight of the old maximum against the new one
(`denominator_union`, `numerator_union`; `normalizer_add` for scores without keys).  Where no key is
masked, the average is the plain one (`numerator_div_denominator`).
-/

namespace OnlineSoftmax

open Finset Multiset WithBot

variable {ι F : Type*} [Field F]

/-- The weight of a score against a maximum. -/
def weight (exp : F → F) : WithBot F → WithBot F → F
  | (m : F), (x : F) => exp (x - m)
  | _, _ => 0

variable {exp : F → F}

@[simp] theorem weight_coe (m x : F) : weight exp m x = exp (x - m) := rfl

@[simp] theorem weight_bot_left (x : WithBot F) : weight exp ⊥ x = 0 := by
  cases x using recBotCoe with
  | bot => rfl
  | coe x => rfl

@[simp] theorem weight_bot_right (m : WithBot F) : weight exp m ⊥ = 0 := by
  cases m using recBotCoe with
  | bot => rfl
  | coe m => rfl

variable [LinearOrder F]

structure ExpLaws (exp : F → F) : Prop where
  add : ∀ x y, exp (x + y) = exp x * exp y
  zero : exp 0 = 1
  pos : ∀ x, 0 < exp x

theorem weight_nonneg (hpos : ∀ x, 0 < exp x) (m x : WithBot F) : 0 ≤ weight exp m x := by
  cases m using recBotCoe with
  | bot => simp
  | coe m =>
    cases x using recBotCoe with
    | bot => simp
    | coe x => exact (hpos _).le

theorem weight_lt_weight [IsStrictOrderedRing F] (hpos : ∀ x, 0 < exp x) (hmono : StrictMono exp)
    {m x y : WithBot F} (hm : m ≠ ⊥) : x < y → weight exp m x < weight exp m y := by
  intro hlt
  obtain ⟨m, rfl⟩ := ne_bot_iff_exists.1 hm
  obtain ⟨y, rfl⟩ := ne_bot_iff_exists.1 (bot_le.trans_lt hlt).ne'
  cases x using recBotCoe with
  | bot => exact hpos _
  | coe x => exact hmono (sub_lt_sub_right (coe_lt_coe.1 hlt) m)

/-- Against a new maximum, a weight is rescaled by the weight of the old one. -/
theorem weight_mul (hadd : ∀ x y, exp (x + y) = exp x * exp y) {m x : WithBot F}
    (m' : WithBot F) : x ≤ m → weight exp m x * weight exp m' m = weight exp m' x := by
  intro hle
  cases m using recBotCoe with
  | bot =>
    rw [le_bot_iff.1 hle]
    simp
  | coe m =>
    cases m' using recBotCoe with
    | bot => simp
    | coe m' =>
      cases x using recBotCoe with
      | bot => simp
      | coe x =>
        calc
          exp (x - m) * exp (m - m') = exp (x - m + (m - m')) := (hadd _ _).symm
          _ = exp (x - m') := by
                congr 1
                ring

/-! ## The two sums -/

section Sums

variable (exp) (score : ι → WithBot F) (value : ι → F)

def denominator (s : Finset ι) : F :=
  ∑ j ∈ s, weight exp (s.sup score) (score j)

def numerator (s : Finset ι) : F :=
  ∑ j ∈ s, weight exp (s.sup score) (score j) * value j

variable {exp} {score} {value} [DecidableEq ι] {s t : Finset ι}

theorem denominator_union (h : ExpLaws exp) : Disjoint s t →
    denominator exp score (s ∪ t) =
      denominator exp score s * weight exp ((s ∪ t).sup score) (s.sup score) +
        ∑ j ∈ t, weight exp ((s ∪ t).sup score) (score j) := by
  intro hdisj
  rw [denominator, sum_union hdisj, denominator, sum_mul]
  congr 1
  apply sum_congr rfl
  intro j hj
  exact (weight_mul h.add _ (le_sup hj)).symm

theorem numerator_union (h : ExpLaws exp) : Disjoint s t →
    numerator exp score value (s ∪ t) =
      numerator exp score value s * weight exp ((s ∪ t).sup score) (s.sup score) +
        ∑ j ∈ t, weight exp ((s ∪ t).sup score) (score j) * value j := by
  intro hdisj
  rw [numerator, sum_union hdisj, numerator, sum_mul]
  congr 1
  apply sum_congr rfl
  intro j hj
  rw [← weight_mul h.add _ (le_sup hj)]
  ring

omit [DecidableEq ι] in
theorem denominator_pos [IsStrictOrderedRing F] (hpos : ∀ x, 0 < exp x) :
    s.sup score ≠ ⊥ → 0 < denominator exp score s := by
  intro htop
  have hne : s.Nonempty := by
    rw [nonempty_iff_ne_empty]
    rintro rfl
    exact htop rfl
  obtain ⟨j, hj, hsup⟩ := exists_mem_eq_sup s hne score
  obtain ⟨m, hm⟩ := ne_bot_iff_exists.1 htop
  calc
    0 < weight exp (s.sup score) (score j) := by
          rw [← hsup, ← hm]
          exact hpos _
    _ ≤ denominator exp score s :=
          single_le_sum (fun i _ => weight_nonneg hpos _ _) hj

end Sums

/-! ## Keys in order -/

section Range

variable {score : Nat → WithBot F} {value : Nat → F} {n w : Nat}

omit [Field F] in
theorem sup_range_add (score : Nat → WithBot F) (n w : Nat) :
    (Finset.range (n + w)).sup score =
      (Finset.range n).sup score ⊔ (Finset.range w).sup fun c => score (n + c) := by
  induction w with
  | zero => simp
  | succ w ih =>
    rw [← Nat.add_assoc, range_add_one, sup_insert, ih, range_add_one, sup_insert, sup_left_comm]

theorem range_add_eq_union (n w : Nat) :
    Finset.range (n + w) = Finset.range n ∪ Finset.Ico n (n + w) := by
  rw [range_eq_Ico, range_eq_Ico, Ico_union_Ico_eq_Ico (Nat.zero_le n) (Nat.le_add_right n w)]

theorem disjoint_range_Ico (n w : Nat) : Disjoint (Finset.range n) (Finset.Ico n (n + w)) := by
  rw [range_eq_Ico]
  exact Ico_disjoint_Ico_consecutive 0 n (n + w)

theorem denominator_range_add (h : ExpLaws exp) :
    denominator exp score (Finset.range (n + w)) =
      denominator exp score (Finset.range n) *
          weight exp ((Finset.range (n + w)).sup score) ((Finset.range n).sup score) +
        ∑ c ∈ Finset.range w, weight exp ((Finset.range (n + w)).sup score) (score (n + c)) := by
  rw [range_add_eq_union, denominator_union h (disjoint_range_Ico n w),
    sum_Ico_eq_sum_range, Nat.add_sub_cancel_left]

theorem numerator_range_add (h : ExpLaws exp) :
    numerator exp score value (Finset.range (n + w)) =
      numerator exp score value (Finset.range n) *
          weight exp ((Finset.range (n + w)).sup score) ((Finset.range n).sup score) +
        ∑ c ∈ Finset.range w,
          weight exp ((Finset.range (n + w)).sup score) (score (n + c)) * value (n + c) := by
  rw [range_add_eq_union, numerator_union h (disjoint_range_Ico n w),
    sum_Ico_eq_sum_range, Nat.add_sub_cancel_left]

end Range

/-! ## Scores that are not masked -/

section Softmax

/-- The share of key `j` in a softmax over the keys `s`. -/
def softmax (exp : F → F) (score : ι → F) (s : Finset ι) (j : ι) : F :=
  exp (score j) / ∑ i ∈ s, exp (score i)

theorem expLaws_of_pos : (∀ x y, exp (x + y) = exp x * exp y) → (∀ x, 0 < exp x) →
    ExpLaws exp := by
  intro hadd hpos
  refine ⟨hadd, ?_, hpos⟩
  have hsquare := hadd 0 0
  rw [add_zero] at hsquare
  exact (mul_eq_left₀ (hpos 0).ne').1 hsquare.symm

variable {score : ι → F} {value : ι → F} {s : Finset ι}

theorem weight_eq_mul (h : ExpLaws exp) (m x : F) : weight exp m x = exp x * exp (-m) := by
  rw [weight_coe, sub_eq_add_neg, h.add]

omit [Field F] in
theorem sup_coe_ne_bot : s.Nonempty → s.sup (fun j => (score j : WithBot F)) ≠ ⊥ := by
  rintro ⟨i, hi⟩ hbot
  exact coe_ne_bot ((Finset.sup_eq_bot_iff _ _).1 hbot i hi)

theorem weight_div_denominator (h : ExpLaws exp) (hs : s.Nonempty) (j : ι) :
    weight exp (s.sup fun j => (score j : WithBot F)) (score j) /
        denominator exp (fun j => (score j : WithBot F)) s = softmax exp score s j := by
  have hsup := @sup_coe_ne_bot ι F _ score s hs
  obtain ⟨m, hm⟩ := ne_bot_iff_exists.1 hsup
  rw [denominator, ← hm]
  simp only [weight_eq_mul h]
  rw [← sum_mul, mul_div_mul_right _ _ (h.pos (-m)).ne', softmax]

theorem numerator_div_denominator (h : ExpLaws exp) (hs : s.Nonempty) :
    numerator exp (fun j => (score j : WithBot F)) value s /
        denominator exp (fun j => (score j : WithBot F)) s =
      ∑ j ∈ s, softmax exp score s j * value j := by
  rw [numerator, sum_div]
  apply sum_congr rfl
  intro j _
  rw [mul_div_right_comm, weight_div_denominator h hs]

end Softmax

/-! ## Scores without keys -/

section Normalizer

/-- The sum of the weights of some scores against the largest of them. -/
def normalizer (exp : F → F) (s : Multiset (WithBot F)) : F :=
  (s.map (weight exp s.sup)).sum

variable {s t : Multiset (WithBot F)}

/-- Only masked scores: nothing weighs anything. -/
theorem normalizer_of_sup_eq_bot : s.sup = ⊥ → normalizer exp s = 0 := by
  intro hbot
  rw [normalizer, hbot]
  apply Multiset.sum_eq_zero
  intro w hw
  obtain ⟨x, _, rfl⟩ := mem_map.1 hw
  exact weight_bot_left x

section

variable (hadd : ∀ x y, exp (x + y) = exp x * exp y)

include hadd

theorem sum_weight (s : Multiset (WithBot F)) (m : WithBot F) :
    (s.map (weight exp m)).sum = normalizer exp s * weight exp m s.sup := by
  rw [normalizer, ← sum_map_mul_right]
  congr 1
  apply map_congr rfl
  intro x hx
  exact (weight_mul hadd m (le_sup hx)).symm

theorem normalizer_add (s t : Multiset (WithBot F)) :
    normalizer exp (s + t) =
      normalizer exp s * weight exp (s.sup ⊔ t.sup) s.sup +
        normalizer exp t * weight exp (s.sup ⊔ t.sup) t.sup := by
  rw [normalizer, Multiset.sup_add, Multiset.map_add, Multiset.sum_add, sum_weight hadd s,
    sum_weight hadd t]

theorem normalizer_cons (x : WithBot F) (s : Multiset (WithBot F)) :
    normalizer exp (x ::ₘ s) =
      normalizer exp s * weight exp (s.sup ⊔ x) s.sup + weight exp (s.sup ⊔ x) x := by
  rw [normalizer, Multiset.sup_cons, sup_comm, Multiset.map_cons, Multiset.sum_cons,
    sum_weight hadd s, add_comm]

end

theorem normalizer_pos [IsStrictOrderedRing F] (hpos : ∀ x, 0 < exp x) :
    s.sup ≠ ⊥ → 0 < normalizer exp s := by
  intro hsup
  obtain ⟨m, hm⟩ := ne_bot_iff_exists.1 hsup
  obtain ⟨x, hx, hne⟩ : ∃ x ∈ s, x ≠ ⊥ := by
    by_contra hall
    push Not at hall
    exact hsup (le_bot_iff.1 (sup_le.2 fun x hx => (hall x hx).le))
  obtain ⟨a, rfl⟩ := ne_bot_iff_exists.1 hne
  have hweight : 0 < weight exp s.sup (a : WithBot F) := by
    rw [← hm]
    exact hpos _
  have hnonneg : ∀ w ∈ s.map (weight exp s.sup), 0 ≤ w := by
    intro w hw
    obtain ⟨y, _, rfl⟩ := mem_map.1 hw
    exact weight_nonneg hpos _ _
  exact hweight.trans_le (single_le_sum hnonneg _ (mem_map_of_mem _ hx))

end Normalizer

end OnlineSoftmax
