import Mathlib.Algebra.Order.Floor.Ring

/-!
# Rounding to integers

- `nearestEven` : to a nearest integer, ties to the even one
- `halfAway`    : to a nearest integer, ties away from zero
- `clamp`       : into an interval of integers

Both roundings move a value by at most one half.  So does clamping the result, for a value that
itself exceeds the interval by at most one half (`abs_clamp_sub_le`).
-/

namespace Rounding

/-- The numeral of one half, here and where the rules of rounding are used. -/
theorem two_atLeastTwo : Nat.AtLeastTwo 2 := ⟨le_rfl⟩

attribute [local instance] two_atLeastTwo

variable {F : Type*} [Field F] [LinearOrder F] [FloorRing F]

def nearestEven (x : F) : ℤ :=
  if x - ⌊x⌋ < 1 / 2 then
    ⌊x⌋
  else if 1 / 2 < x - ⌊x⌋ then
    ⌊x⌋ + 1
  else if ⌊x⌋ % 2 = 0 then
    ⌊x⌋
  else
    ⌊x⌋ + 1

def halfAway (x : F) : ℤ :=
  if 0 ≤ x then ⌊x + 1 / 2⌋ else ⌈x - 1 / 2⌉

def clamp (lo hi x : ℤ) : ℤ :=
  max lo (min x hi)

theorem clamp_mem {lo hi : ℤ} (x : ℤ) (h : lo ≤ hi) : lo ≤ clamp lo hi x ∧ clamp lo hi x ≤ hi :=
  ⟨le_max_left _ _, max_le h (min_le_right _ _)⟩

theorem clamp_of_mem {lo hi x : ℤ} (hlo : lo ≤ x) (hhi : x ≤ hi) : clamp lo hi x = x := by
  rw [clamp, min_eq_left hhi, max_eq_right hlo]

theorem clamp_mono {lo hi x y : ℤ} (h : x ≤ y) : clamp lo hi x ≤ clamp lo hi y :=
  max_le_max le_rfl (min_le_min h le_rfl)

variable [IsStrictOrderedRing F]

theorem abs_nearestEven_sub_le (x : F) : |(nearestEven x : F) - x| ≤ 1 / 2 := by
  have hle := Int.floor_le x
  have hlt := Int.lt_floor_add_one x
  rw [abs_le]
  unfold nearestEven
  split
  · next h => exact ⟨by linarith, by linarith⟩
  · next h =>
      split
      · next h' =>
          push_cast
          exact ⟨by linarith, by linarith⟩
      · next h' =>
          split
          · exact ⟨by linarith, by linarith⟩
          · push_cast
            exact ⟨by linarith, by linarith⟩

theorem abs_halfAway_sub_le (x : F) : |(halfAway x : F) - x| ≤ 1 / 2 := by
  rw [abs_le]
  unfold halfAway
  split
  · have hle := Int.floor_le (x + 1 / 2)
    have hlt := Int.lt_floor_add_one (x + 1 / 2)
    exact ⟨by linarith, by linarith⟩
  · have hle := Int.le_ceil (x - 1 / 2)
    have hlt := Int.ceil_lt_add_one (x - 1 / 2)
    exact ⟨by linarith, by linarith⟩

theorem nearestEven_mono {x y : F} (h : x ≤ y) : nearestEven x ≤ nearestEven y := by
  by_contra hgt
  rw [not_le] at hgt
  have hstep : (nearestEven y : F) + 1 ≤ nearestEven x := by exact_mod_cast hgt
  have hx := (abs_le.1 (abs_nearestEven_sub_le x)).2
  have hy := (abs_le.1 (abs_nearestEven_sub_le y)).1
  -- Only two equal values could round to integers one apart.
  have heq : x = y := le_antisymm h (by linarith)
  rw [heq] at hgt
  exact lt_irrefl _ hgt

theorem nearestEven_intCast (n : ℤ) : nearestEven (n : F) = n := by
  simp [nearestEven]

variable {lo hi r : ℤ} {x : F}

omit [FloorRing F] in
/-- Clamping a nearest integer of a value near the interval keeps it nearest. -/
theorem abs_clamp_sub_le (hr : |(r : F) - x| ≤ 1 / 2) (hlo : (lo : F) - 1 / 2 ≤ x)
    (hhi : x ≤ hi + 1 / 2) : |(clamp lo hi r : F) - x| ≤ 1 / 2 := by
  rw [abs_le] at hr ⊢
  obtain ⟨hr₁, hr₂⟩ := hr
  unfold clamp
  rcases le_total r hi with hle | hle
  · rw [min_eq_left hle]
    rcases le_total lo r with hlor | hlor
    · rw [max_eq_right hlor]
      exact ⟨hr₁, hr₂⟩
    · rw [max_eq_left hlor]
      have hcast : (r : F) ≤ lo := by exact_mod_cast hlor
      exact ⟨by linarith, by linarith⟩
  · rw [min_eq_right hle]
    rcases le_total lo hi with hlohi | hlohi
    · rw [max_eq_right hlohi]
      have hcast : (hi : F) ≤ r := by exact_mod_cast hle
      exact ⟨by linarith, by linarith⟩
    · rw [max_eq_left hlohi]
      have hcast' : (hi : F) ≤ lo := by exact_mod_cast hlohi
      exact ⟨by linarith, by linarith⟩

omit [FloorRing F] in
/-- A value within one half of an integer of the interval exceeds it by at most one half. -/
theorem le_of_abs_sub_le {q : ℤ} (hq : |(q : F) - x| ≤ 1 / 2) (hlo : lo ≤ q) (hhi : q ≤ hi) :
    (lo : F) - 1 / 2 ≤ x ∧ x ≤ hi + 1 / 2 := by
  obtain ⟨hq₁, hq₂⟩ := abs_le.1 hq
  have hlo' : (lo : F) ≤ q := by exact_mod_cast hlo
  have hhi' : (q : F) ≤ hi := by exact_mod_cast hhi
  exact ⟨by linarith, by linarith⟩

end Rounding
