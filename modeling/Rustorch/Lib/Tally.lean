import Mathlib.Algebra.GroupWithZero.Nat
import Mathlib.Algebra.Order.BigOperators.Group.List
import Mathlib.Algebra.Order.Group.Nat
import Mathlib.Data.List.Count

/-!
# Tallies of keys

`tally b keys` counts how often each of `0 .. b - 1` occurs.  Tallies do not see the order, and two
ways of giving keys to the same items have the same tally only when they agree, if one of them never
puts an item at a smaller offset than the other (`agree_of_tally_eq`).
-/

namespace Tally

open List

def tally (b : Nat) (keys : List Nat) : List Nat :=
  (List.range b).map fun i => keys.count i

variable {b : Nat} {keys keys' : List Nat}

@[simp] theorem length_tally (b : Nat) (keys : List Nat) : (tally b keys).length = b := by
  simp [tally]

theorem tally_nil (b : Nat) : tally b [] = List.replicate b 0 := by
  simp [tally, map_const']

theorem getElem?_tally {i : Nat} (hi : i < b) : (tally b keys)[i]? = some (keys.count i) := by
  simp [tally, hi]

theorem tally_perm (h : keys.Perm keys') : tally b keys = tally b keys' :=
  map_congr_left fun i _ => h.count_eq i

theorem tally_concat (i : Nat) :
    tally b (keys ++ [i]) = (tally b keys).set i (keys.count i + 1) := by
  refine ext_getElem (by simp) ?_
  intro l hl _
  by_cases hil : i = l
  · subst hil
    simp [tally]
  · simp [tally, hil]

theorem perm_of_tally_eq (hkeys : ∀ i ∈ keys, i < b) (hkeys' : ∀ i ∈ keys', i < b)
    (h : tally b keys = tally b keys') : keys.Perm keys' := by
  refine perm_iff_count.2 fun i => ?_
  by_cases hi : i < b
  · have hcell : (tally b keys)[i]? = (tally b keys')[i]? := by rw [h]
    rw [getElem?_tally hi, getElem?_tally hi] at hcell
    exact Option.some.inj hcell
  · rw [count_eq_zero_of_not_mem fun hmem => hi (hkeys i hmem),
      count_eq_zero_of_not_mem fun hmem => hi (hkeys' i hmem)]

theorem countP_window_succ (lo n : Nat) :
    (keys.countP fun i => decide (lo ≤ i ∧ i < lo + (n + 1))) =
      (keys.countP fun i => decide (lo ≤ i ∧ i < lo + n)) + keys.count (lo + n) := by
  induction keys with
  | nil => rfl
  | cons i keys ih =>
    have hsplit : (lo ≤ i ∧ i < lo + (n + 1)) ↔ (lo ≤ i ∧ i < lo + n) ∨ i = lo + n := by omega
    rw [countP_cons, countP_cons, count_cons, ih]
    simp only [decide_eq_true_eq, hsplit, beq_iff_eq]
    by_cases hlast : i = lo + n
    · have hout : ¬ (lo ≤ i ∧ i < lo + n) := by omega
      simp only [hlast, or_true, if_true]
      rw [hlast] at hout
      rw [if_neg hout]
      omega
    · simp only [hlast, or_false, if_false]
      omega

theorem sum_window {lo n : Nat} (hn : lo + n ≤ b) :
    (((tally b keys).drop lo).take n).sum = keys.countP fun i => decide (lo ≤ i ∧ i < lo + n) := by
  induction n with
  | zero =>
    have hnone : (keys.countP fun i => decide (lo ≤ i ∧ i < lo + 0)) = 0 :=
      countP_eq_zero.2 fun i _ h => by
        obtain ⟨hlo, hlt⟩ := of_decide_eq_true h
        omega
    rw [hnone, take_zero, sum_nil]
  | succ n ih =>
    have hlast : ((tally b keys).drop lo)[n]? = some (keys.count (lo + n)) := by
      rw [getElem?_drop, getElem?_tally (by omega)]
    rw [take_add_one, hlast, sum_append, ih (by omega), countP_window_succ]
    simp

variable {α : Type*} {items : List α} {f g : α → Nat}

theorem eq_of_sum_eq {u v : α → Nat} (hle : ∀ x ∈ items, u x ≤ v x)
    (h : (items.map u).sum = (items.map v).sum) : ∀ x ∈ items, u x = v x := by
  induction items with
  | nil => exact fun x hx => absurd hx not_mem_nil
  | cons x items ih =>
    obtain ⟨hx, hitems⟩ := forall_mem_cons.1 hle
    have htail : (items.map u).sum ≤ (items.map v).sum := sum_le_sum hitems
    rw [map_cons, map_cons, sum_cons, sum_cons] at h
    exact forall_mem_cons.2 ⟨by omega, ih hitems (by omega)⟩

/-- Keys that never lie further out, with the same tally, are the same keys. -/
theorem agree_of_tally_eq (offset : Nat → Nat) (hf : ∀ x ∈ items, f x < b)
    (hg : ∀ x ∈ items, g x < b) (hle : ∀ x ∈ items, offset (g x) ≤ offset (f x))
    (hinj : ∀ x ∈ items, offset (g x) = offset (f x) → g x = f x)
    (h : tally b (items.map f) = tally b (items.map g)) : ∀ x ∈ items, g x = f x := by
  have hperm : (items.map g).Perm (items.map f) :=
    perm_of_tally_eq (forall_mem_map.2 hg) (forall_mem_map.2 hf) h.symm
  have hsum : (items.map fun x => offset (g x)).sum = (items.map fun x => offset (f x)).sum := by
    have hoffsets := (hperm.map offset).sum_eq
    rwa [map_map, map_map] at hoffsets
  intro x hx
  exact hinj x hx (eq_of_sum_eq hle hsum x hx)

end Tally
