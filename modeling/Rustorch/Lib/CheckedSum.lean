import Mathlib.Algebra.BigOperators.Intervals
import Mathlib.Tactic.Linarith

/-!
# Sums in a bounded accumulator

A loop adds integer terms to an accumulator that holds the values from `lo` up to `hi`, and fails
when a value leaves that range.  What it returns is the exact sum; terms between `-low` and `high`
keep it inside as long as their number allows.
-/

namespace CheckedSum

open List

variable {lo hi : ℤ} {term : Nat → Option ℤ} {f : Nat → ℤ} {n : Nat}

/-- The value, if the range holds it. -/
def fit (lo hi x : ℤ) : Option ℤ :=
  if lo ≤ x ∧ x ≤ hi then some x else none

theorem fit_eq_some {x y : ℤ} : fit lo hi x = some y ↔ x = y ∧ lo ≤ x ∧ x ≤ hi := by
  unfold fit
  split
  · next h => simp [h]
  · next h => simp [h]

theorem fit_of_mem {x : ℤ} (hlo : lo ≤ x) (hhi : x ≤ hi) : fit lo hi x = some x :=
  if_pos ⟨hlo, hhi⟩

/-- `for i in 0..n { acc += term(i) }`. -/
def sum (lo hi : ℤ) (n : Nat) (term : Nat → Option ℤ) : Option ℤ :=
  (range n).foldlM (fun acc i => (term i).bind (fun x => fit lo hi (acc + x))) 0

theorem sum_succ : sum lo hi (n + 1) term =
    (sum lo hi n term).bind (fun acc => (term n).bind (fun x => fit lo hi (acc + x))) := by
  unfold sum
  rw [range_succ, foldlM_append]
  simp only [foldlM_cons, foldlM_nil, bind_pure]
  rfl

theorem eq_of_sum {v : ℤ} (hterm : ∀ i < n, term i = some (f i)) (hzero : lo ≤ 0 ∧ 0 ≤ hi) :
    sum lo hi n term = some v → v = ∑ i ∈ Finset.range n, f i ∧ lo ≤ v ∧ v ≤ hi := by
  induction n generalizing v with
  | zero =>
    intro h
    cases h
    exact ⟨rfl, hzero⟩
  | succ n ih =>
    intro h
    rw [sum_succ, Option.bind_eq_some_iff] at h
    obtain ⟨acc, hacc, h⟩ := h
    obtain ⟨hexact, _⟩ := ih (fun i hi => hterm i (Nat.lt_succ_of_lt hi)) hacc
    rw [hterm n (Nat.lt_succ_self n), Option.bind_some, fit_eq_some] at h
    obtain ⟨rfl, hrange⟩ := h
    refine ⟨?_, hrange⟩
    rw [Finset.sum_range_succ, hexact]

theorem sum_mem {low high : ℤ} (hf : ∀ i < n, -low ≤ f i ∧ f i ≤ high) :
    -(n * low) ≤ ∑ i ∈ Finset.range n, f i ∧ ∑ i ∈ Finset.range n, f i ≤ n * high := by
  induction n with
  | zero => simp
  | succ n ih =>
    obtain ⟨hlow, hhigh⟩ := ih (fun i hi => hf i (Nat.lt_succ_of_lt hi))
    have hn := hf n (Nat.lt_succ_self n)
    rw [Finset.sum_range_succ]
    push_cast
    constructor
    · linarith [hn.1]
    · linarith [hn.2]

/-- Enough room for `n` terms is enough for every turn of the loop. -/
theorem sum_eq {low high : ℤ} (hterm : ∀ i < n, term i = some (f i))
    (hf : ∀ i < n, -low ≤ f i ∧ f i ≤ high) (hlow : 0 ≤ low) (hhigh : 0 ≤ high)
    (hlo : lo ≤ -(n * low)) (hhi : n * high ≤ hi) :
    sum lo hi n term = some (∑ i ∈ Finset.range n, f i) := by
  induction n with
  | zero => rfl
  | succ n ih =>
    have hmem := sum_mem hf
    push_cast at hlo hhi hmem
    have hprev := ih (fun i hi => hterm i (Nat.lt_succ_of_lt hi))
      (fun i hi => hf i (Nat.lt_succ_of_lt hi)) (by linarith) (by linarith)
    rw [sum_succ, hprev, Option.bind_some, hterm n (Nat.lt_succ_self n), Option.bind_some,
      ← Finset.sum_range_succ]
    exact fit_of_mem (hlo.trans hmem.1) (hmem.2.trans hhi)

end CheckedSum
