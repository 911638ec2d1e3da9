import Mathlib.Algebra.Order.BigOperators.Group.List
import Mathlib.Data.Nat.Cast.Basic

/-!
# Mixed-radix numerals

A list of bounds, innermost (fastest) first, names the digits of a mixed-radix numeral: `digits`
splits a number, `value` puts it together again, and `weights` are the place values.  These are
the row-major indices of a multi-dimensional array whose sizes are the bounds, listed from the
last axis to the first.
-/

namespace MixedRadix

open List

/-! ## Digits and values -/

/-- The digits of `i`, innermost first; an overflow of the last digit is dropped. -/
def digits : List Nat → Nat → List Nat
  | [], _ => []
  | d :: ds, i => i % d :: digits ds (i / d)

def value : List Nat → List Nat → Nat
  | d :: ds, c :: cs => c + d * value ds cs
  | _, _ => 0

/-- The place value of each digit. -/
def weights : List Nat → List Nat
  | [] => []
  | d :: ds => 1 :: (weights ds).map (fun w => d * w)

/-- One digit per bound, each below its bound. -/
abbrev Bounded (ds cs : List Nat) : Prop :=
  List.Forall₂ (fun d c => c < d) ds cs

@[simp] theorem length_digits (ds : List Nat) : ∀ i : Nat, (digits ds i).length = ds.length := by
  induction ds with
  | nil =>
    intro i
    rfl
  | cons d ds ih =>
    intro i
    simp [digits, ih]

@[simp] theorem length_weights (ds : List Nat) : (weights ds).length = ds.length := by
  induction ds with
  | nil => rfl
  | cons d ds ih => simp [weights, ih]

variable {ds : List Nat}

theorem bounded_digits : (∀ d ∈ ds, 0 < d) → ∀ i : Nat, Bounded ds (digits ds i) := by
  induction ds with
  | nil =>
    intro _ i
    exact Forall₂.nil
  | cons d ds ih =>
    intro hpos i
    refine Forall₂.cons ?_ ?_
    · exact Nat.mod_lt i (hpos d mem_cons_self)
    · exact ih (fun e he => hpos e (mem_cons_of_mem d he)) (i / d)

/-- Putting the digits together gives the number back, modulo the size. -/
theorem value_digits (ds : List Nat) : ∀ i : Nat, value ds (digits ds i) = i % ds.prod := by
  induction ds with
  | nil =>
    intro i
    simp [value, Nat.mod_one]
  | cons d ds ih =>
    intro i
    rw [digits, value, ih, prod_cons, Nat.mod_mul]

theorem value_digits_of_lt {i : Nat} : i < ds.prod → value ds (digits ds i) = i := by
  intro h
  rw [value_digits, Nat.mod_eq_of_lt h]

theorem value_lt {cs : List Nat} : Bounded ds cs → value ds cs < ds.prod := by
  intro h
  induction h with
  | nil => simp [value]
  | @cons d c ds cs hc _ ih =>
    calc
      c + d * value ds cs < d + d * value ds cs := Nat.add_lt_add_right hc _
      _ = d * (value ds cs + 1) := by
            rw [Nat.mul_add, Nat.mul_one, Nat.add_comm]
      _ ≤ d * ds.prod := Nat.mul_le_mul_left d ih

/-- The digits of a bounded numeral are the ones it was put together from. -/
theorem digits_value {cs : List Nat} : Bounded ds cs → digits ds (value ds cs) = cs := by
  intro h
  induction h with
  | nil => rfl
  | @cons d c ds cs hc _ ih =>
    have hpos : 0 < d := Nat.lt_of_le_of_lt (Nat.zero_le c) hc
    have hmod : (c + d * value ds cs) % d = c := by
      rw [Nat.add_mul_mod_self_left, Nat.mod_eq_of_lt hc]
    have hdiv : (c + d * value ds cs) / d = value ds cs := by
      rw [Nat.add_mul_div_left _ _ hpos, Nat.div_eq_of_lt hc, Nat.zero_add]
    rw [value, digits, hmod, hdiv, ih]

/-! ## The outermost digit -/

theorem digits_concat (ds : List Nat) (k : Nat) :
    ∀ i : Nat, digits (ds ++ [k]) i = digits ds i ++ [i / ds.prod % k] := by
  induction ds with
  | nil =>
    intro i
    simp [digits]
  | cons d ds ih =>
    intro i
    rw [cons_append, digits, ih, Nat.div_div_eq_div_mul, digits, prod_cons, cons_append]

theorem value_concat (ds : List Nat) (k c : Nat) :
    ∀ cs : List Nat, cs.length = ds.length →
      value (ds ++ [k]) (cs ++ [c]) = value ds cs + ds.prod * c := by
  induction ds with
  | nil =>
    intro cs hlen
    have hnil : cs = [] := length_eq_zero_iff.1 hlen
    simp [hnil, value]
  | cons d ds ih =>
    intro cs hlen
    cases cs with
    | nil => simp at hlen
    | cons a cs =>
      rw [cons_append, cons_append, value, ih cs (by simpa using hlen), value,
        prod_cons, Nat.mul_add, Nat.mul_assoc, Nat.add_assoc]

/-! ## Dot products -/

/-- `Σ cₖ * sₖ` over the common prefix. -/
def dot {R : Type*} [NonUnitalNonAssocSemiring R] (cs ss : List R) : R :=
  (List.zipWith (· * ·) cs ss).sum

@[simp] theorem dot_cons {R : Type*} [NonUnitalNonAssocSemiring R] (c s : R) (cs ss : List R) :
    dot (c :: cs) (s :: ss) = c * s + dot cs ss := by
  simp [dot]

@[simp] theorem dot_nil_left {R : Type*} [NonUnitalNonAssocSemiring R] (ss : List R) :
    dot [] ss = 0 := by
  simp [dot]

theorem dot_append {R : Type*} [NonUnitalNonAssocSemiring R] (cs ss cs' ss' : List R) :
    cs.length = ss.length →
      dot (cs ++ cs') (ss ++ ss') = dot cs ss + dot cs' ss' := by
  intro h
  simp [dot, zipWith_append h]

theorem dot_map_mul_right (d : Nat) (cs : List Nat) :
    ∀ ws : List Nat, dot cs (ws.map (fun w => d * w)) = d * dot cs ws := by
  induction cs with
  | nil =>
    intro ws
    simp
  | cons c cs ih =>
    intro ws
    cases ws with
    | nil => simp [dot]
    | cons w ws =>
      simp only [map_cons, dot_cons, ih]
      rw [Nat.mul_add, Nat.mul_left_comm]

theorem value_eq_dot (ds : List Nat) : ∀ cs : List Nat, value ds cs = dot cs (weights ds) := by
  induction ds with
  | nil =>
    intro cs
    cases cs with
    | nil => rfl
    | cons c cs => simp [value, weights, dot]
  | cons d ds ih =>
    intro cs
    cases cs with
    | nil => rfl
    | cons c cs =>
      rw [value, weights, dot_cons, dot_map_mul_right, ih, Nat.mul_one]

end MixedRadix
