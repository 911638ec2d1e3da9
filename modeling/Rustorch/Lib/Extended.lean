import Mathlib.Algebra.BigOperators.Group.Finset.Basic
import Mathlib.Data.Finset.Lattice.Fold
import Mathlib.Tactic.Ring

/-!
# A field with `-∞` and NaN

The values of a floating-point kernel that masks with `-∞`, over an exact field: a finite value,
`-∞`, or NaN.  NaN absorbs.  `+∞` is not a value, so an operation that would give it gives NaN.
A masked score is an element of `WithBot F`; `ofScore` is the value that stands for it.
-/

inductive Extended (F : Type*)
  | fin (x : F)
  | negInf
  | nan
  deriving Repr, DecidableEq

namespace Extended

open List WithBot

variable {F : Type*}

/-! ## Arithmetic -/

section Arithmetic

def add [Add F] : Extended F → Extended F → Extended F
  | fin x, fin y => fin (x + y)
  | nan, _ => nan
  | _, nan => nan
  | _, _ => negInf

def mul [Mul F] [Zero F] [LT F] [DecidableLT F] : Extended F → Extended F → Extended F
  | fin x, fin y => fin (x * y)
  | negInf, fin y => if 0 < y then negInf else nan
  | fin x, negInf => if 0 < x then negInf else nan
  | _, _ => nan

/-- `+∞` is not a value. -/
def neg [Neg F] : Extended F → Extended F
  | fin x => fin (-x)
  | _ => nan

/-- Only `-∞` minus a finite value is `-∞`. -/
def sub [Sub F] : Extended F → Extended F → Extended F
  | fin x, fin y => fin (x - y)
  | negInf, fin _ => negInf
  | _, _ => nan

def div [Div F] [Zero F] [DecidableEq F] : Extended F → Extended F → Extended F
  | fin x, fin y => if y = 0 then nan else fin (x / y)
  | _, _ => nan

/-- The exponential of a finite value, and its limit at `-∞`. -/
def exp [Zero F] (e : F → F) : Extended F → Extended F
  | fin x => fin (e x)
  | negInf => fin 0
  | nan => nan

/-- The logarithm of a positive value, and its limit at 0. -/
def ln [Zero F] [LT F] [DecidableLT F] [DecidableEq F] (l : F → F) : Extended F → Extended F
  | fin x => if 0 < x then fin (l x) else if x = 0 then negInf else nan
  | _ => nan

/-- `<` on floats: no comparison with NaN holds. -/
def lt [LT F] [DecidableLT F] : Extended F → Extended F → Bool
  | fin x, fin y => x < y
  | negInf, fin _ => true
  | _, _ => false

/-- `==` on floats: NaN is not equal to itself. -/
def eq [DecidableEq F] : Extended F → Extended F → Bool
  | fin x, fin y => x = y
  | negInf, negInf => true
  | _, _ => false

def isFinite : Extended F → Bool
  | fin _ => true
  | _ => false

/-- The larger value; NaN is ignored where the other is a value. -/
def max [LT F] [DecidableLT F] : Extended F → Extended F → Extended F
  | nan, y => y
  | x, nan => x
  | x, y => if lt x y then y else x

instance [Add F] : Add (Extended F) := ⟨add⟩

instance [Mul F] [Zero F] [LT F] [DecidableLT F] : Mul (Extended F) := ⟨mul⟩

instance [Sub F] : Sub (Extended F) := ⟨sub⟩

instance [Neg F] : Neg (Extended F) := ⟨neg⟩

instance [Div F] [Zero F] [DecidableEq F] : Div (Extended F) := ⟨div⟩

@[simp] theorem fin_add [Add F] (x y : F) : fin x + fin y = fin (x + y) := rfl

@[simp] theorem nan_add [Add F] (y : Extended F) : nan + y = nan := by
  cases y <;> rfl

@[simp] theorem add_nan [Add F] (x : Extended F) : x + nan = nan := by
  cases x <;> rfl

@[simp] theorem fin_mul [Mul F] [Zero F] [LT F] [DecidableLT F] (x y : F) :
    fin x * fin y = fin (x * y) := rfl

@[simp] theorem nan_mul [Mul F] [Zero F] [LT F] [DecidableLT F] (y : Extended F) :
    nan * y = nan := by
  cases y <;> rfl

@[simp] theorem fin_sub [Sub F] (x y : F) : fin x - fin y = fin (x - y) := rfl

@[simp] theorem negInf_sub_fin [Sub F] (y : F) : negInf - fin y = negInf := rfl

@[simp] theorem sub_negInf [Sub F] (x : Extended F) : x - negInf = nan := by
  cases x <;> rfl

theorem fin_div [Div F] [Zero F] [DecidableEq F] {x y : F} (hy : y ≠ 0) :
    fin x / fin y = fin (x / y) :=
  if_neg hy

@[simp] theorem exp_fin [Zero F] (e : F → F) (x : F) : exp e (fin x) = fin (e x) := rfl

@[simp] theorem exp_negInf [Zero F] (e : F → F) : exp e (negInf : Extended F) = fin 0 := rfl

@[simp] theorem exp_nan [Zero F] (e : F → F) : exp e (nan : Extended F) = nan := rfl

@[simp] theorem lt_nan [LT F] [DecidableLT F] (x : Extended F) : lt x nan = false := by
  cases x <;> rfl

@[simp] theorem lt_self [Preorder F] [DecidableLT F] (x : Extended F) : lt x x = false := by
  cases x <;> simp [lt]

theorem lt_trans [Preorder F] [DecidableLT F] {x y z : Extended F} :
    lt x y = true → lt y z = true → lt x z = true := by
  intro hxy hyz
  cases z with
  | nan => cases y <;> cases hyz
  | negInf => cases y <;> cases hyz
  | fin z =>
    cases x with
    | nan => cases y <;> cases hxy
    | negInf => rfl
    | fin x =>
      cases y with
      | fin y => exact decide_eq_true ((of_decide_eq_true hxy).trans (of_decide_eq_true hyz))
      | negInf => cases hxy
      | nan => cases hxy

/-- What is greater than a value is greater than `-∞`. -/
theorem negInf_lt_of_lt [LT F] [DecidableLT F] {x y : Extended F} :
    lt x y = true → lt negInf y = true := by
  intro hxy
  cases y with
  | fin y => rfl
  | negInf => cases x <;> cases hxy
  | nan => cases x <;> cases hxy

@[simp] theorem isFinite_fin (x : F) : isFinite (fin x) = true := rfl

theorem exists_eq_fin {x : Extended F} : x.isFinite = true → ∃ a, x = fin a := by
  intro h
  cases x with
  | fin a => exact ⟨a, rfl⟩
  | negInf => cases h
  | nan => cases h

end Arithmetic

/-! ## Sums -/

section Sums

variable [AddCommMonoid F]

variable {x : Nat → Extended F}

/-- A left-to-right sum of finite values. -/
theorem foldl_add_fin {f : Nat → F} {n : Nat} (a : F) : (∀ i < n, x i = fin (f i)) →
      (range n).foldl (fun acc i => acc + x i) (fin a) = fin (a + ∑ i ∈ Finset.range n, f i) := by
  induction n with
  | zero => simp
  | succ n ih =>
    intro h
    rw [range_succ, foldl_append, ih (fun i hi => h i (Nat.lt_succ_of_lt hi)),
      foldl_cons, foldl_nil, h n (Nat.lt_succ_self n), fin_add,
      Finset.sum_range_succ, add_assoc]

theorem foldl_add_map_fin (xs : List F) :
    ∀ a : F, (xs.map fin).foldl (· + ·) (fin a) = fin (a + xs.sum) := by
  induction xs with
  | nil =>
    intro a
    rw [sum_nil, add_zero]
    rfl
  | cons x xs ih =>
    intro a
    rw [map_cons, foldl_cons, fin_add, ih, sum_cons, add_assoc]

theorem foldl_add_nan {n : Nat} {a : Extended F} :
    (∃ i < n, x i = nan) → (range n).foldl (fun acc i => acc + x i) a = nan := by
  induction n with
  | zero =>
    rintro ⟨i, hi, _⟩
    cases hi
  | succ n ih =>
    rintro ⟨i, hi, hx⟩
    rw [range_succ, foldl_append, foldl_cons, foldl_nil]
    by_cases hin : i < n
    · rw [ih ⟨i, hin, hx⟩, nan_add]
    · have heq : i = n := by omega
      rw [← heq, hx, add_nan]

end Sums

/-! ## Masked scores -/

section Scores

/-- The value of a score, `-∞` where it is masked. -/
def ofScore : WithBot F → Extended F
  | ⊥ => negInf
  | (x : F) => fin x

@[simp] theorem ofScore_bot : ofScore (⊥ : WithBot F) = negInf := rfl

@[simp] theorem ofScore_coe (x : F) : ofScore (x : WithBot F) = fin x := rfl

theorem ofScore_eq_negInf {s : WithBot F} : ofScore s = negInf ↔ s = ⊥ := by
  cases s using recBotCoe with
  | bot => simp
  | coe x => simp

variable [LinearOrder F]

@[simp] theorem lt_ofScore (s t : WithBot F) : lt (ofScore s) (ofScore t) = decide (s < t) := by
  cases s using recBotCoe with
  | bot =>
    cases t using recBotCoe with
    | bot => simp [lt]
    | coe y => simp [lt]
  | coe x =>
    cases t using recBotCoe with
    | bot => simp [lt]
    | coe y => simp [lt]

/-- The running maximum of a comparison loop. -/
theorem ite_lt_ofScore (s t : WithBot F) :
    (if lt (ofScore s) (ofScore t) then ofScore t else ofScore s) = ofScore (s ⊔ t) := by
  rw [lt_ofScore]
  by_cases hlt : s < t
  · rw [if_pos (decide_eq_true hlt), sup_eq_right.2 hlt.le]
  · rw [if_neg (by simpa using hlt), sup_eq_left.2 (not_lt.1 hlt)]

theorem max_ofScore (s t : WithBot F) : max (ofScore s) (ofScore t) = ofScore (s ⊔ t) := by
  rw [← ite_lt_ofScore]
  cases s using recBotCoe with
  | bot =>
    cases t using recBotCoe with
    | bot => rfl
    | coe y => rfl
  | coe x =>
    cases t using recBotCoe with
    | bot => rfl
    | coe y => rfl

theorem foldl_ite_ofScore (score : Nat → WithBot F) (n : Nat) (a : WithBot F) :
    (range n).foldl
        (fun m i => if lt m (ofScore (score i)) then ofScore (score i) else m) (ofScore a) =
      ofScore (a ⊔ (Finset.range n).sup score) := by
  induction n with
  | zero => simp
  | succ n ih =>
    rw [range_succ, foldl_append, ih, foldl_cons, foldl_nil, ite_lt_ofScore,
      Finset.range_add_one, Finset.sup_insert, sup_assoc, sup_comm (score n)]

theorem foldl_max_ofScore (score : Nat → WithBot F) (n : Nat) (a : WithBot F) :
    (range n).foldl (fun m i => max m (ofScore (score i))) (ofScore a) =
      ofScore (a ⊔ (Finset.range n).sup score) := by
  induction n with
  | zero => simp
  | succ n ih =>
    rw [range_succ, foldl_append, ih, foldl_cons, foldl_nil, max_ofScore,
      Finset.range_add_one, Finset.sup_insert, sup_assoc, sup_comm (score n)]

theorem foldl_max_map_ofScore (xs : List (WithBot F)) :
    ∀ a : WithBot F, (xs.map ofScore).foldl max (ofScore a) =
      ofScore (a ⊔ (xs : Multiset (WithBot F)).sup) := by
  induction xs with
  | nil =>
    intro a
    rw [Multiset.coe_nil, Multiset.sup_zero, sup_bot_eq]
    rfl
  | cons x xs ih =>
    intro a
    rw [map_cons, foldl_cons, max_ofScore, ih, ← Multiset.cons_coe, Multiset.sup_cons, sup_assoc]

/-- The maximum of finite values is one of them, also where values are compared by a rank. -/
theorem exists_foldl_max_fin {D : Type*} [LT D] [DecidableLT D] (rank : D → F)
    (hrank : ∀ x y, x < y ↔ rank x < rank y) (a : Nat → D) (n : Nat) :
    ∃ m, (range (n + 1)).foldl (fun acc i => max acc (fin (a i))) negInf = fin m ∧
      (Finset.range (n + 1)).sup (fun i => (rank (a i) : WithBot F)) = rank m := by
  induction n with
  | zero => exact ⟨a 0, rfl, by simp⟩
  | succ n ih =>
    obtain ⟨m, hm, hsup⟩ := ih
    rw [range_succ, foldl_append, hm, foldl_cons, foldl_nil,
      Finset.range_add_one, Finset.sup_insert, hsup]
    by_cases hlt : m < a (n + 1)
    · refine ⟨a (n + 1), if_pos (decide_eq_true hlt), ?_⟩
      exact sup_eq_left.2 (coe_le_coe.2 ((hrank _ _).1 hlt).le)
    · refine ⟨m, if_neg (by simpa [lt] using hlt), ?_⟩
      exact sup_eq_right.2 (coe_le_coe.2 (not_lt.1 fun h => hlt ((hrank _ _).2 h)))

end Scores

end Extended
