import Mathlib.LinearAlgebra.Matrix.NonsingularInverse
import Rustorch.Lib.Triangular

/-!
# The linear algebra of the Gaussian process

`cholesky` and the two triangular solves of `bayes.rs`, over an exact field with a square root.
A matrix `vec![vec![..; n]; n]` is its size and its entries under their indices; a vector is its
entries.  `cholesky` succeeds exactly on positive definite matrices (`cholesky_isSome_iff`), and
`cholSolve` then solves (`mulVec_eq_iff`).
-/

namespace Rustorch
namespace Sweep

open Triangular List Finset Function
open Finset (range)

/-! ## The code -/

section Code

variable {F : Type} [Field F]

structure Square (F : Type) where
  len : Nat
  entry : Nat → Nat → F

namespace Square

/-- `vec![vec![0.0; n]; n]` -/
def zeros (n : Nat) : Square F where
  len := n
  entry := fun _ _ => 0

/-- `l[i][j] = v` -/
def set {F : Type} (l : Square F) (i j : Nat) (v : F) : Square F :=
  { l with entry := update l.entry i (update (l.entry i) j v) }

end Square

/-- The body of the loop over `j`. -/
def choleskyEntry [LinearOrder F] (sqrt : F → F) (a : Square F) (i : Nat) (l : Square F) (j : Nat) :
    Option (Square F) :=
  let s := (List.range j).foldl (fun s k => s - l.entry i k * l.entry j k) (a.entry i j)
  -- a pivot that is not positive ends the factorisation
  if i = j then
    if s ≤ 0 then none else some (l.set i j (sqrt s))
  else
    some (l.set i j (s / l.entry j j))

def cholesky [LinearOrder F] (sqrt : F → F) (a : Square F) : Option (Square F) :=
  (List.range a.len).foldlM
    (fun l i => (List.range (i + 1)).foldlM (choleskyEntry sqrt a i) l)
    (Square.zeros a.len)

/-- `L y = b`, forwards. -/
def cholSolveLower (l : Square F) (b : Nat → F) : Nat → F :=
  (List.range l.len).foldl
    (fun y i =>
      let s := (List.range i).foldl (fun s k => s - l.entry i k * y k) (b i)
      update y i (s / l.entry i i))
    0

/-- `L^T x = y`, backwards. -/
def cholSolveUpper (l : Square F) (y : Nat → F) : Nat → F :=
  (List.range l.len).reverse.foldl
    (fun x i =>
      let s := (range' (i + 1) (l.len - (i + 1))).foldl
        (fun s k => s - l.entry k i * x k) (y i)
      update x i (s / l.entry i i))
    0

def cholSolve (l : Square F) (b : Nat → F) : Nat → F :=
  let y := cholSolveLower l b
  cholSolveUpper l y

end Code

/-! ## Loops -/

section Loops

variable {F : Type} [Field F]

theorem foldl_sub (f : Nat → F) (ks : List Nat) :
    ∀ c, ks.foldl (fun s k => s - f k) c = c - (ks.map f).sum := by
  induction ks with
  | nil => simp
  | cons k ks ih =>
    intro c
    rw [foldl_cons, ih, List.map_cons, List.sum_cons, sub_sub]

theorem foldl_sub_range (f : Nat → F) (n : Nat) (c : F) :
    (List.range n).foldl (fun s k => s - f k) c = c - ∑ k ∈ range n, f k := by
  rw [foldl_sub, ← sum_toFinset f nodup_range, toFinset_range]

/-- The rule of a counting loop that may stop early. -/
theorem foldlM_range_post {σ : Type} {n : Nat} {body : σ → Nat → Option σ} (P : Nat → σ → Prop)
    (Stopped : Prop) {s : σ} (hs : P 0 s)
    (hstep : ∀ i < n, ∀ s, P i s → (body s i).elim Stopped (P (i + 1))) :
    ((List.range n).foldlM body s).elim Stopped (P n) := by
  induction n with
  | zero => exact hs
  | succ n ih =>
    have hprev := ih fun i hi => hstep i (Nat.lt_succ_of_lt hi)
    rw [range_succ, foldlM_append]
    cases hrun : (List.range n).foldlM body s with
    | none =>
      rw [hrun] at hprev
      exact hprev
    | some s' =>
      rw [hrun] at hprev
      have hlast := hstep n (Nat.lt_succ_self n) s' hprev
      simpa using hlast

end Loops

/-! ## The factor -/

section Factor

variable {F : Type} [Field F] [LinearOrder F] {sqrt : F → F} {a l : Square F}

/-- The square roots that the factorisation takes. -/
def SquareRoots (sqrt : F → F) : Prop :=
  ∀ s, 0 ≤ s → 0 ≤ sqrt s ∧ sqrt s * sqrt s = s

/-- The entries before column `c` of row `r`, on or under the diagonal. -/
def Before (r c i j : Nat) : Prop :=
  j ≤ i ∧ (i < r ∨ i = r ∧ j < c)

/-- What was written agrees with `a`, and the rest is zero. -/
structure Partial (a l : Square F) (r c : Nat) : Prop where
  len : l.len = a.len
  product : ∀ i j, Before r c i j →
    ∑ k ∈ range (j + 1), l.entry i k * l.entry j k = a.entry i j
  diagonal : ∀ i, Before r c i i → 0 < l.entry i i
  rest : ∀ i j, ¬ Before r c i j → l.entry i j = 0

variable {r c : Nat}

theorem Partial.lower (h : Partial a l r c) : Lower l.entry :=
  fun i j hij => h.rest i j fun hbefore => absurd hbefore.1 (not_le.2 hij)

omit [Field F] [LinearOrder F] in
theorem entry_set {i j : Nat} {v : F} :
    (l.set r c v).entry i j = if i = r ∧ j = c then v else l.entry i j := by
  unfold Square.set
  by_cases hi : i = r
  · subst hi
    by_cases hj : j = c
    · subst hj
      simp
    · simp [hj]
  · simp [hi]

theorem Partial.set {v : F} (h : Partial a l r c) (hc : c ≤ r)
    (hproduct : ∑ k ∈ range c, l.entry r k * l.entry c k +
      v * (if r = c then v else l.entry c c) = a.entry r c) (hdiag : r = c → 0 < v) :
    Partial a (l.set r c v) r (c + 1) := by
  have hsplit : ∀ i j, Before r (c + 1) i j ↔ Before r c i j ∨ (i = r ∧ j = c) := by
    intro i j
    unfold Before
    omega
  have hold : ∀ i k, i ≠ r ∨ k ≠ c → (l.set r c v).entry i k = l.entry i k := by
    intro i k hne
    rw [entry_set, if_neg (by omega)]
  constructor
  · exact h.len
  -- the sums of the earlier entries do not read the new one
  · intro i j hij
    rcases (hsplit i j).1 hij with hbefore | ⟨rfl, rfl⟩
    · rw [← h.product i j hbefore]
      refine sum_congr rfl fun k hk => ?_
      have hk := Finset.mem_range.1 hk
      unfold Before at hbefore
      rw [hold i k (by omega), hold j k (by omega)]
    · rw [Finset.sum_range_succ, entry_set, entry_set, if_pos ⟨rfl, rfl⟩, ← hproduct]
      congr 1
      · refine sum_congr rfl fun k hk => ?_
        have hk := Finset.mem_range.1 hk
        rw [hold i k (by omega), hold j k (by omega)]
      · by_cases hij : i = j
        · simp [hij]
        · rw [if_neg (by omega), if_neg hij]
  · intro i hi
    rcases (hsplit i i).1 hi with hbefore | ⟨rfl, hic⟩
    · have hcase := hbefore.2
      rw [hold i i (by omega)]
      exact h.diagonal i hbefore
    · rw [entry_set, if_pos ⟨rfl, hic⟩]
      exact hdiag hic
  · intro i j hij
    rw [hsplit, not_or] at hij
    rw [hold i j (by omega)]
    exact h.rest i j hij.1

/-- The row before which the factorisation stopped has a pivot that is not positive. -/
def Fails (a : Square F) : Prop :=
  ∃ r < a.len, ∃ l, Partial a l r r ∧
    a.entry r r - ∑ k ∈ range r, l.entry r k * l.entry r k ≤ 0

theorem choleskyEntry_spec (hsqrt : SquareRoots sqrt) (hr : r < a.len) (hc : c ≤ r)
    (h : Partial a l r c) :
    (choleskyEntry sqrt a r l c).elim (Fails a) fun l' => Partial a l' r (c + 1) := by
  unfold choleskyEntry
  simp only [foldl_sub_range]
  by_cases hrc : r = c
  · subst hrc
    rw [if_pos rfl]
    split
    · next hs => exact ⟨r, hr, l, h, hs⟩
    -- on the diagonal, the root makes up what is missing in the product
    · next hs =>
        rw [not_le] at hs
        obtain ⟨hnonneg, hroot⟩ := hsqrt _ hs.le
        refine h.set le_rfl ?_ ?_
        · rw [if_pos rfl, hroot, add_sub_cancel]
        · intro _
          refine lt_of_le_of_ne hnonneg fun hzero => hs.ne' ?_
          rw [← hroot, ← hzero, mul_zero]
  · rw [if_neg hrc]
    -- under the diagonal, the pivot of the column is positive, so the division is exact
    have hpivot := h.diagonal c ⟨le_rfl, by omega⟩
    refine h.set hc ?_ fun heq => absurd heq hrc
    rw [if_neg hrc, div_mul_cancel₀ _ hpivot.ne', add_sub_cancel]

theorem cholesky_spec (hsqrt : SquareRoots sqrt) (a : Square F) :
    (cholesky sqrt a).elim (Fails a) fun l => Partial a l a.len 0 := by
  refine foldlM_range_post (fun r l => Partial a l r 0) (Fails a) ?_ ?_
  · exact
      { len := rfl
        product := fun i j h => by unfold Before at h; omega
        diagonal := fun i h => by unfold Before at h; omega
        rest := fun _ _ _ => rfl }
  · intro r hr l hl
    have hrow := foldlM_range_post (fun c l => Partial a l r c) (Fails a) hl
      (fun c hc l hl => choleskyEntry_spec hsqrt hr (Nat.le_of_lt_succ hc) hl)
    cases hrun : (List.range (r + 1)).foldlM (choleskyEntry sqrt a r) l with
    | none =>
      rw [hrun] at hrow
      exact hrow
    | some l' =>
      rw [hrun] at hrow
      -- A finished row is the start of the next one.
      have hnext : ∀ i j, Before (r + 1) 0 i j ↔ Before r (r + 1) i j := by
        intro i j
        unfold Before
        omega
      exact
        { len := hrow.len
          product := fun i j h => hrow.product i j ((hnext i j).1 h)
          diagonal := fun i h => hrow.diagonal i ((hnext i i).1 h)
          rest := fun i j h => hrow.rest i j fun h' => h ((hnext i j).2 h') }

end Factor

/-! ## Substitution -/

section Substitution

variable {F : Type} [Field F] {l : Square F}

variable {σ : Type} {f : σ → Nat → σ}

theorem foldl_range_rule {n : Nat} (P : Nat → σ → Prop) {s : σ} (hs : P 0 s)
    (hstep : ∀ i < n, ∀ s, P i s → P (i + 1) (f s i)) : P n ((List.range n).foldl f s) := by
  induction n with
  | zero => exact hs
  | succ n ih =>
    rw [range_succ, foldl_append]
    exact hstep n (Nat.lt_succ_self n) _ (ih fun i hi => hstep i (Nat.lt_succ_of_lt hi))

theorem foldl_reverse_range_rule {n : Nat} (P : Nat → σ → Prop) {s : σ} (hs : P n s)
    (hstep : ∀ i < n, ∀ s, P (i + 1) s → P i (f s i)) : P 0 ((List.range n).reverse.foldl f s) := by
  induction n generalizing s with
  | zero => exact hs
  | succ n ih =>
    rw [range_succ, reverse_append, reverse_singleton, singleton_append, foldl_cons]
    exact ih (hstep n (Nat.lt_succ_self n) s hs) fun i hi => hstep i (Nat.lt_succ_of_lt hi)

/-- Each step settles its own equation and none of the ones before. -/
theorem cholSolveLower_spec (hdiag : ∀ i < l.len, l.entry i i ≠ 0) (b : Nat → F) :
    ∀ i < l.len,
      ∑ k ∈ range (i + 1), l.entry i k * cholSolveLower l b k = b i := by
  refine foldl_range_rule (fun n (y : Nat → F) => ∀ i < n,
    ∑ k ∈ range (i + 1), l.entry i k * y k = b i) (fun i hi => absurd hi (Nat.not_lt_zero i)) ?_
  intro n hn y hy i hi
  simp only [foldl_sub_range]
  have hold : ∀ m, m ≤ n → ∀ v, ∑ k ∈ range m, l.entry i k * update y n v k =
      ∑ k ∈ range m, l.entry i k * y k := by
    intro m hm v
    refine sum_congr rfl fun k hk => ?_
    rw [update_of_ne ((Finset.mem_range.1 hk).trans_le hm).ne]
  rcases Nat.lt_succ_iff_lt_or_eq.1 hi with hlt | rfl
  · rw [hold (i + 1) hlt]
    exact hy i hlt
  · rw [Finset.sum_range_succ, hold i le_rfl, update_self,
      mul_div_cancel₀ _ (hdiag i hn), add_sub_cancel]

theorem cholSolveUpper_spec (hdiag : ∀ i < l.len, l.entry i i ≠ 0) (y : Nat → F) :
    ∀ i < l.len,
      ∑ k ∈ Finset.Ico i l.len, l.entry k i * cholSolveUpper l y k = y i := by
  have hall : ∀ i, 0 ≤ i → i < l.len →
      ∑ k ∈ Ico i l.len, l.entry k i * cholSolveUpper l y k = y i := by
    refine foldl_reverse_range_rule (fun n (x : Nat → F) => ∀ i, n ≤ i → i < l.len →
      ∑ k ∈ Ico i l.len, l.entry k i * x k = y i)
      (fun i hi hlt => absurd hlt (not_lt.2 hi)) ?_
    intro n hn x hx i hi hlt
    rw [foldl_sub]
    have hold : ∀ m, n < m → ∀ v, ∑ k ∈ Ico m l.len, l.entry k i * update x n v k =
        ∑ k ∈ Ico m l.len, l.entry k i * x k := by
      intro m hm v
      refine sum_congr rfl fun k hk => ?_
      rw [update_of_ne (hm.trans_le (mem_Ico.1 hk).1).ne']
    rcases Nat.lt_or_eq_of_le hi with hgt | rfl
    · rw [hold i hgt]
      exact hx i hgt hlt
    · have hsum : ((range' (n + 1) (l.len - (n + 1))).map fun k => l.entry k n * x k).sum =
          ∑ k ∈ Ico (n + 1) l.len, l.entry k n * x k := rfl
      rw [hsum, sum_eq_sum_Ico_succ_bot hn, hold (n + 1) (Nat.lt_succ_self n),
        update_self, mul_div_cancel₀ _ (hdiag n hn), sub_add_cancel]
  exact fun i => hall i (Nat.zero_le i)

end Substitution

/-! ## Matrices -/

section Matrices

variable {F : Type} [Field F] [LinearOrder F] {sqrt : F → F}
  {a l : Square F}

namespace Square

def toMatrix {F : Type} (a : Square F) (n : Nat) : Matrix (Fin n) (Fin n) F :=
  fun i j => a.entry i j

def Symmetric {F : Type} (a : Square F) : Prop :=
  ∀ i < a.len, ∀ j < a.len, a.entry i j = a.entry j i

def PositiveDefinite (a : Square F) : Prop :=
  ∀ x : Fin a.len → F, x ≠ 0 → 0 < dotProduct x ((a.toMatrix a.len).mulVec x)

end Square

/-- The first entries of a vector. -/
def column {F : Type} (n : Nat) (x : Nat → F) : Fin n → F :=
  fun i => x i

omit [LinearOrder F] in
theorem form_eq (n : Nat) (x : Nat → F) : form n a.entry x =
    dotProduct (column n x) ((a.toMatrix n).mulVec (column n x)) := by
  unfold form column dotProduct Matrix.mulVec dotProduct
  rw [sum_range]
  refine sum_congr rfl fun i _ => ?_
  rw [sum_range, mul_sum]
  exact sum_congr rfl fun j _ => mul_assoc _ _ _

theorem positiveDefinite_iff : a.PositiveDefinite ↔ PosDef a.len a.entry := by
  constructor
  · rintro h x ⟨i, hi, hx⟩
    rw [form_eq]
    exact h _ fun hzero => hx (congrFun hzero ⟨i, hi⟩)
  · intro h x hx
    obtain ⟨i, hi⟩ := ne_iff.1 hx
    -- a vector of the matrix's size, continued by zeros
    set y : Nat → F := fun k => if h : k < a.len then x ⟨k, h⟩ else 0 with hy
    have hyx : column a.len y = x := by
      funext k
      simp [column, hy]
    have hpos := h y ⟨i, i.isLt, by rw [hy]; simpa using hi⟩
    rwa [form_eq, hyx] at hpos

/-- What a factor of `a` is. -/
structure Factors (l a : Square F) : Prop where
  len : l.len = a.len
  lower : ∀ i j, i < j → l.entry i j = 0
  diagonal : ∀ i < a.len, 0 < l.entry i i
  product : l.toMatrix a.len * (l.toMatrix a.len).transpose = a.toMatrix a.len

theorem Partial.gram_eq (hsymm : a.Symmetric) {r c : Nat} (hr : r ≤ a.len) (h : Partial a l r c)
    {i j : Nat} (hi : i < r) (hj : j < r) : gram r l.entry i j = a.entry i j := by
  rcases le_total j i with hji | hij
  · rw [gram_of_lower h.lower hj]
    exact h.product i j ⟨hji, .inl hi⟩
  · rw [gram_comm, gram_of_lower h.lower hi, hsymm i (hi.trans_le hr) j (hj.trans_le hr)]
    exact h.product j i ⟨hij, .inl hj⟩

theorem Partial.factors (hsymm : a.Symmetric) (h : Partial a l a.len 0) : Factors l a :=
  { len := h.len
    lower := h.lower
    diagonal := fun i hi => h.diagonal i ⟨le_rfl, .inl hi⟩
    product := by
      funext i j
      have hgram := h.gram_eq hsymm le_rfl i.isLt j.isLt
      rw [gram, sum_range] at hgram
      exact hgram }

theorem factors_of_cholesky (hsqrt : SquareRoots sqrt) (hsymm : a.Symmetric)
    (h : cholesky sqrt a = some l) : Factors l a := by
  have hspec := cholesky_spec hsqrt a
  rw [h] at hspec
  exact Partial.factors hsymm hspec

/-! ## Solutions -/

variable (h : Factors l a)

include h

theorem mulVec_lower (b : Nat → F) :
    (l.toMatrix a.len).mulVec (column a.len (cholSolveLower l b)) = column a.len b := by
  funext i
  have hi : (i : Nat) < l.len := i.isLt.trans_eq h.len.symm
  have hspec := cholSolveLower_spec (fun i hi => (h.diagonal i (hi.trans_eq h.len)).ne') b i hi
  change ∑ k : Fin a.len, l.entry i k * cholSolveLower l b k = b i
  -- the row is zero right of the diagonal, so the partial sum is the whole product
  rw [← hspec]
  rw [← Finset.sum_range fun k => l.entry i k * cholSolveLower l b k,
    ← Finset.sum_subset (Finset.range_subset_range.2 i.isLt)]
  intro k _ hk
  rw [h.lower i k (not_le.1 fun hle => hk (Finset.mem_range.2 (Nat.lt_succ_of_le hle))), zero_mul]

theorem mulVec_upper (y : Nat → F) :
    (l.toMatrix a.len).transpose.mulVec (column a.len (cholSolveUpper l y)) = column a.len y := by
  funext i
  have hi : (i : Nat) < l.len := i.isLt.trans_eq h.len.symm
  have hspec := cholSolveUpper_spec (fun i hi => (h.diagonal i (hi.trans_eq h.len)).ne') y i hi
  change ∑ k : Fin a.len, l.entry k i * cholSolveUpper l y k = y i
  -- the column is zero above the diagonal
  rw [← hspec]
  rw [← sum_range fun k => l.entry k i * cholSolveUpper l y k, h.len, range_eq_Ico,
    ← sum_subset (Ico_subset_Ico_left (Nat.zero_le i))]
  intro k hk hki
  rw [mem_Ico] at hk hki
  rw [h.lower k i (by omega), zero_mul]

theorem mulVec_cholSolve (b : Nat → F) :
    (a.toMatrix a.len).mulVec (column a.len (cholSolve l b)) = column a.len b := by
  rw [← h.product, ← Matrix.mulVec_mulVec]
  have hupper := mulVec_upper h (cholSolveLower l b)
  change (l.toMatrix a.len).mulVec ((l.toMatrix a.len).transpose.mulVec
    (column a.len (cholSolveUpper l (cholSolveLower l b)))) = _
  rw [hupper, mulVec_lower h]

omit h in
theorem Square.PositiveDefinite.mulVec_injective (h : a.PositiveDefinite) :
    Injective (a.toMatrix a.len).mulVec := by
  intro x y hxy
  by_contra hne
  have hpos := h (x - y) (sub_ne_zero.2 hne)
  rw [Matrix.mulVec_sub, hxy, sub_self, dotProduct_zero] at hpos
  exact lt_irrefl _ hpos

variable [IsStrictOrderedRing F]

omit h in
theorem Fails.not_positiveDefinite (hsymm : a.Symmetric) (h : Fails a) : ¬ a.PositiveDefinite := by
  obtain ⟨r, hr, l, hl, hs⟩ := h
  rw [positiveDefinite_iff]
  refine not_posDef_of_remainder hl.lower hr
    (fun i hi => (hl.diagonal i ⟨le_rfl, .inl hi⟩).ne') ?_ hs
  -- the rows above and the part of row `r` that was written agree with `a`
  have hrow : ∀ j < r, gram r l.entry r j = a.entry r j := by
    intro j hj
    rw [gram_of_lower hl.lower hj]
    exact hl.product r j ⟨hj.le, .inr ⟨rfl, hj⟩⟩
  intro i hi j hj
  rcases Nat.lt_or_eq_of_le hi with hir | rfl
  · rw [if_neg (fun h => hir.ne h.1), add_zero]
    rcases Nat.lt_or_eq_of_le hj with hjr | rfl
    · exact (hl.gram_eq hsymm hr.le hir hjr).symm
    · rw [gram_comm, hrow i hir, hsymm i (hir.trans hr) j hr]
  · rcases Nat.lt_or_eq_of_le hj with hjr | rfl
    · rw [if_neg (fun h => hjr.ne h.2), add_zero, hrow j hjr]
    · rw [if_pos ⟨rfl, rfl⟩, gram, add_sub_cancel]

theorem Factors.positiveDefinite : a.PositiveDefinite := by
  rw [positiveDefinite_iff]
  refine (PosDef.congr ?_).1 (posDef_gram h.lower fun i hi => (h.diagonal i hi).ne')
  intro i hi j hj
  rw [gram, sum_range]
  have hentry := congrFun (congrFun h.product ⟨i, hi⟩) ⟨j, hj⟩
  rwa [Matrix.mul_apply] at hentry

omit h in
/-- The factorisation succeeds exactly on positive definite matrices, and what it returns is a
factor. -/
theorem cholesky_isSome_iff (hsqrt : SquareRoots sqrt) (hsymm : a.Symmetric) :
    (∃ l, cholesky sqrt a = some l) ↔ a.PositiveDefinite := by
  have hspec := cholesky_spec hsqrt a
  cases hrun : cholesky sqrt a with
  | none =>
    rw [hrun] at hspec
    exact iff_of_false (by simp) (Fails.not_positiveDefinite hsymm hspec)
  | some l =>
    rw [hrun] at hspec
    exact iff_of_true ⟨l, rfl⟩ (Partial.factors hsymm hspec).positiveDefinite

/-- `cholSolve` returns the one solution. -/
theorem mulVec_eq_iff (b : Nat → F) (x : Fin a.len → F) :
    (a.toMatrix a.len).mulVec x = column a.len b ↔ x = column a.len (cholSolve l b) := by
  constructor
  · intro hx
    exact h.positiveDefinite.mulVec_injective (hx.trans (mulVec_cholSolve h b).symm)
  · intro hx
    rw [hx, mulVec_cholSolve h]

theorem inv_mulVec (b : Nat → F) :
    ((a.toMatrix a.len)⁻¹).mulVec (column a.len b) = column a.len (cholSolve l b) := by
  rw [← mulVec_eq_iff h]
  have hunit := Matrix.mulVec_injective_iff_isUnit.1 h.positiveDefinite.mulVec_injective
  rw [Matrix.mulVec_mulVec, Matrix.mul_nonsing_inv _ ((Matrix.isUnit_iff_isUnit_det _).1 hunit),
    Matrix.one_mulVec]

/-- The squares of the forward solution are the form of the inverse. -/
theorem sum_sq_lower (b : Nat → F) :
    ∑ i : Fin a.len, cholSolveLower l b i * cholSolveLower l b i =
      dotProduct (column a.len b) (((a.toMatrix a.len)⁻¹).mulVec (column a.len b)) := by
  have hupper := mulVec_upper h (cholSolveLower l b)
  calc
    _ = dotProduct (column a.len (cholSolveLower l b)) (column a.len (cholSolveLower l b)) := rfl
    _ = dotProduct (column a.len (cholSolveLower l b))
          ((l.toMatrix a.len).transpose.mulVec (column a.len (cholSolve l b))) := by
      rw [← hupper]
      rfl
    _ = dotProduct ((l.toMatrix a.len).mulVec (column a.len (cholSolveLower l b)))
          (column a.len (cholSolve l b)) := by
      rw [Matrix.dotProduct_mulVec, Matrix.vecMul_transpose]
    _ = _ := by rw [mulVec_lower h, inv_mulVec h]

end Matrices

end Sweep
end Rustorch
