import Mathlib.Algebra.BigOperators.Intervals
import Mathlib.Data.List.GetD
import Rustorch.Lib.Rows
import Rustorch.Lib.Traversal

/-!
# Accumulating loops

Three loops over flat buffers: `sumLoop` adds the terms of a range to an accumulator, `addAt`
adds values into the cells they are addressed to, and `grid` writes a matrix row by row.  Each is
partial; `none` is an index out of bounds.
-/

namespace Accumulate

open List

section Sum

variable {M : Type} [AddCommMonoid M]

/-- `for i in 0..n { acc += term(i) }`. -/
def sumLoop (n : Nat) (term : Nat → Option M) (acc : M) : Option M :=
  (range n).foldlM (fun acc i => (term i).map (acc + ·)) acc

theorem sumLoop_eq {n : Nat} {term : Nat → Option M} {f : Nat → M} (acc : M) :
    (∀ i < n, term i = some (f i)) → sumLoop n term acc = some (acc + ∑ i ∈ Finset.range n, f i) := by
  induction n with
  | zero =>
    intro _
    simp [sumLoop]
  | succ n ih =>
    intro h
    have hprev := ih (fun i hi => h i (Nat.lt_succ_of_lt hi))
    rw [sumLoop] at hprev
    rw [sumLoop, range_succ, foldlM_append, hprev]
    simp [h n (Nat.lt_succ_self n), Finset.sum_range_succ, add_assoc]

/-! ## Adding into cells -/

/-- `for (j, v) in ps { out[j] += v }`. -/
def addAt : List (Nat × M) → List M → Option (List M)
  | [], out => some out
  | (j, v) :: ps, out =>
    match out[j]? with
    | some a => addAt ps (out.set j (a + v))
    | none => none

theorem addAt_eq (ps : List (Nat × M)) :
    ∀ out : List M, (∀ p ∈ ps, p.1 < out.length) →
      addAt ps out = some ((range out.length).map
        (fun j => out.getD j 0 + ((ps.filter (fun p => p.1 = j)).map Prod.snd).sum)) := by
  induction ps with
  | nil =>
    intro out _
    have hself : (range out.length).map (fun j => out.getD j 0) = out := by
      apply ext_getElem
      · simp
      · intro i h _
        simp only [length_map, length_range] at h
        simp [h]
    simpa [addAt] using hself.symm
  | cons p ps ih =>
    intro out hin
    obtain ⟨j, v⟩ := p
    have hj : j < out.length := hin (j, v) mem_cons_self
    have hrest : ∀ p ∈ ps, p.1 < (out.set j (out[j] + v)).length := by
      intro p hp
      rw [length_set]
      exact hin p (mem_cons_of_mem _ hp)
    rw [addAt, getElem?_eq_getElem hj]
    simp only [ih _ hrest, length_set, Option.some.injEq]
    refine map_congr_left ?_
    intro i _
    by_cases hij : j = i
    · subst hij
      simp [hj, add_assoc]
    · simp [hij]

end Sum

/-! ## Filling a matrix -/

variable {α : Type}

/-- `for i in 0..m { for j in 0..n { out[i * n + j] = cell(i, j) } }`. -/
def grid (m n : Nat) (cell : Nat → Nat → Option α) : Option (List α) :=
  ((range m).mapM fun i => (range n).mapM fun j => cell i j).map flatten

theorem flatten_map_range (f : Nat → α) (m n : Nat) :
    ((range m).map (fun i => (range n).map (fun j => f (i * n + j)))).flatten =
      (range (m * n)).map f := by
  induction m with
  | zero => simp
  | succ m ih =>
    have hrow : (range n).map (fun j => f (m * n + j)) = ((range n).map (m * n + ·)).map f := by
      rw [map_map]
      rfl
    rw [range_succ, map_append, flatten_append, ih, Nat.succ_mul, range_add, map_append, ← hrow]
    simp

theorem flatten_rows (f : Nat → Nat → α) (m n : Nat) :
    ((range m).map (fun i => (range n).map (f i))).flatten =
      (range (m * n)).map (fun l => f (l / n) (l % n)) := by
  rw [← flatten_map_range (fun l => f (l / n) (l % n))]
  refine congrArg flatten (map_congr_left ?_)
  intro i _
  refine map_congr_left ?_
  intro j hj
  have hj := mem_range.1 hj
  simp only [Rows.cell_div hj, Rows.cell_mod hj]

theorem grid_eq {m n : Nat} {cell : Nat → Nat → Option α} {f : Nat → Nat → α} :
    (∀ i < m, ∀ j < n, cell i j = some (f i j)) →
      grid m n cell = some ((range (m * n)).map (fun l => f (l / n) (l % n))) := by
  intro h
  have hrows : (range m).mapM (fun i => (range n).mapM fun j => cell i j) =
      some ((range m).map (fun i => (range n).map (f i))) := by
    refine Traversal.mapM_eq_map ?_
    intro i hi
    refine Traversal.mapM_eq_map ?_
    intro j hj
    exact h i (mem_range.1 hi) j (mem_range.1 hj)
  rw [grid, hrows, Option.map_some, flatten_rows]

end Accumulate
