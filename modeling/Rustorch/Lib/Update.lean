import Mathlib.Algebra.BigOperators.Ring.Finset
import Rustorch.Lib.Accumulate
import Rustorch.Lib.Outcome

/-!
# Folding values into cells

`foldAt op` folds values into the cells they are addressed to.  A loop that checks each of its
values before it folds it in succeeds if all checks do, and then folds in all values; otherwise it
fails in the way of the first check that fails.

Adding values into cells and reading cells are adjoint (`sum_addressed`).
-/

namespace Update

open List Outcome

section Fold

variable {α : Type}

/-- `for (j, v) in ps { out[j] = op(out[j], v) }`. -/
def foldAt (op : α → α → α) : List (Nat × α) → List α → Option (List α)
  | [], out => some out
  | (j, v) :: ps, out =>
    match out[j]? with
    | some a => foldAt op ps (out.set j (op a v))
    | none => none

/-- The values addressed to one cell, in order. -/
def valuesAt (ps : List (Nat × α)) (j : Nat) : List α :=
  (ps.filter fun p => p.1 = j).map Prod.snd

variable {op : α → α → α}

theorem foldAt_spec (ps : List (Nat × α)) : ∀ out : List α, (∀ p ∈ ps, p.1 < out.length) →
      ∃ out', foldAt op ps out = some out' ∧ out'.length = out.length ∧
        ∀ j, out'[j]? = out[j]?.map fun a => (valuesAt ps j).foldl op a := by
  induction ps with
  | nil =>
    intro out _
    refine ⟨out, rfl, rfl, ?_⟩
    intro j
    simp [valuesAt]
  | cons p ps ih =>
    intro out hin
    obtain ⟨j, v⟩ := p
    have hj : j < out.length := hin (j, v) mem_cons_self
    obtain ⟨out', hout', hlen, hget⟩ := ih (out.set j (op out[j] v)) (by
      intro p hp
      rw [length_set]
      exact hin p (mem_cons_of_mem _ hp))
    refine ⟨out', ?_, by rw [hlen, length_set], ?_⟩
    · rw [foldAt, getElem?_eq_getElem hj]
      exact hout'
    · intro k
      rw [hget k]
      by_cases hjk : j = k
      · subst hjk
        simp [valuesAt, hj]
      · rw [getElem?_set_ne hjk]
        simp [valuesAt, hjk]

theorem foldl_add [AddCommMonoid α] (vs : List α) : ∀ a : α, vs.foldl (· + ·) a = a + vs.sum := by
  induction vs with
  | nil =>
    intro a
    simp
  | cons v vs ih =>
    intro a
    rw [foldl_cons, ih, sum_cons, add_assoc]

theorem sum_filter_range [AddCommMonoid α] (p : Nat → Prop) [DecidablePred p] (v : Nat → α)
    (n : Nat) :
    (((range n).filter p).map v).sum = ∑ i ∈ (Finset.range n).filter p, v i :=
  rfl

theorem valuesAt_map_range (cell : Nat → Nat) (v : Nat → α) (n j : Nat) :
    valuesAt ((range n).map fun i => (cell i, v i)) j =
      ((range n).filter fun i => cell i = j).map v := by
  rw [valuesAt, filter_map, map_map]
  rfl

theorem foldAt_replicate {cell : Nat → Nat} {v : Nat → α} {n m : Nat} (init : α) :
    (∀ i < n, cell i < m) →
      foldAt op ((range n).map fun i => (cell i, v i)) (replicate m init) =
        some ((range m).map fun j =>
          (((range n).filter fun i => cell i = j).map v).foldl op init) := by
  intro hcell
  obtain ⟨out, hfold, _, hget⟩ := @foldAt_spec α op
    ((range n).map fun i => (cell i, v i)) (replicate m init) (by
      intro p hp
      obtain ⟨i, hi, rfl⟩ := mem_map.1 hp
      rw [length_replicate]
      exact hcell i (mem_range.1 hi))
  rw [hfold]
  refine congrArg some (ext_getElem? ?_)
  intro j
  rw [hget, valuesAt_map_range, getElem?_map, getElem?_replicate]
  by_cases hj : j < m
  · rw [if_pos hj, getElem?_range hj]
    rfl
  · rw [if_neg hj, getElem?_eq_none (by simpa using hj)]
    rfl

end Fold

/-! ## Checks before the update -/

section Checked

variable {ε α β : Type}

/-- The loop of an in-place kernel: a check gives the address and the value, or fails. -/
def checkedLoop (op : α → α → α) (check : β → Outcome ε (Nat × α)) (xs : List β)
    (out : List α) : Outcome ε (List α) :=
  xs.foldlM (fun out x => do
    let p ← check x
    let a ← Outcome.expect out[p.1]?
    pure (out.set p.1 (op a p.2))) out

/-- The check together with the bounds check of the update. -/
def inRange (n : Nat) (check : β → Outcome ε (Nat × α)) (x : β) : Outcome ε (Nat × α) := do
  let p ← check x
  if p.1 < n then
    .ok p
  else
    .panic

theorem checkedLoop_eq {op : α → α → α} {check : β → Outcome ε (Nat × α)} (xs : List β) :
    ∀ out : List α, checkedLoop op check xs out = (do
      let ps ← xs.mapM (inRange out.length check)
      Outcome.expect (foldAt op ps out)) := by
  induction xs with
  | nil =>
    intro out
    rfl
  | cons x xs ih =>
    intro out
    rw [checkedLoop, foldlM_cons, mapM_cons, inRange]
    cases check x with
    | err e => rfl
    | panic => rfl
    | ok p =>
      obtain ⟨j, v⟩ := p
      simp only [ok_bind]
      by_cases hj : j < out.length
      · have hlen : (out.set j (op out[j] v)).length = out.length := length_set
        have hrest := ih (out.set j (op out[j] v))
        rw [hlen] at hrest
        rw [if_pos hj, getElem?_eq_getElem hj, expect_some, ok_bind, pure_eq, ok_bind]
        refine hrest.trans ?_
        cases xs.mapM (inRange out.length check) with
        | err e => rfl
        | panic => rfl
        | ok ps =>
          simp only [ok_bind, pure_eq, foldAt, getElem?_eq_getElem hj]
      · rw [if_neg hj, getElem?_eq_none (not_lt.1 hj)]
        rfl

end Checked

/-! ## Adding and reading are adjoint -/

/-- Values that are added into the cells they are addressed to, weighted there, are weighted by the
cells that the addresses read. -/
theorem sum_addressed {R : Type} [CommSemiring R] {m n : Nat} {cell : Nat → Nat} (g x : Nat → R) :
    (∀ i < n, cell i < m) →
      ∑ j ∈ Finset.range m, (∑ i ∈ (Finset.range n).filter (fun i => cell i = j), g i) * x j =
        ∑ i ∈ Finset.range n, g i * x (cell i) := by
  intro hcell
  have hmaps : ∀ i ∈ Finset.range n, cell i ∈ Finset.range m := by
    intro i hi
    exact Finset.mem_range.2 (hcell i (Finset.mem_range.1 hi))
  rw [← Finset.sum_fiberwise_of_maps_to hmaps fun i => g i * x (cell i)]
  refine Finset.sum_congr rfl ?_
  intro j _
  rw [Finset.sum_mul]
  refine Finset.sum_congr rfl ?_
  intro i hi
  rw [(Finset.mem_filter.1 hi).2]

end Update
