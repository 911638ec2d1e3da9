import Mathlib.Data.List.Basic

/-!
# Updates of pairs of cells

A loop that reads two cells of a buffer and overwrites them, again and again.  When no cell
belongs to two pairs, every pair is updated from what the buffer held at the start
(`foldlM_updatePair`).
-/

namespace PairUpdates

open List

variable {α ι : Type}

/-- Replace two cells by a function of both; `none` if one of them is missing. -/
def updatePair (i j : Nat) (f : α → α → α × α) (buf : List α) : Option (List α) := do
  let x ← buf[i]?
  let y ← buf[j]?
  return (buf.set i (f x y).1).set j (f x y).2

/-- The two pairs have no cell in common. -/
def Apart (p q : Nat × Nat) : Prop :=
  p.1 ≠ q.1 ∧ p.1 ≠ q.2 ∧ p.2 ≠ q.1 ∧ p.2 ≠ q.2

theorem Apart.symm {p q : Nat × Nat} (h : Apart p q) : Apart q p :=
  ⟨h.1.symm, h.2.2.1.symm, h.2.1.symm, h.2.2.2.symm⟩

theorem updatePair_spec {i j : Nat} (hij : i ≠ j) {f : α → α → α × α} {buf : List α} {x y : α}
    (hx : buf[i]? = some x) (hy : buf[j]? = some y) :
    ∃ buf', updatePair i j f buf = some buf' ∧ buf'.length = buf.length ∧
      buf'[i]? = some (f x y).1 ∧ buf'[j]? = some (f x y).2 ∧
        ∀ k, k ≠ i → k ≠ j → buf'[k]? = buf[k]? := by
  have hi : i < buf.length := (List.getElem?_eq_some_iff.1 hx).1
  have hj : j < buf.length := (List.getElem?_eq_some_iff.1 hy).1
  refine ⟨(buf.set i (f x y).1).set j (f x y).2, ?_, ?_, ?_, ?_, ?_⟩
  · rw [updatePair, hx, hy]
    rfl
  · rw [length_set, length_set]
  · rw [getElem?_set_ne (Ne.symm hij), getElem?_set_self hi]
  · rw [getElem?_set_self (by rwa [length_set])]
  · intro k hki hkj
    rw [getElem?_set_ne (Ne.symm hkj), getElem?_set_ne (Ne.symm hki)]

/-- A loop over pairs that are apart: every pair is updated from what it held at the start, and the
other cells stay. -/
theorem foldlM_updatePair (pair : ι → Nat × Nat) (f : ι → α → α → α × α) (is : List ι) :
    ∀ buf : List α, (is.Pairwise fun a b => Apart (pair a) (pair b)) →
      (∀ a ∈ is, (pair a).1 ≠ (pair a).2 ∧ (pair a).1 < buf.length ∧
        (pair a).2 < buf.length) →
        ∃ buf', is.foldlM (fun buf a => updatePair (pair a).1 (pair a).2 (f a) buf) buf =
            some buf' ∧ buf'.length = buf.length ∧
          (∀ a ∈ is, ∀ x y, buf[(pair a).1]? = some x → buf[(pair a).2]? = some y →
            buf'[(pair a).1]? = some (f a x y).1 ∧ buf'[(pair a).2]? = some (f a x y).2) ∧
          ∀ k, (∀ a ∈ is, k ≠ (pair a).1 ∧ k ≠ (pair a).2) → buf'[k]? = buf[k]? := by
  induction is with
  | nil =>
    intro buf _ _
    refine ⟨buf, rfl, rfl, ?_, fun k _ => rfl⟩
    intro a ha
    cases ha
  | cons a is ih =>
    intro buf hapart hin
    obtain ⟨hfirst, hrest⟩ := pairwise_cons.1 hapart
    obtain ⟨hne, hi, hj⟩ := hin a mem_cons_self
    obtain ⟨mid, hupdate, hmidLen, hmidi, hmidj, hmid⟩ := @updatePair_spec _ _ _ hne (f a) buf _ _
      (getElem?_eq_getElem hi) (getElem?_eq_getElem hj)
    obtain ⟨buf', hrun, hlen, hcells, hkeep⟩ := ih mid hrest (by
      intro b hb
      rw [hmidLen]
      exact hin b (mem_cons_of_mem a hb))
    refine ⟨buf', ?_, hlen.trans hmidLen, ?_, ?_⟩
    · rw [foldlM_cons, hupdate]
      exact hrun
    · intro b hb x y hx hy
      rcases mem_cons.1 hb with rfl | hb
      · -- the pair of the first update is not touched again
        rw [getElem?_eq_getElem hi] at hx
        rw [getElem?_eq_getElem hj] at hy
        cases hx
        cases hy
        rw [hkeep _ fun c hc => ⟨(hfirst c hc).1, (hfirst c hc).2.1⟩,
          hkeep _ fun c hc => ⟨(hfirst c hc).2.2.1, (hfirst c hc).2.2.2⟩]
        exact ⟨hmidi, hmidj⟩
      -- a later pair is apart from the first, so it still holds what it held at the start
      · have hab := (hfirst b hb).symm
        apply hcells b hb x y
        · rw [hmid _ hab.1 hab.2.1, hx]
        · rw [hmid _ hab.2.2.1 hab.2.2.2, hy]
    · intro k hk
      rw [hkeep k fun c hc => hk c (mem_cons_of_mem a hc),
        hmid k (hk a mem_cons_self).1 (hk a mem_cons_self).2]

end PairUpdates

/-!
# Rewriting distinct cells in place

A loop visits a list of indices and replaces one cell for each, computing the new content from the
old one.  The loop stops where a cell or its new content does not exist, with the buffer as it is
then.

`run_spec` : when the cells are distinct and every step is defined, the loop finishes, every
visited cell holds its new content, and every other cell is as it was.
-/

namespace Scatter

variable {α : Type}

/-- One step: replace the cell of index `i`. -/
def step (cell : Nat → Nat) (next : Nat → α → Option α) (s : List α) (i : Nat) :
    Option (List α) := do
  let old ← s[cell i]?
  let new ← next i old
  some (s.set (cell i) new)

/-- The loop, with the buffer it leaves and whether it finished. -/
def run (cell : Nat → Nat) (next : Nat → α → Option α) : List Nat → List α → List α × Bool
  | [], s => (s, true)
  | i :: is, s =>
    match step cell next s i with
    | some s' => run cell next is s'
    | none => (s, false)

/-- `s'` is `s` with the cells of the visited indices replaced. -/
structure Written (cell : Nat → Nat) (next : Nat → α → Option α) (is : List Nat) (s s' : List α) :
    Prop where
  length : s'.length = s.length
  visited : ∀ i ∈ is, ∃ old new, s[cell i]? = some old ∧ next i old = some new ∧
    s'[cell i]? = some new
  other : ∀ k, (∀ i ∈ is, cell i ≠ k) → s'[k]? = s[k]?

variable {cell : Nat → Nat} {next : Nat → α → Option α}

theorem run_spec (is : List Nat) :
    ∀ s : List α, is.Pairwise (fun i j => cell i ≠ cell j) → (∀ i ∈ is, cell i < s.length) →
      (∀ i ∈ is, ∀ old, ∃ new, next i old = some new) →
        ∃ s', run cell next is s = (s', true) ∧ Written cell next is s s' := by
  induction is with
  | nil =>
    intro s _ _ _
    refine ⟨s, rfl, rfl, ?_, ?_⟩
    · intro i hi
      cases hi
    · intro k _
      rfl
  | cons i is ih =>
    intro s hdistinct hcell hnext
    rcases List.pairwise_cons.1 hdistinct with ⟨hfirst, htail⟩
    have hi : cell i < s.length := hcell i List.mem_cons_self
    have hold : s[cell i]? = some s[cell i] := List.getElem?_eq_getElem hi
    rcases hnext i List.mem_cons_self s[cell i] with ⟨new, hnew⟩
    have hstep : step cell next s i = some (s.set (cell i) new) := by
      simp [step, hold, hnew]
    rcases ih (s.set (cell i) new) htail
      (fun j hj => by rw [List.length_set]; exact hcell j (List.mem_cons_of_mem i hj))
      (fun j hj => hnext j (List.mem_cons_of_mem i hj)) with ⟨s', hrun, hwritten⟩
    refine ⟨s', ?_, ?_, ?_, ?_⟩
    · rw [run, hstep]
      exact hrun
    · rw [hwritten.length, List.length_set]
    · intro j hj
      rcases List.mem_cons.1 hj with rfl | hj
      · refine ⟨s[cell j], new, hold, hnew, ?_⟩
        rw [hwritten.other (cell j) (fun k hk => (hfirst k hk).symm)]
        exact List.getElem?_set_self hi
      · rcases hwritten.visited j hj with ⟨old, new', hold', hnew', hset⟩
        rw [List.getElem?_set_ne (hfirst j hj)] at hold'
        exact ⟨old, new', hold', hnew', hset⟩
    · intro k hk
      rw [hwritten.other k (fun j hj => hk j (List.mem_cons_of_mem i hj)),
        List.getElem?_set_ne (hk i List.mem_cons_self)]

theorem run_congr {cell' : Nat → Nat} {next' : Nat → α → Option α} (is : List Nat) :
    ∀ s : List α, (∀ i ∈ is, cell i = cell' i) → (∀ i ∈ is, ∀ old, next i old = next' i old) →
      run cell next is s = run cell' next' is s := by
  induction is with
  | nil =>
    intro s _ _
    rfl
  | cons i is ih =>
    intro s hcell hnext
    have hstep : step cell next s i = step cell' next' s i := by
      simp only [step, hcell i List.mem_cons_self, hnext i List.mem_cons_self]
    rw [run, run, hstep]
    cases step cell' next' s i with
    | none => rfl
    | some s' =>
      exact ih s' (fun j hj => hcell j (List.mem_cons_of_mem i hj))
        (fun j hj => hnext j (List.mem_cons_of_mem i hj))

end Scatter
