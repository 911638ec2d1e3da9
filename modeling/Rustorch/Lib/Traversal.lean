import Mathlib.Data.List.Forall2
import Mathlib.Data.Option.NAry

/-!
# Traversals of a list in `Option`

`List.mapM` runs a partial function over a list and fails with its first failure.
-/

namespace Traversal

open List

variable {α β : Type}

variable {f : α → Option β} {xs : List α} {g : α → Option β}

theorem mapM_eq_some (xs : List α) :
    ∀ ys : List β, xs.mapM f = some ys ↔ List.Forall₂ (fun x y => f x = some y) xs ys := by
  induction xs with
  | nil =>
    intro ys
    cases ys with
    | nil => simp
    | cons y ys => simp
  | cons x xs ih =>
    intro ys
    cases ys with
    | nil =>
      simp only [mapM_cons, forall₂_cons_left_iff]
      cases f x with
      | none => simp
      | some z =>
        cases xs.mapM f with
        | none => simp
        | some zs => simp
    | cons y ys =>
      simp only [mapM_cons, forall₂_cons, ← ih ys]
      cases f x with
      | none => simp
      | some z =>
        cases xs.mapM f with
        | none => simp
        | some zs => simp

theorem exists_mapM : (∀ x ∈ xs, ∃ y, f x = some y) → ∃ ys, xs.mapM f = some ys := by
  induction xs with
  | nil =>
    intro _
    exact ⟨[], rfl⟩
  | cons x xs ih =>
    intro h
    obtain ⟨y, hy⟩ := h x mem_cons_self
    obtain ⟨ys, hys⟩ := ih (fun z hz => h z (mem_cons_of_mem x hz))
    exact ⟨y :: ys, by simp [mapM_cons, hy, hys]⟩

theorem mapM_eq_map {g : α → β} : (∀ x ∈ xs, f x = some (g x)) → xs.mapM f = some (xs.map g) := by
  intro h
  rw [mapM_eq_some, forall₂_map_right_iff]
  exact forall₂_same.2 h

theorem mapM_congr {m : Type → Type} [Monad m] [LawfulMonad m] {f g : α → m β} :
    (∀ x ∈ xs, f x = g x) → xs.mapM f = xs.mapM g := by
  induction xs with
  | nil =>
    intro _
    rfl
  | cons x xs ih =>
    intro h
    rw [mapM_cons, mapM_cons, h x mem_cons_self, ih (fun z hz => h z (mem_cons_of_mem x hz))]

theorem mapM_eq_none {x : α} : x ∈ xs → f x = none → xs.mapM f = none := by
  intro hx hf
  rw [Option.eq_none_iff_forall_ne_some]
  intro ys hys
  rcases mem_iff_getElem.1 hx with ⟨k, hk, rfl⟩
  have hall := (mapM_eq_some xs ys).1 hys
  have hget := (forall₂_iff_get.1 hall).2 k hk (by rwa [← Forall₂.length_eq hall])
  simp [hf] at hget

/-- Two readings that never fail give the same list only if they agree everywhere. -/
theorem mapM_eq_mapM_iff :
    (∀ x ∈ xs, ∃ y, f x = some y) → (xs.mapM f = xs.mapM g ↔ ∀ x ∈ xs, f x = g x) := by
  intro hf
  constructor
  · intro heq
    obtain ⟨ys, hys⟩ := exists_mapM hf
    have hfs := (mapM_eq_some xs ys).1 hys
    have hgs := (mapM_eq_some xs ys).1 (heq.symm.trans hys)
    clear heq hys hf
    induction hfs with
    | nil => simp
    | @cons x y xs ys hx _ ih =>
      rcases forall₂_cons.1 hgs with ⟨hgx, hgs⟩
      intro z hz
      rcases mem_cons.1 hz with rfl | hz
      · exact hx.trans hgx.symm
      · exact ih hgs z hz
  · intro h
    exact mapM_congr h

theorem mapM_range_getElem? {γ : Type} (f : α → β → γ) {n : Nat} {ys : List β} :
    n ≤ xs.length → n ≤ ys.length →
      (List.range n).mapM (fun i => Option.map₂ f xs[i]? ys[i]?) =
        some (List.zipWith f (xs.take n) (ys.take n)) := by
  intro hx hy
  refine (mapM_eq_some _ _).2 (forall₂_iff_get.2 ⟨by simp; omega, ?_⟩)
  intro i hi hi'
  have hin : i < n := by
    simpa using hi
  have hxi : i < xs.length := by
    omega
  have hyi : i < ys.length := by
    omega
  simp [hxi, hyi]

end Traversal
