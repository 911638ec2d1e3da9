import Mathlib.Algebra.BigOperators.Intervals

/-!
# What a table shows

A table is a list that is read by index, with `absent` past its end.  A view keeps some of the
entries; `absent` is not among them.  Where two tables differ at one index only, their views differ
by that entry, up to order.

- `mem_view`  : what a view shows is the entry at some index
- `view_edit` : the views of two tables that differ at one index
- `sum_kept`  : the sum over some of the entries, index by index
-/

namespace TableView

open List Option

variable {α β : Type*} {absent : α} {f : α → Option β} {xs ys : List α} {idx : Nat}

section

variable (hf : f absent = none)

include hf

/-- A view may be read index by index, up to any index past the end. -/
theorem view_eq_range :
    ∀ (xs : List α) (n : Nat), xs.length ≤ n →
      xs.filterMap f = (List.range n).filterMap (fun i => f (xs.getD i absent)) := by
  intro xs n hlen
  have hsplit : range n = range xs.length ++
      (range (n - xs.length)).map (xs.length + ·) := by
    rw [← range_add, Nat.add_sub_cancel' hlen]
  have hpast : ((range (n - xs.length)).map (xs.length + ·)).filterMap
      (fun i => f (xs.getD i absent)) = [] := by
    apply filterMap_eq_nil_iff.2
    intro i hi
    obtain ⟨j, _, hij⟩ := mem_map.1 hi
    rw [getD_eq_getElem?_getD, getElem?_eq_none (by omega), getD_none, hf]
  have hread : (range xs.length).map (fun i => xs.getD i absent) = xs := by
    apply ext_getElem
    · simp
    · intro i h₁ h₂
      simp [h₂]
  calc
    xs.filterMap f
        = ((range xs.length).map (fun i => xs.getD i absent)).filterMap f := by rw [hread]
    _ = (range xs.length).filterMap (fun i => f (xs.getD i absent)) := filterMap_map
    _ = (range n).filterMap (fun i => f (xs.getD i absent)) := by
          rw [hsplit, filterMap_append, hpast, append_nil]

theorem mem_view {x : β} :
    x ∈ xs.filterMap f ↔ ∃ i, f (xs.getD i absent) = some x := by
  rw [mem_filterMap]
  constructor
  · rintro ⟨a, ha, hx⟩
    obtain ⟨i, hi⟩ := mem_iff_getElem?.1 ha
    refine ⟨i, ?_⟩
    rwa [getD_eq_getElem?_getD, hi, getD_some]
  · rintro ⟨i, hx⟩
    have hlt : i < xs.length := by
      by_contra hle
      rw [getD_eq_getElem?_getD, getElem?_eq_none (Nat.le_of_not_lt hle), getD_none, hf] at hx
      cases hx
    refine ⟨xs[i], getElem_mem hlt, ?_⟩
    rwa [getD_eq_getElem?_getD, getElem?_eq_getElem hlt, getD_some] at hx

theorem view_congr (h : ∀ i, f (ys.getD i absent) = f (xs.getD i absent)) :
    ys.filterMap f = xs.filterMap f := by
  rw [view_eq_range hf xs _ (Nat.le_max_left _ ys.length),
    view_eq_range hf ys _ (Nat.le_max_right xs.length _)]
  simp only [h]

variable (h : ∀ i, i ≠ idx → f (ys.getD i absent) = f (xs.getD i absent))

include h

theorem view_edit :
    ∃ rest, (xs.filterMap f).Perm ((f (xs.getD idx absent)).toList ++ rest) ∧
      (ys.filterMap f).Perm ((f (ys.getD idx absent)).toList ++ rest) := by
  have hread : ∀ (zs : List α) (n : Nat), zs.length ≤ n → idx < n →
      (zs.filterMap f).Perm ((f (zs.getD idx absent)).toList ++
        ((range n).erase idx).filterMap (fun i => f (zs.getD i absent))) := by
    intro zs n hlen hidx
    have hperm := (perm_cons_erase (mem_range.2 hidx)).filterMap
      (fun i => f (zs.getD i absent))
    rw [filterMap_cons] at hperm
    rw [view_eq_range hf zs n hlen]
    cases hentry : f (zs.getD idx absent) with
    | none => rwa [hentry] at hperm
    | some x => rwa [hentry] at hperm
  have hrest : ∀ n, ((range n).erase idx).filterMap (fun i => f (ys.getD i absent)) =
      ((range n).erase idx).filterMap (fun i => f (xs.getD i absent)) := by
    intro n
    apply filterMap_congr
    intro i hi
    exact h i ((nodup_range.mem_erase_iff).1 hi).1
  let n := xs.length + ys.length + idx + 1
  refine ⟨_, hread xs n (by omega) (by omega), ?_⟩
  rw [← hrest n]
  exact hread ys n (by omega) (by omega)

/-! ## Entries that come, go or change -/

theorem view_gain {x : β} (hold : f (xs.getD idx absent) = none)
    (hnew : f (ys.getD idx absent) = some x) :
    (ys.filterMap f).Perm (x :: xs.filterMap f) := by
  obtain ⟨rest, hxs, hys⟩ := view_edit hf h
  rw [hold] at hxs
  rw [hnew] at hys
  exact hys.trans (hxs.symm.cons x)

theorem view_lose {x : β} (hold : f (xs.getD idx absent) = some x)
    (hnew : f (ys.getD idx absent) = none) :
    (xs.filterMap f).Perm (x :: ys.filterMap f) :=
  view_gain hf (fun i hi => (h i hi).symm) hnew hold

theorem view_change {x y : β} (hold : f (xs.getD idx absent) = some x)
    (hnew : f (ys.getD idx absent) = some y) :
    ∃ rest, (xs.filterMap f).Perm (x :: rest) ∧ (ys.filterMap f).Perm (y :: rest) := by
  obtain ⟨rest, hxs, hys⟩ := view_edit hf h
  rw [hold] at hxs
  rw [hnew] at hys
  exact ⟨rest, hxs, hys⟩

/-! ## Sums -/

end

theorem sum_kept (keep : α → Bool) (weight : α → Nat) :
    ((xs.filter keep).map weight).sum = ∑ k ∈ Finset.range xs.length,
      if xs[k]?.any keep = true then (xs[k]?.map weight).getD 0 else 0 := by
  induction xs with
  | nil => rfl
  | cons x xs ih =>
    rw [length_cons, Finset.sum_range_succ']
    simp only [getElem?_cons_succ, ← ih, getElem?_cons_zero, any_some, map_some, getD_some]
    by_cases hx : keep x = true
    · rw [filter_cons_of_pos hx, if_pos hx, map_cons, sum_cons, Nat.add_comm]
    · rw [filter_cons_of_neg hx, if_neg hx, Nat.add_zero]

end TableView
