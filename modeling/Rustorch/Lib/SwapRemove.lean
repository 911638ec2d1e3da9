import Mathlib.Data.List.Nodup

/-!
# Removal by swapping with the last entry

`Vec::swap_remove` puts the last entry into the place of the one that leaves.  The other entries stay,
but they keep their order only if the one that leaves is one of the last two.
-/

namespace SwapRemove

open List

variable {α κ : Type}

def swapRemove (xs : List α) (i : Nat) : List α :=
  match xs.getLast? with
  | some last => (xs.set i last).dropLast
  | none => []

theorem swapRemove_last (front : List α) (x : α) :
    swapRemove (front ++ [x]) front.length = front := by
  simp [swapRemove]

theorem swapRemove_middle (front back : List α) (x last : α) :
    swapRemove (front ++ x :: (back ++ [last])) front.length = front ++ last :: back := by
  have hlast : (front ++ x :: (back ++ [last])).getLast? = some last := by
    rw [← cons_append, ← append_assoc, getLast?_concat]
  have hset : (front ++ x :: (back ++ [last])).set front.length last =
      front ++ last :: back ++ [last] := by
    simp
  rw [swapRemove, hlast]
  simp only [hset, dropLast_concat]

theorem eraseIdx_middle (front back : List α) (x : α) :
    (front ++ x :: back).eraseIdx front.length = front ++ back := by
  rw [eraseIdx_append_of_length_le (Nat.le_refl _), Nat.sub_self, eraseIdx_zero, tail_cons]

variable {xs : List α} {i : Nat}

theorem exists_around :
    i < xs.length → ∃ front x back, xs = front ++ x :: back ∧ front.length = i := by
  intro hi
  refine ⟨xs.take i, xs[i], xs.drop (i + 1), ?_, ?_⟩
  · rw [← drop_eq_getElem_cons hi, take_append_drop]
  · rw [length_take]
    omega

/-- The order stays exactly if the entry was one of the last two. -/
theorem swapRemove_eq_iff (hnodup : xs.Nodup) (hi : i < xs.length) :
    swapRemove xs i = xs.eraseIdx i ↔ xs.length ≤ i + 2 := by
  obtain ⟨front, x, back, rfl, rfl⟩ := exists_around hi
  rw [eraseIdx_middle]
  rcases eq_nil_or_concat back with rfl | ⟨back, last, rfl⟩
  · rw [swapRemove_last, append_nil]
    simp
  · rw [concat_eq_append, swapRemove_middle, append_cancel_left_eq]
    cases back with
    | nil => simp
    | cons y back =>
      have hne : last ≠ y := by
        rintro rfl
        simp [nodup_append] at hnodup
      simp [hne]

/-! ## Entries with keys -/

section Keys

variable [DecidableEq κ] {key : α → κ} {xs : List α} {k : κ} {i : Nat}

theorem eraseIdx_eq_filter (hnodup : (xs.map key).Nodup)
    (hfind : xs.findIdx? (fun x => key x = k) = some i) :
    i < xs.length ∧ xs.eraseIdx i = xs.filter (fun x => key x ≠ k) := by
  obtain ⟨hi, hkey, hbefore⟩ := findIdx?_eq_some_iff_getElem.1 hfind
  refine ⟨hi, ?_⟩
  obtain ⟨front, x, back, rfl, rfl⟩ := exists_around hi
  have hx : key x = k := by simpa using hkey
  rw [eraseIdx_middle, filter_append, filter_cons_of_neg (by simp [hx])]
  rw [map_append, map_cons, nodup_append] at hnodup
  have hfront : front.filter (fun x => key x ≠ k) = front := by
    refine filter_eq_self.2 fun y hy => ?_
    have hne := hnodup.2.2 (key y) (mem_map_of_mem hy) (key x) mem_cons_self
    simpa [hx] using hne
  have hback : back.filter (fun x => key x ≠ k) = back := by
    refine filter_eq_self.2 fun y hy => ?_
    have hnot := (nodup_cons.1 hnodup.2.1).1
    simpa using fun h => hnot (by rw [hx, ← h]; exact mem_map_of_mem hy)
  rw [hfront, hback]

theorem findIdx?_isSome_iff : (xs.findIdx? (fun x => key x = k)).isSome ↔ k ∈ xs.map key := by
  simp [findIdx?_isSome]

/-- Entries with different keys, with the entry of one key removed. -/
theorem swapRemove_filter_iff (hnodup : (xs.map key).Nodup)
    (hfind : xs.findIdx? (fun x => key x = k) = some i) :
    swapRemove xs i = xs.filter (fun x => key x ≠ k) ↔ xs.length ≤ i + 2 := by
  obtain ⟨hi, herase⟩ := eraseIdx_eq_filter hnodup hfind
  rw [← herase]
  exact swapRemove_eq_iff (Nodup.of_map key hnodup) hi

end Keys

end SwapRemove
