import Mathlib.Data.List.Basic
import Mathlib.Order.Basic
import Mathlib.Order.Lattice

/-!
# Overlaying entries on a map

A map is a list of entries in key order.  `insert` replaces the entry of its key or puts a new one
in its place; `overlay` inserts one entry after another, so that a later one of the same key wins.
None of the facts needs the list to be in order.

- `lookup_overlay_of_notMem` : other keys keep their values
- `lookup_overlay_of_mem`    : the keys of the entries forget the map below
- `overlay_insert_of_mem`    : an entry that is replaced later leaves no trace
-/

namespace Overlay

open List

variable {κ β : Type*} [LinearOrder κ]

def insert (k : κ) (v : β) : List (κ × β) → List (κ × β)
  | [] => [(k, v)]
  | e :: m =>
    if k < e.1 then
      (k, v) :: e :: m
    else if k = e.1 then
      (k, v) :: m
    else
      e :: insert k v m

def overlay (m : List (κ × β)) (entries : List (κ × β)) : List (κ × β) :=
  entries.foldl (fun m e => insert e.1 e.2 m) m

variable {k k' : κ} {v v' : β} {m m' entries : List (κ × β)} {e : κ × β}

@[simp] theorem overlay_cons : overlay m (e :: entries) = overlay (insert e.1 e.2 m) entries := rfl

/-! ## One entry -/

theorem insert_of_lt : k < e.1 → insert k v (e :: m) = (k, v) :: e :: m := by
  intro h
  rw [insert, if_pos h]

theorem insert_of_eq : k = e.1 → insert k v (e :: m) = (k, v) :: m := by
  intro h
  rw [insert, if_neg h.not_lt, if_pos h]

theorem insert_of_gt : e.1 < k → insert k v (e :: m) = e :: insert k v m := by
  intro h
  rw [insert, if_neg h.not_gt, if_neg h.ne']

/-- The three things `insert` can do with the first entry. -/
theorem insert_cons_cases (k : κ) (v : β) (e : κ × β) (m : List (κ × β)) :
    (k < e.1 ∧ insert k v (e :: m) = (k, v) :: e :: m) ∨
      (k = e.1 ∧ insert k v (e :: m) = (k, v) :: m) ∨
        (e.1 < k ∧ insert k v (e :: m) = e :: insert k v m) := by
  rcases lt_trichotomy k e.1 with hlt | heq | hgt
  · exact .inl ⟨hlt, insert_of_lt hlt⟩
  · exact .inr (.inl ⟨heq, insert_of_eq heq⟩)
  · exact .inr (.inr ⟨hgt, insert_of_gt hgt⟩)

theorem lookup_insert_self : (insert k v m).lookup k = some v := by
  induction m with
  | nil => exact lookup_cons_self
  | cons e m ih =>
    rcases insert_cons_cases k v e m with ⟨-, heq⟩ | ⟨-, heq⟩ | ⟨hlt, heq⟩
    · rw [heq, lookup_cons_self]
    · rw [heq, lookup_cons_self]
    · rw [heq, lookup_cons, beq_eq_false_iff_ne.2 hlt.ne', ih]

theorem lookup_insert_of_ne : k' ≠ k → (insert k v m).lookup k' = m.lookup k' := by
  intro hne
  have hkey : (k' == k) = false := beq_eq_false_iff_ne.2 hne
  induction m with
  | nil => simp [insert, lookup_cons, hkey]
  | cons e m ih =>
    rcases insert_cons_cases k v e m with ⟨-, heq⟩ | ⟨hk, heq⟩ | ⟨-, heq⟩
    · rw [heq, lookup_cons, hkey]
    · rw [heq, lookup_cons, hkey, lookup_cons, ← hk, hkey]
    · rw [heq, lookup_cons, lookup_cons, ih]

theorem insert_insert : insert k v (insert k v' m) = insert k v m := by
  induction m with
  | nil => exact insert_of_eq (e := (k, v')) rfl
  | cons e m ih =>
    rcases lt_trichotomy k e.1 with hlt | heq | hgt
    · rw [insert_of_lt hlt, insert_of_lt hlt, insert_of_eq (e := (k, v')) rfl]
    · rw [insert_of_eq heq, insert_of_eq heq, insert_of_eq (e := (k, v')) rfl]
    · rw [insert_of_gt hgt, insert_of_gt hgt, insert_of_gt hgt, ih]

/-- Entries of different keys may be inserted in either order. -/
theorem insert_comm (hne : k < k') :
    insert k v (insert k' v' m) = insert k' v' (insert k v m) := by
  induction m with
  | nil =>
    rw [insert, insert, insert_of_lt (e := (k', v')) hne, insert_of_gt (e := (k, v)) hne, insert]
  | cons e m ih =>
    rcases lt_trichotomy k' e.1 with hlt' | heq' | hgt'
    · -- Both stand before the first entry.
      rw [insert_of_lt hlt', insert_of_lt (e := (k', v')) hne, insert_of_lt (hne.trans hlt'),
        insert_of_gt (e := (k, v)) hne, insert_of_lt hlt']
    · rw [insert_of_eq heq', insert_of_lt (e := (k', v')) hne, insert_of_lt (heq' ▸ hne),
        insert_of_gt (e := (k, v)) hne, insert_of_eq heq']
    · rw [insert_of_gt hgt']
      rcases lt_trichotomy k e.1 with hlt | heq | hgt
      · rw [insert_of_lt hlt, insert_of_lt hlt, insert_of_gt (e := (k, v)) hne, insert_of_gt hgt']
      · rw [insert_of_eq heq, insert_of_eq heq, insert_of_gt (e := (k, v)) hne]
      · rw [insert_of_gt hgt, insert_of_gt hgt, insert_of_gt hgt', ih]

theorem insert_comm_of_ne : k ≠ k' →
    insert k v (insert k' v' m) = insert k' v' (insert k v m) := by
  intro hne
  rcases lt_or_gt_of_ne hne with hlt | hgt
  · exact insert_comm hlt
  · exact (insert_comm hgt).symm

/-! ## Many entries -/

theorem lookup_overlay_of_notMem :
    k ∉ entries.map Prod.fst → (overlay m entries).lookup k = m.lookup k := by
  induction entries generalizing m with
  | nil => exact fun _ => rfl
  | cons e entries ih =>
    intro hk
    rw [map_cons, mem_cons, not_or] at hk
    rw [overlay_cons, ih hk.2, lookup_insert_of_ne hk.1]

theorem lookup_overlay_of_mem :
    k ∈ entries.map Prod.fst → ∃ v, ∀ m, (overlay m entries).lookup k = some v := by
  induction entries with
  | nil => exact fun h => nomatch h
  | cons e entries ih =>
    intro hk
    by_cases hlater : k ∈ entries.map Prod.fst
    · obtain ⟨v, hv⟩ := ih hlater
      exact ⟨v, fun m => hv _⟩
    · have hself : k = e.1 := (mem_cons.1 hk).resolve_right hlater
      refine ⟨e.2, fun m => ?_⟩
      rw [overlay_cons, lookup_overlay_of_notMem hlater, hself, lookup_insert_self]

theorem overlay_insert_of_mem :
    k ∈ entries.map Prod.fst → overlay (insert k v m) entries = overlay m entries := by
  induction entries generalizing m with
  | nil => exact fun h => nomatch h
  | cons e entries ih =>
    intro hk
    rw [overlay_cons, overlay_cons]
    by_cases hself : k = e.1
    · rw [← hself, insert_insert]
    · have hlater := (mem_cons.1 hk).resolve_left hself
      rw [insert_comm_of_ne (Ne.symm hself), ih hlater]

end Overlay
