import Mathlib.Algebra.Order.Group.Multiset

/-!
# Lists of slots

A list whose elements are addressed by their index, changed one slot at a time and extended at the
end.  `All P` says that every slot meets `P` at its index.

Where every slot has a list of contents, the contents of all slots, one after another, change with
the slot that is set: as a list (`flatMap_set_of_eq`, `flatMap_set_last`) and as a multiset
(`coe_flatMap_set`).
-/

namespace Slots

open List

variable {α : Type} {P Q : Nat → α → Prop} {slots : List α} {i : Nat}

def All (P : Nat → α → Prop) (slots : List α) : Prop :=
  ∀ (i : Nat) (a : α), slots[i]? = some a → P i a

theorem all_nil : All P ([] : List α) := by
  intro i a h
  cases h

theorem All.modify {f : α → α} :
    (∀ a, P i a → Q i (f a)) → (∀ j a, j ≠ i → P j a → Q j a) → All P slots →
      All Q (slots.modify i f) := by
  intro hchanged hother h j a ha
  rw [getElem?_modify] at ha
  cases hold : slots[j]? with
  | none =>
    rw [hold] at ha
    cases ha
  | some old =>
    rw [hold] at ha
    have hpj := h j old hold
    by_cases hij : i = j
    · cases hij
      simp only [if_true, Option.map_eq_map, Option.map_some] at ha
      cases ha
      exact hchanged _ hpj
    · simp only [if_neg hij, Option.map_eq_map, Option.map_some] at ha
      cases ha
      exact hother j _ (Ne.symm hij) hpj

theorem All.concat {a : α} : P slots.length a → All P slots → All P (slots ++ [a]) := by
  intro hnew h j b hb
  rcases Nat.lt_or_ge j slots.length with hlt | hge
  · rw [getElem?_append_left hlt] at hb
    exact h j b hb
  · have hj : j = slots.length := by
      have hbound := (List.getElem?_eq_some_iff.1 hb).1
      rw [length_append, length_singleton] at hbound
      omega
    cases hj
    rw [getElem?_concat_length] at hb
    cases hb
    exact hnew

/-! ## Contents -/

variable {β : Type} {f : α → List β} {a b : α}

theorem flatMap_set_of_eq (slots : List α) :
    ∀ i : Nat, slots[i]? = some a → f b = f a → (slots.set i b).flatMap f = slots.flatMap f := by
  induction slots with
  | nil =>
    intro i ha
    cases ha
  | cons c slots ih =>
    intro i ha heq
    cases i with
    | zero =>
      cases ha
      rw [set_cons_zero, flatMap_cons, flatMap_cons, heq]
    | succ i =>
      rw [set_cons_succ, flatMap_cons, flatMap_cons, ih i ha heq]

/-- What is added to the last slot that has contents is added at the end. -/
theorem flatMap_set_last {x : List β} (slots : List α) :
    ∀ i : Nat, slots[i]? = some a → f b = f a ++ x →
      (∀ j c, i < j → slots[j]? = some c → f c = []) →
        (slots.set i b).flatMap f = slots.flatMap f ++ x := by
  induction slots with
  | nil =>
    intro i ha
    cases ha
  | cons c slots ih =>
    intro i ha heq hlast
    cases i with
    | zero =>
      cases ha
      have hrest : slots.flatMap f = [] := by
        rw [flatMap_eq_nil_iff]
        intro d hd
        rcases mem_iff_getElem?.1 hd with ⟨j, hj⟩
        exact hlast (j + 1) d (Nat.succ_pos j) hj
      rw [set_cons_zero, flatMap_cons, flatMap_cons, hrest, heq, append_nil, append_nil]
    | succ i =>
      have htail := ih i ha heq fun j d hj hd =>
        hlast (j + 1) d (Nat.succ_lt_succ hj) hd
      rw [set_cons_succ, flatMap_cons, flatMap_cons, htail, append_assoc]

/-- Setting a slot exchanges its contents. -/
theorem coe_flatMap_set (slots : List α) :
    ∀ i : Nat, slots[i]? = some a →
      (((slots.set i b).flatMap f : List β) : Multiset β) + (f a : Multiset β) =
        ((slots.flatMap f : List β) : Multiset β) + (f b : Multiset β) := by
  induction slots with
  | nil =>
    intro i ha
    cases ha
  | cons c slots ih =>
    intro i ha
    cases i with
    | zero =>
      cases ha
      rw [set_cons_zero, flatMap_cons, flatMap_cons, ← Multiset.coe_add, ← Multiset.coe_add]
      ac_rfl
    | succ i =>
      have htail := ih i ha
      rw [set_cons_succ, flatMap_cons, flatMap_cons, ← Multiset.coe_add,
        ← Multiset.coe_add, add_assoc, htail, add_assoc]

/-- An element of the contents after a slot was set is in the new contents of the slot or in those
of another one. -/
theorem mem_flatMap_set {x : β} :
    x ∈ (slots.set i b).flatMap f → x ∈ f b ∨ ∃ j c, j ≠ i ∧ slots[j]? = some c ∧ x ∈ f c := by
  intro hx
  rcases mem_flatMap.1 hx with ⟨c, hc, hxc⟩
  rcases mem_iff_getElem?.1 hc with ⟨j, hj⟩
  by_cases hji : i = j
  · cases hji
    rw [getElem?_set] at hj
    simp only [if_true] at hj
    split at hj
    · cases hj
      exact .inl hxc
    · cases hj
  · rw [getElem?_set_ne hji] at hj
    exact .inr ⟨j, c, Ne.symm hji, hj, hxc⟩

theorem mem_flatMap_of_getElem? {x : β} : slots[i]? = some a → x ∈ f a → x ∈ slots.flatMap f := by
  intro ha hx
  exact mem_flatMap.2 ⟨a, mem_of_getElem? ha, hx⟩

end Slots
