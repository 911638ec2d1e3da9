import Mathlib.Algebra.BigOperators.Group.List.Basic
import Mathlib.Data.List.Induction
import Mathlib.Data.List.Nodup

/-!
# All choices of one value per list

`all` lists the rows that take one value from each of several lists, the last list varying
fastest.  Rows are built from the front, one list after another.
-/

namespace Choices

open List

variable {β : Type*}

/-- Every row, continued by every value. -/
def extend (rows : List (List β)) (values : List β) : List (List β) :=
  rows.flatMap (fun row => values.map (fun v => row ++ [v]))

def all (axes : List (List β)) : List (List β) :=
  axes.foldl extend [[]]

variable {axes : List (List β)} {values row : List β} {rows : List (List β)}

theorem all_concat : all (axes ++ [values]) = extend (all axes) values :=
  foldl_concat ..

theorem mem_extend :
    row ∈ extend rows values ↔ ∃ front ∈ rows, ∃ v ∈ values, row = front ++ [v] := by
  simp only [extend, mem_flatMap, mem_map, eq_comm]

theorem mem_all : row ∈ all axes ↔ List.Forall₂ (· ∈ ·) row axes := by
  induction axes using reverseRecOn generalizing row with
  | nil => simp [all]
  | append_singleton axes values ih =>
    rw [all_concat, mem_extend]
    constructor
    · rintro ⟨front, hfront, v, hv, rfl⟩
      exact rel_append (ih.1 hfront) (.cons hv .nil)
    · intro h
      have hfront := forall₂_take_append row axes [values] h
      have hlast := forall₂_drop_append row axes [values] h
      obtain ⟨v, rest, hv, hrest, hdrop⟩ := forall₂_cons_right_iff.1 hlast
      rw [forall₂_nil_right_iff.1 hrest] at hdrop
      refine ⟨row.take axes.length, ih.2 hfront, v, hv, ?_⟩
      rw [← hdrop, take_append_drop]

theorem length_extend : (extend rows values).length = rows.length * values.length := by
  rw [extend, length_flatMap]
  simp

theorem length_all : (all axes).length = (axes.map List.length).prod := by
  induction axes using reverseRecOn with
  | nil => rfl
  | append_singleton axes values ih =>
    rw [all_concat, length_extend, ih, map_append, prod_append]
    simp

theorem nodup_extend : rows.Nodup → values.Nodup → (extend rows values).Nodup := by
  intro hrows hvalues
  refine nodup_flatMap.2 ⟨?_, ?_⟩
  · intro row _
    exact hvalues.map fun v w h => singleton_inj.1 (append_cancel_left h)
  · refine hrows.imp ?_
    intro row row' hne x hx hx'
    obtain ⟨v, -, rfl⟩ := mem_map.1 hx
    obtain ⟨w, -, heq⟩ := mem_map.1 hx'
    exact hne (append_inj_left' heq rfl).symm

/-- Lists without repetition have every row once. -/
theorem nodup_all : (∀ values ∈ axes, values.Nodup) → (all axes).Nodup := by
  induction axes using reverseRecOn with
  | nil => exact fun _ => nodup_singleton []
  | append_singleton axes values ih =>
    intro h
    rw [all_concat]
    refine nodup_extend (ih ?_) ?_
    · intro vs hvs
      exact h vs (mem_append_left _ hvs)
    · exact h values (mem_append_right _ (mem_singleton_self _))

end Choices
