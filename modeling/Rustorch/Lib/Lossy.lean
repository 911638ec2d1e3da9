import Mathlib.Data.List.Basic

/-!
# A receiver that may miss items

A receiver takes the items of a stream in order.  When it falls behind, it is given a marker in
place of the items it missed.

- `Delivers`         : what a receiver may be given for a stream
- `Delivers.sublist` : the items given are items of the stream, in order
-/

namespace Lossy

open List

variable {α : Type}

/-- A list of items and markers stands for a stream; a marker stands for at least one item. -/
inductive Delivers : List α → List (Option α) → Prop
  | nil : Delivers [] []
  | item {sent : List α} {given : List (Option α)} (a : α) :
      Delivers sent given → Delivers (sent ++ [a]) (given ++ [some a])
  | marker {sent missed : List α} {given : List (Option α)} :
      missed ≠ [] → Delivers sent given → Delivers (sent ++ missed) (given ++ [none])

/-- The items among what a receiver was given. -/
def items (given : List (Option α)) : List α :=
  given.filterMap id

theorem Delivers.sublist {sent : List α} {given : List (Option α)} :
    Delivers sent given → (items given).Sublist sent := by
  intro h
  induction h with
  | nil => exact Sublist.refl _
  | item a _ ih =>
    rw [items, filterMap_append]
    exact ih.append (Sublist.refl [a])
  | @marker sent missed given _ _ ih =>
    rw [items, filterMap_append, filterMap_cons_none rfl, filterMap_nil, append_nil]
    exact ih.trans (sublist_append_left sent missed)

end Lossy
