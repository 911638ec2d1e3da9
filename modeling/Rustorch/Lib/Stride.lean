import Mathlib.Data.Int.CardIntervalMod

/-!
# Every `w`-th element

`stride w r xs` keeps the elements of a list at the positions `r`, `r + w`, `r + 2 * w`, …  The
strides of all residues share out the list.
-/

namespace Stride

open List

variable {α : Type*}

def stride (w r : Nat) (xs : List α) : List α :=
  xs.zipIdx.filterMap fun xi => if xi.2 % w = r then some xi.1 else none

theorem stride_concat (w r : Nat) (xs : List α) (x : α) :
    stride w r (xs ++ [x]) = stride w r xs ++ if xs.length % w = r then [x] else [] := by
  rw [stride, zipIdx_append, filterMap_append, ← stride]
  by_cases h : xs.length % w = r <;> simp [h]

theorem stride_sublist (w r : Nat) (xs : List α) : (stride w r xs).Sublist xs := by
  induction xs using reverseRecOn with
  | nil => simp [stride]
  | append_singleton xs x ih =>
    rw [stride_concat]
    refine ih.append ?_
    by_cases h : xs.length % w = r <;> simp [h]

theorem length_stride (w r : Nat) (xs : List α) :
    (stride w r xs).length = Nat.count (fun i => i % w = r) xs.length := by
  induction xs using reverseRecOn with
  | nil => simp [stride]
  | append_singleton xs x ih =>
    rw [stride_concat, length_append, ih, length_append, length_singleton, Nat.count_succ]
    by_cases h : xs.length % w = r <;> simp [h]

theorem length_stride_eq {w r : Nat} (hr : r < w) (xs : List α) :
    (stride w r xs).length = xs.length / w + if r < xs.length % w then 1 else 0 := by
  have hw : 0 < w := Nat.zero_lt_of_lt hr
  have hcount := Nat.count_modEq_card xs.length hw r
  rw [length_stride]
  simpa only [Nat.ModEq, Nat.mod_eq_of_lt hr] using hcount

theorem flatMap_ite_eq {w k : Nat} (x : α) :
    k < w → (List.range w).flatMap (fun r => if k = r then [x] else []) = [x] := by
  intro hk
  induction w with
  | zero => omega
  | succ w ih =>
    rw [range_succ, flatMap_append]
    by_cases h : k = w
    · subst h
      have hnil : (range k).flatMap (fun r => if k = r then [x] else []) = [] := by
        rw [flatMap_eq_nil_iff]
        intro r hr
        rw [if_neg (Nat.ne_of_gt (mem_range.1 hr))]
      simp [hnil]
    · rw [ih (by omega)]
      simp [h]

theorem flatMap_stride_perm {w : Nat} (hw : 0 < w) (xs : List α) :
    ((List.range w).flatMap fun r => stride w r xs).Perm xs := by
  induction xs using reverseRecOn with
  | nil => simp [stride]
  | append_singleton xs x ih =>
    simp only [stride_concat]
    refine (flatMap_append_perm _ _ _).symm.trans ?_
    rw [flatMap_ite_eq x (Nat.mod_lt _ hw)]
    exact ih.append_right [x]

end Stride
