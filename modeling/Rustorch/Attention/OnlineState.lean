import Rustorch.Lib.Extended
import Rustorch.Lib.OnlineSoftmax

/-!
# Online softmax states

`online_softmax.rs`: a state is a running maximum and a sum of exponentials against it.  A tile is
run one score after the other (`onlineSoftmaxFull`), and the states of two tiles are combined
(`combineTiles`).

A masked score is `⊥`, and its value is `-∞`.  A tile that starts with a masked score subtracts
`-∞` from `-∞` in its first step, and its sum is NaN from there on.
-/

namespace Rustorch
namespace Attention

open List Multiset

open Extended (fin negInf nan ofScore)
open OnlineSoftmax (weight normalizer)

variable {F : Type}

structure OnlineSoftmaxState (F : Type) where
  m : Extended F
  l : Extended F
  deriving DecidableEq

open OnlineSoftmaxState

namespace OnlineSoftmaxState

section Code

variable [Field F] [LinearOrder F]

def EMPTY : OnlineSoftmaxState F where
  m := negInf
  l := fin 0

variable (exp : F → F)

def absorb (s : OnlineSoftmaxState F) (x : Extended F) : OnlineSoftmaxState F :=
  if Extended.lt s.m x then
    { m := x, l := s.l * Extended.exp exp (s.m - x) + fin 1 }
  else
    { s with l := s.l + Extended.exp exp (x - s.m) }

/-- No value is equal to NaN, so a NaN sum is not empty. -/
def isEmpty (s : OnlineSoftmaxState F) : Bool :=
  Extended.eq s.m negInf && Extended.eq s.l (fin 0)

end Code

end OnlineSoftmaxState

section Code

variable [Field F] [LinearOrder F] (exp : F → F)

def combineTiles (a b : OnlineSoftmaxState F) : OnlineSoftmaxState F :=
  if a.isEmpty then b
  else if b.isEmpty then a
  else
    let mNew := if Extended.lt b.m a.m then a.m else b.m
    if Extended.eq a.m mNew && Extended.eq b.m mNew then
      { m := mNew, l := a.l + b.l }
    else if Extended.eq a.m mNew then
      { m := mNew, l := a.l + b.l * Extended.exp exp (b.m - mNew) }
    else
      { m := mNew, l := a.l * Extended.exp exp (a.m - mNew) + b.l }

def onlineSoftmaxFull (xs : List (Extended F)) : OnlineSoftmaxState F :=
  xs.foldl (absorb exp) .EMPTY

end Code

/-! ## What a state stands for -/

section States

variable [Field F] [LinearOrder F] (exp : F → F)

/-- The state of some scores: their maximum, and the sum of the weights against it. -/
def stateOf (s : Multiset (WithBot F)) : OnlineSoftmaxState F where
  m := ofScore s.sup
  l := fin (normalizer exp s)

/-- Tiles, and the order in which their states are combined. -/
inductive Bracketing (F : Type)
  | empty
  | tile (xs : List (WithBot F))
  | combine (s t : Bracketing F)

/-- The tiles from left to right. -/
def Bracketing.tiles : Bracketing F → List (List (WithBot F))
  | .empty => []
  | .tile xs => [xs]
  | .combine s t => s.tiles ++ t.tiles

def Bracketing.run : Bracketing F → OnlineSoftmaxState F
  | .empty => .EMPTY
  | .tile xs => onlineSoftmaxFull exp (xs.map ofScore)
  | .combine s t => combineTiles exp s.run t.run

variable {exp}

theorem isEmpty_stateOf {s : Multiset (WithBot F)} :
    (stateOf exp s).isEmpty = true ↔ s.sup = ⊥ := by
  unfold OnlineSoftmaxState.isEmpty stateOf
  cases hm : s.sup using WithBot.recBotCoe with
  | bot => simp [Extended.eq, OnlineSoftmax.normalizer_of_sup_eq_bot hm]
  | coe m => simp [Extended.eq]

section Exponential

variable (hadd : ∀ x y, exp (x + y) = exp x * exp y) (hzero : exp 0 = 1)
include hadd hzero

/-- A step from a state of scores, unless it would compare two masked ones. -/
theorem absorb_stateOf {s : Multiset (WithBot F)} {x : WithBot F} (hx : ¬(s.sup = ⊥ ∧ x = ⊥)) :
    absorb exp (stateOf exp s) (ofScore x) = stateOf exp (x ::ₘ s) := by
  have hcons := OnlineSoftmax.normalizer_cons hadd x s
  have hone : exp (0 : F) = 1 := hzero
  unfold absorb stateOf
  rw [Extended.lt_ofScore, sup_cons, sup_comm, hcons]
  by_cases hlt : s.sup < x
  · obtain ⟨a, rfl⟩ := WithBot.ne_bot_iff_exists.1 (bot_le.trans_lt hlt).ne'
    rw [if_pos (decide_eq_true hlt), sup_eq_right.2 hlt.le, OnlineSoftmax.weight_coe, sub_self,
      hone]
    cases hm : s.sup using WithBot.recBotCoe with
    | bot => simp
    | coe m => simp
  · rw [if_neg (by simpa using hlt), sup_eq_left.2 (not_lt.1 hlt)]
    cases hm : s.sup using WithBot.recBotCoe with
    | bot =>
      rw [hm] at hlt hx
      exact absurd ⟨rfl, le_bot_iff.1 (not_lt.1 hlt)⟩ hx
    | coe m =>
      rw [OnlineSoftmax.weight_coe, sub_self, hone, mul_one]
      cases x using WithBot.recBotCoe with
      | bot => simp
      | coe a => simp

theorem combineTiles_stateOf (s t : Multiset (WithBot F)) :
    combineTiles exp (stateOf exp s) (stateOf exp t) = stateOf exp (s + t) := by
  have hself : ∀ m : F, weight exp m m = 1 := by
    intro m
    rw [OnlineSoftmax.weight_coe, sub_self, hzero]
  have hsum := OnlineSoftmax.normalizer_add hadd s t
  have hright : ∀ u : Multiset (WithBot F),
      normalizer exp u * weight exp u.sup u.sup = normalizer exp u := by
    intro u
    cases hm : u.sup using WithBot.recBotCoe with
    | bot => rw [OnlineSoftmax.normalizer_of_sup_eq_bot hm, zero_mul]
    | coe m => rw [hself, mul_one]
  have hstate : stateOf exp (s + t) =
      { m := ofScore (s.sup ⊔ t.sup)
        l := fin (normalizer exp s * weight exp (s.sup ⊔ t.sup) s.sup +
          normalizer exp t * weight exp (s.sup ⊔ t.sup) t.sup) } := by
    rw [stateOf, Multiset.sup_add, hsum]
  rw [hstate]
  unfold combineTiles
  split
  · next hempty =>
      have hs := isEmpty_stateOf.1 hempty
      rw [hs, bot_sup_eq, OnlineSoftmax.weight_bot_right, mul_zero, zero_add, hright, stateOf]
  · next hs =>
      split
      · next hempty =>
          have ht := isEmpty_stateOf.1 hempty
          rw [ht, sup_bot_eq, OnlineSoftmax.weight_bot_right, mul_zero, add_zero, hright, stateOf]
      · next ht =>
          obtain ⟨a, ha⟩ := WithBot.ne_bot_iff_exists.1 (fun h => hs (isEmpty_stateOf.2 h))
          obtain ⟨b, hb⟩ := WithBot.ne_bot_iff_exists.1 (fun h => ht (isEmpty_stateOf.2 h))
          simp only [stateOf, ← ha, ← hb, ← WithBot.coe_sup, Extended.ofScore_coe,
            OnlineSoftmax.weight_coe]
          rcases lt_trichotomy a b with hlt | rfl | hgt
          · have hne : a ≠ b := hlt.ne
            simp [Extended.lt, Extended.eq, hlt.not_gt, hne, sup_eq_right.2 hlt.le, hzero]
          · simp [Extended.lt, Extended.eq, hzero]
          · have hne : b ≠ a := hgt.ne
            simp [Extended.lt, Extended.eq, hgt, hne, sup_eq_left.2 hgt.le, hzero]

theorem onlineSoftmaxFull_eq {xs : List (WithBot F)} (hhead : xs.head? ≠ some ⊥) :
    onlineSoftmaxFull exp (xs.map ofScore) = stateOf exp xs := by
  have hrun : ∀ (ys zs : List (WithBot F)), (zs : Multiset (WithBot F)).sup ≠ ⊥ →
      (ys.map ofScore).foldl (absorb exp) (stateOf exp zs) =
        stateOf exp ((zs ++ ys : List (WithBot F)) : Multiset (WithBot F)) := by
    intro ys
    induction ys with
    | nil =>
      intro zs _
      rw [append_nil]
      rfl
    | cons y ys ih =>
      intro zs hzs
      have hstep : y ::ₘ (zs : Multiset (WithBot F)) = ((zs ++ [y] : List _) : Multiset _) := by
        rw [← coe_add, coe_singleton, add_comm, singleton_add]
      rw [List.map_cons, List.foldl_cons, absorb_stateOf hadd hzero fun h => hzs h.1, hstep,
        ih, append_assoc]
      · rfl
      · rw [← hstep, sup_cons]
        intro hbot
        exact hzs (sup_eq_bot_iff.1 hbot).2
  cases xs with
  | nil => rfl
  | cons x xs =>
    have hx : x ≠ ⊥ := fun h => hhead (by rw [h]; rfl)
    have hempty : (OnlineSoftmaxState.EMPTY : OnlineSoftmaxState F) = stateOf exp 0 := rfl
    have hfirst : x ::ₘ (0 : Multiset (WithBot F)) = ([x] : List (WithBot F)) := rfl
    rw [onlineSoftmaxFull, List.map_cons, List.foldl_cons, hempty,
      absorb_stateOf hadd hzero fun h => hx h.2, hfirst, hrun xs [x]]
    · rfl
    · rw [← hfirst, sup_cons]
      intro hbot
      exact hx (sup_eq_bot_iff.1 hbot).1

end Exponential

/-! ## A tile that starts with a masked score -/

theorem absorb_nan {s : OnlineSoftmaxState F} (hs : s.l = nan) (x : Extended F) :
    (s.absorb exp x).l = nan := by
  unfold absorb
  split
  · simp [hs]
  · simp [hs]

theorem onlineSoftmaxFull_nan (xs : List (WithBot F)) :
    (onlineSoftmaxFull exp ((⊥ :: xs).map ofScore)).l = nan := by
  have hrun : ∀ (ys : List (Extended F)) (s : OnlineSoftmaxState F), s.l = nan →
      (ys.foldl (absorb exp) s).l = nan := by
    intro ys
    induction ys with
    | nil => exact fun s hs => hs
    | cons y ys ih => exact fun s hs => ih _ (absorb_nan hs y)
  refine hrun (xs.map ofScore) (absorb exp .EMPTY negInf) ?_
  change fin 0 + Extended.exp exp (negInf - negInf) = nan
  simp

theorem combineTiles_nan {a b : OnlineSoftmaxState F} (hnan : a.l = nan ∨ b.l = nan) :
    (combineTiles exp a b).l = nan := by
  have hempty : ∀ s : OnlineSoftmaxState F, s.l = nan → s.isEmpty = false := by
    intro s hs
    simp [OnlineSoftmaxState.isEmpty, hs, Extended.eq]
  unfold combineTiles
  dsimp only
  generalize (if Extended.lt b.m a.m then a.m else b.m) = mNew
  rcases hnan with ha | hb
  · rw [hempty a ha, if_neg Bool.false_ne_true]
    split
    · exact ha
    · split
      · simp [ha]
      · split
        · simp [ha]
        · simp [ha]
  · rw [hempty b hb]
    split
    · exact hb
    · rw [if_neg Bool.false_ne_true]
      split
      · simp [hb]
      · split
        · simp [hb]
        · simp [hb]

/-! ## Tiles in any order -/

variable {t : Bracketing F}

theorem Bracketing.run_nan : (∃ tile ∈ t.tiles, tile.head? = some ⊥) → (t.run exp).l = nan := by
  induction t with
  | empty =>
    rintro ⟨tile, htile, _⟩
    cases htile
  | tile xs =>
    rintro ⟨tile, htile, hhead⟩
    obtain rfl := List.mem_singleton.1 htile
    obtain ⟨ys, rfl⟩ := head?_eq_some_iff.1 hhead
    exact onlineSoftmaxFull_nan ys
  | combine s t ihs iht =>
    rintro ⟨tile, htile, hhead⟩
    rcases mem_append.1 htile with hs | ht
    · exact combineTiles_nan (Or.inl (ihs ⟨tile, hs, hhead⟩))
    · exact combineTiles_nan (Or.inr (iht ⟨tile, ht, hhead⟩))

theorem Bracketing.run_eq (hadd : ∀ x y, exp (x + y) = exp x * exp y) (hzero : exp 0 = 1) :
    (∀ tile ∈ t.tiles, tile.head? ≠ some ⊥) →
      t.run exp = stateOf exp (t.tiles.flatten : List (WithBot F)) := by
  induction t with
  | empty => exact fun _ => rfl
  | tile xs =>
    intro hheads
    rw [Bracketing.run, onlineSoftmaxFull_eq hadd hzero (hheads xs (List.mem_singleton_self xs)),
      Bracketing.tiles, flatten_singleton]
  | combine s t ihs iht =>
    intro hheads
    rw [Bracketing.run, ihs fun tile h => hheads tile (mem_append_left _ h),
      iht fun tile h => hheads tile (mem_append_right _ h),
      combineTiles_stateOf hadd hzero, coe_add, Bracketing.tiles, flatten_append]

/-- Tiles combined in any order give the state of all scores just when no tile starts with a
masked score. -/
theorem run_eq_stateOf_iff (hadd : ∀ x y, exp (x + y) = exp x * exp y) (hzero : exp 0 = 1)
    (tiles : List (List (WithBot F))) (t : Bracketing F) (ht : t.tiles.Perm tiles) :
    t.run exp = stateOf exp (tiles.flatten : List (WithBot F)) ↔
      ∀ tile ∈ tiles, tile.head? ≠ some ⊥ := by
  have hscores : (t.tiles.flatten : Multiset (WithBot F)) = tiles.flatten :=
    coe_eq_coe.2 ht.flatten
  constructor
  · intro hrun tile htile hhead
    have hnan := @Bracketing.run_nan F _ _ exp t ⟨tile, ht.mem_iff.2 htile, hhead⟩
    rw [hrun] at hnan
    cases hnan
  · intro hheads
    rw [← hscores]
    exact Bracketing.run_eq hadd hzero fun tile htile => hheads tile (ht.mem_iff.1 htile)

theorem run_eq_stateOf_iff_pair :
    (Bracketing.combine (.tile [2]) (.tile [1, ⊥])).run (fun _ : ℚ => 1) =
      stateOf (fun _ : ℚ => 1) ([1, ⊥, 2] : List (WithBot ℚ)) :=
  (run_eq_stateOf_iff (fun _ _ => (mul_one 1).symm) rfl [[1, ⊥], [2]]
    (.combine (.tile [2]) (.tile [1, ⊥])) (Perm.swap _ _ [])).2 (by decide)

/-- A row of masked scores alone is not the empty state. -/
theorem masked_row_not_stateOf :
    ¬∀ exp : ℚ → ℚ, (∀ x y, exp (x + y) = exp x * exp y) → exp 0 = 1 →
      ∀ (tiles : List (List (WithBot ℚ))) (t : Bracketing ℚ), t.tiles.Perm tiles →
        t.run exp = stateOf exp (tiles.flatten : List (WithBot ℚ)) := by
  intro h
  have hrun := h (fun _ => 1) (fun _ _ => (mul_one 1).symm) rfl [[⊥]] (.tile [⊥]) (Perm.refl _)
  have hnan : ((Bracketing.tile [⊥]).run fun _ : ℚ => 1).l = nan := onlineSoftmaxFull_nan []
  rw [hrun] at hnan
  cases hnan

end States

end Attention
end Rustorch
