import Mathlib.Data.Int.ModEq
import Rustorch.Lib.MixedRadix

/-!
# Swapping two places of a list

Lists of one length swap together: a swap commutes with maps, with cell by cell operations and with
relations that hold place by place.
-/

namespace Rustorch
namespace AxisSwap

open List

variable {α β γ : Type} {d e : Nat} {xs : List α} {ys : List β}

/-- The list with the places `d` and `e` swapped, if it has both. -/
def swapAt (d e : Nat) (xs : List α) : List α :=
  match xs[d]?, xs[e]? with
  | some a, some b => (xs.set d b).set e a
  | _, _ => xs

theorem swapAt_eq (hd : d < xs.length) (he : e < xs.length) :
    swapAt d e xs = (xs.set d xs[e]).set e xs[d] := by
  simp [swapAt, hd, he]

theorem swapAt_perm (d e : Nat) (xs : List α) : (swapAt d e xs).Perm xs := by
  by_cases hd : d < xs.length
  · by_cases he : e < xs.length
    · rw [swapAt_eq hd he]
      exact set_set_perm hd he
    · simp [swapAt, he]
  · simp [swapAt, hd]

@[simp] theorem length_swapAt (d e : Nat) (xs : List α) : (swapAt d e xs).length = xs.length :=
  (swapAt_perm d e xs).length_eq

theorem getElem?_swapAt (hd : d < xs.length) (he : e < xs.length) (i : Nat) :
    (swapAt d e xs)[i]? = xs[Equiv.swap d e i]? := by
  rw [swapAt_eq hd he, getElem?_set, getElem?_set, Equiv.swap_apply_def]
  by_cases hi : e = i
  · subst hi
    by_cases hde : e = d
    · subst hde
      simp [hd]
    · simp [hde, hd, he]
  · by_cases hid : d = i
    · subst hid
      simp [hi, hd, he]
    · simp [hi, hid, Ne.symm hi, Ne.symm hid]

theorem swapAt_swapAt (hd : d < xs.length) (he : e < xs.length) :
    swapAt d e (swapAt d e xs) = xs := by
  refine ext_getElem? fun i => ?_
  rw [getElem?_swapAt (by simpa) (by simpa), getElem?_swapAt hd he, Equiv.swap_apply_self]

theorem map_swapAt (f : α → β) (hd : d < xs.length) (he : e < xs.length) :
    (swapAt d e xs).map f = swapAt d e (xs.map f) := by
  refine ext_getElem? fun i => ?_
  rw [getElem?_map, getElem?_swapAt hd he, getElem?_swapAt (by simpa) (by simpa), getElem?_map]

theorem zipWith_swapAt (f : α → β → γ) (hlen : xs.length = ys.length) (hd : d < xs.length)
    (he : e < xs.length) :
    zipWith f (swapAt d e xs) (swapAt d e ys) = swapAt d e (zipWith f xs ys) := by
  have hd' : d < ys.length := hlen ▸ hd
  have he' : e < ys.length := hlen ▸ he
  refine ext_getElem? fun i => ?_
  rw [getElem?_zipWith, getElem?_swapAt hd he, getElem?_swapAt hd' he',
    getElem?_swapAt (by simp; omega) (by simp; omega), getElem?_zipWith]

theorem forall₂_swapAt {R : α → β → Prop} (h : Forall₂ R xs ys) (hd : d < xs.length)
    (he : e < xs.length) : Forall₂ R (swapAt d e xs) (swapAt d e ys) := by
  rw [forall₂_iff_zip] at h ⊢
  obtain ⟨hlen, hall⟩ := h
  refine ⟨by simpa, fun {a b} hab => hall ?_⟩
  rw [zip, zipWith_swapAt Prod.mk hlen hd he] at hab
  exact (swapAt_perm d e _).mem_iff.1 hab

end AxisSwap
end Rustorch

/-!
# Motions of one axis

The cells of an axis may be turned, as on a ring, and mirrored.  Turns add up, a full turn is none,
a mirror is its own inverse, and a turn passes through a mirror as the turn the other way.  A motion
of an axis acts on the multi-indices of a box with that axis.
-/

namespace AxisMotion

/-! ## One axis -/

section Axis

variable {n c : Nat}

/-- The cell `s` places before a cell, on a ring of `n` cells. -/
def rotate (n : Nat) (s : Int) (c : Nat) : Nat :=
  (((c : Int) - s) % n).toNat

/-- `n - 1 - c`. -/
def mirror (n c : Nat) : Nat :=
  n - 1 - c

theorem cast_rotate (hn : 0 < n) (s : Int) (c : Nat) :
    (rotate n s c : Int) = ((c : Int) - s) % n := by
  rw [rotate, Int.toNat_of_nonneg (Int.emod_nonneg _ (by omega))]

theorem rotate_lt (hn : 0 < n) (s : Int) (c : Nat) : rotate n s c < n := by
  have hlt := Int.emod_lt_of_pos ((c : Int) - s) (by omega : (0 : Int) < n)
  rw [← cast_rotate hn] at hlt
  exact_mod_cast hlt

/-- The only cell of its residue. -/
theorem rotate_eq {m : Nat} {s : Int} : m < n → (m : Int) ≡ c - s [ZMOD n] → rotate n s c = m := by
  intro hm hmod
  refine Int.natCast_inj.1 ?_
  rw [cast_rotate (Nat.zero_lt_of_lt hm), ← hmod.eq, Int.emod_eq_of_lt (by omega) (by omega)]

/-- Turns add up. -/
theorem rotate_rotate (hn : 0 < n) (s t : Int) (c : Nat) :
    rotate n s (rotate n t c) = rotate n (t + s) c := by
  refine rotate_eq (rotate_lt hn _ c) ?_
  rw [cast_rotate hn, cast_rotate hn, ← sub_sub]
  exact (Int.mod_modEq _ _).trans ((Int.mod_modEq _ _).symm.sub_right s)

/-- Full turns are none. -/
theorem rotate_mul (k : Int) : c < n → rotate n (k * n) c = c := by
  intro hc
  rw [rotate, Int.sub_mul_emod_self_right, Int.emod_eq_of_lt (by omega) (by omega),
    Int.toNat_natCast]

theorem mirror_lt (hn : 0 < n) (c : Nat) : mirror n c < n := by
  unfold mirror
  omega

theorem mirror_mirror : c < n → mirror n (mirror n c) = c := by
  intro hc
  unfold mirror
  omega

theorem cast_mirror : c < n → (mirror n c : Int) = n - 1 - c := by
  intro hc
  unfold mirror
  omega

/-- A turn passes through a mirror as the turn the other way. -/
theorem rotate_mirror (s : Int) : c < n → rotate n s (mirror n c) = mirror n (rotate n (-s) c) := by
  intro hc
  have hn : 0 < n := Nat.zero_lt_of_lt hc
  refine rotate_eq (mirror_lt hn _) ?_
  rw [cast_mirror (rotate_lt hn (-s) c), cast_mirror hc, cast_rotate hn, sub_neg_eq_add, sub_sub _ (c : Int)]
  exact (Int.mod_modEq _ _).sub_left _

end Axis

/-! ## Multi-indices -/

section Boxes

variable {S I : List Nat} {d : Nat}

variable {φ : Nat → Nat}

theorem bounded_modify (hI : MixedRadix.Bounded S I) :
    (∀ c < S.getD d 0, φ c < S.getD d 0) → MixedRadix.Bounded S (I.modify d φ) := by
  induction hI generalizing d with
  | nil =>
    intro _
    rw [List.modify_nil]
    exact .nil
  | cons hc htail ih =>
    intro hφ
    cases d with
    | zero => exact .cons (hφ _ hc) htail
    | succ d => exact .cons hc (ih hφ)

/-- Motions of one axis that agree on its cells. -/
theorem modify_congr {ψ : Nat → Nat} (hI : MixedRadix.Bounded S I) :
    (∀ c < S.getD d 0, φ c = ψ c) → I.modify d φ = I.modify d ψ := by
  induction hI generalizing d with
  | nil =>
    intro _
    rw [List.modify_nil, List.modify_nil]
  | cons hc htail ih =>
    intro hφ
    cases d with
    | zero => rw [List.modify_zero_cons, List.modify_zero_cons, hφ _ hc]
    | succ d => rw [List.modify_succ_cons, List.modify_succ_cons, ih hφ]

/-- A motion that leaves the cells of its axis where they are. -/
theorem modify_eq_self (hI : MixedRadix.Bounded S I) :
    (∀ c < S.getD d 0, φ c = c) → I.modify d φ = I := by
  intro hφ
  exact (modify_congr hI hφ).trans (List.modify_id d I)

/-- A mirror along one axis. -/
def mirrorAt (S : List Nat) (d : Nat) (I : List Nat) : List Nat :=
  I.modify d (mirror (S.getD d 0))

/-- Mirrors along several axes, one after the other. -/
def mirrorAll (S dims I : List Nat) : List Nat :=
  dims.foldl (fun I d => mirrorAt S d I) I

theorem mirrorAt_comm (S : List Nat) (d e : Nat) (I : List Nat) :
    mirrorAt S d (mirrorAt S e I) = mirrorAt S e (mirrorAt S d I) := by
  by_cases hde : e = d
  · rw [hde]
  · exact List.modify_modify_ne _ _ I hde

theorem mirrorAt_mirrorAt (d : Nat) : MixedRadix.Bounded S I → mirrorAt S d (mirrorAt S d I) = I := by
  intro hI
  rw [mirrorAt, mirrorAt, List.modify_modify_eq]
  exact modify_eq_self hI fun c hc => mirror_mirror hc

theorem bounded_mirrorAt (d : Nat) :
    MixedRadix.Bounded S I → MixedRadix.Bounded S (mirrorAt S d I) := by
  intro hI
  exact bounded_modify hI fun c hc => mirror_lt (Nat.zero_lt_of_lt hc) c

theorem bounded_mirrorAll (dims : List Nat) :
    ∀ {I : List Nat}, MixedRadix.Bounded S I → MixedRadix.Bounded S (mirrorAll S dims I) := by
  induction dims with
  | nil =>
    intro I hI
    exact hI
  | cons d dims ih =>
    intro I hI
    exact ih (bounded_mirrorAt d hI)

theorem mirrorAll_mirrorAt (dims : List Nat) (d : Nat) :
    ∀ I : List Nat, mirrorAll S dims (mirrorAt S d I) = mirrorAt S d (mirrorAll S dims I) := by
  induction dims with
  | nil =>
    intro I
    rfl
  | cons e dims ih =>
    intro I
    rw [mirrorAll, List.foldl_cons, mirrorAt_comm]
    exact ih _

theorem mirrorAll_mirrorAll (dims : List Nat) :
    ∀ {I : List Nat}, MixedRadix.Bounded S I → mirrorAll S dims (mirrorAll S dims I) = I := by
  induction dims with
  | nil =>
    intro I _
    rfl
  | cons d dims ih =>
    intro I hI
    have hstep : ∀ J, mirrorAll S (d :: dims) J = mirrorAll S dims (mirrorAt S d J) := fun _ => rfl
    rw [hstep, hstep, ← mirrorAll_mirrorAt, mirrorAt_mirrorAt d hI, ih hI]

end Boxes

end AxisMotion
