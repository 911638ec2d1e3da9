import Rustorch.Cpu.Coords
import Rustorch.Lib.AxisMotion

/-!
# Roll and flip

Both kernels read each element of the output from a moved multi-index of the input: `roll` turns one
axis, `flip` mirrors the listed ones.  `roll` reduces its signed shift by the axis size in 64-bit
arithmetic, which is exact for axes of at most `2^62` elements.
-/

namespace Rustorch
namespace Cpu

open Rustorch.Core AxisMotion List Option Outcome Layout

/-! ## The kernels -/

section Model

variable {α : Type}

/-- `a % b` on `i64`. -/
def remI64 (a b : Int) : Outcome BackendError Int :=
  if b = 0 ∨ (a = -(2 ^ 63) ∧ b = -1) then
    .panic
  else
    .ok (a.tmod b)

/-- The loop of both kernels: every output element is read at a moved multi-index. -/
def readMoved (T : Dtype) (src : Tensor α) (move : List Nat → Option (List Nat)) :
    Outcome BackendError (Tensor α) := do
  let buf ← collect T src
  let n := src.numel
  withCapacity T n
  let out ← (List.range n).mapM fun linear => Outcome.expect do
    let coords ← decodeChecked linear src.shape
    let coords ← move coords
    buf[flatIndex coords (contiguousStrides src.shape)]?
  fromVecOrOom T src.shape out n

/-- `for &d in dims { coords[d] = shape[d] - 1 - coords[d] }`. -/
def flipCoords (shape : Shape) (dims coords : List Nat) : Option (List Nat) :=
  dims.foldlM (fun coords d => do
    let n ← shape[d]?
    let c ← coords[d]?
    some (coords.set d (n - 1 - c))) coords

def flipTyped (T : Dtype) (src : Tensor α) (dims : List Nat) : Outcome BackendError (Tensor α) :=
  readMoved T src (flipCoords src.shape dims)

/-- `coords[dim] = (coords[dim] + dim_size - s) % dim_size`, for `s` in `u64`. -/
def rollCoords (shape : Shape) (s dim : Nat) (coords : List Nat) : Option (List Nat) := do
  let dimSize ← shape[dim]?
  let c ← coords[dim]?
  if dimSize = 0 then
    none
  else
    some (coords.set dim ((c + dimSize + u64Size - s) % u64Size % dimSize))

def rollTyped (T : Dtype) (src : Tensor α) (s dim : Nat) : Outcome BackendError (Tensor α) :=
  readMoved T src (rollCoords src.shape s dim)

/-- The element types that `flip` and `roll` have an arm for. -/
def movable (T : Dtype) : Bool :=
  T = .f32 ∨ T = .f64 ∨ T = .i64 ∨ T = .i32 ∨ T = .i8 ∨ T = .bool

def flip (src : Tensor α) (dims : List Nat) : Outcome BackendError (Tensor α) := do
  let _ ← dims.mapM fun d =>
    if src.shape.length ≤ d then
      .err (.indexOutOfBounds "flip" d src.shape.length)
    else
      .ok ()
  if movable src.layout.dtype then
    flipTyped src.layout.dtype src dims
  else
    .err (.dtypeMismatch "flip" src.layout.dtype src.layout.dtype)

def roll (src : Tensor α) (shifts : Int) (dim : Nat) : Outcome BackendError (Tensor α) :=
  if src.shape.length ≤ dim then
    .err (.indexOutOfBounds "roll" dim src.shape.length)
  else
    let n := asI64 (src.shape.getD dim 0)
    if n = 0 then
      Outcome.expect src.contiguous
    else do
      let r ← remI64 shifts n
      let s ← remI64 (wrapI64 (r + n)) n
      if movable src.layout.dtype then
        rollTyped src.layout.dtype src (asU64 s) dim
      else
        .err (.dtypeMismatch "roll" src.layout.dtype src.layout.dtype)

end Model

/-! ## Moved tensors -/

section Moved

variable {α : Type} {src : Tensor α} {T : Dtype} {S : Shape} {f : Nat → α}

/-- The row-major tensor of the elements at moved multi-indices. -/
def moved (T : Dtype) (S : Shape) (f : Nat → α) (σ : List Nat → List Nat) : Tensor α where
  storage := (List.range S.prod).map fun l => f (linearOf S (σ (coordsOf S l)))
  layout := contiguous S T

theorem moved_holds {σ : List Nat → List Nat} (h : S.prod * T.byteSize < 2 ^ 63) :
    Holds (moved T S f σ) T S (fun l => f (linearOf S (σ (coordsOf S l)))) :=
  (@contiguous_fresh α T S _ 0 h).2.holds

/-- One motion after another. -/
theorem moved_moved {σ τ : List Nat → List Nat} (h0 : 0 ∉ S)
    (hτ : ∀ I, InBounds S I → InBounds S (τ I)) :
    moved T S (fun l => f (linearOf S (σ (coordsOf S l)))) τ = moved T S f (fun I => σ (τ I)) := by
  rw [moved, moved]
  congr 1
  refine map_congr_left ?_
  intro l _
  rw [coordsOf_linearOf (hτ _ (inBounds_coordsOf h0))]

theorem moved_congr {σ τ : List Nat → List Nat} (h0 : 0 ∉ S)
    (hστ : ∀ I, InBounds S I → σ I = τ I) : moved T S f σ = moved T S f τ := by
  rw [moved, moved]
  congr 1
  refine map_congr_left ?_
  intro l _
  rw [hστ _ (inBounds_coordsOf h0)]

theorem moved_elements {σ : List Nat → List Nat} (h : Holds src T S f) (h0 : 0 ∉ S)
    (hσ : ∀ I, InBounds S I → σ I = I) : (moved T S f σ).elements = src.elements := by
  refine (@moved_holds α T S f σ h.bytes).elements_eq h ?_
  intro l hl
  rw [hσ _ (inBounds_coordsOf h0), linearOf_coordsOf hl]

theorem readMoved_eq {move : List Nat → Option (List Nat)} {σ : List Nat → List Nat}
    (h : Holds src T S f) (h0 : 0 ∉ S)
    (hmove : ∀ I, InBounds S I → move I = some (σ I) ∧ InBounds S (σ I)) :
    readMoved T src move = .ok (moved T S f σ) := by
  have hread : (range S.prod).mapM (fun linear => (expect do
      let coords ← decodeChecked linear S
      let coords ← move coords
      ((range S.prod).map f)[flatIndex coords (contiguousStrides S)]? :
        Outcome BackendError α)) =
      .ok ((range S.prod).map fun l => f (linearOf S (σ (coordsOf S l)))) := by
    refine mapM_eq_ok ?_
    intro l _
    obtain ⟨hσ, hin⟩ := hmove _ (@inBounds_coordsOf S l h0)
    have hget : ((range S.prod).map f)[linearOf S (σ (coordsOf S l))]? =
        some (f (linearOf S (σ (coordsOf S l)))) := by
      rw [getElem?_map, getElem?_range (linearOf_lt hin)]
      rfl
    rw [decodeChecked_eq, if_neg h0, bind_eq_bind, bind_some, hσ, bind_some,
      flatIndex_eq hin (prod_lt_of_bytes h.bytes), hget]
    rfl
  have hcap : withCapacity T S.prod = .ok () := withCapacity_ok h.bytes
  simp only [readMoved, collect_holds h, h.shape, h.numel, hcap, ok_bind, hread]
  exact (contiguous_fresh h.bytes).1

/-! ## The motions of the kernels -/

variable {dims : List Nat}

theorem flipCoords_eq (hdims : ∀ d ∈ dims, d < S.length) : ∀ {I : List Nat}, InBounds S I →
      flipCoords S dims I = some (mirrorAll S dims I) := by
  induction dims with
  | nil =>
    intro I _
    rfl
  | cons d dims ih =>
    intro I hI
    have hd : d < S.length := hdims d mem_cons_self
    have hdI : d < I.length := hI.length_eq ▸ hd
    have hset : I.set d (S[d] - 1 - I[d]) = mirrorAt S d I := by
      rw [mirrorAt, modify_eq_set, getElem?_eq_getElem hdI, getD_eq_getElem _ _ hd]
      rfl
    have hrest := ih (fun e he => hdims e (mem_cons_of_mem d he))
      (bounded_mirrorAt d hI)
    rw [flipCoords, foldlM_cons, getElem?_eq_getElem hd, getElem?_eq_getElem hdI]
    simp only [bind_eq_bind, bind_some, hset]
    exact hrest

theorem rollCoords_eq {dim : Nat} {a : Int} (hdim : dim < S.length)
    (hsize : S.getD dim 0 ≤ 2 ^ 62) {I : List Nat} (hI : InBounds S I) :
    rollCoords S (a % (S.getD dim 0 : Nat)).toNat dim I =
      some (I.modify dim (rotate (S.getD dim 0) a)) := by
  have hdI : dim < I.length := hI.length_eq ▸ hdim
  have hcell : I[dim] < S[dim] := (forall₂_iff_get.1 hI).2 dim hdim hdI
  rw [getD_eq_getElem _ _ hdim] at hsize ⊢
  rw [rollCoords, getElem?_eq_getElem hdim, getElem?_eq_getElem hdI]
  simp only [bind_eq_bind, bind_some, if_neg (Nat.ne_zero_of_lt hcell)]
  generalize S[dim] = n at hsize hcell ⊢
  have hn : 0 < n := Nat.zero_lt_of_lt hcell
  have hnonneg := Int.emod_nonneg a (by omega : (n : Int) ≠ 0)
  have hlt := Int.emod_lt_of_pos a (by omega : (0 : Int) < n)
  have hwrap : (I[dim] + n + u64Size - (a % (n : Int)).toNat) % u64Size =
      I[dim] + n - (a % (n : Int)).toNat := by
    unfold u64Size
    omega
  have hturn : rotate n a I[dim] = (I[dim] + n - (a % (n : Int)).toNat) % n := by
    refine rotate_eq (Nat.mod_lt _ hn) ?_
    have hcast : ((I[dim] + n - (a % (n : Int)).toNat : Nat) : Int) = I[dim] - a % n + n := by
      omega
    rw [Int.natCast_mod, hcast]
    refine (Int.mod_modEq _ _).trans ?_
    refine (Int.add_modEq_right).trans ?_
    exact (Int.mod_modEq a n).sub_left _
  rw [hwrap, modify_eq_set, getElem?_eq_getElem hdI, getD_some, hturn]

theorem shift_eq {n : Nat} {a : Int} (hn : 0 < n) (hsize : n ≤ 2 ^ 62) :
    (do
      let r ← remI64 a n
      remI64 (wrapI64 (r + n)) n) = .ok (a % (n : Int)) := by
  have hne : ∀ b : Int, ¬ ((n : Int) = 0 ∨ (b = -(2 ^ 63) ∧ (n : Int) = -1)) := by
    intro b
    omega
  have hnonneg := Int.emod_nonneg a (by omega : (n : Int) ≠ 0)
  have hlt := Int.emod_lt_of_pos a (by omega : (0 : Int) < n)
  have hrem : a.tmod n = a % n ∨ a.tmod n = a % n - n := by
    rw [Int.tmod_eq_emod]
    split_ifs
    · exact Or.inl (by omega)
    · exact Or.inr (by omega)
  rw [remI64, if_neg (hne _), ok_bind, remI64, if_neg (hne _),
    wrapI64_eq_self (by omega) (by omega)]
  refine congrArg ok ?_
  rw [Int.tmod_eq_emod_of_nonneg (by omega)]
  rcases hrem with hrem | hrem <;> rw [hrem]
  · rw [Int.add_emod_right, Int.emod_emod_of_dvd _ (dvd_refl _)]
  · rw [sub_add_cancel, Int.emod_emod_of_dvd _ (dvd_refl _)]

/-- A roll whose reduced shift moves the multi-indices by `σ`. -/
theorem roll_moved {dim : Nat} {a s : Int} {σ : List Nat → List Nat} (h : Holds src T S f)
    (h0 : 0 ∉ S) (harm : movable T = true) (hdim : dim < S.length) (hsize : S.getD dim 0 < 2 ^ 63)
    (hshift : (do
      let r ← remI64 a (S.getD dim 0 : Nat)
      remI64 (wrapI64 (r + (S.getD dim 0 : Nat))) (S.getD dim 0 : Nat)) = .ok s)
    (hσ : ∀ I, InBounds S I → rollCoords S (asU64 s) dim I = some (σ I) ∧ InBounds S (σ I)) :
    roll src a dim = .ok (moved T S f σ) := by
  have hne : ¬ ((S.getD dim 0 : Nat) : Int) = 0 := by
    rw [getD_eq_getElem _ _ hdim]
    intro hzero
    exact h0 (Int.natCast_eq_zero.1 hzero ▸ getElem_mem hdim)
  have hrolled : rollTyped T src (asU64 s) dim = .ok (moved T S f σ) := by
    rw [rollTyped, h.shape]
    exact readMoved_eq h h0 hσ
  obtain ⟨r, hr, hs⟩ := bind_eq_ok.1 hshift
  rw [roll, h.shape, if_neg (not_le.2 hdim)]
  simp only [asI64_eq_self hsize, if_neg hne, hr, hs, ok_bind, h.dtype, harm, if_true, hrolled]

theorem axis_pos {dim : Nat} (h0 : 0 ∉ S) (hdim : dim < S.length) : 0 < S.getD dim 0 := by
  rw [getD_eq_getElem _ _ hdim]
  exact Nat.pos_of_ne_zero fun hzero => h0 (hzero ▸ getElem_mem hdim)

theorem roll_eq {dim : Nat} {a : Int} (h : Holds src T S f) (h0 : 0 ∉ S)
    (harm : movable T = true) (hdim : dim < S.length) (hsize : S.getD dim 0 ≤ 2 ^ 62) :
    roll src a dim = .ok (moved T S f fun I => I.modify dim (rotate (S.getD dim 0) a)) := by
  have hpos := axis_pos h0 hdim
  have hnonneg := Int.emod_nonneg a (by omega : ((S.getD dim 0 : Nat) : Int) ≠ 0)
  have hlt := Int.emod_lt_of_pos a (by omega : (0 : Int) < (S.getD dim 0 : Nat))
  refine roll_moved h h0 harm hdim (by omega) (shift_eq hpos hsize) ?_
  intro I hI
  rw [asU64_of_nonneg hnonneg (by omega)]
  refine ⟨rollCoords_eq hdim hsize hI, ?_⟩
  exact bounded_modify hI fun c _ => rotate_lt hpos a c

theorem flip_eq (h : Holds src T S f) (h0 : 0 ∉ S) (harm : movable T = true)
    (hdims : ∀ d ∈ dims, d < S.length) :
    flip src dims = .ok (moved T S f (mirrorAll S dims)) := by
  have hvalid : dims.mapM (fun d => (if src.shape.length ≤ d then
      .err (.indexOutOfBounds "flip" d src.shape.length) else .ok () : Outcome BackendError Unit)) =
      .ok (dims.map fun _ => ()) := by
    refine mapM_eq_ok ?_
    intro d hd
    rw [h.shape, if_neg (not_le.2 (hdims d hd))]
  have hflipped : flipTyped T src dims = .ok (moved T S f (mirrorAll S dims)) := by
    rw [flipTyped, h.shape]
    refine readMoved_eq h h0 ?_
    intro I hI
    exact ⟨flipCoords_eq hdims hI, bounded_mirrorAll dims hI⟩
  rw [flip, hvalid, ok_bind, h.dtype, if_pos harm, hflipped]

end Moved

/-! ## The laws -/

section Laws

variable {α : Type}

/-- Rolling along one axis: shifts add up, full turns are none, a shift is undone by its negative,
and a roll passes through a flip as the roll the other way. -/
structure RollLaws (x : Tensor α) (dim : Nat) : Prop where
  add : ∀ a b : Int, ∃ y z, roll x a dim = .ok y ∧ roll y b dim = .ok z ∧
    roll x (a + b) dim = .ok z
  turn : ∀ k : Int, ∃ y, roll x (k * (x.shape.getD dim 0 : Nat)) dim = .ok y ∧ SameElements y x
  undo : ∀ a : Int, ∃ y z, roll x a dim = .ok y ∧ roll y (-a) dim = .ok z ∧ SameElements z x
  flipped : ∀ a : Int, ∃ y z w, roll x a dim = .ok y ∧ flip y [dim] = .ok w ∧
    flip x [dim] = .ok z ∧ roll z (-a) dim = .ok w

def FlipTwice (x : Tensor α) (dims : List Nat) : Prop :=
  ∃ y z, flip x dims = .ok y ∧ flip y dims = .ok z ∧ SameElements z x

section Motions

variable {x : Tensor α} {T : Dtype} {S : Shape} {f : Nat → α}

theorem moved_same {σ : List Nat → List Nat} (h : Holds x T S f) (h0 : 0 ∉ S)
    (hσ : ∀ I, InBounds S I → σ I = I) : SameElements (moved T S f σ) x := by
  have hm := @moved_holds α T S f σ h.bytes
  exact ⟨hm.shape.trans h.shape.symm, hm.dtype.trans h.dtype.symm, moved_elements h h0 hσ⟩

theorem roll_moved_again (hbytes : S.prod * T.byteSize < 2 ^ 63) (h0 : 0 ∉ S)
    (harm : movable T = true) {dim : Nat} (hdim : dim < S.length) (hsize : S.getD dim 0 ≤ 2 ^ 62)
    (σ : List Nat → List Nat) (a : Int) :
    roll (moved T S f σ) a dim =
      .ok (moved T S f fun I => σ (I.modify dim (rotate (S.getD dim 0) a))) := by
  rw [roll_eq (moved_holds hbytes) h0 harm hdim hsize]
  refine congrArg ok (@moved_moved α T S f σ _ h0 ?_)
  intro I hI
  exact bounded_modify hI fun c _ => rotate_lt (axis_pos h0 hdim) a c

variable {dims : List Nat}

theorem flip_moved_again (hbytes : S.prod * T.byteSize < 2 ^ 63) (h0 : 0 ∉ S)
    (harm : movable T = true) (hdims : ∀ d ∈ dims, d < S.length) (σ : List Nat → List Nat) :
    flip (moved T S f σ) dims = .ok (moved T S f fun I => σ (mirrorAll S dims I)) := by
  rw [flip_eq (moved_holds hbytes) h0 harm hdims]
  refine congrArg ok (@moved_moved α T S f σ _ h0 ?_)
  intro I hI
  exact bounded_mirrorAll dims hI

theorem rollLaws (h : Holds x T S f) (h0 : 0 ∉ S) (harm : movable T = true) {dim : Nat}
    (hdim : dim < S.length) (hsize : S.getD dim 0 ≤ 2 ^ 62) : RollLaws x dim := by
  have hpos := axis_pos h0 hdim
  -- two rolls are one rotation of the axis by the sum, and a full turn is the identity
  have hroll : ∀ a b : Int, ∃ y, roll x a dim = .ok y ∧ roll y b dim =
      .ok (moved T S f fun I => I.modify dim (rotate (S.getD dim 0) (a + b))) := by
    intro a b
    refine ⟨_, roll_eq h h0 harm hdim hsize, ?_⟩
    rw [roll_moved_again h.bytes h0 harm hdim hsize]
    refine congrArg ok (moved_congr h0 ?_)
    intro I hI
    rw [modify_modify_eq]
    refine modify_congr hI ?_
    intro c _
    rw [Function.comp_apply, rotate_rotate hpos, add_comm]
  have hsame : ∀ k : Int, SameElements
      (moved T S f fun I => I.modify dim (rotate (S.getD dim 0) (k * (S.getD dim 0 : Nat))))
      x := fun k => moved_same h h0 fun I hI =>
    modify_eq_self hI fun c hc => rotate_mul k hc
  constructor
  · intro a b
    obtain ⟨y, hy, hz⟩ := hroll a b
    exact ⟨y, _, hy, hz, roll_eq h h0 harm hdim hsize⟩
  · intro k
    rw [h.shape]
    exact ⟨_, roll_eq h h0 harm hdim hsize, hsame k⟩
  · intro a
    obtain ⟨y, hy, hz⟩ := hroll a (-a)
    refine ⟨y, _, hy, hz, ?_⟩
    have hzero := hsame 0
    rwa [zero_mul, ← add_neg_cancel a] at hzero
  · intro a
    have hdims : ∀ d ∈ [dim], d < S.length := by
      simpa using hdim
    refine ⟨_, _, _, roll_eq h h0 harm hdim hsize,
      flip_moved_again h.bytes h0 harm hdims _, flip_eq h h0 harm hdims, ?_⟩
    rw [roll_moved_again h.bytes h0 harm hdim hsize]
    refine congrArg ok (moved_congr h0 ?_)
    intro I hI
    simp only [mirrorAll, foldl_cons, foldl_nil, mirrorAt]
    rw [modify_modify_eq, modify_modify_eq]
    refine modify_congr hI ?_
    intro c hc
    exact (rotate_mirror a hc).symm

theorem flipTwice (h : Holds x T S f) (h0 : 0 ∉ S) (harm : movable T = true)
    (hdims : ∀ d ∈ dims, d < S.length) : FlipTwice x dims := by
  refine ⟨_, _, flip_eq h h0 harm hdims, flip_moved_again h.bytes h0 harm hdims _, ?_⟩
  exact moved_same h h0 fun I hI => mirrorAll_mirrorAll dims hI

end Motions

/-- For the element types with an arm: rolling acts as a group on every axis of at most `2^62`
elements, and flipping twice along any axes changes nothing. -/
theorem roll_flip_laws [Inhabited α] {x : Tensor α} (hx : Reachable x) (h0 : 0 ∉ x.shape)
    (harm : movable x.layout.dtype = true) :
    (∀ dim < x.shape.length, x.shape.getD dim 0 ≤ 2 ^ 62 → RollLaws x dim) ∧
      ∀ dims : List Nat, (∀ d ∈ dims, d < x.shape.length) → FlipTwice x dims := by
  obtain ⟨f, hf⟩ := reachable_holds hx
  constructor
  · intro dim hdim hsize
    exact rollLaws hf h0 harm hdim hsize
  · intro dims hdims
    exact flipTwice hf h0 harm hdims

end Laws

/-! ## Element types without an arm, and very long axes -/

def halfPair : Tensor Nat where
  storage := [7, 8]
  layout := contiguous [2] .f16

def bytePair : Tensor Nat where
  storage := [7, 8]
  layout := contiguous [2] .i8

theorem bytePair_reachable : Reachable bytePair :=
  @Reachable.fromVecTyped Nat .i8 [2] [7, 8] bytePair (by decide) (by decide) rfl

theorem roll_flip_laws_bytePair :
    (∀ dim < bytePair.shape.length, bytePair.shape.getD dim 0 ≤ 2 ^ 62 → RollLaws bytePair dim) ∧
      ∀ dims : List Nat, (∀ d ∈ dims, d < bytePair.shape.length) → FlipTwice bytePair dims :=
  roll_flip_laws bytePair_reachable (by decide) rfl

/-- A single 1 in front of zeros. -/
def spike (n : Nat) : Tensor Nat where
  storage := (List.range n).map fun l => if l = 0 then 1 else 0
  layout := contiguous [n] .i8

theorem spike_fresh {n : Nat} (hn : n < 2 ^ 63) :
    Reachable (spike n) ∧ Fresh (spike n) .i8 [n] (fun l => if l = 0 then 1 else 0) := by
  have hprod : [n].prod = n := prod_singleton
  have hone : Dtype.byteSize .i8 = 1 := rfl
  have hbytes : [n].prod * Dtype.byteSize .i8 < 2 ^ 63 := by
    rwa [hprod, hone, mul_one]
  obtain ⟨t, ht, hfresh⟩ := @fromVecTyped_fresh Nat .i8 [n] (fun l => if l = 0 then 1 else 0) hbytes
  rw [hprod] at ht
  have heq : t = spike n := by
    have hlen : ¬ ((range n).map fun l => if l = 0 then 1 else 0).length ≠ numel [n] := by
      rw [length_map, length_range, numel_of_bytes hbytes, hprod]
      exact not_not.2 rfl
    rw [fromVecTyped, if_neg hlen] at ht
    cases ht
    rfl
  subst heq
  refine ⟨@Reachable.fromVecTyped Nat .i8 [n] _ _ ?_ ?_ ht, hfresh⟩
  · exact prod_lt_of_bytes hbytes
  · rwa [length_map, length_range, hone, mul_one]

theorem roll_line {src : Tensor Nat} {f : Nat → Nat} {n : Nat} {a s : Int} {φ : Nat → Nat}
    (h : Holds src .i8 [n] f) (hn : 0 < n) (hsize : n < 2 ^ 63)
    (hshift : (do
      let r ← remI64 a n
      remI64 (wrapI64 (r + n)) n) = .ok s)
    (hφ : ∀ c < n, (c + n + u64Size - asU64 s) % u64Size % n = φ c) :
    roll src a 0 = .ok (moved .i8 [n] f fun I => I.modify 0 φ) := by
  refine roll_moved h (by simpa using hn.ne) rfl (by simp) hsize hshift ?_
  rintro I (_ | ⟨hc, _ | _⟩)
  refine ⟨?_, .cons ?_ .nil⟩
  · rw [rollCoords, getElem?_cons_zero, getElem?_cons_zero, bind_eq_bind,
      bind_some, bind_some, if_neg hn.ne', hφ _ hc]
    rfl
  · rw [← hφ _ hc]
    exact Nat.mod_lt _ hn

theorem spike_not_undone : ¬ RollLaws (spike (2 ^ 62 + 1)) 0 := by
  obtain ⟨_, hfresh⟩ := @spike_fresh (2 ^ 62 + 1) (by decide)
  intro hlaws
  obtain ⟨y, z, hy, hz, _, _, helems⟩ := hlaws.undo (2 ^ 62)
  have hfirst := @roll_line _ _ _ (2 ^ 62) (-(2 ^ 62 - 2))
    (fun c => (c + (2 ^ 63 - 1)) % (2 ^ 62 + 1)) hfresh.holds (by decide) (by decide) rfl (by
      intro c hc
      have hs : asU64 (-(2 ^ 62 - 2)) = 2 ^ 64 - 2 ^ 62 + 2 := rfl
      rw [hs]
      unfold u64Size
      omega)
  obtain rfl := ok.inj (hfirst.symm.trans hy)
  have hmoved := @moved_holds Nat .i8 [2 ^ 62 + 1] (fun l => if l = 0 then 1 else 0)
    (fun I => I.modify 0 fun c => (c + (2 ^ 63 - 1)) % (2 ^ 62 + 1)) hfresh.bytes
  have hsecond := @roll_line _ _ _ (-(2 ^ 62)) 1 (fun c => (c + 2 ^ 62) % (2 ^ 62 + 1)) hmoved
    (by decide) (by decide) rfl (by
      intro c hc
      have hs : asU64 1 = 1 := rfl
      rw [hs]
      unfold u64Size
      omega)
  obtain rfl := ok.inj (hsecond.symm.trans hz)
  rw [(moved_holds hfresh.bytes).elements, hfresh.elements] at helems
  have hmem : 4 ∈ range [2 ^ 62 + 1].prod := by
    rw [mem_range, prod_singleton]
    decide
  have hfourth := map_inj_left.1 (some.inj helems) 4 hmem
  revert hfourth
  decide

/-- The kernels refuse half-precision tensors, and the shift of a very long axis overflows. -/
theorem roll_flip_laws_fail :
    (Reachable halfPair ∧ 0 ∉ halfPair.shape ∧ ¬ RollLaws halfPair 0 ∧ ¬ FlipTwice halfPair [0]) ∧
      Reachable (spike (2 ^ 62 + 1)) ∧ 0 ∉ (spike (2 ^ 62 + 1)).shape ∧
        ¬ RollLaws (spike (2 ^ 62 + 1)) 0 := by
  obtain ⟨hreach, hfresh⟩ := @spike_fresh (2 ^ 62 + 1) (by decide)
  refine ⟨⟨?_, by decide, ?_, ?_⟩, hreach, ?_, spike_not_undone⟩
  · exact @Reachable.fromVecTyped Nat .f16 [2] [7, 8] halfPair (by decide) (by decide) rfl
  · intro hlaws
    obtain ⟨y, _, hy, _⟩ := hlaws.undo 0
    have hsize : asI64 (halfPair.shape.getD 0 0) = 2 := by decide
    have hshift : (remI64 0 2 : Outcome BackendError Int) = .ok 0 ∧
        (remI64 (wrapI64 (0 + 2)) 2 : Outcome BackendError Int) = .ok 0 := ⟨rfl, rfl⟩
    have herr : roll halfPair 0 0 = .err (.dtypeMismatch "roll" .f16 .f16) := by
      rw [roll, if_neg (by decide)]
      simp only [hsize, hshift, ok_bind]
      rfl
    rw [herr] at hy
    cases hy
  · rintro ⟨y, _, hy, _⟩
    have herr : flip halfPair [0] = .err (.dtypeMismatch "flip" .f16 .f16) := rfl
    rw [herr] at hy
    cases hy
  · rw [hfresh.shape]
    decide

end Cpu
end Rustorch
