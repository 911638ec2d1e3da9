import Rustorch.Cpu.Unbroadcast

/-!
# Random crops

`RandomCrop::apply` of `augment.rs`: a window at a random offset, copied out of the input's slice by
flat indices.  The target is not compared with the input, so a crop never refuses one that is too
large (`crops_iff`).  As in a release build, index arithmetic wraps.
-/

namespace Rustorch
namespace Data
namespace RandomCrop

open Rustorch.Core Cpu LoopNest List Outcome Rows

inductive AugmentError
  | backend (message : String)
  | badRank (expected got : Nat)
  deriving DecidableEq, Repr

section Model

variable {F : Type} [Zero F]

/-- One turn of the three loops, at `[n, i, j]`. -/
def copyPixel (inData : List F) (hIn wIn offH offW hOut wOut : Nat) (I : List Nat) (out : List F) :
    Option (List F) := do
  let n := I.getD 0 0
  let i := I.getD 1 0
  let j := I.getD 2 0
  let inIdx := ((n * hIn + offH + i) * wIn + offW + j) % u64Size
  let outIdx := ((n * hOut + i) * wOut + j) % u64Size
  let pixel ← inData[inIdx]?
  put out outIdx pixel

/-- `draw max` is the outcome of `gen_range(0..=max)`. -/
def offset (draw : (n : Nat) → Fin (n + 1)) (max : Nat) : Nat :=
  if 0 < max then draw max else 0

def apply (target : Nat × Nat) (drawH drawW : (n : Nat) → Fin (n + 1)) (x : Tensor F) :
    Outcome AugmentError (Tensor F) :=
  let s := x.shape
  if s.length < 2 then
    .err (.badRank 2 s.length)
  else do
    let hIn := s.getD (s.length - 2) 0
    let wIn := s.getD (s.length - 1) 0
    let hMax := hIn - target.1
    let wMax := wIn - target.2
    let offH := offset drawH hMax
    let offW := offset drawW wMax
    let front := s.take (s.length - 2)
    let leading := max (numel front) 1
    let inData ← mapErr (fun _ => .backend "expected contiguous F32") (x.asSlice .f32)
    let size := leading * target.1 * target.2 % u64Size
    unwrap (withCapacity .f32 size)
    let out ← expect (run [leading, target.1, target.2]
      (copyPixel inData hIn wIn offH offW target.1 target.2) (replicate size 0))
    mapErr (fun e => .backend (tensorErrorDisplay e))
      (ofExcept (fromVecTyped .f32 (front ++ [target.1, target.2]) out))

end Model

theorem offset_le (draw : (n : Nat) → Fin (n + 1)) (max : Nat) : offset draw max ≤ max := by
  unfold offset
  split <;> omega

/-! ## Windows -/

section Windows

variable {F : Type} {x : Tensor F} {L : Shape} {H W h w : Nat} {f : Nat → F}

/-- Pixel `[n, i, j]` of the window at `(a, b)`. -/
def windowPixel (H W a b : Nat) (f : Nat → F) (I : List Nat) : F :=
  f ((I.getD 0 0 * H + (a + I.getD 1 0)) * W + (b + I.getD 2 0))

/-- All planes of `y` are the windows of the input's planes at one offset. -/
def IsWindow (L : Shape) (H W h w : Nat) (f : Nat → F) (y : Tensor F) : Prop :=
  ∃ a b, a + h ≤ H ∧ b + w ≤ W ∧
    Fresh y .f32 (L ++ [h, w]) fun l => windowPixel H W a b f (coordsOf [L.prod, h, w] l)

/-- Whatever is drawn, a target that fits gives a window, and any other an error. -/
def Crops [Zero F] (x : Tensor F) (L : Shape) (H W h w : Nat) (f : Nat → F) : Prop :=
  ∀ drawH drawW, if h ≤ H ∧ w ≤ W then
    ∃ y, apply (h, w) drawH drawW x = .ok y ∧ IsWindow L H W h w f y
  else ∃ e, apply (h, w) drawH drawW x = .err e

/-- The slice can be taken, the target fits, and there are pixels to copy; or it cannot be taken and
the target does not fit. -/
def Croppable (x : Tensor F) (L : Shape) (H W h w : Nat) : Prop :=
  if x.layout.storageOffset = 0 then (h ≤ H ∧ w ≤ W) ∧ (0 ∈ L → h * w = 0) else ¬ (h ≤ H ∧ w ≤ W)

end Windows

/-! ## The copy -/

section Copy

variable {F : Type} {xs out out' : List F} {H W a b h w P : Nat} {f : Nat → F}

variable {buf : List F}

theorem run_empty {body : List Nat → List F → Option (List F)} (h0 : h * w = 0) :
    run [P, h, w] body buf = some buf := by
  have hnil : indices [P, h, w] = [] := by
    rw [← length_eq_zero_iff, length_indices]
    simp only [prod_cons, prod_nil, Nat.mul_one, h0, Nat.mul_zero]
  rw [run_eq, hnil]
  rfl

theorem run_noData {P : Nat} (hP : 0 < P) (h0 : h * w ≠ 0) (buf : List F) :
    run [P, h, w] (copyPixel [] H W a b h w) buf = none := by
  cases hind : indices [P, h, w] with
  | nil =>
    have hlen := congrArg length hind
    rw [length_indices] at hlen
    simp only [prod_cons, prod_nil, Nat.mul_one, length_nil] at hlen
    exact absurd (Nat.mul_eq_zero.1 hlen) (by omega)
  | cons I Is =>
    rw [run_eq, hind]
    rfl

theorem length_run {P : Nat} (hrun : run [P, h, w] (copyPixel xs H W a b h w) buf = some out) :
    out.length = buf.length := by
  rw [run_eq] at hrun
  generalize indices [P, h, w] = Is at hrun
  induction Is generalizing buf with
  | nil =>
    cases hrun
    rfl
  | cons I Is ih =>
    rw [foldlM_cons, Option.bind_eq_bind, Option.bind_eq_some_iff] at hrun
    obtain ⟨buf', hput, hrun⟩ := hrun
    obtain ⟨pixel, _, hput⟩ := Option.bind_eq_some_iff.1 hput
    rw [ih hrun]
    unfold put at hput
    split at hput
    · cases hput
      exact length_set
    · cases hput

theorem run_window (ha : a + h ≤ H) (hb : b + w ≤ W) (hsize : P * H * W < u64Size)
    (hout : P * h * w < u64Size) (hbuf : buf.length = P * h * w) :
    run [P, h, w] (copyPixel ((range (P * H * W)).map f) H W a b h w) buf =
      some ((range (P * h * w)).map fun l => windowPixel H W a b f (coordsOf [P, h, w] l)) := by
  have hprod : [P, h, w].prod = P * h * w := by simp [Nat.mul_assoc]
  rw [run_write (v := windowPixel H W a b f) (hbuf.trans hprod.symm), map_indices, hprod]
  intro I hI out
  obtain ⟨n, i, j, rfl, hn, hi, hj⟩ : ∃ n i j, I = [n, i, j] ∧ n < P ∧ i < h ∧ j < w := by
    cases hI with
    | cons hn hI =>
      cases hI with
      | cons hi hI =>
        cases hI with
        | cons hj hI =>
          cases hI
          exact ⟨_, _, _, rfl, hn, hi, hj⟩
  have hin : (n * H + (a + i)) * W + (b + j) < P * H * W :=
    cell_lt (cell_lt hn (by omega)) (by omega)
  have hto : (n * h + i) * w + j < P * h * w := cell_lt (cell_lt hn hi) hj
  have hflat : (n * H + a + i) * W + b + j = (n * H + (a + i)) * W + (b + j) := by ring
  have hpos : position [P, h, w] [n, i, j] = (n * h + i) * w + j := by
    simp [position, MixedRadix.value]
    ring
  simp only [copyPixel, getD_cons_zero, getD_cons_succ]
  rw [hflat, Nat.mod_eq_of_lt (lt_trans hin hsize), Nat.mod_eq_of_lt (lt_trans hto hout), hpos,
    getElem?_map, getElem?_range hin]
  rfl

end Copy

/-! ## Exactly when crops are right -/

section Exactly

variable {F : Type} [Zero F] {x : Tensor F} {L : Shape} {H W h w : Nat} {f : Nat → F}
  {drawH drawW : (n : Nat) → Fin (n + 1)}

variable (h w drawH drawW) in
theorem apply_eq (hx : x.shape = L ++ [H, W]) : ∃ offH offW : Nat, offH ≤ H - h ∧ offW ≤ W - w ∧
    apply (h, w) drawH drawW x = (do
      let inData ← mapErr (fun _ => .backend "expected contiguous F32") (x.asSlice .f32)
      let size := max (numel L) 1 * h * w % u64Size
      unwrap (withCapacity .f32 size)
      let out ← expect (run [max (numel L) 1, h, w]
        (copyPixel inData H W offH offW h w) (replicate size 0))
      mapErr (fun e => .backend (tensorErrorDisplay e))
        (ofExcept (fromVecTyped .f32 (L ++ [h, w]) out))) := by
  have hlen : (L ++ [H, W]).length = L.length + 2 := by simp
  refine ⟨offset drawH (H - h), offset drawW (W - w), offset_le _ _, offset_le _ _, ?_⟩
  have hrank : ¬ L.length + 2 < 2 := by omega
  have hH : (L ++ [H, W]).getD (L.length + 2 - 2) 0 = H := by simp
  have hW : (L ++ [H, W]).getD (L.length + 2 - 1) 0 = W := by simp
  have hfront : (L ++ [H, W]).take (L.length + 2 - 2) = L := by simp
  simp only [apply, hx, hlen, hrank, if_false, hH, hW, hfront]

section

variable (hx : Fresh x .f32 (L ++ [H, W]) f)

include hx

theorem apply_empty (h0 : h * w = 0) (g : Nat → F) :
    ∃ y, apply (h, w) drawH drawW x = .ok y ∧ Fresh y .f32 (L ++ [h, w]) g := by
  have hprod : (L ++ [h, w]).prod = 0 := by simp [h0]
  obtain ⟨offH, offW, _, _, heq⟩ := apply_eq h w drawH drawW hx.shape
  obtain ⟨y, hy, hfresh⟩ := @fromVecTyped_fresh F .f32 (L ++ [h, w]) g (by rw [hprod]; decide)
  refine ⟨y, ?_, hfresh⟩
  rw [hprod, range_zero, map_nil] at hy
  have hsize : max (numel L) 1 * h * w % u64Size = 0 := by rw [Nat.mul_assoc, h0]; rfl
  rw [heq, hx.asSlice]
  simp only [hsize, replicate_zero, run_empty h0]
  change mapErr _ (ofExcept _) = _
  rw [hy]
  rfl

/-- An empty input has no pixel to copy. -/
theorem apply_noData (h0 : h * w ≠ 0) (hdata : (L ++ [H, W]).prod = 0) :
    apply (h, w) drawH drawW x = .panic := by
  obtain ⟨offH, offW, _, _, heq⟩ := apply_eq h w drawH drawW hx.shape
  rw [heq, hx.asSlice, hdata]
  have hrun := @run_noData F H W offH offW h w _
    (lt_max_of_lt_right Nat.one_pos : 0 < max (numel L) 1) h0
  simp only [mapErr, range_zero, map_nil, hrun, ok_bind, expect_none]
  cases hcap : withCapacity .f32 (max (numel L) 1 * h * w % u64Size) with
  | ok u => rfl
  | err e => rfl
  | panic => rfl

variable (hdata : (L ++ [H, W]).prod ≠ 0)

include hdata

omit [Zero F] in
theorem leading_eq :
    max (numel L) 1 = L.prod := by
  have hprod : (L ++ [H, W]).prod = L.prod * (H * W) := by simp
  have hpos : 0 < H * W := Nat.pos_of_ne_zero fun h0 => hdata (by rw [hprod, h0]; rfl)
  have hL : 0 < L.prod := Nat.pos_of_ne_zero fun h0 => hdata (by rw [hprod, h0, Nat.zero_mul])
  have hle : L.prod ≤ (L ++ [H, W]).prod := by
    rw [hprod]
    exact Nat.le_mul_of_pos_right _ hpos
  rw [numel_of_fits (lt_of_le_of_lt hle (prod_lt_of_bytes hx.bytes)), max_eq_left hL]

theorem apply_window (hh : h ≤ H) (hw : w ≤ W) :
    ∃ y, apply (h, w) drawH drawW x = .ok y ∧ IsWindow L H W h w f y := by
  obtain ⟨offH, offW, hoffH, hoffW, heq⟩ := apply_eq h w drawH drawW hx.shape
  have hprod : (L ++ [H, W]).prod = L.prod * H * W := by simp [Nat.mul_assoc]
  have hout : (L ++ [h, w]).prod = L.prod * h * w := by simp [Nat.mul_assoc]
  have hle : L.prod * h * w ≤ L.prod * H * W :=
    Nat.mul_le_mul (Nat.mul_le_mul_left _ hh) hw
  have hbytes : (L ++ [h, w]).prod * Dtype.byteSize .f32 < 2 ^ 63 := by
    refine lt_of_le_of_lt (Nat.mul_le_mul_right _ ?_) hx.bytes
    rwa [hprod, hout]
  have hsize := prod_lt_of_bytes hx.bytes
  rw [hprod] at hsize
  have hout' := lt_of_le_of_lt hle hsize
  obtain ⟨y, hy, hfresh⟩ := @fromVecTyped_fresh F .f32 (L ++ [h, w])
    (fun l => windowPixel H W offH offW f (coordsOf [L.prod, h, w] l)) hbytes
  refine ⟨y, ?_, offH, offW, by omega, by omega, hfresh⟩
  have hcap : withCapacity .f32 (L.prod * h * w) = .ok () := withCapacity_ok (hout ▸ hbytes)
  rw [heq, hx.asSlice, leading_eq hx hdata, Nat.mod_eq_of_lt hout']
  simp only [mapErr, ok_bind, hcap, unwrap_ok, hprod]
  rw [run_window (by omega) (by omega) hsize hout' length_replicate, expect_some,
    ok_bind, ← hout, hy]
  rfl

/-- An input with data is never refused. -/
theorem apply_ne_err (e : AugmentError) :
    apply (h, w) drawH drawW x ≠ .err e := by
  obtain ⟨offH, offW, _, _, heq⟩ := apply_eq h w drawH drawW hx.shape
  rw [heq, hx.asSlice, leading_eq hx hdata]
  simp only [mapErr, ok_bind]
  unfold withCapacity
  split
  · rw [unwrap_ok, ok_bind]
    cases hrun : run [L.prod, h, w] (copyPixel ((range (L ++ [H, W]).prod).map f) H W offH offW
        h w) (replicate (L.prod * h * w % u64Size) 0) with
    | none => simp
    | some out =>
      have hlen : out.length = numel (L ++ [h, w]) := by
        rw [length_run hrun, length_replicate, numel]
        simp [Nat.mul_assoc]
      simp [fromVecTyped, hlen]
  · simp [unwrap]

end

/-- A crop is right exactly if the target fits and there are pixels to copy, for a tensor at the
front of its buffer; past the front it refuses every target. -/
theorem crops_iff (hx : Dense x .f32 (L ++ [H, W]) f) :
    Crops x L H W h w f ↔ Croppable x L H W h w := by
  by_cases hoff : x.layout.storageOffset = 0
  · have hfresh : Fresh x .f32 (L ++ [H, W]) f := ⟨hx, hoff⟩
    have hdata : (L ++ [H, W]).prod = 0 ↔ 0 ∈ L ∨ H * W = 0 := by
      simp [prod_eq_zero_iff]
    rw [Croppable, if_pos hoff]
    constructor
    · intro hcrops
      have hone := hcrops (fun _ => 0) (fun _ => 0)
      split at hone
      case isTrue hfit =>
        refine ⟨hfit, fun hL => ?_⟩
        by_contra h0
        obtain ⟨y, hy, _⟩ := hone
        rw [apply_noData hfresh h0 (hdata.2 (.inl hL))] at hy
        cases hy
      case isFalse hfit =>
        obtain ⟨e, he⟩ := hone
        by_cases h0 : h * w = 0
        · obtain ⟨y, hy, _⟩ := apply_empty hfresh h0 f
          rw [hy] at he
          cases he
        · by_cases hzero : (L ++ [H, W]).prod = 0
          · rw [apply_noData hfresh h0 hzero] at he
            cases he
          · exact absurd he (apply_ne_err hfresh hzero e)
    · rintro ⟨⟨hh, hw⟩, hL⟩ drawH drawW
      rw [if_pos ⟨hh, hw⟩]
      by_cases hzero : (L ++ [H, W]).prod = 0
      · have h0 : h * w = 0 := by
          rcases hdata.1 hzero with h0 | h0
          · exact hL h0
          · exact Nat.eq_zero_of_le_zero (h0 ▸ Nat.mul_le_mul hh hw)
        obtain ⟨y, hy, hfresh⟩ := apply_empty hfresh h0 _
        exact ⟨y, hy, 0, 0, by omega, by omega, hfresh⟩
      · exact apply_window hfresh hzero hh hw
  · rw [Croppable, if_neg hoff]
    have herr : ∀ drawH drawW, ∃ e, apply (h, w) drawH drawW x = .err e := by
      intro drawH drawW
      obtain ⟨_, _, _, _, heq⟩ := apply_eq h w drawH drawW hx.shape
      exact ⟨.backend "expected contiguous F32", by rw [heq, Tensor.asSlice_offset _ hoff]; rfl⟩
    constructor
    · intro hcrops hfit
      have hone := hcrops (fun _ => 0) (fun _ => 0)
      rw [if_pos hfit] at hone
      obtain ⟨y, hy, _⟩ := hone
      obtain ⟨e, he⟩ := herr (fun _ => 0) (fun _ => 0)
      rw [hy] at he
      cases he
    · intro hfit drawH drawW
      rw [if_neg hfit]
      exact herr drawH drawW

end Exactly

/-- Two planes of two rows, and windows of one row and two columns. -/
def twoPlanes : Tensor Nat :=
  { storage := (range 12).map (fun i => 10 * i)
    layout := Layout.contiguous [2, 2, 3] .f32 }

theorem crops_iff_twoPlanes : Crops twoPlanes [2] 2 3 1 2 (fun i => 10 * i) ↔
    Croppable twoPlanes [2] 2 3 1 2 :=
  crops_iff (@fresh_contiguous _ .f32 [2, 2, 3] (fun i => 10 * i) (by decide)).toDense

/-- Two rows of one pixel. -/
def twoRows : Tensor Nat :=
  { storage := (range 2).map (fun i => [5, 7].getD i 0)
    layout := Layout.contiguous [2, 1] .f32 }

/-- A row of two pixels does not fit, and takes its second pixel from the next row. -/
theorem twoRows_not_crops : ¬ Crops twoRows [] 2 1 1 2 (fun i => [5, 7].getD i 0) ∧
    apply (1, 2) (fun _ => 0) (fun _ => 0) twoRows =
      .ok { storage := [5, 7], layout := Layout.contiguous [1, 2] .f32 } := by
  have hrun : apply (1, 2) (fun _ => 0) (fun _ => 0) twoRows =
      .ok { storage := [5, 7], layout := Layout.contiguous [1, 2] .f32 } := rfl
  refine ⟨?_, hrun⟩
  intro hcrops
  obtain ⟨e, he⟩ := hcrops (fun _ => 0) (fun _ => 0)
  cases he

end RandomCrop
end Data
end Rustorch
