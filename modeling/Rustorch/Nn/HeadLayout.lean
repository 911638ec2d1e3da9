import Rustorch.Core.Transpose
import Rustorch.Cpu.Conv
import Rustorch.Nn.KvCache

/-!
# The layout of the heads

A tensor `[B, T, H * hd]` is moved to `[B, H, T, hd]` and back, by copies of `hd` cells or by a
transpose of the inner axes.  Both read the same cell (`swapHeads`).
-/

namespace Rustorch
namespace Nn
namespace MultiHeadAttention

open Rustorch.Core Cpu AxisSwap List Rows

/-! ## The copies -/

section Loops

variable {F : Type}

/-- The turns of the loops over `b`, `h` and `t`, each with its offsets in `[B, T, H, hd]` and in
`[B, H, T, hd]`. -/
def headOffsets (batch seq heads headDim : Nat) : List (Nat × Nat) :=
  let d := heads * headDim
  (range batch).flatMap fun b => (range heads).flatMap fun h =>
    (range seq).map fun t =>
      (b * seq * d + t * d + h * headDim,
        b * heads * seq * headDim + h * seq * headDim + t * headDim)

def transposeBthdToBhtdF32 (src dst : List F) (batch seq heads headDim : Nat) : Option (List F) :=
  (headOffsets batch seq heads headDim).foldlM
    (fun dst off => copySlice off.2 (off.2 + headDim) src off.1 (off.1 + headDim) dst) dst

def transposeBhtdToBthdF32 (src dst : List F) (batch seq heads headDim : Nat) : Option (List F) :=
  (headOffsets batch seq heads headDim).foldlM
    (fun dst off => copySlice off.1 (off.1 + headDim) src off.2 (off.2 + headDim) dst) dst

end Loops

/-! ## Moving the heads -/

section Heads

/-- Row `r` of `[B, H, T]`, as a row of `[B, T, H]`. -/
def swapRow (H T r : Nat) : Nat :=
  (r / T / H * T + r % T) * H + r / T % H

variable {B H T b h t r : Nat}

theorem swapRow_at (hh : h < H) (ht : t < T) :
    swapRow H T ((b * H + h) * T + t) = (b * T + t) * H + h := by
  rw [swapRow, cell_div ht, cell_mod ht, cell_div hh, cell_mod hh]

theorem exists_row (hr : r < B * H * T) :
    ∃ b h t, b < B ∧ h < H ∧ t < T ∧ r = (b * H + h) * T + t := by
  have hT : 0 < T := Nat.pos_of_ne_zero (by rintro rfl; simp at hr)
  have hn : r / T < B * H := Nat.div_lt_of_lt_mul (by rwa [Nat.mul_comm])
  have hH : 0 < H := Nat.pos_of_ne_zero (by rintro rfl; simp at hn)
  refine ⟨r / T / H, r / T % H, r % T, ?_, Nat.mod_lt _ hH, Nat.mod_lt _ hT, ?_⟩
  · exact Nat.div_lt_of_lt_mul (by rwa [Nat.mul_comm])
  · rw [Nat.div_add_mod', Nat.div_add_mod']

theorem swapRow_lt (hr : r < B * H * T) : swapRow H T r < B * H * T := by
  obtain ⟨b, h, t, hb, hh, ht, rfl⟩ := exists_row hr
  rw [swapRow_at hh ht]
  calc
    (b * T + t) * H + h < B * T * H := cell_lt (cell_lt hb ht) hh
    _ = B * H * T := by ring

theorem swapRow_swapRow (hr : r < B * H * T) : swapRow T H (swapRow H T r) = r := by
  obtain ⟨b, h, t, hb, hh, ht, rfl⟩ := exists_row hr
  rw [swapRow_at hh ht, swapRow_at ht hh]

/-- The values of `[B, T, H, w]`, read as `[B, H, T, w]`. -/
def swapHeads {α : Type} (H T w : Nat) (f : Nat → α) (c : Nat) : α :=
  f (swapRow H T (c / w) * w + c % w)

variable {w d : Nat}

theorem swapHeads_at {α : Type} {f : Nat → α} (hh : h < H) (ht : t < T) (hd : d < w) :
    swapHeads H T w f (((b * H + h) * T + t) * w + d) = f (((b * T + t) * H + h) * w + d) := by
  rw [swapHeads, cell_div hd, cell_mod hd, swapRow_at hh ht]

theorem swapCell_heads {l : Nat} (hl : l < B * H * T * w) :
    swapCell [B, T, H, w] 1 2 l = swapRow H T (l / w) * w + l % w := by
  have hw : 0 < w := Nat.pos_of_ne_zero (by rintro rfl; simp at hl)
  obtain ⟨b, h, t, hb, hh, ht, hrow⟩ :=
    exists_row (Nat.div_lt_of_lt_mul (by rwa [Nat.mul_comm]) : l / w < B * H * T)
  have hd : l % w < w := Nat.mod_lt _ hw
  have hcell : linearOf [B, H, T, w] [b, h, t, l % w] = l := by
    rw [linearOf_four, ← hrow, Nat.div_add_mod']
  have hcoords := coordsOf_linearOf (inBounds_four hb hh ht hd)
  rw [hcell] at hcoords
  have hshape : AxisSwap.swapAt 1 2 [B, T, H, w] = [B, H, T, w] := rfl
  have hswap : AxisSwap.swapAt 1 2 [b, h, t, l % w] = [b, t, h, l % w] := rfl
  rw [swapCell, hshape, hcoords, hswap, linearOf_four, hrow, swapRow_at hh ht]

theorem linearOf_three (A B C a b c : Nat) :
    linearOf [A, B, C] [a, b, c] = (a * B + b) * C + c := by
  simp only [linearOf, reverse_cons, reverse_nil, nil_append, cons_append, MixedRadix.value]
  ring

theorem swapCell_keys {N n c j : Nat} (hn : n < N) (hc : c < w) (hj : j < T) :
    swapCell [N, T, w] 1 2 ((n * w + c) * T + j) = (n * T + j) * w + c := by
  have hI : InBounds [N, w, T] [n, c, j] := .cons hn (.cons hc (.cons hj .nil))
  have hshape : AxisSwap.swapAt 1 2 [N, T, w] = [N, w, T] := rfl
  have hswap : AxisSwap.swapAt 1 2 [n, c, j] = [n, j, c] := rfl
  rw [swapCell, hshape, ← linearOf_three N, coordsOf_linearOf hI, hswap, linearOf_three]

end Heads

/-! ## The copies -/

section Copies

variable {α : Type} {w n : Nat} {f : Nat → α} {a b c : Nat → Nat}

theorem foldlM_copySlice {src : List α} (hsrc : src.length = n * w) {rs : List Nat}
    (ha : ∀ r ∈ rs, a r < n) (hb : ∀ r ∈ rs, b r < n) : ∀ dst : List α, dst.length = n * w →
      rs.foldlM
          (fun dst r => copySlice (b r * w) (b r * w + w) src (a r * w) (a r * w + w) dst) dst =
        some (writeBlocks w b (fun r => row w (a r) src) rs dst) := by
  induction rs with
  | nil =>
    intro dst _
    rfl
  | cons r rs ih =>
    intro dst hdst
    have hfit : ∀ {x : Nat}, x < n → x * w + w ≤ n * w := by
      intro x hx
      rw [← Nat.succ_mul]
      exact Nat.mul_le_mul_right w hx
    have hra := hfit (ha r mem_cons_self)
    have hrb := hfit (hb r mem_cons_self)
    have hrow : (row w (a r) src).length = w :=
      length_row (by rw [Nat.succ_mul, hsrc]; exact hra)
    have hlen : (writeAt (b r * w) (row w (a r) src) dst).length = n * w := by
      rw [length_writeAt (by rw [hrow, hdst]; exact hrb), hdst]
    have hcopy : copySlice (b r * w) (b r * w + w) src (a r * w) (a r * w + w) dst =
        some (writeAt (b r * w) (row w (a r) src) dst) := by
      rw [copySlice, if_pos ⟨⟨Nat.le_add_right .., by rw [hdst]; exact hrb⟩,
        ⟨Nat.le_add_right .., by rw [hsrc]; exact hra⟩, by simp⟩, Nat.add_sub_cancel_left]
      rfl
    rw [foldlM_cons, hcopy, Option.bind_eq_bind, Option.bind_some]
    exact ih (fun x hx => ha x (mem_cons_of_mem r hx))
      (fun x hx => hb x (mem_cons_of_mem r hx)) _ hlen

theorem copyRows {dst : List α} (hdst : dst.length = n * w) (ha : ∀ r < n, a r < n)
    (hb : ∀ r < n, b r < n) (hc : ∀ s < n, c s < n) (hbc : ∀ s < n, b (c s) = s)
    (hcb : ∀ r < n, c (b r) = r) :
    (range n).foldlM
        (fun dst r => copySlice (b r * w) (b r * w + w) ((range (n * w)).map f) (a r * w)
            (a r * w + w) dst) dst =
      some ((range (n * w)).map fun x => f (a (c (x / w)) * w + x % w)) := by
  have hsrc : ((range (n * w)).map f).length = n * w := by simp
  have hfits : Rows.Fits w 1 dst.length b
      (fun r => row w (a r) ((range (n * w)).map f)) (range n) := by
    intro r hr
    have hr := mem_range.1 hr
    refine ⟨?_, ?_⟩
    · rw [Nat.one_mul]
      exact length_row (by rw [hsrc]; exact Nat.mul_le_mul_right w (ha r hr))
    · rw [hdst]
      exact Nat.mul_le_mul_right w (hb r hr)
  have hpair : (range n).Pairwise fun i j => b i + 1 ≤ b j ∨ b j + 1 ≤ b i := by
    refine (pairwise_lt_range).imp_of_mem ?_
    intro i j hi hj hlt
    have hne : b i ≠ b j := by
      intro heq
      have hij := congrArg c heq
      rw [hcb i (mem_range.1 hi), hcb j (mem_range.1 hj)] at hij
      omega
    omega
  rw [foldlM_copySlice hsrc (fun r hr => ha r (mem_range.1 hr))
    (fun r hr => hb r (mem_range.1 hr)) dst hdst]
  refine congrArg some (eq_of_rows ((length_writeBlocks hfits).trans hdst) ?_)
  intro s hs
  have hrow := row_writeBlocks hfits hpair (c s) (mem_range.2 (hc s hs))
    (hbc s hs).le (by rw [hbc s hs]; exact Nat.lt_succ_self s)
  have hwhole := (hfits (c s) (mem_range.2 (hc s hs))).1
  rw [Nat.one_mul] at hwhole
  calc
    _ = row w 0 (row w (a (c s)) ((range (n * w)).map f)) := by
          rw [hrow, hbc s hs, Nat.sub_self]
    _ = row w (a (c s)) ((range (n * w)).map f) := by
          rw [row, Nat.zero_mul, drop_zero, take_of_length_le hwhole.le]
    _ = (range w).map fun i => f (a (c s) * w + i) :=
          row_map_range f (ha (c s) (hc s hs))
    _ = _ := by
          refine map_congr_left fun i hi => ?_
          rw [cell_div (mem_range.1 hi), cell_mod (mem_range.1 hi)]

theorem headOffsets_eq (B T H w : Nat) : headOffsets B T H w =
    (range (B * H * T)).map fun r => (swapRow H T r * w, r * w) := by
  rw [map_eq_flatMap, flatMap_range_mul, flatMap_range_mul]
  refine flatMap_congr fun b _ => flatMap_congr fun h hh => ?_
  rw [map_eq_flatMap]
  refine flatMap_congr fun t ht => ?_
  rw [swapRow_at (mem_range.1 hh) (mem_range.1 ht)]
  have hsrc : b * T * (H * w) + t * (H * w) + h * w = ((b * T + t) * H + h) * w := by ring
  have hdst : b * H * T * w + h * T * w + t * w = ((b * H + h) * T + t) * w := by ring
  rw [hsrc, hdst]

variable {B T H : Nat} {dst : List α}

theorem transposeBthdToBhtdF32_eq (hdst : dst.length = B * H * T * w) :
    transposeBthdToBhtdF32 ((range (B * H * T * w)).map f) dst B T H w =
      some ((range (B * H * T * w)).map (swapHeads H T w f)) := by
  rw [transposeBthdToBhtdF32, headOffsets_eq, foldlM_map]
  exact copyRows (a := swapRow H T) (b := id) (c := id) hdst (fun _ hr => swapRow_lt hr)
    (fun _ hr => hr) (fun _ hs => hs) (fun _ _ => rfl) fun _ _ => rfl

theorem transposeBhtdToBthdF32_eq (hdst : dst.length = B * H * T * w) :
    transposeBhtdToBthdF32 ((range (B * H * T * w)).map f) dst B T H w =
      some ((range (B * H * T * w)).map (swapHeads T H w f)) := by
  have hcomm : B * H * T = B * T * H := by ring
  rw [transposeBhtdToBthdF32, headOffsets_eq, foldlM_map]
  refine copyRows (a := id) (b := swapRow H T) (c := swapRow T H) hdst (fun _ hr => hr)
    (fun _ hr => swapRow_lt hr) ?_ ?_ ?_
  · intro s hs
    rw [hcomm] at hs ⊢
    exact swapRow_lt hs
  · intro s hs
    rw [hcomm] at hs
    exact swapRow_swapRow hs
  · intro r hr
    exact swapRow_swapRow hr

end Copies

end MultiHeadAttention

end Nn
end Rustorch
