import Mathlib.Tactic.LinearCombination
import Rustorch.Lib.LoopNest
import Rustorch.Lib.Machine
import Rustorch.Lib.Scatter

/-!
# Rotary position embedding

`rope.rs`: a row of a `[batch, n_heads, seq, head_dim]` buffer is cut into pairs, and each pair is
turned by the angle that the tables hold for the position of the row.  `apply_inplace` pairs
neighbours, `apply_inplace_half_split` pairs a dimension of the first half with one of the second.

Buffers hold elements of a commutative ring.  Sizes, positions and indices are `usize`, whose sums
and products wrap.  An index out of bounds is `none`.
-/

namespace Rustorch
namespace Nn

open List LoopNest Rows
open Nat (mod_eq_of_lt mod_lt mul_comm pos_of_mul_pos_left zero_add zero_lt_of_lt)

open PairUpdates (updatePair Apart)

structure RoPE (F : Type) where
  headDim : Nat
  maxSeq : Nat
  cos : List F
  sin : List F
  even : headDim % 2 = 0
  cos_length : cos.length = maxSeq * (headDim / 2)
  sin_length : sin.length = maxSeq * (headDim / 2)
  maxSeq_lt : maxSeq < u64Size
  /-- No vector has `2 ^ 63` bytes. -/
  tables_fit : 4 * (maxSeq * (headDim / 2)) < 2 ^ 63

inductive RoPEError
  | wrongInputLen (expected got : Nat)
  | positionOverflow (maxSeq requested : Nat)
  deriving DecidableEq

/-- Which two dimensions of a row the `k`-th rotation turns; every dimension is in one pair. -/
structure Pairing (half : Nat) where
  lo : Nat → Nat
  hi : Nat → Nat
  lo_lt : ∀ k < half, lo k < 2 * half
  hi_lt : ∀ k < half, hi k < 2 * half
  lo_inj : ∀ k l, lo k = lo l → k = l
  hi_inj : ∀ k l, hi k = hi l → k = l
  lo_ne_hi : ∀ k < half, ∀ l, lo k ≠ hi l
  cover : ∀ i < 2 * half, ∃ k < half, i = lo k ∨ i = hi k

/-- `(2k, 2k + 1)` -/
def interleaved (half : Nat) : Pairing half where
  lo k := 2 * k
  hi k := 2 * k + 1
  lo_lt k hk := by omega
  hi_lt k hk := by omega
  lo_inj k l h := by omega
  hi_inj k l h := by omega
  lo_ne_hi k _ l := by omega
  cover i hi := ⟨i / 2, by omega, by omega⟩

/-- `(k, k + half)` -/
def halfSplit (half : Nat) : Pairing half where
  lo k := k
  hi k := k + half
  lo_lt k hk := by omega
  hi_lt k hk := by omega
  lo_inj k l h := h
  hi_inj k l h := by omega
  lo_ne_hi k hk l := by omega
  cover i hi := by
    by_cases h : i < half
    · exact ⟨i, h, Or.inl rfl⟩
    · exact ⟨i - half, by omega, Or.inr (by omega)⟩

variable {F : Type} [CommRing F]

namespace RoPE

/-! ## The code -/

section Code

variable (rope : RoPE F)

/-- The two checks, and the nest over the rows and their pairs.  `turn` has the new values of the
pair `x0`, `x1` for the entries `c`, `si` of the tables. -/
def applyPairs (lo hi : Nat → Nat) (turn : F → F → F → F → F × F) (x : List F)
    (batch nHeads seq positionOffset : Nat) : Option (Except RoPEError Unit × List F) :=
  let d := rope.headDim
  let half := d / 2
  let expectedLen := batch * nHeads * seq * d % u64Size
  let requested := (positionOffset + seq) % u64Size
  if x.length ≠ expectedLen then
    some (.error (.wrongInputLen expectedLen x.length), x)
  else if requested > rope.maxSeq then
    some (.error (.positionOverflow rope.maxSeq requested), x)
  else
    (run [batch, nHeads, seq, half] (fun I buf =>
      match I with
      | [b, h, s, k] => do
        let p := (positionOffset + s) % u64Size
        let rowOff := (b * nHeads * seq * d + h * seq * d + s * d) % u64Size
        let tableOff := p * half % u64Size
        let c ← rope.cos[(tableOff + k) % u64Size]?
        let si ← rope.sin[(tableOff + k) % u64Size]?
        updatePair ((rowOff + lo k) % u64Size) ((rowOff + hi k) % u64Size)
          (fun x0 x1 => turn c si x0 x1) buf
      | _ => none) x).map fun buf => (.ok (), buf)

def applyInplace (x : List F) (batch nHeads seq positionOffset : Nat) :
    Option (Except RoPEError Unit × List F) :=
  rope.applyPairs (fun k => 2 * k) (fun k => 2 * k + 1)
    (fun c si x0 x1 => (x0 * c - x1 * si, x0 * si + x1 * c)) x batch nHeads seq positionOffset

def applyInplaceHalfSplit (x : List F) (batch nHeads seq positionOffset : Nat) :
    Option (Except RoPEError Unit × List F) :=
  rope.applyPairs (fun k => k) (fun k => k + rope.headDim / 2)
    (fun c si x0 x1 => (x0 * c - x1 * si, x1 * c + x0 * si)) x batch nHeads seq positionOffset

end Code

/-! ## What the loops compute -/

section Spec

variable (rope : RoPE F)

def cosAt (p k : Nat) : F :=
  rope.cos.getD (p * (rope.headDim / 2) + k) 0

def sinAt (p k : Nat) : F :=
  rope.sin.getD (p * (rope.headDim / 2) + k) 0

omit [CommRing F] in
theorem headDim_eq : rope.headDim = 2 * (rope.headDim / 2) := by
  have h := rope.even
  omega

/-- The slice `x` is a `[batch, nHeads, seq, headDim]` buffer. -/
structure Shaped (batch nHeads seq : Nat) (x : List F) : Prop where
  length : x.length = batch * nHeads * seq * rope.headDim
  fits : 4 * x.length < 2 ^ 63

omit [CommRing F] in
variable {rope} in
theorem Shaped.lt {batch nHeads seq : Nat} {x : List F} (h : rope.Shaped batch nHeads seq x) :
    x.length < u64Size := by
  have hfits := h.fits
  have hsize : u64Size = 2 ^ 64 := rfl
  omega

/-- The rows of `y` are the rows of `x`, turned by the angles of their positions. -/
structure Rotated (pairing : Pairing (rope.headDim / 2)) (n : Nat) (pos : Nat → Nat)
    (x y : List F) : Prop where
  length : y.length = n * rope.headDim
  lo : ∀ r < n, ∀ k < rope.headDim / 2, y.getD (r * rope.headDim + pairing.lo k) 0 =
    x.getD (r * rope.headDim + pairing.lo k) 0 * rope.cosAt (pos r) k -
      x.getD (r * rope.headDim + pairing.hi k) 0 * rope.sinAt (pos r) k
  hi : ∀ r < n, ∀ k < rope.headDim / 2, y.getD (r * rope.headDim + pairing.hi k) 0 =
    x.getD (r * rope.headDim + pairing.lo k) 0 * rope.sinAt (pos r) k +
      x.getD (r * rope.headDim + pairing.hi k) 0 * rope.cosAt (pos r) k

variable {rope} {pairing : Pairing (rope.headDim / 2)} {turn : F → F → F → F → F × F}

/-- The row that the loops are at. -/
def rowOf (nHeads seq : Nat) (I : List Nat) : Nat :=
  (I.getD 0 0 * nHeads + I.getD 1 0) * seq + I.getD 2 0

variable {half n : Nat} {pos : Nat → Nat} {ns : List Nat}

theorem bounded_four {batch nHeads seq : Nat} {I : List Nat}
    (hI : MixedRadix.Bounded [batch, nHeads, seq, half] I) :
    ∃ b h s k, I = [b, h, s, k] ∧ b < batch ∧ h < nHeads ∧ s < seq ∧ k < half := by
  cases hI with
  | cons hb hI =>
    cases hI with
    | cons hh hI =>
      cases hI with
      | cons hs hI =>
        cases hI with
        | cons hk hI =>
          cases hI
          exact ⟨_, _, _, _, rfl, hb, hh, hs, hk⟩

theorem exists_turn {batch nHeads seq r k : Nat} (hr : r < batch * nHeads * seq) (hk : k < half) :
    ∃ b h s, MixedRadix.Bounded [batch, nHeads, seq, half] [b, h, s, k] ∧
      rowOf nHeads seq [b, h, s, k] = r ∧ s = r % seq := by
  have hseq : 0 < seq := pos_of_mul_pos_left (zero_lt_of_lt hr)
  have hheads : 0 < nHeads :=
    pos_of_mul_pos_left (Nat.pos_of_mul_pos_right (zero_lt_of_lt hr))
  have hbh : r / seq < batch * nHeads := Nat.div_lt_of_lt_mul (by rwa [mul_comm])
  refine ⟨r / seq / nHeads, r / seq % nHeads, r % seq, ?_, ?_, rfl⟩
  · exact .cons (Nat.div_lt_of_lt_mul (by rwa [mul_comm])) (.cons (mod_lt _ hheads)
      (.cons (mod_lt _ hseq) (.cons hk .nil)))
  · change (r / seq / nHeads * nHeads + r / seq % nHeads) * seq + r % seq = r
    rw [Nat.div_add_mod', Nat.div_add_mod']

theorem rowOf_lt {batch nHeads seq b h s : Nat} (hb : b < batch) (hh : h < nHeads) (hs : s < seq) :
    (b * nHeads + h) * seq + s < batch * nHeads * seq :=
  cell_lt (cell_lt hb hh) hs

/-- The two cells of a turn. -/
def pairCells (rope : RoPE F) (pairing : Pairing (rope.headDim / 2)) (nHeads seq : Nat)
    (I : List Nat) : Nat × Nat :=
  (rowOf nHeads seq I * rope.headDim + pairing.lo (I.getD 3 0),
    rowOf nHeads seq I * rope.headDim + pairing.hi (I.getD 3 0))

/-- What a turn makes of them. -/
def pairTurn (rope : RoPE F) (turn : F → F → F → F → F × F) (positionOffset : Nat)
    (I : List Nat) : F → F → F × F :=
  turn (rope.cosAt (positionOffset + I.getD 2 0) (I.getD 3 0))
    (rope.sinAt (positionOffset + I.getD 2 0) (I.getD 3 0))

omit [CommRing F] in
/-- Different turns have no dimension in common. -/
theorem apart_of_ne {batch nHeads seq : Nat} {I J : List Nat}
    (hI : MixedRadix.Bounded [batch, nHeads, seq, rope.headDim / 2] I)
    (hJ : MixedRadix.Bounded [batch, nHeads, seq, rope.headDim / 2] J) (hne : I ≠ J) :
    Apart (rope.pairCells pairing nHeads seq I) (rope.pairCells pairing nHeads seq J) := by
  obtain ⟨b, h, s, k, rfl, hb, hh, hs, hk⟩ := bounded_four hI
  obtain ⟨b', h', s', k', rfl, hb', hh', hs', hk'⟩ := bounded_four hJ
  have hd := rope.headDim_eq
  have hlo := pairing.lo_lt k hk
  have hhi := pairing.hi_lt k hk
  have hlo' := pairing.lo_lt k' hk'
  have hhi' := pairing.hi_lt k' hk'
  rw [← hd] at hlo hhi hlo' hhi'
  have hsame : rowOf nHeads seq [b, h, s, k] = rowOf nHeads seq [b', h', s', k'] → k ≠ k' := by
    intro hrow heq
    have hrow' : (b * nHeads + h) * seq + s = (b' * nHeads + h') * seq + s' := hrow
    obtain ⟨hbh, rfl⟩ := cell_inj hs hs' hrow'
    obtain ⟨rfl, rfl⟩ := cell_inj hh hh' hbh
    exact hne (by rw [heq])
  refine ⟨?_, ?_, ?_, ?_⟩
  · intro heq
    obtain ⟨hrow, hcol⟩ := cell_inj hlo hlo' heq
    exact hsame hrow (pairing.lo_inj _ _ hcol)
  · intro heq
    exact pairing.lo_ne_hi k hk k' (cell_inj hlo hhi' heq).2
  · intro heq
    exact pairing.lo_ne_hi k' hk' k (cell_inj hhi hlo' heq).2.symm
  · intro heq
    obtain ⟨hrow, hcol⟩ := cell_inj hhi hhi' heq
    exact hsame hrow (pairing.hi_inj _ _ hcol)

theorem getElem?_eq_getD {xs : List F} {i : Nat} (hi : i < xs.length) :
    xs[i]? = some (xs.getD i 0) := by
  rw [getD_eq_getElem?_getD, getElem?_eq_getElem hi]
  rfl

omit [CommRing F] in
theorem pairCells_inside {x : List F} {batch nHeads seq : Nat} {I : List Nat}
    (hx : rope.Shaped batch nHeads seq x)
    (hI : MixedRadix.Bounded [batch, nHeads, seq, rope.headDim / 2] I) :
    (rope.pairCells pairing nHeads seq I).1 ≠ (rope.pairCells pairing nHeads seq I).2 ∧
      (rope.pairCells pairing nHeads seq I).1 < x.length ∧
        (rope.pairCells pairing nHeads seq I).2 < x.length := by
  obtain ⟨b, h, s, k, rfl, hb, hh, hs, hk⟩ := bounded_four hI
  have hcell : ∀ i < 2 * (rope.headDim / 2),
      rowOf nHeads seq [b, h, s, k] * rope.headDim + i < x.length := by
    intro i hi
    rw [← rope.headDim_eq] at hi
    rw [hx.length]
    exact cell_lt (rowOf_lt hb hh hs) hi
  refine ⟨?_, hcell _ (pairing.lo_lt k hk), hcell _ (pairing.hi_lt k hk)⟩
  intro heq
  exact pairing.lo_ne_hi k hk k (Nat.add_left_cancel heq)

section Calls

variable {x y : List F} {batch nHeads seq positionOffset : Nat}

section

variable (hx : rope.Shaped batch nHeads seq x)

include hx

omit [CommRing F] in
theorem applyPairs_past {lo hi : Nat → Nat}
    (hpos : rope.maxSeq < (positionOffset + seq) % u64Size) :
    rope.applyPairs lo hi turn x batch nHeads seq positionOffset =
      some (.error (.positionOverflow rope.maxSeq ((positionOffset + seq) % u64Size)), x) := by
  have hlen : x.length = batch * nHeads * seq * rope.headDim % u64Size := by
    rw [← hx.length, mod_eq_of_lt hx.lt]
  unfold applyPairs
  rw [if_neg (not_not.2 hlen), if_pos hpos]

omit [CommRing F] in
theorem applyPairs_run {lo hi : Nat → Nat} (hpos : (positionOffset + seq) % u64Size ≤ rope.maxSeq) :
    rope.applyPairs lo hi turn x batch nHeads seq positionOffset =
      ((indices [batch, nHeads, seq, rope.headDim / 2]).foldlM (fun buf I =>
        match I with
        | [b, h, s, k] => do
          let tableOff := (positionOffset + s) % u64Size * (rope.headDim / 2) % u64Size
          let rowOff := (b * nHeads * seq * rope.headDim + h * seq * rope.headDim +
            s * rope.headDim) % u64Size
          let c ← rope.cos[(tableOff + k) % u64Size]?
          let si ← rope.sin[(tableOff + k) % u64Size]?
          updatePair ((rowOff + lo k) % u64Size) ((rowOff + hi k) % u64Size)
            (fun x0 x1 => turn c si x0 x1) buf
        | _ => none) x).map fun buf => (.ok (), buf) := by
  have hlen : x.length = batch * nHeads * seq * rope.headDim % u64Size := by
    rw [← hx.length, mod_eq_of_lt hx.lt]
  unfold applyPairs
  rw [if_neg (not_not.2 hlen), if_neg (not_lt.2 hpos), run_eq]
  rfl

variable (pairing) in
theorem applyPairs_eq_foldlM (hpos : positionOffset + seq ≤ rope.maxSeq) :
    rope.applyPairs pairing.lo pairing.hi turn x batch nHeads seq positionOffset =
      ((indices [batch, nHeads, seq, rope.headDim / 2]).foldlM (fun buf I =>
        updatePair (rope.pairCells pairing nHeads seq I).1 (rope.pairCells pairing nHeads seq I).2
          (rope.pairTurn turn positionOffset I) buf) x).map fun buf => (.ok (), buf) := by
  have hmax := rope.maxSeq_lt
  have hfit := rope.tables_fit
  have hsize : u64Size = 2 ^ 64 := rfl
  rw [applyPairs_run hx (by rw [mod_eq_of_lt (by omega)]; exact hpos)]
  congr 1
  apply foldlM_congr
  intro I hI buf
  have hinside := @pairCells_inside _ _ pairing _ _ _ _ _ hx (mem_indices.1 hI)
  obtain ⟨b, h, s, k, rfl, hb, hh, hs, hk⟩ := bounded_four (mem_indices.1 hI)
  -- the reads of the tables are in range, as the positions are checked
  have htable : (positionOffset + s) * (rope.headDim / 2) + k <
      rope.maxSeq * (rope.headDim / 2) := cell_lt (by omega) hk
  have hcos : rope.cos[(positionOffset + s) * (rope.headDim / 2) + k]? =
      some (rope.cosAt (positionOffset + s) k) :=
    getElem?_eq_getD (by rw [rope.cos_length]; exact htable)
  have hsin : rope.sin[(positionOffset + s) * (rope.headDim / 2) + k]? =
      some (rope.sinAt (positionOffset + s) k) :=
    getElem?_eq_getD (by rw [rope.sin_length]; exact htable)
  have hrow : b * nHeads * seq * rope.headDim + h * seq * rope.headDim + s * rope.headDim =
      ((b * nHeads + h) * seq + s) * rope.headDim := by ring
  have hlo := hinside.2.1.trans hx.lt
  have hhi := hinside.2.2.trans hx.lt
  simp only [pairCells, rowOf, getD_cons_zero, getD_cons_succ] at hlo hhi
  dsimp only
  rw [hrow, mod_eq_of_lt (by omega : positionOffset + s < u64Size),
    mod_eq_of_lt (by omega : (positionOffset + s) * (rope.headDim / 2) < u64Size),
    mod_eq_of_lt (by omega : (positionOffset + s) * (rope.headDim / 2) + k < u64Size),
    mod_eq_of_lt (by omega : ((b * nHeads + h) * seq + s) * rope.headDim < u64Size),
    mod_eq_of_lt hlo, mod_eq_of_lt hhi, hcos, hsin]
  rfl

end

variable (hturn : ∀ c si x0 x1, turn c si x0 x1 = (x0 * c - x1 * si, x0 * si + x1 * c))

include hturn

variable (pairing) in
theorem applyPairs_spec (hx : rope.Shaped batch nHeads seq x)
    (hpos : positionOffset + seq ≤ rope.maxSeq) :
    ∃ y, rope.applyPairs pairing.lo pairing.hi turn x batch nHeads seq positionOffset =
        some (.ok (), y) ∧
      rope.Rotated pairing (batch * nHeads * seq) (fun r => positionOffset + r % seq) x y := by
  obtain ⟨y, hrun, hylen, hcells, _⟩ := PairUpdates.foldlM_updatePair
    (rope.pairCells pairing nHeads seq) (rope.pairTurn turn positionOffset)
    (indices [batch, nHeads, seq, rope.headDim / 2]) x
    ((nodup_indices _).imp_of_mem fun hI hJ hne =>
      apart_of_ne (mem_indices.1 hI) (mem_indices.1 hJ) hne)
    fun I hI => pairCells_inside hx (mem_indices.1 hI)
  have hrotated : ∀ r < batch * nHeads * seq, ∀ k < rope.headDim / 2,
      y[r * rope.headDim + pairing.lo k]? = some
          (turn (rope.cosAt (positionOffset + r % seq) k) (rope.sinAt (positionOffset + r % seq) k)
            (x.getD (r * rope.headDim + pairing.lo k) 0)
            (x.getD (r * rope.headDim + pairing.hi k) 0)).1 ∧
        y[r * rope.headDim + pairing.hi k]? = some
          (turn (rope.cosAt (positionOffset + r % seq) k) (rope.sinAt (positionOffset + r % seq) k)
            (x.getD (r * rope.headDim + pairing.lo k) 0)
            (x.getD (r * rope.headDim + pairing.hi k) 0)).2 := by
    intro r hr k hk
    obtain ⟨b, h, s, hI, hrow, rfl⟩ := exists_turn hr hk
    have hinside := @pairCells_inside F rope pairing x batch nHeads seq _ hx hI
    have hpair := hcells _ (mem_indices.2 hI) _ _ (getElem?_eq_getD hinside.2.1)
      (getElem?_eq_getD hinside.2.2)
    simp only [pairCells, pairTurn, hrow] at hpair
    exact hpair
  refine ⟨y, ?_, hylen.trans hx.length, ?_, ?_⟩
  · rw [applyPairs_eq_foldlM pairing hx hpos, hrun]
    rfl
  · intro r hr k hk
    rw [getD_eq_getElem?_getD, (hrotated r hr k hk).1, hturn]
    rfl
  · intro r hr k hk
    rw [getD_eq_getElem?_getD, (hrotated r hr k hk).2, hturn]
    rfl

end Calls

/-! ## Buffers by rows -/

theorem ext_rows {d : Nat} {y z : List F} (hy : y.length = n * d) (hz : z.length = n * d)
    (h : ∀ r < n, ∀ i < d, y.getD (r * d + i) 0 = z.getD (r * d + i) 0) : y = z := by
  apply ext_getElem?
  intro j
  by_cases hj : j < n * d
  · have hd : 0 < d := pos_of_mul_pos_left (zero_lt_of_lt hj)
    have hcell := h (j / d) (Nat.div_lt_of_lt_mul (by rwa [mul_comm])) (j % d) (mod_lt j hd)
    rw [Nat.div_add_mod'] at hcell
    rw [getElem?_eq_getD (hy ▸ hj), getElem?_eq_getD (hz ▸ hj), hcell]
  · rw [getElem?_eq_none (by omega), getElem?_eq_none (by omega)]

/-- A buffer with `n` rows, whose cell `(r, i)` is `cell r i`. -/
def ofCells (d n : Nat) (cell : Nat → Nat → F) : List F :=
  (range (n * d)).map fun j => cell (j / d) (j % d)

omit [CommRing F] in
@[simp] theorem length_ofCells (d n : Nat) (cell : Nat → Nat → F) :
    (ofCells d n cell).length = n * d := by
  rw [ofCells, length_map, length_range]

theorem getD_ofCells {d r i : Nat} {cell : Nat → Nat → F} (hr : r < n) (hi : i < d) :
    (ofCells d n cell).getD (r * d + i) 0 = cell r i := by
  have hcell : r * d + i < n * d := cell_lt hr hi
  rw [getD_eq_getElem?_getD, ofCells, getElem?_map, getElem?_range hcell,
    Option.map_some, Option.getD_some, cell_div hi, cell_mod hi]

theorem Rotated.unique {x y z : List F} (hy : rope.Rotated pairing n pos x y)
    (hz : rope.Rotated pairing n pos x z) : y = z := by
  have hd := rope.headDim_eq
  apply ext_rows hy.length hz.length
  intro r hr i hi
  rw [hd] at hi
  obtain ⟨k, hk, rfl | rfl⟩ := pairing.cover i hi
  · rw [hy.lo r hr k hk, hz.lo r hr k hk]
  · rw [hy.hi r hr k hk, hz.hi r hr k hk]

/-- The rows that `ρ` picks are turned by the angles of the rows they come from. -/
theorem Rotated.pick {m : Nat} {pos' : Nat → Nat} {x y : List F} (ρ : Nat → Nat)
    (h : rope.Rotated pairing n pos x y) (hρ : ∀ r < m, ρ r < n ∧ pos' r = pos (ρ r)) :
    rope.Rotated pairing m pos'
      (ofCells rope.headDim m fun r i => x.getD (ρ r * rope.headDim + i) 0)
      (ofCells rope.headDim m fun r i => y.getD (ρ r * rope.headDim + i) 0) := by
  have hd := rope.headDim_eq
  refine ⟨length_ofCells _ _ _, ?_, ?_⟩
  · intro r hr k hk
    have hlo := pairing.lo_lt k hk
    have hhi := pairing.hi_lt k hk
    rw [← hd] at hlo hhi
    rw [getD_ofCells hr hlo, getD_ofCells hr hlo, getD_ofCells hr hhi, (hρ r hr).2]
    exact h.lo (ρ r) (hρ r hr).1 k hk
  · intro r hr k hk
    have hlo := pairing.lo_lt k hk
    have hhi := pairing.hi_lt k hk
    rw [← hd] at hlo hhi
    rw [getD_ofCells hr hhi, getD_ofCells hr hlo, getD_ofCells hr hhi, (hρ r hr).2]
    exact h.hi (ρ r) (hρ r hr).1 k hk

section Calls

variable (hturn : ∀ c si x0 x1, turn c si x0 x1 = (x0 * c - x1 * si, x0 * si + x1 * c))
  {x y : List F} {batch nHeads seq positionOffset : Nat}

include hturn

variable (pairing) in
/-- When a call whose positions do not wrap succeeds, and with what. -/
theorem applyPairs_eq_ok_iff (hx : rope.Shaped batch nHeads seq x)
    (hend : positionOffset + seq < u64Size) :
    rope.applyPairs pairing.lo pairing.hi turn x batch nHeads seq positionOffset =
        some (.ok (), y) ↔
      positionOffset + seq ≤ rope.maxSeq ∧
        rope.Rotated pairing (batch * nHeads * seq) (fun r => positionOffset + r % seq) x y := by
  constructor
  · intro h
    by_cases hpos : positionOffset + seq ≤ rope.maxSeq
    · obtain ⟨z, hz, hrotated⟩ := applyPairs_spec pairing hturn hx hpos
      rw [hz] at h
      cases h
      exact ⟨hpos, hrotated⟩
    · rw [applyPairs_past hx (by rw [mod_eq_of_lt hend]; omega)] at h
      cases h
  · rintro ⟨hpos, hrotated⟩
    obtain ⟨z, hz, hrotated'⟩ := applyPairs_spec pairing hturn hx hpos
    rw [hz, hrotated.unique hrotated']

end Calls

/-! ## Pieces of the sequence -/

/-- The starts and lengths of consecutive pieces. -/
def pieces : Nat → List Nat → List (Nat × Nat)
  | _, [] => []
  | start, n :: ns => (start, n) :: pieces (start + n) ns

/-- The piece of a `[rows, seq, d]` buffer with `n` positions from `start` on. -/
def seqPiece (d rows seq : Nat) (piece : Nat × Nat) (x : List F) : List F :=
  ofCells d (rows * piece.2) fun r i =>
    x.getD ((r / piece.2 * seq + (piece.1 + r % piece.2)) * d + i) 0

theorem mem_pieces : ∀ {start : Nat} {q : Nat × Nat}, q ∈ pieces start ns →
    start ≤ q.1 ∧ q.1 + q.2 ≤ start + ns.sum := by
  induction ns with
  | nil =>
    intro start q hq
    cases hq
  | cons n ns ih =>
    intro start q hq
    rw [sum_cons]
    rcases mem_cons.1 hq with rfl | hq
    · dsimp only
      omega
    · have h := ih hq
      omega

theorem exists_piece : ∀ {start s : Nat}, start ≤ s → s < start + ns.sum →
    ∃ q ∈ pieces start ns, q.1 ≤ s ∧ s < q.1 + q.2 := by
  induction ns with
  | nil =>
    intro start s hle hlt
    rw [sum_nil] at hlt
    omega
  | cons n ns ih =>
    intro start s hle hlt
    rw [sum_cons, ← Nat.add_assoc] at hlt
    by_cases hin : s < start + n
    · exact ⟨(start, n), mem_cons_self, hle, hin⟩
    · obtain ⟨q, hq, hs⟩ := ih (not_lt.1 hin) hlt
      exact ⟨q, mem_cons_of_mem _ hq, hs⟩

theorem exists_last (hne : ns ≠ []) :
    ∀ start, ∃ q ∈ pieces start ns, q.1 + q.2 = start + ns.sum := by
  induction ns with
  | nil => exact absurd rfl hne
  | cons n ns ih =>
    intro start
    by_cases hnil : ns = []
    · subst hnil
      exact ⟨(start, n), mem_cons_self, rfl⟩
    · obtain ⟨q, hq, hlast⟩ := ih hnil (start + n)
      refine ⟨q, mem_cons_of_mem _ hq, ?_⟩
      rw [hlast, sum_cons, Nat.add_assoc]

theorem Rotated.piece {rows seq positionOffset : Nat} {x y : List F} {q : Nat × Nat}
    (h : rope.Rotated pairing (rows * seq) (fun r => positionOffset + r % seq) x y)
    (hq : q.1 + q.2 ≤ seq) :
    rope.Rotated pairing (rows * q.2) (fun r => positionOffset + q.1 + r % q.2)
      (seqPiece rope.headDim rows seq q x) (seqPiece rope.headDim rows seq q y) := by
  apply h.pick
  intro r hr
  have hn : 0 < q.2 := pos_of_mul_pos_left (zero_lt_of_lt hr)
  have hrow : r / q.2 < rows := Nat.div_lt_of_lt_mul (by rwa [mul_comm])
  have hmod := mod_lt r hn
  have hin : q.1 + r % q.2 < seq := by omega
  refine ⟨cell_lt hrow hin, ?_⟩
  rw [mul_comm, Nat.mul_add_mod, mod_eq_of_lt hin, Nat.add_assoc]

omit [CommRing F] in
theorem Shaped.of_le {batch nHeads seq m : Nat} {x z : List F} (hx : rope.Shaped batch nHeads seq x)
    (hm : m ≤ seq) (hz : z.length = batch * nHeads * m * rope.headDim) :
    rope.Shaped batch nHeads m z := by
  have hle : z.length ≤ x.length := by
    rw [hz, hx.length]
    gcongr
  have hfits := hx.fits
  exact ⟨hz, by omega⟩

theorem Shaped.seqPiece {batch nHeads seq : Nat} {q : Nat × Nat} {x : List F}
    (hx : rope.Shaped batch nHeads seq x) (hq : q.1 + q.2 ≤ seq) :
    rope.Shaped batch nHeads q.2 (seqPiece rope.headDim (batch * nHeads) seq q x) :=
  hx.of_le (by omega) (length_ofCells _ _ _)

/-- Cutting the sequence anywhere and rotating the pieces is rotating the whole. -/
theorem applyPairs_cut
    (hturn : ∀ c si x0 x1, turn c si x0 x1 = (x0 * c - x1 * si, x0 * si + x1 * c))
    {x y : List F} {batch nHeads seq positionOffset : Nat} (hx : rope.Shaped batch nHeads seq x)
    (hy : rope.Shaped batch nHeads seq y) (hend : positionOffset + seq < u64Size)
    {lens : List Nat} (hne : lens ≠ []) (hsum : lens.sum = seq) :
    rope.applyPairs pairing.lo pairing.hi turn x batch nHeads seq positionOffset =
        some (.ok (), y) ↔
      ∀ q ∈ pieces 0 lens,
        rope.applyPairs pairing.lo pairing.hi turn
            (seqPiece rope.headDim (batch * nHeads) seq q x) batch nHeads q.2
            (positionOffset + q.1) =
          some (.ok (), seqPiece rope.headDim (batch * nHeads) seq q y) := by
  have hfit : ∀ q ∈ pieces 0 lens, q.1 + q.2 ≤ seq := by
    intro q hq
    have h := (mem_pieces hq).2
    omega
  have hpiece : ∀ q ∈ pieces 0 lens,
      (rope.applyPairs pairing.lo pairing.hi turn
          (seqPiece rope.headDim (batch * nHeads) seq q x) batch nHeads q.2
          (positionOffset + q.1) =
            some (.ok (), seqPiece rope.headDim (batch * nHeads) seq q y)) ↔
        positionOffset + q.1 + q.2 ≤ rope.maxSeq ∧
          rope.Rotated pairing (batch * nHeads * q.2) (fun r => positionOffset + q.1 + r % q.2)
            (seqPiece rope.headDim (batch * nHeads) seq q x)
            (seqPiece rope.headDim (batch * nHeads) seq q y) := by
    intro q hq
    have hq' := hfit q hq
    exact applyPairs_eq_ok_iff pairing hturn (hx.seqPiece hq') (by omega)
  constructor
  · intro h q hq
    obtain ⟨hpos, hrotated⟩ := (applyPairs_eq_ok_iff pairing hturn hx hend).1 h
    have hq' := hfit q hq
    exact (hpiece q hq).2 ⟨by omega, hrotated.piece hq'⟩
  · intro h
    obtain ⟨last, hlast, hstop⟩ := exists_last hne 0
    have hpos := ((hpiece last hlast).1 (h last hlast)).1
    obtain ⟨z, hz, hrotated⟩ := applyPairs_spec pairing hturn hx
      (by omega : positionOffset + seq ≤ rope.maxSeq)
    have hzy : z = y := by
      apply ext_rows hrotated.length hy.length
      intro r hr i hi
      have hseq : 0 < seq := pos_of_mul_pos_left (zero_lt_of_lt hr)
      have hin : r % seq < 0 + lens.sum := by
        rw [zero_add, hsum]
        exact mod_lt r hseq
      obtain ⟨q, hq, hstart, hstop⟩ := exists_piece (Nat.zero_le (r % seq)) hin
      -- row `r` is one of the rows of the piece that holds its position
      have hsame := ((hpiece q hq).1 (h q hq)).2.unique (hrotated.piece (hfit q hq))
      have hrow : r / seq * q.2 + (r % seq - q.1) < batch * nHeads * q.2 :=
        cell_lt (Nat.div_lt_of_lt_mul (by rwa [mul_comm])) (by omega)
      have hcell := congrArg
        (fun w => w.getD ((r / seq * q.2 + (r % seq - q.1)) * rope.headDim + i) 0) hsame
      have ht : r % seq - q.1 < q.2 := by omega
      have hdiv : (r / seq * q.2 + (r % seq - q.1)) / q.2 = r / seq := cell_div ht
      have hmod : (r / seq * q.2 + (r % seq - q.1)) % q.2 = r % seq - q.1 := cell_mod ht
      have hback : r / seq * seq + (q.1 + (r % seq - q.1)) = r := by
        rw [Nat.add_sub_cancel' hstart, Nat.div_add_mod']
      simp only [seqPiece] at hcell
      rw [getD_ofCells hrow hi, getD_ofCells hrow hi, hdiv, hmod, hback] at hcell
      exact hcell.symm
    rw [hz, hzy]

/-! ## The two layouts -/

/-- In every row, the halves woven into neighbours. -/
def toInterleaved (d n : Nat) (x : List F) : List F :=
  ofCells d n fun r i => x.getD (r * d + if i % 2 = 0 then i / 2 else i / 2 + d / 2) 0

/-- In every row, neighbours taken apart into halves: dimension `k` comes from `2k`, and dimension
`k + d / 2` from `2k + 1`. -/
def toHalfSplit (d n : Nat) (x : List F) : List F :=
  ofCells d n fun r i => x.getD (r * d + if i < d / 2 then 2 * i else 2 * (i - d / 2) + 1) 0

theorem toHalfSplit_toInterleaved {d : Nat} (hd : d = 2 * (d / 2)) {x : List F}
    (hx : x.length = n * d) : toHalfSplit d n (toInterleaved d n x) = x := by
  have hlen : (toHalfSplit d n (toInterleaved d n x)).length = n * d := length_ofCells _ _ _
  apply ext_rows hlen hx
  intro r hr i hi
  rw [toHalfSplit, getD_ofCells hr hi]
  split_ifs with h
  · rw [toInterleaved, getD_ofCells hr (by omega), if_pos (by omega)]
    congr 2
    omega
  · rw [toInterleaved, getD_ofCells hr (by omega), if_neg (by omega)]
    congr 2
    omega

theorem Rotated.interleave {x y : List F}
    (h : rope.Rotated (halfSplit (rope.headDim / 2)) n pos x y) :
    rope.Rotated (interleaved (rope.headDim / 2)) n pos (toInterleaved rope.headDim n x)
      (toInterleaved rope.headDim n y) := by
  have hlo : ∀ (z : List F), ∀ r < n, ∀ k < rope.headDim / 2,
      (toInterleaved rope.headDim n z).getD (r * rope.headDim + 2 * k) 0 =
        z.getD (r * rope.headDim + k) 0 := by
    intro z r hr k hk
    rw [toInterleaved, getD_ofCells hr (by omega), if_pos (by omega)]
    congr 2
    omega
  have hhi : ∀ (z : List F), ∀ r < n, ∀ k < rope.headDim / 2,
      (toInterleaved rope.headDim n z).getD (r * rope.headDim + (2 * k + 1)) 0 =
        z.getD (r * rope.headDim + (k + rope.headDim / 2)) 0 := by
    intro z r hr k hk
    rw [toInterleaved, getD_ofCells hr (by omega), if_neg (by omega)]
    congr 2
    omega
  refine ⟨length_ofCells _ _ _, ?_, ?_⟩
  · intro r hr k hk
    change getD _ (r * rope.headDim + 2 * k) 0 = getD _ (r * rope.headDim + 2 * k) 0 * _ -
      getD _ (r * rope.headDim + (2 * k + 1)) 0 * _
    rw [hlo y r hr k hk, hlo x r hr k hk, hhi x r hr k hk]
    exact h.lo r hr k hk
  · intro r hr k hk
    change getD _ (r * rope.headDim + (2 * k + 1)) 0 =
      getD _ (r * rope.headDim + 2 * k) 0 * _ +
        getD _ (r * rope.headDim + (2 * k + 1)) 0 * _
    rw [hhi y r hr k hk, hlo x r hr k hk, hhi x r hr k hk]
    exact h.hi r hr k hk

/-! ## Inner products -/

/-- The tables hold the powers of one rotation for each pair. -/
structure RotationTables (rope : RoPE F) : Prop where
  cos_add : ∀ k < rope.headDim / 2, ∀ p q, p + q < rope.maxSeq →
    rope.cosAt (p + q) k = rope.cosAt p k * rope.cosAt q k - rope.sinAt p k * rope.sinAt q k
  sin_add : ∀ k < rope.headDim / 2, ∀ p q, p + q < rope.maxSeq →
    rope.sinAt (p + q) k = rope.sinAt p k * rope.cosAt q k + rope.cosAt p k * rope.sinAt q k
  norm : ∀ k < rope.headDim / 2, ∀ p < rope.maxSeq,
    rope.cosAt p k * rope.cosAt p k + rope.sinAt p k * rope.sinAt p k = 1

def dot (d : Nat) (y z : List F) : F :=
  ∑ i ∈ Finset.range d, y.getD i 0 * z.getD i 0

theorem dot_comm (d : Nat) (y z : List F) : dot d y z = dot d z y :=
  Finset.sum_congr rfl fun _ _ => mul_comm _ _

theorem sum_pairs (pairing : Pairing half) (g : Nat → F) : ∑ i ∈ Finset.range (2 * half), g i =
      ∑ k ∈ Finset.range half, (g (pairing.lo k) + g (pairing.hi k)) := by
  have hsplit : Finset.range (2 * half) =
      (Finset.range half).image pairing.lo ∪ (Finset.range half).image pairing.hi := by
    ext i
    simp only [Finset.mem_range, Finset.mem_union, Finset.mem_image]
    constructor
    · intro hi
      obtain ⟨k, hk, rfl | rfl⟩ := pairing.cover i hi
      · exact Or.inl ⟨k, hk, rfl⟩
      · exact Or.inr ⟨k, hk, rfl⟩
    · rintro (⟨k, hk, rfl⟩ | ⟨k, hk, rfl⟩)
      · exact pairing.lo_lt k hk
      · exact pairing.hi_lt k hk
  have hdisj : Disjoint ((Finset.range half).image pairing.lo)
      ((Finset.range half).image pairing.hi) := by
    rw [Finset.disjoint_left]
    intro i hlo hhi
    obtain ⟨k, hk, rfl⟩ := Finset.mem_image.1 hlo
    obtain ⟨l, _, hl⟩ := Finset.mem_image.1 hhi
    exact pairing.lo_ne_hi k (Finset.mem_range.1 hk) l hl.symm
  rw [hsplit, Finset.sum_union hdisj, Finset.sum_image fun k _ l _ h => pairing.lo_inj k l h,
    Finset.sum_image fun k _ l _ h => pairing.hi_inj k l h, Finset.sum_add_distrib]

/-- Rows rotated `m` positions apart: the positions themselves cancel. -/
theorem dot_rotated (htables : rope.RotationTables) {u v y z : List F} {p m : Nat}
    (hm : p + m < rope.maxSeq) (hy : rope.Rotated pairing 1 (fun _ => p) u y)
    (hz : rope.Rotated pairing 1 (fun _ => p + m) v z) :
    dot rope.headDim y z = ∑ k ∈ Finset.range (rope.headDim / 2),
      ((u.getD (pairing.lo k) 0 * v.getD (pairing.lo k) 0 +
          u.getD (pairing.hi k) 0 * v.getD (pairing.hi k) 0) * rope.cosAt m k +
        (u.getD (pairing.hi k) 0 * v.getD (pairing.lo k) 0 -
          u.getD (pairing.lo k) 0 * v.getD (pairing.hi k) 0) * rope.sinAt m k) := by
  have hd := rope.headDim_eq
  rw [dot]
  conv_lhs => rw [hd]
  rw [sum_pairs pairing]
  apply Finset.sum_congr rfl
  intro k hk
  have hk' := Finset.mem_range.1 hk
  have hylo := hy.lo 0 Nat.one_pos k hk'
  have hyhi := hy.hi 0 Nat.one_pos k hk'
  have hzlo := hz.lo 0 Nat.one_pos k hk'
  have hzhi := hz.hi 0 Nat.one_pos k hk'
  rw [Nat.zero_mul, zero_add, zero_add] at hylo hyhi hzlo hzhi
  rw [hylo, hyhi, hzlo, hzhi, htables.cos_add k hk' p m hm, htables.sin_add k hk' p m hm]
  have hnorm := htables.norm k hk' p (by omega)
  linear_combination
    ((u.getD (pairing.lo k) 0 * v.getD (pairing.lo k) 0 +
        u.getD (pairing.hi k) 0 * v.getD (pairing.hi k) 0) * rope.cosAt m k +
      (u.getD (pairing.hi k) 0 * v.getD (pairing.lo k) 0 -
        u.getD (pairing.lo k) 0 * v.getD (pairing.hi k) 0) * rope.sinAt m k) * hnorm

end Spec

/-! ## Position consistency -/

/-- One of the two calls, for one `RoPE`. -/
abbrev Apply (F : Type) :=
  List F → Nat → Nat → Nat → Nat → Option (Except RoPEError Unit × List F)

/-- What the rotation of the `[batch, nHeads, seq, headDim]` buffers at position `p` owes its
callers. -/
structure PositionConsistent (rope : RoPE F) (apply : Apply F) (batch nHeads seq p : Nat) :
    Prop where
  /-- An error leaves the buffer as it was. -/
  error : ∀ x e y, apply x batch nHeads seq p = some (.error e, y) → y = x
  /-- No index is out of bounds. -/
  returns : ∀ x, rope.Shaped batch nHeads seq x → ∃ r, apply x batch nHeads seq p = some r
  /-- Pieces of the sequence are rotated at their own offsets. -/
  cut : ∀ x y, rope.Shaped batch nHeads seq x → rope.Shaped batch nHeads seq y →
    ∀ lens : List Nat, lens ≠ [] → lens.sum = seq →
      (∀ q ∈ pieces 0 lens, p + q.1 < u64Size) →
        (apply x batch nHeads seq p = some (.ok (), y) ↔
          ∀ q ∈ pieces 0 lens,
            apply (seqPiece rope.headDim (batch * nHeads) seq q x) batch nHeads q.2 (p + q.1) =
              some (.ok (), seqPiece rope.headDim (batch * nHeads) seq q y))
  /-- A row is rotated as if it were alone at its position. -/
  row : ∀ x y, rope.Shaped batch nHeads seq x → apply x batch nHeads seq p = some (.ok (), y) →
    ∀ r < batch * nHeads * seq, apply (row rope.headDim r x) 1 1 1 (p + r % seq) =
      some (.ok (), row rope.headDim r y)
  /-- An inner product of rotated rows depends on how far their positions are apart. -/
  relative : rope.RotationTables → ∀ u v, rope.Shaped 1 1 1 u → rope.Shaped 1 1 1 v →
    ∀ p < u64Size, ∀ p' < u64Size, ∀ q < u64Size, ∀ q' < u64Size, p' + q = q' + p →
      ∀ y y' z z', apply u 1 1 1 p = some (.ok (), y) → apply v 1 1 1 p' = some (.ok (), y') →
        apply u 1 1 1 q = some (.ok (), z) → apply v 1 1 1 q' = some (.ok (), z') →
          dot rope.headDim y y' = dot rope.headDim z z'

/-- Both calls are consistent over positions, and the one on halves is the one on neighbours with
the halves of every row woven into neighbours. -/
structure Consistent (rope : RoPE F) (batch nHeads seq p : Nat) : Prop where
  neighbours : rope.PositionConsistent rope.applyInplace batch nHeads seq p
  halves : rope.PositionConsistent rope.applyInplaceHalfSplit batch nHeads seq p
  conjugate : ∀ x, rope.Shaped batch nHeads seq x → rope.applyInplaceHalfSplit x batch nHeads seq p =
    (rope.applyInplace (toInterleaved rope.headDim (batch * nHeads * seq) x) batch nHeads seq
      p).map fun ry => (ry.1, toHalfSplit rope.headDim (batch * nHeads * seq) ry.2)

/-- The arguments are `usize` and a slice can have the shape. -/
structure Callable (rope : RoPE F) (batch nHeads seq p : Nat) : Prop where
  seq_lt : seq < u64Size
  pos_lt : p < u64Size
  fits : 4 * (batch * nHeads * seq * rope.headDim) < 2 ^ 63

section Consistency

variable {rope : RoPE F} {pairing : Pairing (rope.headDim / 2)} {turn : F → F → F → F → F × F}
  {batch nHeads seq p : Nat} {x : List F}

theorem Callable.shaped (h : rope.Callable batch nHeads seq p) :
    rope.Shaped batch nHeads seq (replicate (batch * nHeads * seq * rope.headDim) 0) := by
  have hfits := h.fits
  exact ⟨length_replicate, by rwa [length_replicate]⟩

section

variable (hx : rope.Shaped batch nHeads seq x)

include hx

omit [CommRing F] in
/-- The first reads of the tables are far past their ends once the last position wraps. -/
theorem applyPairs_outside {lo hi : Nat → Nat} (hsome : 0 < batch * nHeads * (rope.headDim / 2))
    (hp : p < u64Size) (hwrap : u64Size ≤ p + seq) (hpos : (p + seq) % u64Size ≤ rope.maxSeq) :
    rope.applyPairs lo hi turn x batch nHeads seq p = none := by
  have hsize : u64Size = 2 ^ 64 := rfl
  have hbh : 0 < batch * nHeads := Nat.pos_of_mul_pos_right hsome
  have hhalf : 0 < rope.headDim / 2 := pos_of_mul_pos_left hsome
  have hfirst : [0, 0, 0, 0] ∈ indices [batch, nHeads, seq, rope.headDim / 2] :=
    mem_indices.2 (.cons (Nat.pos_of_mul_pos_right hbh)
      (.cons (pos_of_mul_pos_left hbh) (.cons (by omega) (.cons hhalf .nil))))
  -- `p` is at most `seq` below `2 ^ 64`, so its row of the tables is as near to `2 ^ 64`
  have hgap : (u64Size - p) * (rope.headDim / 2) ≤ x.length := by
    rw [hx.length]
    calc (u64Size - p) * (rope.headDim / 2) ≤ seq * rope.headDim :=
          Nat.mul_le_mul (by omega) (by omega)
      _ ≤ batch * nHeads * (seq * rope.headDim) := Nat.le_mul_of_pos_left _ hbh
      _ = batch * nHeads * seq * rope.headDim := (Nat.mul_assoc _ _ _).symm
  have hrow : p * (rope.headDim / 2) % u64Size = u64Size - (u64Size - p) * (rope.headDim / 2) := by
    have hpos' : 0 < (u64Size - p) * (rope.headDim / 2) := Nat.mul_pos (by omega) hhalf
    have hsum : p * (rope.headDim / 2) + (u64Size - p) * (rope.headDim / 2) =
        u64Size * (rope.headDim / 2) := by
      rw [← Nat.add_mul, Nat.add_sub_cancel' hp.le]
    have hlt := hx.lt
    obtain ⟨m, hm⟩ : ∃ m, rope.headDim / 2 = m + 1 := ⟨_, (Nat.sub_add_cancel hhalf).symm⟩
    have hsplit : p * (rope.headDim / 2) =
        u64Size - (u64Size - p) * (rope.headDim / 2) + u64Size * m := by
      have hexp : u64Size * (rope.headDim / 2) = u64Size * m + u64Size := by rw [hm, Nat.mul_succ]
      omega
    rw [hsplit, Nat.add_mul_mod_self_left, mod_eq_of_lt (by omega)]
  have hcos : rope.cos[p * (rope.headDim / 2) % u64Size]? = none := by
    have hlen := rope.cos_length
    have htables := rope.tables_fit
    have hfits := hx.fits
    exact getElem?_eq_none (by omega)
  rw [applyPairs_run hx hpos, Option.map_eq_none_iff]
  apply foldlM_eq_none hfirst
  intro buf
  simp [mod_eq_of_lt hp, hcos]

omit [CommRing F] in
/-- Without a pair to turn, a call that passes the checks changes nothing. -/
theorem applyPairs_empty {lo hi : Nat → Nat} (hnone : batch * nHeads * (rope.headDim / 2) = 0)
    (hpos : (p + seq) % u64Size ≤ rope.maxSeq) :
    rope.applyPairs lo hi turn x batch nHeads seq p = some (.ok (), x) := by
  have hnil : indices [batch, nHeads, seq, rope.headDim / 2] = [] := by
    rw [← length_eq_zero_iff, length_indices]
    simp only [prod_cons, prod_nil, Nat.mul_one]
    calc batch * (nHeads * (seq * (rope.headDim / 2))) =
          batch * nHeads * (rope.headDim / 2) * seq := by ring
      _ = 0 := by rw [hnone, Nat.zero_mul]
  rw [applyPairs_run hx hpos, hnil]
  rfl

omit hx [CommRing F] in
theorem applyPairs_error {lo hi : Nat → Nat} {e : RoPEError} {y : List F}
    (h : rope.applyPairs lo hi turn x batch nHeads seq p = some (.error e, y)) : y = x := by
  unfold applyPairs at h
  dsimp only at h
  split_ifs at h
  · cases h
    rfl
  · cases h
    rfl
  · obtain ⟨_, _, hbuf⟩ := Option.map_eq_some_iff.1 h
    cases hbuf

omit hx in
theorem row_eq_ofCells {n r d : Nat} {x : List F} (hx : x.length = n * d) (hr : r < n) :
    row d r x = ofCells d 1 fun r' i => x.getD ((r + r') * d + i) 0 := by
  have hfit : (r + 1) * d ≤ x.length := by
    rw [hx]
    exact Nat.mul_le_mul_right d hr
  have hlen : (row d r x).length = 1 * d := by
    rw [length_row hfit, Nat.one_mul]
  apply ext_rows hlen (length_ofCells _ _ _)
  intro r' hr' i hi
  obtain rfl : r' = 0 := by omega
  rw [getD_ofCells hr' hi, Nat.zero_mul, zero_add, getD_eq_getElem?_getD,
    getElem?_row, if_pos hi, getD_eq_getElem?_getD]
  rfl

omit [CommRing F] in
theorem Shaped.row {r : Nat} (hr : r < batch * nHeads * seq) :
    rope.Shaped 1 1 1 (Rows.row rope.headDim r x) := by
  have hfit : (r + 1) * rope.headDim ≤ x.length := by
    rw [hx.length]
    exact Nat.mul_le_mul_right _ hr
  have hlen : (Rows.row rope.headDim r x).length = rope.headDim := length_row hfit
  have hle : rope.headDim ≤ (r + 1) * rope.headDim := Nat.le_mul_of_pos_left _ r.succ_pos
  have hfits := hx.fits
  exact ⟨by simpa using hlen, by omega⟩

end

section Turns

variable (hturn : ∀ c si x0 x1, turn c si x0 x1 = (x0 * c - x1 * si, x0 * si + x1 * c))

include hturn

theorem applyPairs_relative (htables : rope.RotationTables) {u v : List F}
    (hu : rope.Shaped 1 1 1 u) (hv : rope.Shaped 1 1 1 v) {p p' q q' : Nat} (hp : p < u64Size)
    (hp' : p' < u64Size) (hq : q < u64Size) (hq' : q' < u64Size) (hdiff : p' + q = q' + p)
    {y y' z z' : List F}
    (hy : rope.applyPairs pairing.lo pairing.hi turn u 1 1 1 p = some (.ok (), y))
    (hy' : rope.applyPairs pairing.lo pairing.hi turn v 1 1 1 p' = some (.ok (), y'))
    (hz : rope.applyPairs pairing.lo pairing.hi turn u 1 1 1 q = some (.ok (), z))
    (hz' : rope.applyPairs pairing.lo pairing.hi turn v 1 1 1 q' = some (.ok (), z')) :
    dot rope.headDim y y' = dot rope.headDim z z' := by
  by_cases hdim : rope.headDim / 2 = 0
  · have hd := rope.headDim_eq
    rw [hd, hdim]
    rfl
  · have hok : ∀ {w t : List F} {s : Nat}, rope.Shaped 1 1 1 w → s < u64Size →
        rope.applyPairs pairing.lo pairing.hi turn w 1 1 1 s = some (.ok (), t) →
          s + 1 ≤ rope.maxSeq ∧ rope.Rotated pairing 1 (fun _ => s) w t := by
      intro w t s hw hs happly
      have hend : s + 1 < u64Size := by
        by_contra hwrap
        have hzero : (s + 1) % u64Size = 0 := by
          rw [(by omega : s + 1 = u64Size), Nat.mod_self]
        rw [applyPairs_outside hw (by omega) hs (by omega) (by omega)] at happly
        cases happly
      obtain ⟨hpos, hrotated⟩ := (applyPairs_eq_ok_iff pairing hturn hw hend).1 happly
      refine ⟨hpos, ?_⟩
      simpa [Nat.mod_one] using hrotated
    obtain ⟨hp, hy⟩ := hok hu hp hy
    obtain ⟨hp', hy'⟩ := hok hv hp' hy'
    obtain ⟨hq, hz⟩ := hok hu hq hz
    obtain ⟨hq', hz'⟩ := hok hv hq' hz'
    rcases Nat.le_total p p' with hle | hle
    · obtain ⟨m, rfl⟩ := Nat.exists_eq_add_of_le hle
      obtain rfl : q' = q + m := by omega
      rw [dot_rotated htables (by omega) hy hy', dot_rotated htables (by omega) hz hz']
    · obtain ⟨m, rfl⟩ := Nat.exists_eq_add_of_le hle
      obtain rfl : q = q' + m := by omega
      rw [dot_comm, dot_rotated htables (by omega) hy' hy, dot_comm,
        dot_rotated htables (by omega) hz' hz]

variable (pairing) in
/-- While the last position does not wrap, every part of the contract holds. -/
theorem positionConsistent (hend : p + seq < u64Size) :
    PositionConsistent rope (rope.applyPairs pairing.lo pairing.hi turn) batch nHeads seq p where
  error _ _ _ := applyPairs_error
  returns x hx := by
    by_cases hpos : p + seq ≤ rope.maxSeq
    · obtain ⟨y, hy, _⟩ := applyPairs_spec pairing hturn hx hpos
      exact ⟨_, hy⟩
    · exact ⟨_, applyPairs_past hx (by rw [mod_eq_of_lt hend]; omega)⟩
  cut _ _ hx hy _ hne hsum _ := applyPairs_cut hturn hx hy hend hne hsum
  row x y hx happly r hr := by
    obtain ⟨hpos, hrotated⟩ := (applyPairs_eq_ok_iff pairing hturn hx hend).1 happly
    have hseq : 0 < seq := pos_of_mul_pos_left (zero_lt_of_lt hr)
    have hmod := mod_lt r hseq
    refine (applyPairs_eq_ok_iff pairing hturn (hx.row hr) (by omega)).2 ⟨by omega, ?_⟩
    rw [row_eq_ofCells hx.length hr, row_eq_ofCells hrotated.length hr]
    apply hrotated.pick
    intro r' hr'
    obtain rfl : r' = 0 := by omega
    exact ⟨hr, by simp⟩
  relative htables _ _ hu hv _ hp _ hp' _ hq _ hq' hdiff _ _ _ _ :=
    applyPairs_relative hturn htables hu hv hp hp' hq hq' hdiff

variable (pairing) in
/-- A wrapped position that the check refuses is refused for the last piece too. -/
theorem positionConsistent_past (hpast : rope.maxSeq < (p + seq) % u64Size) :
    PositionConsistent rope (rope.applyPairs pairing.lo pairing.hi turn) batch nHeads seq p where
  error _ _ _ := applyPairs_error
  returns x hx := ⟨_, applyPairs_past hx hpast⟩
  cut x y hx hy lens hne hsum _ := by
    have herr : rope.applyPairs pairing.lo pairing.hi turn x batch nHeads seq p = _ :=
      applyPairs_past hx hpast
    constructor
    · intro h
      rw [herr] at h
      cases h
    · intro h
      obtain ⟨last, hlast, hstop⟩ := exists_last hne 0
      have hle := (mem_pieces hlast).2
      have hsame : p + last.1 + last.2 = p + seq := by omega
      have hok := h last hlast
      rw [applyPairs_past (hx.seqPiece (by omega)) (by rwa [hsame])] at hok
      cases hok
  row x y hx happly := by
    rw [applyPairs_past hx hpast] at happly
    cases happly
  relative htables _ _ hu hv _ hp _ hp' _ hq _ hq' hdiff _ _ _ _ :=
    applyPairs_relative hturn htables hu hv hp hp' hq hq' hdiff

variable (pairing) in
/-- Tables for every position that have no column: no check fails and nothing is turned. -/
theorem positionConsistent_flat (hmax : rope.maxSeq + 1 = u64Size) :
    PositionConsistent rope (rope.applyPairs pairing.lo pairing.hi turn) batch nHeads seq p := by
  have hsize : u64Size = 2 ^ 64 := rfl
  have hhalf : rope.headDim / 2 = 0 := by
    have htables := rope.tables_fit
    by_contra hne
    have hle : rope.maxSeq ≤ rope.maxSeq * (rope.headDim / 2) :=
      Nat.le_mul_of_pos_right _ (Nat.pos_of_ne_zero hne)
    omega
  have hdim : rope.headDim = 0 := by
    rw [rope.headDim_eq, hhalf]
  have hok : ∀ {batch nHeads seq p : Nat} {x : List F}, rope.Shaped batch nHeads seq x →
      rope.applyPairs pairing.lo pairing.hi turn x batch nHeads seq p = some (.ok (), x) := by
    intro batch nHeads seq p x hx
    have hlt := mod_lt (p + seq) u64Size_pos
    exact applyPairs_empty hx (by rw [hhalf, Nat.mul_zero]) (by omega)
  have hnil : ∀ {batch nHeads seq : Nat} {x : List F}, rope.Shaped batch nHeads seq x → x = [] :=
    fun hx => length_eq_zero_iff.1 (hx.length.trans (by rw [hdim, Nat.mul_zero]))
  refine ⟨fun _ _ _ => applyPairs_error, fun x hx => ⟨_, hok hx⟩, ?_, ?_, ?_⟩
  · intro x y hx hy lens hne hsum _
    have hxy : x = y := (hnil hx).trans (hnil hy).symm
    subst hxy
    refine iff_of_true (hok hx) ?_
    intro q hq
    have hle := (mem_pieces hq).2
    exact hok (hx.seqPiece (by omega))
  · intro x y hx happly r hr
    rw [hok hx] at happly
    cases happly
    exact hok (hx.row hr)
  · intro htables _ _ hu hv _ hp _ hp' _ hq _ hq' hdiff _ _ _ _
    exact applyPairs_relative hturn htables hu hv hp hp' hq hq' hdiff

end Turns

/-- Otherwise the call panics, or it passes what it refuses for a piece. -/
theorem PositionConsistent.fits {lo hi : Nat → Nat} (hcall : rope.Callable batch nHeads seq p)
    (h : PositionConsistent rope (rope.applyPairs lo hi turn) batch nHeads seq p) :
    p + seq < u64Size ∨ rope.maxSeq < (p + seq) % u64Size ∨ rope.maxSeq + 1 = u64Size := by
  by_contra hnot
  obtain ⟨hwrap, hpos, hmax⟩ : u64Size ≤ p + seq ∧ (p + seq) % u64Size ≤ rope.maxSeq ∧
      rope.maxSeq + 1 ≠ u64Size := by
    refine ⟨?_, ?_, ?_⟩ <;> omega
  have hlt := rope.maxSeq_lt
  have hp := hcall.pos_lt
  by_cases hnone : batch * nHeads * (rope.headDim / 2) = 0
  · -- the first piece ends at the last position that there is
    obtain ⟨rest, hrest⟩ : ∃ rest, u64Size - 1 - p + rest = seq := ⟨seq - (u64Size - 1 - p), by omega⟩
    have hcut := (h.cut _ _ hcall.shaped hcall.shaped [u64Size - 1 - p, rest] (cons_ne_nil _ _)
      (by simpa using hrest) (by simp [pieces]; omega)).1 (applyPairs_empty hcall.shaped hnone hpos)
    have hfirst := hcut (0, u64Size - 1 - p) mem_cons_self
    have hend : p + 0 + (u64Size - 1 - p) = u64Size - 1 := by omega
    rw [applyPairs_past (hcall.shaped.seqPiece (by omega))
      (by rw [hend, mod_eq_of_lt (by omega)]; omega)] at hfirst
    cases hfirst
  · obtain ⟨r, hr⟩ := h.returns _ hcall.shaped
    rw [applyPairs_outside hcall.shaped (Nat.pos_of_ne_zero hnone) hp hwrap hpos] at hr
    cases hr

/-- Both calls turn a pair alike. -/
theorem turn_comm (c si x0 x1 : F) :
    (x0 * c - x1 * si, x1 * c + x0 * si) = (x0 * c - x1 * si, x0 * si + x1 * c) := by
  rw [add_comm (x1 * c)]

theorem conjugate (hx : rope.Shaped batch nHeads seq x) (hp : p < u64Size) :
    rope.applyInplaceHalfSplit x batch nHeads seq p =
      (rope.applyInplace (toInterleaved rope.headDim (batch * nHeads * seq) x) batch nHeads seq
        p).map fun ry => (ry.1, toHalfSplit rope.headDim (batch * nHeads * seq) ry.2) := by
  have hx' : rope.Shaped batch nHeads seq
      (toInterleaved rope.headDim (batch * nHeads * seq) x) :=
    hx.of_le le_rfl (length_ofCells _ _ _)
  have hback : ∀ {z : List F}, z.length = batch * nHeads * seq * rope.headDim →
      toHalfSplit rope.headDim (batch * nHeads * seq)
        (toInterleaved rope.headDim (batch * nHeads * seq) z) = z :=
    toHalfSplit_toInterleaved rope.headDim_eq
  rw [applyInplaceHalfSplit, applyInplace]
  by_cases hpos : (p + seq) % u64Size ≤ rope.maxSeq
  · by_cases hnone : batch * nHeads * (rope.headDim / 2) = 0
    · rw [applyPairs_empty hx hnone hpos, applyPairs_empty hx' hnone hpos, Option.map_some,
        hback hx.length]
    · by_cases hend : p + seq < u64Size
      · rw [mod_eq_of_lt hend] at hpos
        obtain ⟨y, hy, hrotated⟩ := applyPairs_spec (halfSplit _) turn_comm hx hpos
        have hwoven := (applyPairs_eq_ok_iff (interleaved _) (fun _ _ _ _ => rfl) hx' hend).2
          ⟨hpos, hrotated.interleave⟩
        exact hy.trans ((congrArg _ hwoven).trans
          (by rw [Option.map_some, hback hrotated.length])).symm
      · have hsome := Nat.pos_of_ne_zero hnone
        rw [applyPairs_outside hx hsome hp (by omega) hpos,
          applyPairs_outside hx' hsome hp (by omega) hpos]
        rfl
  · rw [applyPairs_past hx (by omega), applyPairs_past hx' (by omega), Option.map_some,
      hback hx.length]

end Consistency

/-- The rotations are consistent while `position_offset + seq` does not wrap, or wraps to what the
check refuses anyway. -/
theorem rotary_consistent_iff (rope : RoPE F) (batch nHeads seq p : Nat)
    (hcall : rope.Callable batch nHeads seq p) :
    rope.Consistent batch nHeads seq p ↔
      p + seq < u64Size ∨ rope.maxSeq < (p + seq) % u64Size ∨ rope.maxSeq + 1 = u64Size := by
  constructor
  · intro h
    exact h.neighbours.fits hcall
  · intro h
    refine ⟨?_, ?_, fun x hx => conjugate hx hcall.pos_lt⟩
    · rcases h with hend | hpast | hmax
      · exact positionConsistent (interleaved _) (fun _ _ _ _ => rfl) hend
      · exact positionConsistent_past (interleaved _) (fun _ _ _ _ => rfl) hpast
      · exact positionConsistent_flat (interleaved _) (fun _ _ _ _ => rfl) hmax
    · rcases h with hend | hpast | hmax
      · exact positionConsistent (halfSplit _) turn_comm hend
      · exact positionConsistent_past (halfSplit _) turn_comm hpast
      · exact positionConsistent_flat (halfSplit _) turn_comm hmax

/-- Quarter turns in the first pair and no turns in the second, for two positions. -/
def quarterTurns : RoPE Int where
  headDim := 4
  maxSeq := 2
  cos := [1, 1, 0, 1]
  sin := [0, 0, 1, 0]
  even := rfl
  cos_length := rfl
  sin_length := rfl
  maxSeq_lt := by decide
  tables_fit := by decide

/-- Two batch entries with both positions. -/
theorem rotary_consistent_iff_quarterTurns :
    quarterTurns.Callable 2 1 2 0 ∧ quarterTurns.Consistent 2 1 2 0 ∧
      quarterTurns.applyInplace [1, 2, 3, 4, 5, 6, 7, 8, 1, 0, 0, 1, 2, 3, 0, 1] 2 1 2 0 =
        some (.ok (), [1, 2, 3, 4, -6, 5, 7, 8, 1, 0, 0, 1, -3, 2, 0, 1]) := by
  have hcall : quarterTurns.Callable 2 1 2 0 := ⟨by decide, by decide, by decide⟩
  exact ⟨hcall, (rotary_consistent_iff quarterTurns 2 1 2 0 hcall).2 (Or.inl (by decide)), rfl⟩

/-- At the last position that there is the sum wraps to 0 and the tables are read past their ends;
without a batch entry the whole sequence is `Ok`, and the piece up to there is an error. -/
theorem not_consistent_lastPosition :
    quarterTurns.Callable 1 1 1 (2 ^ 64 - 1) ∧
      quarterTurns.applyInplace [1, 2, 3, 4] 1 1 1 (2 ^ 64 - 1) = none ∧
      ¬ quarterTurns.Consistent 1 1 1 (2 ^ 64 - 1) ∧
      quarterTurns.applyInplace [] 0 1 (2 ^ 64 - 1) 1 = some (.ok (), []) ∧
      quarterTurns.applyInplace [] 0 1 (2 ^ 64 - 2) 1 =
        some (.error (.positionOverflow 2 (2 ^ 64 - 1)), []) := by
  have hpanic : quarterTurns.applyInplace [1, 2, 3, 4] 1 1 1 (2 ^ 64 - 1) = none := by decide
  refine ⟨⟨by decide, by decide, by decide⟩, hpanic, ?_, ?_, ?_⟩
  · intro h
    obtain ⟨r, hr⟩ := h.neighbours.returns [1, 2, 3, 4] ⟨rfl, by decide⟩
    rw [hpanic] at hr
    cases hr
  · exact applyPairs_empty ⟨rfl, by decide⟩ rfl (by decide)
  · exact applyPairs_past ⟨rfl, by decide⟩ (by decide)

end RoPE

end Nn
end Rustorch
