import Mathlib.Data.List.Nodup
import Mathlib.Data.List.ProdSigma
import Rustorch.Lib.Runs
import Rustorch.Nn.KvCache

/-!
# The cache holds the history of its calls

A run is a sequence of `append`, `advance` and `clear` calls.  The `Ledger` of a layer records the
slices whose appends an `advance` committed.  As long as the sum in `advance` does not wrap, the
valid rows of every head are the rows of these slices, in order (`history_iff`).
-/

namespace Rustorch
namespace Nn

open List Rows KVLayerCache Runs
open Nat (mod_eq_of_lt mul_le_mul_right)

variable {F : Type}

/-! ## What `append` writes -/

namespace KVLayerCache

/-- The buffer of a layer can be allocated. -/
def Fits (layer : KVLayerCache F) : Prop :=
  layer.batch * layer.nHeads * layer.maxSeq * layer.headDim * 4 < 2 ^ 63

def SameShape (layer layer' : KVLayerCache F) : Prop :=
  layer'.batch = layer.batch ∧ layer'.nHeads = layer.nHeads ∧ layer'.maxSeq = layer.maxSeq ∧
    layer'.headDim = layer.headDim

/-- The first row that `append` writes for a head. -/
def startRow (layer : KVLayerCache F) (currentLen : Nat) (bh : Nat × Nat) : Nat :=
  bh.1 * layer.nHeads * layer.maxSeq + bh.2 * layer.maxSeq + currentLen

/-- The rows of a head in the appended slice. -/
def headBlock (layer : KVLayerCache F) (seqAdded : Nat) (new : List F) (bh : Nat × Nat) : List F :=
  (new.drop (bh.1 * layer.nHeads * seqAdded * layer.headDim + bh.2 * seqAdded * layer.headDim)).take
    (seqAdded * layer.headDim)

variable {layer : KVLayerCache F} {currentLen seqAdded : Nat} {newK newV new buf : List F}
  {bh : Nat × Nat}

theorem Fits.length_k (h : layer.Fits) :
    layer.k.length = layer.batch * layer.nHeads * layer.maxSeq * layer.headDim := by
  rw [layer.length_k, mod_eq_of_lt]
  unfold Fits at h
  unfold u64Size
  omega

theorem Fits.length_v (h : layer.Fits) :
    layer.v.length = layer.batch * layer.nHeads * layer.maxSeq * layer.headDim := by
  rw [layer.length_v, ← layer.length_k, h.length_k]

theorem row_lt {batch nHeads seq pos n : Nat} :
    bh ∈ heads batch nHeads → pos + n ≤ seq →
      bh.1 * nHeads * seq + bh.2 * seq + pos + n ≤ batch * nHeads * seq := by
  intro hbh hpos
  have hbh := pair_mem_product.1 hbh
  rw [mem_range, mem_range] at hbh
  calc
    bh.1 * nHeads * seq + bh.2 * seq + pos + n
        ≤ bh.1 * nHeads * seq + bh.2 * seq + seq := by omega
    _ = (bh.1 * nHeads + (bh.2 + 1)) * seq := by ring
    _ ≤ (bh.1 * nHeads + nHeads) * seq :=
          mul_le_mul_right seq (Nat.add_le_add_left hbh.2 _)
    _ = (bh.1 + 1) * nHeads * seq := by ring
    _ ≤ batch * nHeads * seq :=
          mul_le_mul_right seq (mul_le_mul_right nHeads hbh.1)

/-- The sizes of an `append` in range. -/
structure InRange (layer : KVLayerCache F) (currentLen seqAdded : Nat) (new : List F) : Prop where
  fits : layer.Fits
  room : currentLen + seqAdded ≤ layer.maxSeq
  length : new.length = layer.batch * layer.nHeads * seqAdded * layer.headDim

section

variable (h : layer.InRange currentLen seqAdded new)

include h

variable (hbh : bh ∈ heads layer.batch layer.nHeads)

include hbh

theorem InRange.src_le :
    bh.1 * layer.nHeads * seqAdded * layer.headDim + bh.2 * seqAdded * layer.headDim +
      seqAdded * layer.headDim ≤ new.length := by
  have hrow := mul_le_mul_right layer.headDim
    (@row_lt bh layer.batch layer.nHeads seqAdded 0 _ hbh (Nat.zero_add seqAdded).le)
  rw [h.length]
  refine le_trans (le_of_eq ?_) hrow
  ring

theorem InRange.dst_le :
    layer.startRow currentLen bh * layer.headDim + seqAdded * layer.headDim ≤
      layer.batch * layer.nHeads * layer.maxSeq * layer.headDim := by
  have hrow := mul_le_mul_right layer.headDim (row_lt hbh h.room)
  refine le_trans (le_of_eq ?_) hrow
  rw [startRow]
  ring

omit hbh in
theorem InRange.new_lt : new.length < u64Size := by
  have hle : new.length ≤ layer.batch * layer.nHeads * layer.maxSeq * layer.headDim := by
    rw [h.length]
    exact mul_le_mul_right _ (Nat.mul_le_mul_left _ (le_trans (Nat.le_add_left _ _) h.room))
  have hfits := h.fits
  unfold Fits at hfits
  unfold u64Size
  omega

theorem copyRows_eq (hbuf : buf.length = layer.batch * layer.nHeads * layer.maxSeq * layer.headDim)
    :
    layer.copyRows currentLen seqAdded bh new buf =
      some (writeAt (layer.startRow currentLen bh * layer.headDim)
        (layer.headBlock seqAdded new bh) buf) := by
  have hsrc := h.src_le hbh
  have hdst := h.dst_le hbh
  have hnew := h.new_lt
  have hfits := h.fits
  have hword : layer.batch * layer.nHeads * layer.maxSeq * layer.headDim < u64Size := by
    unfold Fits at hfits
    unfold u64Size
    omega
  have hs : layer.srcOff seqAdded bh =
      bh.1 * layer.nHeads * seqAdded * layer.headDim + bh.2 * seqAdded * layer.headDim := by
    rw [srcOff, mod_eq_of_lt]
    omega
  have hd : layer.dstOff currentLen bh = layer.startRow currentLen bh * layer.headDim := by
    have heq : bh.1 * layer.nHeads * layer.maxSeq * layer.headDim +
        bh.2 * layer.maxSeq * layer.headDim + currentLen * layer.headDim =
          layer.startRow currentLen bh * layer.headDim := by
      rw [startRow]
      ring
    rw [dstOff, heq, mod_eq_of_lt]
    omega
  have hse : (layer.srcOff seqAdded bh + seqAdded * layer.headDim) % u64Size =
      layer.srcOff seqAdded bh + seqAdded * layer.headDim := by
    rw [mod_eq_of_lt]
    omega
  have hde : (layer.dstOff currentLen bh + seqAdded * layer.headDim) % u64Size =
      layer.dstOff currentLen bh + seqAdded * layer.headDim := by
    rw [mod_eq_of_lt]
    omega
  rw [copyRows, hse, hde, copySlice, if_pos]
  · rw [Nat.add_sub_cancel_left, hs, hd, headBlock]
  · rw [hbuf, hs, hd]
    omega

end

section SameShape

variable {next : KVLayerCache F}

theorem SameShape.inRange :
    layer.SameShape next → layer.InRange currentLen seqAdded new →
      next.InRange currentLen seqAdded new := by
  rintro ⟨hb, hn, hm, hd⟩ h
  refine ⟨?_, ?_, ?_⟩
  · have hfits := h.fits
    rwa [Fits, ← hb, ← hn, ← hm, ← hd] at hfits
  · rw [hm]
    exact h.room
  · rw [hb, hn, hd]
    exact h.length

theorem SameShape.startRow : layer.SameShape next →
    next.startRow currentLen = layer.startRow currentLen := by
  rintro ⟨_, hn, hm, _⟩
  funext bh
  rw [KVLayerCache.startRow, hn, hm]
  rfl

theorem SameShape.headBlock : layer.SameShape next →
    next.headBlock seqAdded new = layer.headBlock seqAdded new := by
  rintro ⟨_, hn, _, hd⟩
  funext bh
  rw [KVLayerCache.headBlock, hn, hd]
  rfl

theorem SameShape.trans {last : KVLayerCache F} :
    layer.SameShape next → next.SameShape last → layer.SameShape last := by
  rintro ⟨hb, hn, hm, hd⟩ ⟨hb', hn', hm', hd'⟩
  exact ⟨hb'.trans hb, hn'.trans hn, hm'.trans hm, hd'.trans hd⟩

end SameShape

theorem foldlM_copyHead (bhs : List (Nat × Nat)) : ∀ {layer : KVLayerCache F},
    layer.InRange currentLen seqAdded newK → layer.InRange currentLen seqAdded newV →
      (∀ bh ∈ bhs, bh ∈ heads layer.batch layer.nHeads) →
        ∃ layer', bhs.foldlM (copyHead currentLen seqAdded newK newV) layer = some layer' ∧
          layer.SameShape layer' ∧
          layer'.k = writeBlocks layer.headDim (layer.startRow currentLen)
            (layer.headBlock seqAdded newK) bhs layer.k ∧
          layer'.v = writeBlocks layer.headDim (layer.startRow currentLen)
            (layer.headBlock seqAdded newV) bhs layer.v := by
  induction bhs with
  | nil =>
    intro layer _ _ _
    exact ⟨layer, rfl, ⟨rfl, rfl, rfl, rfl⟩, rfl, rfl⟩
  | cons bh bhs ih =>
    intro layer hK hV hmem
    have hbh := hmem bh mem_cons_self
    have hk := copyRows_eq hK hbh hK.fits.length_k
    have hv := copyRows_eq hV hbh hV.fits.length_v
    obtain ⟨next, hnext, hnk, hnv, hshape⟩ : ∃ next : KVLayerCache F,
        copyHead currentLen seqAdded newK newV layer bh = some next ∧
        next.k = writeAt (layer.startRow currentLen bh * layer.headDim)
          (layer.headBlock seqAdded newK bh) layer.k ∧
        next.v = writeAt (layer.startRow currentLen bh * layer.headDim)
          (layer.headBlock seqAdded newV bh) layer.v ∧ layer.SameShape next := by
      unfold copyHead
      split
      · next k v hk' hv' =>
          rw [hk] at hk'
          rw [hv] at hv'
          cases hk'
          cases hv'
          exact ⟨_, rfl, rfl, rfl, rfl, rfl, rfl, rfl⟩
      · next hnone => exact absurd hv (hnone _ _ hk)
    -- the blocks of the heads keep their places, as a copy does not change the shape
    obtain ⟨last, hlast, hshape', hlk, hlv⟩ := ih (hshape.inRange hK) (hshape.inRange hV) (by
      rw [hshape.1, hshape.2.1]
      exact fun bh hbh => hmem bh (mem_cons_of_mem _ hbh))
    refine ⟨last, ?_, hshape.trans hshape', ?_, ?_⟩
    · rw [foldlM_cons, hnext]
      exact hlast
    · rw [hlk, hshape.startRow, hshape.headBlock, hshape.2.2.2, hnk]
      rfl
    · rw [hlv, hshape.startRow, hshape.headBlock, hshape.2.2.2, hnv]
      rfl

theorem fits_blocks (h : layer.InRange currentLen seqAdded new)
    (hbuf : buf.length = layer.batch * layer.nHeads * layer.maxSeq * layer.headDim) :
    Rows.Fits layer.headDim seqAdded buf.length (layer.startRow currentLen)
      (layer.headBlock seqAdded new) (heads layer.batch layer.nHeads) := by
  intro bh hbh
  constructor
  · have hsrc := h.src_le hbh
    rw [headBlock, length_take, length_drop]
    omega
  · rw [hbuf]
    refine le_trans (le_of_eq ?_) (h.dst_le hbh)
    ring

/-- The number of a head in the buffer. -/
def headIndex (layer : KVLayerCache F) (bh : Nat × Nat) : Nat :=
  bh.1 * layer.nHeads + bh.2

theorem startRow_eq (layer : KVLayerCache F) (currentLen : Nat) (bh : Nat × Nat) :
    layer.startRow currentLen bh = layer.headIndex bh * layer.maxSeq + currentLen := by
  rw [startRow, headIndex]
  ring

theorem headIndex_inj {bh' : Nat × Nat} :
    bh ∈ heads layer.batch layer.nHeads → bh' ∈ heads layer.batch layer.nHeads →
      layer.headIndex bh = layer.headIndex bh' → bh = bh' := by
  intro hbh hbh' heq
  have hlt : bh.2 < layer.nHeads := mem_range.1 (pair_mem_product.1 hbh).2
  have hlt' : bh'.2 < layer.nHeads := mem_range.1 (pair_mem_product.1 hbh').2
  have hpos : 0 < layer.nHeads := by omega
  have hdiv := congrArg (· / layer.nHeads) heq
  have hmod := congrArg (· % layer.nHeads) heq
  simp only [headIndex, Nat.mul_comm _ layer.nHeads, Nat.mul_add_div hpos, Nat.div_eq_of_lt hlt,
    Nat.div_eq_of_lt hlt', Nat.add_zero, Nat.mul_add_mod, mod_eq_of_lt hlt,
    mod_eq_of_lt hlt'] at hdiv hmod
  exact Prod.ext hdiv hmod

theorem rows_apart {i j n m : Nat} : i < j → n ≤ m → i * m + n ≤ j * m := by
  intro hij hn
  have hmul := mul_le_mul_right m (Nat.succ_le_of_lt hij)
  rw [Nat.succ_mul] at hmul
  omega

theorem blocks_apart (hroom : currentLen + seqAdded ≤ layer.maxSeq) :
    (heads layer.batch layer.nHeads).Pairwise fun bh bh' =>
      layer.startRow currentLen bh + seqAdded ≤ layer.startRow currentLen bh' ∨
        layer.startRow currentLen bh' + seqAdded ≤ layer.startRow currentLen bh := by
  have hnodup : (heads layer.batch layer.nHeads).Nodup :=
    Nodup.product nodup_range nodup_range
  refine hnodup.imp_of_mem ?_
  intro bh bh' hbh hbh' hne
  rw [startRow_eq, startRow_eq]
  rcases Nat.lt_trichotomy (layer.headIndex bh) (layer.headIndex bh') with h | h | h
  · have hrows := rows_apart h hroom
    omega
  · exact absurd (headIndex_inj hbh hbh' h) hne
  · have hrows := rows_apart h hroom
    omega

/-- The rows of a head from position 0 on, in a buffer of `seq` positions. -/
def headRows (w nHeads seq : Nat) (bh : Nat × Nat) (n : Nat) (buf : List F) : List (List F) :=
  (range n).map fun pos => row w ((bh.1 * nHeads + bh.2) * seq + pos) buf

theorem row_headBlock {pos : Nat} : pos < seqAdded →
    row layer.headDim pos (layer.headBlock seqAdded new bh) =
      row layer.headDim ((bh.1 * layer.nHeads + bh.2) * seqAdded + pos) new := by
  intro hpos
  have hmul := mul_le_mul_right layer.headDim (Nat.succ_le_of_lt hpos)
  rw [Nat.succ_mul] at hmul
  apply ext_getElem?
  intro i
  rw [getElem?_row, getElem?_row]
  by_cases hi : i < layer.headDim
  · rw [if_pos hi, if_pos hi, headBlock, getElem?_take, if_pos (by omega), getElem?_drop]
    congr 1
    ring
  · rw [if_neg hi, if_neg hi]

theorem headRows_writeBlocks (h : layer.InRange currentLen seqAdded new)
    (hbuf : buf.length = layer.batch * layer.nHeads * layer.maxSeq * layer.headDim)
    (hbh : bh ∈ heads layer.batch layer.nHeads) :
    headRows layer.headDim layer.nHeads layer.maxSeq bh (currentLen + seqAdded)
        (writeBlocks layer.headDim (layer.startRow currentLen)
          (layer.headBlock seqAdded new) (heads layer.batch layer.nHeads) buf) =
      headRows layer.headDim layer.nHeads layer.maxSeq bh currentLen buf ++
        headRows layer.headDim layer.nHeads seqAdded bh seqAdded new := by
  have hblocks := fits_blocks h hbuf
  have hroom := h.room
  simp only [headRows, range_add, map_append, map_map]
  refine congrArg₂ (· ++ ·) ?_ ?_
  · refine map_congr_left ?_
    intro pos hpos
    have hpos := mem_range.1 hpos
    refine row_writeBlocks_other hblocks ?_
    rintro bh' hbh' ⟨hlow, hhigh⟩
    rw [startRow_eq] at hlow hhigh
    rw [← headIndex] at hlow hhigh
    rcases Nat.lt_trichotomy (layer.headIndex bh) (layer.headIndex bh') with hlt | heq | hlt
    · have hrows := rows_apart hlt (show pos + 1 ≤ layer.maxSeq by omega)
      omega
    · rw [heq] at hlow
      omega
    · have hrows := rows_apart hlt hroom
      omega
  · refine map_congr_left ?_
    intro pos hpos
    have hpos := mem_range.1 hpos
    have hrow : (bh.1 * layer.nHeads + bh.2) * layer.maxSeq + (currentLen + pos) =
        layer.startRow currentLen bh + pos := by
      rw [startRow_eq, headIndex, Nat.add_assoc]
    rw [Function.comp_apply, hrow, row_writeBlocks hblocks (blocks_apart hroom) bh hbh
      (Nat.le_add_right _ _) (Nat.add_lt_add_left hpos _), Nat.add_sub_cancel_left,
      row_headBlock hpos]

/-! ### A sum that wraps -/

theorem foldlM_copyHead_empty (bhs : List (Nat × Nat)) : ∀ {layer : KVLayerCache F},
    layer.headDim = 0 →
      ∃ layer', bhs.foldlM (copyHead currentLen seqAdded newK newV) layer = some layer' ∧
        layer.SameShape layer' ∧ layer'.k = layer.k ∧ layer'.v = layer.v := by
  induction bhs with
  | nil =>
    intro layer _
    exact ⟨layer, rfl, ⟨rfl, rfl, rfl, rfl⟩, rfl, rfl⟩
  | cons bh bhs ih =>
    intro layer hdim
    have hcopy : ∀ new buf : List F,
        layer.copyRows currentLen seqAdded bh new buf = some buf := by
      intro new buf
      simp [copyRows, srcOff, dstOff, hdim, copySlice, writeAt]
    obtain ⟨next, hnext, hk, hv, hshape⟩ : ∃ next : KVLayerCache F,
        copyHead currentLen seqAdded newK newV layer bh = some next ∧ next.k = layer.k ∧
          next.v = layer.v ∧ layer.SameShape next := by
      unfold copyHead
      split
      · next k v hk' hv' =>
          rw [hcopy] at hk' hv'
          cases hk'
          cases hv'
          exact ⟨_, rfl, rfl, rfl, rfl, rfl, rfl, rfl⟩
      · next hnone => exact absurd (hcopy newV layer.v) (hnone _ _ (hcopy newK layer.k))
    obtain ⟨last, hlast, hshape', hlk, hlv⟩ := ih (hshape.2.2.2.trans hdim)
    refine ⟨last, ?_, hshape.trans hshape', hlk.trans hk, hlv.trans hv⟩
    rw [foldlM_cons, hnext]
    exact hlast

theorem wrapped_length {q maxSeq : Nat} (hq : 0 < q) (hfits : q * maxSeq * 4 < 2 ^ 63)
    (hcur : currentLen ≤ maxSeq) (hs : seqAdded < u64Size) (hwrap : u64Size ≤ currentLen + seqAdded)
    (hnew : new.length * 4 < 2 ^ 63) : new.length ≠ q * seqAdded % u64Size := by
  obtain ⟨c, hc⟩ := Nat.exists_eq_add_of_le hs.le
  obtain ⟨p, rfl⟩ := Nat.exists_eq_add_one_of_ne_zero hq.ne'
  have hle : (p + 1) * c ≤ (p + 1) * maxSeq := Nat.mul_le_mul_left _ (by omega)
  have hpos : 0 < (p + 1) * c := Nat.mul_pos hq (by omega)
  have hsplit : (p + 1) * seqAdded = u64Size * p + (u64Size - (p + 1) * c) := by
    have hsum : (p + 1) * seqAdded + (p + 1) * c = u64Size * p + u64Size := by
      rw [← Nat.mul_add, ← hc]
      ring
    have hword : (p + 1) * c ≤ u64Size := by
      unfold u64Size
      omega
    omega
  have hlow : u64Size - (p + 1) * c < u64Size := Nat.sub_lt (by decide) hpos
  rw [hsplit, Nat.mul_add_mod, mod_eq_of_lt hlow]
  unfold u64Size
  omega

/-! ### All that an append does -/

/-- What a successful append does to the buffers: the rows of the slices join the valid ones, or,
where the sum wraps, nothing. -/
inductive Appended (layer : KVLayerCache F) (currentLen seqAdded : Nat) (newK newV : List F)
    (layer' : KVLayerCache F) : Prop
  | rows : layer.InRange currentLen seqAdded newK → layer.InRange currentLen seqAdded newV →
      layer'.k = writeBlocks layer.headDim (layer.startRow currentLen)
        (layer.headBlock seqAdded newK) (heads layer.batch layer.nHeads) layer.k →
      layer'.v = writeBlocks layer.headDim (layer.startRow currentLen)
        (layer.headBlock seqAdded newV) (heads layer.batch layer.nHeads) layer.v →
      Appended layer currentLen seqAdded newK newV layer'
  | wrapped : u64Size ≤ currentLen + seqAdded → layer'.k = layer.k → layer'.v = layer.v →
      Appended layer currentLen seqAdded newK newV layer'

theorem append_cases (hfits : layer.Fits) (hcur : currentLen ≤ layer.maxSeq)
    (hs : seqAdded < u64Size) (hK : newK.length * 4 < 2 ^ 63) :
    (∃ e, layer.append currentLen seqAdded newK newV = some (layer, .error e)) ∨
      ∃ layer', layer.append currentLen seqAdded newK newV = some (layer', .ok ()) ∧
        layer.SameShape layer' ∧ layer.Appended currentLen seqAdded newK newV layer' := by
  by_cases hover : layer.maxSeq < (currentLen + seqAdded) % u64Size
  · left
    refine ⟨.overflow ((currentLen + seqAdded) % u64Size) layer.maxSeq, ?_⟩
    rw [append, if_pos hover]
  by_cases hlen : newK.length ≠ layer.batch * layer.nHeads * seqAdded * layer.headDim % u64Size ∨
      newV.length ≠ layer.batch * layer.nHeads * seqAdded * layer.headDim % u64Size
  · left
    refine ⟨.wrongInputLen (layer.batch * layer.nHeads * seqAdded * layer.headDim % u64Size)
      newK.length newV.length, ?_⟩
    rw [append, if_neg hover]
    simp only [if_pos hlen]
  right
  have hrun : layer.append currentLen seqAdded newK newV =
      ((heads layer.batch layer.nHeads).foldlM (copyHead currentLen seqAdded newK newV) layer).map
        fun layer' => (layer', .ok ()) := by
    rw [append, if_neg hover]
    simp only [if_neg hlen]
  rw [not_or, not_not, not_not] at hlen
  by_cases hwrap : currentLen + seqAdded < u64Size
  · rw [mod_eq_of_lt hwrap, not_lt] at hover
    have hsize : layer.batch * layer.nHeads * seqAdded * layer.headDim < u64Size := by
      have hle : layer.batch * layer.nHeads * seqAdded * layer.headDim ≤
          layer.batch * layer.nHeads * layer.maxSeq * layer.headDim :=
        mul_le_mul_right _ (Nat.mul_le_mul_left _ (le_trans (Nat.le_add_left _ _) hover))
      unfold Fits at hfits
      unfold u64Size
      omega
    rw [mod_eq_of_lt hsize] at hlen
    have hinK : layer.InRange currentLen seqAdded newK := ⟨hfits, hover, hlen.1⟩
    have hinV : layer.InRange currentLen seqAdded newV := ⟨hfits, hover, hlen.2⟩
    obtain ⟨layer', hfold, hshape, hk, hv⟩ :=
      foldlM_copyHead (heads layer.batch layer.nHeads) hinK hinV (fun _ h => h)
    refine ⟨layer', ?_, hshape, .rows hinK hinV hk hv⟩
    rw [hrun, hfold]
    rfl
  · have hwrap := not_lt.1 hwrap
    -- Only empty slices have the wrapped size, so there is nothing to copy.
    have hq : layer.batch * layer.nHeads * layer.headDim = 0 := by
      by_contra hq
      have hbound : layer.batch * layer.nHeads * layer.headDim * layer.maxSeq * 4 < 2 ^ 63 := by
        have heq : layer.batch * layer.nHeads * layer.headDim * layer.maxSeq * 4 =
            layer.batch * layer.nHeads * layer.maxSeq * layer.headDim * 4 := by ring
        rw [heq]
        exact hfits
      refine wrapped_length (Nat.pos_of_ne_zero hq) hbound hcur hs hwrap hK ?_
      rw [hlen.1]
      congr 1
      ring
    have hfold : ∃ layer', (heads layer.batch layer.nHeads).foldlM
        (copyHead currentLen seqAdded newK newV) layer = some layer' ∧
          layer.SameShape layer' ∧ layer'.k = layer.k ∧ layer'.v = layer.v := by
      rcases Nat.mul_eq_zero.1 hq with hheads | hdim
      · have hnil : heads layer.batch layer.nHeads = [] := by
          rcases Nat.mul_eq_zero.1 hheads with h | h
          · rw [heads, h]
            rfl
          · rw [heads, h]
            exact product_nil _
        rw [hnil]
        exact ⟨layer, rfl, ⟨rfl, rfl, rfl, rfl⟩, rfl, rfl⟩
      · exact foldlM_copyHead_empty _ hdim
    obtain ⟨layer', hlayer', hshape, hk, hv⟩ := hfold
    refine ⟨layer', ?_, hshape, .wrapped hwrap hk hv⟩
    rw [hrun, hlayer']
    rfl

end KVLayerCache

/-! ## Calls and runs -/

abbrev Usize : Type := { n : Nat // n < u64Size }

/-- A slice of `f32`, which spans at most `isize::MAX` bytes. -/
abbrev Slice (F : Type) : Type := { xs : List F // xs.length * 4 < 2 ^ 63 }

inductive Call (F : Type)
  | append (layerIdx seqAdded : Usize) (newK newV : Slice F)
  | advance (seqAdded : Usize)
  | clear

def KVCache.call (cache : KVCache F) : Call F → Option (KVCache F × Except KVCacheError Unit)
  | .append layerIdx seqAdded newK newV => cache.append layerIdx seqAdded newK newV
  | .advance seqAdded => some (cache.advance seqAdded)
  | .clear => some (cache.clear, .ok ())

/-- The cache after a call; `none` is a panic. -/
def step (s : Option (KVCache F)) (c : Call F) : Option (KVCache F) :=
  s.bind fun cache => (cache.call c).map Prod.fst

def succeeds (s : Option (KVCache F)) (c : Call F) : Bool :=
  match s.bind fun cache => cache.call c with
  | some (_, .ok ()) => true
  | _ => false

/-- The log of a run: every call, and whether it returned `Ok`. -/
def logged (s : Option (KVCache F)) (c : Call F) : List (Call F × Bool) :=
  [(c, succeeds s c)]

/-! ## The ledger of a layer -/

structure Chunk (F : Type) where
  seqAdded : Nat
  newK : List F
  newV : List F

/-- The last append that no `advance` has committed yet, the committed ones since the last `clear`,
and whether every `advance` since then found its append. -/
structure Ledger (F : Type) where
  last : Option (Chunk F)
  chunks : List (Chunk F)
  matched : Bool

namespace Ledger

def empty : Ledger F where
  last := none
  chunks := []
  matched := true

/-- A successful call, seen from layer `ℓ`. -/
def record (ℓ : Nat) (led : Ledger F) : Call F → Ledger F
  | .append layerIdx seqAdded newK newV =>
    if layerIdx = ℓ then { led with last := some ⟨seqAdded, newK, newV⟩ } else led
  | .advance seqAdded =>
    match led.last with
    | none => { led with matched := false }
    | some c =>
      if c.seqAdded = seqAdded then
        { led with last := none, chunks := led.chunks ++ [c] }
      else
        { led with matched := false }
  | .clear => empty

def after (ℓ : Nat) (led : Ledger F) (entry : Call F × Bool) : Ledger F :=
  if entry.2 then led.record ℓ entry.1 else led

def ofLog (ℓ : Nat) (log : List (Call F × Bool)) : Ledger F :=
  log.foldl (after ℓ) empty

end Ledger

/-- The valid rows of every head are the rows of the committed slices, in order. -/
def HoldsRows (layer : KVLayerCache F) (len : Nat) (chunks : List (Chunk F)) : Prop :=
  ∀ bh ∈ heads layer.batch layer.nHeads,
    headRows layer.headDim layer.nHeads layer.maxSeq bh len layer.k =
        (chunks.flatMap fun c =>
          headRows layer.headDim layer.nHeads c.seqAdded bh c.seqAdded c.newK) ∧
      headRows layer.headDim layer.nHeads layer.maxSeq bh len layer.v =
        (chunks.flatMap fun c =>
          headRows layer.headDim layer.nHeads c.seqAdded bh c.seqAdded c.newV)

/-- What a run of calls keeps. -/
structure History (cache₀ : KVCache F) (calls : List (Call F)) : Prop where
  returns : ∃ cache, run step (some cache₀) calls = some cache
  errs : ∀ before c after cache cache' e, calls = before ++ c :: after →
    run step (some cache₀) before = some cache → cache.call c = some (cache', .error e) →
      cache' = cache
  bounded : ∀ cache, run step (some cache₀) calls = some cache →
    cache.currentLen ≤ cache.maxSeq
  grows : ∀ before c after cache cache' r, calls = before ++ c :: after →
    run step (some cache₀) before = some cache → cache.call c = some (cache', r) →
      c ≠ .clear → cache.currentLen ≤ cache'.currentLen
  rows : ∀ cache ℓ layer, run step (some cache₀) calls = some cache →
    cache.layers[ℓ]? = some layer →
      (Ledger.ofLog ℓ (outputs step logged (some cache₀) calls)).matched = true →
        HoldsRows layer cache.currentLen
          (Ledger.ofLog ℓ (outputs step logged (some cache₀) calls)).chunks

/-- The sum in `advance` does not wrap. -/
def NoWrap (s : Option (KVCache F)) (c : Call F) : Prop :=
  ∀ cache, s = some cache → ∀ n, c = .advance n → cache.currentLen + n.1 < u64Size

/-! ## One call -/

section Call

variable {cache cache' : KVCache F} {layer layer' : KVLayerCache F} {currentLen seqAdded : Nat}
  {newK newV : List F} {chunks : List (Chunk F)}

theorem headRows_add (w nHeads seq : Nat) (bh : Nat × Nat) (n m : Nat) (buf : List F) :
    headRows w nHeads seq bh (n + m) buf =
      headRows w nHeads seq bh n buf ++
        (range m).map fun pos => row w ((bh.1 * nHeads + bh.2) * seq + (n + pos)) buf := by
  simp only [headRows, range_add, map_append, map_map]
  rfl

theorem headRows_of_append {w nHeads seq n m : Nat} {bh : Nat × Nat} {buf buf' : List F}
    {rows : List (List F)} :
    headRows w nHeads seq bh (n + m) buf' =
      headRows w nHeads seq bh n buf ++ rows →
        headRows w nHeads seq bh n buf' = headRows w nHeads seq bh n buf := by
  intro h
  rw [headRows_add] at h
  exact (append_inj h (by simp [headRows])).1

theorem HoldsRows.appended (hshape : layer.SameShape layer')
    (happ : layer.Appended currentLen seqAdded newK newV layer') :
    HoldsRows layer currentLen chunks →
      HoldsRows layer' currentLen chunks ∧
        (currentLen + seqAdded < u64Size →
          HoldsRows layer' (currentLen + seqAdded) (chunks ++ [⟨seqAdded, newK, newV⟩])) := by
  intro h
  obtain ⟨hb, hn, hm, hd⟩ := hshape
  cases happ with
  | rows hK hV hk hv =>
    have hnew : ∀ bh ∈ heads layer.batch layer.nHeads, _ ∧ _ := fun bh hbh =>
      ⟨headRows_writeBlocks hK hK.fits.length_k hbh,
        headRows_writeBlocks hV hV.fits.length_v hbh⟩
    constructor
    · intro bh hbh
      rw [hb, hn] at hbh
      rw [hd, hn, hm, hk, hv, headRows_of_append (hnew bh hbh).1,
        headRows_of_append (hnew bh hbh).2]
      exact h bh hbh
    · intro _ bh hbh
      rw [hb, hn] at hbh
      rw [hd, hn, hm, hk, hv, (hnew bh hbh).1, (hnew bh hbh).2, (h bh hbh).1, (h bh hbh).2]
      simp
  | wrapped hwrap hk hv =>
    constructor
    · intro bh hbh
      rw [hb, hn] at hbh
      rw [hd, hn, hm, hk, hv]
      exact h bh hbh
    · intro hlt
      omega

/-- The ledger of a layer agrees with its buffers. -/
def Ledger.Agrees (led : Ledger F) (layer : KVLayerCache F) (currentLen : Nat) : Prop :=
  led.matched = true →
    HoldsRows layer currentLen led.chunks ∧
      ∀ c, led.last = some c → currentLen + c.seqAdded < u64Size →
        HoldsRows layer (currentLen + c.seqAdded) (led.chunks ++ [c])

theorem holdsRows_nil (layer : KVLayerCache F) : HoldsRows layer 0 [] := by
  intro bh _
  exact ⟨rfl, rfl⟩

theorem agrees_empty (layer : KVLayerCache F) : Ledger.empty.Agrees layer 0 := by
  intro _
  refine ⟨holdsRows_nil layer, ?_⟩
  intro c hc
  cases hc

/-- The invariant of a run. -/
structure Kept (cache : KVCache F) (log : List (Call F × Bool)) : Prop where
  fits : ∀ layer ∈ cache.layers, layer.Fits
  maxSeq : cache.maxSeq < u64Size
  agrees : ∀ ℓ layer, cache.layers[ℓ]? = some layer →
    (Ledger.ofLog ℓ log).Agrees layer cache.currentLen

theorem ofLog_append (ℓ : Nat) (log : List (Call F × Bool)) (entry : Call F × Bool) :
    Ledger.ofLog ℓ (log ++ [entry]) = (Ledger.ofLog ℓ log).after ℓ entry := by
  simp [Ledger.ofLog]

variable {log : List (Call F × Bool)} {c : Call F}

theorem Kept.failed : Kept cache log → Kept cache (log ++ [(c, false)]) := by
  intro h
  refine ⟨h.fits, h.maxSeq, ?_⟩
  intro ℓ layer hget
  rw [ofLog_append]
  exact h.agrees ℓ layer hget

theorem Kept.advanced {n : Usize} (hle : cache.currentLen + n.1 ≤ cache.maxSeq) : Kept cache log →
      Kept { cache with currentLen := cache.currentLen + n.1, currentLen_le := hle }
        (log ++ [(.advance n, true)]) := by
  intro h
  refine ⟨h.fits, h.maxSeq, ?_⟩
  intro ℓ layer hget
  have hagrees := h.agrees ℓ layer hget
  have hword : cache.currentLen + n.1 < u64Size := lt_of_le_of_lt hle h.maxSeq
  rw [ofLog_append]
  intro hmatched
  simp only [Ledger.after, if_true, Ledger.record] at hmatched ⊢
  cases hlast : (Ledger.ofLog ℓ log).last with
  | none => simp [hlast] at hmatched
  | some c =>
    by_cases hsame : c.seqAdded = n.1
    · simp only [hlast, if_pos hsame] at hmatched ⊢
      obtain ⟨_, hpending⟩ := hagrees hmatched
      have hrows := hpending c hlast (by rwa [hsame])
      rw [hsame] at hrows
      refine ⟨hrows, ?_⟩
      intro d hd
      cases hd
    · simp [hlast, hsame] at hmatched

theorem Kept.cleared : Kept cache log → Kept cache.clear (log ++ [(.clear, true)]) := by
  intro h
  refine ⟨h.fits, h.maxSeq, ?_⟩
  intro ℓ layer _
  rw [ofLog_append]
  exact agrees_empty layer

theorem Kept.appended {i n : Usize} {k v : Slice F} (hget : cache.layers[i.1]? = some layer)
    (hmax : layer'.maxSeq = cache.maxSeq) (hshape : layer.SameShape layer')
    (happ : layer.Appended cache.currentLen n.1 k.1 v.1 layer') : Kept cache log →
      Kept (cache.setLayer i.1 layer' hmax) (log ++ [(.append i n k v, true)]) := by
  intro h
  have hfits := h.fits layer (mem_of_getElem? hget)
  refine ⟨?_, h.maxSeq, ?_⟩
  · intro l hl
    rcases mem_or_eq_of_mem_set hl with hl | rfl
    · exact h.fits l hl
    · obtain ⟨hb, hn, hm, hd⟩ := hshape
      rwa [KVLayerCache.Fits, hb, hn, hm, hd]
  · intro ℓ l hl
    rw [ofLog_append]
    simp only [KVCache.setLayer, getElem?_set] at hl
    by_cases hi : i.1 = ℓ
    · subst hi
      have hlt := (List.getElem?_eq_some_iff.1 hget).1
      rw [if_pos rfl, if_pos hlt] at hl
      cases hl
      intro hmatched
      simp only [Ledger.after, if_true, Ledger.record] at hmatched ⊢
      obtain ⟨hrows, hpending⟩ := (h.agrees _ _ hget hmatched).1.appended hshape happ
      refine ⟨hrows, ?_⟩
      intro c hc
      cases hc
      exact hpending
    · rw [if_neg hi] at hl
      simp only [Ledger.after, if_true, Ledger.record, if_neg hi]
      exact h.agrees ℓ l hl

theorem setLayer_self {i : Nat} (hget : cache.layers[i]? = some layer)
    (hmax : layer.maxSeq = cache.maxSeq) : cache.setLayer i layer hmax = cache := by
  obtain ⟨hi, rfl⟩ := List.getElem?_eq_some_iff.1 hget
  cases cache
  simp [KVCache.setLayer]

/-- The result of a call that returns. -/
structure Returned (cache : KVCache F) (log : List (Call F × Bool)) (c : Call F)
    (cache' : KVCache F) (r : Except KVCacheError Unit) : Prop where
  errs : ∀ e, r = .error e → cache' = cache
  grows : c ≠ .clear → cache.currentLen ≤ cache'.currentLen
  kept : Kept cache' (log ++ [(c, r.isOk)])

theorem append_returned {i n : Usize} {k v : Slice F} (h : Kept cache log) :
    ∃ cache' r, cache.append i n k v = some (cache', r) ∧
      Returned cache log (.append i n k v) cache' r := by
  have herror : ∀ e : KVCacheError, cache.append i n k v = some (cache, .error e) →
      ∃ cache' r, cache.append i n k v = some (cache', r) ∧
        Returned cache log (.append i n k v) cache' r := by
    intro e he
    exact ⟨cache, .error e, he, fun _ _ => rfl, fun _ => le_rfl, h.failed⟩
  cases hget : cache.layers[i.1]? with
  | none =>
    -- no such layer: the cache is returned as it was
    apply herror (.layerOutOfRange i cache.layers.length)
    unfold KVCache.append
    split
    · rfl
    · next layer hlayer =>
        rw [hget] at hlayer
        cases hlayer
  | some layer =>
    have hmem := mem_of_getElem? hget
    have hmax := cache.layers_maxSeq layer hmem
    have hcases := @append_cases F layer cache.currentLen n.1 k.1 v.1
      (h.fits layer hmem) (hmax ▸ cache.currentLen_le) n.2 k.2
    -- the layer refuses, or takes the rows
    rcases hcases with ⟨e, happ⟩ | ⟨layer', happ, hshape, hrows⟩
    · apply herror e
      unfold KVCache.append
      split
      · next hnone =>
          rw [hget] at hnone
          cases hnone
      · next l hl =>
          rw [hget] at hl
          cases hl
          split
          · next hnone =>
              rw [happ] at hnone
              cases hnone
          · next l' r hl' =>
              rw [happ] at hl'
              cases hl'
              rw [setLayer_self hget]
    · have hmax' : layer'.maxSeq = cache.maxSeq := hshape.2.2.1.trans hmax
      refine ⟨cache.setLayer i layer' hmax', .ok (), ?_, ?_, fun _ => le_rfl,
        h.appended hget hmax' hshape hrows⟩
      · unfold KVCache.append
        split
        · next hnone =>
            rw [hget] at hnone
            cases hnone
        · next l hl =>
            rw [hget] at hl
            cases hl
            split
            · next hnone =>
                rw [happ] at hnone
                cases hnone
            · next l' r hl' =>
                rw [happ] at hl'
                cases hl'
                rfl
      · intro e he
        cases he

theorem call_returned (h : Kept cache log) : NoWrap (some cache) c →
      ∃ cache' r, cache.call c = some (cache', r) ∧ Returned cache log c cache' r := by
  intro hwrap
  cases c with
  | append i n k v => exact append_returned h
  | advance n =>
    have hmod := mod_eq_of_lt (hwrap cache rfl n rfl)
    by_cases hle : cache.currentLen + n.1 ≤ cache.maxSeq
    · refine ⟨_, .ok (), congrArg some (KVCache.advance_of_le h.maxSeq hle), ?_, ?_,
        h.advanced hle⟩
      · intro e he
        cases he
      · intro _
        exact Nat.le_add_right _ _
    · refine ⟨cache, .error (.overflow (cache.currentLen + n.1) cache.maxSeq), ?_,
        fun _ _ => rfl, fun _ => le_rfl, h.failed⟩
      simp only [KVCache.call, KVCache.advance, hmod, dif_neg hle]
  | clear =>
    refine ⟨cache.clear, .ok (), rfl, ?_, fun hne => absurd rfl hne, h.cleared⟩
    intro e he
    cases he

end Call

/-! ## A run -/

/-- The invariant of a run, for the state that may be a panic. -/
def KeptRun (s : Option (KVCache F)) (log : List (Call F × Bool)) : Prop :=
  ∃ cache, s = some cache ∧ Kept cache log

theorem keptRun_step (s : Option (KVCache F)) (log : List (Call F × Bool)) (c : Call F) :
    NoWrap s c → KeptRun s log → KeptRun (step s c) (log ++ logged s c) := by
  rintro hwrap ⟨cache, rfl, hkept⟩
  obtain ⟨cache', r, hcall, hret⟩ := call_returned hkept hwrap
  refine ⟨cache', by simp [step, hcall], ?_⟩
  have hlog : logged (some cache) c = [(c, r.isOk)] := by
    cases r <;> simp [logged, succeeds, hcall, Except.isOk, Except.toBool]
  rw [hlog]
  exact hret.kept

section Start

variable [Zero F] {numLayers batch nHeads headDim : Nat} {maxSeq : Usize} {calls : List (Call F)}

theorem kept_new (hfits : batch * nHeads * maxSeq.1 * headDim * 4 < 2 ^ 63) :
    KeptRun (F := F) (some (KVCache.new numLayers batch nHeads headDim maxSeq)) [] := by
  refine ⟨_, rfl, ?_, maxSeq.2, ?_⟩
  · intro layer hlayer
    rw [eq_of_mem_replicate hlayer]
    exact hfits
  · intro ℓ layer _
    exact agrees_empty layer

theorem keptRun (hfits : batch * nHeads * maxSeq.1 * headDim * 4 < 2 ^ 63) :
    Along step NoWrap (some (KVCache.new numLayers batch nHeads headDim maxSeq)) calls →
      KeptRun (run step (some (KVCache.new numLayers batch nHeads headDim maxSeq)) calls)
        (outputs step logged (some (KVCache.new numLayers batch nHeads headDim maxSeq))
          calls) := by
  intro halong
  exact invariant_outputs KeptRun keptRun_step halong (kept_new hfits)

variable {c : Call F} {cache cache' : KVCache F} {r : Except KVCacheError Unit}

theorem returned_of_along (hfits : batch * nHeads * maxSeq.1 * headDim * 4 < 2 ^ 63)
    {before after : List (Call F)} :
    Along step NoWrap (some (KVCache.new numLayers batch nHeads headDim maxSeq))
        (before ++ c :: after) →
      run step (some (KVCache.new numLayers batch nHeads headDim maxSeq)) before = some cache →
        cache.call c = some (cache', r) → ∃ log, Returned cache log c cache' r := by
  intro halong hrun hcall
  rw [along_append] at halong
  obtain ⟨_, hsome, hkept⟩ := keptRun hfits halong.1
  rw [hrun] at hsome halong
  cases hsome
  obtain ⟨cache'', r', hcall', hret⟩ := call_returned hkept halong.2.1
  rw [hcall] at hcall'
  cases hcall'
  exact ⟨_, hret⟩

theorem history_of_along (hfits : batch * nHeads * maxSeq.1 * headDim * 4 < 2 ^ 63) :
    Along step NoWrap (some (KVCache.new numLayers batch nHeads headDim maxSeq)) calls →
      History (KVCache.new numLayers batch nHeads headDim maxSeq) calls := by
  intro halong
  obtain ⟨last, hlast, hkept⟩ := keptRun hfits halong
  refine ⟨⟨last, hlast⟩, ?_, ?_, ?_, ?_⟩
  · intro before c after cache cache' e heq hrun hcall
    rw [heq] at halong
    obtain ⟨log, hret⟩ := returned_of_along hfits halong hrun hcall
    exact hret.errs e rfl
  · intro cache _
    exact cache.currentLen_le
  · intro before c after cache cache' r heq hrun hcall
    rw [heq] at halong
    obtain ⟨log, hret⟩ := returned_of_along hfits halong hrun hcall
    exact hret.grows
  · intro cache ℓ layer hrun hget hmatched
    rw [hlast] at hrun
    cases hrun
    exact (hkept.agrees ℓ layer hget hmatched).1

omit [Zero F] in
theorem call_maxSeq : cache.call c = some (cache', r) → cache'.maxSeq = cache.maxSeq := by
  intro h
  cases c with
  | append i n k v =>
    simp only [KVCache.call, KVCache.append] at h
    split at h
    · cases h
      rfl
    · split at h
      · cases h
      · cases h
        rfl
  | advance n =>
    simp only [KVCache.call, KVCache.advance] at h
    split_ifs at h <;> cases h <;> rfl
  | clear =>
    cases h
    rfl

omit [Zero F] in
theorem run_maxSeq {cache₀ : KVCache F} :
    run step (some cache₀) calls = some cache → cache.maxSeq = cache₀.maxSeq := by
  have hstep : ∀ (s : Option (KVCache F)) (c : Call F), True →
      (∀ cache, s = some cache → cache.maxSeq = cache₀.maxSeq) →
        ∀ cache, step s c = some cache → cache.maxSeq = cache₀.maxSeq := by
    intro s c _ hs cache hcache
    obtain ⟨mid, hmid, hcall⟩ := Option.bind_eq_some_iff.1 hcache
    obtain ⟨⟨next, r⟩, hnext, hfst⟩ := Option.map_eq_some_iff.1 hcall
    cases hfst
    exact (call_maxSeq hnext).trans (hs mid hmid)
  have hstart : ∀ cache, some cache₀ = some cache → cache.maxSeq = cache₀.maxSeq := by
    intro cache h
    cases h
    rfl
  exact invariant (fun s => ∀ cache, s = some cache → cache.maxSeq = cache₀.maxSeq) hstep
    along_true hstart cache

omit [Zero F] in
/-- A sum that wraps passes the check and moves the counter back. -/
theorem advance_wraps {n : Usize} (hmax : cache.maxSeq < u64Size) :
    u64Size ≤ cache.currentLen + n.1 →
      (cache.advance n).2 = .ok () ∧ (cache.advance n).1.currentLen < cache.currentLen := by
  intro hwrap
  have hcur := cache.currentLen_le
  have hmod : (cache.currentLen + n.1) % u64Size = cache.currentLen + n.1 - u64Size := by
    rw [Nat.mod_eq_sub_mod hwrap, mod_eq_of_lt (by omega)]
  have hle : cache.currentLen + n.1 - u64Size ≤ cache.maxSeq := by omega
  simp only [KVCache.advance, hmod, dif_pos hle]
  exact ⟨trivial, by omega⟩

/-- For a cache whose buffers can be allocated, a run keeps the history exactly when no `advance`
adds beyond the machine word. -/
theorem history_iff (hfits : batch * nHeads * maxSeq.1 * headDim * 4 < 2 ^ 63) :
    History (KVCache.new numLayers batch nHeads headDim maxSeq) calls ↔
      Along step NoWrap (some (KVCache.new numLayers batch nHeads headDim maxSeq)) calls := by
  refine ⟨?_, history_of_along hfits⟩
  intro h
  rw [along_iff]
  rintro before c after heq cache hrun n rfl
  by_contra hwrap
  have hmax : cache.maxSeq < u64Size := by
    rw [run_maxSeq hrun]
    exact maxSeq.2
  have hback := (advance_wraps hmax (not_lt.1 hwrap)).2
  have hgrows := h.grows before (.advance n) after cache (cache.advance n).1 (cache.advance n).2 heq
    hrun rfl (by simp)
  omega

end Start

/-! ### Two small runs -/

def word (n : Nat) (h : n < u64Size) : Usize := ⟨n, h⟩

/-- One row of one cell. -/
def cell (x : Nat) : Slice Nat := ⟨[x], by simp⟩

/-- One position of the only layer. -/
def appendCell (k v : Nat) : Call Nat :=
  .append (word 0 u64Size_pos) (word 1 one_lt_u64Size) (cell k) (cell v)

def advanceOne : Call Nat :=
  .advance (word 1 one_lt_u64Size)

/-- Two positions, one after the other. -/
theorem two_positions : History (KVCache.new 1 1 1 1 4 : KVCache Nat)
    [appendCell 5 6, advanceOne, appendCell 7 8, advanceOne] := by
  refine (@history_iff Nat _ 1 1 1 1 (word 4 (by decide)) _ (by decide)).2 ?_
  refine ⟨?_, ?_, ?_, ?_, trivial⟩ <;> intro cache hcache n hn
  · cases hn
  · cases hn
    cases hcache
    decide
  · cases hn
  · cases hn
    cases hcache
    decide

/-- After one position, an `advance` by `2^64 - 1` moves the counter back to 0. -/
theorem advance_moves_back : ¬ History (KVCache.new 1 1 1 1 4 : KVCache Nat)
    [appendCell 5 6, advanceOne, .advance (word (2 ^ 64 - 1) (by decide))] := by
  intro h
  have hgrows := h.grows [appendCell 5 6, advanceOne] (.advance (word (2 ^ 64 - 1) (by decide))) []
    _ _ _ rfl rfl rfl (by simp)
  revert hgrows
  decide

end Nn
end Rustorch
