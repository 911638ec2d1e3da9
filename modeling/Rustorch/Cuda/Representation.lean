import Rustorch.Cuda.Statistics

/-!
# The representation of the allocator

The blocks of a segment are linked in address order and tile it, and the bins hold the free blocks
(`Represented`).  A block that is split stays in its bin, and so do the blocks that a trim empties.
Along a run without the two each segment is one block, and the representation is right
(`represented_of_guard`).
-/

namespace Rustorch
namespace Cuda

open List AllocatorInner Runs Function
open Statistics (step)

namespace AllocatorInner

variable {s t : AllocatorInner} {idx i k n size stream bin stream' bin' : Nat} {b : Block}

/-! ## What is represented -/

def queue (s : AllocatorInner) (stream bin : Nat) : List Nat :=
  ((s.bins stream).getD []).getD bin []

/-- The nominal size of a bin. -/
def nominal (bin : Nat) : Nat :=
  4096 * 2 ^ bin

/-- A walk along `next` that fills the addresses from `lo` to `hi`, behind the block `prev`. -/
def Walk (s : AllocatorInner) (hi : Nat) : Option Nat → Nat → List Nat → Option Nat → Prop
  | _, lo, [], link => link = none ∧ lo = hi
  | prev, lo, i :: is, link =>
    link = some i ∧ i < s.blocks.length ∧ (s.block i).prev = prev ∧ (s.block i).addr = lo ∧
      (∀ p ∈ prev, ¬ ((s.block p).state = .free ∧ (s.block i).state = .free)) ∧
      s.Walk hi (some i) (lo + (s.block i).size) is (s.block i).next

/-- A trim has emptied the segment. -/
def Emptied (s : AllocatorInner) (seg : Segment) : Prop :=
  ∀ i ∈ seg.blocks, (s.block i).state = .free ∧ (s.block i).size = 0

/-- A free block that is not empty is in one bin of its stream, once, and is as large as the bin
says; no other block is in a bin. -/
def FiledAt (s : AllocatorInner) (i : Nat) : Prop :=
  if (s.block i).state = .free ∧ 0 < (s.block i).size then
    ∃ stream bin, s.streamOf (s.block i).segmentId = some stream ∧
      nominal bin ≤ (s.block i).size ∧ ∀ stream' bin', (s.queue stream' bin').count i =
        if stream' = stream ∧ bin' = bin then 1 else 0
  else ∀ stream bin, i ∉ s.queue stream bin

structure Represented (s : AllocatorInner) : Prop where
  tiled : ∀ seg ∈ s.segments, ¬ s.Emptied seg →
    ∃ is, s.Walk (seg.baseAddr + seg.total) none seg.baseAddr is seg.blocks.head?
  filed : ∀ i, s.FiledAt i

/-- Each segment is one block. -/
structure Single (s : AllocatorInner) : Prop where
  length : s.blocks.length = s.segments.length
  alone : ∀ k seg, s.segments[k]? = some seg → seg.blocks = [k] ∧
    (s.block k).addr = seg.baseAddr ∧ (s.block k).size = seg.total ∧
    (s.block k).segmentId = k ∧ (s.block k).prev = none ∧ (s.block k).next = none
  power : ∀ i, 0 < (s.block i).size → nominal (binIndex (s.block i).size) ≤ (s.block i).size
  filed : ∀ i, s.FiledAt i

theorem Single.represented (h : Single s) : Represented s := by
  refine ⟨?_, h.filed⟩
  intro seg hseg _
  obtain ⟨k, hk⟩ := mem_iff_getElem?.1 hseg
  obtain ⟨hblocks, haddr, hsize, _, hprev, hnext⟩ := h.alone k seg hk
  have hlt : k < s.blocks.length := h.length ▸ (List.getElem?_eq_some_iff.1 hk).1
  refine ⟨[k], ?_⟩
  rw [hblocks]
  exact ⟨rfl, hlt, hprev, haddr, fun p hp => absurd hp (Option.not_mem_none p), hnext,
    by rw [hsize]⟩

theorem single_new : Single new where
  length := rfl
  alone k seg hseg := by cases hseg
  power i hi := absurd hi (Nat.lt_irrefl 0)
  filed i := by
    rw [FiledAt, if_neg fun h => Nat.lt_irrefl 0 h.2]
    exact fun _ _ => not_mem_nil

/-! ## Sizes and bins -/

theorem trailingZeros_two_pow {bits m : Nat} : m < bits → trailingZeros bits (2 ^ m) = m := by
  intro hm
  induction bits generalizing m with
  | zero => cases hm
  | succ bits ih =>
    cases m with
    | zero => rfl
    | succ m =>
      have hhalf : 2 ^ (m + 1) / 2 = 2 ^ m := by rw [Nat.pow_succ, Nat.mul_div_cancel _ Nat.two_pos]
      have heven : 2 ^ (m + 1) % 2 ≠ 1 := by omega
      rw [trailingZeros, if_neg heven, hhalf, ih (Nat.lt_of_succ_lt_succ hm)]

theorem roundUpPow2_eq (h : 0 < roundUpPow2 size) :
    ∃ m, 12 ≤ m ∧ m < 64 ∧ roundUpPow2 size = 2 ^ m := by
  unfold roundUpPow2 at h ⊢
  simp only at h ⊢
  split at h
  · next hpage => exact ⟨12, le_rfl, by decide, by rw [if_pos hpage]; rfl⟩
  · next hpage =>
    rw [if_neg hpage]
    have hlt : Nat.clog 2 size < 64 := by
      by_contra hge
      obtain ⟨c, hc⟩ := Nat.exists_eq_add_of_le (Nat.le_of_not_lt hge)
      rw [hc, Nat.pow_add, show 2 ^ 64 = u64Size from rfl, Nat.mul_mod_right] at h
      cases h
    refine ⟨Nat.clog 2 size, ?_, hlt, Nat.mod_eq_of_lt (Nat.pow_lt_pow_right (by decide) hlt)⟩
    by_contra hsmall
    have hle : 2 ^ Nat.clog 2 size ≤ 2 ^ 12 := Nat.pow_le_pow_right (by decide) (by omega)
    have hsize := Nat.le_pow_clog (by decide : 1 < 2) size
    omega

theorem nominal_binIndex (h : 0 < roundUpPow2 size) :
    nominal (binIndex (roundUpPow2 size)) = roundUpPow2 size := by
  obtain ⟨m, hlow, hhigh, heq⟩ := roundUpPow2_eq h
  have hagain : roundUpPow2 (2 ^ m) = 2 ^ m := by
    unfold roundUpPow2
    simp only
    split
    · next hpage =>
      have hm : m = 12 := le_antisymm ((Nat.pow_le_pow_iff_right (by decide)).1 hpage) hlow
      rw [hm]
      rfl
    · have hfits : 2 ^ m < u64Size := Nat.pow_lt_pow_right (by decide) hhigh
      rw [Nat.clog_pow 2 m (by decide), Nat.mod_eq_of_lt hfits]
  rw [heq, binIndex, hagain, trailingZeros_two_pow hhigh, nominal, show 4096 = 2 ^ 12 from rfl,
    ← Nat.pow_add, Nat.add_sub_cancel' hlow]

theorem queue_ensureBins : (s.ensureBins stream bin).queue stream' bin' = s.queue stream' bin' := by
  unfold queue ensureBins
  by_cases hs : stream' = stream
  · subst hs
    simp only [update_self, Option.getD_some, getD_widen]
  · simp only [update_of_ne hs]

theorem queue_pushBin : (s.pushBin stream bin idx).queue stream' bin' =
    if stream' = stream ∧ bin' = bin then s.queue stream bin ++ [idx] else s.queue stream' bin' := by
  unfold queue pushBin
  by_cases hs : stream' = stream
  · subst hs
    simp only [update_self, Option.getD_some, true_and]
    have hlt : bin < (widen (s.bins stream') bin).length := by
      simp only [widen, length_append, length_replicate]
      omega
    rw [getD_eq_getElem?_getD, getElem?_set, if_pos hlt]
    by_cases hb : bin = bin'
    · rw [if_pos hb, if_pos hb.symm, Option.getD_some, getD_widen]
    · rw [if_neg hb, if_neg (Ne.symm hb), ← getD_eq_getElem?_getD, getD_widen]
  · simp only [update_of_ne hs, hs, false_and, if_false]

theorem queue_popFront : (s.popFront stream bin).queue stream' bin' =
    if stream' = stream ∧ bin' = bin then (s.queue stream bin).tail else s.queue stream' bin' := by
  unfold queue popFront
  by_cases hs : stream' = stream
  · subst hs
    simp only [update_self, Option.getD_some, true_and]
    by_cases hb : bin' = bin
    · subst hb
      rw [if_pos rfl, getD_eq_getElem?_getD, getElem?_set, if_pos rfl]
      split
      · rfl
      · next hge => rw [getD_eq_getElem?_getD, getElem?_eq_none (Nat.le_of_not_lt hge)]; rfl
    · rw [if_neg hb, getD_eq_getElem?_getD, getElem?_set, if_neg (Ne.symm hb),
        ← getD_eq_getElem?_getD]
  · simp only [update_of_ne hs, hs, false_and, if_false]

/-! ## Steps -/

/-- One block is another one in its place; the bins may differ. -/
structure Sets (s t : AllocatorInner) (idx : Nat) (b : Block) : Prop where
  blocks : t.blocks = s.blocks.set idx b
  segments : t.segments = s.segments
  place : SamePlace (s.block idx) b
  lt : idx < s.blocks.length

theorem Sets.block (h : Sets s t idx b) : t.block i = if i = idx then b else s.block i :=
  (block_congr (s := s.setBlock idx b) h.blocks i).trans (block_setBlock h.lt)

theorem Sets.samePlace (h : Sets s t idx b) (i : Nat) : SamePlace (s.block i) (t.block i) := by
  rw [h.block]
  split
  · next hi => exact hi ▸ h.place
  · exact ⟨rfl, rfl, rfl, rfl, rfl⟩

theorem FiledAt.congr (h : s.FiledAt i) (hplace : SamePlace (s.block i) (t.block i))
    (hfree : (t.block i).state = .free ↔ (s.block i).state = .free)
    (hstream : t.streamOf (s.block i).segmentId = s.streamOf (s.block i).segmentId)
    (hcount : ∀ stream bin, (t.queue stream bin).count i = (s.queue stream bin).count i) :
    t.FiledAt i := by
  unfold FiledAt at h ⊢
  simp only [hplace.size, hplace.segmentId, hfree, hstream, hcount, ← count_eq_zero] at h ⊢
  exact h

theorem Sets.filedAt_of_ne (hsets : Sets s t idx b) (hne : i ≠ idx)
    (hcount : ∀ stream bin, (t.queue stream bin).count i = (s.queue stream bin).count i)
    (h : s.FiledAt i) : t.FiledAt i := by
  refine h.congr (hsets.samePlace i) ?_ ?_ hcount
  · rw [hsets.block, if_neg hne]
  · rw [streamOf, streamOf, hsets.segments]

variable (h : Single s)

include h

theorem Single.sets (hsets : Sets s t idx b) (hfiled : ∀ i, t.FiledAt i) :
    Single t where
  length := by rw [hsets.blocks, hsets.segments, length_set, h.length]
  alone k seg hseg := by
    have hplace := hsets.samePlace k
    rw [hplace.addr, hplace.size, hplace.segmentId, hplace.prev, hplace.next]
    exact h.alone k seg (hsets.segments ▸ hseg)
  power i hi := by
    rw [(hsets.samePlace i).size] at hi ⊢
    exact h.power i hi
  filed := hfiled

theorem Single.mark (hsets : Sets s t idx b) (hbins : t.bins = s.bins)
    (hfree : b.state = .free ↔ (s.block idx).state = .free) : Single t := by
  apply h.sets hsets
  intro i
  have hcount : ∀ stream bin, (t.queue stream bin).count i = (s.queue stream bin).count i := by
    intro stream bin
    rw [queue, queue, hbins]
  refine (h.filed i).congr (hsets.samePlace i) ?_ ?_ hcount
  · rw [hsets.block]
    split
    · next hi => rw [hi, hfree]
    · rfl
  · rw [streamOf, streamOf, hsets.segments]

theorem Single.not_binned (hi : (s.block i).state ≠ .free ∨ (s.block i).size = 0) (stream bin : Nat)
    : i ∉ s.queue stream bin := by
  have hfiled := h.filed i
  rw [FiledAt, if_neg fun hfree => hi.elim (fun hne => hne hfree.1) hfree.2.ne'] at hfiled
  exact hfiled stream bin

theorem Single.coalesceAndReturn_eq (hsets : Sets s t idx b) :
    ∃ stream, t.streamOf (s.block idx).segmentId = some stream ∧
      t.coalesceAndReturn idx = t.pushBin stream (binIndex (s.block idx).size) idx := by
  obtain ⟨seg, hseg⟩ : ∃ seg, s.segments[idx]? = some seg :=
    ⟨_, getElem?_eq_getElem (h.length ▸ hsets.lt)⟩
  obtain ⟨_, _, _, howner, hprev, hnext⟩ := h.alone idx seg hseg
  have hblock : t.block idx = b := by rw [hsets.block, if_pos rfl]
  have hplace := hsets.place
  have hmerge : ∀ fuel, mergePrev fuel t idx = (t, idx) ∧ mergeNext fuel t idx = t := by
    intro fuel
    cases fuel with
    | zero => exact ⟨rfl, rfl⟩
    | succ fuel => simp [mergePrev, mergeNext, hblock, hplace.prev, hplace.next, hprev, hnext]
  have hhome : t.streamOf (s.block idx).segmentId = some seg.stream := by
    rw [streamOf, hsets.segments, howner, hseg]
    rfl
  refine ⟨seg.stream, hhome, ?_⟩
  simp [coalesceAndReturn, hmerge, hblock, hplace.segmentId, hplace.size, hhome]

theorem Single.release (hsets : Sets s t idx b) (hbins : t.bins = s.bins)
    (hbusy : (s.block idx).state ≠ .free) (hfree : b.state = .free) (hpos : 0 < (s.block idx).size)
    : Single (t.coalesceAndReturn idx) := by
  obtain ⟨stream, hhome, hreturn⟩ := h.coalesceAndReturn_eq hsets
  have hplace := hsets.place
  have hqueue : ∀ stream' bin', t.queue stream' bin' = s.queue stream' bin' := by
    intro stream' bin'
    rw [queue, queue, hbins]
  rw [hreturn]
  have hpushed : Sets s (t.pushBin stream (binIndex (s.block idx).size) idx) idx b :=
    ⟨hsets.blocks, hsets.segments, hplace, hsets.lt⟩
  refine h.sets hpushed fun i => ?_
  by_cases hi : i = idx
  · subst hi
    have hout : ∀ stream bin, (s.queue stream bin).count i = 0 :=
      fun stream bin => count_eq_zero.2 (h.not_binned (.inl hbusy) stream bin)
    rw [FiledAt, hpushed.block, if_pos rfl, if_pos ⟨hfree, by rwa [hplace.size]⟩]
    refine ⟨stream, binIndex (s.block i).size, ?_, ?_, fun stream' bin' => ?_⟩
    · rw [hplace.segmentId]
      exact hhome
    · rw [hplace.size]
      exact h.power i hpos
    · rw [queue_pushBin, hqueue, hqueue]
      split
      · rw [count_append, hout, count_singleton_self]
      · exact hout _ _
  · refine hpushed.filedAt_of_ne hi (fun stream' bin' => ?_) (h.filed i)
    rw [queue_pushBin, hqueue, hqueue]
    split
    · next heq => rw [count_append, count_singleton, if_neg (by simpa using Ne.symm hi), heq.1,
        heq.2, Nat.add_zero]
    · rfl

theorem Single.take (hfront : s.front stream bin = some idx)
    (hsets : Sets s t idx b) (hbusy : b.state ≠ .free)
    (hqueue : ∀ stream' bin', t.queue stream' bin' =
      if stream' = stream ∧ bin' = bin then (s.queue stream bin).tail else s.queue stream' bin') :
    Single t := by
  obtain ⟨rest, hrest⟩ : ∃ rest, s.queue stream bin = idx :: rest :=
    head?_eq_some_iff.1 hfront
  refine h.sets hsets fun i => ?_
  by_cases hi : i = idx
  · subst hi
    have hfiled := h.filed i
    have hmem : i ∈ s.queue stream bin := hrest ▸ mem_cons_self
    rw [FiledAt] at hfiled
    split at hfiled
    · obtain ⟨home, place, _, _, hcount⟩ := hfiled
      have hhere := hcount stream bin
      rw [hrest, count_cons_self] at hhere
      split at hhere
      · next hplace =>
        obtain ⟨rfl, rfl⟩ := hplace
        rw [FiledAt, hsets.block, if_pos rfl, if_neg fun hfree => hbusy hfree.1]
        intro stream' bin'
        rw [← count_eq_zero, hqueue]
        split
        · rw [hrest, tail_cons]
          omega
        · next hne => rw [hcount, if_neg hne]
      · omega
    · exact absurd hmem (hfiled stream bin)
  · refine hsets.filedAt_of_ne hi (fun stream' bin' => ?_) (h.filed i)
    rw [hqueue]
    split
    · next heq => rw [heq.1, heq.2, hrest, tail_cons, count_cons_of_ne (Ne.symm hi)]
    · rfl

theorem Single.withSegment (hsize : size = roundUpPow2 n) :
    Single (s.withSegment size stream) := by
  have hblock := fun k => @block_withSegment s k size stream
  constructor
  · change (s.blocks ++ [_]).length = (s.segments ++ [_]).length
    rw [length_append, length_append, h.length]
    rfl
  · intro k seg hseg
    rcases getElem?_withSegment hseg with ⟨hk, hold⟩ | ⟨rfl, rfl⟩
    · rw [hblock, if_neg (h.length ▸ hk.ne)]
      exact h.alone k seg hold
    · rw [hblock, if_pos h.length.symm]
      exact ⟨by rw [h.length], rfl, rfl, rfl, rfl, rfl⟩
  · intro i hi
    rw [hblock] at hi ⊢
    split at hi
    · next hnew =>
      rw [if_pos hnew]
      subst hsize
      exact (nominal_binIndex hi).le
    · next hold =>
      rw [if_neg hold]
      exact h.power i hi
  · intro i
    by_cases hi : i < s.blocks.length
    · have hold : (s.withSegment size stream).block i = s.block i := by rw [hblock, if_neg hi.ne]
      obtain ⟨seg, hseg⟩ : ∃ seg, s.segments[i]? = some seg :=
        ⟨_, getElem?_eq_getElem (h.length ▸ hi)⟩
      refine (h.filed i).congr (by rw [hold]; exact ⟨rfl, rfl, rfl, rfl, rfl⟩) (by rw [hold]) ?_
        fun _ _ => rfl
      rw [(h.alone i seg hseg).2.2.2.1, streamOf, streamOf]
      exact congrArg _ (getElem?_append_left (h.length ▸ hi))
    · have hout := h.not_binned (i := i) (.inr (by rw [block_of_le (Nat.le_of_not_lt hi)]; rfl))
      rw [FiledAt, hblock, if_neg]
      · exact hout
      · split
        · exact fun hfree => nomatch hfree.1
        · rw [block_of_le (Nat.le_of_not_lt hi)]
          exact fun hfree => Nat.lt_irrefl 0 hfree.2

end AllocatorInner

namespace Representation

variable {s : AllocatorInner} {size stream : Nat} {ptr : DevPtr}

/-- No block is split, no segment trimmed, and no empty block given back. -/
def Guard (s : AllocatorInner) : Call → Prop
  | .alloc size stream => size ≠ 0 → s.front stream (binIndex size) = none →
      s.findSplittable stream (roundUpPow2 size) = none
  | .free ptr => ptr.size ≠ 0 → ∀ idx ∈ s.findInUse ptr.addr,
      (s.block idx).recordStreams = [] → 0 < (s.block idx).size
  | .recordStream _ _ => True
  | .synchronizeStream stream => ∀ idx ∈ s.pending stream,
      (∀ t ∈ (s.block idx).recordStreams, t = stream) → 0 < (s.block idx).size
  | .emptyCache => ∀ seg ∈ s.segments, s.allFree seg = false

theorem single_alloc (h : Single s) (hguard : Guard s (.alloc size stream)) :
    Single (s.alloc size stream).1 := by
  unfold alloc
  split
  · exact h
  · next hzero =>
    simp only [front_ensureBins, findSplittable_ensureBins]
    cases hfront : s.front stream (binIndex size) with
    | some idx =>
      have hmem : idx ∈ s.queue stream (binIndex size) := mem_of_mem_head? hfront
      have hlt : idx < s.blocks.length := by
        refine lt_of_size (Nat.pos_of_ne_zero fun hsize => ?_)
        exact h.not_binned (.inr hsize) _ _ hmem
      refine h.take hfront (b := { s.block idx with state := .inUse, recordStreams := [] })
        ⟨rfl, rfl, ⟨rfl, rfl, rfl, rfl, rfl⟩, hlt⟩ (by simp) fun stream' bin' => ?_
      refine Eq.trans queue_popFront ?_
      rw [queue_ensureBins, queue_ensureBins]
    | none =>
      rw [hguard hzero hfront]
      have hens : Single (s.ensureBins stream (binIndex size)) :=
        ⟨h.length, h.alone, h.power, fun i => (h.filed i).congr ⟨rfl, rfl, rfl, rfl, rfl⟩ Iff.rfl rfl
          fun _ _ => by rw [queue_ensureBins]⟩
      have hfresh := @Single.withSegment _ size (roundUpPow2 size) stream hens rfl
      exact ⟨hfresh.length, hfresh.alone, hfresh.power, hfresh.filed⟩

theorem single_free (h : Single s) (hguard : Guard s (.free ptr)) : Single (s.free ptr).1 := by
  unfold free
  split
  · exact h
  · next hzero =>
    cases hfind : s.findInUse ptr.addr with
    | none => exact h
    | some idx =>
      have hstate := (findInUse_some hfind).2
      have hbusy : (s.block idx).state ≠ .free := by
        rw [hstate]
        decide
      have hsets : ∀ (state : BlockState) (t : AllocatorInner),
          t.blocks = s.blocks.set idx { s.block idx with state := state } →
          t.segments = s.segments → Sets s t idx { s.block idx with state := state } :=
        fun state t hblocks hsegments =>
          ⟨hblocks, hsegments, ⟨rfl, rfl, rfl, rfl, rfl⟩, lt_of_state hbusy⟩
      simp only
      split
      · next hstreams =>
        exact h.release (hsets .free _ rfl rfl) rfl hbusy rfl (hguard hzero idx hfind hstreams)
      · refine h.mark (hsets .freePending _ rfl rfl) rfl ?_
        simp [hstate]

theorem single_recordStream (h : Single s) : Single (s.recordStream ptr stream).1 := by
  unfold recordStream
  cases hfind : s.findInUse ptr.addr with
  | none => exact h
  | some idx =>
    have hlt : idx < s.blocks.length := lt_of_state (by
      rw [(findInUse_some hfind).2]
      decide)
    exact h.mark (b := { s.block idx with recordStreams := _ })
      ⟨rfl, rfl, ⟨rfl, rfl, rfl, rfl, rfl⟩, hlt⟩ rfl Iff.rfl

/-- A block that waits for one stream only is not empty. -/
def Awaited (stream : Nat) (s : AllocatorInner) (idx : Nat) : Prop :=
  (∀ t ∈ (s.block idx).recordStreams, t = stream) → 0 < (s.block idx).size

theorem Awaited.congr {t : AllocatorInner} {i : Nat} (h : Awaited stream s i)
    (hsize : (t.block i).size = (s.block i).size)
    (hstreams : (t.block i).recordStreams = (s.block i).recordStreams) : Awaited stream t i := by
  unfold Awaited
  rw [hsize, hstreams]
  exact h

theorem single_drainOne {idx released : Nat} (h : Single s) (hawaited : Awaited stream s idx) :
    Single (drainOne stream (s, released) idx).1 ∧
      ∀ i, Awaited stream s i → Awaited stream (drainOne stream (s, released) idx).1 i := by
  unfold drainOne
  simp only
  by_cases hidx : idx < s.blocks.length
  · let b : Block := { s.block idx with recordStreams := (s.block idx).recordStreams.erase stream }
    have hsets : Sets s (s.setBlock idx b) idx b :=
      ⟨rfl, rfl, ⟨rfl, rfl, rfl, rfl, rfl⟩, hidx⟩
    have hmarked : Single (s.setBlock idx b) := h.mark hsets rfl Iff.rfl
    have hwaits : ∀ i, Awaited stream s i → Awaited stream (s.setBlock idx b) i := by
      intro i hi hall
      rw [(hsets.samePlace i).size]
      rw [hsets.block] at hall
      apply hi
      intro t ht
      by_contra hne
      split at hall
      · next heq => exact hne (hall t ((mem_erase_of_ne hne).2 (heq ▸ ht)))
      · exact hne (hall t ht)
    split
    · next hlast =>
      have hagain : Sets (s.setBlock idx b)
          ((s.setBlock idx b).setBlock idx { (s.setBlock idx b).block idx with state := .free }) idx
          { (s.setBlock idx b).block idx with state := .free } :=
        ⟨rfl, rfl, ⟨rfl, rfl, rfl, rfl, rfl⟩, by rwa [length_setBlock]⟩
      constructor
      · refine hmarked.release hagain rfl ?_ rfl (hwaits idx hawaited ?_)
        · rw [hlast.2]
          decide
        · intro t ht
          rw [hlast.1] at ht
          cases ht
      · intro i hi
        obtain ⟨_, _, hreturn⟩ := hmarked.coalesceAndReturn_eq hagain
        rw [hreturn]
        apply (hwaits i hi).congr (hagain.samePlace i).size
        rw [hagain.block]
        split
        · next heq => rw [heq]
        · rfl
    · exact ⟨hmarked, hwaits⟩
  · -- nothing is stored past the end of the table
    have hset : ∀ b, s.setBlock idx b = s := fun b => by
      rw [setBlock, set_eq_of_length_le (Nat.le_of_not_lt hidx)]
    rw [hset, if_neg]
    · exact ⟨h, fun _ hi => hi⟩
    · rw [block_of_le (Nat.le_of_not_lt hidx)]
      exact fun hlast => nomatch hlast.2

theorem single_synchronizeStream (h : Single s) (hguard : Guard s (.synchronizeStream stream)) :
    Single (s.synchronizeStream stream).1 := by
  have hrun : ∀ (drained : List Nat) (t : AllocatorInner) (released : Nat), Single t →
      (∀ idx ∈ drained, Awaited stream t idx) →
        Single (drained.foldl (drainOne stream) (t, released)).1 := by
    intro drained
    induction drained with
    | nil => exact fun t _ ht _ => ht
    | cons idx drained ih =>
      intro t released ht hall
      obtain ⟨hfirst, hrest⟩ := @single_drainOne t stream idx released ht (hall idx mem_cons_self)
      exact ih _ _ hfirst fun i hi => hrest i (hall i (mem_cons_of_mem _ hi))
  exact hrun _ _ 0 ⟨h.length, h.alone, h.power, h.filed⟩ hguard

theorem single_emptyCache (h : Single s) (hguard : Guard s .emptyCache) :
    Single s.emptyCache.1 := by
  have hnone : s.segments.filter s.allFree = [] :=
    filter_eq_nil_iff.2 fun seg hseg => by simp [hguard seg hseg]
  unfold emptyCache trimFreeSegments
  rw [hnone]
  exact ⟨h.length, h.alone, h.power, h.filed⟩

theorem single_step (h : Single s) {call : Call} (hguard : Guard s call) :
    Single (step s call) := by
  cases call with
  | alloc size stream => exact single_alloc h hguard
  | free ptr => exact single_free h hguard
  | recordStream ptr stream => exact single_recordStream h
  | synchronizeStream stream => exact single_synchronizeStream h hguard
  | emptyCache => exact single_emptyCache h hguard

/-- Every state that the run reaches is represented right. -/
def RepresentedThroughout (calls : List Call) : Prop :=
  ∀ before after, calls = before ++ after →
    Represented (run step new before)

/-- A run without splits and trims, where no empty block is given back. -/
theorem represented_of_guard (calls : List Call)
    (hguard : Along step Guard new calls) : RepresentedThroughout calls := by
  rintro before after rfl
  have hsingle := invariant Single (fun s call hmeets h => single_step h hmeets)
    (along_append.1 hguard).1 single_new
  exact hsingle.represented

instance (s : AllocatorInner) : ∀ call, Decidable (Guard s call)
  | .alloc _ _ => inferInstanceAs (Decidable (_ → _ → _))
  | .free _ => inferInstanceAs (Decidable (_ → ∀ idx ∈ s.findInUse _, _ → _))
  | .recordStream _ _ => inferInstanceAs (Decidable True)
  | .synchronizeStream stream =>
    inferInstanceAs (Decidable (∀ idx ∈ s.pending stream, (∀ t ∈ _, _) → _))
  | .emptyCache => inferInstanceAs (Decidable (∀ seg ∈ s.segments, _))

/-- Blocks of two sizes are allocated, recorded, freed and served again. -/
def wholeBlocks : List Call :=
  [.alloc 4096 0, .alloc 8192 7, .recordStream { addr := 0x100000000, size := 4096 } 7,
    .free { addr := 0x100000000, size := 4096 }, .emptyCache, .synchronizeStream 7, .alloc 4000 0]

theorem wholeBlocks_represented : RepresentedThroughout wholeBlocks :=
  represented_of_guard wholeBlocks (by decide +kernel)

/-- The block that the last call splits is in use and still in its bin. -/
def splitBlock : List Call :=
  [.alloc 8192 0, .free { addr := 0x100000000, size := 8192 }, .alloc 4096 0]

theorem splitBlock_not_represented : ¬ RepresentedThroughout splitBlock := by
  intro h
  have hfiled := (h splitBlock [] (append_nil _).symm).filed 0
  exact hfiled 0 1 (by decide +kernel)

end Representation

end Cuda
end Rustorch
