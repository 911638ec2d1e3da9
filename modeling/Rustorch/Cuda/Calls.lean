import Rustorch.Cuda.Blocks

/-!
# What each call does to the blocks

`alloc` takes one block into use and leaves the other busy blocks alone (`Takes`), as long as the
block it pops from a bin satisfies a guard and a fresh segment has room behind the others
(`AllocGuard`).  `free` and `synchronizeStream` give blocks back and leave the others alone.
-/

namespace Rustorch
namespace Cuda

open List AllocatorInner

def DevPtr.Apart (p q : DevPtr) : Prop :=
  p.addr + p.size ≤ q.addr ∨ q.addr + q.size ≤ p.addr

instance : DecidableRel DevPtr.Apart :=
  fun _ _ => inferInstanceAs (Decidable (_ ∨ _))

namespace AllocatorInner

open IntervalChain

variable {s s' t t' : AllocatorInner} {idx i k n want size stream bin : Nat} {b : Block}

/-! ## Changes besides the blocks -/

/-- The blocks, the segments and the pending lists are the same. -/
structure SameTable (s t : AllocatorInner) : Prop where
  blocks : t.blocks = s.blocks
  segments : t.segments = s.segments
  pending : t.pending = s.pending

theorem SameTable.refl (s : AllocatorInner) : SameTable s s :=
  ⟨rfl, rfl, rfl⟩

section

variable (h : SameTable s t)

include h

theorem SameTable.block (i : Nat) : t.block i = s.block i :=
  block_congr h.blocks i

theorem SameTable.node : t.node = s.node := by
  funext i
  unfold AllocatorInner.node
  rw [h.block]

theorem SameTable.region : t.region = s.region := by
  funext k
  unfold AllocatorInner.region
  rw [h.segments]

theorem SameTable.devPtr (i : Nat) : t.devPtr i = s.devPtr i := by
  unfold AllocatorInner.devPtr
  rw [h.block]

theorem SameTable.wf (hwf : Wf s) : Wf t :=
  hwf.congr h.blocks h.segments

end

theorem sameTable_ensureBins : SameTable s (s.ensureBins stream bin) :=
  ⟨rfl, rfl, rfl⟩

theorem sameTable_popFront : SameTable s (s.popFront stream bin) :=
  ⟨rfl, rfl, rfl⟩

theorem sameTable_countFree (s : AllocatorInner) (size : Nat) : SameTable s (s.countFree size) :=
  ⟨rfl, rfl, rfl⟩

theorem sameTable_hit (s : AllocatorInner) (size : Nat) :
    SameTable s (s.countAlloc size).countHit :=
  ⟨rfl, rfl, rfl⟩

theorem sameTable_miss (s : AllocatorInner) (size : Nat) :
    SameTable s (s.countAlloc size).countMiss :=
  ⟨rfl, rfl, rfl⟩

theorem SameTable.trans (h : SameTable s t) (h' : SameTable t t') : SameTable s t' :=
  ⟨h'.blocks.trans h.blocks, h'.segments.trans h.segments, h'.pending.trans h.pending⟩

/-! ## Taking a block into use -/

/-- The segment `k` has a block that is not empty. -/
def Occupied (s : AllocatorInner) (k : Nat) : Prop :=
  ∃ i, Active s.node i ∧ (s.block i).segmentId = k

structure Takes (s t : AllocatorInner) (idx : Nat) : Prop where
  wf : Wf t
  state : (t.block idx).state = .inUse
  streams : (t.block idx).recordStreams = []
  others : ∀ i, i ≠ idx → (t.block i).state = (s.block i).state ∧
    (t.block i).recordStreams = (s.block i).recordStreams
  places : ∀ i, i ≠ idx → (s.block i).state ≠ .free → t.devPtr i = s.devPtr i
  pending : t.pending = s.pending
  segments : s.segments.length ≤ t.segments.length
  regions : ∀ k, k < s.segments.length → t.region k = s.region k
  occupied : ∀ k, k < s.segments.length → Occupied t k → Occupied s k

theorem SameTable.occupied (h : SameTable s t) : Occupied t k ↔ Occupied s k := by
  unfold Occupied
  rw [h.node]
  simp only [h.block]

theorem Takes.congr (h : Takes s t idx) (hs : SameTable s' s) (ht : SameTable t t') :
    Takes s' t' idx where
  wf := ht.wf h.wf
  state := by rw [ht.block, h.state]
  streams := by rw [ht.block, h.streams]
  others i hi := by
    rw [ht.block, ← hs.block]
    exact h.others i hi
  places i hi hstate := by
    rw [ht.devPtr, ← hs.devPtr]
    exact h.places i hi (by rwa [hs.block])
  pending := by rw [ht.pending, h.pending, hs.pending]
  segments := by
    rw [ht.segments, ← hs.segments]
    exact h.segments
  regions k hk := by
    rw [ht.region, ← hs.region]
    exact h.regions k (by rwa [hs.segments])
  occupied k hk hocc :=
    hs.occupied.1 (h.occupied k (by rwa [hs.segments]) (ht.occupied.1 hocc))

theorem devPtr_use (hidx : idx < s.blocks.length) : (s.use idx).devPtr idx = s.devPtr idx := by
  unfold use devPtr
  rw [block_setBlock hidx, if_pos rfl]

theorem takes_use (h : Wf s) (hactive : Active s.node idx) : Takes s (s.use idx) idx := by
  have hidx : idx < s.blocks.length := h.active_lt hactive
  have hblock : ∀ i, (s.use idx).block i =
      if i = idx then { s.block idx with state := .inUse, recordStreams := [] } else s.block i :=
    fun i => block_setBlock hidx
  have hplace : SamePlace (s.block idx)
      { s.block idx with state := .inUse, recordStreams := [] } := ⟨rfl, rfl, rfl, rfl, rfl⟩
  have hsize : ∀ i, ((s.use idx).block i).size = (s.block i).size ∧
      ((s.use idx).block i).segmentId = (s.block i).segmentId := by
    intro i
    rw [hblock]
    split
    · next heq => rw [heq]; exact ⟨rfl, rfl⟩
    · exact ⟨rfl, rfl⟩
  constructor
  · exact h.setBlock hidx hplace (fun _ => hactive)
  · rw [hblock, if_pos rfl]
  · rw [hblock, if_pos rfl]
  · intro i hi
    rw [hblock, if_neg hi]
    exact ⟨rfl, rfl⟩
  · intro i hi _
    unfold devPtr
    rw [hblock, if_neg hi]
  · rfl
  · exact le_refl _
  · exact fun _ _ => rfl
  · rintro k _ ⟨i, hi, howner⟩
    refine ⟨i, ?_, by rw [← (hsize i).2, howner]⟩
    change 0 < ((s.use idx).block i).size at hi
    rwa [(hsize i).1] at hi

theorem takes_cut (h : Wf s) (hcut : Cuttable s idx want) :
    Takes s ((s.cut idx want).use idx) idx := by
  have hblock := fun k => @Cuttable.block_cut s idx k want hcut h
  have hleft : Active (s.cut idx want).node idx := by
    rw [hcut.node_cut h]
    exact (active_split hcut.active not_active_length hcut.pos hcut.lt).2 (Or.inl hcut.active)
  have huse := takes_use (h.cut hcut) hleft
  have hother : ∀ i, i ≠ idx → ((s.cut idx want).block i).state = (s.block i).state ∧
      ((s.cut idx want).block i).recordStreams = (s.block i).recordStreams ∧
      ((s.block i).state ≠ .free → (s.cut idx want).devPtr i = s.devPtr i) := by
    intro i hi
    unfold devPtr
    rw [hblock, if_neg hi]
    by_cases hnew : i = s.blocks.length
    · -- the right part is a block that was not there
      have habsent : s.block i = Block.absent := block_of_le hnew.ge
      rw [if_pos hnew, habsent]
      exact ⟨rfl, rfl, fun hne => absurd rfl hne⟩
    · rw [if_neg hnew]
      split
      · exact ⟨rfl, rfl, fun _ => rfl⟩
      · exact ⟨rfl, rfl, fun _ => rfl⟩
  constructor
  · exact huse.wf
  · exact huse.state
  · exact huse.streams
  · intro i hi
    rw [(huse.others i hi).1, (huse.others i hi).2, (hother i hi).1, (hother i hi).2.1]
    exact ⟨rfl, rfl⟩
  · intro i hi hstate
    rw [huse.places i hi (by rwa [(hother i hi).1]), (hother i hi).2.2 hstate]
  · exact pending_cut
  · change s.segments.length ≤ (s.cut idx want).segments.length
    rw [segments_cut, length_modify]
  · intro k _
    change (s.cut idx want).region k = _
    rw [region_cut]
  · intro k hk hocc
    -- a block of the cut list was there before, or is the right part, cut off the block `idx`
    obtain ⟨i, hi, howner⟩ := huse.occupied k (by rwa [segments_cut, length_modify]) hocc
    rw [hcut.owner_cut h] at howner
    rw [hcut.node_cut h] at hi
    rcases (active_split hcut.active not_active_length hcut.pos hcut.lt).1 hi with hold | hnew
    · have hlt := h.active_lt hold
      rw [if_neg (by omega)] at howner
      exact ⟨i, hold, howner⟩
    · rw [if_pos hnew] at howner
      exact ⟨idx, hcut.active, howner⟩

theorem takes_split (h : Wf s) (hfree : (s.block idx).state = .free) (hpos : 0 < want)
    (hle : want ≤ (s.block idx).size) : Takes s (s.splitAndUse idx want) idx ∧
      ((s.splitAndUse idx want).block idx).size = want := by
  have hactive : Active s.node idx := hpos.trans_le hle
  have hidx : idx < s.blocks.length := h.active_lt hactive
  unfold splitAndUse
  split
  · next hlt =>
      have hcut : Cuttable s idx want := ⟨hfree, hpos, hlt⟩
      refine ⟨takes_cut h hcut, ?_⟩
      have hlen : idx < (s.cut idx want).blocks.length := by
        rw [length_cut]
        omega
      unfold use
      rw [block_setBlock hlen, if_pos rfl, hcut.block_cut h, if_pos rfl]
  · next hge =>
      refine ⟨takes_use h hactive, ?_⟩
      unfold use
      rw [block_setBlock hidx, if_pos rfl]
      simp only
      omega

theorem takes_fresh (h : Wf s) (hsize : 0 < size) (hroom : RoomAt s (s.freshAddr size) size) :
    Takes s (s.withSegment size stream) s.blocks.length := by
  have hblock := fun k => @block_withSegment s k size stream
  constructor
  · exact h.withSegment hsize hroom
  · rw [hblock, if_pos rfl]
  · rw [hblock, if_pos rfl]
  · intro i hi
    rw [hblock, if_neg hi]
    exact ⟨rfl, rfl⟩
  · intro i hi _
    unfold devPtr
    rw [hblock, if_neg hi]
  · rfl
  · change s.segments.length ≤ (s.segments ++ [_]).length
    rw [length_append]
    exact Nat.le_add_right _ _
  · exact fun k hk => region_withSegment hk
  · rintro k hk ⟨i, hi, howner⟩
    rw [hblock] at howner
    split at howner
    · exact absurd howner (Nat.ne_of_gt hk)
    · next hne =>
        refine ⟨i, ?_, howner⟩
        change 0 < ((s.withSegment size stream).block i).size at hi
        rwa [hblock, if_neg hne] at hi

theorem size_withSegment (s : AllocatorInner) :
    ((s.withSegment size stream).devPtr s.blocks.length).size = size := by
  unfold devPtr
  rw [block_withSegment, if_pos rfl]

/-! ## Rounding -/

theorem roundUpPow2_bounds : size ≤ 2 ^ 63 →
    size ≤ roundUpPow2 size ∧ 0 < roundUpPow2 size := by
  intro hsize
  unfold roundUpPow2
  simp only
  split
  · next hpage => exact ⟨hpage, by decide⟩
  · have hclog : Nat.clog 2 size ≤ 63 := Nat.clog_le_of_le_pow hsize
    have hfits : 2 ^ Nat.clog 2 size < u64Size := by
      calc
        2 ^ Nat.clog 2 size ≤ 2 ^ 63 := Nat.pow_le_pow_right (by decide) hclog
        _ < u64Size := by decide
    rw [Nat.mod_eq_of_lt hfits]
    exact ⟨Nat.le_pow_clog (by decide) size, Nat.pow_pos (by decide)⟩

/-! ## Looking for a block -/

theorem getD_widen {queues : Option (List (List Nat))} :
    (widen queues bin).getD n [] = (queues.getD []).getD n [] := by
  unfold widen
  cases queues with
  | none =>
    simp only [Option.getD_none, replicate_append_replicate, getD_eq_getElem?_getD,
      getElem?_replicate]
    split
    · rfl
    · rfl
  | some queues =>
    simp only [Option.getD_some, getD_eq_getElem?_getD]
    by_cases hbin : n < queues.length
    · rw [getElem?_append_left hbin]
    · rw [getElem?_append_right (by omega), getElem?_replicate, getElem?_eq_none (by omega)]
      split
      · rfl
      · rfl

theorem front_ensureBins : (s.ensureBins stream bin).front stream bin = s.front stream bin := by
  unfold front ensureBins
  simp only [Function.update_self, Option.getD_some, getD_widen]

theorem findSplittable_ensureBins :
    (s.ensureBins stream bin).findSplittable stream want = s.findSplittable stream want := rfl

/-- What the scan found so far is free and large enough. -/
def Fits (s : AllocatorInner) (want : Nat) (best : Option (Nat × Nat)) : Prop :=
  ∀ i extra, best = some (i, extra) → (s.block i).state = .free ∧ want ≤ (s.block i).size

theorem findSplittable_spec : s.findSplittable stream want = some idx →
    (s.block idx).state = .free ∧ want ≤ (s.block idx).size := by
  intro h
  obtain ⟨⟨i, extra⟩, hbest, hidx⟩ := Option.map_eq_some_iff.1 h
  have hfits : Fits s want (some (i, extra)) := by
    rw [← hbest]
    -- each block of the scan keeps what fits or takes its place
    apply foldlRecOn _ _ (motive := Fits s want)
    · intro j least hnone
      cases hnone
    · intro best hkeep j _
      simp only
      split
      · next hfit =>
          have hj : (s.block j).state = .free ∧ want ≤ (s.block j).size := ⟨hfit.1, hfit.2.1⟩
          split
          · intro k least heq
            cases heq
            exact hj
          · split
            · intro k least heq
              cases heq
              exact hj
            · exact hkeep
      · exact hkeep
  rw [← hidx]
  exact hfits i extra rfl

/-! ## Allocating -/

/-- No queue has a block for the request, and no free block is large enough. -/
def OutOfBlocks (s : AllocatorInner) (size stream : Nat) : Prop :=
  s.front stream (binIndex size) = none ∧ s.findSplittable stream (roundUpPow2 size) = none

instance : Decidable (OutOfBlocks s size stream) :=
  inferInstanceAs (Decidable (_ ∧ _))

theorem RoomAt.of_counter (hcounter : s.nextSynthAddr + (size + 0x1000) < u64Size)
    (hstop : s.freshAddr size + size ≤ u64Size)
    (hbehind : ∀ seg ∈ s.segments, seg.baseAddr + seg.total ≤ s.freshAddr size) :
    RoomAt s (s.freshAddr size) size := by
  refine ⟨?_, hstop, hbehind⟩
  unfold freshAddr
  split
  · decide
  · rw [Nat.mod_eq_of_lt hcounter]
    exact Nat.add_pos_right _ (Nat.add_pos_right _ (by decide))

theorem alloc_spec (h : Wf s) (hzero : size ≠ 0) (hsize : size ≤ 2 ^ 63)
    (hpop : ∀ idx, s.front stream (binIndex size) = some idx → Active s.node idx)
    (hroom : OutOfBlocks s size stream →
      RoomAt s (s.freshAddr (roundUpPow2 size)) (roundUpPow2 size)) :
    ∃ t idx, s.alloc size stream = (t, .ok (t.devPtr idx)) ∧ Takes s t idx ∧
      ((s.front stream (binIndex size) = some idx ∧ t.devPtr idx = s.devPtr idx) ∨
       ((s.block idx).state = .free ∧ size ≤ (t.devPtr idx).size)) := by
  obtain ⟨hround, hpos⟩ := roundUpPow2_bounds hsize
  have hens := @sameTable_ensureBins s stream (binIndex size)
  have hwf : Wf (s.ensureBins stream (binIndex size)) := hens.wf h
  unfold alloc
  rw [if_neg hzero]
  simp only [front_ensureBins]
  cases hfront : s.front stream (binIndex size) with
  | some idx =>
    -- a bin of the stream has a block
    have hactive := hpop idx hfront
    have hpopped := hens.trans (@sameTable_popFront _ stream (binIndex size))
    have hstill : Active
        ((s.ensureBins stream (binIndex size)).popFront stream (binIndex size)).node idx := by
      rw [hpopped.node]
      exact hactive
    have htakes := (takes_use (hpopped.wf h) hstill).congr hpopped
      (sameTable_hit _ (roundUpPow2 size))
    refine ⟨_, idx, rfl, htakes, Or.inl ⟨rfl, ?_⟩⟩
    have hlt := (hpopped.wf h).active_lt hstill
    rw [(sameTable_hit _ _).devPtr, devPtr_use hlt, hpopped.devPtr]
  | none =>
    simp only [findSplittable_ensureBins]
    cases hsplit : s.findSplittable stream (roundUpPow2 size) with
    | some idx =>
      -- a larger free block is cut
      obtain ⟨hfree, hfit⟩ := findSplittable_spec hsplit
      obtain ⟨htakes, hgot⟩ := takes_split hwf (by rwa [hens.block]) hpos
        (by rwa [hens.block])
      refine ⟨_, idx, rfl,
        htakes.congr hens (sameTable_hit _ (roundUpPow2 size)), Or.inr ⟨hfree, ?_⟩⟩
      rw [(sameTable_hit _ _).devPtr]
      exact hround.trans hgot.ge
    | none =>
      -- nothing fits, so the device is asked for a segment
      have hfresh := hroom ⟨hfront, hsplit⟩
      have hroom' : RoomAt (s.ensureBins stream (binIndex size))
          (s.freshAddr (roundUpPow2 size)) (roundUpPow2 size) :=
        ⟨hfresh.pos, hfresh.stop, hfresh.behind⟩
      have htakes := @takes_fresh _ _ stream hwf hpos hroom'
      refine ⟨_, s.blocks.length, rfl,
        htakes.congr hens (sameTable_miss _ (roundUpPow2 size)), Or.inr ⟨?_, ?_⟩⟩
      · rw [block_of_le (le_refl _)]
        rfl
      · rw [(sameTable_miss _ _).devPtr]
        exact hround.trans (size_withSegment (s.ensureBins stream (binIndex size))).ge

/-! ## Looking a block up -/

theorem findInUse_some {addr : Nat} : s.findInUse addr = some idx →
    (s.block idx).addr = addr ∧ (s.block idx).state = .inUse := by
  intro h
  obtain ⟨hlt, hfound, _⟩ := findIdx?_eq_some_iff_getElem.1 h
  have hblock : s.block idx = s.blocks[idx] := by
    unfold block
    rw [getD_eq_getElem?_getD, getElem?_eq_getElem hlt, Option.getD_some]
  rw [Bool.and_eq_true, beq_iff_eq, beq_iff_eq] at hfound
  rw [hblock]
  exact hfound

theorem findInUse_none {addr : Nat} : s.findInUse addr = none →
    ∀ i, (s.block i).state = .inUse → (s.block i).addr ≠ addr := by
  intro h i hstate haddr
  have hlt : i < s.blocks.length := lt_of_state (by rw [hstate]; decide)
  have hblock : s.block i = s.blocks[i] := by
    unfold block
    rw [getD_eq_getElem?_getD, getElem?_eq_getElem hlt, Option.getD_some]
  have hmiss := findIdx?_eq_none_iff.1 h _ (getElem_mem hlt)
  rw [← hblock, haddr, hstate] at hmiss
  simp at hmiss

/-- Two different blocks that are not empty have ranges that lie apart. -/
theorem Wf.devPtr_apart (h : Wf s) (hne : i ≠ k) (hi : Active s.node i) (hk : Active s.node k) :
    (s.devPtr i).Apart (s.devPtr k) :=
  h.chain.apart i k hne hi hk

theorem Wf.addr_inj (h : Wf s) (hi : Active s.node i) (hk : Active s.node k)
    (haddr : (s.block i).addr = (s.block k).addr) : i = k := by
  by_contra hne
  have hapart := h.devPtr_apart hne hi hk
  unfold DevPtr.Apart devPtr at hapart
  unfold Active node at hi hk
  simp only at hapart hi hk
  omega

theorem Wf.regions_apart {k k' : Nat} (h : Wf s) (hne : k ≠ k') (hk : k < s.segments.length)
    (hk' : k' < s.segments.length) :
    (s.region k).hi ≤ (s.region k').lo ∨ (s.region k').hi ≤ (s.region k).lo := by
  have hseg := getElem?_eq_getElem hk
  have hseg' := getElem?_eq_getElem hk'
  unfold region
  simp only [hseg, hseg']
  rcases Nat.lt_or_gt_of_ne hne with hlt | hgt
  · exact Or.inl (h.ordered k k' _ _ hlt hseg hseg')
  · exact Or.inr (h.ordered k' k _ _ hgt hseg' hseg)

/-! ## Giving a block back -/

/-- The state with block `idx` marked free. -/
def marked (s : AllocatorInner) (idx : Nat) : AllocatorInner :=
  s.setBlock idx { s.block idx with state := .free }

/-- Block `idx` is free afterwards; the other blocks that are in use or pending stay as they are. -/
structure Releases (s t : AllocatorInner) (idx : Nat) : Prop where
  wf : Wf t
  state : (t.block idx).state = .free
  others : ∀ i, i ≠ idx → (t.block i).state = (s.block i).state
  streams : ∀ i, (t.block i).recordStreams = (s.block i).recordStreams
  places : ∀ i, i ≠ idx → (s.block i).state ≠ .free → t.devPtr i = s.devPtr i
  pending : t.pending = s.pending
  segments : t.segments = s.segments
  occupied : ∀ k, Occupied t k → Occupied s k

theorem SameBusy.occupied (h : SameBusy s t) : ∀ k, Occupied t k → Occupied s k := by
  rintro k ⟨i, hi, howner⟩
  refine ⟨i, ?_, by rw [← h.owner, howner]⟩
  -- a block that was empty before is empty now
  exact Nat.pos_of_ne_zero (fun hzero => Nat.ne_of_gt hi (h.empty i hzero))

/-- A block that is marked free and returned to its bin; `t` may count the call besides. -/
theorem releases_coalesce (h : Wf s) (hactive : Active s.node idx)
    (ht : SameTable (s.marked idx) t) : Releases s (t.coalesceAndReturn idx) idx := by
  have hidx : idx < s.blocks.length := h.active_lt hactive
  have hplace : SamePlace (s.block idx) { s.block idx with state := .free } :=
    ⟨rfl, rfl, rfl, rfl, rfl⟩
  have hnode : t.node = s.node := ht.node.trans (node_setBlock hidx hplace)
  have hblock : ∀ i, t.block i =
      if i = idx then { s.block idx with state := .free } else s.block i := by
    intro i
    rw [ht.block]
    exact block_setBlock hidx
  have hfree : (t.block idx).state = .free := by
    rw [hblock, if_pos rfl]
  have hwft : Wf t := ht.wf (h.setBlock hidx hplace (fun hne => absurd rfl hne))
  obtain ⟨hwf, hsame⟩ := coalesceAndReturn_spec hwft (by rwa [hnode]) hfree
  constructor
  · exact hwf
  · exact (hsame.state idx).trans hfree
  · intro i hi
    rw [hsame.state, hblock, if_neg hi]
  · intro i
    rw [hsame.streams, hblock]
    split
    · next heq => rw [heq]
    · rfl
  · intro i hi hstate
    have hstill : t.block i = s.block i := by
      rw [hblock, if_neg hi]
    rw [hsame.devPtr (by rwa [hstill])]
    unfold devPtr
    rw [hstill]
  · exact hsame.pending.trans ht.pending
  · exact hsame.segments.trans ht.segments
  · intro k hocc
    obtain ⟨i, hi, howner⟩ := hsame.occupied k hocc
    rw [hnode] at hi
    exact ⟨i, hi, (congrArg Node.owner (congrFun hnode i)).symm.trans howner⟩

/-! ## Freeing -/

/-- A block that was recorded stays behind as pending, once in the list of each record. -/
structure Parks (s t : AllocatorInner) (idx : Nat) : Prop where
  blocks : t.blocks = (s.setBlock idx { s.block idx with state := .freePending }).blocks
  segments : t.segments = s.segments
  pending : t.pending = (s.block idx).recordStreams.foldl (addPending idx) s.pending

theorem free_cases (h : Wf s) (ptr : DevPtr) :
    (ptr.size = 0 ∧ s.free ptr = (s, .ok ())) ∨
    (s.findInUse ptr.addr = none ∧ ∃ e, s.free ptr = (s, .error e)) ∨
    (ptr.size ≠ 0 ∧ ∃ t idx, s.free ptr = (t, .ok ()) ∧ (s.block idx).addr = ptr.addr ∧
      (s.block idx).state = .inUse ∧
      (((s.block idx).recordStreams = [] ∧ Releases s t idx) ∨
       ((s.block idx).recordStreams ≠ [] ∧ Parks s t idx))) := by
  unfold free
  by_cases hsize : ptr.size = 0
  · exact Or.inl ⟨hsize, if_pos hsize⟩
  · rw [if_neg hsize]
    cases hfind : s.findInUse ptr.addr with
    | none => exact Or.inr (Or.inl ⟨rfl, _, rfl⟩)
    | some idx =>
      obtain ⟨haddr, hstate⟩ := findInUse_some hfind
      have hactive : Active s.node idx := h.busy idx (by rw [hstate]; decide)
      refine Or.inr (Or.inr ⟨hsize, ?_⟩)
      by_cases hstreams : (s.block idx).recordStreams = []
      · have hrel := releases_coalesce h hactive
          (sameTable_countFree (s.marked idx) (s.block idx).size)
        simp only [if_pos hstreams]
        exact ⟨_, idx, rfl, haddr, hstate, Or.inl ⟨hstreams, hrel⟩⟩
      · simp only [if_neg hstreams]
        exact ⟨_, idx, rfl, haddr, hstate, Or.inr ⟨hstreams, ⟨rfl, rfl, rfl⟩⟩⟩

end AllocatorInner
end Cuda
end Rustorch
