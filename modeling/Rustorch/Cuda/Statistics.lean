import Rustorch.Cuda.Calls
import Rustorch.Lib.Runs
import Rustorch.Lib.TableView

/-!
# The counters of the allocator

The allocator counts bytes as it goes.  What they stand for is read off its tables: the blocks that
are in use, and the segments that no trim has released.  The two agree along every run whose
allocations meet `Guard`, whatever the addresses are.

- `Tied`   : the links of a block stay in its segment, and a released segment is empty
- `Frame`  : a change that moves no live allocation and no counter
- `Booked` : the counters agree with the tables and the log of the run
-/

namespace Rustorch
namespace Cuda

open AllocatorInner TableView List Block Runs

/-- The allocation that a block stands for while it is in use. -/
def Block.live (b : Block) : Option DevPtr :=
  if b.state = .inUse then some { addr := b.addr, size := b.size } else none

theorem live_absent : absent.live = none := rfl

variable {b : Block}

theorem live_of_ne (h : b.state ≠ .inUse) : b.live = none :=
  if_neg h

theorem live_of_free (h : b.state = .free) : b.live = none :=
  live_of_ne (by rw [h]; decide)

theorem live_eq_none : b.live = none ↔ b.state ≠ .inUse := by
  unfold Block.live
  split
  · next h => simp [h]
  · next h => simp [h]

theorem live_of_state {b' : Block} (h : b.live = none) (hstate : b'.state = b.state) :
    b'.live = none := by
  apply live_of_ne
  rw [hstate]
  exact live_eq_none.1 h

namespace AllocatorInner

def livePtrs (s : AllocatorInner) : List DevPtr :=
  s.blocks.filterMap Block.live

def liveBytes (s : AllocatorInner) : Nat :=
  (s.livePtrs.map DevPtr.size).sum

def total (s : AllocatorInner) (k : Nat) : Nat :=
  match s.segments[k]? with
  | none => 0
  | some seg => seg.total

/-- The sizes of the segments that are not in `gone`. -/
def heldBytes (s : AllocatorInner) (gone : List Nat) : Nat :=
  ∑ k ∈ Finset.range s.segments.length, if k ∈ gone then 0 else s.total k

end AllocatorInner

namespace Statistics

def step (s : AllocatorInner) (call : Call) : AllocatorInner :=
  (s.answer call).1

/-- What is noted of a call: the bytes in use after it, and the segments that it trims. -/
structure Entry where
  allocated : Nat
  trimmed : List Nat
  deriving DecidableEq

def trimmedBy (s : AllocatorInner) : Call → List Nat
  | .emptyCache => (List.range s.segments.length).filter (fun k => s.segments[k]?.any s.allFree)
  | _ => []

def note (s : AllocatorInner) (call : Call) : List Entry :=
  [{ allocated := (step s call).stats.allocatedBytes, trimmed := trimmedBy s call }]

def gone (log : List Entry) : List Nat :=
  log.flatMap Entry.trimmed

structure Accounted (s : AllocatorInner) (log : List Entry) : Prop where
  allocated : s.stats.allocatedBytes = s.liveBytes
  reserved : s.stats.reservedBytes = s.heldBytes (gone log)
  peak : s.stats.peakAllocatedBytes = (log.map Entry.allocated).foldl max 0
  count : s.stats.allocCount = s.stats.cacheHits + s.stats.cacheMisses
  drains : ∀ ptrs : List DevPtr, ptrs.Perm s.livePtrs →
    (run step s (ptrs.map Call.free)).stats.allocatedBytes = 0

/-- The block in front of the queue is not in use and as large as the rounded request, and neither
sum of bytes overflows. -/
def Guard (s : AllocatorInner) : Call → Prop
  | .alloc size stream => size ≠ 0 →
      s.stats.allocatedBytes + roundUpPow2 size < u64Size ∧
      (∀ idx ∈ s.front stream (binIndex size),
        (s.block idx).state ≠ .inUse ∧ (s.block idx).size = roundUpPow2 size) ∧
      (OutOfBlocks s size stream → s.stats.reservedBytes + roundUpPow2 size < u64Size)
  | _ => True

/-- Requests that can be rounded up to a power of two. -/
def Roundable : Call → Prop
  | .alloc size _ => size ≤ 2 ^ 63
  | _ => True

end Statistics

namespace AllocatorInner

open Statistics

variable {s t u : AllocatorInner} {b : Block} {idx i k l r n p want size stream : Nat}
variable {released : List Nat}

/-! ## Links and segments -/

/-- A block of the segment `k`. -/
def Inside (s : AllocatorInner) (i k : Nat) : Prop :=
  i < s.blocks.length ∧ (s.block i).segmentId = k

/-- The links of a block stay in its segment; the segments in `released` have only empty blocks. -/
structure Tied (released : List Nat) (s : AllocatorInner) : Prop where
  owner : ∀ i, i < s.blocks.length → (s.block i).segmentId < s.segments.length
  members : ∀ (k : Nat) (seg : Segment), s.segments[k]? = some seg →
    ∀ i, i ∈ seg.blocks ↔ s.Inside i k
  inhabited : ∀ k, k < s.segments.length → ∃ i, s.Inside i k
  prev : ∀ i p, (s.block i).prev = some p → s.Inside p (s.block i).segmentId
  next : ∀ i n, (s.block i).next = some n → s.Inside n (s.block i).segmentId
  known : ∀ k ∈ released, k < s.segments.length
  empty : ∀ i, (s.block i).segmentId ∈ released → (s.block i).size = 0

theorem tied_new : Tied [] new := by
  constructor
  · exact fun i hi => absurd hi (Nat.not_lt_zero i)
  · exact fun k seg hseg => by cases hseg
  · exact fun k hk => absurd hk (Nat.not_lt_zero k)
  · exact fun i p hp => by cases hp
  · exact fun i n hn => by cases hn
  · exact fun k hk => by cases hk
  · exact fun i hi => by cases hi

theorem block_setBlock_cases (s : AllocatorInner) (idx : Nat) (b : Block) (k : Nat) :
    (s.setBlock idx b).block k = s.block k ∨ (k = idx ∧ (s.setBlock idx b).block k = b) := by
  by_cases hidx : idx < s.blocks.length
  · rw [block_setBlock hidx]
    split
    · next heq => exact Or.inr ⟨heq, rfl⟩
    · exact Or.inl rfl
  · exact Or.inl (block_congr (set_eq_of_length_le (Nat.le_of_not_lt hidx)) k)

variable {β : Type} {next : Option Nat} {q : DevPtr}

theorem field_setBlock (f : Block → β) (h : f b = f (s.block idx)) (i : Nat) :
    f ((s.setBlock idx b).block i) = f (s.block i) := by
  rcases block_setBlock_cases s idx b i with hold | ⟨rfl, hnew⟩
  · rw [hold]
  · rw [hnew, h]

theorem field_relink (f : Block → β)
    (h : ∀ (b : Block) (prev : Option Nat), f { b with prev := prev } = f b) (next : Option Nat)
    (i : Nat) : f ((s.relink next idx).block i) = f (s.block i) := by
  cases next with
  | none => rfl
  | some n => exact field_setBlock f (h (s.block n) (some idx)) i

theorem owner_setBlock (howner : b.segmentId = (s.block idx).segmentId) (i : Nat) :
    ((s.setBlock idx b).block i).segmentId = (s.block i).segmentId :=
  field_setBlock segmentId howner i

@[simp] theorem block_pushBin (i : Nat) : (s.pushBin stream n idx).block i = s.block i := rfl

theorem inside_setBlock (howner : b.segmentId = (s.block idx).segmentId) :
    (s.setBlock idx b).Inside i k ↔ s.Inside i k := by
  unfold Inside
  rw [length_setBlock, owner_setBlock howner]

section

variable (h : Tied released s)

include h

theorem Tied.setBlock (howner : b.segmentId = (s.block idx).segmentId)
    (hprev : ∀ p, b.prev = some p → s.Inside p b.segmentId)
    (hnext : ∀ n, b.next = some n → s.Inside n b.segmentId)
    (hempty : b.segmentId ∈ released → b.size = 0) : Tied released (s.setBlock idx b) := by
  have hinside := fun i k => @inside_setBlock s b idx i k howner
  constructor
  · intro i hi
    rw [owner_setBlock howner]
    exact h.owner i (by rwa [length_setBlock] at hi)
  · intro k seg hseg i
    rw [hinside]
    exact h.members k seg hseg i
  · intro k hk
    obtain ⟨i, hi⟩ := h.inhabited k hk
    exact ⟨i, (hinside i k).2 hi⟩
  · intro i p hp
    rw [hinside]
    rcases block_setBlock_cases s idx b i with hold | ⟨_, hnew⟩
    · rw [hold] at hp ⊢
      exact h.prev i p hp
    · rw [hnew] at hp ⊢
      exact hprev p hp
  · intro i n hn
    rw [hinside]
    rcases block_setBlock_cases s idx b i with hold | ⟨_, hnew⟩
    · rw [hold] at hn ⊢
      exact h.next i n hn
    · rw [hnew] at hn ⊢
      exact hnext n hn
  · exact h.known
  · intro i hi
    rcases block_setBlock_cases s idx b i with hold | ⟨_, hnew⟩
    · rw [hold] at hi ⊢
      exact h.empty i hi
    · rw [hnew] at hi ⊢
      exact hempty hi

theorem Tied.mark (hplace : SamePlace (s.block idx) b) :
    Tied released (s.setBlock idx b) := by
  apply h.setBlock hplace.segmentId
  · intro p hp
    rw [hplace.prev] at hp
    rw [hplace.segmentId]
    exact h.prev idx p hp
  · intro n hn
    rw [hplace.next] at hn
    rw [hplace.segmentId]
    exact h.next idx n hn
  · intro hin
    rw [hplace.segmentId] at hin
    rw [hplace.size]
    exact h.empty idx hin

theorem Tied.congr (hblocks : t.blocks = s.blocks) (hsegments : t.segments = s.segments) :
    Tied released t := by
  have hblock := block_congr hblocks
  have hinside : ∀ i k, t.Inside i k ↔ s.Inside i k := by
    intro i k
    unfold Inside
    rw [hblocks, hblock]
  constructor
  · simpa only [hblock, hblocks, hsegments] using h.owner
  · simpa only [hinside, hsegments] using h.members
  · simpa only [hinside, hsegments] using h.inhabited
  · simpa only [hinside, hblock] using h.prev
  · simpa only [hinside, hblock] using h.next
  · simpa only [hsegments] using h.known
  · simpa only [hblock] using h.empty

theorem Tied.relink (hin : ∀ n, next = some n → s.Inside idx (s.block n).segmentId) :
    Tied released (s.relink next idx) := by
  cases next with
  | none => exact h
  | some n =>
    refine h.setBlock ?_ ?_ (h.next n) (h.empty n)
    · rfl
    · intro p hp
      cases hp
      exact hin n rfl

/-! ## Changes that move no live allocation -/

end

/-- The counters and the live allocations stay, and so does what ties the blocks together. -/
structure Frame (s t : AllocatorInner) : Prop where
  stats : t.stats = s.stats
  live : ∀ i, (t.block i).live = (s.block i).live
  segments : t.segments.map Segment.total = s.segments.map Segment.total
  tied : ∀ released, Tied released s → Tied released t

theorem Frame.refl (s : AllocatorInner) : Frame s s :=
  ⟨rfl, fun _ => rfl, rfl, fun _ => id⟩

theorem Frame.trans (h : Frame s t) (h' : Frame t u) : Frame s u where
  stats := h'.stats.trans h.stats
  live i := (h'.live i).trans (h.live i)
  segments := h'.segments.trans h.segments
  tied released htied := h'.tied released (h.tied released htied)

theorem Frame.of_tables (hstats : t.stats = s.stats) (hblocks : t.blocks = s.blocks)
    (hsegments : t.segments = s.segments) : Frame s t where
  stats := hstats
  live i := by rw [block_congr hblocks]
  segments := by rw [hsegments]
  tied _ htied := htied.congr hblocks hsegments

theorem live_setBlock (hlive : b.live = (s.block idx).live) (i : Nat) :
    ((s.setBlock idx b).block i).live = (s.block i).live :=
  field_setBlock Block.live hlive i

theorem frame_mark (hplace : SamePlace (s.block idx) b) (hlive : b.live = (s.block idx).live) :
    Frame s (s.setBlock idx b) :=
  ⟨rfl, live_setBlock hlive, rfl, fun _ htied => htied.mark hplace⟩

@[simp] theorem stats_relink {next : Option Nat} : (s.relink next idx).stats = s.stats := by
  cases next with
  | none => rfl
  | some n => rfl

@[simp] theorem stats_unbin : (s.unbin idx).stats = s.stats := by
  unfold unbin
  split
  · rfl
  · split
    · rfl
    · rfl

theorem live_relink (i : Nat) : ((s.relink next idx).block i).live = (s.block i).live :=
  field_relink Block.live (fun _ _ => rfl) next i

theorem lt_of_next (h : (s.block i).next = some n) : i < s.blocks.length := by
  by_contra hle
  rw [block_of_le (Nat.le_of_not_lt hle)] at h
  cases h

theorem Tied.linked (h : Tied released s)
    (hlink : (s.block r).prev = some l ∨ (s.block l).next = some r) :
    s.Inside l (s.block r).segmentId := by
  rcases hlink with hprev | hnext
  · exact h.prev r l hprev
  · exact ⟨lt_of_next hnext, (h.next l r hnext).2.symm⟩

theorem Tied.absorb (h : Tied released s)
    (hlink : (s.block r).prev = some l ∨ (s.block l).next = some r) :
    Tied released (s.absorb l r) := by
  obtain ⟨hl, howner⟩ := h.linked hlink
  let b : Block := s.grown l r
  have hsame : b.segmentId = (s.block l).segmentId := rfl
  have hgrown : Tied released (s.setBlock l b) := by
    apply h.setBlock hsame
    · exact h.prev l
    · intro n hn
      rw [hsame, howner]
      exact h.next r n hn
    · intro hin
      -- both sides of a released segment are empty
      change ((s.block l).size + (s.block r).size) % u64Size = 0
      rw [h.empty l hin, h.empty r (howner ▸ hin)]
      rfl
  have hlinked : Tied released ((s.setBlock l b).relink (s.block r).next l) := by
    apply hgrown.relink
    intro n hn
    rw [inside_setBlock hsame, owner_setBlock hsame, (h.next r n hn).2]
    exact ⟨hl, howner⟩
  have hunbinned := hlinked.congr (@blocks_unbin _ r) (@segments_unbin _ r)
  exact hunbinned.setBlock rfl (hunbinned.prev r) (hunbinned.next r) (fun _ => rfl)

theorem frame_absorb (hl : (s.block l).live = none) (hr : (s.block r).live = none)
    (hlink : (s.block r).prev = some l ∨ (s.block l).next = some r) :
    Frame s (s.absorb l r) := by
  let b : Block := s.grown l r
  let t := ((s.setBlock l b).relink (s.block r).next l).unbin r
  have hstate : b.live = (s.block l).live := by
    rw [hl]
    exact live_of_state hl rfl
  have hlive : ∀ i, (t.block i).live = (s.block i).live := by
    intro i
    rw [block_congr blocks_unbin, live_relink, live_setBlock hstate]
  have hempty : Block.live { t.block r with size := 0 } = (t.block r).live := by
    rw [hlive, hr]
    exact live_of_state ((hlive r).trans hr) rfl
  constructor
  · change (((s.setBlock l b).relink (s.block r).next l).unbin r).stats = s.stats
    rw [stats_unbin, stats_relink]
    rfl
  · intro i
    exact (live_setBlock hempty i).trans (hlive i)
  · rw [segments_absorb]
  · exact fun _ htied => htied.absorb hlink

/-! ## Coalescing -/

theorem mergePrev_frame {fuel cur : Nat} : (s.block cur).live = none → ∀ t c,
    mergePrev fuel s cur = (t, c) → Frame s t ∧ (t.block c).live = none := by
  induction fuel generalizing s cur with
  | zero =>
    intro hcur t c heq
    cases heq
    exact ⟨Frame.refl s, hcur⟩
  | succ fuel ih =>
    intro hcur t c heq
    unfold mergePrev at heq
    split at heq
    · cases heq
      exact ⟨Frame.refl s, hcur⟩
    · next p hp =>
        split at heq
        · next hfree =>
            have hplive := live_of_free hfree
            have hframe := frame_absorb hplive hcur (Or.inl hp)
            obtain ⟨hrest, hc⟩ := ih ((hframe.live p).trans hplive) t c heq
            exact ⟨hframe.trans hrest, hc⟩
        · cases heq
          exact ⟨Frame.refl s, hcur⟩

theorem mergeNext_frame {fuel cur : Nat} : (s.block cur).live = none →
    Frame s (mergeNext fuel s cur) := by
  induction fuel generalizing s with
  | zero => exact fun _ => Frame.refl s
  | succ fuel ih =>
    intro hcur
    unfold mergeNext
    split
    · exact Frame.refl s
    · next n hn =>
        split
        · next hfree =>
            have hframe := frame_absorb hcur (live_of_free hfree) (Or.inr hn)
            exact hframe.trans (ih ((hframe.live cur).trans hcur))
        · exact Frame.refl s

theorem frame_pushBin : Frame s (s.pushBin stream n idx) :=
  Frame.of_tables rfl rfl rfl

theorem frame_coalesce (hidx : (s.block idx).live = none) : Frame s (s.coalesceAndReturn idx) := by
  cases hprev : mergePrev s.blocks.length s idx with
  | mk t c =>
    obtain ⟨hst, hc⟩ := mergePrev_frame hidx t c hprev
    unfold coalesceAndReturn
    simp only [hprev]
    exact (hst.trans (mergeNext_frame hc)).trans frame_pushBin

/-! ## Cutting -/

/-- The right part of a block is there, but the block itself is not cut yet. -/
def withRemainder (s : AllocatorInner) (idx want : Nat) : AllocatorInner :=
  { s with
    blocks := s.blocks ++ [remainder (s.block idx) idx want]
    segments := s.segments.modify (s.block idx).segmentId
      (fun seg => { seg with blocks := seg.blocks ++ [s.blocks.length] }) }

theorem cut_eq : ∃ stream bin, s.cut idx want =
    (((s.withRemainder idx want).setBlock idx
      { s.block idx with size := want, next := some s.blocks.length }).relink
        (s.block idx).next s.blocks.length).pushBin stream bin s.blocks.length := by
  unfold cut
  simp only
  cases (s.block idx).next with
  | none => exact ⟨_, _, rfl⟩
  | some n => exact ⟨_, _, rfl⟩

theorem block_withRemainder : (s.withRemainder idx want).block k =
    if k = s.blocks.length then remainder (s.block idx) idx want else s.block k :=
  block_append rfl

/-- The new block is in the segment of the cut one, the others stay where they are. -/
theorem inside_withRemainder : (s.withRemainder idx want).Inside i k ↔
    s.Inside i k ∨ (i = s.blocks.length ∧ (s.block idx).segmentId = k) := by
  have hlength : (s.withRemainder idx want).blocks.length = s.blocks.length + 1 :=
    length_append
  unfold Inside
  rw [hlength, block_withRemainder]
  by_cases hi : i = s.blocks.length
  · simp [hi, remainder]
  · have hlt : i < s.blocks.length + 1 ↔ i < s.blocks.length := by omega
    simp [hi, hlt]

theorem Tied.withRemainder (h : Tied released s) (hlt : want < (s.block idx).size) :
    Tied released (s.withRemainder idx want) := by
  have hidx : idx < s.blocks.length := lt_of_size (Nat.zero_lt_of_lt hlt)
  have hsegments : (s.withRemainder idx want).segments.length = s.segments.length :=
    length_modify ..
  have hold : ∀ i k, s.Inside i k → (s.withRemainder idx want).Inside i k :=
    fun i k hi => inside_withRemainder.2 (Or.inl hi)
  have hown : s.Inside idx (s.block idx).segmentId := ⟨hidx, rfl⟩
  constructor
  · intro i hi
    rw [hsegments]
    rcases inside_withRemainder.1 ⟨hi, rfl⟩ with ⟨hi, howner⟩ | ⟨_, howner⟩
    · rw [← howner]
      exact h.owner i hi
    · rw [← howner]
      exact h.owner idx hidx
  · intro k seg hseg i
    change (s.segments.modify _ _)[k]? = some seg at hseg
    rw [getElem?_modify, Option.map_eq_map, Option.map_eq_some_iff] at hseg
    obtain ⟨old, hseg, rfl⟩ := hseg
    have hmem := h.members k old hseg i
    rw [inside_withRemainder]
    -- the segment of the cut block gets the new one
    by_cases hk : (s.block idx).segmentId = k
    · simp [hk, hmem]
    · simp [hk, hmem]
  · intro k hk
    obtain ⟨i, hi⟩ := h.inhabited k (by rwa [hsegments] at hk)
    exact ⟨i, hold i k hi⟩
  · intro i p hp
    rw [block_withRemainder] at hp ⊢
    split at hp
    · next hi =>
        cases hp
        rw [if_pos hi]
        exact hold idx _ hown
    · next hi =>
        rw [if_neg hi]
        exact hold p _ (h.prev i p hp)
  · intro i n hn
    rw [block_withRemainder] at hn ⊢
    split at hn
    · next hi =>
        rw [if_pos hi]
        exact hold n _ (h.next idx n hn)
    · next hi =>
        rw [if_neg hi]
        exact hold n _ (h.next i n hn)
  · intro k hk
    rw [hsegments]
    exact h.known k hk
  · intro i hi
    rw [block_withRemainder] at hi ⊢
    split at hi
    · -- a block that is cut is not empty
      have hzero := h.empty idx hi
      omega
    · next hne =>
        rw [if_neg hne]
        exact h.empty i hi

theorem Tied.cut (h : Tied released s) (hlt : want < (s.block idx).size) :
    Tied released (s.cut idx want) := by
  have hidx : idx < s.blocks.length := lt_of_size (Nat.zero_lt_of_lt hlt)
  have hgrown := h.withRemainder hlt
  have hblock : (s.withRemainder idx want).block idx = s.block idx := by
    rw [block_withRemainder, if_neg (Nat.ne_of_lt hidx)]
  have hold : ∀ i k, s.Inside i k → (s.withRemainder idx want).Inside i k :=
    fun i k hi => inside_withRemainder.2 (Or.inl hi)
  have hnew : (s.withRemainder idx want).Inside s.blocks.length (s.block idx).segmentId :=
    inside_withRemainder.2 (Or.inr ⟨rfl, rfl⟩)
  let b : Block := { s.block idx with size := want, next := some s.blocks.length }
  have hsame : b.segmentId = ((s.withRemainder idx want).block idx).segmentId := by
    rw [hblock]
  have hcut : Tied released ((s.withRemainder idx want).setBlock idx b) := by
    apply hgrown.setBlock hsame
    · intro p hp
      exact hold p _ (h.prev idx p hp)
    · intro n hn
      cases hn
      exact hnew
    · intro hin
      have hzero := h.empty idx hin
      omega
  obtain ⟨stream, bin, heq⟩ := @cut_eq s idx want
  rw [heq]
  refine Tied.congr (hcut.relink ?_) rfl rfl
  intro n hn
  obtain ⟨hlen, howner⟩ := h.next idx n hn
  rw [inside_setBlock hsame, owner_setBlock hsame, block_withRemainder,
    if_neg (Nat.ne_of_lt hlen), howner]
  exact hnew

theorem stats_cut : (s.cut idx want).stats = s.stats := by
  obtain ⟨stream, bin, heq⟩ := @cut_eq s idx want
  change (relink _ _ _).stats = _
  rw [stats_relink]
  rfl

theorem frame_cut (hfree : (s.block idx).state = .free) (hlt : want < (s.block idx).size) :
    Frame s (s.cut idx want) := by
  have hidx : idx < s.blocks.length := lt_of_size (Nat.zero_lt_of_lt hlt)
  have hnone := live_of_free hfree
  constructor
  · exact stats_cut
  · intro i
    obtain ⟨stream, bin, heq⟩ := @cut_eq s idx want
    have hblock : (s.withRemainder idx want).block idx = s.block idx := by
      rw [block_withRemainder, if_neg (Nat.ne_of_lt hidx)]
    rw [heq, block_pushBin, live_relink, live_setBlock]
    · rw [block_withRemainder]
      split
      · next hi =>
          -- there was no block at this index, and the new one is free
          rw [hi, block_of_le (le_refl _)]
          rfl
      · rfl
    · rw [hblock, hnone]
      exact live_of_state hnone rfl
  · rw [segments_cut]
    apply ext_getElem?
    intro k
    rw [getElem?_map, getElem?_map, getElem?_modify]
    cases s.segments[k]? with
    | none => rfl
    | some seg =>
      by_cases hk : (s.block idx).segmentId = k
      · simp [hk]
      · simp [hk]
  · exact fun _ htied => htied.cut hlt

theorem size_cut (hidx : idx < s.blocks.length) : ((s.cut idx want).block idx).size = want := by
  obtain ⟨stream, bin, heq⟩ := @cut_eq s idx want
  have hlen : idx < (s.withRemainder idx want).blocks.length := by
    change idx < (s.blocks ++ [_]).length
    rw [length_append]
    omega
  rw [heq, block_pushBin, field_relink size (fun _ _ => rfl), block_setBlock hlen, if_pos rfl]

/-! ## Reading the live allocations -/

theorem mem_livePtrs : q ∈ s.livePtrs ↔ ∃ i, (s.block i).state = .inUse ∧ s.devPtr i = q := by
  unfold livePtrs
  rw [mem_view live_absent]
  apply exists_congr
  intro i
  change (s.block i).live = some q ↔ _
  unfold Block.live
  split
  · next h => simp [h, AllocatorInner.devPtr]
  · next h => simp [h]

theorem livePtrs_congr (h : ∀ i, (t.block i).live = (s.block i).live) :
    t.livePtrs = s.livePtrs :=
  view_congr live_absent h

theorem liveBytes_of_perm (h : t.livePtrs.Perm (q :: s.livePtrs)) :
    t.liveBytes = s.liveBytes + q.size := by
  unfold liveBytes
  rw [(h.map DevPtr.size).sum_eq, map_cons, sum_cons, Nat.add_comm]

theorem livePtrs_gain (hothers : ∀ i, i ≠ idx → (t.block i).live = (s.block i).live)
    (hold : (s.block idx).live = none) (hnew : (t.block idx).state = .inUse) :
    t.livePtrs.Perm (t.devPtr idx :: s.livePtrs) :=
  view_gain live_absent hothers hold (if_pos hnew)

theorem heldBytes_congr (h : t.segments.map Segment.total = s.segments.map Segment.total)
    (released : List Nat) : t.heldBytes released = s.heldBytes released := by
  have hlength : t.segments.length = s.segments.length := by
    simpa using congrArg length h
  have htotal : ∀ k, t.total k = s.total k := by
    intro k
    have hk := congrArg (fun totals : List Nat => totals[k]?) h
    unfold total
    cases ht : t.segments[k]? with
    | none =>
      cases hs : s.segments[k]? with
      | none => rfl
      | some seg => simp [ht, hs] at hk
    | some seg =>
      cases hs : s.segments[k]? with
      | none => simp [ht, hs] at hk
      | some seg' => simpa [ht, hs] using hk
  unfold heldBytes
  rw [hlength]
  simp only [htotal]

/-! ## Taking a block into use -/

/-- What using a block adds to the bytes in use. -/
def gain (s : AllocatorInner) (idx : Nat) : Nat :=
  if (s.block idx).state = .inUse then 0 else (s.block idx).size

theorem tied_use (h : Tied released s) : Tied released (s.use idx) :=
  h.mark ⟨rfl, rfl, rfl, rfl, rfl⟩

theorem livePtrs_use (hidx : idx < s.blocks.length) (hstate : (s.block idx).state ≠ .inUse) :
    (s.use idx).livePtrs.Perm (s.devPtr idx :: s.livePtrs) := by
  have hblock : ∀ i, (s.use idx).block i =
      if i = idx then { s.block idx with state := .inUse, recordStreams := [] } else s.block i :=
    fun i => block_setBlock hidx
  have hgain := @livePtrs_gain s (s.use idx) idx
    (fun i hi => by rw [hblock, if_neg hi]) (live_of_ne hstate) (by rw [hblock, if_pos rfl])
  rwa [devPtr_use hidx] at hgain

theorem liveBytes_use : (s.use idx).liveBytes = s.liveBytes + s.gain idx := by
  unfold gain
  split
  · next hstate =>
      -- a block in use is not counted again
      have hlive : ∀ i, ((s.use idx).block i).live = (s.block i).live := by
        apply live_setBlock
        unfold Block.live
        rw [if_pos hstate, if_pos rfl]
      unfold liveBytes
      rw [livePtrs_congr hlive, Nat.add_zero]
  · next hstate =>
      by_cases hidx : idx < s.blocks.length
      · exact liveBytes_of_perm (livePtrs_use hidx hstate)
      · have hle := Nat.le_of_not_lt hidx
        have hsame : (s.use idx).livePtrs = s.livePtrs :=
          congrArg (filterMap Block.live) (set_eq_of_length_le hle)
        unfold liveBytes
        rw [hsame, block_of_le hle]
        rfl

theorem pos_use (hpos : ∀ q ∈ s.livePtrs, 0 < q.size) (hgain : 0 < s.gain idx) :
    ∀ q ∈ (s.use idx).livePtrs, 0 < q.size := by
  unfold gain at hgain
  split at hgain
  · exact absurd hgain (Nat.lt_irrefl 0)
  · next hstate =>
      intro q hq
      have hperm := livePtrs_use (lt_of_size hgain) hstate
      rcases mem_cons.1 (hperm.mem_iff.1 hq) with rfl | hq
      · exact hgain
      · exact hpos q hq

theorem split_use (hfree : (s.block idx).state = .free) (hle : want ≤ (s.block idx).size) :
    ∃ t, Frame s t ∧ s.splitAndUse idx want = t.use idx ∧ t.gain idx = want := by
  unfold splitAndUse
  split
  · next hlt =>
      have hframe := frame_cut hfree hlt
      refine ⟨_, hframe, rfl, ?_⟩
      have hstate : ((s.cut idx want).block idx).state ≠ .inUse := by
        rw [← live_eq_none, hframe.live, live_of_free hfree]
      unfold gain
      rw [if_neg hstate, size_cut (lt_of_size (Nat.zero_lt_of_lt hlt))]
  · next hge =>
      refine ⟨s, Frame.refl s, rfl, ?_⟩
      unfold gain
      rw [hfree, if_neg (by decide)]
      omega

/-! ## A fresh segment -/

theorem livePtrs_withSegment : (s.withSegment size stream).livePtrs =
    s.livePtrs ++ [{ addr := s.freshAddr size, size := size }] :=
  filterMap_append

theorem inside_withSegment : (s.withSegment size stream).Inside i k ↔
    s.Inside i k ∨ (i = s.blocks.length ∧ s.segments.length = k) := by
  have hlength : (s.withSegment size stream).blocks.length = s.blocks.length + 1 :=
    length_append
  unfold Inside
  rw [hlength, block_withSegment]
  by_cases hi : i = s.blocks.length
  · simp [hi]
  · have hlt : i < s.blocks.length + 1 ↔ i < s.blocks.length := by omega
    simp [hi, hlt]

theorem Tied.not_inside_length (h : Tied released s) : ¬ s.Inside i s.segments.length := by
  rintro ⟨hi, howner⟩
  exact Nat.ne_of_lt (h.owner i hi) howner

theorem Tied.withSegment (h : Tied released s) :
    Tied released (s.withSegment size stream) := by
  have hlength : (s.withSegment size stream).segments.length = s.segments.length + 1 :=
    length_append
  have hold : ∀ i k, s.Inside i k → (s.withSegment size stream).Inside i k :=
    fun i k hi => inside_withSegment.2 (Or.inl hi)
  constructor
  · intro i hi
    rw [hlength]
    rcases (inside_withSegment (s := s)).1 ⟨hi, rfl⟩ with ⟨hi, howner⟩ | ⟨_, howner⟩
    · rw [← howner]
      exact Nat.lt_succ_of_lt (h.owner i hi)
    · omega
  · intro k seg hseg i
    rw [inside_withSegment]
    rcases getElem?_withSegment hseg with ⟨hk, hseg⟩ | ⟨rfl, rfl⟩
    · rw [h.members k seg hseg]
      -- the one new block lies in the new segment, so the old ones keep their members
      have hne : s.segments.length ≠ k := by omega
      simp [hne]
    · simp [h.not_inside_length]
  · intro k hk
    by_cases hnew : k = s.segments.length
    · exact ⟨s.blocks.length, inside_withSegment.2 (Or.inr ⟨rfl, hnew.symm⟩)⟩
    · obtain ⟨i, hi⟩ := h.inhabited k (by omega)
      exact ⟨i, hold i k hi⟩
  · intro i p hp
    rw [block_withSegment] at hp ⊢
    split at hp
    · cases hp
    · next hi =>
        rw [if_neg hi]
        exact hold p _ (h.prev i p hp)
  · intro i n hn
    rw [block_withSegment] at hn ⊢
    split at hn
    · cases hn
    · next hi =>
        rw [if_neg hi]
        exact hold n _ (h.next i n hn)
  · intro k hk
    rw [hlength]
    exact Nat.lt_succ_of_lt (h.known k hk)
  · intro i hi
    rw [block_withSegment] at hi ⊢
    split at hi
    · -- the new segment has not been released
      exact absurd (h.known _ hi) (Nat.lt_irrefl _)
    · next hne =>
        rw [if_neg hne]
        exact h.empty i hi

theorem heldBytes_withSegment (hknown : ∀ k ∈ released, k < s.segments.length) :
    (s.withSegment size stream).heldBytes released = s.heldBytes released + size := by
  have hlength : (s.withSegment size stream).segments.length = s.segments.length + 1 :=
    length_append
  have hnew : s.segments.length ∉ released := fun hin => Nat.lt_irrefl _ (hknown _ hin)
  have htotal : (s.withSegment size stream).total s.segments.length = size := by
    change (match (s.segments ++ [_])[s.segments.length]? with | none => _ | some seg => _) = _
    simp
  have hold : ∀ k, k < s.segments.length →
      (s.withSegment size stream).total k = s.total k := by
    intro k hk
    unfold total
    change (match (s.segments ++ [_])[k]? with | none => _ | some seg => _) = _
    rw [getElem?_append_left hk]
  unfold heldBytes
  rw [hlength, Finset.sum_range_succ, if_neg hnew, htotal]
  congr 1
  apply Finset.sum_congr rfl
  intro k hk
  rw [hold k (Finset.mem_range.1 hk)]

/-! ## Allocating -/

/-- What an allocation adds to the bytes in use. -/
def gained (s : AllocatorInner) (size stream : Nat) : Nat :=
  match s.front stream (binIndex size) with
  | some idx => s.gain idx
  | none => roundUpPow2 size

/-- What an allocation adds to the bytes that are reserved. -/
def acquired (s : AllocatorInner) (size stream : Nat) : Nat :=
  if OutOfBlocks s size stream then roundUpPow2 size else 0

/-- The tables gain a live allocation of `gained` bytes and a segment of `acquired` bytes. -/
structure Grows (s t : AllocatorInner) (gained acquired : Nat) : Prop where
  live : t.liveBytes = s.liveBytes + gained
  pos : 0 < gained → (∀ q ∈ s.livePtrs, 0 < q.size) → ∀ q ∈ t.livePtrs, 0 < q.size
  held : ∀ released, Tied released s → t.heldBytes released = s.heldBytes released + acquired
  tied : ∀ released, Tied released s → Tied released t

theorem Frame.grows {x y : Nat} (h : Frame s t) (hg : Grows t u x y) : Grows s u x y where
  live := by
    rw [hg.live]
    unfold liveBytes
    rw [livePtrs_congr h.live]
  pos hx hpos := hg.pos hx (by rwa [livePtrs_congr h.live])
  held released htied := by
    rw [hg.held released (h.tied released htied), heldBytes_congr h.segments]
  tied released htied := hg.tied released (h.tied released htied)

theorem grows_use : Grows s (s.use idx) (s.gain idx) 0 where
  live := liveBytes_use
  pos hgain hpos := pos_use hpos hgain
  held _ _ := rfl
  tied _ htied := tied_use htied

theorem grows_withSegment : Grows s (s.withSegment size stream) size size where
  live := by
    unfold liveBytes
    rw [livePtrs_withSegment, map_append, sum_append]
    rfl
  pos hsize hpos q hq := by
    rw [livePtrs_withSegment] at hq
    rcases mem_append.1 hq with hq | hq
    · exact hpos q hq
    · cases mem_singleton.1 hq
      exact hsize
  held _ htied := heldBytes_withSegment htied.known
  tied _ htied := htied.withSegment

/-- The counters may change besides. -/
theorem Grows.of_tables {x y : Nat} (h : Grows s t x y) (hblocks : u.blocks = t.blocks)
    (hsegments : u.segments = t.segments) : Grows s u x y where
  live := by
    rw [← h.live]
    unfold liveBytes livePtrs
    rw [hblocks]
  pos hx hpos := by
    unfold livePtrs
    rw [hblocks]
    exact h.pos hx hpos
  held released htied := by
    rw [← h.held released htied]
    exact heldBytes_congr (by rw [hsegments]) released
  tied released htied := (h.tied released htied).congr hblocks hsegments

theorem alloc_cases (hzero : size ≠ 0) :
    (∃ t idx, Frame s t ∧ t.gain idx = s.gained size stream ∧ s.acquired size stream = 0 ∧
      step s (.alloc size stream) = ((t.use idx).countAlloc (roundUpPow2 size)).countHit) ∨
    (∃ t, Frame s t ∧ s.gained size stream = roundUpPow2 size ∧
      s.acquired size stream = roundUpPow2 size ∧
      step s (.alloc size stream) =
        ((t.withSegment (roundUpPow2 size) stream).countAlloc (roundUpPow2 size)).countMiss) := by
  have hens : Frame s (s.ensureBins stream (binIndex size)) := Frame.of_tables rfl rfl rfl
  have hstep : step s (.alloc size stream) = (s.alloc size stream).1 := rfl
  cases hfront : s.front stream (binIndex size) with
  | some idx =>
    -- a queue of the stream has a block
    have hpop : Frame s ((s.ensureBins stream (binIndex size)).popFront stream
        (binIndex size)) := hens.trans (Frame.of_tables rfl rfl rfl)
    refine Or.inl ⟨_, idx, hpop, ?_, ?_, ?_⟩
    · unfold gained
      rw [hfront]
      rfl
    · exact if_neg (fun hout => by simp [hout.1] at hfront)
    · rw [hstep]
      unfold alloc
      simp only [if_neg hzero, front_ensureBins, hfront]
  | none =>
    have hgained : s.gained size stream = roundUpPow2 size := by
      unfold gained
      rw [hfront]
    cases hsplit : s.findSplittable stream (roundUpPow2 size) with
    | some idx =>
      -- a larger free block is cut
      obtain ⟨hfree, hfit⟩ := findSplittable_spec hsplit
      obtain ⟨t, hframe, heq, hgain⟩ :=
        @split_use (s.ensureBins stream (binIndex size)) idx (roundUpPow2 size) hfree hfit
      refine Or.inl ⟨t, idx, hens.trans hframe, hgain.trans hgained.symm, ?_, ?_⟩
      · exact if_neg (fun hout => by simp [hout.2] at hsplit)
      · rw [hstep, ← heq]
        unfold alloc
        simp only [if_neg hzero, front_ensureBins, hfront, findSplittable_ensureBins, hsplit]
    | none =>
      refine Or.inr ⟨_, hens, hgained, if_pos ⟨hfront, hsplit⟩, ?_⟩
      rw [hstep]
      unfold alloc
      simp only [if_neg hzero, front_ensureBins, hfront, findSplittable_ensureBins, hsplit]
      rfl

theorem alloc_grows (hzero : size ≠ 0) : Grows s (step s (.alloc size stream))
    (s.gained size stream) (s.acquired size stream) := by
  rcases @alloc_cases s size stream hzero with
    ⟨t, idx, hframe, hgained, hacquired, heq⟩ | ⟨t, hframe, hgained, hacquired, heq⟩
  · rw [heq, ← hgained, hacquired]
    exact hframe.grows (grows_use.of_tables rfl rfl)
  · rw [heq, hgained, hacquired]
    exact hframe.grows (grows_withSegment.of_tables rfl rfl)

/-- What an allocation of `rounded` bytes does to the counters. -/
structure Counted (a b : AllocatorStats) (rounded acquired : Nat) : Prop where
  allocated : b.allocatedBytes = (a.allocatedBytes + rounded) % u64Size
  reserved : a.reservedBytes < u64Size →
    b.reservedBytes = (a.reservedBytes + acquired) % u64Size
  peak : b.peakAllocatedBytes = max a.peakAllocatedBytes b.allocatedBytes
  count : b.allocCount = a.allocCount + 1
  served : b.cacheHits + b.cacheMisses = a.cacheHits + a.cacheMisses + 1

theorem alloc_counted (hzero : size ≠ 0) :
    Counted s.stats (step s (.alloc size stream)).stats (roundUpPow2 size)
      (s.acquired size stream) := by
  rcases @alloc_cases s size stream hzero with
    ⟨t, idx, hframe, _, hacquired, heq⟩ | ⟨t, hframe, _, hacquired, heq⟩
  · rw [heq, hacquired, ← hframe.stats]
    refine ⟨rfl, ?_, rfl, rfl, ?_⟩
    · intro hlt
      rw [Nat.add_zero, Nat.mod_eq_of_lt hlt]
      rfl
    · change t.stats.cacheHits + 1 + t.stats.cacheMisses = _
      omega
  · rw [heq, hacquired, ← hframe.stats]
    exact ⟨rfl, fun _ => rfl, rfl, rfl, rfl⟩

/-! ## Giving an allocation back -/

/-- A live allocation leaves the tables and the bytes in use. -/
structure Returns (s t : AllocatorInner) (q : DevPtr) : Prop where
  live : s.livePtrs.Perm (q :: t.livePtrs)
  stats : t.stats = { s.stats with
    allocatedBytes := s.stats.allocatedBytes - q.size, freeCount := s.stats.freeCount + 1 }
  segments : t.segments.map Segment.total = s.segments.map Segment.total
  tied : ∀ released, Tied released s → Tied released t

theorem returns_mark {state : BlockState} (hstate : (s.block idx).state = .inUse)
    (hnew : state ≠ .inUse) :
    Returns s ((s.setBlock idx { s.block idx with state := state }).countFree (s.block idx).size)
      (s.devPtr idx) := by
  have hidx : idx < s.blocks.length := lt_of_state (by rw [hstate]; decide)
  let b : Block := { s.block idx with state := state }
  have hblock : ∀ i, (s.setBlock idx b).block i = if i = idx then b else s.block i :=
    fun i => block_setBlock hidx
  constructor
  · refine view_lose live_absent ?_ (if_pos hstate) ?_
    · intro i hi
      exact congrArg Block.live ((hblock i).trans (if_neg hi))
    · exact (congrArg Block.live ((hblock idx).trans (if_pos rfl))).trans (live_of_ne hnew)
  · rfl
  · rfl
  · intro released htied
    have hmark : Tied released (s.setBlock idx b) := htied.mark ⟨rfl, rfl, rfl, rfl, rfl⟩
    exact hmark.congr rfl rfl

theorem Returns.frame (h : Returns s t q) (hframe : Frame t u) : Returns s u q where
  live := by
    rw [livePtrs_congr hframe.live]
    exact h.live
  stats := hframe.stats.trans h.stats
  segments := hframe.segments.trans h.segments
  tied released htied := hframe.tied released (h.tied released htied)

theorem free_returns (ptr : DevPtr) :
    (step s (.free ptr) = s ∧ (ptr.size = 0 ∨ ∀ q ∈ s.livePtrs, q.addr ≠ ptr.addr)) ∨
    (ptr.size ≠ 0 ∧ ∃ q, q.addr = ptr.addr ∧ Returns s (step s (.free ptr)) q) := by
  have hstep : step s (.free ptr) = (s.free ptr).1 := rfl
  rw [hstep]
  unfold free
  by_cases hsize : ptr.size = 0
  · rw [if_pos hsize]
    exact Or.inl ⟨rfl, Or.inl hsize⟩
  · rw [if_neg hsize]
    cases hfind : s.findInUse ptr.addr with
    | none =>
      refine Or.inl ⟨rfl, Or.inr ?_⟩
      intro q hq
      obtain ⟨i, hstate, rfl⟩ := mem_livePtrs.1 hq
      exact findInUse_none hfind i hstate
    | some idx =>
      obtain ⟨haddr, hstate⟩ := findInUse_some hfind
      have hidx : idx < s.blocks.length := lt_of_state (by rw [hstate]; decide)
      refine Or.inr ⟨hsize, s.devPtr idx, haddr, ?_⟩
      by_cases hstreams : (s.block idx).recordStreams = []
      · simp only [if_pos hstreams]
        refine (returns_mark hstate (by decide)).frame (frame_coalesce ?_)
        apply live_of_free
        change ((s.setBlock idx _).block idx).state = _
        rw [block_setBlock hidx, if_pos rfl]
      · simp only [if_neg hstreams]
        exact (returns_mark hstate (by decide)).frame (Frame.of_tables rfl rfl rfl)

/-! ## Recording and synchronizing -/

theorem recordStream_frame (ptr : DevPtr) (stream : Nat) :
    Frame s (step s (.recordStream ptr stream)) := by
  change Frame s (s.recordStream ptr stream).1
  unfold recordStream
  cases s.findInUse ptr.addr with
  | none => exact Frame.refl s
  | some idx =>
    refine frame_mark ⟨rfl, rfl, rfl, rfl, rfl⟩ ?_
    rfl

theorem drainOne_frame (stream : Nat) (acc : AllocatorInner × Nat) (idx : Nat) :
    Frame acc.1 (drainOne stream acc idx).1 := by
  let b : Block := { acc.1.block idx with
    recordStreams := (acc.1.block idx).recordStreams.erase stream }
  have hmark : Frame acc.1 (acc.1.setBlock idx b) := frame_mark ⟨rfl, rfl, rfl, rfl, rfl⟩ rfl
  unfold drainOne
  simp only
  split
  · next hlast =>
      have hnone : ((acc.1.setBlock idx b).block idx).live = none :=
        live_of_ne (by rw [hlast.2]; decide)
      have hfree : Frame (acc.1.setBlock idx b) ((acc.1.setBlock idx b).setBlock idx
          { (acc.1.setBlock idx b).block idx with state := .free }) :=
        frame_mark ⟨rfl, rfl, rfl, rfl, rfl⟩ ((live_of_free rfl).trans hnone.symm)
      exact (hmark.trans hfree).trans (frame_coalesce ((hfree.live idx).trans hnone))
  · exact hmark

theorem synchronizeStream_frame (stream : Nat) :
    Frame s (step s (.synchronizeStream stream)) := by
  have hdrain : ∀ (drained : List Nat) (acc : AllocatorInner × Nat),
      Frame acc.1 (drained.foldl (drainOne stream) acc).1 := by
    intro drained
    induction drained with
    | nil => exact fun acc => Frame.refl acc.1
    | cons idx drained ih =>
      intro acc
      exact (drainOne_frame stream acc idx).trans (ih _)
  have htake : Frame s { s with pending := Function.update s.pending stream [] } :=
    Frame.of_tables rfl rfl rfl
  exact htake.trans (hdrain (s.pending stream) (_, 0))

/-! ## Trimming -/

theorem mem_trimmedBy : k ∈ trimmedBy s .emptyCache ↔ s.Trimmed k := by
  unfold trimmedBy Trimmed
  rw [mem_filter, mem_range]
  constructor
  · rintro ⟨_, hany⟩
    exact Option.any_eq_true _ _ |>.1 hany
  · rintro ⟨seg, hseg, hfree⟩
    refine ⟨(List.getElem?_eq_some_iff.1 hseg).1, ?_⟩
    rw [hseg]
    exact hfree

/-- A segment that was released is not trimmed again: it has a block, and that one is empty. -/
theorem Tied.not_trimmed (h : Tied released s) (hk : k ∈ released) : ¬ s.Trimmed k := by
  rintro ⟨seg, hseg, hfree⟩
  obtain ⟨i, hi⟩ := h.inhabited k (h.known k hk)
  have hall := all_eq_true.1 hfree i ((h.members k seg hseg i).2 hi)
  have hzero := h.empty i (hi.2 ▸ hk)
  have hpos := (of_decide_eq_true hall).2
  omega

theorem field_trim (f : Block → β) (h : ∀ i, i ∈ s.trimmedBlocks →
      f { s.block i with state := .free, size := 0 } = f (s.block i)) (i : Nat) :
    f (s.trimFreeSegments.block i) = f (s.block i) := by
  rw [block_trim]
  split
  · next hi => exact h i hi
  · rfl

theorem live_trim (i : Nat) : (s.trimFreeSegments.block i).live = (s.block i).live := by
  apply field_trim Block.live
  intro i hi
  rw [live_of_free (state_of_trimmed hi)]
  exact live_of_free rfl

theorem Tied.trim (h : Tied released s) :
    Tied (released ++ trimmedBy s .emptyCache) s.trimFreeSegments := by
  obtain ⟨hlength, hsegments, _⟩ := foldl_drop_frame s.trimmedBlocks s
  have hlen : s.trimFreeSegments.blocks.length = s.blocks.length := hlength
  have hseg : s.trimFreeSegments.segments = s.segments := hsegments
  -- a trim drops blocks in place: no index moves and no block changes its segment
  have howner := @field_trim s _ segmentId (fun _ _ => rfl)
  have hinside : ∀ i k, s.trimFreeSegments.Inside i k ↔ s.Inside i k := by
    intro i k
    unfold Inside
    rw [hlen, howner]
  constructor
  · intro i hi
    rw [howner, hseg]
    exact h.owner i (by rwa [hlen] at hi)
  · intro k seg hk i
    rw [hinside]
    exact h.members k seg (by rwa [hseg] at hk) i
  · intro k hk
    rw [hseg] at hk
    simp only [hinside]
    exact h.inhabited k hk
  · intro i p hp
    rw [@field_trim s _ Block.prev (fun _ _ => rfl)] at hp
    rw [hinside, howner]
    exact h.prev i p hp
  · intro i n hn
    rw [@field_trim s _ Block.next (fun _ _ => rfl)] at hn
    rw [hinside, howner]
    exact h.next i n hn
  · intro k hk
    rw [hseg]
    rcases mem_append.1 hk with hk | hk
    · exact h.known k hk
    · obtain ⟨seg, hseg, _⟩ := mem_trimmedBy.1 hk
      exact (List.getElem?_eq_some_iff.1 hseg).1
  · intro i hi
    rw [howner] at hi
    rw [block_trim]
    split
    · rfl
    · next hnot =>
        rcases mem_append.1 hi with hi | hi
        · exact h.empty i hi
        · -- the blocks of a trimmed segment are all dropped
          obtain ⟨seg, hk, hfree⟩ := mem_trimmedBy.1 hi
          by_cases hlt : i < s.blocks.length
          · exact absurd (mem_flatMap.2 ⟨seg,
              mem_filter.2 ⟨mem_of_getElem? hk, hfree⟩,
              (h.members _ seg hk i).2 ⟨hlt, rfl⟩⟩) hnot
          · rw [block_of_le (Nat.le_of_not_lt hlt)]
            rfl

/-- The bytes that a trim gives back. -/
def givenBack (s : AllocatorInner) : Nat :=
  ((s.segments.filter s.allFree).map Segment.total).sum

theorem heldBytes_trim (h : Tied released s) :
    s.trimFreeSegments.heldBytes (released ++ trimmedBy s .emptyCache) + s.givenBack =
      s.heldBytes released := by
  obtain ⟨_, hsegments, _⟩ := foldl_drop_frame s.trimmedBlocks s
  have hseg : s.trimFreeSegments.segments = s.segments := hsegments
  have hsame := heldBytes_congr (congrArg (map Segment.total) hseg)
  rw [hsame]
  unfold heldBytes givenBack
  rw [sum_kept, ← Finset.sum_add_distrib]
  apply Finset.sum_congr rfl
  intro k hk
  have htotal : (s.segments[k]?.map Segment.total).getD 0 = s.total k := by
    unfold total
    cases s.segments[k]? with
    | none => rfl
    | some seg => rfl
  have hany : s.segments[k]?.any s.allFree = true ↔ k ∈ trimmedBy s .emptyCache := by
    unfold trimmedBy
    rw [mem_filter, mem_range]
    exact ⟨fun h => ⟨Finset.mem_range.1 hk, h⟩, And.right⟩
  rw [htotal]
  simp only [hany, mem_append]
  -- a segment was released before, is released now, or stays
  by_cases hold : k ∈ released
  · have hnot : k ∉ trimmedBy s .emptyCache := fun hin =>
      h.not_trimmed hold (mem_trimmedBy.1 hin)
    simp [hold, hnot]
  · by_cases hnow : k ∈ trimmedBy s .emptyCache
    · simp [hold, hnow]
    · simp [hold, hnow]

theorem foldl_give (segs : List Segment) : ∀ bytes, bytes < u64Size →
    (segs.map Segment.total).sum ≤ bytes →
      segs.foldl (fun bytes seg => (u64Size + bytes - seg.total) % u64Size) bytes =
        bytes - (segs.map Segment.total).sum := by
  induction segs with
  | nil => exact fun bytes _ _ => rfl
  | cons seg segs ih =>
    intro bytes hlt hle
    rw [map_cons, sum_cons] at hle ⊢
    have hwrap : (u64Size + bytes - seg.total) % u64Size = bytes - seg.total := by
      have hsplit : u64Size + bytes - seg.total = bytes - seg.total + u64Size := by omega
      rw [hsplit, Nat.add_mod_right, Nat.mod_eq_of_lt (by omega)]
    rw [foldl_cons, hwrap, ih _ (by omega) (by omega)]
    omega

theorem stats_trim (hlt : s.stats.reservedBytes < u64Size)
    (hle : s.givenBack ≤ s.stats.reservedBytes) :
    s.trimFreeSegments.stats =
      { s.stats with reservedBytes := s.stats.reservedBytes - s.givenBack } := by
  have hstats : ∀ (targets : List Nat) (t : AllocatorInner),
      (targets.foldl drop t).stats = t.stats := by
    intro targets
    induction targets with
    | nil => exact fun t => rfl
    | cons idx targets ih => exact fun t => ih (t.drop idx)
  unfold trimFreeSegments
  simp only
  rw [hstats, foldl_give _ _ hlt hle]
  rfl

end AllocatorInner

namespace Statistics

variable {s t : AllocatorInner} {log : List Entry} {size stream : Nat}

/-! ## The books of a run -/

structure Booked (s : AllocatorInner) (log : List Entry) : Prop where
  allocated : s.stats.allocatedBytes = s.liveBytes
  reserved : s.stats.reservedBytes = s.heldBytes (gone log)
  peak : s.stats.peakAllocatedBytes = (log.map Entry.allocated).foldl max 0
  count : s.stats.allocCount = s.stats.cacheHits + s.stats.cacheMisses
  pos : ∀ q ∈ s.livePtrs, 0 < q.size
  tied : Tied (gone log) s
  allocated_lt : s.stats.allocatedBytes < u64Size
  reserved_lt : s.stats.reservedBytes < u64Size
  le_peak : s.stats.allocatedBytes ≤ s.stats.peakAllocatedBytes

theorem booked_new : Booked new [] where
  allocated := rfl
  reserved := rfl
  peak := rfl
  count := rfl
  pos q hq := by cases hq
  tied := tied_new
  allocated_lt := by decide
  reserved_lt := by decide
  le_peak := le_refl _

theorem gone_append (e : Entry) : gone (log ++ [e]) = gone log ++ e.trimmed := by
  simp [gone]

theorem peak_append (e : Entry) : ((log ++ [e]).map Entry.allocated).foldl max 0 =
    max ((log.map Entry.allocated).foldl max 0) e.allocated := by
  simp

section

variable (h : Booked s log)

include h

theorem Booked.frame (hframe : Frame s t) :
    Booked t (log ++ [{ allocated := t.stats.allocatedBytes, trimmed := [] }]) := by
  have hlive : t.livePtrs = s.livePtrs := livePtrs_congr hframe.live
  constructor
  · rw [hframe.stats, h.allocated]
    unfold liveBytes
    rw [hlive]
  · rw [hframe.stats, gone_append, append_nil, heldBytes_congr hframe.segments]
    exact h.reserved
  · rw [peak_append, ← h.peak, hframe.stats]
    exact (max_eq_left h.le_peak).symm
  · rw [hframe.stats]
    exact h.count
  · rw [hlive]
    exact h.pos
  · rw [gone_append, append_nil]
    exact hframe.tied _ h.tied
  · rw [hframe.stats]
    exact h.allocated_lt
  · rw [hframe.stats]
    exact h.reserved_lt
  · rw [hframe.stats]
    exact h.le_peak

theorem Booked.returns {q : DevPtr} (hreturns : Returns s t q) :
    Booked t (log ++ [{ allocated := t.stats.allocatedBytes, trimmed := [] }]) := by
  have hbytes : s.liveBytes = t.liveBytes + q.size := liveBytes_of_perm hreturns.live
  have hallocated : t.stats.allocatedBytes = s.stats.allocatedBytes - q.size := by
    rw [hreturns.stats]
  have hle : t.stats.allocatedBytes ≤ s.stats.allocatedBytes := by omega
  have hpeak : t.stats.peakAllocatedBytes = s.stats.peakAllocatedBytes := by
    rw [hreturns.stats]
  have hreserved : t.stats.reservedBytes = s.stats.reservedBytes := by
    rw [hreturns.stats]
  constructor
  · rw [hallocated, h.allocated, hbytes, Nat.add_sub_cancel]
  · rw [hreserved, gone_append, append_nil, heldBytes_congr hreturns.segments]
    exact h.reserved
  · rw [peak_append, ← h.peak, hpeak]
    exact (max_eq_left (hle.trans h.le_peak)).symm
  · rw [hreturns.stats]
    exact h.count
  · exact fun x hx => h.pos x (hreturns.live.mem_iff.2 (mem_cons_of_mem q hx))
  · rw [gone_append, append_nil]
    exact hreturns.tied _ h.tied
  · exact hle.trans_lt h.allocated_lt
  · rw [hreserved]
    exact h.reserved_lt
  · rw [hpeak]
    exact hle.trans h.le_peak

theorem Booked.trim : Booked s.trimFreeSegments.countTrim
    (log ++ [{ allocated := s.trimFreeSegments.countTrim.stats.allocatedBytes,
               trimmed := trimmedBy s .emptyCache }]) := by
  have hheld := heldBytes_trim h.tied
  have hle : s.givenBack ≤ s.stats.reservedBytes := by
    rw [h.reserved]
    omega
  have hstats := stats_trim h.reserved_lt hle
  have hlive : s.trimFreeSegments.livePtrs = s.livePtrs := livePtrs_congr live_trim
  unfold countTrim
  rw [hstats]
  constructor
  · change s.stats.allocatedBytes = (s.trimFreeSegments.livePtrs.map DevPtr.size).sum
    rw [hlive]
    exact h.allocated
  · rw [gone_append]
    change s.stats.reservedBytes - s.givenBack =
      s.trimFreeSegments.heldBytes (gone log ++ trimmedBy s .emptyCache)
    rw [h.reserved]
    omega
  · rw [peak_append, ← h.peak]
    exact (max_eq_left h.le_peak).symm
  · exact h.count
  · change ∀ q ∈ s.trimFreeSegments.livePtrs, 0 < q.size
    rw [hlive]
    exact h.pos
  · rw [gone_append]
    exact h.tied.trim.congr rfl rfl
  · exact h.allocated_lt
  · exact (Nat.sub_le _ _).trans_lt h.reserved_lt
  · exact h.le_peak

/-! ## The guard of an allocation -/

omit h in
theorem roundUpPow2_lt : roundUpPow2 size < u64Size := by
  unfold roundUpPow2
  simp only
  split
  · decide
  · exact Nat.mod_lt _ (by decide)

theorem guard_alloc_iff (hzero : size ≠ 0) (hround : size ≤ 2 ^ 63) :
    Guard s (.alloc size stream) ↔
      s.stats.allocatedBytes + roundUpPow2 size < u64Size ∧
      s.gained size stream = roundUpPow2 size ∧
      s.stats.reservedBytes + s.acquired size stream < u64Size := by
  have hpos := (roundUpPow2_bounds hround).2
  have hgained : s.gained size stream = roundUpPow2 size ↔
      ∀ idx ∈ s.front stream (binIndex size),
        (s.block idx).state ≠ .inUse ∧ (s.block idx).size = roundUpPow2 size := by
    unfold gained
    cases s.front stream (binIndex size) with
    | none => simp
    | some idx =>
      simp only [Option.mem_some_iff, forall_eq']
      unfold gain
      split
      · next hstate => simp [hstate, hpos.ne]
      · next hstate => simp [hstate]
  have hacquired : s.stats.reservedBytes + s.acquired size stream < u64Size ↔
      (OutOfBlocks s size stream → s.stats.reservedBytes + roundUpPow2 size < u64Size) := by
    unfold acquired
    by_cases hout : OutOfBlocks s size stream
    · simp [hout]
    · simp [hout, h.reserved_lt]
  rw [hgained, hacquired]
  exact ⟨fun hguard => hguard hzero, fun hguard _ => hguard⟩

theorem Booked.alloc (hzero : size ≠ 0) (hround : size ≤ 2 ^ 63)
    (hguard : Guard s (.alloc size stream)) :
    Booked (step s (.alloc size stream)) (log ++ note s (.alloc size stream)) := by
  obtain ⟨hallocated, hgained, hreserved⟩ := (guard_alloc_iff h hzero hround).1 hguard
  have hgrows := @alloc_grows s size stream hzero
  have hcounted := @alloc_counted s size stream hzero
  have hbytes := hcounted.allocated
  have hkept := hcounted.reserved h.reserved_lt
  rw [Nat.mod_eq_of_lt hallocated] at hbytes
  rw [Nat.mod_eq_of_lt hreserved] at hkept
  have hnote : note s (.alloc size stream) =
      [{ allocated := (step s (.alloc size stream)).stats.allocatedBytes, trimmed := [] }] := rfl
  rw [hnote]
  constructor
  · rw [hbytes, hgrows.live, hgained, h.allocated]
  · rw [hkept, gone_append, append_nil, hgrows.held _ h.tied, h.reserved]
  · rw [peak_append, ← h.peak]
    exact hcounted.peak
  · rw [hcounted.count, hcounted.served, h.count]
  · exact hgrows.pos (by rw [hgained]; exact (roundUpPow2_bounds hround).2) h.pos
  · rw [gone_append, append_nil]
    exact hgrows.tied _ h.tied
  · rw [hbytes]
    exact hallocated
  · rw [hkept]
    exact hreserved
  · rw [hcounted.peak]
    exact Nat.le_max_right _ _

variable {call : Call}

theorem Booked.step (hround : Roundable call) (hguard : Guard s call) :
    Booked (step s call) (log ++ note s call) := by
  cases call with
  | alloc size stream =>
    by_cases hzero : size = 0
    · have hsame : Statistics.step s (.alloc size stream) = s := by
        change (s.alloc size stream).1 = s
        unfold AllocatorInner.alloc
        rw [if_pos hzero]
      rw [note, hsame]
      exact h.frame (Frame.refl s)
    · exact h.alloc hzero hround hguard
  | free ptr =>
    rcases @free_returns s ptr with ⟨hsame, _⟩ | ⟨_, q, _, hreturns⟩
    · rw [note, hsame]
      exact h.frame (Frame.refl s)
    · exact h.returns hreturns
  | recordStream ptr stream => exact h.frame (recordStream_frame ptr stream)
  | synchronizeStream stream => exact h.frame (synchronizeStream_frame stream)
  | emptyCache => exact h.trim

/-! ## Freeing everything -/

omit h in
theorem drain (ptrs : List DevPtr) : ∀ s : AllocatorInner,
    (ptrs.map DevPtr.addr).Perm (s.livePtrs.map DevPtr.addr) → (∀ q ∈ ptrs, 0 < q.size) →
      s.stats.allocatedBytes = s.liveBytes →
        (run Statistics.step s (ptrs.map Call.free)).stats.allocatedBytes = 0 := by
  induction ptrs with
  | nil =>
    intro s hperm _ hbytes
    have hnone : s.livePtrs = [] := map_eq_nil_iff.1 hperm.nil_eq.symm
    change s.stats.allocatedBytes = 0
    rw [hbytes]
    unfold liveBytes
    rw [hnone]
    rfl
  | cons p ptrs ih =>
    intro s hperm hpos hbytes
    obtain ⟨hp, hptrs⟩ := forall_mem_cons.1 hpos
    rcases @free_returns s p with ⟨_, hnothing⟩ | ⟨_, q, haddr, hreturns⟩
    · -- some live allocation is at the address
      have hmem := hperm.mem_iff.1 (mem_cons_self (a := p.addr) (l := ptrs.map DevPtr.addr))
      obtain ⟨q, hq, haddr⟩ := mem_map.1 hmem
      rcases hnothing with hsize | hmiss
      · omega
      · exact absurd haddr (hmiss q hq)
    · apply ih _ _ hptrs
      · have hbytes' : s.liveBytes = _ := liveBytes_of_perm hreturns.live
        rw [hreturns.stats]
        change s.stats.allocatedBytes - q.size = _
        omega
      · have hleft := hperm.trans (hreturns.live.map DevPtr.addr)
        rw [map_cons, map_cons, haddr] at hleft
        exact Perm.cons_inv hleft

theorem Booked.accounted : Accounted s log where
  allocated := h.allocated
  reserved := h.reserved
  peak := h.peak
  count := h.count
  drains ptrs hperm :=
    drain ptrs s (hperm.map DevPtr.addr) (fun q hq => h.pos q (hperm.mem_iff.1 hq)) h.allocated

/-- Sums that come out right have not wrapped. -/
theorem guard_of_accounted (hround : Roundable call)
    (hnext : Accounted (step s call) (log ++ note s call)) : Guard s call := by
  cases call with
  | alloc size stream =>
    by_cases hzero : size = 0
    · exact fun hne => absurd hzero hne
    · have hgrows := @alloc_grows s size stream hzero
      have hcounted := @alloc_counted s size stream hzero
      have hbytes := hcounted.allocated
      have hkept := hcounted.reserved h.reserved_lt
      have hgone : gone (log ++ note s (.alloc size stream)) = gone log :=
        (gone_append _).trans (append_nil _)
      have hheld := hgrows.held _ h.tied
      have hallocated := hnext.allocated
      have hreserved := hnext.reserved
      have hlt := @roundUpPow2_lt size
      have hacquired : s.acquired size stream ≤ roundUpPow2 size := by
        unfold acquired
        split
        · exact le_refl _
        · exact Nat.zero_le _
      have hlow := h.allocated_lt
      have hlow' := h.reserved_lt
      -- each sum is exact and below `2^64`, and the counter is that sum reduced once at most
      rw [hgone, hheld, ← h.reserved] at hreserved
      rw [hgrows.live, ← h.allocated] at hallocated
      refine (guard_alloc_iff h hzero hround).2 ⟨?_, ?_, ?_⟩
      · by_contra hge
        rw [Nat.mod_eq_sub_mod (by omega), Nat.mod_eq_of_lt (by omega)] at hbytes
        omega
      · by_cases hge : s.stats.allocatedBytes + roundUpPow2 size < u64Size
        · rw [Nat.mod_eq_of_lt hge] at hbytes
          omega
        · rw [Nat.mod_eq_sub_mod (by omega), Nat.mod_eq_of_lt (by omega)] at hbytes
          omega
      · by_contra hge
        rw [Nat.mod_eq_sub_mod (by omega), Nat.mod_eq_of_lt (by omega)] at hkept
        omega
  | free ptr => trivial
  | recordStream ptr stream => trivial
  | synchronizeStream stream => trivial
  | emptyCache => trivial

end

/-- Among the runs of requests that can be rounded, the counters are right after every call exactly
where each allocation meets its guard. -/
theorem accounted_throughout_iff (calls : List Call) (hround : ∀ call ∈ calls, Roundable call) :
    Throughout step note
        (fun s log call => Accounted (step s call) (log ++ note s call)) new [] calls ↔
      Along step Guard new calls := by
  apply throughout_iff_along_of Roundable Booked
  · exact fun s log call hcall hguard h => h.step hcall hguard
  · intro s log call hcall h
    constructor
    · exact guard_of_accounted h hcall
    · exact fun hguard => (h.step hcall hguard).accounted
  · exact hround
  · exact booked_new

instance (s : AllocatorInner) : ∀ call, Decidable (Guard s call)
  | .alloc size stream =>
    inferInstanceAs (Decidable (_ → _ ∧ (∀ idx ∈ s.front stream (binIndex size), _ ∧ _) ∧ (_ → _)))
  | .free _ => inferInstanceAs (Decidable True)
  | .recordStream _ _ => inferInstanceAs (Decidable True)
  | .synchronizeStream _ => inferInstanceAs (Decidable True)
  | .emptyCache => inferInstanceAs (Decidable True)

/-- Blocks of one size on two streams; one of them waits for its stream. -/
def pages : List Call :=
  [.alloc 4096 0, .alloc 100 7, .recordStream { addr := 0x100000000, size := 4096 } 7,
    .free { addr := 0x100000000, size := 4096 }, .synchronizeStream 7, .alloc 4000 0,
    .free { addr := 0x100000000, size := 4096 }, .emptyCache]

theorem accounted_pages : Throughout step note
    (fun s log call => Accounted (step s call) (log ++ note s call)) new [] pages := by
  have hround : ∀ call ∈ pages, Roundable call := by
    intro call hcall
    unfold pages at hcall
    simp only [mem_cons, not_mem_nil, or_false] at hcall
    rcases hcall with rfl | rfl | rfl | rfl | rfl | rfl | rfl | rfl
    all_goals simp [Roundable]
  exact (accounted_throughout_iff pages hround).2 (by decide +kernel)

/-- A trimmed block stays in its bin, and the next request of its old size is served with it. -/
def trimmedThenServed : List Call :=
  [.alloc 16384 0, .free { addr := 0x100000000, size := 16384 }, .emptyCache, .alloc 16384 0]

theorem trimmedThenServed_not_accounted :
    ¬ Accounted (run step new trimmedThenServed)
      (outputs step note new trimmedThenServed) := by
  intro h
  exact absurd h.allocated (by decide +kernel)

end Statistics

end Cuda
end Rustorch
