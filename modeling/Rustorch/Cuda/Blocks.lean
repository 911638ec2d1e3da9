import Mathlib.Data.Finset.Card
import Rustorch.Cuda.Allocator
import Rustorch.Lib.IntervalChain

/-!
# The blocks of the allocator form a chain

The blocks with a positive size are a chain of intervals inside their segments (`Wf`).  Splitting,
coalescing, fresh segments and trimming are the operations of the chain, and none of them touches
the address, size or state of another block that is in use or pending (`SameBusy`).
-/

namespace Rustorch
namespace Cuda
namespace AllocatorInner

open IntervalChain Block

variable {s s' : AllocatorInner} {idx l r i k n want : Nat} {b : Block}

/-! ## Reading the block table -/

theorem block_setBlock (h : idx < s.blocks.length) :
    (s.setBlock idx b).block k = if k = idx then b else s.block k := by
  unfold block setBlock
  by_cases hk : k = idx
  · subst hk
    simp [h]
  · simp [hk, Ne.symm hk]

theorem block_of_le (h : s.blocks.length ≤ i) : s.block i = absent := by
  unfold block
  rw [List.getD_eq_getElem?_getD, List.getElem?_eq_none h]
  rfl

theorem lt_of_size (h : 0 < (s.block i).size) : i < s.blocks.length := by
  by_contra hle
  rw [block_of_le (Nat.le_of_not_lt hle)] at h
  cases h

theorem lt_of_state (h : (s.block i).state ≠ .free) : i < s.blocks.length := by
  by_contra hle
  rw [block_of_le (Nat.le_of_not_lt hle)] at h
  exact h rfl

theorem block_congr (h : s'.blocks = s.blocks) (i : Nat) : s'.block i = s.block i := by
  unfold block
  rw [h]

theorem block_relink {next : Option Nat} (h : ∀ n, next = some n → n < s.blocks.length) :
    (s.relink next idx).block k =
      if next = some k then { s.block k with prev := some idx } else s.block k := by
  cases next with
  | none => rfl
  | some n =>
    unfold relink
    rw [block_setBlock (h n rfl)]
    by_cases hk : k = n
    · subst hk
      simp
    · have hne : ¬ some n = some k := fun heq => hk (Option.some.inj heq).symm
      simp [hk, hne]

@[simp] theorem length_setBlock : (s.setBlock idx b).blocks.length = s.blocks.length :=
  List.length_set

@[simp] theorem length_relink {next : Option Nat} :
    (s.relink next idx).blocks.length = s.blocks.length := by
  cases next with
  | none => rfl
  | some n => exact length_setBlock

@[simp] theorem blocks_unbin : (s.unbin idx).blocks = s.blocks := by
  unfold unbin
  split
  · rfl
  · split
    · rfl
    · rfl

@[simp] theorem segments_setBlock : (s.setBlock idx b).segments = s.segments := rfl

@[simp] theorem segments_relink {next : Option Nat} :
    (s.relink next idx).segments = s.segments := by
  cases next with
  | none => rfl
  | some n => rfl

@[simp] theorem segments_unbin : (s.unbin idx).segments = s.segments := by
  unfold unbin
  split
  · rfl
  · split
    · rfl
    · rfl

/-! ## The chain -/

def node (s : AllocatorInner) (i : Nat) : Node where
  lo := (s.block i).addr
  size := (s.block i).size
  owner := (s.block i).segmentId
  prev := (s.block i).prev
  next := (s.block i).next

def region (s : AllocatorInner) (k : Nat) : Region :=
  match s.segments[k]? with
  | none => { lo := 0, hi := 0 }
  | some seg => { lo := seg.baseAddr, hi := seg.baseAddr + seg.total }

structure Wf (s : AllocatorInner) : Prop where
  chain : Chain s.region s.node
  busy : ∀ i, (s.block i).state ≠ .free → 0 < (s.block i).size
  owner : ∀ i, i < s.blocks.length → (s.block i).segmentId < s.segments.length
  members : ∀ (k : Nat) (seg : Segment), s.segments[k]? = some seg →
    ∀ i, i ∈ seg.blocks ↔ i < s.blocks.length ∧ (s.block i).segmentId = k
  stop : ∀ (k : Nat) (seg : Segment), s.segments[k]? = some seg →
    0 < seg.baseAddr ∧ seg.baseAddr + seg.total ≤ u64Size
  ordered : ∀ (k k' : Nat) (seg seg' : Segment), k < k' → s.segments[k]? = some seg → s.segments[k']? = some seg' →
    seg.baseAddr + seg.total ≤ seg'.baseAddr

theorem Wf.bounds (h : Wf s) (hi : Active s.node i) :
    0 < (s.block i).addr ∧ (s.block i).addr + (s.block i).size ≤ u64Size := by
  have hlt : i < s.blocks.length := lt_of_size hi
  have hseg : s.segments[(s.block i).segmentId]? = some (s.segments.get
      ⟨(s.block i).segmentId, h.owner i hlt⟩) := List.getElem?_eq_getElem _
  have hinside := h.chain.inside i hi
  have hstop := h.stop _ _ hseg
  unfold region node at hinside
  simp only [hseg] at hinside
  omega

theorem Wf.congr (h : Wf s) (hblocks : s'.blocks = s.blocks) (hsegments : s'.segments = s.segments) :
    Wf s' := by
  have hblock := block_congr hblocks
  have hnode : s'.node = s.node := by
    funext i
    unfold node
    rw [hblock]
  have hregion : s'.region = s.region := by
    funext k
    unfold region
    rw [hsegments]
  constructor
  · rw [hnode, hregion]
    exact h.chain
  · simpa only [hblock] using h.busy
  · simpa only [hblock, hblocks, hsegments] using h.owner
  · simpa only [hblock, hblocks, hsegments] using h.members
  · simpa only [hsegments] using h.stop
  · simpa only [hsegments] using h.ordered

theorem wf_new : Wf new := by
  have hactive : ∀ i, ¬ Active new.node i := fun i hi => Nat.lt_irrefl 0 hi
  constructor
  · constructor
    · exact fun i j hi => absurd hi (hactive i)
    · exact fun i j hi => absurd hi (hactive i)
    · exact fun i j _ hi => absurd hi (hactive i)
    · exact fun i hi => absurd hi (hactive i)
  · exact fun i hi => absurd rfl hi
  · exact fun i hi => absurd hi (Nat.not_lt_zero i)
  · exact fun k seg hseg => by cases hseg
  · exact fun k seg hseg => by cases hseg
  · exact fun k k' seg seg' _ hseg => by cases hseg

/-! ## Changing the state of a block -/

/-- A block with the place of `b`. -/
structure SamePlace (b b' : Block) : Prop where
  addr : b'.addr = b.addr
  size : b'.size = b.size
  segmentId : b'.segmentId = b.segmentId
  prev : b'.prev = b.prev
  next : b'.next = b.next

theorem node_setBlock (hidx : idx < s.blocks.length) (hplace : SamePlace (s.block idx) b) :
    (s.setBlock idx b).node = s.node := by
  funext i
  unfold node
  rw [block_setBlock hidx]
  split
  · next heq => rw [heq, hplace.addr, hplace.size, hplace.segmentId, hplace.prev, hplace.next]
  · rfl

theorem Wf.setBlock (h : Wf s) (hidx : idx < s.blocks.length) (hplace : SamePlace (s.block idx) b)
    (hbusy : b.state ≠ .free → 0 < b.size) : Wf (s.setBlock idx b) := by
  have hnode := node_setBlock hidx hplace
  have howner : ∀ i, ((s.setBlock idx b).block i).segmentId = (s.block i).segmentId := by
    intro i
    exact congrArg Node.owner (congrFun hnode i)
  constructor
  · rw [hnode]
    exact h.chain
  · intro i hi
    rw [block_setBlock hidx] at hi ⊢
    split at hi
    · next heq =>
        rw [if_pos heq]
        exact hbusy hi
    · next hne =>
        rw [if_neg hne]
        exact h.busy i hi
  · intro i hi
    rw [howner]
    exact h.owner i (by simpa using hi)
  · intro k seg hseg i
    rw [howner, length_setBlock]
    exact h.members k seg hseg i
  · exact h.stop
  · exact h.ordered

/-! ## What is kept of busy blocks -/

/-- The same blocks in the same states; those that are in use or pending keep their size, and an
empty one stays empty. -/
structure SameBusy (s s' : AllocatorInner) : Prop where
  length : s'.blocks.length = s.blocks.length
  segments : s'.segments = s.segments
  pending : s'.pending = s.pending
  addr : ∀ i, (s'.block i).addr = (s.block i).addr
  state : ∀ i, (s'.block i).state = (s.block i).state
  streams : ∀ i, (s'.block i).recordStreams = (s.block i).recordStreams
  owner : ∀ i, (s'.block i).segmentId = (s.block i).segmentId
  size : ∀ i, (s.block i).state ≠ .free → (s'.block i).size = (s.block i).size
  empty : ∀ i, (s.block i).size = 0 → (s'.block i).size = 0

theorem SameBusy.refl (s : AllocatorInner) : SameBusy s s :=
  ⟨rfl, rfl, rfl, fun _ => rfl, fun _ => rfl, fun _ => rfl, fun _ => rfl, fun _ _ => rfl,
    fun _ h => h⟩

theorem SameBusy.trans {s'' : AllocatorInner} (h : SameBusy s s') (h' : SameBusy s' s'') :
    SameBusy s s'' where
  length := h'.length.trans h.length
  segments := h'.segments.trans h.segments
  pending := h'.pending.trans h.pending
  addr i := (h'.addr i).trans (h.addr i)
  state i := (h'.state i).trans (h.state i)
  streams i := (h'.streams i).trans (h.streams i)
  owner i := (h'.owner i).trans (h.owner i)
  size i hi := (h'.size i (by rwa [h.state])).trans (h.size i hi)
  empty i hi := h'.empty i (h.empty i hi)

theorem SameBusy.of_blocks (hblocks : s'.blocks = s.blocks) (hsegments : s'.segments = s.segments)
    (hpending : s'.pending = s.pending) : SameBusy s s' := by
  have hblock := block_congr hblocks
  refine ⟨by rw [hblocks], hsegments, hpending, ?_, ?_, ?_, ?_, ?_, ?_⟩
  all_goals
    intro i
    rw [hblock]
  · exact fun _ => rfl
  · exact id

theorem SameBusy.devPtr (h : SameBusy s s') (hi : (s.block i).state ≠ .free) :
    s'.devPtr i = s.devPtr i := by
  unfold AllocatorInner.devPtr
  rw [h.addr, h.size i hi]

/-- Where the busy blocks stay as they are, the chain is all that is left to prove. -/
theorem Wf.of_sameBusy (h : Wf s) (hsame : SameBusy s s') (hchain : Chain s.region s'.node) :
    Wf s' := by
  have hregion : s'.region = s.region := by
    funext k
    unfold region
    rw [hsame.segments]
  constructor
  · rw [hregion]
    exact hchain
  · intro i hi
    rw [hsame.state] at hi
    rw [hsame.size i hi]
    exact h.busy i hi
  · intro i hi
    rw [hsame.owner, hsame.segments]
    exact h.owner i (by rwa [hsame.length] at hi)
  · intro k seg hseg i
    rw [hsame.owner, hsame.length]
    exact h.members k seg (by rwa [hsame.segments] at hseg) i
  · rw [hsame.segments]
    exact h.stop
  · rw [hsame.segments]
    exact h.ordered

/-! ## Absorbing a neighbour -/

theorem Wf.active_lt (_ : Wf s) (hi : Active s.node i) : i < s.blocks.length :=
  lt_of_size hi

theorem Wf.next_lt (h : Wf s) (hi : Active s.node i) :
    ∀ n, (s.block i).next = some n → n < s.blocks.length := by
  intro n hn
  exact lt_of_size (h.chain.next i n hi hn).1

/-- The links of a pair of neighbours, for the blocks. -/
structure Neighbours (s : AllocatorInner) (l r : Nat) : Prop where
  left : Active s.node l
  right : Active s.node r
  next : (s.block l).next = some r

section

variable (h : Neighbours s l r)

include h

theorem Neighbours.ne (hwf : Wf s) : l ≠ r :=
  (hwf.chain.ne_next h.left h.next).symm

theorem Neighbours.next_right (hwf : Wf s) :
    ∀ n, (s.block r).next = some n → n < s.blocks.length ∧ n ≠ l ∧ n ≠ r := by
  intro n hn
  have hlr := hwf.chain.lo_lt_next h.left h.next
  have hrn := hwf.chain.lo_lt_next h.right hn
  refine ⟨hwf.next_lt h.right n hn, ?_, ?_⟩
  · rintro rfl
    omega
  · rintro rfl
    omega

theorem Neighbours.block_absorb (hwf : Wf s) :
    (s.absorb l r).block k =
      if k = l then
        s.grown l r
      else if k = r then
        { s.block r with size := 0 }
      else if (s.block r).next = some k then
        { s.block k with prev := some l }
      else
        s.block k := by
  have hl := hwf.active_lt h.left
  have hr := hwf.active_lt h.right
  have hne := h.ne hwf
  have hnext := h.next_right hwf
  unfold absorb
  have hlink : ∀ n, (s.block r).next = some n →
      n < (s.setBlock l (s.grown l r)).blocks.length := by
    intro n hn
    rw [length_setBlock]
    exact (hnext n hn).1
  have hnr : (s.block r).next ≠ some r := fun heq => (hnext r heq).2.2 rfl
  have hnl : (s.block r).next ≠ some l := fun heq => (hnext l heq).2.1 rfl
  rw [block_setBlock (by simpa using hr), block_congr blocks_unbin, block_congr blocks_unbin,
    block_relink hlink, block_relink hlink, block_setBlock hl, block_setBlock hl]
  by_cases hkl : k = l
  · subst hkl
    simp [hne, hnl]
  · by_cases hkr : k = r
    · subst hkr
      simp [Ne.symm hne, hnr]
    · simp [hkl, hkr]

/-- Two neighbours fit in their segment, so the sum of their sizes does not wrap. -/
theorem Neighbours.size_lt (hwf : Wf s) :
    (s.block l).size + (s.block r).size < u64Size := by
  have hlo : (s.block r).addr = (s.block l).addr + (s.block l).size :=
    (hwf.chain.next l r h.left h.next).2.2.1
  have hl := hwf.bounds h.left
  have hr := hwf.bounds h.right
  omega

theorem Neighbours.node_absorb (hwf : Wf s) :
    (s.absorb l r).node = merge s.node l r := by
  funext k
  unfold node merge
  rw [h.block_absorb hwf]
  by_cases hkl : k = l
  · subst hkl
    simp [Nat.mod_eq_of_lt (h.size_lt hwf)]
  · by_cases hkr : k = r
    · subst hkr
      simp [hkl]
    · simp only [if_neg hkl, if_neg hkr]
      split
      · rfl
      · rfl

end

theorem segments_absorb : (s.absorb l r).segments = s.segments := by
  simp [absorb]

theorem length_absorb : (s.absorb l r).blocks.length = s.blocks.length := by
  simp [absorb]

theorem pending_absorb : (s.absorb l r).pending = s.pending := by
  have hlink : ∀ (t : AllocatorInner) next, (t.relink next l).pending = t.pending := by
    intro t next
    cases next with
    | none => rfl
    | some n => rfl
  have hunbin : ∀ t : AllocatorInner, (t.unbin r).pending = t.pending := by
    intro t
    unfold unbin
    split
    · rfl
    · split
      · rfl
      · rfl
  calc
    (s.absorb l r).pending
        = ((s.setBlock l (s.grown l r)).relink (s.block r).next l).pending := hunbin _
    _ = s.pending := hlink _ _

theorem Neighbours.sameBusy (h : Neighbours s l r) (hwf : Wf s)
    (hl : (s.block l).state = .free) (hr : (s.block r).state = .free) :
    SameBusy s (s.absorb l r) := by
  have hleft : (s.absorb l r).block l = (s.grown l r) := by
    rw [h.block_absorb hwf, if_pos rfl]
  have hright : (s.absorb l r).block r = { s.block r with size := 0 } := by
    rw [h.block_absorb hwf, if_neg (h.ne hwf).symm, if_pos rfl]
  have hother : ∀ k, k ≠ l → k ≠ r →
      ∃ prev, (s.absorb l r).block k = { s.block k with prev := prev } := by
    intro k hkl hkr
    rw [h.block_absorb hwf, if_neg hkl, if_neg hkr]
    split
    · exact ⟨_, rfl⟩
    · exact ⟨(s.block k).prev, rfl⟩
  -- a field that neither the sizes nor the links decide
  have hkeep : ∀ {α : Type} (field : Block → α),
      field (s.grown l r) =
          field (s.block l) →
      field { s.block r with size := 0 } = field (s.block r) →
      (∀ (k : Nat) (prev : Option Nat), field { s.block k with prev := prev } = field (s.block k)) →
      ∀ k, field ((s.absorb l r).block k) = field (s.block k) := by
    intro α field h₁ h₂ h₃ k
    by_cases hkl : k = l
    · rw [hkl, hleft, h₁]
    · by_cases hkr : k = r
      · rw [hkr, hright, h₂]
      · obtain ⟨prev, hprev⟩ := hother k hkl hkr
        rw [hprev, h₃]
  constructor
  · exact length_absorb
  · exact segments_absorb
  · exact pending_absorb
  · exact hkeep addr rfl rfl (fun _ _ => rfl)
  · exact hkeep state rfl rfl (fun _ _ => rfl)
  · exact hkeep recordStreams rfl rfl (fun _ _ => rfl)
  · exact hkeep segmentId rfl rfl (fun _ _ => rfl)
  · intro k hk
    have hkl : k ≠ l := by
      rintro rfl
      exact hk hl
    have hkr : k ≠ r := by
      rintro rfl
      exact hk hr
    obtain ⟨prev, hprev⟩ := hother k hkl hkr
    rw [hprev]
  · intro k hk
    have hkl : k ≠ l := by
      rintro rfl
      exact absurd h.left (Nat.not_lt.2 hk.le)
    by_cases hkr : k = r
    · rw [hkr, hright]
    · obtain ⟨prev, hprev⟩ := hother k hkl hkr
      rw [hprev]
      exact hk

theorem Wf.absorb (h : Wf s) (hlr : Neighbours s l r) (hl : (s.block l).state = .free)
    (hr : (s.block r).state = .free) : Wf (s.absorb l r) := by
  apply h.of_sameBusy (hlr.sameBusy h hl hr)
  rw [hlr.node_absorb h]
  exact h.chain.merge hlr.left hlr.next

theorem Neighbours.left_absorb (h : Neighbours s l r) (hwf : Wf s) :
    Active (s.absorb l r).node l := by
  rw [h.node_absorb hwf]
  exact (active_merge hwf.chain h.left h.next).2 ⟨h.left, h.ne hwf⟩

/-! ## Coalescing -/

variable {fuel cur : Nat}

theorem mergePrev_spec : Wf s → Active s.node cur →
    (s.block cur).state = .free → ∀ t c, mergePrev fuel s cur = (t, c) →
      Wf t ∧ SameBusy s t ∧ Active t.node c ∧ (t.block c).state = .free := by
  induction fuel generalizing s cur with
  | zero =>
    intro h hactive hfree t c heq
    cases heq
    exact ⟨h, SameBusy.refl s, hactive, hfree⟩
  | succ fuel ih =>
    intro h hactive hfree t c heq
    unfold mergePrev at heq
    split at heq
    · cases heq
      exact ⟨h, SameBusy.refl s, hactive, hfree⟩
    · next p hp =>
        split at heq
        · next hpfree =>
            obtain ⟨hpactive, hpnext⟩ := h.chain.prev cur p hactive hp
            have hlr : Neighbours s p cur := ⟨hpactive, hactive, hpnext⟩
            have hsame := hlr.sameBusy h hpfree hfree
            have hstay := hlr.left_absorb h
            obtain ⟨hwf, hrest, hc⟩ := ih (h.absorb hlr hpfree hfree) hstay
              (by rw [hsame.state, hpfree]) t c heq
            exact ⟨hwf, hsame.trans hrest, hc⟩
        · cases heq
          exact ⟨h, SameBusy.refl s, hactive, hfree⟩

theorem mergeNext_spec : Wf s → Active s.node cur →
    (s.block cur).state = .free →
      Wf (mergeNext fuel s cur) ∧ SameBusy s (mergeNext fuel s cur) := by
  induction fuel generalizing s with
  | zero =>
    intro h _ _
    exact ⟨h, SameBusy.refl s⟩
  | succ fuel ih =>
    intro h hactive hfree
    unfold mergeNext
    split
    · exact ⟨h, SameBusy.refl s⟩
    · next n hn =>
        split
        · next hnfree =>
            have hlr : Neighbours s cur n := ⟨hactive, (h.chain.next cur n hactive hn).1, hn⟩
            have hsame := hlr.sameBusy h hfree hnfree
            have hstay := hlr.left_absorb h
            obtain ⟨hwf, hrest⟩ := ih (h.absorb hlr hfree hnfree) hstay
              (by rw [hsame.state, hfree])
            exact ⟨hwf, hsame.trans hrest⟩
        · exact ⟨h, SameBusy.refl s⟩

theorem coalesceAndReturn_spec (h : Wf s) (hactive : Active s.node idx)
    (hfree : (s.block idx).state = .free) :
    Wf (s.coalesceAndReturn idx) ∧ SameBusy s (s.coalesceAndReturn idx) := by
  cases hprev : mergePrev s.blocks.length s idx with
  | mk t c =>
    obtain ⟨ht, hst, hc, hcfree⟩ := mergePrev_spec h hactive hfree t c hprev
    obtain ⟨hu, htu⟩ := @mergeNext_spec t s.blocks.length c ht hc hcfree
    unfold coalesceAndReturn
    simp only [hprev]
    exact ⟨hu.congr rfl rfl, (hst.trans htu).trans (SameBusy.of_blocks rfl rfl rfl)⟩

/-! ## Appending a block -/

theorem block_append (hblocks : s'.blocks = s.blocks ++ [b]) :
    s'.block k = if k = s.blocks.length then b else s.block k := by
  unfold block
  rw [hblocks, List.getD_eq_getElem?_getD, List.getElem?_append]
  by_cases hlt : k < s.blocks.length
  · rw [if_pos hlt, if_neg (by omega), List.getD_eq_getElem?_getD]
  · rw [if_neg hlt]
    by_cases heq : k = s.blocks.length
    · subst heq
      simp
    · rw [if_neg heq, List.getElem?_eq_none (by simp; omega), List.getD_eq_getElem?_getD,
        List.getElem?_eq_none (by omega)]

theorem length_cut : (s.cut idx want).blocks.length = s.blocks.length + 1 := by
  simp [cut, pushBin]

theorem segments_cut : (s.cut idx want).segments = s.segments.modify (s.block idx).segmentId
    (fun seg => { seg with blocks := seg.blocks ++ [s.blocks.length] }) := by
  simp [cut, pushBin]

theorem pending_cut : (s.cut idx want).pending = s.pending := by
  unfold cut pushBin
  simp only
  cases (s.block idx).next with
  | none => rfl
  | some n => rfl

/-- A free block that is larger than what is wanted. -/
structure Cuttable (s : AllocatorInner) (idx want : Nat) : Prop where
  free : (s.block idx).state = .free
  pos : 0 < want
  lt : want < (s.block idx).size

section

variable (h : Cuttable s idx want)

include h

theorem Cuttable.active : Active s.node idx :=
  h.pos.trans h.lt

theorem Cuttable.next (hwf : Wf s) :
    ∀ n, (s.block idx).next = some n → n < s.blocks.length ∧ n ≠ idx := by
  intro n hn
  exact ⟨hwf.next_lt h.active n hn, hwf.chain.ne_next h.active hn⟩

theorem Cuttable.block_cut (hwf : Wf s) :
    (s.cut idx want).block k =
      if k = idx then
        { s.block idx with size := want, next := some s.blocks.length }
      else if k = s.blocks.length then
        remainder (s.block idx) idx want
      else if (s.block idx).next = some k then
        { s.block k with prev := some s.blocks.length }
      else
        s.block k := by
  have hidx := hwf.active_lt h.active
  have hnext := h.next hwf
  have hlen : ∀ t : AllocatorInner, t.blocks = s.blocks ++ [remainder (s.block idx) idx want] →
      t.blocks.length = s.blocks.length + 1 := by
    intro t ht
    rw [ht, List.length_append, List.length_singleton]
  have hself : (s.block idx).next ≠ some idx := fun heq => (hnext idx heq).2 rfl
  have hnew : (s.block idx).next ≠ some s.blocks.length :=
    fun heq => Nat.lt_irrefl _ (hnext _ heq).1
  have hlink : ∀ t : AllocatorInner, t.blocks.length = s.blocks.length + 1 →
      ∀ n, (s.block idx).next = some n → n < t.blocks.length := by
    intro t ht n hn
    have hlt := (hnext n hn).1
    omega
  have happend : ∀ i, block { s with
      blocks := s.blocks ++ [remainder (s.block idx) idx want] } i =
        if i = s.blocks.length then remainder (s.block idx) idx want else s.block i :=
    fun i => block_append rfl
  change block (relink (setBlock { s with
    blocks := s.blocks ++ [remainder (s.block idx) idx want] } idx _) _ _) k = _
  rw [block_relink (hlink _ (by rw [length_setBlock]; exact hlen _ rfl)),
    block_setBlock (by rw [hlen _ rfl]; omega), happend]
  by_cases hki : k = idx
  · subst hki
    simp [hself]
  · by_cases hkn : k = s.blocks.length
    · subst hkn
      simp [hki, hnew]
    · simp [hki, hkn]

theorem Cuttable.node_cut (hwf : Wf s) :
    (s.cut idx want).node = split s.node idx s.blocks.length want := by
  have hbounds := hwf.bounds h.active
  have hlt := h.lt
  have haddr : ((s.block idx).addr + want) % u64Size = (s.block idx).addr + want :=
    Nat.mod_eq_of_lt (by omega)
  funext k
  unfold node split
  rw [h.block_cut hwf]
  by_cases hki : k = idx
  · subst hki
    simp
  · by_cases hkn : k = s.blocks.length
    · subst hkn
      simp [hki, remainder, haddr]
    · simp only [if_neg hki, if_neg hkn]
      split
      · rfl
      · rfl

end

theorem region_cut : (s.cut idx want).region = s.region := by
  funext k
  unfold region
  rw [segments_cut, List.getElem?_modify]
  cases s.segments[k]? with
  | none => rfl
  | some seg =>
    by_cases hk : (s.block idx).segmentId = k
    · simp [hk]
    · simp [hk]

theorem not_active_length : ¬ Active s.node s.blocks.length := by
  intro h
  exact Nat.lt_irrefl _ (lt_of_size h)

theorem Cuttable.owner_cut (h : Cuttable s idx want) (hwf : Wf s) :
    ((s.cut idx want).block k).segmentId =
      if k = s.blocks.length then (s.block idx).segmentId else (s.block k).segmentId := by
  rw [h.block_cut hwf]
  by_cases hki : k = idx
  · have hlt := hwf.active_lt h.active
    rw [if_pos hki, if_neg (by omega), hki]
  · rw [if_neg hki]
    split
    · rfl
    · split
      · rfl
      · rfl

theorem Wf.cut (h : Wf s) (hcut : Cuttable s idx want) : Wf (s.cut idx want) := by
  have hnew := @not_active_length s
  have hidx : idx < s.blocks.length := h.active_lt hcut.active
  have howner := fun k => @Cuttable.owner_cut s idx k want hcut h
  have hsegments : ∀ k seg, (s.cut idx want).segments[k]? = some seg →
      ∃ old, s.segments[k]? = some old ∧ seg.baseAddr = old.baseAddr ∧ seg.total = old.total ∧
        seg.blocks = if (s.block idx).segmentId = k then old.blocks ++ [s.blocks.length]
          else old.blocks := by
    intro k seg hseg
    rw [segments_cut, List.getElem?_modify, Option.map_eq_map, Option.map_eq_some_iff] at hseg
    obtain ⟨old, hold, hseg⟩ := hseg
    refine ⟨old, hold, ?_⟩
    rw [← hseg]
    split
    · exact ⟨rfl, rfl, rfl⟩
    · exact ⟨rfl, rfl, rfl⟩
  constructor
  · -- on the nodes a cut is a split of the chain
    rw [hcut.node_cut h, region_cut]
    exact h.chain.split hcut.active hnew hcut.pos hcut.lt
  · intro i hi
    rw [hcut.block_cut h] at hi ⊢
    by_cases hii : i = idx
    · simp only [if_pos hii]
      exact hcut.pos
    · rw [if_neg hii] at hi ⊢
      by_cases hin : i = s.blocks.length
      · rw [if_pos hin] at hi
        exact absurd rfl hi
      · rw [if_neg hin] at hi ⊢
        split at hi
        · next hlink =>
            rw [if_pos hlink]
            exact h.busy i hi
        · next hlink =>
            rw [if_neg hlink]
            exact h.busy i hi
  · intro i hi
    rw [length_cut] at hi
    rw [howner, segments_cut, List.length_modify]
    split
    · exact h.owner idx hidx
    · exact h.owner i (by omega)
  · intro k seg hseg i
    obtain ⟨old, hold, _, _, hblocks⟩ := hsegments k seg hseg
    -- only the segment of the cut block gets a member
    have hmem := h.members k old hold
    rw [length_cut, howner, hblocks]
    by_cases hin : i = s.blocks.length
    · subst hin
      have hnot : s.blocks.length ∉ old.blocks := fun hin =>
        Nat.lt_irrefl _ ((hmem _).1 hin).1
      by_cases hk : (s.block idx).segmentId = k
      · simp [hk]
      · simp [hk, hnot]
    · have hlt : i < s.blocks.length + 1 ↔ i < s.blocks.length := by omega
      by_cases hk : (s.block idx).segmentId = k
      · simp [hk, hin, hmem, hlt]
      · simp [hk, hin, hmem, hlt]
  · intro k seg hseg
    obtain ⟨old, hold, hbase, htotal, _⟩ := hsegments k seg hseg
    rw [hbase, htotal]
    exact h.stop k old hold
  · intro k k' seg seg' hlt hseg hseg'
    obtain ⟨old, hold, hbase, htotal, _⟩ := hsegments k seg hseg
    obtain ⟨old', hold', hbase', _⟩ := hsegments k' seg' hseg'
    rw [hbase, htotal, hbase']
    exact h.ordered k k' old old' hlt hold hold'

/-! ## A fresh segment -/

/-- A segment at `base` would lie behind all others and inside the address space. -/
structure RoomAt (s : AllocatorInner) (base size : Nat) : Prop where
  pos : 0 < base
  stop : base + size ≤ u64Size
  behind : ∀ seg ∈ s.segments, seg.baseAddr + seg.total ≤ base

section Fresh

variable {size stream : Nat}

/-- The state after a fresh segment. -/
def withSegment (s : AllocatorInner) (size stream : Nat) : AllocatorInner :=
  (s.allocSegment size stream).1

theorem block_withSegment : (s.withSegment size stream).block k =
    if k = s.blocks.length then
      { addr := s.freshAddr size, size := size, segmentId := s.segments.length, prev := none,
        next := none, state := .inUse, recordStreams := [] }
    else
      s.block k :=
  block_append rfl

theorem getElem?_withSegment {seg : Segment} :
    (s.withSegment size stream).segments[k]? = some seg →
      (k < s.segments.length ∧ s.segments[k]? = some seg) ∨
      (k = s.segments.length ∧
        seg = { baseAddr := s.freshAddr size, total := size, blocks := [s.blocks.length],
                stream := stream }) := by
  intro h
  change (s.segments ++ [_])[k]? = some seg at h
  rw [List.getElem?_append] at h
  split at h
  · next hlt => exact Or.inl ⟨hlt, h⟩
  · next hge =>
      obtain ⟨hk, hseg⟩ := List.getElem?_eq_some_iff.1 h
      have hzero : k - s.segments.length = 0 := by simpa using hk
      refine Or.inr ⟨by omega, ?_⟩
      simpa [hzero] using hseg.symm

theorem region_withSegment (hk : k < s.segments.length) :
    (s.withSegment size stream).region k = s.region k := by
  unfold region
  change (match (s.segments ++ [_])[k]? with | none => _ | some seg => _) = _
  rw [List.getElem?_append_left hk]

theorem region_fresh : (s.withSegment size stream).region s.segments.length =
    { lo := s.freshAddr size, hi := s.freshAddr size + size } := by
  change (match (s.segments ++ [_])[s.segments.length]? with | none => _ | some seg => _) = _
  simp

theorem node_withSegment : (s.withSegment size stream).node =
    push s.node s.blocks.length
      { lo := s.freshAddr size, size := size, owner := s.segments.length, prev := none,
        next := none } := by
  funext k
  unfold node push
  rw [block_withSegment]
  split
  · rfl
  · rfl

theorem RoomAt.block_le {base : Nat} (hroom : RoomAt s base size) (h : Wf s)
    (hi : Active s.node i) : (s.block i).addr + (s.block i).size ≤ base := by
  have hlt : i < s.blocks.length := lt_of_size hi
  have hseg : s.segments[(s.block i).segmentId]? = some (s.segments.get
      ⟨(s.block i).segmentId, h.owner i hlt⟩) := List.getElem?_eq_getElem _
  have hinside := h.chain.inside i hi
  have hbehind := hroom.behind _ (List.mem_of_getElem? hseg)
  unfold region node at hinside
  simp only [hseg] at hinside
  omega

theorem Wf.withSegment (h : Wf s) (hsize : 0 < size) (hroom : RoomAt s (s.freshAddr size) size) :
    Wf (s.withSegment size stream) := by
  have hlength : (s.withSegment size stream).blocks.length = s.blocks.length + 1 :=
    List.length_append
  have hregions : ∀ i, Active s.node i →
      (s.withSegment size stream).region (s.node i).owner = s.region (s.node i).owner := by
    intro i hi
    exact region_withSegment (h.owner i (h.active_lt hi))
  constructor
  · rw [node_withSegment]
    -- the block of the new segment is a node of its own
    refine (h.chain.change_region hregions).push not_active_length rfl rfl ?_ ?_
    · intro k hk
      exact Or.inr (hroom.block_le h hk)
    · rw [region_fresh]
      exact ⟨le_refl _, le_refl _⟩
  · intro i hi
    rw [block_withSegment] at hi ⊢
    split
    · exact hsize
    · next hne =>
        rw [if_neg hne] at hi
        exact h.busy i hi
  · intro i hi
    change _ < (s.segments ++ [_]).length
    rw [List.length_append, block_withSegment]
    split
    · exact Nat.lt_succ_self _
    · exact Nat.lt_succ_of_lt (h.owner i (by omega))
  · intro k seg hseg i
    rw [hlength, block_withSegment]
    -- an old segment keeps its members, the new one has the new block only
    rcases getElem?_withSegment hseg with ⟨hk, hold⟩ | ⟨hk, hnew⟩
    · have hmem := h.members k seg hold i
      by_cases hi : i = s.blocks.length
      · rw [hmem, if_pos hi]
        simp only
        omega
      · rw [hmem, if_neg hi]
        have hlt : i < s.blocks.length + 1 ↔ i < s.blocks.length := by omega
        rw [hlt]
    · subst hk
      rw [hnew]
      by_cases hi : i = s.blocks.length
      · simp [hi]
      · rw [if_neg hi]
        have hnot : i < s.blocks.length + 1 → (s.block i).segmentId ≠ s.segments.length := by
          intro hlt
          exact Nat.ne_of_lt (h.owner i (by omega))
        simp only [List.mem_singleton, hi, false_iff, not_and]
        exact hnot
  · intro k seg hseg
    rcases getElem?_withSegment hseg with ⟨_, hold⟩ | ⟨_, hnew⟩
    · exact h.stop k seg hold
    · rw [hnew]
      exact ⟨hroom.pos, hroom.stop⟩
  · intro k k' seg seg' hlt hseg hseg'
    -- two old segments, an old one and the new one, or an order that cannot be
    rcases getElem?_withSegment hseg with ⟨hk, hold⟩ | ⟨hk, _⟩
    · rcases getElem?_withSegment hseg' with ⟨_, hold'⟩ | ⟨_, hnew'⟩
      · exact h.ordered k k' seg seg' hlt hold hold'
      · rw [hnew']
        exact hroom.behind seg (List.mem_of_getElem? hold)
    · rcases getElem?_withSegment hseg' with ⟨hk', _⟩ | ⟨hk', _⟩
      · omega
      · omega

end Fresh

/-! ## Trimming -/

theorem block_drop : (s.drop idx).block k =
    if k = idx then { s.block k with state := .free, size := 0 } else s.block k := by
  unfold drop
  by_cases hidx : idx < s.blocks.length
  · rw [block_setBlock hidx]
    split
    · next heq => rw [heq]
    · rfl
  · -- an absent block stays as it is
    have habsent : s.block idx = absent := block_of_le (Nat.le_of_not_lt hidx)
    have hset : (s.setBlock idx { s.block idx with state := .free, size := 0 }).block k =
        s.block k := by
      apply block_congr
      exact List.set_eq_of_length_le (Nat.le_of_not_lt hidx)
    rw [hset]
    split
    · next heq =>
        rw [heq, habsent]
        rfl
    · rfl

theorem block_foldl_drop (targets : List Nat) : ∀ t : AllocatorInner,
    (targets.foldl drop t).block k =
      if k ∈ targets then { t.block k with state := .free, size := 0 } else t.block k := by
  induction targets with
  | nil => simp
  | cons idx targets ih =>
    intro t
    rw [List.foldl_cons, ih, block_drop]
    by_cases hk : k = idx
    · subst hk
      simp
    · simp [hk]

theorem foldl_drop_frame (targets : List Nat) : ∀ t : AllocatorInner,
    (targets.foldl drop t).blocks.length = t.blocks.length ∧
      (targets.foldl drop t).segments = t.segments ∧
      (targets.foldl drop t).pending = t.pending := by
  induction targets with
  | nil => exact fun t => ⟨rfl, rfl, rfl⟩
  | cons idx targets ih =>
    intro t
    obtain ⟨h₁, h₂, h₃⟩ := ih (t.drop idx)
    exact ⟨h₁.trans length_setBlock, h₂, h₃⟩

/-- The blocks of the segments that a trim empties. -/
def trimmedBlocks (s : AllocatorInner) : List Nat :=
  (s.segments.filter s.allFree).flatMap Segment.blocks

theorem block_trim : s.trimFreeSegments.block k =
    if k ∈ s.trimmedBlocks then { s.block k with state := .free, size := 0 } else s.block k := by
  exact block_foldl_drop _ s

/-- The segment `k` is emptied by a trim. -/
def Trimmed (s : AllocatorInner) (k : Nat) : Prop :=
  ∃ seg, s.segments[k]? = some seg ∧ s.allFree seg = true

theorem mem_trimmedBlocks (h : Wf s) :
    i ∈ s.trimmedBlocks ↔ i < s.blocks.length ∧ s.Trimmed (s.block i).segmentId := by
  unfold trimmedBlocks Trimmed
  rw [List.mem_flatMap]
  constructor
  · rintro ⟨seg, hseg, hi⟩
    obtain ⟨hmem, hfree⟩ := List.mem_filter.1 hseg
    obtain ⟨k, hk⟩ := List.mem_iff_getElem?.1 hmem
    obtain ⟨hlt, howner⟩ := (h.members k seg hk i).1 hi
    rw [howner]
    exact ⟨hlt, seg, hk, hfree⟩
  · rintro ⟨hlt, seg, hk, hfree⟩
    exact ⟨seg, List.mem_filter.2 ⟨List.mem_of_getElem? hk, hfree⟩,
      (h.members _ seg hk i).2 ⟨hlt, rfl⟩⟩

theorem state_of_trimmed : i ∈ s.trimmedBlocks → (s.block i).state = .free := by
  intro hi
  obtain ⟨seg, hseg, hi⟩ := List.mem_flatMap.1 hi
  have hall := List.all_eq_true.1 (List.mem_filter.1 hseg).2 i hi
  exact (of_decide_eq_true hall).1

theorem sameBusy_trim : SameBusy s s.trimFreeSegments := by
  obtain ⟨hlength, hsegments, hpending⟩ := foldl_drop_frame s.trimmedBlocks s
  have hkeep : ∀ {α : Type} (field : Block → α),
      (∀ i, i ∈ s.trimmedBlocks →
        field { s.block i with state := .free, size := 0 } = field (s.block i)) →
      ∀ i, field (s.trimFreeSegments.block i) = field (s.block i) := by
    intro α field h i
    rw [block_trim]
    split
    · next hi => exact h i hi
    · rfl
  constructor
  · exact hlength
  · exact hsegments
  · exact hpending
  · exact hkeep addr (fun _ _ => rfl)
  · exact hkeep state (fun i hi => (state_of_trimmed hi).symm)
  · exact hkeep recordStreams (fun _ _ => rfl)
  · exact hkeep segmentId (fun _ _ => rfl)
  · intro i hi
    rw [block_trim, if_neg (fun hin => hi (state_of_trimmed hin))]
  · intro i hi
    rw [block_trim]
    split
    · rfl
    · exact hi

theorem not_active_of_trimmed (h : Wf s) (hk : s.Trimmed (s.block i).segmentId) :
    ¬ Active s.trimFreeSegments.node i := by
  intro hactive
  have hlt : i < s.blocks.length := by
    rw [← sameBusy_trim.length]
    exact lt_of_size hactive
  have hzero : (s.trimFreeSegments.block i).size = 0 := by
    rw [block_trim, if_pos ((mem_trimmedBlocks h).2 ⟨hlt, hk⟩)]
  exact absurd hactive (Nat.not_lt.2 hzero.le)

theorem Wf.trim (h : Wf s) : Wf s.trimFreeSegments := by
  have hkeep : ∀ k, ¬ s.Trimmed (s.node k).owner → s.trimFreeSegments.node k = s.node k := by
    intro k hk
    unfold node
    rw [block_trim, if_neg (fun hin => hk ((mem_trimmedBlocks h).1 hin).2)]
  apply h.of_sameBusy sameBusy_trim
  exact h.chain.clear (fun k hactive hk => not_active_of_trimmed h hk hactive) hkeep

end AllocatorInner
end Cuda
end Rustorch
