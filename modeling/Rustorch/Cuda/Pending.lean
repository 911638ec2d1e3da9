import Rustorch.Cuda.Calls
import Rustorch.Lib.Runs
import Rustorch.Lib.TableView

/-!
# Blocks that wait for streams

A caller's history of the allocations it holds, the streams they were recorded on, and the freed
ones that still wait for a stream.  Along every run whose allocations meet `Guard` the allocator
keeps back exactly the blocks that wait, and each leaves with the last stream it waits for.
-/

namespace Rustorch
namespace Cuda

open IntervalChain AllocatorInner TableView List Function Block Runs

/-- An allocation that is held, with the streams it was recorded on. -/
structure Held where
  ptr : DevPtr
  streams : List Nat
  deriving DecidableEq

/-- A freed allocation, with the recorded streams that were not synchronized since. -/
structure Parked where
  ptr : DevPtr
  waiting : Finset Nat
  deriving DecidableEq

/-- The stream is synchronized; an allocation that waits for no other is released. -/
def Parked.finish (stream : Nat) (p : Parked) : Option Parked :=
  if p.waiting.erase stream = ∅ then none
  else some { p with waiting := p.waiting.erase stream }

structure History where
  inner : AllocatorInner
  held : List Held
  parked : List Parked

namespace History

def new : History where
  inner := AllocatorInner.new
  held := []
  parked := []

/-- The held allocation at an address. -/
def lookup (h : History) (addr : Nat) : Option Held :=
  h.held.find? (fun x => x.ptr.addr = addr)

/-- What a call and its reply change for the caller. -/
def note (h : History) : Call → Reply → List Held × List Parked
  | .alloc size _, .ptr (.ok p) =>
    (if size = 0 then h.held else { ptr := p, streams := [] } :: h.held, h.parked)
  | .recordStream ptr stream, .done (.ok _) =>
    match h.lookup ptr.addr with
    | none => (h.held, h.parked)
    | some x => ({ x with streams := x.streams ++ [stream] } :: h.held.erase x, h.parked)
  | .free ptr, .done (.ok _) =>
    if ptr.size = 0 then (h.held, h.parked)
    else
      match h.lookup ptr.addr with
      | none => (h.held, h.parked)
      | some x =>
        (h.held.erase x,
          if x.streams = [] then h.parked
          else { ptr := x.ptr, waiting := x.streams.toFinset } :: h.parked)
  | .synchronizeStream stream, _ => (h.held, h.parked.filterMap (Parked.finish stream))
  | _, _ => (h.held, h.parked)

def step (h : History) (call : Call) : History where
  inner := (h.inner.answer call).1
  held := (h.note call (h.inner.answer call).2).1
  parked := (h.note call (h.inner.answer call).2).2

/-- Sizes up to `2^63`; the block in front of the queue is free and not empty; a fresh segment starts
behind the earlier ones, inside the address space. -/
def Guard (h : History) : Call → Prop
  | .alloc size stream => size ≠ 0 → size ≤ 2 ^ 63 ∧
      (∀ idx ∈ h.inner.front stream (binIndex size),
        (h.inner.block idx).state = .free ∧ 0 < (h.inner.block idx).size) ∧
      (OutOfBlocks h.inner size stream →
        h.inner.nextSynthAddr + (roundUpPow2 size + 0x1000) < u64Size ∧
        h.inner.freshAddr (roundUpPow2 size) + roundUpPow2 size ≤ u64Size ∧
        ∀ seg ∈ h.inner.segments,
          seg.baseAddr + seg.total ≤ h.inner.freshAddr (roundUpPow2 size))
  | _ => True

end History

/-! ## What the blocks show -/

def Block.ptr (b : Block) : DevPtr where
  addr := b.addr
  size := b.size

def Block.held (b : Block) : Option Held :=
  if b.state = .inUse then some { ptr := b.ptr, streams := b.recordStreams } else none

def Block.parked (b : Block) : Option Parked :=
  if b.state = .freePending then some { ptr := b.ptr, waiting := b.recordStreams.toFinset }
  else none

/-- What a block in use shows. -/
def heldAt (s : AllocatorInner) (idx : Nat) : Held where
  ptr := s.devPtr idx
  streams := (s.block idx).recordStreams

/-- What a block shows that waits for the streams it was recorded on. -/
def parkedAt (s : AllocatorInner) (idx : Nat) : Parked where
  ptr := s.devPtr idx
  waiting := (s.block idx).recordStreams.toFinset

/-- A block that is held or parked looks the same. -/
structure SameRole (b b' : Block) : Prop where
  state : b'.state = b.state
  streams : b'.recordStreams = b.recordStreams
  ptr : b.state ≠ .free → b'.ptr = b.ptr

section Roles

variable {s t : AllocatorInner} {b b' : Block} {idx : Nat} {pending pending' : Nat → List Nat}

theorem held_of_free (h : b.state = .free) : b.held = none := by
  unfold Block.held
  rw [h, if_neg (by decide)]

theorem parked_of_free (h : b.state = .free) : b.parked = none := by
  unfold Block.parked
  rw [h, if_neg (by decide)]

theorem held_of_inUse (h : (s.block idx).state = .inUse) :
    (s.block idx).held = some (heldAt s idx) := by
  unfold Block.held
  rw [if_pos h]
  rfl

theorem parked_of_inUse (h : b.state = .inUse) : b.parked = none := by
  unfold Block.parked
  rw [h, if_neg (by decide)]

theorem held_of_freePending (h : b.state = .freePending) : b.held = none := by
  unfold Block.held
  rw [h, if_neg (by decide)]

theorem parked_of_freePending (h : (s.block idx).state = .freePending) :
    (s.block idx).parked = some (parkedAt s idx) := by
  unfold Block.parked
  rw [if_pos h]
  rfl

theorem SameRole.refl (b : Block) : SameRole b b :=
  ⟨rfl, rfl, fun _ => rfl⟩

/-- A view of the blocks that looks at held and parked ones only. -/
structure Sees {β : Type} (f : Block → Option β) : Prop where
  absent : f absent = none
  role : ∀ b b', SameRole b b' → f b' = f b

theorem SameRole.trans {b'' : Block} (h : SameRole b b') (h' : SameRole b' b'') :
    SameRole b b'' where
  state := h'.state.trans h.state
  streams := h'.streams.trans h.streams
  ptr hstate := (h'.ptr (by rwa [h.state])).trans (h.ptr hstate)

theorem sees_held : Sees Block.held where
  absent := rfl
  role b b' h := by
    unfold Block.held
    rw [h.state, h.streams]
    split
    · next hstate => rw [h.ptr (by rw [hstate]; decide)]
    · rfl

theorem sees_parked : Sees Block.parked where
  absent := rfl
  role b b' h := by
    unfold Block.parked
    rw [h.state, h.streams]
    split
    · next hstate => rw [h.ptr (by rw [hstate]; decide)]
    · rfl

/-- Every block but `idx` plays the role it played. -/
def SameOthers (s t : AllocatorInner) (idx : Nat) : Prop :=
  ∀ i, i ≠ idx → SameRole (s.block i) (t.block i)

section Sees

variable {β : Type} {f : Block → Option β} {x y : β}

theorem Sees.congr (hf : Sees f) (hroles : SameOthers s t idx)
    (hidx : f (t.block idx) = f (s.block idx)) : t.blocks.filterMap f = s.blocks.filterMap f := by
  apply view_congr hf.absent
  intro i
  by_cases hi : i = idx
  · rw [hi]
    exact hidx
  · exact hf.role _ _ (hroles i hi)

theorem Sees.gain (hf : Sees f) (hroles : SameOthers s t idx)
    (hold : f (s.block idx) = none) (hnew : f (t.block idx) = some x) :
    (t.blocks.filterMap f).Perm (x :: s.blocks.filterMap f) :=
  view_gain hf.absent (fun i hi => hf.role _ _ (hroles i hi)) hold hnew

theorem Sees.lose (hf : Sees f) (hroles : SameOthers s t idx)
    (hold : f (s.block idx) = some x) (hnew : f (t.block idx) = none) :
    (s.blocks.filterMap f).Perm (x :: t.blocks.filterMap f) :=
  view_lose hf.absent (fun i hi => hf.role _ _ (hroles i hi)) hold hnew

theorem Sees.change (hf : Sees f) (hroles : SameOthers s t idx)
    (hold : f (s.block idx) = some x) (hnew : f (t.block idx) = some y) :
    ∃ rest, (s.blocks.filterMap f).Perm (x :: rest) ∧ (t.blocks.filterMap f).Perm (y :: rest) :=
  view_change hf.absent (fun i hi => hf.role _ _ (hroles i hi)) hold hnew

end Sees

theorem AllocatorInner.SameBusy.sameRole (h : SameBusy s t) (i : Nat) : SameRole (s.block i) (t.block i) :=
  ⟨h.state i, h.streams i, h.devPtr⟩

theorem AllocatorInner.Takes.sameRole (h : Takes s t idx) : SameOthers s t idx :=
  fun i hi => ⟨(h.others i hi).1, (h.others i hi).2, h.places i hi⟩

theorem AllocatorInner.Releases.sameRole (h : Releases s t idx) : SameOthers s t idx :=
  fun i hi => ⟨h.others i hi, h.streams i, h.places i hi⟩

/-- The pending lists hold each parked block once for each record of the stream. -/
structure Waits (pending : Nat → List Nat) (s : AllocatorInner) : Prop where
  count : ∀ i stream, (pending stream).count i =
    if (s.block i).state = .freePending then (s.block i).recordStreams.count stream else 0
  streams : ∀ i, (s.block i).state = .freePending → (s.block i).recordStreams ≠ []

/-- Where the others stay as they are, the changed block is all that is left to check. -/
theorem Waits.edit (h : Waits pending s) (hroles : SameOthers s t idx)
    (hothers : ∀ i stream, i ≠ idx → (pending' stream).count i = (pending stream).count i)
    (hcount : ∀ stream, (pending' stream).count idx =
      if (t.block idx).state = .freePending then (t.block idx).recordStreams.count stream else 0)
    (hstreams : (t.block idx).state = .freePending → (t.block idx).recordStreams ≠ []) :
    Waits pending' t := by
  constructor
  · intro i stream
    by_cases hi : i = idx
    · rw [hi, hcount]
    · rw [hothers i stream hi, (hroles i hi).state, (hroles i hi).streams]
      exact h.count i stream
  · intro i hstate
    by_cases hi : i = idx
    · rw [hi] at hstate ⊢
      exact hstreams hstate
    · rw [(hroles i hi).state] at hstate
      rw [(hroles i hi).streams]
      exact h.streams i hstate

theorem Waits.edit_other (h : Waits pending s) (hroles : SameOthers s t idx)
    (hold : (s.block idx).state ≠ .freePending) (hnew : (t.block idx).state ≠ .freePending) :
    Waits pending t := by
  apply h.edit hroles (fun _ _ _ => rfl)
  · intro stream
    rw [h.count, if_neg hold, if_neg hnew]
  · exact fun hstate => absurd hstate hnew

theorem Waits.congr (h : Waits pending s) (hroles : ∀ i, SameRole (s.block i) (t.block i)) :
    Waits pending t := by
  constructor
  · intro i stream
    rw [(hroles i).state, (hroles i).streams]
    exact h.count i stream
  · intro i hstate
    rw [(hroles i).state] at hstate
    rw [(hroles i).streams]
    exact h.streams i hstate

end Roles

/-! ## The invariant -/

namespace History

variable {h : History} {t : AllocatorInner} {idx : Nat} {call : Call}

/-- The history is what the blocks show, and the pending lists hold what is parked. -/
structure Faithful (h : History) : Prop where
  wf : Wf h.inner
  waits : Waits h.inner.pending h.inner
  held : h.held.Perm (h.inner.blocks.filterMap Block.held)
  parked : h.parked.Perm (h.inner.blocks.filterMap Block.parked)

theorem faithful_new : Faithful new where
  wf := wf_new
  waits := ⟨fun _ _ => rfl, fun _ hstate => by cases hstate⟩
  held := Perm.refl _
  parked := Perm.refl _

theorem Faithful.mem_held (hf : Faithful h) {x : Held} :
    x ∈ h.held ↔ ∃ i, (h.inner.block i).held = some x := by
  rw [hf.held.mem_iff]
  exact mem_view rfl

theorem mem_parked {s : AllocatorInner} {q : Parked} :
    q ∈ s.blocks.filterMap Block.parked ↔
      ∃ i, (s.block i).state = .freePending ∧ q = parkedAt s i := by
  rw [@mem_view _ _ absent _ _ rfl]
  constructor
  · rintro ⟨i, hshow⟩
    have hstate : (s.block i).state = .freePending := by
      by_contra hne
      unfold block at hne
      unfold Block.parked at hshow
      rw [if_neg hne] at hshow
      cases hshow
    have hparked := parked_of_freePending hstate
    exact ⟨i, hstate, Option.some.inj (hshow.symm.trans hparked)⟩
  · rintro ⟨i, hstate, rfl⟩
    exact ⟨i, parked_of_freePending hstate⟩

section

variable (hf : Faithful h)

include hf

theorem Faithful.lookup_block (hstate : (h.inner.block idx).state = .inUse) :
    h.lookup (h.inner.block idx).addr = some (heldAt h.inner idx) := by
  have hmem := hf.mem_held.2 ⟨idx, held_of_inUse hstate⟩
  cases hfind : h.lookup (h.inner.block idx).addr with
  | none =>
    have hmiss := find?_eq_none.1 hfind _ hmem
    simp [heldAt, devPtr] at hmiss
  | some y =>
    obtain ⟨hy, haddr⟩ := And.intro (mem_of_find?_eq_some hfind) (find?_some hfind)
    obtain ⟨i, hi⟩ := hf.mem_held.1 hy
    unfold Block.held at hi
    split at hi
    · next histate =>
        have heq : (h.inner.block i).addr = (h.inner.block idx).addr := by
          cases hi
          exact of_decide_eq_true haddr
        -- both blocks are in use, so they are the same
        have hsame : i = idx := by
          apply hf.wf.addr_inj _ _ heq
          · exact hf.wf.busy i (by rw [histate]; decide)
          · exact hf.wf.busy idx (by rw [hstate]; decide)
        rw [← hsame, ← hi]
        rfl
    · cases hi

/-! ## Taking a block -/

theorem Faithful.of_takes (htakes : Takes h.inner t idx) (hfree : (h.inner.block idx).state = .free)
    :
    Faithful { inner := t, held := { ptr := t.devPtr idx, streams := [] } :: h.held,
               parked := h.parked } := by
  have hroles := htakes.sameRole
  constructor
  · exact htakes.wf
  · rw [htakes.pending]
    apply hf.waits.edit_other hroles
    · rw [hfree]
      decide
    · rw [htakes.state]
      decide
  · have hnew : (t.block idx).held = some { ptr := t.devPtr idx, streams := [] } := by
      rw [held_of_inUse htakes.state]
      unfold heldAt
      rw [htakes.streams]
    exact (hf.held.cons _).trans
      (sees_held.gain hroles (held_of_free hfree) hnew).symm
  · have hsame := sees_parked.congr hroles
      ((parked_of_inUse htakes.state).trans (parked_of_free hfree).symm)
    exact hf.parked.trans (Perm.of_eq hsame.symm)

/-! ## Recording and freeing -/

theorem Faithful.held_erase {x : Held} (hroles : SameOthers h.inner t idx)
    (hold : (h.inner.block idx).held = some x) (hnew : (t.block idx).held = none) :
    (h.held.erase x).Perm (t.blocks.filterMap Block.held) := by
  have hperm := (hf.held.trans (sees_held.lose hroles hold hnew)).erase x
  rwa [erase_cons_head] at hperm

theorem Faithful.held_change {x y : Held} (hroles : SameOthers h.inner t idx)
    (hold : (h.inner.block idx).held = some x) (hnew : (t.block idx).held = some y) :
    (y :: h.held.erase x).Perm (t.blocks.filterMap Block.held) := by
  obtain ⟨rest, hs, ht⟩ := sees_held.change hroles hold hnew
  have hperm := (hf.held.trans hs).erase x
  rw [erase_cons_head] at hperm
  exact (hperm.cons y).trans ht.symm

theorem Faithful.of_releases (hrel : Releases h.inner t idx)
    (hstate : (h.inner.block idx).state = .inUse) :
    Faithful { inner := t,
               held := h.held.erase (heldAt h.inner idx),
               parked := h.parked } := by
  have hroles := hrel.sameRole
  constructor
  · exact hrel.wf
  · rw [hrel.pending]
    apply hf.waits.edit_other hroles
    · rw [hstate]
      decide
    · rw [hrel.state]
      decide
  · exact hf.held_erase hroles (held_of_inUse hstate) (held_of_free hrel.state)
  · have hsame := sees_parked.congr hroles
      ((parked_of_free hrel.state).trans (parked_of_inUse hstate).symm)
    exact hf.parked.trans (Perm.of_eq hsame.symm)

end

theorem addPending_count (streams : List Nat) : ∀ (pending : Nat → List Nat) (stream i : Nat),
    ((streams.foldl (addPending idx) pending) stream).count i =
      (pending stream).count i + if i = idx then streams.count stream else 0 := by
  induction streams with
  | nil => simp
  | cons k streams ih =>
    intro pending stream i
    rw [foldl_cons, ih]
    unfold addPending
    by_cases hk : stream = k
    · subst hk
      by_cases hi : i = idx
      · subst hi
        simp
        omega
      · simp [hi, Ne.symm hi]
    · by_cases hi : i = idx
      · subst hi
        simp [hk, Ne.symm hk]
      · simp [hk, hi]

theorem Faithful.of_parks (hf : Faithful h) (hparks : Parks h.inner t idx)
    (hstate : (h.inner.block idx).state = .inUse)
    (hstreams : (h.inner.block idx).recordStreams ≠ []) :
    Faithful { inner := t,
               held := h.held.erase (heldAt h.inner idx),
               parked := parkedAt h.inner idx :: h.parked } := by
  have hidx : idx < h.inner.blocks.length := lt_of_state (by rw [hstate]; decide)
  have hblock : ∀ i, t.block i =
      if i = idx then { h.inner.block idx with state := .freePending } else h.inner.block i := by
    intro i
    rw [block_congr hparks.blocks]
    exact block_setBlock hidx
  have hroles : SameOthers h.inner t idx := by
    intro i hi
    rw [hblock, if_neg hi]
    exact SameRole.refl _
  have hnew : t.block idx = { h.inner.block idx with state := .freePending } := by
    rw [hblock, if_pos rfl]
  have hpending : (t.block idx).state = .freePending := by
    rw [hnew]
  constructor
  · have hplace : SamePlace (h.inner.block idx)
        { h.inner.block idx with state := .freePending } := ⟨rfl, rfl, rfl, rfl, rfl⟩
    have hactive := hf.wf.busy idx (by rw [hstate]; decide)
    exact (hf.wf.setBlock hidx hplace (fun _ => hactive)).congr hparks.blocks hparks.segments
  · apply hf.waits.edit hroles
    · intro i stream hi
      rw [hparks.pending, addPending_count, if_neg hi]
      rfl
    · intro stream
      rw [hparks.pending, addPending_count, if_pos rfl, hf.waits.count, hstate, hnew]
      simp
    · rw [hnew]
      exact fun _ => hstreams
  · exact hf.held_erase hroles (held_of_inUse hstate) (held_of_freePending hpending)
  · have hshow : (t.block idx).parked = some (parkedAt h.inner idx) := by
      rw [parked_of_freePending hpending]
      unfold parkedAt devPtr
      rw [hnew]
    exact (hf.parked.cons _).trans
      (sees_parked.gain hroles (parked_of_inUse hstate) hshow).symm

theorem Faithful.free (hf : Faithful h) (ptr : DevPtr) : Faithful (h.step (.free ptr)) := by
  rcases free_cases hf.wf ptr with ⟨hsize, heq⟩ | ⟨_, e, heq⟩ | ⟨hsize, t, idx, heq, haddr, hstate, hcase⟩
  · have hstep : h.step (.free ptr) = h := by
      unfold History.step answer
      simp [heq, note, hsize]
    rwa [hstep]
  · have hstep : h.step (.free ptr) = h := by
      unfold History.step answer
      simp [heq, note]
    rwa [hstep]
  · have hlookup := hf.lookup_block hstate
    rw [haddr] at hlookup
    rcases hcase with ⟨hstreams, hrel⟩ | ⟨hstreams, hparks⟩
    · have hstep : h.step (.free ptr) =
          { inner := t, held := h.held.erase (heldAt h.inner idx), parked := h.parked } := by
        unfold History.step answer
        simp [heq, note, hsize, hlookup, heldAt, hstreams]
      rw [hstep]
      exact hf.of_releases hrel hstate
    · have hstep : h.step (.free ptr) =
          { inner := t, held := h.held.erase (heldAt h.inner idx),
            parked := parkedAt h.inner idx :: h.parked } := by
        unfold History.step answer
        simp [heq, note, hsize, hlookup, heldAt, parkedAt, hstreams]
      rw [hstep]
      exact hf.of_parks hparks hstate hstreams

theorem Faithful.recordStream (hf : Faithful h) (ptr : DevPtr) (stream : Nat) :
    Faithful (h.step (.recordStream ptr stream)) := by
  cases hfind : h.inner.findInUse ptr.addr with
  | none =>
    -- an unknown pointer is ignored
    have hstep : h.step (.recordStream ptr stream) = h := by
      unfold History.step answer AllocatorInner.recordStream
      simp [hfind, note]
    rwa [hstep]
  | some idx =>
    obtain ⟨haddr, hstate⟩ := findInUse_some hfind
    -- the block in use is the grant of the ledger, and gets one stream more
    have hlookup := hf.lookup_block hstate
    rw [haddr] at hlookup
    have hidx : idx < h.inner.blocks.length := lt_of_state (by rw [hstate]; decide)
    let b : Block := { h.inner.block idx with
      recordStreams := (h.inner.block idx).recordStreams ++ [stream] }
    have hblock : ∀ i, (h.inner.setBlock idx b).block i =
        if i = idx then b else h.inner.block i := fun i => block_setBlock hidx
    have hroles : SameOthers h.inner (h.inner.setBlock idx b) idx := by
      intro i hi
      rw [hblock, if_neg hi]
      exact SameRole.refl _
    have hnew : (h.inner.setBlock idx b).block idx = b := by
      rw [hblock, if_pos rfl]
    have hstep : h.step (.recordStream ptr stream) =
        { inner := h.inner.setBlock idx b,
          held := { heldAt h.inner idx with
            streams := (heldAt h.inner idx).streams ++ [stream] } ::
              h.held.erase (heldAt h.inner idx),
          parked := h.parked } := by
      unfold History.step answer AllocatorInner.recordStream
      simp [hfind, note, hlookup, b]
    rw [hstep]
    have hactive := hf.wf.busy idx (by rw [hstate]; decide)
    constructor
    · exact hf.wf.setBlock hidx ⟨rfl, rfl, rfl, rfl, rfl⟩ (fun _ => hactive)
    · apply hf.waits.edit_other hroles
      · rw [hstate]
        decide
      · rw [hnew]
        rw [hstate]
        decide
    · apply hf.held_change hroles (held_of_inUse hstate)
      rw [hnew]
      exact if_pos hstate
    · have hnone : b.parked = none := parked_of_inUse hstate
      have hsame := sees_parked.congr hroles (by
        rw [hnew, hnone, parked_of_inUse hstate])
      exact hf.parked.trans (Perm.of_eq hsame.symm)

/-! ## Synchronizing a stream -/

/-- The parked allocations that wait for this stream only. -/
def lastFor (stream : Nat) (p : Parked) : Bool :=
  (p.finish stream).isNone

/-- One drained entry of a pending list, whose rest is still to come. -/
structure Drained (stream : Nat) (s : AllocatorInner) (n : Nat) (t : AllocatorInner) (m : Nat) :
    Prop where
  wf : Wf t
  pending : t.pending = s.pending
  held : t.blocks.filterMap Block.held = s.blocks.filterMap Block.held
  finish : ((t.blocks.filterMap Block.parked).filterMap (Parked.finish stream)).Perm
    ((s.blocks.filterMap Block.parked).filterMap (Parked.finish stream))
  released : m + (t.blocks.filterMap Block.parked).countP (lastFor stream) =
    n + (s.blocks.filterMap Block.parked).countP (lastFor stream)

section Drain

variable {s : AllocatorInner} {stream n : Nat} {drained : List Nat}

theorem waits_head (hw : Waits (update s.pending stream (idx :: drained)) s) :
    (s.block idx).state = .freePending ∧ stream ∈ (s.block idx).recordStreams := by
  have hcount := hw.count idx stream
  rw [update_self, count_cons_self] at hcount
  split at hcount
  · next hstate =>
      refine ⟨hstate, ?_⟩
      apply count_pos_iff.1
      rw [← hcount]
      exact Nat.succ_pos _
  · cases hcount

/-- Taking one record off leaves one entry less to drain. -/
theorem waits_drain (hw : Waits (update s.pending stream (idx :: drained)) s)
    (hroles : SameOthers s t idx)
    (hpending : t.pending = s.pending)
    (hstreams : (t.block idx).recordStreams = (s.block idx).recordStreams.erase stream)
    (hstate : (t.block idx).state = .freePending ↔
      (s.block idx).recordStreams.erase stream ≠ []) :
    Waits (update t.pending stream drained) t := by
  obtain ⟨hparked, hmem⟩ := waits_head hw
  apply hw.edit hroles
  · intro i k hi
    rw [hpending]
    by_cases hk : k = stream
    · subst hk
      rw [update_self, update_self, count_cons_of_ne (Ne.symm hi)]
    · rw [update_of_ne hk, update_of_ne hk]
  · intro k
    have hcount := hw.count idx k
    rw [if_pos hparked] at hcount
    -- a block that is released has no record left
    have hleft : (if (t.block idx).state = .freePending then (t.block idx).recordStreams.count k
        else 0) = ((s.block idx).recordStreams.erase stream).count k := by
      rw [hstreams]
      split
      · rfl
      · next hne =>
          have hnil := not_not.1 (fun h => hne (hstate.2 h))
          rw [hnil]
          rfl
    rw [hleft, hpending]
    by_cases hk : k = stream
    · subst hk
      rw [update_self, count_cons_self] at hcount
      rw [update_self, count_erase_self, ← hcount]
      rfl
    · rw [update_of_ne hk] at hcount
      rw [update_of_ne hk, count_erase_of_ne hk, hcount]
  · intro h
    rw [hstreams]
    exact hstate.1 h

theorem finish_eq_none {p : Parked} : p.finish stream = none ↔ p.waiting.erase stream = ∅ := by
  unfold Parked.finish
  split
  · next h => exact ⟨fun _ => h, fun _ => rfl⟩
  · next h => exact ⟨fun heq => (by cases heq), fun heq => absurd heq h⟩

theorem finish_congr {p q : Parked} (hptr : p.ptr = q.ptr)
    (hwaiting : p.waiting.erase stream = q.waiting.erase stream) :
    p.finish stream = q.finish stream := by
  unfold Parked.finish
  rw [hptr, hwaiting]

theorem toFinset_erase (streams : List Nat) :
    (streams.erase stream).toFinset.erase stream = streams.toFinset.erase stream := by
  ext k
  rw [Finset.mem_erase, Finset.mem_erase, mem_toFinset, mem_toFinset]
  constructor
  · exact fun h => ⟨h.1, mem_of_mem_erase h.2⟩
  · exact fun h => ⟨h.1, (mem_erase_of_ne h.1).2 h.2⟩

theorem drained_of_last (hwf : Wf t) (hpending : t.pending = s.pending)
    (hroles : SameOthers s t idx)
    (hstate : (s.block idx).state = .freePending) (hfree : (t.block idx).state = .free)
    (hlast : (s.block idx).recordStreams.erase stream = []) : Drained stream s n t (n + 1) := by
  have hfinish : (parkedAt s idx).finish stream = none := by
    apply finish_eq_none.2
    change (s.block idx).recordStreams.toFinset.erase stream = ∅
    rw [← toFinset_erase, hlast]
    rfl
  have hperm := sees_parked.lose hroles (parked_of_freePending hstate) (parked_of_free hfree)
  constructor
  · exact hwf
  · exact hpending
  · exact sees_held.congr hroles
      ((held_of_free hfree).trans (held_of_freePending hstate).symm)
  · have hfin := hperm.filterMap (Parked.finish stream)
    rw [filterMap_cons_none hfinish] at hfin
    exact hfin.symm
  · have hlastFor : lastFor stream (parkedAt s idx) = true := by
      unfold lastFor
      rw [hfinish]
      rfl
    rw [hperm.countP_eq, countP_cons_of_pos hlastFor]
    omega

theorem drained_of_more (hwf : Wf t) (hpending : t.pending = s.pending)
    (hroles : SameOthers s t idx)
    (hstate : (s.block idx).state = .freePending) (hstay : (t.block idx).state = .freePending)
    (hptr : t.devPtr idx = s.devPtr idx)
    (hstreams : (t.block idx).recordStreams = (s.block idx).recordStreams.erase stream) :
    Drained stream s n t n := by
  have hfinish : (parkedAt s idx).finish stream = (parkedAt t idx).finish stream := by
    apply finish_congr
    · exact hptr.symm
    · unfold parkedAt
      rw [hstreams]
      exact (toFinset_erase _).symm
  obtain ⟨rest, hs, ht⟩ := sees_parked.change hroles (parked_of_freePending hstate)
    (parked_of_freePending hstay)
  constructor
  · exact hwf
  · exact hpending
  · exact sees_held.congr hroles
      ((held_of_freePending hstay).trans (held_of_freePending hstate).symm)
  · have hfs := hs.filterMap (Parked.finish stream)
    have hft := ht.filterMap (Parked.finish stream)
    rw [filterMap_cons] at hfs hft
    rw [hfinish] at hfs
    exact hft.trans hfs.symm
  · rw [hs.countP_eq, ht.countP_eq, countP_cons, countP_cons]
    unfold lastFor
    rw [hfinish]

theorem drainOne_spec (hwf : Wf s) (hw : Waits (update s.pending stream (idx :: drained)) s) :
    ∃ t m, drainOne stream (s, n) idx = (t, m) ∧ Drained stream s n t m ∧
      Waits (update t.pending stream drained) t := by
  obtain ⟨hstate, _⟩ := waits_head hw
  have hidx : idx < s.blocks.length := lt_of_state (by rw [hstate]; decide)
  -- `b` is the block after its event on `stream` has passed
  let b : Block := { s.block idx with recordStreams := (s.block idx).recordStreams.erase stream }
  have hblock : ∀ i, (s.setBlock idx b).block i = if i = idx then b else s.block i :=
    fun i => block_setBlock hidx
  have hroles : SameOthers s (s.setBlock idx b) idx := by
    intro i hi
    rw [hblock, if_neg hi]
    exact SameRole.refl _
  have hnew : (s.setBlock idx b).block idx = b := by
    rw [hblock, if_pos rfl]
  have hmark : Wf (s.setBlock idx b) :=
    hwf.setBlock hidx ⟨rfl, rfl, rfl, rfl, rfl⟩ (fun _ => hwf.busy idx (by rw [hstate]; decide))
  have hstay : ((s.setBlock idx b).block idx).state = .freePending := by
    rw [hnew]
    exact hstate
  have hleft : ((s.setBlock idx b).block idx).recordStreams =
      (s.block idx).recordStreams.erase stream := by
    rw [hnew]
  change ∃ t m, (if ((s.setBlock idx b).block idx).recordStreams = [] ∧
      ((s.setBlock idx b).block idx).state = .freePending then
        (((s.setBlock idx b).marked idx).coalesceAndReturn idx, n + 1)
      else (s.setBlock idx b, n)) = (t, m) ∧ _
  by_cases hlast : (s.block idx).recordStreams.erase stream = []
  · -- the last event of the block has passed: it goes to the free bins
    have hrel := releases_coalesce hmark (hmark.busy idx (by rw [hstay]; decide))
      (SameTable.refl ((s.setBlock idx b).marked idx))
    have hrolest : ∀ i, i ≠ idx → SameRole (s.block i)
        ((((s.setBlock idx b).marked idx).coalesceAndReturn idx).block i) :=
      fun i hi => (hroles i hi).trans (hrel.sameRole i hi)
    rw [if_pos ⟨hleft.trans hlast, hstay⟩]
    refine ⟨_, _, rfl, ?_, ?_⟩
    · exact drained_of_last hrel.wf hrel.pending hrolest hstate hrel.state hlast
    · apply waits_drain hw hrolest hrel.pending
      · rw [hrel.streams, hleft]
      · rw [hrel.state, hlast]
        exact ⟨fun h => (by cases h), fun h => absurd rfl h⟩
  · -- other streams still use the block, so it stays parked
    rw [if_neg (fun h => hlast (hleft.symm.trans h.1))]
    refine ⟨_, _, rfl, ?_, ?_⟩
    · have hptr : (s.setBlock idx b).devPtr idx = s.devPtr idx := by
        unfold devPtr
        rw [hnew]
      have hkeep : (s.setBlock idx b).pending = s.pending := rfl
      exact drained_of_more hmark hkeep hroles hstate hstay hptr hleft
    · apply waits_drain hw hroles rfl hleft
      exact ⟨fun _ => hlast, fun _ => hstay⟩

theorem Drained.trans {t u : AllocatorInner} {m k : Nat} (h : Drained stream s n t m)
    (h' : Drained stream t m u k) : Drained stream s n u k where
  wf := h'.wf
  pending := h'.pending.trans h.pending
  held := h'.held.trans h.held
  finish := h'.finish.trans h.finish
  released := h'.released.trans h.released

theorem drain_spec (drained : List Nat) : ∀ (s : AllocatorInner) (n : Nat), Wf s →
    Waits (update s.pending stream drained) s →
      ∃ t m, drained.foldl (drainOne stream) (s, n) = (t, m) ∧ Drained stream s n t m ∧
        Waits (update t.pending stream []) t := by
  induction drained with
  | nil => exact fun s n hwf hw => ⟨s, n, rfl, ⟨hwf, rfl, rfl, Perm.refl _, rfl⟩, hw⟩
  | cons idx drained ih =>
    intro s n hwf hw
    obtain ⟨t, m, hone, hdrained, hrest⟩ := @drainOne_spec idx s stream n drained hwf hw
    obtain ⟨u, k, hfold, hdrained', hw'⟩ := ih t m hdrained.wf hrest
    refine ⟨u, k, ?_, hdrained.trans hdrained', hw'⟩
    rw [foldl_cons, hone, hfold]

theorem finish_of_drained (hw : Waits (update s.pending stream []) s) :
    ∀ p ∈ s.blocks.filterMap Block.parked, p.finish stream = some p := by
  intro p hp
  obtain ⟨i, hstate, rfl⟩ := mem_parked.1 hp
  have hcount := hw.count i stream
  rw [update_self, if_pos hstate] at hcount
  have hwaiting : (parkedAt s i).waiting.erase stream = (parkedAt s i).waiting := by
    apply Finset.erase_eq_of_notMem
    unfold parkedAt
    rw [mem_toFinset]
    exact count_eq_zero.1 hcount.symm
  have hne : (parkedAt s i).waiting ≠ ∅ := by
    intro hempty
    exact hw.streams i hstate ((toFinset_eq_empty_iff _).1 hempty)
  unfold Parked.finish
  rw [hwaiting, if_neg hne]

end Drain

section

variable (hf : Faithful h)

include hf

theorem Faithful.synchronizeStream (stream : Nat) :
    Faithful (h.step (.synchronizeStream stream)) ∧
      (h.inner.synchronizeStream stream).2 = h.parked.countP (lastFor stream) := by
  let s : AllocatorInner :=
    { h.inner with pending := update h.inner.pending stream [] }
  have hwf : Wf s := hf.wf.congr rfl rfl
  have hpending : update s.pending stream (h.inner.pending stream) = h.inner.pending := by
    rw [update_idem, update_eq_self]
  have hwaits : Waits (update s.pending stream (h.inner.pending stream)) s := by
    rw [hpending]
    exact ⟨hf.waits.count, hf.waits.streams⟩
  -- the drain runs on the state whose list for the stream is taken out
  obtain ⟨t, m, heq, hdrained, hw⟩ := drain_spec (h.inner.pending stream) s 0 hwf hwaits
  have hstays := finish_of_drained hw
  have hsync : h.inner.synchronizeStream stream = (t, m) := heq
  have hstep : h.step (.synchronizeStream stream) =
      { inner := t, held := h.held, parked := h.parked.filterMap (Parked.finish stream) } := by
    unfold History.step answer
    simp [hsync, note]
  have htable : update t.pending stream [] = t.pending := by
    rw [hdrained.pending]
    exact update_idem _ _ _
  constructor
  · rw [hstep]
    constructor
    · exact hdrained.wf
    · rwa [htable] at hw
    · exact hf.held.trans (Perm.of_eq hdrained.held.symm)
    · have hsame : (t.blocks.filterMap Block.parked).filterMap (Parked.finish stream) =
          t.blocks.filterMap Block.parked := by
        rw [filterMap_congr hstays, filterMap_some]
      calc
        (h.parked.filterMap (Parked.finish stream)).Perm
            ((h.inner.blocks.filterMap Block.parked).filterMap (Parked.finish stream)) :=
          hf.parked.filterMap _
        Perm _ ((t.blocks.filterMap Block.parked).filterMap (Parked.finish stream)) :=
          hdrained.finish.symm
        Perm _ (t.blocks.filterMap Block.parked) := Perm.of_eq hsame
  · -- after the drain no parked block waits for this stream alone
    have hnone : (t.blocks.filterMap Block.parked).countP (lastFor stream) = 0 := by
      apply countP_eq_zero.2
      intro p hp
      unfold lastFor
      rw [hstays p hp]
      exact Bool.false_ne_true
    have hreleased := hdrained.released
    rw [hnone, Nat.add_zero, Nat.zero_add] at hreleased
    rw [hsync, hf.parked.countP_eq]
    exact hreleased

theorem Faithful.emptyCache : Faithful (h.step .emptyCache) := by
  have hroles : ∀ i, SameRole (h.inner.block i) (h.inner.emptyCache.1.block i) :=
    sameBusy_trim.sameRole
  constructor
  · exact hf.wf.trim.congr rfl rfl
  · have hpending : h.inner.emptyCache.1.pending = h.inner.pending := (@sameBusy_trim h.inner).pending
    change Waits h.inner.emptyCache.1.pending h.inner.emptyCache.1
    rw [hpending]
    exact hf.waits.congr hroles
  · have hsame := @Sees.congr h.inner h.inner.emptyCache.1 0 _ _ sees_held (fun i _ => hroles i)
      (sees_held.role _ _ (hroles 0))
    exact hf.held.trans (Perm.of_eq hsame.symm)
  · have hsame := @Sees.congr h.inner h.inner.emptyCache.1 0 _ _ sees_parked (fun i _ => hroles i)
      (sees_parked.role _ _ (hroles 0))
    exact hf.parked.trans (Perm.of_eq hsame.symm)

theorem Faithful.alloc {size stream : Nat} (hzero : size ≠ 0)
    (hguard : Guard h (.alloc size stream)) :
    ∃ t idx, h.inner.alloc size stream = (t, .ok (t.devPtr idx)) ∧ Takes h.inner t idx ∧
      (h.inner.block idx).state = .free := by
  obtain ⟨hsize, hpop, hfresh⟩ := hguard hzero
  have hroom : OutOfBlocks h.inner size stream →
      RoomAt h.inner (h.inner.freshAddr (roundUpPow2 size)) (roundUpPow2 size) := by
    intro hout
    obtain ⟨hcounter, hstop, hbehind⟩ := hfresh hout
    exact RoomAt.of_counter hcounter hstop hbehind
  obtain ⟨t, idx, heq, htakes, hcase⟩ :=
    alloc_spec hf.wf hzero hsize (fun idx hfront => (hpop idx hfront).2) hroom
  refine ⟨t, idx, heq, htakes, ?_⟩
  rcases hcase with ⟨hfront, _⟩ | ⟨hfree, _⟩
  · exact (hpop idx hfront).1
  · exact hfree

theorem Faithful.step (hguard : Guard h call) : Faithful (h.step call) := by
  cases call with
  | alloc size stream =>
    by_cases hzero : size = 0
    · have hstep : h.step (.alloc size stream) = h := by
        unfold History.step answer AllocatorInner.alloc
        simp [hzero, note]
      rwa [hstep]
    · obtain ⟨t, idx, heq, htakes, hfree⟩ := hf.alloc hzero hguard
      have hstep : h.step (.alloc size stream) =
          { inner := t, held := { ptr := t.devPtr idx, streams := [] } :: h.held,
            parked := h.parked } := by
        unfold History.step answer
        simp [heq, hzero, note]
      rw [hstep]
      exact hf.of_takes htakes hfree
  | free ptr => exact hf.free ptr
  | recordStream ptr stream => exact hf.recordStream ptr stream
  | synchronizeStream stream => exact (hf.synchronizeStream stream).1
  | emptyCache => exact hf.emptyCache

theorem Faithful.apart_of_takes (htakes : Takes h.inner t idx)
    (hfree : (h.inner.block idx).state = .free) : ∀ q ∈ h.parked, (t.devPtr idx).Apart q.ptr := by
  intro q hq
  obtain ⟨i, hstate, rfl⟩ := mem_parked.1 (hf.parked.mem_iff.1 hq)
  have hne : i ≠ idx := by
    rintro rfl
    rw [hfree] at hstate
    cases hstate
  have hbusy : (h.inner.block i).state ≠ .free := by
    rw [hstate]
    decide
  have hstays : (t.block i).state ≠ .free := by
    rwa [(htakes.others i hne).1]
  change (t.devPtr idx).Apart (h.inner.devPtr i)
  rw [← htakes.places i hne hbusy]
  exact htakes.wf.devPtr_apart hne.symm (htakes.wf.busy idx (by rw [htakes.state]; decide))
    (htakes.wf.busy i hstays)

/-! ## Runs -/

end

/-- What the allocator promises along a run about freed allocations that wait for streams: `alloc`
answers nothing that overlaps them, the allocator keeps back exactly them, and a synchronized stream
releases those that waited for it alone. -/
structure KeptBack (calls : List Call) : Prop where
  answers : ∀ (before : List Call) (size stream : Nat) (after : List Call) (p : DevPtr),
    calls = before ++ .alloc size stream :: after →
    ((run step new before).inner.alloc size stream).2 = .ok p →
      ∀ q ∈ (run step new before).parked, p.Apart q.ptr
  parked : ∀ (before after : List Call), calls = before ++ after →
    ((run step new before).inner.blocks.filterMap Block.parked).Perm
      (run step new before).parked
  released : ∀ (before : List Call) (stream : Nat) (after : List Call),
    calls = before ++ .synchronizeStream stream :: after →
      ((run step new before).inner.synchronizeStream stream).2 =
        (run step new before).parked.countP (lastFor stream)

theorem faithful_run {calls : List Call} (hguard : Along step Guard new calls) :
    Faithful (run step new calls) :=
  invariant Faithful (fun _ _ hmeets hf => hf.step hmeets) hguard faithful_new

theorem keptBack_of_guard (calls : List Call) (hguard : Along step Guard new calls) :
    KeptBack calls := by
  constructor
  · rintro before size stream after p rfl hanswer
    obtain ⟨hbefore, halloc, _⟩ := along_append.1 hguard
    have hf := faithful_run hbefore
    by_cases hzero : size = 0
    · -- the null pointer lies before everything
      unfold AllocatorInner.alloc at hanswer
      rw [if_pos hzero] at hanswer
      cases hanswer
      exact fun q _ => Or.inl (Nat.zero_le _)
    · obtain ⟨t, idx, heq, htakes, hfree⟩ := hf.alloc hzero halloc
      rw [heq] at hanswer
      cases hanswer
      exact hf.apart_of_takes htakes hfree
  · rintro before after rfl
    exact (faithful_run (along_append.1 hguard).1).parked.symm
  · rintro before stream after rfl
    exact ((faithful_run (along_append.1 hguard).1).synchronizeStream stream).2

instance Guard.decidable : ∀ (h : History) (call : Call), Decidable (Guard h call)
  | h, .alloc size stream =>
    inferInstanceAs (Decidable (_ → _ ∧
      (∀ idx ∈ h.inner.front stream (binIndex size), _ ∧ _) ∧
      (_ → _ ∧ _ ∧ ∀ seg ∈ h.inner.segments, _)))
  | _, .free _ => inferInstanceAs (Decidable True)
  | _, .recordStream _ _ => inferInstanceAs (Decidable True)
  | _, .synchronizeStream _ => inferInstanceAs (Decidable True)
  | _, .emptyCache => inferInstanceAs (Decidable True)

/-- A block is recorded on two streams, twice on one of them, and freed. -/
def recordedCalls : List Call :=
  [.alloc 4096 0, .recordStream { addr := 0x100000000, size := 4096 } 1,
    .recordStream { addr := 0x100000000, size := 4096 } 2,
    .recordStream { addr := 0x100000000, size := 4096 } 1,
    .free { addr := 0x100000000, size := 4096 }, .alloc 4096 0, .synchronizeStream 1,
    .alloc 4000 0, .emptyCache, .synchronizeStream 2, .alloc 1 0]

theorem recordedCalls_keptBack : KeptBack recordedCalls :=
  keptBack_of_guard recordedCalls (by decide +kernel)

/-- Three calls leave an entry behind in the bin of a block; it waits for stream 1 in the end. -/
def staleWait : List Call :=
  [.alloc 8192 0, .free { addr := 0x100000000, size := 8192 }, .alloc 4096 0,
    .free { addr := 0x100000000, size := 4096 }, .alloc 8192 0,
    .recordStream { addr := 0x100000000, size := 8192 } 1,
    .free { addr := 0x100000000, size := 8192 }]

/-- The entry hands the block out while it waits. -/
theorem staleWait_not_keptBack : ¬ KeptBack (staleWait ++ [.alloc 8192 0]) := by
  intro h
  have hanswer : ((run step new staleWait).inner.alloc 8192 0).2.toOption =
      some { addr := 0x100000000, size := 8192 } := by decide +kernel
  have hparked : { ptr := { addr := 0x100000000, size := 8192 }, waiting := {1} } ∈
      (run step new staleWait).parked := by decide +kernel
  cases hreply : ((run step new staleWait).inner.alloc 8192 0).2 with
  | error e =>
    rw [hreply] at hanswer
    cases hanswer
  | ok p =>
    rw [hreply] at hanswer
    cases hanswer
    have hapart := h.answers staleWait 8192 0 [] _ rfl hreply _ hparked
    revert hapart
    decide

end History

end Cuda
end Rustorch
