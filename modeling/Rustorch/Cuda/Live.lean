import Rustorch.Cuda.Calls
import Rustorch.Lib.Runs

/-!
# Live allocations

A caller's ledger of the allocations that are live and the segments that were trimmed.  They stay
apart along every run whose allocations meet `Guard`: the bins hand out no block that is in use or
too small, and a fresh segment starts behind the earlier ones.
-/

namespace Rustorch
namespace Cuda

open IntervalChain AllocatorInner List Runs

def Segment.range (seg : Segment) : DevPtr where
  addr := seg.baseAddr
  size := seg.total

/-- The allocator with the allocations that are live and the ranges that were trimmed. -/
structure Ledger where
  inner : AllocatorInner
  live : List DevPtr
  trimmed : List DevPtr

namespace Ledger

def new : Ledger where
  inner := AllocatorInner.new
  live := []
  trimmed := []

/-- An allocation is live from its `alloc` to the `free` at its address. -/
def liveAfter (live : List DevPtr) : Call → Reply → List DevPtr
  | .alloc size _, .ptr (.ok p) => if size = 0 then live else p :: live
  | .free ptr, .done (.ok _) => if ptr.size = 0 then live else live.filter (·.addr ≠ ptr.addr)
  | _, _ => live

def trimmedAfter (l : Ledger) : Call → List DevPtr
  | .emptyCache => (l.inner.segments.filter l.inner.allFree).map Segment.range ++ l.trimmed
  | _ => l.trimmed

def step (l : Ledger) (call : Call) : Ledger where
  inner := (l.inner.answer call).1
  live := liveAfter l.live call (l.inner.answer call).2
  trimmed := l.trimmedAfter call

/-- What every call is promised: sizes up to `2^62`, and a fresh segment inside the address
space. -/
def Admitted (l : Ledger) : Call → Prop
  | .alloc size stream => size ≤ 2 ^ 62 ∧ (size ≠ 0 → OutOfBlocks l.inner size stream →
      l.inner.nextSynthAddr + (roundUpPow2 size + 0x1000) < u64Size ∧
        l.inner.freshAddr (roundUpPow2 size) + roundUpPow2 size ≤ u64Size)
  | _ => True

/-- The block in front of the queue is not in use and as large as the request; a fresh segment
starts behind the earlier ones. -/
def Guard (l : Ledger) : Call → Prop
  | .alloc size stream => size ≠ 0 →
      (∀ idx ∈ l.inner.front stream (binIndex size),
        (l.inner.block idx).state ≠ .inUse ∧ size ≤ (l.inner.block idx).size) ∧
      (OutOfBlocks l.inner size stream → ∀ seg ∈ l.inner.segments,
        seg.baseAddr + seg.total ≤ l.inner.freshAddr (roundUpPow2 size))
  | _ => True

end Ledger

/-! ## Calls that take nothing -/

/-- The blocks in use that satisfy `kept` stay in use where they are. -/
structure Steady (kept : Nat → Prop) (s t : AllocatorInner) : Prop where
  wf : Wf t
  segments : t.segments = s.segments
  inUse : ∀ i, kept i → (s.block i).state = .inUse →
    (t.block i).state = .inUse ∧ t.devPtr i = s.devPtr i
  occupied : ∀ k, Occupied t k → Occupied s k

section Steady

variable {s t u : AllocatorInner} {kept : Nat → Prop} {idx i k : Nat} {b : Block}

variable (h : Wf s)

include h

theorem Steady.refl : Steady kept s s :=
  ⟨h, rfl, fun _ _ hstate => ⟨hstate, rfl⟩, fun _ => id⟩

omit h in
theorem Steady.trans (h : Steady kept s t) (h' : Steady kept t u) : Steady kept s u where
  wf := h'.wf
  segments := h'.segments.trans h.segments
  inUse i hkept hstate := by
    obtain ⟨hstate', hplace⟩ := h.inUse i hkept hstate
    obtain ⟨hstate'', hplace'⟩ := h'.inUse i hkept hstate'
    exact ⟨hstate'', hplace'.trans hplace⟩
  occupied k hocc := h.occupied k (h'.occupied k hocc)

theorem Steady.of_tables (hblocks : t.blocks = s.blocks) (hsegments : t.segments = s.segments) :
    Steady kept s t := by
  have hblock := block_congr hblocks
  constructor
  · exact h.congr hblocks hsegments
  · exact hsegments
  · intro i _ hstate
    unfold devPtr
    rw [hblock]
    exact ⟨hstate, rfl⟩
  · rintro k ⟨i, hi, howner⟩
    unfold Active node at hi
    rw [hblock] at hi howner
    exact ⟨i, hi, howner⟩

theorem steady_setBlock (hplace : SamePlace (s.block idx) b)
    (hbusy : b.state ≠ .free → (s.block idx).state ≠ .free)
    (hkept : kept idx → b.state = (s.block idx).state) : Steady kept s (s.setBlock idx b) := by
  by_cases hidx : idx < s.blocks.length
  · have hnode := node_setBlock hidx hplace
    constructor
    · exact h.setBlock hidx hplace (fun hne => by
        rw [hplace.size]
        exact h.busy idx (hbusy hne))
    · rfl
    · intro i hi hstate
      unfold devPtr
      rw [block_setBlock hidx]
      split
      · next heq =>
          subst heq
          rw [hkept hi, hplace.addr, hplace.size]
          exact ⟨hstate, rfl⟩
      · exact ⟨hstate, rfl⟩
    · rintro k ⟨i, hi, howner⟩
      rw [hnode] at hi
      exact ⟨i, hi, (congrArg Node.owner (congrFun hnode i)).symm.trans howner⟩
  · -- an index past the table changes nothing
    exact Steady.of_tables h (set_eq_of_length_le (Nat.le_of_not_lt hidx)) rfl

omit h in
theorem Steady.of_releases (hrel : Releases s t idx)
    (hkept : kept idx → (s.block idx).state ≠ .inUse) : Steady kept s t := by
  constructor
  · exact hrel.wf
  · exact hrel.segments
  · intro i hi hstate
    have hne : i ≠ idx := by
      rintro rfl
      exact hkept hi hstate
    rw [hrel.others i hne, hrel.places i hne (by rw [hstate]; decide)]
    exact ⟨hstate, rfl⟩
  · exact hrel.occupied

theorem steady_free (ptr : DevPtr) :
    Steady (fun i => ptr.size ≠ 0 → (s.block i).addr ≠ ptr.addr) s (s.free ptr).1 := by
  rcases free_cases h ptr with ⟨_, heq⟩ | ⟨_, _, heq⟩ | ⟨hsize, t, idx, heq, haddr, hstate, hcase⟩
  · rw [heq]
    exact Steady.refl h
  · rw [heq]
    exact Steady.refl h
  · have hgone : ¬ (ptr.size ≠ 0 → (s.block idx).addr ≠ ptr.addr) :=
      fun hkept => hkept hsize haddr
    have hne : (s.block idx).state ≠ .free := by
      rw [hstate]
      decide
    rw [heq]
    rcases hcase with ⟨_, hrel⟩ | ⟨_, hparks⟩
    · exact Steady.of_releases hrel (fun hkept => absurd hkept hgone)
    · have hplace : SamePlace (s.block idx) { s.block idx with state := .freePending } :=
        ⟨rfl, rfl, rfl, rfl, rfl⟩
      have hmark : Steady (fun i => ptr.size ≠ 0 → (s.block i).addr ≠ ptr.addr) s _ :=
        steady_setBlock h hplace (fun _ => hne) (fun hkept => absurd hkept hgone)
      exact hmark.trans (Steady.of_tables hmark.wf hparks.blocks hparks.segments)

theorem steady_recordStream (ptr : DevPtr) (stream : Nat) :
    Steady kept s (s.recordStream ptr stream).1 := by
  unfold recordStream
  cases s.findInUse ptr.addr with
  | none => exact Steady.refl h
  | some idx => exact steady_setBlock h ⟨rfl, rfl, rfl, rfl, rfl⟩ id (fun _ => rfl)

theorem steady_drainOne (stream released : Nat) :
    Steady kept s (drainOne stream (s, released) idx).1 := by
  have hmark := @steady_setBlock s kept idx
    { s.block idx with recordStreams := (s.block idx).recordStreams.erase stream } h
    ⟨rfl, rfl, rfl, rfl, rfl⟩ id (fun _ => rfl)
  unfold drainOne
  simp only
  split
  · next hlast =>
      have hbusy := hmark.wf.busy idx (by rw [hlast.2]; decide)
      refine hmark.trans (Steady.of_releases (releases_coalesce hmark.wf hbusy
        (SameTable.refl _)) ?_)
      rw [hlast.2]
      exact fun _ => by decide
  · exact hmark

theorem steady_synchronizeStream (stream : Nat) :
    Steady kept s (s.synchronizeStream stream).1 := by
  have hfold : ∀ (drained : List Nat) (t : AllocatorInner) (n : Nat), Wf t →
      Steady kept t (drained.foldl (drainOne stream) (t, n)).1 := by
    intro drained
    induction drained with
    | nil => exact fun t n ht => Steady.refl ht
    | cons idx drained ih =>
      intro t n ht
      have hone : Steady kept t (drainOne stream (t, n) idx).1 := steady_drainOne ht stream n
      exact hone.trans (ih _ _ hone.wf)
  have htable : Steady kept s { s with pending := Function.update s.pending stream [] } :=
    Steady.of_tables h rfl rfl
  exact htable.trans (hfold _ _ 0 htable.wf)

theorem steady_emptyCache : Steady kept s s.emptyCache.1 := by
  have hsame := @sameBusy_trim s
  have htrim : Steady kept s s.trimFreeSegments := by
    constructor
    · exact h.trim
    · exact hsame.segments
    · intro i _ hstate
      rw [hsame.state, hsame.devPtr (by rw [hstate]; decide)]
      exact ⟨hstate, rfl⟩
    · exact hsame.occupied
  exact htrim.trans (Steady.of_tables h.trim rfl rfl)

end Steady

/-! ## The invariant -/

namespace Ledger

variable {l : Ledger} {s t : AllocatorInner} {call : Call}

/-- Each live allocation is a block in use, and no trimmed segment has a block left. -/
structure Tracked (l : Ledger) : Prop where
  wf : Wf l.inner
  live : ∀ p ∈ l.live, ∃ i, (l.inner.block i).state = .inUse ∧ l.inner.devPtr i = p
  apart : l.live.Pairwise DevPtr.Apart
  trimmed : ∀ q ∈ l.trimmed, ∃ k, k < l.inner.segments.length ∧
    l.inner.region k = { lo := q.addr, hi := q.addr + q.size } ∧ ¬ Occupied l.inner k

theorem tracked_new : Tracked new where
  wf := wf_new
  live p hp := by cases hp
  apart := Pairwise.nil
  trimmed q hq := by cases hq

theorem Tracked.apart_of_takes {idx : Nat} (h : Tracked l) (htakes : Takes l.inner t idx)
    (hnew : (l.inner.block idx).state ≠ .inUse) :
    (∀ p ∈ l.live, (t.devPtr idx).Apart p) ∧ ∀ q ∈ l.trimmed, (t.devPtr idx).Apart q := by
  have hactive : Active t.node idx := htakes.wf.busy idx (by rw [htakes.state]; decide)
  constructor
  · intro p hp
    obtain ⟨i, hstate, hplace⟩ := h.live p hp
    have hne : i ≠ idx := by
      rintro rfl
      exact hnew hstate
    have hstate' : (t.block i).state = .inUse := (htakes.others i hne).1.trans hstate
    rw [← hplace, ← htakes.places i hne (by rw [hstate]; decide)]
    exact htakes.wf.devPtr_apart hne.symm hactive
      (htakes.wf.busy i (by rw [hstate']; decide))
  · intro q hq
    obtain ⟨k, hk, hregion, hocc⟩ := h.trimmed q hq
    have howner : (t.block idx).segmentId < t.segments.length :=
      htakes.wf.owner idx (htakes.wf.active_lt hactive)
    -- the segment of the block is occupied, the trimmed one is not
    have hne : (t.block idx).segmentId ≠ k := by
      rintro rfl
      exact hocc (htakes.occupied _ hk ⟨idx, hactive, rfl⟩)
    have hinside := htakes.wf.chain.inside idx hactive
    have hlt : k < t.segments.length := hk.trans_le htakes.segments
    have hapart := htakes.wf.regions_apart hne howner hlt
    rw [htakes.regions k hk, hregion] at hapart
    unfold DevPtr.Apart devPtr
    unfold node at hinside
    simp only at hinside hapart ⊢
    omega

theorem Tracked.of_takes {idx : Nat} (h : Tracked l) (htakes : Takes l.inner t idx)
    (hnew : (l.inner.block idx).state ≠ .inUse) :
    Tracked { inner := t, live := t.devPtr idx :: l.live, trimmed := l.trimmed } := by
  constructor
  · exact htakes.wf
  · intro p hp
    rcases mem_cons.1 hp with heq | hold
    · exact ⟨idx, htakes.state, heq.symm⟩
    · obtain ⟨i, hstate, hplace⟩ := h.live p hold
      have hne : i ≠ idx := by
        rintro rfl
        exact hnew hstate
      exact ⟨i, (htakes.others i hne).1.trans hstate,
        (htakes.places i hne (by rw [hstate]; decide)).trans hplace⟩
  · exact pairwise_cons.2 ⟨(h.apart_of_takes htakes hnew).1, h.apart⟩
  · intro q hq
    obtain ⟨k, hk, hregion, hocc⟩ := h.trimmed q hq
    exact ⟨k, hk.trans_le htakes.segments, (htakes.regions k hk).trans hregion,
      fun hin => hocc (htakes.occupied k hk hin)⟩

theorem Tracked.alloc {size stream : Nat} (h : Tracked l) (hzero : size ≠ 0)
    (hadm : Admitted l (.alloc size stream)) (hguard : Guard l (.alloc size stream)) :
    ∃ t idx, l.inner.alloc size stream = (t, .ok (t.devPtr idx)) ∧ Takes l.inner t idx ∧
      (l.inner.block idx).state ≠ .inUse ∧ size ≤ (t.devPtr idx).size := by
  obtain ⟨hpop, hbehind⟩ := hguard hzero
  have hactive : ∀ idx, l.inner.front stream (binIndex size) = some idx →
      Active l.inner.node idx := by
    intro idx hfront
    exact (Nat.pos_of_ne_zero hzero).trans_le (hpop idx hfront).2
  have hroom : OutOfBlocks l.inner size stream →
      RoomAt l.inner (l.inner.freshAddr (roundUpPow2 size)) (roundUpPow2 size) := by
    intro hout
    obtain ⟨hcounter, hstop⟩ := hadm.2 hzero hout
    exact RoomAt.of_counter hcounter hstop (hbehind hout)
  have hsize : size ≤ 2 ^ 63 := hadm.1.trans (by decide)
  obtain ⟨t, idx, heq, htakes, hcase⟩ := alloc_spec h.wf hzero hsize hactive hroom
  refine ⟨t, idx, heq, htakes, ?_⟩
  rcases hcase with ⟨hfront, hplace⟩ | ⟨hfree, hsize⟩
  · rw [hplace]
    exact hpop idx hfront
  · rw [hfree]
    exact ⟨by decide, hsize⟩

theorem Tracked.of_steady {kept : Nat → Prop} {live trimmed : List DevPtr} (h : Tracked l)
    (hsteady : Steady kept l.inner t)
    (hlive : live.Sublist l.live) (hkept : ∀ i, l.inner.devPtr i ∈ live → kept i)
    (htrimmed : ∀ q ∈ trimmed, q ∈ l.trimmed ∨ ∃ k, k < t.segments.length ∧
      t.region k = { lo := q.addr, hi := q.addr + q.size } ∧ ¬ Occupied t k) :
    Tracked { inner := t, live := live, trimmed := trimmed } := by
  constructor
  · exact hsteady.wf
  · intro p hp
    obtain ⟨i, hstate, hplace⟩ := h.live p (hlive.subset hp)
    obtain ⟨hstate', hplace'⟩ := hsteady.inUse i (hkept i (by rwa [hplace])) hstate
    exact ⟨i, hstate', hplace'.trans hplace⟩
  · exact h.apart.sublist hlive
  · intro q hq
    rcases htrimmed q hq with hold | hnew
    · obtain ⟨k, hk, hregion, hocc⟩ := h.trimmed q hold
      refine ⟨k, ?_, ?_, fun hin => hocc (hsteady.occupied k hin)⟩
      · change k < t.segments.length
        rwa [hsteady.segments]
      · change t.region k = _
        unfold region at hregion ⊢
        rwa [hsteady.segments]
    · exact hnew

theorem not_occupied_of_trimmed {k : Nat} (h : Wf s) (hk : s.Trimmed k) :
    ¬ Occupied s.trimFreeSegments k := by
  rintro ⟨i, hi, howner⟩
  rw [(@sameBusy_trim s).owner] at howner
  rw [← howner] at hk
  exact not_active_of_trimmed h hk hi

theorem trimmed_range (h : Wf s) : ∀ q ∈ (s.segments.filter s.allFree).map Segment.range,
    ∃ k, k < s.emptyCache.1.segments.length ∧
      s.emptyCache.1.region k = { lo := q.addr, hi := q.addr + q.size } ∧
      ¬ Occupied s.emptyCache.1 k := by
  intro q hq
  obtain ⟨seg, hseg, hrange⟩ := mem_map.1 hq
  obtain ⟨hmem, hfree⟩ := mem_filter.1 hseg
  obtain ⟨k, hk⟩ := mem_iff_getElem?.1 hmem
  have hsegments : s.emptyCache.1.segments = s.segments := (@sameBusy_trim s).segments
  refine ⟨k, ?_, ?_, not_occupied_of_trimmed h ⟨seg, hk, hfree⟩⟩
  · rw [hsegments]
    exact (List.getElem?_eq_some_iff.1 hk).1
  · rw [← hrange]
    unfold region Segment.range
    rw [hsegments, hk]

theorem free_ok (h : Wf s) (ptr : DevPtr) :
    (s.free ptr).2 = .ok () ∨ ∀ i, (s.block i).state = .inUse → (s.block i).addr ≠ ptr.addr := by
  rcases free_cases h ptr with ⟨_, heq⟩ | ⟨hfind, _⟩ | ⟨_, t, idx, heq, _⟩
  · rw [heq]
    exact Or.inl rfl
  · exact Or.inr (findInUse_none hfind)
  · rw [heq]
    exact Or.inl rfl

theorem liveAfter_sublist (live : List DevPtr) (ptr : DevPtr) (reply : Reply) :
    (liveAfter live (.free ptr) reply).Sublist live := by
  unfold liveAfter
  split
  · next heq => cases heq
  · split
    · exact Sublist.refl _
    · exact filter_sublist
  · exact Sublist.refl _

theorem Tracked.addr_of_free {ptr : DevPtr} {i : Nat} (h : Tracked l)
    (hlive : l.inner.devPtr i ∈ liveAfter l.live (.free ptr) (l.inner.answer (.free ptr)).2) :
    ptr.size ≠ 0 → (l.inner.block i).addr ≠ ptr.addr := by
  intro hsize
  rcases free_ok h.wf ptr with hok | hnone
  · have hreply : (l.inner.answer (.free ptr)).2 = .done (.ok ()) := by
      rw [← hok]
      rfl
    rw [hreply] at hlive
    unfold liveAfter at hlive
    simp only [if_neg hsize] at hlive
    exact of_decide_eq_true (mem_filter.1 hlive).2
  · obtain ⟨j, hstate, hplace⟩ := h.live _ ((liveAfter_sublist _ _ _).subset hlive)
    have haddr : (l.inner.block j).addr = (l.inner.block i).addr := congrArg DevPtr.addr hplace
    rw [← haddr]
    exact hnone j hstate

theorem Tracked.step (h : Tracked l) (hadm : Admitted l call) (hguard : Guard l call) :
    Tracked (l.step call) := by
  cases call with
  | alloc size stream =>
    by_cases hzero : size = 0
    · -- a request for nothing answers the null pointer
      have heq : l.step (.alloc size stream) = l := by
        unfold Ledger.step answer AllocatorInner.alloc
        simp [hzero, liveAfter, trimmedAfter]
      rwa [heq]
    · obtain ⟨t, idx, heq, htakes, hnew, _⟩ := h.alloc hzero hadm hguard
      have hstep : l.step (.alloc size stream) =
          { inner := t, live := t.devPtr idx :: l.live, trimmed := l.trimmed } := by
        unfold Ledger.step answer
        simp [heq, hzero, liveAfter, trimmedAfter]
      rw [hstep]
      exact h.of_takes htakes hnew
  | free ptr =>
    apply h.of_steady (steady_free h.wf ptr)
    · exact liveAfter_sublist _ _ _
    · exact fun i hlive => h.addr_of_free hlive
    · exact fun q hq => Or.inl hq
  | recordStream ptr stream =>
    apply h.of_steady (@steady_recordStream _ (fun _ => True) h.wf ptr stream)
    · exact Sublist.refl _
    · exact fun _ _ => trivial
    · exact fun q hq => Or.inl hq
  | synchronizeStream stream =>
    apply h.of_steady (@steady_synchronizeStream _ (fun _ => True) h.wf stream)
    · exact Sublist.refl _
    · exact fun _ _ => trivial
    · exact fun q hq => Or.inl hq
  | emptyCache =>
    apply h.of_steady (@steady_emptyCache _ (fun _ => True) h.wf)
    · exact Sublist.refl _
    · exact fun _ _ => trivial
    · intro q hq
      rcases mem_append.1 hq with hnew | hold
      · exact Or.inr (trimmed_range h.wf q hnew)
      · exact Or.inl hold

/-! ## Runs -/

/-- What the allocator promises along a run: the live allocations are pairwise apart, and each
answer of `alloc` is as large as the request and lies outside the trimmed segments. -/
structure Exclusive (calls : List Call) : Prop where
  live : ∀ (before after : List Call), calls = before ++ after →
    (run step new before).live.Pairwise DevPtr.Apart
  answers : ∀ (before : List Call) (size stream : Nat) (after : List Call) (p : DevPtr),
    calls = before ++ .alloc size stream :: after →
    ((run step new before).inner.alloc size stream).2 = .ok p →
      size ≤ p.size ∧ ∀ q ∈ (run step new before).trimmed, p.Apart q

theorem tracked_run {calls : List Call} (hadm : Along step Admitted new calls)
    (hguard : Along step Guard new calls) : Tracked (run step new calls) := by
  apply invariant Tracked _ (hadm.and hguard) tracked_new
  exact fun l call hmeets h => h.step hmeets.1 hmeets.2

theorem exclusive_of_guard (calls : List Call) (hadm : Along step Admitted new calls)
    (hguard : Along step Guard new calls) : Exclusive calls := by
  constructor
  · rintro before after rfl
    exact (tracked_run (along_append.1 hadm).1 (along_append.1 hguard).1).apart
  · rintro before size stream after p rfl hanswer
    obtain ⟨hadm, hadmAlloc, _⟩ := along_append.1 hadm
    obtain ⟨hguard, hguardAlloc, _⟩ := along_append.1 hguard
    have h := tracked_run hadm hguard
    by_cases hzero : size = 0
    · -- the null pointer lies before everything
      unfold AllocatorInner.alloc at hanswer
      rw [if_pos hzero] at hanswer
      cases hanswer
      exact ⟨hzero.le, fun q _ => Or.inl (Nat.zero_le _)⟩
    · obtain ⟨t, idx, heq, htakes, hnew, hsize⟩ := h.alloc hzero hadmAlloc hguardAlloc
      rw [heq] at hanswer
      cases hanswer
      exact ⟨hsize, (h.apart_of_takes htakes hnew).2⟩

instance Admitted.decidable : ∀ (l : Ledger) (call : Call), Decidable (Admitted l call)
  | _, .alloc _ _ => inferInstanceAs (Decidable (_ ∧ (_ → _ → _ ∧ _)))
  | _, .free _ => inferInstanceAs (Decidable True)
  | _, .recordStream _ _ => inferInstanceAs (Decidable True)
  | _, .synchronizeStream _ => inferInstanceAs (Decidable True)
  | _, .emptyCache => inferInstanceAs (Decidable True)

instance Guard.decidable : ∀ (l : Ledger) (call : Call), Decidable (Guard l call)
  | l, .alloc size stream =>
    inferInstanceAs (Decidable (_ → (∀ idx ∈ l.inner.front stream (binIndex size), _ ∧ _) ∧
      (_ → ∀ seg ∈ l.inner.segments, _)))
  | _, .free _ => inferInstanceAs (Decidable True)
  | _, .recordStream _ _ => inferInstanceAs (Decidable True)
  | _, .synchronizeStream _ => inferInstanceAs (Decidable True)
  | _, .emptyCache => inferInstanceAs (Decidable True)

/-- Blocks of one size are allocated, recorded, freed and trimmed. -/
def pageCalls : List Call :=
  [.alloc 4096 0, .alloc 100 7, .recordStream { addr := 0x100000000, size := 4096 } 7,
    .free { addr := 0x100000000, size := 4096 }, .synchronizeStream 7, .alloc 4000 0,
    .free { addr := 0x100002000, size := 4096 }, .emptyCache, .alloc 8192 0]

theorem pageCalls_exclusive : Exclusive pageCalls :=
  exclusive_of_guard pageCalls (by decide +kernel) (by decide +kernel)

/-- A block that is split stays in its old bin, from which it is handed out again. -/
def staleEntry : List Call :=
  [.alloc 8192 0, .free { addr := 0x100000000, size := 8192 }, .alloc 4096 0, .alloc 8192 0]

theorem staleEntry_not_exclusive :
    Along step Admitted new staleEntry ∧ ¬ Exclusive staleEntry := by
  constructor
  · decide +kernel
  · intro h
    have hapart := h.live staleEntry [] rfl
    revert hapart
    decide +kernel

end Ledger

end Cuda
end Rustorch
