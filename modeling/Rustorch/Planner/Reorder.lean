import Mathlib.Data.Finset.Basic
import Mathlib.Data.List.Sort
import Rustorch.Lib.Machine
import Rustorch.Planner.Lifetime

/-!
# Topological reordering

`reorder` schedules the ops of a DAG greedily: among the ops whose reads are all produced it
picks the one that frees most bytes.  `lifetime_for` turns a schedule into a lifetime table.

The hash maps of the source are association lists in one arbitrary iteration order, hash sets are
finsets or lists, and the ordered set of ready ops is a sorted list.  Op ids taken from the DAG
are `Key`s, so looking an op up cannot fail.
-/

namespace Rustorch
namespace Planner

open List Subtype

/-! ## The DAG -/

structure OpId where
  val : Nat
  deriving DecidableEq, Repr

structure OpNode where
  id : OpId
  reads : List TensorId
  writes : TensorId
  bytes : Nat
  align : Nat
  deriving DecidableEq, Repr

structure OpDag where
  nodes : AList (fun _ : OpId => OpNode)
  producerOf : AList (fun _ : TensorId => OpId)
  keyed : ∀ id op, nodes.lookup id = some op → op.id = id

namespace OpDag

def new : OpDag where
  nodes := ∅
  producerOf := ∅
  keyed := by
    intro id op h
    simp at h

/-- Insert an op; `none` is the panic on a tensor that already has a producer. -/
def addOp (dag : OpDag) (op : OpNode) : Option OpDag :=
  if op.writes ∈ dag.producerOf then
    none
  else
    some
      { nodes := dag.nodes.insert op.id op
        producerOf := dag.producerOf.insert op.writes op.id
        keyed := by
          intro id op' h
          by_cases hid : id = op.id
          · subst hid
            rw [AList.lookup_insert] at h
            cases h
            rfl
          · rw [AList.lookup_insert_ne hid] at h
            exact dag.keyed id op' h }

/-- The DAG built by adding the ops one by one. -/
def build (ops : List OpNode) : Option OpDag :=
  ops.foldlM addOp new

/-- An op id of the DAG. -/
abbrev Key (dag : OpDag) : Type := { id : OpId // id ∈ dag.nodes }

def node (dag : OpDag) (k : dag.Key) : OpNode :=
  (dag.nodes.lookup k.1).get (AList.lookup_isSome.2 k.2)

def keys (dag : OpDag) : List dag.Key :=
  dag.nodes.keys.attach.map (fun k => ⟨k.1, AList.mem_keys.2 k.2⟩)

/-- All ops, in hash-map order. -/
def values (dag : OpDag) : List OpNode :=
  dag.keys.map dag.node

def len (dag : OpDag) : Nat :=
  dag.nodes.keys.length

def hasProducer (dag : OpDag) (r : TensorId) : Bool :=
  decide (r ∈ dag.producerOf)

/-- Tensors that some op reads and no op produces. -/
def externalReads (dag : OpDag) : List TensorId :=
  (dag.values.flatMap OpNode.reads).filter (fun r => !dag.hasProducer r)

/-- What `add_op` keeps when the op ids are distinct: the producer map is exact. -/
def Exact (dag : OpDag) : Prop :=
  ∀ t id, dag.producerOf.lookup t = some id ↔
    ∃ op, dag.nodes.lookup id = some op ∧ op.writes = t

end OpDag

inductive ReorderError
  | cycle (remaining : List OpId)
  deriving DecidableEq, Repr

/-! ## Scoring -/

/-- Bytes of the produced reads that `op` is the last consumer of. -/
def bytesFreed (dag : OpDag) (remaining : TensorId → Nat) (op : OpNode) : Int :=
  let dying := op.reads.filter (fun r => remaining r == 1)
  let sizes := dying.filterMap (fun r =>
    match dag.producerOf.lookup r with
    | some p => (dag.nodes.lookup p).map (fun producer => asI64 producer.bytes)
    | none => none)
  sizes.foldl (fun acc b => wrapI64 (acc + b)) 0

def score (dag : OpDag) (remaining : TensorId → Nat) (op : OpNode) : Int :=
  wrapI64 (bytesFreed dag remaining op - asI64 op.bytes)

/-- Order of the ranking tuple `(score, Reverse(bytes), Reverse(id))`. -/
def rankLe (dag : OpDag) (remaining : TensorId → Nat) (a b : dag.Key) : Bool :=
  let opA := dag.node a
  let opB := dag.node b
  let scoreA := score dag remaining opA
  let scoreB := score dag remaining opB
  if scoreA = scoreB then
    if opA.bytes = opB.bytes then
      decide (opB.id.val ≤ opA.id.val)
    else
      decide (opB.bytes < opA.bytes)
  else
    decide (scoreA < scoreB)

/-- `max_by` over a non-empty iterator: the last of the greatest elements. -/
def pickMax (dag : OpDag) (remaining : TensorId → Nat) (first : dag.Key) (rest : List dag.Key) :
    dag.Key :=
  rest.foldl (fun best k => if rankLe dag remaining best k then k else best) first

/-! ## The loop -/

/-- Insertion into the ordered set of ready ops. -/
def btreeInsert {dag : OpDag} (k : dag.Key) (ready : List dag.Key) : List dag.Key :=
  if k ∈ ready then
    ready
  else
    ready.orderedInsert (fun a b => a.1.val ≤ b.1.val) k

def readsProduced (dag : OpDag) (produced : Finset TensorId) (k : dag.Key) : Bool :=
  (dag.node k).reads.all (fun r => decide (r ∈ produced))

/-- Add every op of `candidates` whose reads are all produced. -/
def insertReady (dag : OpDag) (produced : Finset TensorId) (candidates ready : List dag.Key) :
    List dag.Key :=
  candidates.foldl
    (fun ready u => if readsProduced dag produced u then btreeInsert u ready else ready) ready

structure ReorderState (dag : OpDag) where
  remainingConsumers : TensorId → Nat
  produced : Finset TensorId
  unscheduled : List dag.Key
  ready : List dag.Key
  schedule : List dag.Key
  ready_sub : ∀ k ∈ ready, k ∈ unscheduled

open ReorderState

section Membership

variable {dag : OpDag}

theorem mem_btreeInsert {k u : dag.Key} {ready : List dag.Key} :
    u ∈ btreeInsert k ready ↔ u = k ∨ u ∈ ready := by
  unfold btreeInsert
  split
  · rename_i h
    constructor
    · intro hu
      exact Or.inr hu
    · rintro (rfl | hu)
      · exact h
      · exact hu
  · simp

theorem mem_insertReady {produced : Finset TensorId} (candidates : List dag.Key) :
    ∀ (ready : List dag.Key) (u : dag.Key),
      u ∈ insertReady dag produced candidates ready ↔
        u ∈ ready ∨ (u ∈ candidates ∧ readsProduced dag produced u = true) := by
  induction candidates with
  | nil =>
    intro ready u
    simp [insertReady]
  | cons c candidates ih =>
    intro ready u
    have hstep := ih (if readsProduced dag produced c then btreeInsert c ready else ready) u
    rw [show insertReady dag produced (c :: candidates) ready =
      insertReady dag produced candidates
        (if readsProduced dag produced c then btreeInsert c ready else ready) from rfl, hstep]
    by_cases hc : readsProduced dag produced c = true
    · simp only [hc, if_true, mem_btreeInsert, mem_cons]
      constructor
      · rintro ((rfl | hu) | ⟨hu, hp⟩)
        · exact Or.inr ⟨Or.inl rfl, hc⟩
        · exact Or.inl hu
        · exact Or.inr ⟨Or.inr hu, hp⟩
      · rintro (hu | ⟨rfl | hu, hp⟩)
        · exact Or.inl (Or.inr hu)
        · exact Or.inl (Or.inl rfl)
        · exact Or.inr ⟨hu, hp⟩
    · have hne : ∀ v : dag.Key, readsProduced dag produced v = true → v ≠ c := by
        intro v hv heq
        exact hc (heq ▸ hv)
      simp only [hc, mem_cons]
      constructor
      · rintro (hu | ⟨hu, hp⟩)
        · exact Or.inl hu
        · exact Or.inr ⟨Or.inr hu, hp⟩
      · rintro (hu | ⟨rfl | hu, hp⟩)
        · exact Or.inl hu
        · exact absurd rfl (hne u hp)
        · exact Or.inr ⟨hu, hp⟩

theorem foldl_pick_mem {f : dag.Key → dag.Key → Bool} (rest : List dag.Key) :
    ∀ first : dag.Key,
      rest.foldl (fun best k => if f best k then k else best) first ∈ first :: rest := by
  induction rest with
  | nil =>
    intro first
    simp
  | cons k rest ih =>
    intro first
    by_cases h : f first k = true
    · have hk := ih k
      simp only [foldl_cons, h, if_true]
      exact mem_cons_of_mem first hk
    · have hfirst := ih first
      simp only [foldl_cons, h]
      rcases mem_cons.1 hfirst with heq | hmem
      · exact mem_cons.2 (Or.inl heq)
      · exact mem_cons_of_mem first (mem_cons_of_mem k hmem)

theorem pickMax_mem (remaining : TensorId → Nat) (first : dag.Key) (rest : List dag.Key) :
    pickMax dag remaining first rest ∈ first :: rest :=
  foldl_pick_mem rest first

end Membership

namespace ReorderState

variable {dag : OpDag}

def init (dag : OpDag) : ReorderState dag :=
  let produced := dag.externalReads.toFinset
  { remainingConsumers :=
      (dag.values.flatMap OpNode.reads).foldl
        (fun rc r => Function.update rc r ((rc r + 1) % 2 ^ 32)) (fun _ => 0)
    produced := produced
    unscheduled := dag.keys
    ready := insertReady dag produced dag.keys []
    schedule := []
    ready_sub := by
      intro k hk
      rcases (mem_insertReady dag.keys [] k).1 hk with h | h
      · cases h
      · exact h.1 }

/-- Commit a pick: schedule it, count its reads down, mark its output produced and collect the
ops that became ready.  The ordered set and the hash set hold every op once, so removing the pick
is a filter. -/
def commit (st : ReorderState dag) (pick : dag.Key) : ReorderState dag :=
  let op := dag.node pick
  let unscheduled := st.unscheduled.erase pick
  let produced := insert op.writes st.produced
  { remainingConsumers :=
      op.reads.foldl (fun rc r => Function.update rc r (rc r - 1)) st.remainingConsumers
    produced := produced
    unscheduled := unscheduled
    ready := insertReady dag produced unscheduled (st.ready.filter (fun k => k ≠ pick))
    schedule := st.schedule ++ [pick]
    ready_sub := by
      intro k hk
      rcases (mem_insertReady unscheduled _ k).1 hk with h | h
      · have h' := mem_filter.1 h
        exact (mem_erase_of_ne (by simpa using h'.2)).2 (st.ready_sub k h'.1)
      · exact h.1 }

end ReorderState

/-- The `while` loop, with the number of unscheduled ops as its measure. -/
def reorderLoop (dag : OpDag) :
    (n : Nat) → (st : ReorderState dag) → st.unscheduled.length = n →
      Except ReorderError (List OpId)
  | 0, st, _ => .ok (st.schedule.map val)
  | n + 1, st, hn =>
    match hready : st.ready with
    | [] =>
      .error (.cycle ((st.unscheduled.map val).insertionSort
        (fun a b => a.val ≤ b.val)))
    | first :: rest =>
      let pick := pickMax dag st.remainingConsumers first rest
      reorderLoop dag n (st.commit pick) (by
        have hmem : pick ∈ st.unscheduled := by
          refine st.ready_sub pick ?_
          rw [hready]
          exact pickMax_mem st.remainingConsumers first rest
        have hlen := length_erase_of_mem hmem
        simp only [commit, hlen, hn, Nat.add_sub_cancel])

/-- Topological schedule that locally minimises the live set. -/
def reorder (dag : OpDag) : Except ReorderError (List OpId) :=
  if dag.len = 0 then
    .ok []
  else
    reorderLoop dag (init dag).unscheduled.length (init dag) rfl

/-! ## The schedule is a topological sort -/

/-- Every read of a scheduled op is external or produced earlier in the schedule. -/
def OrderedKeys (dag : OpDag) (ks : List dag.Key) : Prop :=
  ∀ (j : Nat) (k : dag.Key), ks[j]? = some k → ∀ r ∈ (dag.node k).reads,
    r ∈ dag.externalReads ∨
      ∃ (p : Nat) (d : dag.Key), p < j ∧ ks[p]? = some d ∧ (dag.node d).writes = r

/-- What the loop keeps: the schedule and the unscheduled ops split the DAG, `produced` and
`ready` are what their names say, and the schedule so far is ordered. -/
structure ReorderInv (dag : OpDag) (st : ReorderState dag) : Prop where
  perm : (st.schedule ++ st.unscheduled).Perm dag.keys
  produced_iff : ∀ r, r ∈ st.produced ↔
    r ∈ dag.externalReads ∨ ∃ k ∈ st.schedule, (dag.node k).writes = r
  ready_iff : ∀ k, k ∈ st.ready ↔
    k ∈ st.unscheduled ∧ readsProduced dag st.produced k = true
  ordered : OrderedKeys dag st.schedule

section Invariant

variable {dag : OpDag}

theorem OpDag.mem_keys (k : dag.Key) : k ∈ dag.keys := by
  refine mem_map.2 ⟨⟨k.1, AList.mem_keys.1 k.2⟩, mem_attach _ _, rfl⟩

theorem OpDag.nodup_keys : dag.keys.Nodup := by
  refine Nodup.map ?_ dag.nodes.keys_nodup.attach
  intro a b h
  exact Subtype.ext (congrArg (fun k : dag.Key => k.1) h)

variable {produced : Finset TensorId} {k : dag.Key}

theorem readsProduced_iff :
    readsProduced dag produced k = true ↔ ∀ r ∈ (dag.node k).reads, r ∈ produced := by
  simp [readsProduced]

theorem readsProduced_mono {t : TensorId} :
    readsProduced dag produced k = true → readsProduced dag (insert t produced) k = true := by
  intro h
  rw [readsProduced_iff] at h ⊢
  intro r hr
  exact Finset.mem_insert_of_mem (h r hr)

theorem ReorderState.init_inv : ReorderInv dag (init dag) := by
  refine ⟨?_, ?_, ?_, ?_⟩
  · simp [init]
  · intro r
    simp [init]
  · intro k
    simp [init, mem_insertReady]
  · intro j k h
    simp [init] at h

/-- Scheduling an op whose reads are produced keeps the order. -/
theorem OrderedKeys.snoc {ks : List dag.Key} : OrderedKeys dag ks →
      (∀ r ∈ (dag.node k).reads,
        r ∈ dag.externalReads ∨ ∃ d ∈ ks, (dag.node d).writes = r) →
        OrderedKeys dag (ks ++ [k]) := by
  intro hks hk j u hu r hr
  by_cases hj : j < ks.length
  · rw [getElem?_append_left hj] at hu
    rcases hks j u hu r hr with hext | ⟨p, d, hp, hd, hdr⟩
    · exact Or.inl hext
    · exact Or.inr ⟨p, d, hp, by rw [getElem?_append_left (by omega)]; exact hd, hdr⟩
  · have hjlen : j = ks.length := by
      have hlt := (List.getElem?_eq_some_iff.1 hu).1
      simp only [length_append, length_cons, length_nil] at hlt
      omega
    subst hjlen
    have huk : k = u := by
      simpa using hu
    subst huk
    rcases hk r hr with hext | ⟨d, hd, hdr⟩
    · exact Or.inl hext
    · rcases getElem?_of_mem hd with ⟨p, hp⟩
      have hplt := (List.getElem?_eq_some_iff.1 hp).1
      exact Or.inr ⟨p, d, hplt, by rw [getElem?_append_left hplt]; exact hp, hdr⟩

/-- One iteration keeps the loop invariant. -/
theorem ReorderState.commit_inv {st : ReorderState dag} {pick : dag.Key} :
    pick ∈ st.ready → ReorderInv dag st → ReorderInv dag (st.commit pick) := by
  intro hpick h
  have hun : pick ∈ st.unscheduled := st.ready_sub pick hpick
  refine ⟨?_, ?_, ?_, ?_⟩
  · have hmove : (pick :: st.unscheduled.erase pick).Perm st.unscheduled :=
      (perm_cons_erase hun).symm
    have happ := (hmove.append_left st.schedule).trans h.perm
    simpa [commit] using happ
  · intro r
    have hr := h.produced_iff r
    simp only [commit, Finset.mem_insert, hr, mem_append, mem_singleton]
    constructor
    · rintro (rfl | hext | ⟨k, hk, hkr⟩)
      · exact Or.inr ⟨pick, Or.inr rfl, rfl⟩
      · exact Or.inl hext
      · exact Or.inr ⟨k, Or.inl hk, hkr⟩
    · rintro (hext | ⟨k, hk | rfl, hkr⟩)
      · exact Or.inr (Or.inl hext)
      · exact Or.inr (Or.inr ⟨k, hk, hkr⟩)
      · exact Or.inl hkr.symm
  · intro k
    simp only [commit, mem_insertReady, mem_filter]
    constructor
    · rintro (⟨hk, hne⟩ | hk)
      · have hk' := (h.ready_iff k).1 hk
        refine ⟨?_, readsProduced_mono hk'.2⟩
        exact (mem_erase_of_ne (by simpa using hne)).2 hk'.1
      · exact hk
    · intro hk
      exact Or.inr hk
  · refine h.ordered.snoc ?_
    intro r hr
    have hprod := readsProduced_iff.1 ((h.ready_iff pick).1 hpick).2 r hr
    exact (h.produced_iff r).1 hprod

theorem reorderLoop_ok (n : Nat) :
    ∀ (st : ReorderState dag) (hn : st.unscheduled.length = n) (s : List OpId),
      ReorderInv dag st → reorderLoop dag n st hn = .ok s →
        ∃ ks : List dag.Key, s = ks.map val ∧ ks.Perm dag.keys ∧ OrderedKeys dag ks := by
  induction n with
  | zero =>
    intro st hn s h hs
    have hnil : st.unscheduled = [] := length_eq_zero_iff.1 hn
    refine ⟨st.schedule, ?_, ?_, h.ordered⟩
    · simpa [reorderLoop] using hs.symm
    · simpa [hnil] using h.perm
  | succ n ih =>
    intro st hn s h hs
    unfold reorderLoop at hs
    split at hs
    · cases hs
    · rename_i first rest hready
      refine ih _ _ s (commit_inv ?_ h) hs
      rw [hready]
      exact pickMax_mem st.remainingConsumers first rest

theorem reorder_ok {s : List OpId} :
    reorder dag = .ok s →
      ∃ ks : List dag.Key, s = ks.map val ∧ ks.Perm dag.keys ∧ OrderedKeys dag ks := by
  intro hs
  unfold reorder at hs
  split at hs
  · rename_i hempty
    have hkeys : dag.keys = [] := by
      have hlen : dag.keys.length = dag.len := by
        simp only [OpDag.keys, OpDag.len, length_map, length_attach]
      exact length_eq_zero_iff.1 (hlen.trans hempty)
    cases hs
    refine ⟨[], rfl, by rw [hkeys], ?_⟩
    intro j k h
    simp at h
  · exact reorderLoop_ok _ _ rfl s init_inv hs

end Invariant

end Planner
end Rustorch

/-!
# Lifetimes of a schedule

`lifetimeFor` walks a schedule and records each op's output at its position and each read at the
position of the reader.  Positions are cut to `u32`.

`lifetimeFor_spec` is the exact meaning of the table on an ordered schedule of at most `2^32`
ops: an output is defined at the position of its op and stays alive up to its last reader.
-/

namespace Rustorch
namespace Planner

/-! ## The walk -/

/-- Record one op at `step`: its output, then its reads. -/
def lifetimeStep (op : OpNode) (t : LifetimeTable) (step : Nat) : LifetimeTable :=
  op.reads.foldl (fun t r => t.recordUseIgnored r step)
    (t.recordDefWithAlign op.writes step op.bytes op.align)

/-- The table before the walk: external inputs, at step 0 with zero bytes. -/
def externalTable (dag : OpDag) : LifetimeTable :=
  dag.externalReads.dedup.foldl (fun t r => t.recordDef r 0 0) LifetimeTable.new

def lifetimeWalk (dag : OpDag) : List OpId → Nat → LifetimeTable → Option LifetimeTable
  | [], _, t => some t
  | id :: rest, step, t =>
    match dag.nodes.lookup id with
    | some op => lifetimeWalk dag rest (step + 1) (lifetimeStep op t (step % u32Size))
    | none => none

/-- Build the table of a schedule; `none` is the panic on an op the DAG does not have. -/
def lifetimeFor (dag : OpDag) (schedule : List OpId) : Option LifetimeTable :=
  lifetimeWalk dag schedule 0 (externalTable dag)

/-- The walk over ops that are known to be in the DAG. -/
def lifetimeWalkKeys (dag : OpDag) : List dag.Key → Nat → LifetimeTable → LifetimeTable
  | [], _, t => t
  | k :: rest, step, t =>
    lifetimeWalkKeys dag rest (step + 1) (lifetimeStep (dag.node k) t (step % u32Size))

section Walk

variable {dag : OpDag}

theorem OpDag.lookup_key (k : dag.Key) : dag.nodes.lookup k.1 = some (dag.node k) := by
  simp [OpDag.node]

/-- A schedule of the DAG's own ops never panics. -/
theorem lifetimeWalk_keys (ks : List dag.Key) :
    ∀ (step : Nat) (t : LifetimeTable),
      lifetimeWalk dag (ks.map Subtype.val) step t = some (lifetimeWalkKeys dag ks step t) := by
  induction ks with
  | nil =>
    intro step t
    rfl
  | cons k ks ih =>
    intro step t
    simp only [List.map_cons, lifetimeWalk, lifetimeWalkKeys, OpDag.lookup_key, ih]

/-! ## What one step does to a lookup -/

/-- Extend the last use of an interval. -/
def Interval.extend (iv : Interval) (step : Nat) : Interval :=
  { iv with lastUse := max iv.lastUse step }

theorem get_foldl_recordUse (reads : List TensorId) (step : Nat) :
    ∀ (t : LifetimeTable) (id : TensorId),
      (reads.foldl (fun t r => t.recordUseIgnored r step) t).get id =
        if id ∈ reads then (t.get id).map (fun iv => iv.extend step) else t.get id := by
  induction reads with
  | nil =>
    intro t id
    simp
  | cons r reads ih =>
    intro t id
    rw [List.foldl_cons, ih, LifetimeTable.get_recordUseIgnored]
    by_cases hr : id = r
    · subst hr
      cases hget : t.get id with
      | none => simp
      | some iv => simp [Interval.extend]
    · simp [hr]

variable {op : OpNode} {id : TensorId} {t : LifetimeTable} {ks : List dag.Key}

theorem get_lifetimeStep_of_ne (t : LifetimeTable) (step : Nat) : id ≠ op.writes →
      (lifetimeStep op t step).get id =
        if id ∈ op.reads then (t.get id).map (fun iv => iv.extend step) else t.get id := by
  intro hne
  rw [lifetimeStep, get_foldl_recordUse, LifetimeTable.get_recordDefWithAlign, if_neg hne]

/-- The step defines the op's output, if it was not in the table. -/
theorem get_lifetimeStep_writes {step : Nat} : t.get op.writes = none →
      (lifetimeStep op t step).get op.writes =
        some { defStep := step, lastUse := step, bytes := op.bytes, align := max op.align 1 } := by
  intro hnone
  rw [lifetimeStep, get_foldl_recordUse, LifetimeTable.get_recordDefWithAlign, if_pos rfl, hnone]
  split
  · simp [LifetimeTable.defInterval, Interval.extend]
  · simp [LifetimeTable.defInterval]

theorem get_foldl_recordDef (rs : List TensorId) :
    ∀ (t : LifetimeTable) (id : TensorId), id ∉ rs →
      (rs.foldl (fun t r => t.recordDef r 0 0) t).get id = t.get id := by
  induction rs with
  | nil =>
    intro t id _
    rfl
  | cons r rs ih =>
    intro t id hid
    have hne : id ≠ r := by
      intro h
      exact hid (h ▸ List.mem_cons_self)
    rw [List.foldl_cons, ih _ _ (fun h => hid (List.mem_cons_of_mem r h)),
      LifetimeTable.recordDef, LifetimeTable.get_recordDefWithAlign, if_neg hne]

theorem get_externalTable : id ∉ dag.externalReads → (externalTable dag).get id = none := by
  intro hid
  rw [externalTable, get_foldl_recordDef _ _ _ (by simpa using hid)]
  exact LifetimeTable.get_new id

/-! ## The table of an ordered schedule -/

/-- `iv` is the lifetime, among the first `n` positions, of the output of the op at `p`: defined
at `p`, and alive at every reader's position. -/
structure OutputInterval (dag : OpDag) (ks : List dag.Key) (n p : Nat) (k : dag.Key)
    (iv : Interval) : Prop where
  def_eq : iv.defStep = p
  def_le : p ≤ iv.lastUse
  bytes_eq : iv.bytes = (dag.node k).bytes
  last_ge : ∀ (j : Nat) (u : dag.Key), p < j → j < n → ks[j]? = some u →
    (dag.node k).writes ∈ (dag.node u).reads → j ≤ iv.lastUse

/-- The table after the first `n` ops of the schedule. -/
structure WalkInv (dag : OpDag) (ks : List dag.Key) (n : Nat) (t : LifetimeTable) : Prop where
  defined : ∀ (p : Nat) (k : dag.Key), p < n → ks[p]? = some k →
    ∃ iv, t.get (dag.node k).writes = some iv ∧ OutputInterval dag ks n p k iv
  fresh : ∀ (p : Nat) (k : dag.Key), n ≤ p → ks[p]? = some k → t.get (dag.node k).writes = none

/-- Writes are single assignments: distinct positions write distinct tensors, none external. -/
structure SingleAssignment (dag : OpDag) (ks : List dag.Key) : Prop where
  inj : ∀ (p q : Nat) (k u : dag.Key), ks[p]? = some k → ks[q]? = some u →
    (dag.node k).writes = (dag.node u).writes → p = q
  internal : ∀ k ∈ ks, (dag.node k).writes ∉ dag.externalReads

theorem walkInv_zero : SingleAssignment dag ks → WalkInv dag ks 0 (externalTable dag) := by
  intro hsa
  refine ⟨?_, ?_⟩
  · intro p k hp
    omega
  · intro p k _ hk
    exact get_externalTable (hsa.internal k (List.mem_of_getElem? hk))

theorem walkInv_step {n : Nat} {k : dag.Key} :
    SingleAssignment dag ks → ks[n]? = some k → WalkInv dag ks n t →
      WalkInv dag ks (n + 1) (lifetimeStep (dag.node k) t n) := by
  intro hsa hk h
  -- the op at `n` defines its own tensor and extends those that it reads; the others stay
  refine ⟨?_, ?_⟩
  · intro p u hp hu
    by_cases hpn : p = n
    · subst hpn
      cases hk.symm.trans hu
      refine ⟨_, get_lifetimeStep_writes (h.fresh p k (le_refl p) hk), ?_⟩
      refine ⟨rfl, le_refl p, rfl, ?_⟩
      intro j _ hpj hj
      omega
    · have hpn' : p < n := by
        omega
      rcases h.defined p u hpn' hu with ⟨iv, hget, hiv⟩
      have hne : (dag.node u).writes ≠ (dag.node k).writes := by
        intro heq
        exact hpn (hsa.inj p n u k hu hk heq)
      have hstep := get_lifetimeStep_of_ne t n hne
      by_cases hread : (dag.node u).writes ∈ (dag.node k).reads
      · refine ⟨iv.extend n, by simp [hstep, hread, hget], ?_⟩
        refine ⟨hiv.def_eq, le_trans hiv.def_le (le_max_left _ _), hiv.bytes_eq, ?_⟩
        intro j v hpj hj hv hvr
        by_cases hjn : j = n
        · exact hjn ▸ le_max_right _ _
        · exact le_trans (hiv.last_ge j v hpj (by omega) hv hvr) (le_max_left _ _)
      · refine ⟨iv, by simp [hstep, hread, hget], ?_⟩
        refine ⟨hiv.def_eq, hiv.def_le, hiv.bytes_eq, ?_⟩
        intro j v hpj hj hv hvr
        by_cases hjn : j = n
        · subst hjn
          cases hk.symm.trans hv
          exact absurd hvr hread
        · exact hiv.last_ge j v hpj (by omega) hv hvr
  · intro p u hp hu
    have hne : (dag.node u).writes ≠ (dag.node k).writes := by
      intro heq
      have := hsa.inj p n u k hu hk heq
      omega
    have hold : t.get (dag.node u).writes = none := h.fresh p u (by omega) hu
    rw [get_lifetimeStep_of_ne t n hne, hold]
    simp

theorem walkInv_walk : SingleAssignment dag ks → ks.length ≤ u32Size →
      ∀ (rest done : List dag.Key) (t : LifetimeTable), ks = done ++ rest →
        WalkInv dag ks done.length t →
          WalkInv dag ks ks.length (lifetimeWalkKeys dag rest done.length t) := by
  intro hsa hlen rest
  induction rest with
  | nil =>
    intro done t hsplit h
    have hdone : ks = done := by
      simpa using hsplit
    subst hdone
    exact h
  | cons k rest ih =>
    intro done t hsplit h
    have hk : ks[done.length]? = some k := by
      simp [hsplit]
    have hlt : done.length < u32Size := by
      have : done.length < ks.length := (getElem?_eq_some_iff.1 hk).1
      omega
    have hstep := ih (done ++ [k]) (lifetimeStep (dag.node k) t done.length)
      (by simp [hsplit]) (by simpa using walkInv_step hsa hk h)
    simpa [lifetimeWalkKeys, Nat.mod_eq_of_lt hlt] using hstep

theorem lifetimeFor_spec : SingleAssignment dag ks → ks.length ≤ u32Size →
      ∃ t, lifetimeFor dag (ks.map Subtype.val) = some t ∧ WalkInv dag ks ks.length t := by
  intro hsa hlen
  refine ⟨lifetimeWalkKeys dag ks 0 (externalTable dag), ?_, ?_⟩
  · exact lifetimeWalk_keys ks 0 (externalTable dag)
  · exact walkInv_walk hsa hlen ks [] (externalTable dag) rfl (walkInv_zero hsa)

end Walk

end Planner
end Rustorch
