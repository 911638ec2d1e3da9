import Rustorch.Planner.Plan

/-!
# Iteration order

A hash map or hash set may be iterated in any order, and in another order each time.  An
`Enumeration` is one choice of orders, for every place where the planner iterates one, and the
functions ending in `With` are the planner's functions under that choice.

The result does not depend on the choice: what is iterated is either folded with a commutative
step (consumer counts, sets, table rows of distinct tensors) or sorted under a key that is total
on the elements.  `reorderWith_eq`, `lifetimeForWith_same`, `planWith_eq` and
`planWithInplaceWith_eq` say so pass by pass, each against the pass of the same name under the
listed order, and `plannerPlanWith_eq` for the whole planner.
-/

namespace Rustorch
namespace Planner

open List Outcome LifetimeTable ReorderState Function

/-! ## Enumerations -/

/-- The places where the planner iterates a hash map or a hash set. -/
inductive HashWalk
  | consumers
  | produced
  | initialReady
  | round (left : Nat)
  | leftOver
  | readers
  | externals
  | rewriting
  | packing
  | checkpoints
  deriving DecidableEq, Repr

/-- A choice of iteration orders. -/
structure Enumeration where
  order : HashWalk → {α : Type} → List α → List α
  perm : ∀ (w : HashWalk) {α : Type} (l : List α), (order w l).Perm l

section Walks

variable (e : Enumeration)

/-! ## The planner under an enumeration -/

def externalReadsWith (w : HashWalk) (dag : OpDag) : List TensorId :=
  ((e.order w dag.values).flatMap OpNode.reads).filter (fun r => !dag.hasProducer r)

def ReorderState.initWith (dag : OpDag) : ReorderState dag :=
  let produced := (externalReadsWith e .produced dag).toFinset
  { remainingConsumers :=
      ((e.order .consumers dag.values).flatMap OpNode.reads).foldl
        (fun rc r => update rc r ((rc r + 1) % 2 ^ 32)) (fun _ => 0)
    produced := produced
    unscheduled := dag.keys
    ready := insertReady dag produced (e.order .initialReady dag.keys) []
    schedule := []
    ready_sub := by
      intro k hk
      rcases (mem_insertReady _ [] k).1 hk with h | h
      · cases h
      · exact (e.perm _ _).mem_iff.1 h.1 }

def ReorderState.commitWith {dag : OpDag} (st : ReorderState dag) (pick : dag.Key) :
    ReorderState dag :=
  let op := dag.node pick
  let unscheduled := st.unscheduled.erase pick
  let produced := insert op.writes st.produced
  { remainingConsumers :=
      op.reads.foldl (fun rc r => update rc r (rc r - 1)) st.remainingConsumers
    produced := produced
    unscheduled := unscheduled
    ready := insertReady dag produced (e.order (.round unscheduled.length) unscheduled)
      (st.ready.filter (fun k => k ≠ pick))
    schedule := st.schedule ++ [pick]
    ready_sub := by
      intro k hk
      rcases (mem_insertReady _ _ k).1 hk with h | h
      · have h' := mem_filter.1 h
        exact (mem_erase_of_ne (by simpa using h'.2)).2 (st.ready_sub k h'.1)
      · exact (e.perm _ _).mem_iff.1 h.1 }

def reorderLoopWith (dag : OpDag) :
    (n : Nat) → (st : ReorderState dag) → st.unscheduled.length = n →
      Except ReorderError (List OpId)
  | 0, st, _ => .ok (st.schedule.map Subtype.val)
  | n + 1, st, hn =>
    match hready : st.ready with
    | [] =>
      .error (.cycle ((e.order .leftOver (st.unscheduled.map Subtype.val)).insertionSort
        (fun a b => a.val ≤ b.val)))
    | first :: rest =>
      let pick := pickMax dag st.remainingConsumers first rest
      reorderLoopWith dag n (st.commitWith e pick) (by
        have hmem : pick ∈ st.unscheduled := by
          refine st.ready_sub pick ?_
          rw [hready]
          exact pickMax_mem st.remainingConsumers first rest
        have hlen := length_erase_of_mem hmem
        simp only [ReorderState.commitWith, hlen, hn, Nat.add_sub_cancel])

def reorderWith (dag : OpDag) : Except ReorderError (List OpId) :=
  if dag.len = 0 then
    .ok []
  else
    reorderLoopWith e dag (initWith e dag).unscheduled.length
      (initWith e dag) rfl

def externalTableWith (dag : OpDag) : LifetimeTable :=
  (e.order .externals (externalReadsWith e .readers dag).dedup).foldl
    (fun t r => t.recordDef r 0 0) new

def lifetimeForWith (dag : OpDag) (schedule : List OpId) : Option LifetimeTable :=
  lifetimeWalk dag schedule 0 (externalTableWith e dag)

def packingOrderWith (table : LifetimeTable) : List Row :=
  (e.order .packing table.iter).insertionSort (fun a b => rowLe a b = true)

def planWith (table : LifetimeTable) : PlanResult :=
  let packed := packRows (packingOrderWith e table)
  { slots := packed.1
    assignment := packed.2.map (fun e => (e.1.1, e.2)) }

def rewriteTableWith (table : LifetimeTable) (aliased : List TensorId)
    (merged : AList (fun _ : TensorId => Interval)) : LifetimeTable :=
  (e.order .rewriting table.iter).foldl (rewriteStep aliased merged) new

def planWithInplaceWith (table : LifetimeTable) (hints : List InPlaceHint)
    (blockers : InPlaceBlockers) : Option PlanResult := do
  let safe := acceptedHints table hints blockers
  let merged ← mergedIntervals table safe
  let rewritten := rewriteTableWith e table (safe.map InPlaceHint.output) merged
  safe.foldlM stitchStep (planWith e rewritten)

def suggestCheckpointsWith (dag : OpDag) : List OpId :=
  let bySize := (e.order .checkpoints dag.values).insertionSort (fun a b =>
    b.bytes < a.bytes ∨ (b.bytes = a.bytes ∧ a.id.val ≤ b.id.val))
  (bySize.take 5).map OpNode.id

def plannerPlanWith (input : PlannerInput) : Outcome PlannerError Schedule := do
  let ops ← mapErr PlannerError.reorder (ofExcept (reorderWith e input.dag))
  let table ← expect (lifetimeForWith e input.dag ops)
  let planResult ←
    if input.inplaceHints.isEmpty then
      pure (planWith e table)
    else
      expect (planWithInplaceWith e table input.inplaceHints input.blockers)
  match input.budget with
  | some budget =>
    if budget < planResult.peakBytes then
      .err (.overBudget planResult.peakBytes budget (suggestCheckpointsWith e input.dag))
    else
      .ok { ops := ops, plan := planResult }
  | none => .ok { ops := ops, plan := planResult }

end Walks

/-! ## One DAG in two orders -/

/-- The two DAGs hold the same nodes and the same producers, listed in any order. -/
structure SameDag (dag d : OpDag) : Prop where
  nodes : dag.nodes.entries.Perm d.nodes.entries
  producers : dag.producerOf.entries.Perm d.producerOf.entries

namespace SameDag

variable {dag d : OpDag}

variable (h : SameDag dag d)

include h

theorem lookup (id : OpId) : dag.nodes.lookup id = d.nodes.lookup id :=
  AList.perm_lookup h.nodes

theorem producer (t : TensorId) :
    dag.producerOf.lookup t = d.producerOf.lookup t :=
  AList.perm_lookup h.producers

theorem hasProducer (t : TensorId) : dag.hasProducer t = d.hasProducer t := by
  simp only [OpDag.hasProducer, ← AList.lookup_isSome, h.producer]

theorem node {k : dag.Key} {u : d.Key} :
    k.1 = u.1 → dag.node k = d.node u := by
  intro hku
  have hk := OpDag.lookup_key k
  rw [hku, h.lookup, OpDag.lookup_key u] at hk
  exact (Option.some.inj hk).symm

omit h in
theorem keys_val (dag : OpDag) : dag.keys.map Subtype.val = dag.nodes.keys := by
  rw [OpDag.keys, map_map]
  exact attach_map_subtype_val dag.nodes.keys

theorem keys :
    (dag.keys.map Subtype.val).Perm (d.keys.map Subtype.val) := by
  rw [keys_val, keys_val]
  exact h.nodes.map Sigma.fst

theorem len : dag.len = d.len := by
  have hlen := h.keys.length_eq
  rw [keys_val, keys_val] at hlen
  exact hlen

omit h in
theorem values_eq (dag : OpDag) :
    dag.values = (dag.keys.map Subtype.val).filterMap dag.nodes.lookup := by
  rw [filterMap_map, OpDag.values, ← filterMap_eq_map]
  refine congrArg (fun f => filterMap f dag.keys) ?_
  funext k
  exact (OpDag.lookup_key k).symm

theorem values : dag.values.Perm d.values := by
  rw [values_eq dag, values_eq d]
  have hlookup : dag.nodes.lookup = d.nodes.lookup := funext h.lookup
  rw [hlookup]
  exact h.keys.filterMap _

theorem externalReads (e : Enumeration) (w : HashWalk) :
    (externalReadsWith e w dag).Perm d.externalReads := by
  have hfilter : (fun r => !dag.hasProducer r) = fun r => !d.hasProducer r := by
    funext r
    rw [h.hasProducer]
  rw [externalReadsWith, OpDag.externalReads, hfilter]
  exact (((e.perm w _).trans h.values).flatMap_right _).filter _

omit h in
theorem of_enumerated {ops : List OpNode} :
    dag.EnumeratedFrom ops → d.EnumeratedFrom ops → SameDag dag d := by
  rintro ⟨built, hbuilt, hnodes, hproducers⟩ ⟨built', hbuilt', hnodes', hproducers'⟩
  rw [hbuilt] at hbuilt'
  cases hbuilt'
  exact ⟨hnodes.trans hnodes'.symm, hproducers.trans hproducers'.symm⟩

/-! ### Scores -/

theorem score (remaining : TensorId → Nat) (op : OpNode) :
    score dag remaining op = score d remaining op := by
  simp only [Planner.score, bytesFreed, h.lookup, h.producer]

theorem rankLe (remaining : TensorId → Nat) {a b : dag.Key} {a' b' : d.Key} :
    a.1 = a'.1 → b.1 = b'.1 → rankLe dag remaining a b = rankLe d remaining a' b' := by
  intro ha hb
  simp only [Planner.rankLe, h.node ha, h.node hb, h.score]

theorem pickMax (remaining : TensorId → Nat) (rest : List dag.Key) :
    ∀ (first : dag.Key) (first' : d.Key) (rest' : List d.Key), first.1 = first'.1 →
      rest.map Subtype.val = rest'.map Subtype.val →
        (pickMax dag remaining first rest).1 = (pickMax d remaining first' rest').1 := by
  induction rest with
  | nil =>
    intro first first' rest' hfirst hrest
    have hnil : rest' = [] := map_eq_nil_iff.1 hrest.symm
    rw [hnil]
    exact hfirst
  | cons k rest ih =>
    intro first first' rest' hfirst hrest
    cases rest' with
    | nil =>
      cases hrest
    | cons k' rest' =>
      rw [map_cons, map_cons, cons.injEq] at hrest
      refine ih _ _ rest' ?_ hrest.2
      simp only [h.rankLe remaining hfirst hrest.1]
      split
      · exact hrest.1
      · exact hfirst

end SameDag

/-! ## The ready set -/

section Ready

variable {dag d : OpDag}

/-- The ready ops in increasing order, each once. -/
def Ascending (l : List dag.Key) : Prop :=
  l.Pairwise (fun a b => a.1.val < b.1.val)

variable {k : dag.Key} {l : List dag.Key} {produced : Finset TensorId} {c : List dag.Key}
  {id : OpId} {ready : List dag.Key}

theorem key_ext {u : dag.Key} : k.1.val = u.1.val → k = u := by
  intro h
  refine Subtype.ext ?_
  cases hk : k.1 with
  | mk x =>
    cases hu : u.1 with
    | mk y =>
      rw [hk, hu] at h
      exact congrArg OpId.mk h

theorem ascending_orderedInsert :
    Ascending l → k ∉ l → Ascending (l.orderedInsert (fun a b => a.1.val ≤ b.1.val) k) := by
  intro hl hk
  induction l with
  | nil =>
    exact pairwise_singleton _ k
  | cons b l ih =>
    rcases pairwise_cons.1 hl with ⟨hb, htail⟩
    by_cases hle : k.1.val ≤ b.1.val
    · rw [orderedInsert_cons, if_pos hle]
      have hkb : k.1.val < b.1.val := by
        refine lt_of_le_of_ne hle ?_
        intro heq
        exact hk (key_ext heq ▸ mem_cons_self)
      refine pairwise_cons.2 ⟨?_, hl⟩
      intro u hu
      rcases mem_cons.1 hu with rfl | hu
      · exact hkb
      · exact lt_trans hkb (hb u hu)
    · rw [orderedInsert_cons, if_neg hle]
      refine pairwise_cons.2 ⟨?_, ih htail (fun h => hk (mem_cons_of_mem b h))⟩
      intro u hu
      rcases (mem_orderedInsert _).1 hu with rfl | hu
      · exact not_le.1 hle
      · exact hb u hu

theorem ascending_insertReady (candidates : List dag.Key) :
    ∀ ready : List dag.Key, Ascending ready →
      Ascending (insertReady dag produced candidates ready) := by
  induction candidates with
  | nil =>
    intro ready h
    exact h
  | cons c candidates ih =>
    intro ready h
    refine ih _ ?_
    beta_reduce
    split
    · unfold btreeInsert
      split
      · exact h
      · rename_i hc
        exact ascending_orderedInsert h hc
    · exact h

theorem ascending_unique {l' : List d.Key} : Ascending l → Ascending l' →
      (∀ id, id ∈ l.map Subtype.val ↔ id ∈ l'.map Subtype.val) →
        l.map Subtype.val = l'.map Subtype.val := by
  intro hl hl' hmem
  have hids : (l.map Subtype.val).Pairwise (fun a b : OpId => a.val < b.val) :=
    pairwise_map.2 hl
  have hids' : (l'.map Subtype.val).Pairwise (fun a b : OpId => a.val < b.val) :=
    pairwise_map.2 hl'
  have hnodup : ∀ ids : List OpId, ids.Pairwise (fun a b => a.val < b.val) → ids.Nodup := by
    intro ids h
    refine h.imp ?_
    intro a b hab heq
    exact lt_irrefl b.val (heq ▸ hab)
  have hperm : (l.map Subtype.val).Perm (l'.map Subtype.val) :=
    (perm_ext_iff_of_nodup (hnodup _ hids) (hnodup _ hids')).2 hmem
  refine Perm.eq_of_pairwise ?_ hids hids' hperm
  intro a b _ _ hab hba
  exact absurd (lt_trans hab hba) (lt_irrefl _)

theorem SameDag.readsProduced (h : SameDag dag d) {u : d.Key} :
    k.1 = u.1 → readsProduced dag produced k = readsProduced d produced u := by
  intro hku
  simp only [Planner.readsProduced, h.node hku]

theorem SameDag.exists_ready (h : SameDag dag d) {c' : List d.Key} :
    (∀ i, i ∈ c.map Subtype.val → i ∈ c'.map Subtype.val) →
      (∃ k ∈ c, k.1 = id ∧ Planner.readsProduced dag produced k = true) →
        ∃ k ∈ c', k.1 = id ∧ Planner.readsProduced d produced k = true := by
  rintro hsub ⟨k, hk, rfl, hprod⟩
  rcases mem_map.1 (hsub k.1 (mem_map_of_mem hk)) with ⟨u, hu, huk⟩
  refine ⟨u, hu, huk, ?_⟩
  rw [← h.readsProduced huk.symm]
  exact hprod

theorem mem_insertReady_ids : id ∈ (insertReady dag produced c ready).map Subtype.val ↔
      id ∈ ready.map Subtype.val ∨
        ∃ k ∈ c, k.1 = id ∧ readsProduced dag produced k = true := by
  constructor
  · intro hid
    rcases mem_map.1 hid with ⟨k, hk, rfl⟩
    rcases (mem_insertReady c ready k).1 hk with hk | ⟨hk, hprod⟩
    · exact Or.inl (mem_map_of_mem hk)
    · exact Or.inr ⟨k, hk, rfl, hprod⟩
  · rintro (hid | ⟨k, hk, rfl, hprod⟩)
    · rcases mem_map.1 hid with ⟨k, hk, rfl⟩
      exact mem_map_of_mem ((mem_insertReady c ready k).2 (Or.inl hk))
    · exact mem_map_of_mem ((mem_insertReady c ready k).2 (Or.inr ⟨hk, hprod⟩))

theorem SameDag.symm (h : SameDag dag d) : SameDag d dag :=
  ⟨h.nodes.symm, h.producers.symm⟩

/-- The next ready set does not depend on the order of the candidates. -/
theorem SameDag.insertReady (h : SameDag dag d) {c' ready' : List d.Key} :
    (c.map Subtype.val).Perm (c'.map Subtype.val) →
      ready.map Subtype.val = ready'.map Subtype.val → Ascending ready → Ascending ready' →
        (Planner.insertReady dag produced c ready).map Subtype.val =
          (Planner.insertReady d produced c' ready').map Subtype.val := by
  intro hc hready hasc hasc'
  refine ascending_unique (ascending_insertReady c ready hasc)
    (ascending_insertReady c' ready' hasc') ?_
  intro id
  rw [mem_insertReady_ids, mem_insertReady_ids, hready]
  constructor
  · rintro (hid | hid)
    · exact Or.inl hid
    · exact Or.inr (h.exists_ready (fun i hi => hc.mem_iff.1 hi) hid)
  · rintro (hid | hid)
    · exact Or.inl hid
    · exact Or.inr (h.symm.exists_ready (fun i hi => hc.mem_iff.2 hi) hid)

end Ready

/-! ## The loop -/

/-- Two loop states that differ only in how the unscheduled ops are listed. -/
structure Mirrors {dag d : OpDag} (st : ReorderState dag) (st' : ReorderState d) : Prop where
  consumers : st.remainingConsumers = st'.remainingConsumers
  produced : st.produced = st'.produced
  unscheduled : (st.unscheduled.map Subtype.val).Perm (st'.unscheduled.map Subtype.val)
  ready : st.ready.map Subtype.val = st'.ready.map Subtype.val
  schedule : st.schedule.map Subtype.val = st'.schedule.map Subtype.val
  ascending : Ascending st.ready
  ascending' : Ascending st'.ready

section Loop

variable {dag d : OpDag} (e : Enumeration)

/-- Counting one more consumer commutes. -/
instance : RightCommutative (fun (rc : TensorId → Nat) (r : TensorId) =>
    update rc r ((rc r + 1) % 2 ^ 32)) where
  right_comm := by
    intro rc a b
    by_cases hab : a = b
    · subst hab
      rfl
    · have hba : b ≠ a := Ne.symm hab
      simp only [update_of_ne hab, update_of_ne hba]
      exact update_comm hab _ _ rc

theorem mirrors_init (h : SameDag dag d) :
    Mirrors (initWith e dag) (init d) := by
  have hproduced : (externalReadsWith e .produced dag).toFinset = d.externalReads.toFinset :=
    toFinset_eq_of_perm _ _ (h.externalReads e .produced)
  have hkeys : ((e.order .initialReady dag.keys).map Subtype.val).Perm
      (d.keys.map Subtype.val) := ((e.perm _ _).map _).trans h.keys
  have hready : (insertReady dag (externalReadsWith e .produced dag).toFinset
        (e.order .initialReady dag.keys) []).map Subtype.val =
      (insertReady d d.externalReads.toFinset d.keys []).map Subtype.val := by
    rw [hproduced]
    exact h.insertReady hkeys rfl Pairwise.nil Pairwise.nil
  refine ⟨?_, hproduced, h.keys, hready, rfl, ?_, ?_⟩
  · exact (((e.perm .consumers dag.values).trans h.values).flatMap_right _).foldl_eq _
  · exact ascending_insertReady _ _ Pairwise.nil
  · exact ascending_insertReady _ _ Pairwise.nil

variable {k : dag.Key}

theorem map_filter_ne {l : List dag.Key} :
    (l.filter (fun u => u ≠ k)).map Subtype.val = (l.map Subtype.val).filter (fun i => i ≠ k.1) := by
  rw [filter_map]
  refine congrArg (map Subtype.val) (filter_congr ?_)
  intro u _
  simp [Subtype.ext_iff]

theorem mirrors_commit (h : SameDag dag d) {st : ReorderState dag} {st' : ReorderState d}
    {k' : d.Key} : k.1 = k'.1 → Mirrors st st' → Mirrors (st.commitWith e k) (st'.commit k') := by
  intro hk hm
  have hnode : dag.node k = d.node k' := h.node hk
  have hproduced : insert (dag.node k).writes st.produced =
      insert (d.node k').writes st'.produced := by
    rw [hnode, hm.produced]
  have hunscheduled : ((st.unscheduled.erase k).map Subtype.val).Perm
      ((st'.unscheduled.erase k').map Subtype.val) := by
    rw [map_erase Subtype.val_injective, map_erase Subtype.val_injective, hk]
    exact hm.unscheduled.erase k'.1
  have hready : (st.ready.filter (fun u => u ≠ k)).map Subtype.val =
      (st'.ready.filter (fun u => u ≠ k')).map Subtype.val := by
    rw [map_filter_ne, map_filter_ne, hm.ready, hk]
  refine ⟨?_, hproduced, hunscheduled, ?_, ?_, ?_, ?_⟩
  · simp only [ReorderState.commitWith, commit, hnode, hm.consumers]
  · simp only [ReorderState.commitWith, commit]
    rw [hproduced]
    exact h.insertReady (((e.perm _ _).map _).trans hunscheduled) hready
      (hm.ascending.filter _) (hm.ascending'.filter _)
  · simp only [ReorderState.commitWith, commit, map_append, map_cons, map_nil, hm.schedule, hk]
  · exact ascending_insertReady _ _ (hm.ascending.filter _)
  · exact ascending_insertReady _ _ (hm.ascending'.filter _)

theorem insertionSort_ids {l l' : List OpId} :
    l.Perm l' → l.insertionSort (fun a b => a.val ≤ b.val) =
      l'.insertionSort (fun a b => a.val ≤ b.val) := by
  intro hperm
  apply FirstFit.insertionSort_eq_of_perm hperm
  intro a _ b _ hab hba
  cases a with
  | mk x =>
    cases b with
    | mk y =>
      exact congrArg OpId.mk (le_antisymm hab hba)

theorem reorderLoopWith_eq (h : SameDag dag d) (n : Nat) :
    ∀ (st : ReorderState dag) (st' : ReorderState d) (hn : st.unscheduled.length = n)
      (hn' : st'.unscheduled.length = n), Mirrors st st' →
        reorderLoopWith e dag n st hn = reorderLoop d n st' hn' := by
  induction n with
  | zero =>
    intro st st' hn hn' hm
    exact congrArg Except.ok hm.schedule
  | succ n ih =>
    intro st st' hn hn' hm
    unfold reorderLoopWith reorderLoop
    split
    · rename_i hready
      have hready' : st'.ready = [] := by
        refine map_eq_nil_iff.1 (hm.ready.symm.trans ?_)
        rw [hready]
        rfl
      split
      · rw [insertionSort_ids ((e.perm _ _).trans hm.unscheduled)]
      · rename_i first' rest' hcons
        rw [hcons] at hready'
        cases hready'
    · rename_i first rest hready
      split
      · rename_i hnil
        have hmap := hm.ready
        rw [hready, hnil] at hmap
        cases hmap
      · rename_i first' rest' hcons
        have hmap := hm.ready
        rw [hready, hcons, map_cons, map_cons, cons.injEq] at hmap
        have hpick := h.pickMax st.remainingConsumers rest first first' rest' hmap.1 hmap.2
        rw [hm.consumers] at hpick
        refine ih _ _ _ _ (mirrors_commit e h ?_ hm)
        rw [hm.consumers]
        exact hpick

/-- The schedule does not depend on the iteration order. -/
theorem reorderWith_eq (h : SameDag dag d) : reorderWith e dag = reorder d := by
  have hm := mirrors_init e h
  have hlen : (init d).unscheduled.length = (initWith e dag).unscheduled.length := by
    simpa using hm.unscheduled.length_eq.symm
  unfold reorderWith reorder
  rw [h.len]
  split
  · rfl
  · rw [reorderLoopWith_eq e h _ _ (init d) rfl hlen hm]
    simp only [hlen]

end Loop

/-! ## Tables -/

/-- The two tables give every tensor the same interval. -/
def SameTable (t t' : LifetimeTable) : Prop :=
  ∀ id, t.get id = t'.get id

namespace SameTable

variable {t t' : LifetimeTable}

variable (h : SameTable t t')

include h

theorem recordDefWithAlign (id : TensorId) (step bytes align : Nat) :
    SameTable (t.recordDefWithAlign id step bytes align)
      (t'.recordDefWithAlign id step bytes align) := by
  intro i
  rw [get_recordDefWithAlign, get_recordDefWithAlign, h id, h i]

theorem recordUseIgnored (id : TensorId) (step : Nat) :
    SameTable (t.recordUseIgnored id step) (t'.recordUseIgnored id step) := by
  intro i
  rw [get_recordUseIgnored, get_recordUseIgnored, h id, h i]

theorem entries : t.intervals.entries.Perm t'.intervals.entries := by
  refine lookup_ext t.intervals.nodupKeys t'.intervals.nodupKeys ?_
  intro id iv
  have hid : t.intervals.lookup id = t'.intervals.lookup id := h id
  show t.intervals.lookup id = some iv ↔ t'.intervals.lookup id = some iv
  rw [hid]

theorem lifetimeStep (op : OpNode) (step : Nat) :
    SameTable (lifetimeStep op t step) (lifetimeStep op t' step) := by
  have hfold : ∀ (reads : List TensorId) (t t' : LifetimeTable), SameTable t t' →
      SameTable (reads.foldl (fun t r => t.recordUseIgnored r step) t)
        (reads.foldl (fun t r => t.recordUseIgnored r step) t') := by
    intro reads
    induction reads with
    | nil =>
      intro t t' h
      exact h
    | cons r reads ih =>
      intro t t' h
      exact ih _ _ (h.recordUseIgnored r step)
  exact hfold op.reads _ _ (h.recordDefWithAlign _ _ _ _)

end SameTable

theorem get_foldl_external (rs : List TensorId) :
    ∀ (t : LifetimeTable) (id : TensorId), rs.Nodup → (∀ r ∈ rs, t.get r = none) →
      (rs.foldl (fun t r => t.recordDef r 0 0) t).get id =
        if id ∈ rs then some (defInterval none 0 0 1) else t.get id := by
  induction rs with
  | nil =>
    intro t id _ _
    simp
  | cons r rs ih =>
    intro t id hnodup hfresh
    rcases nodup_cons.1 hnodup with ⟨hr, htail⟩
    have hget : ∀ i, (t.recordDef r 0 0).get i =
        if i = r then some (defInterval (t.get r) 0 0 1) else t.get i := by
      intro i
      rw [recordDef, get_recordDefWithAlign]
    have hfresh' : ∀ i ∈ rs, (t.recordDef r 0 0).get i = none := by
      intro i hi
      have hne : i ≠ r := by
        intro heq
        exact hr (heq ▸ hi)
      rw [hget, if_neg hne]
      exact hfresh i (mem_cons_of_mem r hi)
    rw [foldl_cons, ih _ id htail hfresh', hget, hfresh r mem_cons_self]
    by_cases hid : id ∈ rs
    · simp [hid]
    · by_cases heq : id = r <;> simp [hid, heq]

section Tables

variable (e : Enumeration)

variable {dag d : OpDag} {t t' : LifetimeTable} {aliased : List TensorId}
  {merged : AList (fun _ : TensorId => Interval)}

theorem externalTableWith_same (h : SameDag dag d) :
    SameTable (externalTableWith e dag) (externalTable d) := by
  intro id
  have hperm : (e.order .externals (externalReadsWith e .readers dag).dedup).Perm
      d.externalReads.dedup := (e.perm _ _).trans (h.externalReads e .readers).dedup
  have hnodup := d.externalReads.nodup_dedup
  rw [externalTableWith, externalTable,
    get_foldl_external _ _ id (hperm.nodup_iff.2 hnodup) (fun r _ => get_new r),
    get_foldl_external _ _ id hnodup (fun r _ => get_new r)]
  simp only [hperm.mem_iff]

theorem lifetimeWalk_same (h : SameDag dag d) (schedule : List OpId) :
    ∀ (step : Nat) (t t' : LifetimeTable), SameTable t t' →
      Option.Rel SameTable (lifetimeWalk dag schedule step t)
        (lifetimeWalk d schedule step t') := by
  induction schedule with
  | nil =>
    intro step t t' ht
    exact Option.Rel.some ht
  | cons id schedule ih =>
    intro step t t' ht
    unfold lifetimeWalk
    rw [h.lookup]
    cases d.nodes.lookup id with
    | none =>
      exact Option.Rel.none
    | some op =>
      exact ih _ _ _ (ht.lifetimeStep op _)

theorem lifetimeForWith_same (h : SameDag dag d) (schedule : List OpId) :
    Option.Rel SameTable (lifetimeForWith e dag schedule) (lifetimeFor d schedule) :=
  lifetimeWalk_same h schedule 0 _ _ (externalTableWith_same e h)

/-! ## Packing -/

theorem packingOrderWith_eq (t : LifetimeTable) : packingOrderWith e t = packingOrder t :=
  FirstFit.insertionSort_eq_of_perm (e.perm _ _) t.rowLe_antisymm

theorem planWith_eq : SameTable t t' → planWith e t = plan t' := by
  intro h
  calc
    planWith e t = plan t := by
      rw [planWith, plan, packingOrderWith_eq]
    _ = plan t' := plan_eq_of_perm h.entries

/-! ## In-place rewriting -/

/-- What one row does to its own tensor depends on the table only at that tensor. -/
theorem get_rewriteStep_congr {r : Row} : t.get r.1 = t'.get r.1 →
      (rewriteStep aliased merged t r).get r.1 = (rewriteStep aliased merged t' r).get r.1 := by
  intro h
  unfold rewriteStep
  split
  · exact h
  · simp only [get_recordUseIgnored, get_recordDefWithAlign, h]

/-- With distinct tensors, a tensor is written by its own row only. -/
theorem get_foldl_rewrite_row (rows : List Row) :
    ∀ t : LifetimeTable, (rows.map Prod.fst).Nodup → ∀ r ∈ rows,
      (rows.foldl (rewriteStep aliased merged) t).get r.1 =
        (rewriteStep aliased merged t r).get r.1 := by
  induction rows with
  | nil =>
    intro t _ r hr
    cases hr
  | cons a rows ih =>
    intro t hnodup r hr
    rcases nodup_cons.1 (map_cons ▸ hnodup) with ⟨ha, htail⟩
    rcases mem_cons.1 hr with rfl | hr
    · exact get_foldl_rewrite_of_ne rows _ _ ha
    · have hne : r.1 ≠ a.1 := by
        intro heq
        exact ha (heq ▸ mem_map_of_mem hr)
      rw [foldl_cons, ih _ htail r hr]
      exact get_rewriteStep_congr (get_rewriteStep_of_ne hne)

section

variable (h : SameTable t t')

include h

theorem SameTable.iter : t.iter.Perm t'.iter :=
  h.entries.map _

theorem rewriteTableWith_same (aliased : List TensorId)
    (merged : AList (fun _ : TensorId => Interval)) :
    SameTable (rewriteTableWith e t aliased merged) (rewriteTable t' aliased merged) := by
  intro id
  have hperm : (e.order .rewriting t.iter).Perm t'.iter := (e.perm _ _).trans h.iter
  have hnodup := (hperm.map Prod.fst).nodup_iff.2 t'.nodup_iter_ids
  by_cases hid : id ∈ t'.iter.map Prod.fst
  · rcases mem_map.1 hid with ⟨r, hr, rfl⟩
    rw [rewriteTableWith, rewriteTable, get_foldl_rewrite_row _ _ hnodup r (hperm.mem_iff.2 hr),
      get_foldl_rewrite_row _ _ t'.nodup_iter_ids r hr]
  · have hid' : id ∉ (e.order .rewriting t.iter).map Prod.fst := by
      intro hmem
      exact hid ((hperm.map Prod.fst).mem_iff.1 hmem)
    rw [rewriteTableWith, rewriteTable, get_foldl_rewrite_of_ne _ _ _ hid',
      get_foldl_rewrite_of_ne _ _ _ hid]

theorem SameTable.evaluateHint (hint : InPlaceHint) (blockers : InPlaceBlockers) :
    evaluateHint t hint blockers = evaluateHint t' hint blockers := by
  simp only [Planner.evaluateHint, h hint.input, h hint.output]

theorem SameTable.acceptedHints (hints : List InPlaceHint) (blockers : InPlaceBlockers) :
    acceptedHints t hints blockers = acceptedHints t' hints blockers := by
  have hstep : Claims.step t blockers = Claims.step t' blockers := by
    funext c hint
    simp only [Claims.step, h.evaluateHint]
  rw [Planner.acceptedHints, Planner.acceptedHints, hstep]

theorem SameTable.mergedIntervals (safe : List InPlaceHint) :
    mergedIntervals t safe = mergedIntervals t' safe := by
  simp only [Planner.mergedIntervals, h _]

theorem planWithInplaceWith_eq (hints : List InPlaceHint) (blockers : InPlaceBlockers) :
    planWithInplaceWith e t hints blockers = planWithInplace t' hints blockers := by
  rw [planWithInplaceWith, planWithInplace, h.acceptedHints, h.mergedIntervals]
  refine congrArg (Option.bind _) ?_
  funext merged
  simp only [planWith_eq e (rewriteTableWith_same e h _ merged)]

/-! ## Checkpoint suggestions -/

end

/-- The ops of a DAG have distinct ids, so the ranking key is total. -/
theorem suggestCheckpointsWith_eq (h : SameDag dag d) :
    suggestCheckpointsWith e dag = suggestCheckpoints d := by
  have hperm : (e.order .checkpoints dag.values).Perm d.values := (e.perm _ _).trans h.values
  have htotal : Std.Total (fun a b : OpNode =>
      b.bytes < a.bytes ∨ (b.bytes = a.bytes ∧ a.id.val ≤ b.id.val)) := by
    refine ⟨?_⟩
    intro a b
    omega
  have htrans : IsTrans OpNode (fun a b =>
      b.bytes < a.bytes ∨ (b.bytes = a.bytes ∧ a.id.val ≤ b.id.val)) := by
    refine ⟨?_⟩
    intro a b c hab hbc
    omega
  have hsorted : (e.order .checkpoints dag.values).insertionSort (fun a b =>
        b.bytes < a.bytes ∨ (b.bytes = a.bytes ∧ a.id.val ≤ b.id.val)) =
      d.values.insertionSort (fun a b =>
        b.bytes < a.bytes ∨ (b.bytes = a.bytes ∧ a.id.val ≤ b.id.val)) := by
    apply FirstFit.insertionSort_eq_of_perm hperm
    intro a ha b hb hab hba
    have hval : a.id.val = b.id.val := by
      omega
    rcases mem_map.1 ha with ⟨k, _, rfl⟩
    rcases mem_map.1 hb with ⟨u, _, rfl⟩
    have hk := d.keyed k.1 _ (OpDag.lookup_key k)
    have hu := d.keyed u.1 _ (OpDag.lookup_key u)
    rw [hk, hu] at hval
    rw [key_ext hval]
  rw [suggestCheckpointsWith, suggestCheckpoints, hsorted]

/-! ## The whole planner -/

/-- Under any enumeration, and on any listing of the DAG, the planner returns what it returns on
one listing. -/
theorem plannerPlanWith_eq (h : SameDag dag d) (hints : List InPlaceHint)
    (blockers : InPlaceBlockers) (budget : Option Nat) :
    plannerPlanWith e { dag := dag, inplaceHints := hints, blockers := blockers, budget := budget } =
      plannerPlan { dag := d, inplaceHints := hints, blockers := blockers, budget := budget } := by
  unfold plannerPlanWith plannerPlan
  simp only [reorderWith_eq e h, suggestCheckpointsWith_eq e h]
  cases reorder d with
  | error err =>
    rfl
  | ok ops =>
    simp only [ofExcept_ok, mapErr, ok_bind]
    have htable := lifetimeForWith_same e h ops
    cases hwith : lifetimeForWith e dag ops with
    | none =>
      rw [hwith] at htable
      cases hplain : lifetimeFor d ops with
      | none => rfl
      | some t' =>
        rw [hplain] at htable
        cases htable
    | some t =>
      rw [hwith] at htable
      cases hplain : lifetimeFor d ops with
      | none =>
        rw [hplain] at htable
        cases htable
      | some t' =>
        rw [hplain] at htable
        cases htable with
        | some ht =>
          -- the two readings of the budget are matches of their own, so each case is taken first
          cases budget with
          | none =>
            simp only [expect_some, ok_bind, planWith_eq e ht, planWithInplaceWith_eq e ht]
          | some limit =>
            simp only [expect_some, ok_bind, planWith_eq e ht, planWithInplaceWith_eq e ht]

end Tables

/-- Two runs of the planner on DAGs built from the same ops, with the same hints, blockers and
budget, and with any iteration orders, return the same result. -/
theorem plannerPlan_order_independent (e e' : Enumeration) {ops : List OpNode} {dag dag' : OpDag}
    (hints : List InPlaceHint) (blockers : InPlaceBlockers) (budget : Option Nat) :
    dag.EnumeratedFrom ops → dag'.EnumeratedFrom ops →
      plannerPlanWith e
          { dag := dag, inplaceHints := hints, blockers := blockers, budget := budget } =
        plannerPlanWith e'
          { dag := dag', inplaceHints := hints, blockers := blockers, budget := budget } := by
  intro hdag hdag'
  calc
    plannerPlanWith e { dag := dag, inplaceHints := hints, blockers := blockers, budget := budget }
        = plannerPlan
            { dag := dag, inplaceHints := hints, blockers := blockers, budget := budget } :=
          plannerPlanWith_eq e (SameDag.of_enumerated hdag hdag) hints blockers budget
    _ = plannerPlanWith e'
            { dag := dag', inplaceHints := hints, blockers := blockers, budget := budget } :=
          (plannerPlanWith_eq e' (SameDag.of_enumerated hdag' hdag) hints blockers budget).symm

/-- Every walk in the listed order. -/
def Enumeration.listed : Enumeration where
  order := fun _ _ l => l
  perm := fun _ _ l => Perm.refl l

/-- Every walk backwards. -/
def Enumeration.backwards : Enumeration where
  order := fun _ _ l => l.reverse
  perm := fun _ _ l => reverse_perm l

theorem plannerPlan_order_independent_chain :
    plannerPlanWith Enumeration.listed chainInput =
      plannerPlanWith Enumeration.backwards chainInput :=
  @plannerPlan_order_independent Enumeration.listed Enumeration.backwards chainOps chainInput.dag
    chainInput.dag [] InPlaceBlockers.new (some 64)
    ⟨chainInput.dag, by simp [chainInput], Perm.refl _, Perm.refl _⟩
    ⟨chainInput.dag, by simp [chainInput], Perm.refl _, Perm.refl _⟩

end Planner
end Rustorch
