import Rustorch.Lib.CellRun
import Rustorch.Planner.InPlace
import Rustorch.Planner.Reorder

/-!
# The end-to-end planner

`plannerPlan` reorders the DAG, computes the lifetimes of the schedule and packs them.  Executing
the schedule with one memory cell per slot is the cell machine of `CellRun`.

`plan_executes_dag` is the soundness of the composed passes: every op reads the values of the
single-assignment execution of the DAG, and every slot is as large as its tenants.
-/

namespace Rustorch
namespace Planner

open List Option Outcome OpDag Subtype

structure PlannerInput where
  dag : OpDag
  inplaceHints : List InPlaceHint
  blockers : InPlaceBlockers
  budget : Option Nat

structure Schedule where
  ops : List OpId
  plan : PlanResult
  deriving DecidableEq, Repr

inductive PlannerError
  | reorder (e : ReorderError)
  | plan (e : PlanError)
  | overBudget (required budget : Nat) (suggestedCheckpoints : List OpId)
  deriving DecidableEq, Repr

/-- The five ops with the largest outputs, ties by id. -/
def suggestCheckpoints (dag : OpDag) : List OpId :=
  let bySize := dag.values.insertionSort (fun a b =>
    b.bytes < a.bytes ∨ (b.bytes = a.bytes ∧ a.id.val ≤ b.id.val))
  (bySize.take 5).map OpNode.id

/-- `Planner::plan`.  The source also calls `plan_with_budget` and drops its result. -/
def plannerPlan (input : PlannerInput) : Outcome PlannerError Schedule := do
  let ops ← mapErr PlannerError.reorder (ofExcept (reorder input.dag))
  let table ← expect (lifetimeFor input.dag ops)
  let planResult ←
    if input.inplaceHints.isEmpty then
      pure (plan table)
    else
      expect (planWithInplace table input.inplaceHints input.blockers)
  match input.budget with
  | some budget =>
    if budget < planResult.peakBytes then
      .err (.overBudget planResult.peakBytes budget (suggestCheckpoints input.dag))
    else
      .ok { ops := ops, plan := planResult }
  | none => .ok { ops := ops, plan := planResult }

/-! ## Building the DAG -/

/-- `dag` is what `add_op` builds from `ops`, with its hash maps in any iteration order. -/
def OpDag.EnumeratedFrom (dag : OpDag) (ops : List OpNode) : Prop :=
  ∃ built, build ops = some built ∧ dag.nodes.entries.Perm built.nodes.entries ∧
    dag.producerOf.entries.Perm built.producerOf.entries

/-- The DAG after adding `done`: the nodes are the ops added, and the producer map is exact. -/
structure BuildInv (dag : OpDag) (done : List OpNode) : Prop where
  node_iff : ∀ id op, dag.nodes.lookup id = some op ↔ op ∈ done ∧ op.id = id
  exact : dag.Exact

variable {dag : OpDag}

theorem addOp_inv {dag' : OpDag} {done : List OpNode} {op : OpNode} :
    (∀ d ∈ done, d.id ≠ op.id) → BuildInv dag done → dag.addOp op = some dag' →
      BuildInv dag' (done ++ [op]) := by
  intro hfresh h hadd
  unfold addOp at hadd
  split at hadd
  · cases hadd
  · rename_i hwrites
    cases hadd
    have hnode : ∀ id, id ≠ op.id →
        (dag.nodes.insert op.id op).lookup id = dag.nodes.lookup id := by
      intro id hne
      exact AList.lookup_insert_ne hne
    have hself : (dag.nodes.insert op.id op).lookup op.id = some op := AList.lookup_insert _
    -- the ids are fresh, so inserting the new op hides no op added before
    have hold : ∀ id d, dag.nodes.lookup id = some d → id ≠ op.id := by
      intro id d hd heq
      have hmem := (h.node_iff id d).1 hd
      exact hfresh d hmem.1 (hmem.2.trans heq)
    refine ⟨?_, ?_⟩
    · intro id d
      by_cases hid : id = op.id
      · -- the new key holds the new op, and no op added before has this id
        subst hid
        rw [hself]
        constructor
        · intro hd
          cases hd
          exact ⟨by simp, rfl⟩
        · rintro ⟨hmem, hdid⟩
          rcases mem_append.1 hmem with hmem | hmem
          · exact absurd hdid (hfresh d hmem)
          · have hdop : d = op := by
              simpa using hmem
            rw [hdop]
      · rw [hnode id hid, h.node_iff id d]
        constructor
        · rintro ⟨hmem, hdid⟩
          exact ⟨mem_append_left [op] hmem, hdid⟩
        · rintro ⟨hmem, hdid⟩
          rcases mem_append.1 hmem with hmem | hmem
          · exact ⟨hmem, hdid⟩
          · have hdop : d = op := by
              simpa using hmem
            exact absurd (hdop ▸ hdid).symm hid
    · intro t id
      by_cases ht : t = op.writes
      · -- the tensor written by the new op had no producer, or `add_op` had refused it
        subst ht
        rw [AList.lookup_insert]
        constructor
        · intro hid
          cases hid
          exact ⟨op, hself, rfl⟩
        · rintro ⟨d, hd, hdw⟩
          by_cases hid : id = op.id
          · rw [hid]
          · rw [hnode id hid] at hd
            have hprod := (h.exact op.writes id).2 ⟨d, hd, hdw⟩
            exact absurd (AList.lookup_isSome.1 (by rw [hprod]; rfl)) hwrites
      · -- the producer of another tensor is an op added before
        rw [AList.lookup_insert_ne ht, h.exact t id]
        constructor
        · rintro ⟨d, hd, hdw⟩
          exact ⟨d, by rw [hnode id (hold id d hd)]; exact hd, hdw⟩
        · rintro ⟨d, hd, hdw⟩
          by_cases hid : id = op.id
          · subst hid
            rw [hself] at hd
            cases hd
            exact absurd hdw.symm ht
          · rw [hnode id hid] at hd
            exact ⟨d, hd, hdw⟩

theorem build_foldlM_inv (rest : List OpNode) :
    ∀ (done : List OpNode) (dag dag' : OpDag), ((done ++ rest).map OpNode.id).Nodup →
      BuildInv dag done → rest.foldlM addOp dag = some dag' →
        BuildInv dag' (done ++ rest) := by
  induction rest with
  | nil =>
    intro done dag dag' _ h hfold
    have heq : dag = dag' := by
      simpa using hfold
    subst heq
    simpa using h
  | cons op rest ih =>
    intro done dag dag' hnodup h hfold
    cases hadd : dag.addOp op with
    | none =>
      simp [hadd] at hfold
    | some mid =>
      have hfresh : ∀ d ∈ done, d.id ≠ op.id := by
        intro d hd heq
        have hsplit : (done.map OpNode.id ++ op.id :: rest.map OpNode.id).Nodup := by
          simpa using hnodup
        exact (nodup_append.1 hsplit).2.2 d.id (mem_map_of_mem hd) op.id
          mem_cons_self heq
      have hnext := ih (done ++ [op]) mid dag' (by simpa using hnodup)
        (addOp_inv hfresh h hadd) (by simpa [hadd] using hfold)
      simpa using hnext

variable {ops : List OpNode}

theorem OpDag.EnumeratedFrom.inv :
    (ops.map OpNode.id).Nodup → dag.EnumeratedFrom ops → BuildInv dag ops := by
  rintro hnodup ⟨built, hbuilt, hnodes, hproducers⟩
  have hempty : BuildInv new [] := by
    refine ⟨?_, ?_⟩
    · intro id op
      simp [new]
    · intro t id
      simp [new]
  have h := build_foldlM_inv ops [] new built (by simpa using hnodup) hempty hbuilt
  have hnode : ∀ id, dag.nodes.lookup id = built.nodes.lookup id := fun id =>
    AList.perm_lookup hnodes
  have hproducer : ∀ t, dag.producerOf.lookup t = built.producerOf.lookup t := fun t =>
    AList.perm_lookup hproducers
  refine ⟨?_, ?_⟩
  · intro id op
    rw [hnode]
    simpa using h.node_iff id op
  · intro t id
    rw [hproducer, h.exact t id]
    simp only [hnode]

/-! ## Single assignment -/

section Assignment

variable {dag : OpDag} {ks : List dag.Key}

variable {r : TensorId}

theorem OpDag.hasProducer_iff (hexact : dag.Exact) :
    dag.hasProducer r = true ↔ ∃ k : dag.Key, (dag.node k).writes = r := by
  simp only [hasProducer, decide_eq_true_eq, ← AList.lookup_isSome]
  constructor
  · intro h
    rcases isSome_iff_exists.1 h with ⟨id, hid⟩
    rcases (hexact r id).1 hid with ⟨op, hop, hw⟩
    let k : dag.Key := ⟨id, AList.lookup_isSome.1 (by rw [hop]; rfl)⟩
    have hk : dag.node k = op := some.inj ((lookup_key k).symm.trans hop)
    exact ⟨k, by rw [hk]; exact hw⟩
  · rintro ⟨k, rfl⟩
    rw [(hexact _ k.1).2 ⟨dag.node k, lookup_key k, rfl⟩]
    rfl

theorem OpDag.writes_injective (hexact : dag.Exact) {k u : dag.Key} :
    (dag.node k).writes = (dag.node u).writes → k = u := by
  intro h
  have hk := (hexact _ k.1).2 ⟨dag.node k, lookup_key k, rfl⟩
  have hu := (hexact _ u.1).2 ⟨dag.node u, lookup_key u, rfl⟩
  rw [h, hu] at hk
  exact Subtype.ext (some.inj hk).symm

theorem OpDag.externalReads_not_produced : r ∈ dag.externalReads → dag.hasProducer r = false := by
  intro h
  simpa using (mem_filter.1 h).2

theorem singleAssignment_of_perm (hexact : dag.Exact) :
    ks.Perm dag.keys → SingleAssignment dag ks := by
  intro hperm
  have hnodup : ks.Nodup := hperm.nodup_iff.2 nodup_keys
  refine ⟨?_, ?_⟩
  · intro p q k u hp hq hw
    have hku := writes_injective hexact hw
    subst hku
    have hplt := (List.getElem?_eq_some_iff.1 hp).1
    exact (getElem?_inj hplt hnodup).1 (hp.trans hq.symm)
  · intro k _ hext
    have hprod := (hasProducer_iff hexact).2 ⟨k, rfl⟩
    rw [externalReads_not_produced hext] at hprod
    cases hprod

end Assignment

/-! ## Executing a schedule with one cell per slot -/

open CellRun (Instr)

def OpNode.instr (op : OpNode) : Instr TensorId OpId :=
  { op := op.id, reads := op.reads, writes := op.writes }

/-- The straight-line program of a schedule. -/
def program (dag : OpDag) (ops : List OpId) : List (Instr TensorId OpId) :=
  ops.filterMap (fun id => (dag.nodes.lookup id).map OpNode.instr)

/-- Every op reads, from the slots, the values of the single-assignment execution of the DAG. -/
def ExecutesAsSSA (dag : OpDag) (s : Schedule) : Prop :=
  ∀ (V : Type) (sem : OpId → List V → V) (outer : TensorId → V) (mem : Option Nat → V),
    ∃ val : TensorId → V,
      (CellRun.Solves (program dag s.ops) sem outer val ∧
        ∀ val', CellRun.Solves (program dag s.ops) sem outer val' → val' = val) ∧
      CellRun.runCells dag.hasProducer s.plan.slotOf sem outer mem (program dag s.ops) =
        (program dag s.ops).map (fun i => i.reads.map val)

/-- At the step an op runs, the last write into the slot of a produced input was made by the
input's producer. -/
def LastWriteByProducer (dag : OpDag) (s : Schedule) : Prop :=
  ∀ (j : Nat) (i : Instr TensorId OpId), (program dag s.ops)[j]? = some i →
    ∀ r ∈ i.reads, dag.hasProducer r = true →
      ∃ p id, CellRun.lastWriter s.plan.slotOf (program dag s.ops) (s.plan.slotOf r) j = some p ∧
        s.ops[p]? = some id ∧ dag.producerOf.lookup r = some id

def SlotsLargeEnough (ops : List OpNode) (p : PlanResult) : Prop :=
  ∀ s ∈ p.slots, ∀ op ∈ ops, op.writes ∈ s.tenants → op.bytes ≤ s.bytes

section Execution

variable {dag : OpDag} {ks : List dag.Key}

theorem program_keys (ks : List dag.Key) :
    program dag (ks.map val) = ks.map (fun k => (dag.node k).instr) := by
  induction ks with
  | nil =>
    rfl
  | cons k ks ih =>
    simp only [program, map_cons, filterMap_cons, lookup_key, map_some]
    exact congrArg _ ih

theorem getElem?_program {j : Nat} {i : Instr TensorId OpId} :
    (program dag (ks.map val))[j]? = some i ↔ ∃ k, ks[j]? = some k ∧ (dag.node k).instr = i := by
  rw [program_keys, getElem?_map]
  cases ks[j]? with
  | none => simp
  | some k => simp

variable {t : LifetimeTable}

variable (hexact : dag.Exact)

include hexact

/-- Packing disjoint lifetimes leaves every value undisturbed until its last read. -/
theorem undisturbed_plan :
    ks.Perm dag.keys → OrderedKeys dag ks → WalkInv dag ks ks.length t →
      CellRun.Undisturbed dag.hasProducer (plan t).slotOf (program dag (ks.map val)) := by
  intro hperm hord ht j i hi r hr hprod
  have hsa := singleAssignment_of_perm hexact hperm
  rcases getElem?_program.1 hi with ⟨k, hk, rfl⟩
  rcases hord j k hk r hr with hext | ⟨p, d, hpj, hd, rfl⟩
  · rw [externalReads_not_produced hext] at hprod
    cases hprod
  · refine ⟨p, (dag.node d).instr, hpj, getElem?_program.2 ⟨d, hd, rfl⟩, rfl, ?_⟩
    intro q e hpq hqj he hcell
    rcases getElem?_program.1 he with ⟨u, hu, rfl⟩
    have hplt := (List.getElem?_eq_some_iff.1 hd).1
    have hqlt := (List.getElem?_eq_some_iff.1 hu).1
    have hjlt := (List.getElem?_eq_some_iff.1 hk).1
    rcases ht.defined p d hplt hd with ⟨ivd, hgetd, hivd⟩
    rcases ht.defined q u hqlt hu with ⟨ivu, hgetu, hivu⟩
    have hne : (dag.node d).writes ≠ (dag.node u).writes := by
      intro heq
      have := hsa.inj p q d u hd hu heq
      omega
    rcases exists_slotOf hgetd with ⟨c, hc, _⟩
    have hcu : (plan t).slotOf (dag.node u).writes = some c := hcell.trans hc
    have hdisj := plan_disjoint hgetd hgetu hne (slotOf_eq_some.1 hc) (slotOf_eq_some.1 hcu)
    -- The producer's value is alive from `p` to the read at `j`, so it is alive at `q`.
    have halive : ivd.Alive q := by
      have hlast := hivd.last_ge j k hpj hjlt hk hr
      have hdef := hivd.def_eq
      exact ⟨by omega, by omega⟩
    have hborn : ivu.Alive q := ⟨le_of_eq hivu.def_eq, hivu.def_le⟩
    have hover := (Interval.overlaps_iff (t.valid _ _ hgetd) (t.valid _ _ hgetu)).2
      ⟨q, halive, hborn⟩
    rw [hdisj] at hover
    cases hover

theorem ordered_program :
    ks.Perm dag.keys → OrderedKeys dag ks →
      CellRun.Ordered (program dag (ks.map val)) := by
  intro hperm hord j i hi r hr
  rcases getElem?_program.1 hi with ⟨k, hk, rfl⟩
  rcases hord j k hk r hr with hext | ⟨p, d, hpj, hd, hdr⟩
  · refine Or.inl ?_
    intro e he heq
    rcases getElem?_of_mem he with ⟨q, hq⟩
    rcases getElem?_program.1 hq with ⟨u, _, rfl⟩
    have hprod := (hasProducer_iff hexact).2 ⟨u, heq⟩
    rw [externalReads_not_produced hext] at hprod
    cases hprod
  · exact Or.inr ⟨p, _, hpj, getElem?_program.2 ⟨d, hd, rfl⟩, hdr⟩

theorem nodup_program_writes :
    ks.Perm dag.keys →
      ((program dag (ks.map val)).map Instr.writes).Nodup := by
  intro hperm
  rw [program_keys, List.map_map]
  refine List.Nodup.map ?_ (hperm.nodup_iff.2 nodup_keys)
  intro k u h
  exact writes_injective hexact h

theorem solves_external {V : Type} {sem : OpId → List V → V} {outer val : TensorId → V} :
    CellRun.Solves (program dag (ks.map Subtype.val)) sem outer val →
      ∀ n, dag.hasProducer n = false → val n = outer n := by
  intro hval n hn
  refine hval.2 n ?_
  intro i hi heq
  rcases getElem?_of_mem hi with ⟨q, hq⟩
  rcases getElem?_program.1 hq with ⟨u, _, rfl⟩
  have hprod := (hasProducer_iff hexact).2 ⟨u, heq⟩
  rw [hn] at hprod
  cases hprod

theorem executesAsSSA_plan :
    ks.Perm dag.keys → OrderedKeys dag ks → WalkInv dag ks ks.length t →
      ExecutesAsSSA dag { ops := ks.map Subtype.val, plan := plan t } := by
  intro hperm hord ht V sem outer mem
  have hprog := ordered_program hexact hperm hord
  have hval := CellRun.runEnv_solves sem outer (nodup_program_writes hexact hperm) hprog
  refine ⟨_, ⟨hval, ?_⟩, ?_⟩
  · intro val' hval'
    exact hval'.eq hprog hval
  · exact CellRun.runCells_eq (solves_external hexact hval) hval.1
      (undisturbed_plan hexact hperm hord ht) mem

theorem lastWriteByProducer_plan :
    ks.Perm dag.keys → OrderedKeys dag ks → WalkInv dag ks ks.length t →
      LastWriteByProducer dag { ops := ks.map val, plan := plan t } := by
  intro hperm hord ht j i hi r hr hprod
  rcases undisturbed_plan hexact hperm hord ht j i hi r hr hprod with ⟨p, d, hpj, hd, hdr, hquiet⟩
  rcases getElem?_program.1 hd with ⟨u, hu, rfl⟩
  refine ⟨p, u.1, CellRun.lastWriter_of_undisturbed hd (by rw [hdr]) j hpj hquiet, ?_, ?_⟩
  · simp only [getElem?_map, hu, map_some]
  · exact (hexact r u.1).2 ⟨dag.node u, lookup_key u, hdr⟩

end Execution

/-! ## Soundness of the composed passes -/

/-- The run leaves the machine ranges nowhere: positions fit `u32`, and no `round_up` of the
packing run wraps. -/
structure InRange (dag : OpDag) : Prop where
  steps : dag.len ≤ u32Size
  rounding : ∀ ops t, reorder dag = .ok ops → lifetimeFor dag ops = some t → PackInRange t

/-- The schedule lists the ops once, gives every output a slot, runs the DAG in the slots, and
its slots are large enough. -/
structure SoundSchedule (dag : OpDag) (ops : List OpNode) (s : Schedule) : Prop where
  complete : s.ops.Perm (ops.map OpNode.id)
  placed : ∀ op ∈ ops, (s.plan.slotOf op.writes).isSome = true
  executes : ExecutesAsSSA dag s
  lastWrite : LastWriteByProducer dag s
  large : SlotsLargeEnough ops s.plan

theorem plannerPlan_ok {input : PlannerInput} {s : Schedule} :
    input.inplaceHints = [] → plannerPlan input = .ok s →
      ∃ t, reorder input.dag = .ok s.ops ∧ lifetimeFor input.dag s.ops = some t ∧
        s.plan = plan t := by
  intro hhints hs
  cases hre : reorder input.dag with
  | error e =>
    simp [plannerPlan, hre, mapErr] at hs
  | ok ops =>
    cases hlife : lifetimeFor input.dag ops with
    | none =>
      simp [plannerPlan, hre, hlife, mapErr] at hs
    | some t =>
      have hs' : s = { ops := ops, plan := plan t } := by
        cases hb : input.budget with
        | none =>
          simpa [plannerPlan, hre, hlife, hhints, hb, mapErr] using hs.symm
        | some b =>
          by_cases hover : b < (plan t).peakBytes
          · simp [plannerPlan, hre, hlife, hhints, hb, hover, mapErr] at hs
          · simpa [plannerPlan, hre, hlife, hhints, hb, hover, mapErr] using hs.symm
      subst hs'
      exact ⟨t, rfl, hlife, rfl⟩

theorem slotsLargeEnough_plan {ks : List dag.Key} {t : LifetimeTable} (hinv : BuildInv dag ops) :
    ks.Perm dag.keys → WalkInv dag ks ks.length t → PackInRange t →
      SlotsLargeEnough ops (plan t) := by
  intro hperm ht hrange s hs op hop hmem
  have hlook : dag.nodes.lookup op.id = some op := (hinv.node_iff op.id op).2 ⟨hop, rfl⟩
  let k : dag.Key := ⟨op.id, AList.lookup_isSome.1 (by rw [hlook]; rfl)⟩
  have hk : dag.node k = op := some.inj ((lookup_key k).symm.trans hlook)
  rcases getElem?_of_mem (hperm.mem_iff.2 (mem_keys k)) with ⟨p, hp⟩
  rcases ht.defined p k (List.getElem?_eq_some_iff.1 hp).1 hp with ⟨iv, hget, hiv⟩
  rw [hk] at hget
  have hbytes := plan_slot_bytes hrange hs hmem hget
  rw [hiv.bytes_eq, hk] at hbytes
  exact hbytes

/-- End-to-end soundness of the planner without in-place hints, for every DAG built by `add_op`
from ops with distinct ids, in every iteration order of its hash maps. -/
theorem plan_executes_dag {ops : List OpNode} {input : PlannerInput} {s : Schedule} :
    (ops.map OpNode.id).Nodup → input.dag.EnumeratedFrom ops → input.inplaceHints = [] →
      InRange input.dag → plannerPlan input = .ok s → SoundSchedule input.dag ops s := by
  intro hnodup hdag hhints hrange hs
  have hinv := hdag.inv hnodup
  rcases plannerPlan_ok hhints hs with ⟨t, hre, hlife, hplan⟩
  obtain ⟨ks, hks, hperm, hord⟩ := reorder_ok hre
  -- the steps of the schedule are numbered without wrapping
  have hlen : ks.length ≤ u32Size := by
    have hkeys : ks.length = input.dag.len := by
      rw [hperm.length_eq]
      simp only [OpDag.keys, len, length_map, length_attach]
    rw [hkeys]
    exact hrange.steps
  obtain ⟨t', hlife', hwalk⟩ := lifetimeFor_spec (singleAssignment_of_perm hinv.exact hperm) hlen
  have htt : t' = t := by
    rw [hks, hlife'] at hlife
    exact some.inj hlife
  subst htt
  have hsched : s = { ops := ks.map val, plan := plan t' } := by
    cases s
    simp_all
  -- the order lists the ids of the ops, each once
  have hids : ∀ id, id ∈ ks.map val ↔ id ∈ ops.map OpNode.id := by
    intro id
    simp only [List.mem_map]
    constructor
    · rintro ⟨k, _, rfl⟩
      have hk := (hinv.node_iff k.1 _).1 (lookup_key k)
      exact ⟨_, hk.1, hk.2⟩
    · rintro ⟨op, hop, rfl⟩
      have hlook := (hinv.node_iff op.id op).2 ⟨hop, rfl⟩
      refine ⟨⟨op.id, AList.lookup_isSome.1 (by rw [hlook]; rfl)⟩, ?_, rfl⟩
      exact hperm.mem_iff.2 (mem_keys _)
  have hknodup : (ks.map val).Nodup :=
    (hperm.nodup_iff.2 nodup_keys).map val_injective
  subst hsched
  refine ⟨?_, ?_, ?_, ?_, ?_⟩
  · exact (perm_ext_iff_of_nodup hknodup hnodup).2 hids
  · -- every op is in the walk, so its tensor has an interval and a slot
    intro op hop
    rcases mem_map.1 ((hids op.id).2 (mem_map_of_mem hop)) with ⟨k, hk, hkid⟩
    rcases getElem?_of_mem hk with ⟨p, hp⟩
    rcases hwalk.defined p k (List.getElem?_eq_some_iff.1 hp).1 hp with ⟨iv, hget, _⟩
    rcases exists_slotOf hget with ⟨c, hc, _⟩
    have hnode : input.dag.node k = op := by
      have hlook := (hinv.node_iff op.id op).2 ⟨hop, rfl⟩
      rw [← hkid] at hlook
      exact some.inj ((lookup_key k).symm.trans hlook)
    rw [← hnode, hc]
    rfl
  · exact executesAsSSA_plan hinv.exact hperm hord hwalk
  · exact lastWriteByProducer_plan hinv.exact hperm hord hwalk
  · exact slotsLargeEnough_plan hinv hperm hwalk (hrange.rounding _ _ hre hlife)

/-- A chain of three ops: the third output reuses the slot of the first. -/
def chainOps : List OpNode :=
  [ { id := ⟨0⟩, reads := [⟨9⟩], writes := ⟨0⟩, bytes := 8, align := 4 },
    { id := ⟨1⟩, reads := [⟨0⟩], writes := ⟨1⟩, bytes := 6, align := 4 },
    { id := ⟨2⟩, reads := [⟨1⟩, ⟨9⟩], writes := ⟨2⟩, bytes := 8, align := 8 } ]

def chainInput : PlannerInput where
  dag := (build chainOps).get (by decide)
  inplaceHints := []
  blockers := InPlaceBlockers.new
  budget := some 64

def chainSchedule : Schedule where
  ops := [⟨0⟩, ⟨1⟩, ⟨2⟩]
  plan :=
    { slots :=
        [ { bytes := 8, align := 8, tenants := [⟨0⟩, ⟨2⟩],
            intervals := [{ defStep := 0, lastUse := 1, bytes := 8, align := 4 },
              { defStep := 2, lastUse := 2, bytes := 8, align := 8 }] },
          { bytes := 8, align := 4, tenants := [⟨1⟩],
            intervals := [{ defStep := 1, lastUse := 2, bytes := 6, align := 4 }] },
          { bytes := 0, align := 1, tenants := [⟨9⟩],
            intervals := [{ defStep := 0, lastUse := 2, bytes := 0, align := 1 }] } ]
      assignment := [(⟨0⟩, 0), (⟨2⟩, 0), (⟨1⟩, 1), (⟨9⟩, 2)] }

theorem plan_executes_chain : SoundSchedule chainInput.dag chainOps chainSchedule := by
  have hre : reorder chainInput.dag = .ok chainSchedule.ops := by
    decide
  refine plan_executes_dag (by decide) ⟨chainInput.dag, by simp [chainInput], Perm.refl _,
    Perm.refl _⟩ rfl ⟨by decide, ?_⟩ (by decide)
  intro ops t hops ht
  rw [hre] at hops
  cases hops
  have hrange : ∀ u ∈ lifetimeFor chainInput.dag chainSchedule.ops, PackInRange u := by
    decide
  exact hrange t ht

/-- One op of `2^64 - 1` bytes, aligned to 2. -/
def hugeOps : List OpNode :=
  [{ id := ⟨0⟩, reads := [], writes := ⟨0⟩, bytes := 2 ^ 64 - 1, align := 2 }]

def hugeInput : PlannerInput where
  dag := (build hugeOps).get (by decide)
  inplaceHints := []
  blockers := InPlaceBlockers.new
  budget := none

def hugeSchedule : Schedule where
  ops := [⟨0⟩]
  plan :=
    { slots := [{ bytes := 0, align := 2, tenants := [⟨0⟩],
                  intervals := [{ defStep := 0, lastUse := 0, bytes := 2 ^ 64 - 1, align := 2 }] }]
      assignment := [(⟨0⟩, 0)] }

/-- The rounded size wraps to zero: the planner returns `Ok` with an empty slot. -/
theorem plan_huge_slot :
    build hugeOps = some hugeInput.dag ∧ plannerPlan hugeInput = .ok hugeSchedule ∧
      ¬ SoundSchedule hugeInput.dag hugeOps hugeSchedule := by
  refine ⟨by simp [hugeInput], by decide, ?_⟩
  intro h
  have hlarge : ∀ s ∈ hugeSchedule.plan.slots, ∀ op ∈ hugeOps, op.writes ∈ s.tenants →
      op.bytes ≤ s.bytes := h.large
  revert hlarge
  decide

end Planner
end Rustorch
