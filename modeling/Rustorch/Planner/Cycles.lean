import Rustorch.Lib.Cycles
import Rustorch.Planner.Plan

/-!
# Exact cycle detection

`reorder` stops in one of two ways: with every op scheduled, or with no op ready.  In the second
case every op left over reads the output of an op left over, so what is left over hangs on a
cycle; and an op that has been scheduled hangs on none, because its producers came before it.
`reorder_exact` puts the two together: `Ok` with a topological order exactly on acyclic graphs,
and otherwise an error that names the ops on a cycle or behind one.
-/

namespace Rustorch
namespace Planner

open Cycles List Subtype

/-- `b` reads the output of `a`, both among `ops`. -/
structure Feeds (ops : List OpNode) (a b : OpNode) : Prop where
  producer : a ∈ ops
  reader : b ∈ ops
  reads : a.writes ∈ b.reads

/-- Some op depends on its own output. -/
def Cyclic (ops : List OpNode) : Prop :=
  ∃ op, Relation.TransGen (Feeds ops) op op

/-- The order lists every op once, and every op after the producers of its reads. -/
structure TopologicalOrder (ops : List OpNode) (s : List OpId) : Prop where
  complete : s.Perm (ops.map OpNode.id)
  ordered : ∀ a b, Feeds ops a b → ∀ j : Nat, s[j]? = some b.id →
    ∃ i : Nat, i < j ∧ s[i]? = some a.id

/-- The error lists, once and in increasing order, the ops that lie on a cycle or depend on
one. -/
structure NamesCycles (ops : List OpNode) (remaining : List OpId) : Prop where
  nodup : remaining.Nodup
  sorted : remaining.Pairwise (fun a b => a.val ≤ b.val)
  exact : ∀ id, id ∈ remaining ↔ ∃ op ∈ ops, op.id = id ∧ Hangs (Feeds ops) op

section Keys

variable {dag : OpDag} {ops : List OpNode}

theorem BuildInv.node_mem (hinv : BuildInv dag ops) (k : dag.Key) :
    dag.node k ∈ ops ∧ (dag.node k).id = k.1 :=
  (hinv.node_iff k.1 (dag.node k)).1 (OpDag.lookup_key k)

theorem BuildInv.exists_key (hinv : BuildInv dag ops) {op : OpNode} :
    op ∈ ops → ∃ k : dag.Key, dag.node k = op := by
  intro hop
  have hlook : dag.nodes.lookup op.id = some op := (hinv.node_iff op.id op).2 ⟨hop, rfl⟩
  refine ⟨⟨op.id, AList.lookup_isSome.1 (by rw [hlook]; rfl)⟩, ?_⟩
  exact Option.some.inj ((OpDag.lookup_key _).symm.trans hlook)

theorem BuildInv.not_external (hinv : BuildInv dag ops) {a : OpNode} :
    a ∈ ops → a.writes ∉ dag.externalReads := by
  intro ha hext
  rcases hinv.exists_key ha with ⟨k, rfl⟩
  have hprod := (OpDag.hasProducer_iff hinv.exact).2 ⟨k, rfl⟩
  rw [OpDag.externalReads_not_produced hext] at hprod
  cases hprod

variable {ks : List dag.Key} {st : ReorderState dag}

section

variable (hinv : BuildInv dag ops)

include hinv

theorem BuildInv.ids_perm (hnodup : (ops.map OpNode.id).Nodup) :
    ks.Perm dag.keys → (ks.map val).Perm (ops.map OpNode.id) := by
  intro hperm
  have hknodup : (ks.map val).Nodup :=
    (hperm.nodup_iff.2 OpDag.nodup_keys).map val_injective
  refine (perm_ext_iff_of_nodup hknodup hnodup).2 ?_
  intro id
  constructor
  · intro hid
    rcases mem_map.1 hid with ⟨k, _, rfl⟩
    have hk := hinv.node_mem k
    exact mem_map.2 ⟨dag.node k, hk.1, hk.2⟩
  · intro hid
    rcases mem_map.1 hid with ⟨op, hop, rfl⟩
    rcases hinv.exists_key hop with ⟨k, rfl⟩
    rw [(hinv.node_mem k).2]
    exact mem_map_of_mem (hperm.mem_iff.2 (OpDag.mem_keys k))

theorem OrderedKeys.producer_before {a b : OpNode} {j : Nat} :
    OrderedKeys dag ks → Feeds ops a b → (ks.map val)[j]? = some b.id →
      ∃ i, i < j ∧ (ks.map val)[i]? = some a.id := by
  intro hord hab hj
  rw [getElem?_map, Option.map_eq_some_iff] at hj
  rcases hj with ⟨k, hk, hkb⟩
  rcases hinv.exists_key hab.reader with ⟨kb, rfl⟩
  have hkk : k = kb := Subtype.ext (hkb.trans (hinv.node_mem kb).2)
  subst hkk
  rcases hord j k hk a.writes hab.reads with hext | ⟨i, d, hij, hd, hda⟩
  · exact absurd hext (hinv.not_external hab.producer)
  · rcases hinv.exists_key hab.producer with ⟨ka, rfl⟩
    have hdk : d = ka := OpDag.writes_injective hinv.exact hda
    subst hdk
    refine ⟨i, hij, ?_⟩
    rw [getElem?_map, hd, (hinv.node_mem d).2]
    rfl

theorem OrderedKeys.not_hangs {k : dag.Key} :
    OrderedKeys dag ks → k ∈ ks → ¬ Hangs (Feeds ops) (dag.node k) := by
  intro hord hk
  have hrank : ∀ a b, Feeds ops a b → b ∈ {op | op.id ∈ ks.map val} →
      a ∈ {op | op.id ∈ ks.map val} ∧
        (ks.map val).idxOf a.id < (ks.map val).idxOf b.id := by
    intro a b hab hb
    have hj : (ks.map val)[(ks.map val).idxOf b.id]? = some b.id :=
      getElem?_idxOf hb
    rcases hord.producer_before hinv hab hj with ⟨i, hi, ha⟩
    refine ⟨mem_of_getElem? ha, lt_of_le_of_lt ?_ hi⟩
    rcases List.getElem?_eq_some_iff.1 ha with ⟨hlt, hget⟩
    by_contra hafter
    have hother := not_of_lt_findIdx (not_le.1 hafter)
    rw [hget] at hother
    simp at hother
  refine not_hangs_of_ranked (fun op => (ks.map val).idxOf op.id) hrank ?_
  show (dag.node k).id ∈ ks.map val
  rw [(hinv.node_mem k).2]
  exact mem_map_of_mem hk

/-- When nothing is ready, every op left over reads the output of an op left over. -/
theorem ReorderInv.stuck :
    ReorderInv dag st → st.ready = [] → ∀ k ∈ st.unscheduled,
      ∃ p ∈ st.unscheduled, Feeds ops (dag.node p) (dag.node k) := by
  intro h hready k hk
  have hnot : ¬ ∀ r ∈ (dag.node k).reads, r ∈ st.produced := by
    intro hall
    have hmem := (h.ready_iff k).2 ⟨hk, readsProduced_iff.2 hall⟩
    rw [hready] at hmem
    cases hmem
  push Not at hnot
  rcases hnot with ⟨r, hr, hmissing⟩
  -- The missing read is not external, so an op produces it, and that op is not scheduled.
  have hprod : dag.hasProducer r = true := by
    by_contra hno
    have hext : r ∈ dag.externalReads := by
      refine mem_filter.2 ⟨?_, by simpa using hno⟩
      exact mem_flatMap.2 ⟨dag.node k, mem_map_of_mem (OpDag.mem_keys k), hr⟩
    exact hmissing ((h.produced_iff r).2 (Or.inl hext))
  rcases (OpDag.hasProducer_iff hinv.exact).1 hprod with ⟨p, hp⟩
  have hun : p ∈ st.unscheduled := by
    rcases mem_append.1 (h.perm.mem_iff.2 (OpDag.mem_keys p)) with hsched | hun
    · exact absurd ((h.produced_iff r).2 (Or.inr ⟨p, hsched, hp⟩)) hmissing
    · exact hun
  refine ⟨p, hun, (hinv.node_mem p).1, (hinv.node_mem k).1, ?_⟩
  rw [hp]
  exact hr

/-- At a stuck state, the ops left over are the ones that hang on a cycle. -/
theorem ReorderInv.unscheduled_iff : ReorderInv dag st → st.ready = [] →
      ∀ k : dag.Key, k ∈ st.unscheduled ↔ Hangs (Feeds ops) (dag.node k) := by
  intro h hready k
  constructor
  · intro hk
    have hfin : (dag.node '' {u | u ∈ st.unscheduled}).Finite :=
      (finite_toSet st.unscheduled).image dag.node
    refine hangs_of_stuck hfin ?_ (dag.node k) ⟨k, hk, rfl⟩
    rintro _ ⟨u, hu, rfl⟩
    rcases h.stuck hinv hready u hu with ⟨p, hp, hpu⟩
    exact ⟨dag.node p, ⟨p, hp, rfl⟩, hpu⟩
  · intro hhangs
    rcases mem_append.1 (h.perm.mem_iff.2 (OpDag.mem_keys k)) with hsched | hun
    · exact absurd hhangs (h.ordered.not_hangs hinv hsched)
    · exact hun

end

theorem reorderLoop_error (n : Nat) :
    ∀ (st : ReorderState dag) (hn : st.unscheduled.length = n) (e : ReorderError),
      ReorderInv dag st → reorderLoop dag n st hn = .error e →
        ∃ last : ReorderState dag, ReorderInv dag last ∧ last.ready = [] ∧
          last.unscheduled ≠ [] ∧
          e = .cycle ((last.unscheduled.map val).insertionSort
            (fun a b => a.val ≤ b.val)) := by
  induction n with
  | zero =>
    intro st hn e _ he
    cases he
  | succ n ih =>
    intro st hn e h he
    unfold reorderLoop at he
    split at he
    · rename_i hready
      refine ⟨st, h, hready, ?_, ?_⟩
      · intro hnil
        rw [hnil] at hn
        cases hn
      · cases he
        rfl
    · rename_i first rest hready
      refine ih _ _ e (ReorderState.commit_inv ?_ h) he
      rw [hready]
      exact pickMax_mem st.remainingConsumers first rest

theorem reorder_error {e : ReorderError} :
    reorder dag = .error e →
      ∃ last : ReorderState dag, ReorderInv dag last ∧ last.ready = [] ∧ last.unscheduled ≠ [] ∧
        e = .cycle ((last.unscheduled.map val).insertionSort
          (fun a b => a.val ≤ b.val)) := by
  intro he
  unfold reorder at he
  split at he
  · cases he
  · exact reorderLoop_error _ _ rfl e ReorderState.init_inv he

end Keys

section Exact

variable {dag : OpDag} {ops : List OpNode}

instance : Std.Total (fun a b : OpId => a.val ≤ b.val) where
  total := fun a b => le_total a.val b.val

instance : IsTrans OpId (fun a b => a.val ≤ b.val) where
  trans := fun _ _ _ => le_trans

theorem reorder_ok_exact {s : List OpId} (hinv : BuildInv dag ops) :
    (ops.map OpNode.id).Nodup → reorder dag = .ok s →
      TopologicalOrder ops s ∧ ¬ Cyclic ops := by
  intro hnodup hs
  rcases reorder_ok hs with ⟨ks, rfl, hperm, hord⟩
  refine ⟨⟨hinv.ids_perm hnodup hperm, ?_⟩, ?_⟩
  · intro a b hab j hj
    exact hord.producer_before hinv hab hj
  · rintro ⟨op, hcycle⟩
    have hop : op ∈ ops := by
      rcases Relation.TransGen.tail'_iff.1 hcycle with ⟨b, _, hbop⟩
      exact hbop.reader
    rcases hinv.exists_key hop with ⟨k, rfl⟩
    exact hord.not_hangs hinv (hperm.mem_iff.2 (OpDag.mem_keys k)) (Hangs.of_cycle hcycle)

theorem reorder_error_exact {e : ReorderError} (hinv : BuildInv dag ops) :
    reorder dag = .error e →
      ∃ remaining, e = .cycle remaining ∧ NamesCycles ops remaining ∧ Cyclic ops := by
  intro he
  rcases reorder_error he with ⟨last, h, hready, hne, rfl⟩
  have hsort := perm_insertionSort (fun a b : OpId => a.val ≤ b.val)
    (last.unscheduled.map val)
  have hnodup : last.unscheduled.Nodup :=
    (nodup_append.1 (h.perm.nodup_iff.2 OpDag.nodup_keys)).2.1
  refine ⟨_, rfl, ⟨?_, ?_, ?_⟩, ?_⟩
  · exact hsort.nodup_iff.2 (hnodup.map val_injective)
  · exact pairwise_insertionSort _ _
  · intro id
    rw [hsort.mem_iff]
    constructor
    · intro hid
      rcases mem_map.1 hid with ⟨k, hk, rfl⟩
      have hmem := hinv.node_mem k
      exact ⟨dag.node k, hmem.1, hmem.2, (h.unscheduled_iff hinv hready k).1 hk⟩
    · rintro ⟨op, hop, rfl, hhangs⟩
      rcases hinv.exists_key hop with ⟨k, rfl⟩
      rw [(hinv.node_mem k).2]
      exact mem_map_of_mem ((h.unscheduled_iff hinv hready k).2 hhangs)
  · rcases exists_mem_of_ne_nil _ hne with ⟨k, hk⟩
    rcases (h.unscheduled_iff hinv hready k).1 hk with ⟨c, hcycle, _⟩
    exact ⟨c, hcycle⟩

end Exact

/-- Reordering, for every DAG built by `add_op` from ops with distinct ids, in every iteration
order of its hash maps: an acyclic DAG gives a topological order, and a cyclic one gives the error
that names exactly the ops on a cycle or depending on one. -/
theorem reorder_exact {ops : List OpNode} {dag : OpDag} :
    (ops.map OpNode.id).Nodup → dag.EnumeratedFrom ops →
      (¬ Cyclic ops → ∃ s, reorder dag = .ok s ∧ TopologicalOrder ops s) ∧
      (Cyclic ops → ∃ remaining, reorder dag = .error (.cycle remaining) ∧
        NamesCycles ops remaining) := by
  intro hnodup hdag
  have hinv := hdag.inv hnodup
  cases hre : reorder dag with
  | ok s =>
    have hok := reorder_ok_exact hinv hnodup hre
    refine ⟨?_, ?_⟩
    · intro _
      exact ⟨s, rfl, hok.1⟩
    · intro hcyclic
      exact absurd hcyclic hok.2
  | error e =>
    rcases reorder_error_exact hinv hre with ⟨remaining, rfl, hnames, hcyclic⟩
    refine ⟨?_, ?_⟩
    · intro hacyclic
      exact absurd hcyclic hacyclic
    · intro _
      exact ⟨remaining, rfl, hnames⟩

/-- Ops 0 and 1 feed each other, op 2 reads an output of theirs, op 3 stands apart. -/
def knottedOps : List OpNode :=
  [ { id := ⟨0⟩, reads := [⟨1⟩], writes := ⟨0⟩, bytes := 4, align := 1 },
    { id := ⟨1⟩, reads := [⟨0⟩], writes := ⟨1⟩, bytes := 4, align := 1 },
    { id := ⟨2⟩, reads := [⟨1⟩, ⟨9⟩], writes := ⟨2⟩, bytes := 4, align := 1 },
    { id := ⟨3⟩, reads := [⟨9⟩], writes := ⟨3⟩, bytes := 4, align := 1 } ]

theorem reorder_exact_knotted :
    ∃ remaining, reorder ((OpDag.build knottedOps).get (by decide)) = .error (.cycle remaining) ∧
      NamesCycles knottedOps remaining := by
  have hexact := @reorder_exact knottedOps ((OpDag.build knottedOps).get (by decide))
    (by decide) ⟨_, by simp, Perm.refl _, Perm.refl _⟩
  refine hexact.2 ⟨{ id := ⟨0⟩, reads := [⟨1⟩], writes := ⟨0⟩, bytes := 4, align := 1 }, ?_⟩
  have hback : Feeds knottedOps { id := ⟨0⟩, reads := [⟨1⟩], writes := ⟨0⟩, bytes := 4, align := 1 }
      { id := ⟨1⟩, reads := [⟨0⟩], writes := ⟨1⟩, bytes := 4, align := 1 } :=
    ⟨by decide, by decide, by decide⟩
  exact (Relation.TransGen.single hback).tail ⟨by decide, by decide, by decide⟩

end Planner
end Rustorch
