import Rustorch.Autograd.Backward
import Rustorch.Lib.Relay

/-!
# The loop of the backward pass relays gradients

Read through a map of optional gradients into a monoid, the loop of `backward` is a run of
`Relay.relay`: each node passes what it holds on to its edges.
-/

namespace Rustorch
namespace Autograd

open Relay List Function

variable {K S G M : Type} [DecidableEq K] [DecidableEq S] [Add G] [AddCommMonoid M]
  {graph : Graph K S G} {add : G → G → Except String G} {read : Option G → M}

/-- Where the gradient of an edge goes. -/
def Edge.dest (edge : Edge K S) : Option (K ⊕ S) :=
  match edge.node with
  | some n => some (.inl n)
  | none => edge.gradSlot.map .inr

omit [DecidableEq K] [DecidableEq S] [Add G] [AddCommMonoid M] in
theorem mem_successors {k n : K} :
    n ∈ successors graph k ↔ some (Sum.inl n) ∈ (graph k).nextEdges.map Edge.dest := by
  unfold successors
  rw [mem_filterMap, mem_map]
  have hdest : ∀ edge : Edge K S, edge.dest = some (.inl n) ↔ edge.node = some n := by
    intro edge
    unfold Edge.dest
    cases edge.node with
    | some m => simp
    | none => simp
  simp only [hdest]

/-- A reading of optional gradients under which the absent one is zero. -/
structure Reading (read : Option G → M) : Prop where
  none : read none = 0
  add : ∀ x y, read (some (x + y)) = read (some x) + read (some y)

/-- The parts of a gradient that reach an edge with a destination. -/
def parts (read : Option G → M) (entries : List (Edge K S × Option G)) :
    List ((K ⊕ S) × M) :=
  entries.filterMap (fun (edge, entry) =>
    match edge.dest, entry with
    | some d, some g => some (d, read (some g))
    | _, _ => none)

/-- A tape holds what a state of the relay holds. -/
structure Reads (read : Option G → M) (tape : Tape K S G) (st : K ⊕ S → M) : Prop where
  grads : ∀ k, st (.inl k) = read (tape.grads k)
  slots : ∀ s, st (.inr s) = read (tape.slots s)

variable {tape : Tape K S G} {st : K ⊕ S → M} {emit : K → M → List ((K ⊕ S) × M)}

omit [Add G] in
theorem Reads.node (h : Reads read tape st) {n : K} {g r : G}
    (hr : read (some r) = read (tape.grads n) + read (some g)) :
    Reads read { tape with grads := update tape.grads n (some r) }
      (send st (.inl n, read (some g))) := by
  constructor
  · intro k
    unfold send
    by_cases hk : k = n
    · subst hk
      simp only [update_self]
      rw [h.grads, hr]
    · have hne : (Sum.inl k : K ⊕ S) ≠ .inl n := fun heq => hk (Sum.inl_injective heq)
      simp only [update_of_ne hne, update_of_ne hk]
      exact h.grads k
  · intro s
    unfold send
    rw [update_of_ne Sum.inr_ne_inl, h.slots]

omit [Add G] in
theorem Reads.slot (h : Reads read tape st) {s : S} {g r : G}
    (hr : read (some r) = read (tape.slots s) + read (some g)) :
    Reads read { tape with slots := update tape.slots s (some r) }
      (send st (.inr s, read (some g))) := by
  constructor
  · intro k
    unfold send
    rw [update_of_ne Sum.inl_ne_inr, h.grads]
  · intro s'
    unfold send
    by_cases hs : s' = s
    · subst hs
      simp only [update_self]
      rw [h.slots, hr]
    · have hne : (Sum.inr s' : K ⊕ S) ≠ .inr s := fun heq => hs (Sum.inr_injective heq)
      simp only [update_of_ne hne, update_of_ne hs]
      exact h.slots s'

variable (hread : Reading read)

include hread

variable (hadd : ∀ x y, add x y = .ok (x + y))

include hadd

theorem accumulateIntoEdge_reads (h : Reads read tape st) (edge : Edge K S) (g : G) :
    ∃ tape', accumulateIntoEdge add edge g tape = (tape', .ok ()) ∧
      tape'.applied = tape.applied ∧
      Reads read tape' ((parts read [(edge, some g)]).foldl send st) := by
  obtain ⟨node, gradSlot⟩ := edge
  have hfirst : ∀ (old : Option G), old = none → read (some g) = read old + read (some g) := by
    rintro _ rfl
    rw [hread.none, zero_add]
  unfold accumulateIntoEdge
  cases node with
  | some n =>
    cases hold : tape.grads n with
    | some prev =>
      simp only [hold, hadd]
      refine ⟨_, rfl, rfl, h.node ?_⟩
      rw [hold, hread.add]
    | none =>
      simp only [hold]
      exact ⟨_, rfl, rfl, h.node (hfirst _ hold)⟩
  | none =>
    cases gradSlot with
    | some slot =>
      cases hold : tape.slots slot with
      | some prev =>
        simp only [hold, hadd]
        refine ⟨_, rfl, rfl, h.slot ?_⟩
        rw [hold, hread.add]
      | none =>
        simp only [hold]
        exact ⟨_, rfl, rfl, h.slot (hfirst _ hold)⟩
    | none => exact ⟨_, rfl, rfl, h⟩

theorem accumulate_reads (entries : List (Edge K S × Option G)) :
    ∀ (tape : Tape K S G) (st : K ⊕ S → M),
      Reads read tape st → ∃ tape', accumulate add entries tape = (tape', .ok ()) ∧
        tape'.applied = tape.applied ∧ Reads read tape' ((parts read entries).foldl send st) := by
  induction entries with
  | nil => exact fun tape st h => ⟨tape, rfl, rfl, h⟩
  | cons entry entries ih =>
    intro tape st h
    obtain ⟨edge, g⟩ := entry
    have hsplit : parts read ((edge, g) :: entries) =
        parts read [(edge, g)] ++ parts read entries :=
      filterMap_append (l := [(edge, g)])
    rw [hsplit, foldl_append]
    cases g with
    | none =>
      have hnone : parts read [(edge, (none : Option G))] = [] := by
        cases hdest : edge.dest with
        | none => simp [parts, hdest]
        | some d => simp [parts, hdest]
      rw [hnone]
      exact ih tape st h
    | some g =>
      obtain ⟨tape', hone, happlied, hreads⟩ := accumulateIntoEdge_reads hread hadd h edge g
      obtain ⟨tape'', hrest, happlied', hreads'⟩ := ih tape' _ hreads
      refine ⟨tape'', ?_, happlied'.trans happlied, hreads'⟩
      unfold accumulate
      rw [hone]
      exact hrest

/-- What a node emits is what its `apply` answers, one entry for each edge. -/
structure Emits (read : Option G → M) (graph : Graph K S G) (emit : K → M → List ((K ⊕ S) × M)) :
    Prop where
  apply : ∀ k x, ∃ entries, (graph k).apply x = some entries ∧
    entries.length = (graph k).nextEdges.length ∧
    emit k (read (some x)) = parts read ((graph k).nextEdges.zip entries)
  quiet : ∀ k (st : K ⊕ S → M), (emit k 0).foldl send st = st

theorem process_reads (hemit : Emits read graph emit) (h : Reads read tape st) (k : K) :
    ∃ tape', process graph add tape k = (tape', .ok ()) ∧
      tape'.applied = tape.applied ++ ((tape.grads k).map (fun x => (k, x))).toList ∧
      Reads read tape' (relayStep emit st k) := by
  unfold process relayStep
  rw [h.grads k]
  cases hold : tape.grads k with
  | none =>
    -- a node without a gradient is skipped, and would emit nothing
    refine ⟨tape, rfl, (append_nil _).symm, ?_⟩
    rw [hread.none, hemit.quiet]
    have hzero : update st (.inl k) 0 = st := by
      rw [← hread.none, ← hold, ← h.grads k]
      exact update_eq_self _ _
    rwa [hzero]
  | some x =>
    obtain ⟨entries, happly, hlength, hparts⟩ := hemit.apply k x
    have htaken : Reads read
        { tape with grads := update tape.grads k none,
                    applied := tape.applied ++ [(k, x)] }
        (update st (.inl k) 0) := by
      constructor
      · intro j
        by_cases hj : j = k
        · subst hj
          simp only [update_self, hread.none]
        · simp only [update_of_ne hj, update_of_ne (fun heq => hj (Sum.inl_injective heq)), h.grads]
      · intro s
        rw [update_of_ne Sum.inr_ne_inl, h.slots]
    obtain ⟨tape', hacc, happlied, hreads⟩ := accumulate_reads hread hadd
      ((graph k).nextEdges.zip entries) _ _ htaken
    simp only [happly]
    rw [if_neg (not_not.2 hlength), hparts]
    exact ⟨tape', hacc, happlied, hreads⟩

/-- The calls of `apply`: in the order of the nodes, each with what the node holds when its turn
comes. -/
structure Logged (read : Option G → M) (emit : K → M → List ((K ⊕ S) × M)) (st : K ⊕ S → M)
    (nodes : List K) (log : List (K × G)) : Prop where
  order : (log.map Prod.fst).Sublist nodes
  holds : ∀ (before : List K) (k : K) (after : List K), nodes = before ++ k :: after →
    ∀ x, (k, x) ∈ log → read (some x) = relay emit st before (.inl k)

theorem processAll_reads (hemit : Emits read graph emit) (nodes : List K) :
    ∀ (tape : Tape K S G) (st : K ⊕ S → M), Reads read tape st → nodes.Nodup →
      ∃ tape' log, processAll graph add nodes tape = (tape', .ok ()) ∧
        tape'.applied = tape.applied ++ log ∧ Reads read tape' (relay emit st nodes) ∧
        Logged read emit st nodes log := by
  induction nodes with
  | nil =>
    intro tape st h _
    refine ⟨tape, [], rfl, (append_nil _).symm, h, Sublist.refl _, ?_⟩
    exact fun _ _ _ _ x hmem => absurd hmem not_mem_nil
  | cons k nodes ih =>
    intro tape st h hnodup
    obtain ⟨hout, hnodup⟩ := nodup_cons.1 hnodup
    obtain ⟨tape', hone, happlied, hreads⟩ := process_reads hread hadd hemit h k
    obtain ⟨tape'', log, hrest, happlied', hreads', hlog⟩ := ih tape' _ hreads hnodup
    -- the log of the first node, if it was reached, and then that of the others
    refine ⟨tape'', ((tape.grads k).map (fun x => (k, x))).toList ++ log, ?_, ?_, hreads', ?_, ?_⟩
    · unfold processAll
      rw [hone]
      exact hrest
    · rw [happlied', happlied, append_assoc]
    · cases tape.grads k with
      | none => exact hlog.order.cons k
      | some x => exact hlog.order.cons_cons k
    · intro before j after heq x hmem
      rcases mem_append.1 hmem with hfirst | hlater
      · -- the node is the first one
        have hj : j = k ∧ tape.grads k = some x := by
          cases hold : tape.grads k with
          | none => simp [hold] at hfirst
          | some y =>
            simp [hold] at hfirst
            exact ⟨hfirst.1, by rw [hfirst.2]⟩
        obtain ⟨rfl, hold⟩ := hj
        have hbefore : before = [] := by
          cases before with
          | nil => rfl
          | cons b before =>
            have htail := (cons.inj heq).2
            exact absurd (htail ▸ mem_append_right before mem_cons_self) hout
        rw [hbefore, ← hold]
        exact (h.grads j).symm
      · -- a later node, after the relay step of the first one
        have hjmem : j ∈ nodes := hlog.order.subset (mem_map_of_mem hlater)
        cases before with
        | nil =>
          have hk := (cons.inj heq).1
          exact absurd (hk ▸ hjmem) hout
        | cons b before =>
          obtain ⟨rfl, htail⟩ := cons.inj heq
          exact hlog.holds before j after htail x hlater

end Autograd
end Rustorch
