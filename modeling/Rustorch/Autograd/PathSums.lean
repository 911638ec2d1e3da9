import Rustorch.Autograd.Relaying
import Rustorch.Lib.PathSum

/-!
# The backward pass sums over paths

On a finite acyclic graph whose nodes apply additive maps, `backward` adds to each slot the sum,
over all paths from the root to the slot, of the composed maps applied to the first gradient.
-/

namespace Rustorch
namespace Autograd

open Relay List

variable {K S G : Type} [AddCommGroup G] {graph : Graph K S G} {add : G → G → Except String G}

/-- What a node passes to its `i`-th edge: the entry of `apply`, or zero. -/
def Node.inputGrad (node : Node K S G) (i : Nat) (x : G) : G :=
  (((node.apply x).bind (fun entries => entries[i]?)).getD none).getD 0

/-- The edges of a graph with the maps of its nodes. -/
def gradNet (graph : Graph K S G) : PathSum.Net K S G where
  arrows k := (graph k).nextEdges.map Edge.dest
  map k i := (graph k).inputGrad i

/-- The sum, over the paths from a node to an end, of the composed maps applied to a gradient. -/
noncomputable def pathSum (graph : Graph K S G) (root : K) (goal : K ⊕ S) (x : G) : G :=
  (gradNet graph).total goal root x

/-- Each call of `apply` answers one entry for each edge, and is additive in each of them. -/
structure Differentiates (node : Node K S G) : Prop where
  total : ∀ x, ∃ entries, node.apply x = some entries ∧ entries.length = node.nextEdges.length
  additive : ∀ i x y, node.inputGrad i (x + y) = node.inputGrad i x + node.inputGrad i y

def Acyclic (graph : Graph K S G) : Prop :=
  ∀ k, ¬ Relation.TransGen (fun a b => b ∈ successors graph a) k k

/-! ## The loop relays gradients -/

theorem reading_getD : Reading (fun g : Option G => g.getD 0) where
  none := rfl
  add _ _ := rfl

/-- The entries that a node answers, as parts for the ends of its edges. -/
def emitGrads (graph : Graph K S G) (k : K) (x : G) : List ((K ⊕ S) × G) :=
  parts (fun g => g.getD 0) ((graph k).nextEdges.zip (((graph k).apply x).getD []))

theorem inputGrad_zero {node : Node K S G} (h : Differentiates node) (i : Nat) :
    node.inputGrad i 0 = 0 := by
  have hdouble := h.additive i 0 0
  rw [add_zero] at hdouble
  exact left_eq_add.1 hdouble

theorem mem_parts {edges : List (Edge K S)} {entries : List (Option G)} {part : (K ⊕ S) × G}
    (hpart : part ∈ parts (fun g => g.getD 0) (edges.zip entries)) :
    ∃ (i : Nat) (edge : Edge K S) (g : G), edges[i]? = some edge ∧ entries[i]? = some (some g) ∧
      edge.dest = some part.1 ∧ part.2 = g := by
  obtain ⟨⟨edge, entry⟩, hzip, hshow⟩ := mem_filterMap.1 hpart
  obtain ⟨i, hi⟩ := mem_iff_getElem?.1 hzip
  obtain ⟨hedge, hentry⟩ := getElem?_zip_eq_some.1 hi
  simp only at hshow
  split at hshow
  · next d g hdest =>
      cases hshow
      exact ⟨i, edge, g, hedge, hentry, hdest, rfl⟩
  · cases hshow

theorem sum_parts {weight : Option (K ⊕ S) → G → G} (hnone : ∀ y, weight none y = 0)
    (hzero : ∀ d, weight (some d) 0 = 0) (edges : List (Edge K S)) : ∀ entries : List (Option G),
    entries.length = edges.length →
      ((parts (fun g => g.getD 0) (edges.zip entries)).map
        (fun part => weight (some part.1) part.2)).sum =
      ((List.range edges.length).map (fun i =>
        weight ((edges.map Edge.dest)[i]?.getD none) ((entries[i]?.getD none).getD 0))).sum := by
  induction edges with
  | nil =>
    intro entries hlength
    rfl
  | cons edge edges ih =>
    intro entries hlength
    cases entries with
    | nil => cases hlength
    | cons entry entries =>
      have hfirst : ((parts (fun g => g.getD 0) [(edge, entry)]).map
          (fun part => weight (some part.1) part.2)).sum = weight edge.dest (entry.getD 0) := by
        cases hdest : edge.dest with
        | none => simp [parts, hdest, hnone]
        | some d =>
          cases entry with
          | none => simp [parts, hdest, hzero]
          | some g => simp [parts, hdest]
      have hsplit : parts (fun g => g.getD 0) ((edge :: edges).zip (entry :: entries)) =
          parts (fun g : Option G => g.getD 0) [(edge, entry)] ++
            parts (fun g => g.getD 0) (edges.zip entries) :=
        filterMap_append (l := [(edge, entry)])
      rw [hsplit, map_append, sum_append, hfirst,
        ih entries (Nat.succ_injective hlength), length_cons, range_succ_eq_map,
        map_cons, sum_cons, map_map]
      rfl

variable [DecidableEq K] [DecidableEq S]

theorem emits_emitGrads (hnodes : ∀ k, Differentiates (graph k)) :
    Emits (fun g => g.getD 0) graph (emitGrads graph) := by
  constructor
  · intro k x
    obtain ⟨entries, happly, hlength⟩ := (hnodes k).total x
    refine ⟨entries, happly, hlength, ?_⟩
    unfold emitGrads
    rw [Option.getD_some, happly]
    rfl
  · intro k st
    apply foldl_send_of_zero
    intro part hpart
    obtain ⟨i, edge, g, _, hentry, _, hvalue⟩ := mem_parts hpart
    obtain ⟨entries, happly, _⟩ := (hnodes k).total 0
    rw [happly, Option.getD_some] at hentry
    -- the entry is the value of an additive map at zero
    have hzero := inputGrad_zero (hnodes k) i
    unfold Node.inputGrad at hzero
    rw [happly, Option.bind_some, hentry] at hzero
    rw [hvalue]
    exact hzero

/-! ## Path sums are conserved -/

/-- What a gradient at a node or in a slot still contributes to an end. -/
noncomputable def weight (graph : Graph K S G) (goal d : K ⊕ S) (x : G) : G :=
  (gradNet graph).enter goal (some d) x

variable {rank : K → Nat} {goal : K ⊕ S} {k : K} {x : G}

omit [DecidableEq K] [DecidableEq S] in
theorem falls_gradNet (hrank : ∀ k, ∀ n ∈ successors graph k, rank n < rank k) :
    (gradNet graph).Falls rank :=
  fun k n hn => hrank k n (mem_successors.2 hn)

omit [DecidableEq K] [DecidableEq S] in
theorem additive_gradNet (hnodes : ∀ k, Differentiates (graph k)) : (gradNet graph).Additive where
  zero k i := inputGrad_zero (hnodes k) i
  add k i x y := (hnodes k).additive i x y

theorem weight_slot {s : S} : weight graph goal (.inr s) x = if goal = .inr s then x else 0 := rfl

theorem additive_weight (hnodes : ∀ k, Differentiates (graph k))
    (hrank : ∀ k, ∀ n ∈ successors graph k, rank n < rank k) : Additive (weight graph goal) where
  zero d := by
    cases d with
    | inl n => exact PathSum.Net.total_zero (additive_gradNet hnodes)
    | inr s =>
      rw [weight_slot]
      exact ite_self 0
  add d x y := by
    cases d with
    | inl n => exact PathSum.Net.total_add (additive_gradNet hnodes) (falls_gradNet hrank)
    | inr s =>
      rw [weight_slot, weight_slot, weight_slot]
      split
      · rfl
      · exact (add_zero 0).symm

/-- A node passes on what it contributes to another end. -/
theorem weight_conserved (hnodes : ∀ k, Differentiates (graph k))
    (hrank : ∀ k, ∀ n ∈ successors graph k, rank n < rank k) (hne : goal ≠ .inl k) :
    weight graph goal (.inl k) x =
      ((emitGrads graph k x).map (fun part => weight graph goal part.1 part.2)).sum := by
  obtain ⟨entries, happly, hlength⟩ := (hnodes k).total x
  have hparts := @sum_parts K S G _ ((gradNet graph).enter goal) (fun _ => rfl)
    (additive_weight hnodes hrank).zero (graph k).nextEdges entries hlength
  have hmap : ∀ i, (gradNet graph).map k i x = (entries[i]?.getD none).getD 0 := by
    intro i
    change (graph k).inputGrad i x = _
    unfold Node.inputGrad
    rw [happly, Option.bind_some]
  unfold emitGrads
  rw [happly, Option.getD_some]
  calc
    weight graph goal (.inl k) x
        = (if goal = .inl k then x else 0) +
            ((range ((graph k).nextEdges.map Edge.dest).length).map (fun i =>
              (gradNet graph).enter goal (((graph k).nextEdges.map Edge.dest)[i]?.getD none)
                ((gradNet graph).map k i x))).sum :=
          PathSum.Net.total_eq (falls_gradNet hrank)
    _ = ((range (graph k).nextEdges.length).map (fun i =>
          (gradNet graph).enter goal (((graph k).nextEdges.map Edge.dest)[i]?.getD none)
            ((entries[i]?.getD none).getD 0))).sum := by
          rw [if_neg hne, zero_add, length_map]
          simp only [hmap]
    _ = _ := hparts.symm

/-- The parts of a node go to the nodes its edges lead to, or to slots. -/
theorem emitGrads_arrive (sinks : List S)
    (hsinks : ∀ s, s ∉ sinks → ∀ y, weight graph goal (.inr s) y = 0) :
    ∀ (k : K) (x : G), ∀ part ∈ emitGrads graph k x, (∃ n ∈ successors graph k, part.1 = .inl n) ∨
      (∃ s ∈ sinks, part.1 = .inr s) ∨
      (∃ s, s ∉ sinks ∧ part.1 = .inr s ∧ weight graph goal part.1 part.2 = 0) := by
  intro k x part hpart
  obtain ⟨i, edge, g, hedge, _, hdest, _⟩ := mem_parts hpart
  cases hend : part.1 with
  | inl n =>
    refine Or.inl ⟨n, ?_, rfl⟩
    rw [hend] at hdest
    exact mem_successors.2 (mem_map.2 ⟨edge, mem_of_getElem? hedge, hdest⟩)
  | inr s =>
    by_cases hs : s ∈ sinks
    · exact Or.inr (Or.inl ⟨s, hs, rfl⟩)
    · exact Or.inr (Or.inr ⟨s, hs, rfl, hsinks s hs _⟩)

/-! ## From the first gradient to the end of the run -/

/-- What a tape holds. -/
def Tape.state (tape : Tape K S G) : K ⊕ S → G
  | .inl k => (tape.grads k).getD 0
  | .inr s => (tape.slots s).getD 0

/-- The tape of a backward pass before the first node. -/
def seeded (root : K) (g : G) (slots : S → Option G) : Tape K S G where
  grads := Function.update (fun _ => none) root (some g)
  slots := slots
  applied := []

theorem content_seeded (hadd : Additive (weight graph goal)) {root : K} {g : G}
    {slots : S → Option G} {nodes : List K} {sinks : List S} (hroot : root ∈ nodes)
    (hnodup : nodes.Nodup) (hsinks : sinks.Nodup) :
    content (weight graph goal) (nodes.map .inl ++ sinks.map .inr) (seeded root g slots).state =
      weight graph goal (.inl root) g +
        (sinks.map (fun s => weight graph goal (.inr s) ((slots s).getD 0))).sum := by
  let before : K ⊕ S → G
    | .inl _ => 0
    | .inr s => (slots s).getD 0
  have hseed : (seeded root g slots).state = send before (.inl root, g) := by
    funext d
    unfold send
    cases d with
    | inl k =>
      by_cases hk : k = root
      · subst hk
        simp [Tape.state, seeded, before]
      · have hne : (Sum.inl k : K ⊕ S) ≠ .inl root := fun heq => hk (Sum.inl_injective heq)
        simp [Tape.state, seeded, before, hk]
    | inr s =>
      rfl
  have hnodup' : (nodes.map .inl ++ sinks.map .inr : List (K ⊕ S)).Nodup :=
    nodup_places hnodup hsinks
  have hmem : (Sum.inl root : K ⊕ S) ∈ nodes.map .inl ++ sinks.map .inr :=
    mem_append_left _ (mem_map_of_mem hroot)
  have hnone : (nodes.map (fun _ : K => (0 : G))).sum = 0 := by
    apply sum_eq_zero
    intro y hy
    obtain ⟨_, _, rfl⟩ := mem_map.1 hy
    rfl
  rw [hseed, content_send hadd hnodup' hmem, add_comm]
  unfold content
  rw [map_append, sum_append, map_map, map_map]
  have hzero : (nodes.map ((fun d => weight graph goal d (before d)) ∘ Sum.inl)) =
      nodes.map (fun _ => (0 : G)) := by
    apply map_congr_left
    exact fun k _ => hadd.zero (.inl k)
  rw [hzero, hnone, zero_add]
  rfl

omit [AddCommGroup G] [DecidableEq S] [DecidableEq K] in
theorem ordered_drop {before after : List K} :
    PostOrder.Ordered (successors graph) (before ++ after) →
      PostOrder.Ordered (successors graph) after := by
  induction before with
  | nil => exact id
  | cons b before ih => exact fun h => ih h.2.2

omit [DecidableEq S] [DecidableEq K] in
/-- Below a node, no path leads back to it. -/
theorem no_return {after : List K} (hordered : PostOrder.Ordered (successors graph) (k :: after)) :
    ∀ n ∈ after, ∀ p, (gradNet graph).follow n p ≠ some (.inl k) := by
  intro n hn p hp
  have hclosed : ∀ j ∈ after, ∀ m, some (Sum.inl m) ∈ (gradNet graph).arrows j → m ∈ after := by
    intro j hj m hm
    obtain ⟨l, r, hsplit⟩ := mem_iff_append.1 hj
    have hrest := hordered.2.2
    rw [hsplit] at hrest ⊢
    have hmem := hrest.succ_mem m (mem_successors.2 hm)
    exact mem_append_right l (mem_cons_of_mem j hmem)
  exact hordered.1 (PathSum.Net.follow_node hclosed p n hn hp)

theorem weight_below {after : List K}
    (hordered : PostOrder.Ordered (successors graph) (k :: after)) :
    ∀ n ∈ after, weight graph (.inl k) (.inl n) x = 0 := by
  intro n hn
  apply PathSum.Net.total_of_unreached
  exact Set.eq_empty_of_forall_notMem (no_return hordered n hn)

theorem weight_self {after : List K}
    (hordered : PostOrder.Ordered (successors graph) (k :: after)) :
    weight graph (.inl k) (.inl k) x = x := by
  apply PathSum.Net.total_self
  intro i p hp
  unfold PathSum.Net.follow at hp
  split at hp
  · next n harrow =>
      have hn := hordered.2.1 n (mem_successors.2 (mem_of_getElem? harrow))
      exact no_return hordered n hn p hp
  · next s _ =>
      split at hp
      · cases hp
      · cases hp
  · cases hp

/-! ## The backward pass -/

/-- What a backward pass leaves behind.  Each node is applied at most once, to the sum over the
paths to it, and no node that leads to it is applied later; each slot has its old value and the sum
over the paths to it. -/
structure SumsPaths (graph : Graph K S G) (root : K) (g : G) (slots : S → Option G)
    (tape : Tape K S G) : Prop where
  once : (tape.applied.map Prod.fst).Nodup
  complete : ∀ (before : List (K × G)) (k : K) (x : G) (after : List (K × G)),
    tape.applied = before ++ (k, x) :: after →
      x = pathSum graph root (.inl k) g ∧
        ∀ c, k ∈ successors graph c → c ∉ k :: after.map Prod.fst
  slots : ∀ s, (tape.slots s).getD 0 = (slots s).getD 0 + pathSum graph root (.inr s) g

section Pass

variable {root : K} {g : G} {slots : S → Option G} {nodes : List K}

theorem relay_slot (hnodes : ∀ k, Differentiates (graph k))
    (hrank : ∀ k, ∀ n ∈ successors graph k, rank n < rank k)
    (hordered : PostOrder.Ordered (successors graph) nodes) (hroot : root ∈ nodes) (s : S) :
    relay (emitGrads graph) (seeded root g slots).state nodes (.inr s) =
      (slots s).getD 0 + pathSum graph root (.inr s) g := by
  have hadd := @additive_weight K S G _ graph _ _ rank (.inr s) hnodes hrank
  have hsinks : ∀ s', s' ∉ [s] → ∀ y : G, weight graph (.inr s) (.inr s') y = 0 := by
    intro s' hs' y
    rw [weight_slot, if_neg]
    intro heq
    exact hs' (mem_singleton.2 (Sum.inr_injective heq).symm)
  have hrun := @content_relay K S G G _ _ _ _ _ _ (successors graph) [s] hadd nodes []
    (nodup_singleton s) (emitGrads_arrive [s] hsinks) (seeded root g slots).state
    (by rwa [append_nil]) (fun k _ x => weight_conserved hnodes hrank Sum.inr_ne_inl)
  rw [append_nil, content_seeded hadd hroot hordered.nodup (nodup_singleton s)] at hrun
  have hself : ∀ y : G, weight graph (.inr s) (.inr s) y = y := fun y => by
    rw [weight_slot, if_pos rfl]
  have hleft : content (weight graph (.inr s)) (([] : List K).map .inl ++ [s].map .inr)
      (relay (emitGrads graph) (seeded root g slots).state nodes) =
        relay (emitGrads graph) (seeded root g slots).state nodes (.inr s) := by
    unfold content
    simp [hself]
  rw [← hleft, hrun]
  simp only [map_cons, map_nil, sum_cons, sum_nil, hself, add_zero]
  exact add_comm _ _

theorem relay_node (hnodes : ∀ k, Differentiates (graph k))
    (hrank : ∀ k, ∀ n ∈ successors graph k, rank n < rank k) {before after : List K}
    (hordered : PostOrder.Ordered (successors graph) (before ++ k :: after))
    (hroot : root ∈ before ++ k :: after) :
    relay (emitGrads graph) (seeded root g slots).state before (.inl k) =
      pathSum graph root (.inl k) g := by
  have hadd := @additive_weight K S G _ graph _ _ rank (.inl k) hnodes hrank
  have hafter := ordered_drop hordered
  have hne : ∀ j ∈ before, (Sum.inl k : K ⊕ S) ≠ .inl j := by
    intro j hj heq
    have hnodup := nodup_append.1 hordered.nodup
    exact hnodup.2.2 j hj k mem_cons_self (Sum.inl_injective heq).symm
  have hrun := @content_relay K S G G _ _ _ _ _ _ (successors graph) [] hadd before (k :: after)
    nodup_nil (emitGrads_arrive [] (fun s _ y => weight_slot.trans (if_neg Sum.inl_ne_inr)))
    (seeded root g slots).state hordered (fun j hj x => weight_conserved hnodes hrank (hne j hj))
  rw [content_seeded hadd hroot hordered.nodup nodup_nil] at hrun
  have hleft : content (weight graph (.inl k)) ((k :: after).map .inl ++ ([] : List S).map .inr)
      (relay (emitGrads graph) (seeded root g slots).state before) =
        relay (emitGrads graph) (seeded root g slots).state before (.inl k) := by
    unfold content
    rw [map_nil, append_nil, map_map, map_cons, sum_cons]
    have hbelow : (after.map ((fun d => weight graph (.inl k) d
        (relay (emitGrads graph) (seeded root g slots).state before d)) ∘ Sum.inl)).sum = 0 := by
      apply sum_eq_zero
      intro y hy
      obtain ⟨n, hn, rfl⟩ := mem_map.1 hy
      exact weight_below hafter n hn
    rw [hbelow, add_zero]
    exact weight_self hafter
  rw [← hleft, hrun]
  exact add_zero _

omit [AddCommGroup G] [DecidableEq K] [DecidableEq S] in
theorem consumer_not_later (hordered : PostOrder.Ordered (successors graph) nodes)
    {log before after : List (K × G)} (hlog : (log.map Prod.fst).Sublist nodes)
    (hsplit : log = before ++ (k, x) :: after) :
    ∀ c, k ∈ successors graph c → c ∉ k :: after.map Prod.fst := by
  intro c hc hlater
  have hsub : (k :: after.map Prod.fst).Sublist nodes := by
    rw [hsplit, map_append] at hlog
    exact (sublist_append_right _ _).trans hlog
  obtain ⟨l, r, hnodes, hk, hafter⟩ := cons_sublist_iff.1 hsub
  obtain ⟨l₁, l₂, hl⟩ := mem_iff_append.1 hk
  have hrest : PostOrder.Ordered (successors graph) (k :: (l₂ ++ r)) := by
    apply @ordered_drop K S G graph l₁
    rwa [hnodes, hl, append_assoc] at hordered
  have hmem : ∀ j, j ∈ l₂ ++ r → k ∈ successors graph j → False := by
    intro j hj hkj
    obtain ⟨r₁, r₂, hr⟩ := mem_iff_append.1 hj
    have htail := hrest.2.2
    rw [hr] at htail
    apply hrest.1
    rw [hr]
    exact mem_append_right r₁ (mem_cons_of_mem j (htail.succ_mem k hkj))
  rcases mem_cons.1 hlater with heq | hin
  · -- a node does not lead to itself
    rw [heq] at hc
    exact hrest.1 (hrest.2.1 k hc)
  · exact hmem c (mem_append_right l₂ (hafter.subset hin)) hc

end Pass

theorem backward_sumsPaths [Fintype K] (graph : Graph K S G) (add : G → G → Except String G)
    (fuel : Nat) (output : Output K G) (initialGrad : Option G) (root : K) (g : G)
    (slots : S → Option G) (hroot : output.gradFn = some root)
    (hgrad : initialGrad.orElse (fun _ => output.ones) = some g)
    (hfuel : Fintype.card K ≤ fuel) (hacyclic : Acyclic graph)
    (hadd : ∀ x y, add x y = .ok (x + y)) (hnodes : ∀ k, Differentiates (graph k)) :
    ∃ tape, backward graph add fuel output initialGrad slots = (tape, .ok ()) ∧
      SumsPaths graph root g slots tape := by
  obtain ⟨rank, hrank, hcard⟩ := PostOrder.exists_rank hacyclic
  obtain ⟨hordered, hlisted⟩ := PostOrder.ordered_visit hrank ((hcard root).trans_le hfuel)
  have hmem := mem_reverse.2 hlisted
  obtain ⟨tape, log, hrun, happlied, hreads, hlog⟩ := processAll_reads reading_getD hadd
    (emits_emitGrads hnodes) _ (seeded root g slots) (seeded root g slots).state
    ⟨fun _ => rfl, fun _ => rfl⟩ hordered.nodup
  have happlied' : tape.applied = log := happlied
  refine ⟨tape, ?_, ?_, ?_, ?_⟩
  · unfold backward
    simp only [hroot, hgrad, visit_eq]
    exact hrun
  · rw [happlied']
    exact hordered.nodup.sublist hlog.order
  · intro before k x after hsplit
    rw [happlied'] at hsplit
    refine ⟨?_, consumer_not_later hordered hlog.order hsplit⟩
    have hin : (k, x) ∈ log := hsplit ▸ mem_append_right before mem_cons_self
    obtain ⟨l, r, hnodesEq⟩ := mem_iff_append.1
      (hlog.order.subset (mem_map_of_mem hin))
    rw [hnodesEq] at hordered hmem
    calc
      x = relay (emitGrads graph) (seeded root g slots).state l (.inl k) :=
          hlog.holds l k r hnodesEq x hin
      _ = pathSum graph root (.inl k) g := relay_node hnodes hrank hordered hmem
  · intro s
    calc
      (tape.slots s).getD 0
          = relay (emitGrads graph) (seeded root g slots).state _ (.inr s) := (hreads.slots s).symm
      _ = (slots s).getD 0 + pathSum graph root (.inr s) g :=
          relay_slot hnodes hrank hordered hmem s

omit [AddCommGroup G] [DecidableEq K] [DecidableEq S] in
theorem acyclic_of_rank (hrank : ∀ k, ∀ n ∈ successors graph k, rank n < rank k) :
    Acyclic graph := by
  intro k hcycle
  have hfalls : ∀ j, Relation.TransGen (fun a b => b ∈ successors graph a) k j →
      rank j < rank k := by
    intro j h
    induction h with
    | single h => exact hrank _ _ h
    | tail _ h ih => exact (hrank _ _ h).trans ih
  exact Nat.lt_irrefl _ (hfalls k hcycle)

/-- The root reaches the second node by two edges, and the first slot from both nodes. -/
def sharedGraph : Graph (Fin 2) (Fin 2) Int
  | 0 =>
    { name := "AddBackward"
      apply := fun x => some [some x, some (-x), some x]
      nextEdges := [Edge.fromNode 1, Edge.fromNode 1, Edge.leaf 0] }
  | 1 =>
    { name := "MulBackward"
      apply := fun x => some [some (3 * x), none, some x]
      nextEdges := [Edge.leaf 0, Edge.leaf 1, Edge.detached] }

theorem differentiates_sharedGraph : ∀ k, Differentiates (sharedGraph k) := by
  intro k
  match k with
  | 0 =>
    refine ⟨fun x => ⟨_, rfl, rfl⟩, fun i x y => ?_⟩
    match i with
    | 0 => rfl
    | 1 => exact neg_add x y
    | 2 => rfl
    | i + 3 => rfl
  | 1 =>
    refine ⟨fun x => ⟨_, rfl, rfl⟩, fun i x y => ?_⟩
    match i with
    | 0 => exact mul_add 3 x y
    | 1 => rfl
    | 2 => rfl
    | i + 3 => rfl

theorem backward_sharedGraph : ∃ tape, backward sharedGraph (fun x y => .ok (x + y)) 2
    { gradFn := some 0, ones := none } (some 5) (fun _ => none) = (tape, .ok ()) ∧
      SumsPaths sharedGraph 0 5 (fun _ => none) tape :=
  backward_sumsPaths sharedGraph _ 2 _ _ 0 5 _ rfl rfl (by decide)
    (@acyclic_of_rank _ _ _ _ (fun k => 2 - k.val) (by decide)) (fun _ _ => rfl)
    differentiates_sharedGraph

/-! ## Passes without a reset -/

/-- The slots after backward passes from roots with gradients; `none` when one of them fails. -/
def passes (graph : Graph K S G) (add : G → G → Except String G) (fuel : Nat)
    (calls : List (K × G)) (slots : S → Option G) : Option (S → Option G) :=
  calls.foldlM (fun slots call =>
    match backward graph add fuel ⟨some call.1, none⟩ (some call.2) slots with
    | (tape, .ok ()) => some tape.slots
    | _ => none) slots

/-- Gradients accumulate: a slot gets the sum over all passes, in whatever order they run. -/
theorem passes_accumulate [Fintype K] {fuel : Nat} (hfuel : Fintype.card K ≤ fuel)
    (hacyclic : Acyclic graph) (hadd : ∀ x y, add x y = .ok (x + y))
    (hnodes : ∀ k, Differentiates (graph k)) {calls order : List (K × G)} (horder : order.Perm calls)
    (slots : S → Option G) : ∃ slots', passes graph add fuel order slots = some slots' ∧
      ∀ s, (slots' s).getD 0 =
        (slots s).getD 0 + (calls.map fun c => pathSum graph c.1 (.inr s) c.2).sum := by
  -- the sum is the same in every order, so the induction is on the passes as they run
  simp only [← fun s => (horder.map fun c => pathSum graph c.1 (.inr s) c.2).sum_eq]
  clear horder
  obtain ⟨rank, hrank, hcard⟩ := PostOrder.exists_rank hacyclic
  induction order generalizing slots with
  | nil => exact ⟨slots, rfl, fun s => (add_zero _).symm⟩
  | cons call order ih =>
    obtain ⟨root, g⟩ := call
    obtain ⟨hordered, hlisted⟩ := PostOrder.ordered_visit hrank ((hcard root).trans_le hfuel)
    obtain ⟨tape, _, hrun, _, hreads, _⟩ := processAll_reads reading_getD hadd
      (emits_emitGrads hnodes) _ (seeded root g slots) (seeded root g slots).state
      ⟨fun _ => rfl, fun _ => rfl⟩ hordered.nodup
    have hback : backward graph add fuel ⟨some root, none⟩ (some g) slots = (tape, .ok ()) := by
      unfold backward
      simp only [Option.orElse_some, visit_eq]
      exact hrun
    obtain ⟨slots', hpasses, hsum⟩ := ih tape.slots
    refine ⟨slots', ?_, fun s => ?_⟩
    · rw [passes, foldlM_cons, hback]
      exact hpasses
    · rw [hsum, ← hreads.slots, relay_slot hnodes hrank hordered (mem_reverse.2 hlisted), map_cons,
        sum_cons, add_assoc]

theorem passes_sharedGraph : ∃ slots', passes sharedGraph (fun x y => .ok (x + y)) 2
    [(1, 7), (0, 5)] (fun _ => none) = some slots' ∧ ∀ s, (slots' s).getD 0 =
      0 + ([(0, 5), (1, 7)].map fun c => pathSum sharedGraph c.1 (.inr s) c.2).sum :=
  passes_accumulate (by decide) (@acyclic_of_rank _ _ _ _ (fun k => 2 - k.val) (by decide))
    (fun _ _ => rfl) differentiates_sharedGraph (.swap _ _ _) _

end Autograd
end Rustorch
