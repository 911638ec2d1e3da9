import Rustorch.Autograd.Recompute

/-!
# The same expression over two results

One expression is built over the result of a function and over the result of its checkpoint.  Its
nodes are paired one by one; the node behind the first result stands for the node of the checkpoint.
-/

namespace Rustorch
namespace Autograd

open Relay Option List

variable {T : Type} {first p : Nat} {root : Option Nat} {gradEnabled later : Bool}

/-- The node over the checkpoint that a node over the plain result stands for: those from before
the call are shared, the root of the result is the node of the checkpoint, and those built later
are shifted by its address.  The other nodes of the function have none. -/
def expressionNode (first p : Nat) (root : Option Nat) (k : Nat) : Option Nat :=
  if k < first then some k
  else if root = some k then some (first + p)
  else if first + p ≤ k then some (k + 1)
  else none

def expressionPlace (first p : Nat) (root : Option Nat) : Nat ⊕ Nat → Option (Nat ⊕ Nat)
  | .inl k => (expressionNode first p root k).map .inl
  | .inr s => if s < first then some (.inr s) else none

theorem expressionPlace_inl (first p : Nat) (root : Option Nat) (k : Nat) :
    expressionPlace first p root (.inl k) = (expressionNode first p root k).map .inl := rfl

theorem expressionPlace_inr (first p : Nat) (root : Option Nat) (s : Nat) :
    expressionPlace first p root (.inr s) = if s < first then some (.inr s) else none := rfl

/-- The root is one of the nodes of the function. -/
def Inside (first p : Nat) (root : Option Nat) : Prop :=
  ∀ k, root = some k → first ≤ k ∧ k < first + p

variable {k : Nat}

theorem expressionNode_old (hk : k < first) : expressionNode first p root k = some k := by
  unfold expressionNode
  rw [if_pos hk]

theorem expressionNode_later (hroot : Inside first p root) (hk : first + p ≤ k) :
    expressionNode first p root k = some (k + 1) := by
  unfold expressionNode
  rw [if_neg (by omega), if_neg, if_pos hk]
  intro heq
  have := hroot k heq
  omega

theorem expressionNode_inner {i : Nat} (hi : i < p) (hne : root ≠ some (first + i)) :
    expressionNode first p root (first + i) = none := by
  unfold expressionNode
  rw [if_neg (by omega), if_neg hne, if_neg (by omega)]

theorem expressionNode_eq_some {k' : Nat} (h : expressionNode first p root k = some k') :
    (k < first ∧ k' = k) ∨ (first ≤ k ∧ root = some k ∧ k' = first + p) ∨
      (first + p ≤ k ∧ root ≠ some k ∧ k' = k + 1) := by
  unfold expressionNode at h
  split at h
  · next hk =>
      cases h
      exact Or.inl ⟨hk, rfl⟩
  · next hk =>
      split at h
      · next hroot =>
          cases h
          exact Or.inr (Or.inl ⟨Nat.not_lt.1 hk, hroot, rfl⟩)
      · next hroot =>
          split at h
          · next hlater =>
              cases h
              exact Or.inr (Or.inr ⟨hlater, hroot, rfl⟩)
          · cases h

theorem expressionNode_injective {j n : Nat} (hj : expressionNode first p root j = some n)
    (hk : expressionNode first p root k = some n) : j = k := by
  rcases expressionNode_eq_some hj with ⟨h1, h2⟩ | ⟨h0, h1, h2⟩ | ⟨h1, h0, h2⟩ <;>
    rcases expressionNode_eq_some hk with ⟨h3, h4⟩ | ⟨h5, h3, h4⟩ | ⟨h3, h5, h4⟩
  · omega
  · omega
  · omega
  · omega
  · exact some.inj (h1.symm.trans h3)
  · omega
  · omega
  · omega
  · omega

theorem apart_expressionPlace : Apart (expressionPlace first p root) := by
  intro l l' d hl hl'
  cases l with
  | inl k =>
    obtain ⟨n, hn, rfl⟩ := map_eq_some_iff.1 hl
    cases l' with
    | inl k' =>
      obtain ⟨n', hn', heq⟩ := map_eq_some_iff.1 hl'
      obtain rfl := Sum.inl_injective heq
      rw [expressionNode_injective hn hn']
    | inr s' =>
      rw [expressionPlace_inr] at hl'
      split at hl'
      · cases hl'
      · cases hl'
  | inr s =>
    rw [expressionPlace_inr] at hl
    split at hl
    · cases hl
      cases l' with
      | inl k' =>
        obtain ⟨n', _, heq⟩ := map_eq_some_iff.1 hl'
        cases heq
      | inr s' =>
        rw [expressionPlace_inr] at hl'
        split at hl'
        · cases hl'
          rfl
        · cases hl'
    · cases hl

/-- A variable over the plain result and its counterpart over the checkpoint. -/
structure Counterparts (first p : Nat) (root : Option Nat) (v v' : Variable T) : Prop where
  mirrors : Mirrors (expressionPlace first p root) v v'
  requires : v.requiresGrad = v'.requiresGrad
  node : v'.gradFn = v.gradFn.bind (expressionNode first p root)
  known : ∀ k, v.gradFn = some k → expressionNode first p root k ≠ none

/-- The two runs of an expression, before some code; `later` says whether gradients are enabled when
`backward` is called. -/
structure Builds (first p : Nat) (root : Option Nat) (later : Bool) (_code : List (Instr T))
    (env : List (Variable T)) (heap : Heap T) (env' : List (Variable T)) (heap' : Heap T) :
    Prop where
  vars : Forall₂ (Counterparts first p root) env env'
  le : first + p ≤ heap.next
  next : heap'.next = heap.next + 1
  unused : ∀ k, heap.next ≤ k → heap.nodes k = Record.absent
  unused' : ∀ k, heap'.next ≤ k → heap'.nodes k = Record.absent
  paired : ∀ k, first + p ≤ k → k < heap.next →
    Paired (expressionPlace first p root) (emitHeld (heap.graph later))
      (emitHeld (heap'.graph later)) (expressionNode first p root) k
  sends : ∀ k, first + p ≤ k → k < heap.next → ∀ x, ∀ part ∈ emitHeld (heap.graph later) k x,
    expressionPlace first p root part.1 ≠ none

theorem Counterparts.place_ne_none {v v' : Variable T} (h : Counterparts first p root v v')
    {d : Nat ⊕ Nat} (hd : v.edge.dest = some d) : expressionPlace first p root d ≠ none := by
  have hedge : v'.edge.dest = v.edge.dest.bind _ := h.mirrors.edge
  have hrequires : v.requiresGrad = true := by
    rw [v.edge_dest] at hd
    by_contra hno
    rw [if_neg hno] at hd
    cases hd
  rw [hd, bind_some, v'.edge_dest, ← h.requires, if_pos hrequires] at hedge
  rw [← hedge]
  exact some_ne_none _

theorem counterparts_of_valid {v : Variable T} (h : v.Valid first) :
    Counterparts first p root v v := by
  refine ⟨⟨rfl, ?_⟩, rfl, ?_, ?_⟩
  · unfold MirrorsEdge
    cases hd : v.edge.dest with
    | none => rfl
    | some d =>
      cases d with
      | inl k =>
        rw [bind_some, expressionPlace_inl, expressionNode_old (h.edge_node hd)]
        rfl
      | inr s => rw [bind_some, expressionPlace_inr, if_pos (h.edge_slot hd)]
  · cases hk : v.gradFn with
    | none => rfl
    | some k => exact (expressionNode_old (h.node k hk)).symm
  · intro k hk
    rw [expressionNode_old (h.node k hk)]
    exact some_ne_none k

theorem records_eq {args args' : List (Variable T)}
    (h : Forall₂ (Counterparts first p root) args args') :
    records gradEnabled args = records gradEnabled args' := by
  have hany : args.any Variable.requiresGrad = args'.any Variable.requiresGrad := by
    induction h with
    | nil => rfl
    | cons hv _ ih => rw [any_cons, any_cons, hv.requires, ih]
  unfold records
  rw [hany]

theorem emitHeld_finish_absent {op : Op T} {args : List (Variable T)} {out : T} {heap : Heap T}
    (hunused : ∀ k, heap.next ≤ k → heap.nodes k = Record.absent)
    (hrecords : records gradEnabled args = false) (x : WithZero T) :
    emitHeld ((op.finish gradEnabled args out heap).2.graph later) heap.next x = [] := by
  have hoff : ¬ records gradEnabled args = true := by
    rw [hrecords]
    exact Bool.false_ne_true
  rw [emitHeld_graph, finish_nodes, if_neg hoff, hunused _ (le_refl _), emitRecord_absent]

theorem steps_builds (hroot : Inside first p root) :
    Steps gradEnabled gradEnabled (@Counterparts T first p root) (Builds first p root later) where
  tensor v v' h := h.mirrors.tensor
  env h := h.vars
  step := by
    intro instr rest env heap env' heap' args args' out h hargs hargs' hrel
    have hmirrors : Forall₂ (Mirrors (expressionPlace first p root)) args args' :=
      hrel.imp (fun _ _ hv => hv.mirrors)
    have hsame : records gradEnabled args = records gradEnabled args' := records_eq hrel
    have hpick : expressionNode first p root heap.next = some heap'.next := by
      rw [h.next]
      exact expressionNode_later hroot h.le
    constructor
    · -- the new results are counterparts: they record, or not, together
      apply rel_append h.vars
      refine Forall₂.cons ⟨⟨?_, ?_⟩, ?_, ?_, ?_⟩ Forall₂.nil
      · rw [finish_fst, finish_fst]
      · unfold MirrorsEdge
        rw [finish_dest, finish_dest, ← hsame]
        cases records gradEnabled args with
        | false => rfl
        | true =>
          rw [if_pos rfl, if_pos rfl, bind_some, expressionPlace_inl, hpick]
          rfl
      · rw [finish_fst, finish_fst]
        exact hsame
      · rw [finish_fst, finish_fst, ← hsame]
        cases records gradEnabled args with
        | false => rfl
        | true => exact hpick.symm
      · intro k hk
        rw [finish_fst] at hk
        simp only at hk
        split at hk
        · cases hk
          rw [hpick]
          exact some_ne_none _
        · cases hk
    · rw [finish_next]
      exact Nat.le_succ_of_le h.le
    · rw [finish_next, finish_next, h.next]
    · intro k hk
      rw [finish_next] at hk
      rw [finish_nodes_of_ne (by omega)]
      exact h.unused k (by omega)
    · intro k hk
      rw [finish_next] at hk
      rw [finish_nodes_of_ne (by omega)]
      exact h.unused' k (by omega)
    · intro k hle hk
      rw [finish_next] at hk
      rcases Nat.lt_succ_iff_lt_or_eq.1 hk with hlt | rfl
      · -- an earlier node is not touched
        have hold := h.paired k hle hlt
        constructor
        · exact hold.counterpart
        · intro k' hk' x
          have hk'' := hk'
          rw [expressionNode_later hroot hle] at hk''
          cases hk''
          rw [emitHeld_finish_of_ne (by rw [h.next]; omega), emitHeld_finish_of_ne (by omega)]
          exact hold.same _ hk' x
        · intro hnone
          rw [expressionNode_later hroot hle] at hnone
          cases hnone
      · constructor
        · rfl
        · -- the node just made sends what its counterpart sends, edge by edge
          intro k' hk' x
          rw [hpick] at hk'
          cases hk'
          cases hrecords : records gradEnabled args with
          | true =>
            rw [emitHeld_finish_self hrecords, emitHeld_finish_self (hsame ▸ hrecords)]
            exact carry_record _ hmirrors x
          | false =>
            rw [emitHeld_finish_absent h.unused hrecords,
              emitHeld_finish_absent h.unused' (hsame ▸ hrecords)]
            rfl
        · intro hnone
          rw [hpick] at hnone
          cases hnone
    · intro k hle hk x part hpart
      rw [finish_next] at hk
      rcases Nat.lt_succ_iff_lt_or_eq.1 hk with hlt | rfl
      · -- an earlier node still sends only to places that are mapped
        rw [emitHeld_finish_of_ne (by omega)] at hpart
        exact h.sends k hle hlt x part hpart
      · cases hrecords : records gradEnabled args with
        | true =>
          rw [emitHeld_finish_self hrecords] at hpart
          cases x using WithZero.recZeroCoe with
          | zero => cases hpart
          | coe g =>
            rw [emitRecord_op] at hpart
            -- the new node sends along the edges of its arguments, which have counterparts
            obtain ⟨e, he, hdest⟩ := mem_map.1 (dest_of_mem_parts hpart)
            obtain ⟨v, hv, rfl⟩ := mem_map.1 he
            obtain ⟨v', hv'⟩ := exists_right_of_forall₂ hrel hv
            exact hv'.place_ne_none hdest
        | false =>
          rw [emitHeld_finish_absent h.unused hrecords] at hpart
          cases hpart

end Autograd
end Rustorch

/-!
# From the expression to the leaves

A call and its checkpoint leave two heaps.  `Bridges` says that what the nodes of the call send to
places from before the call is what the checkpoint sends there; then `backward` from one expression
over the two results ends alike.
-/

namespace Rustorch
namespace Autograd

open PostOrder Relay

variable {T : Type} [AddCommSemigroup T] {add : T → T → Except String T} {ones : T → Option T}
  {later : Bool} {heap h h' : Heap T} {p : Nat} {root : Option Nat}

/-- A place from before the call. -/
def Old (first : Nat) : Nat ⊕ Nat → Prop
  | .inl k => k < first
  | .inr s => s < first

variable {d : Nat ⊕ Nat} {st st' : Nat ⊕ Nat → WithZero T}

omit [AddCommSemigroup T] in
theorem expressionPlace_old {first : Nat} (hd : Old first d) :
    expressionPlace first p root d = some d := by
  cases d with
  | inl k =>
    rw [expressionPlace_inl, expressionNode_old hd]
    rfl
  | inr s =>
    exact if_pos hd

/-- The heaps after a call of `p` ops and after its checkpoint. -/
structure Bridges (later : Bool) (heap h h' : Heap T) (p : Nat) (root : Option Nat) : Prop where
  sound : heap.Sound later
  next : h.next = heap.next + p
  next' : h'.next = heap.next + p + 1
  inside : Inside heap.next p root
  kept : ∀ k, k < heap.next → h.nodes k = heap.nodes k
  kept' : ∀ k, k < heap.next → h'.nodes k = heap.nodes k
  middle : ∀ st st', Agrees (expressionPlace heap.next p root) st st' →
    (∀ i, i < p → root ≠ some (heap.next + i) → st (.inl (heap.next + i)) = 0) →
      ∀ d, Old heap.next d →
        relay (emitHeld (h.graph later)) st
            ((descending p).map (fun i => heap.next + i)) d =
          relay (emitHeld (h'.graph later)) st'
            ((descending (p + 1)).map (fun i => heap.next + i)) d

/-! ## The old part -/

/-- Both sides share the nodes from before the call, and these lead only to such places. -/
theorem relay_old (hsound : heap.Sound later) {z z' : Heap T}
    (hz : ∀ k, k < heap.next → z.nodes k = heap.nodes k)
    (hz' : ∀ k, k < heap.next → z'.nodes k = heap.nodes k)
    (hagree : ∀ d, Old heap.next d → st d = st' d) (hd : Old heap.next d) :
    relay (emitHeld (z.graph later)) st (descending heap.next) d =
      relay (emitHeld (z'.graph later)) st' (descending heap.next) d := by
  classical
  let place : Nat ⊕ Nat → Option (Nat ⊕ Nat) := fun d => if Old heap.next d then some d else none
  have hplace : ∀ d, Old heap.next d → place d = some d := fun d hd => if_pos hd
  have hsome : ∀ l d, place l = some d → Old heap.next l ∧ d = l := by
    intro l d hl
    by_cases hold : Old heap.next l
    · rw [hplace l hold] at hl
      exact ⟨hold, (Option.some.inj hl).symm⟩
    · rw [show place l = none from if_neg hold] at hl
      cases hl
  have hapart : Apart place := by
    intro l l' d hl hl'
    obtain ⟨_, rfl⟩ := hsome l d hl
    obtain ⟨_, heq⟩ := hsome l' d hl'
    exact heq
  have hpaired : ∀ k ∈ descending heap.next, Paired place (emitHeld (z.graph later))
      (emitHeld (z'.graph later)) some k := by
    intro k hk
    have hlt := mem_descending.1 hk
    constructor
    · exact hplace (.inl k) hlt
    · rintro k' hk' x
      cases hk'
      rw [emitHeld_graph, emitHeld_graph, hz k hlt, hz' k hlt]
      -- every part goes to a place from before the call
      have hself : ∀ part ∈ emitRecord later (heap.nodes k) x, place part.1 = some part.1 := by
        intro part hpart
        apply hplace
        cases x using WithZero.recZeroCoe with
        | zero => cases hpart
        | coe g =>
          have hdest := dest_of_mem_parts hpart
          cases hpart' : part.1 with
          | inl n =>
            rw [hpart'] at hdest
            exact lt_trans (hsound.below k n hdest) hlt
          | inr s =>
            rw [hpart'] at hdest
            exact hsound.slot k s hdest
      generalize emitRecord later (heap.nodes k) x = parts at hself
      induction parts with
      | nil => rfl
      | cons part parts ih =>
        have hfirst := hself part List.mem_cons_self
        have hcarry : carry place (part :: parts) = part :: carry place parts := by
          apply List.filterMap_cons_some
          rw [hfirst]
          rfl
        rw [hcarry, ← ih (fun q hq => hself q (List.mem_cons_of_mem part hq))]
    · intro hnone
      cases hnone
  have hrun := relay_carry (agrees_carries hapart) (descending heap.next) st st' hpaired
    (by
      intro l d hl
      obtain ⟨hold, rfl⟩ := hsome l d hl
      exact hagree _ hold)
  rw [List.filterMap_some] at hrun
  exact hrun d d (hplace d hd)

/-! ## Whole sweeps -/

/-- The ends of the two runs of an expression. -/
structure Ends (later : Bool) (heap h h' z z' : Heap T) (p : Nat) (root : Option Nat) : Prop where
  bridges : Bridges later heap h h' p root
  builds : ∃ env env', Builds heap.next p root later [] env z env' z'
  sound : z.Sound later
  sound' : z'.Sound later
  kept : ∀ k, k < h.next → z.nodes k = h.nodes k
  kept' : ∀ k, k < h'.next → z'.nodes k = h'.nodes k

variable {z z' : Heap T}

theorem sweep_eq (hends : Ends later heap h h' z z' p root)
    (hagree : Agrees (expressionPlace heap.next p root) st st')
    (hzero : ∀ i, i < p → root ≠ some (heap.next + i) → st (.inl (heap.next + i)) = 0)
    (hd : Old heap.next d) : relay (emitHeld (z.graph later)) st (descending z.next) d =
      relay (emitHeld (z'.graph later)) st' (descending z'.next) d := by
  obtain ⟨env, env', hbuilds⟩ := hends.builds
  have hB := hends.bridges
  obtain ⟨q, hq⟩ := Nat.exists_eq_add_of_le hbuilds.le
  have hlist : descending z.next =
      (descending q).map (fun i => heap.next + p + i) ++
        ((descending p).map (fun i => heap.next + i) ++
          descending heap.next) := by
    rw [hq, descending_add, descending_add]
  have hlist' : descending z'.next =
      (descending q).map (fun i => heap.next + p + i + 1) ++
        ((descending (p + 1)).map (fun i => heap.next + i) ++
          descending heap.next) := by
    have hnext : z'.next = heap.next + (p + 1) + q := by
      rw [hbuilds.next]
      omega
    rw [hnext, descending_add, descending_add]
    congr 1
    apply List.map_congr_left
    intro i _
    omega
  rw [hlist, hlist', relay_append, relay_append, relay_append, relay_append]
  -- the nodes of the expression
  have hexpr : Agrees (expressionPlace heap.next p root)
      (relay (emitHeld (z.graph later)) st
        ((descending q).map (fun i => heap.next + p + i)))
      (relay (emitHeld (z'.graph later)) st'
        ((descending q).map (fun i => heap.next + p + i + 1))) := by
    have hpick : ((descending q).map (fun i => heap.next + p + i)).filterMap
        (expressionNode heap.next p root) =
          (descending q).map (fun i => heap.next + p + i + 1) := by
      rw [List.filterMap_map]
      apply List.filterMap_eq_map_iff_forall_eq_some.2
      intro i _
      exact expressionNode_later hB.inside (Nat.le_add_right _ _)
    rw [← hpick]
    apply relay_carry (agrees_carries apart_expressionPlace) _ _ _ _ hagree
    intro k hk
    obtain ⟨i, hi, rfl⟩ := List.mem_map.1 hk
    have hlt := mem_descending.1 hi
    exact hbuilds.paired _ (Nat.le_add_right _ _) (by omega)
  have hinner : ∀ i, i < p → root ≠ some (heap.next + i) →
      relay (emitHeld (z.graph later)) st
        ((descending q).map (fun i => heap.next + p + i)) (.inl (heap.next + i)) = 0 := by
    intro i hi hne
    rw [relay_stay]
    · exact hzero i hi hne
    · intro k hk
      obtain ⟨j, hj, rfl⟩ := List.mem_map.1 hk
      have hlt := mem_descending.1 hj
      refine ⟨?_, ?_⟩
      · intro heq
        have := Sum.inl_injective heq
        omega
      · intro x
        apply out_eq_zero
        intro part hpart heq
        apply hbuilds.sends _ (Nat.le_add_right _ _) (by omega) x part hpart
        rw [heq, expressionPlace_inl, expressionNode_inner hi hne]
        rfl
  -- the nodes of the call, and of its checkpoint
  have hmiddle : ∀ d, Old heap.next d →
      relay (emitHeld (z.graph later)) (relay (emitHeld (z.graph later)) st
          ((descending q).map (fun i => heap.next + p + i)))
        ((descending p).map (fun i => heap.next + i)) d =
      relay (emitHeld (z'.graph later)) (relay (emitHeld (z'.graph later)) st'
          ((descending q).map (fun i => heap.next + p + i + 1)))
        ((descending (p + 1)).map (fun i => heap.next + i)) d := by
    intro d hd
    have hleft := @relay_congr Nat Nat (WithZero T) _ _ _ (emitHeld (z.graph later))
      (emitHeld (h.graph later)) ((descending p).map (fun i => heap.next + i))
    have hright := @relay_congr Nat Nat (WithZero T) _ _ _ (emitHeld (z'.graph later))
    rw [hleft, hright]
    · exact hB.middle _ _ hexpr hinner d hd
    · intro k hk
      obtain ⟨i, hi, rfl⟩ := List.mem_map.1 hk
      have hlt := mem_descending.1 hi
      rw [emitHeld_graph, emitHeld_graph, hends.kept' _ (by rw [hB.next']; omega)]
    · intro k hk
      obtain ⟨i, hi, rfl⟩ := List.mem_map.1 hk
      have hlt := mem_descending.1 hi
      rw [emitHeld_graph, emitHeld_graph, hends.kept _ (by rw [hB.next]; omega)]
  apply relay_old hB.sound _ _ hmiddle hd
  · intro k hk
    rw [hends.kept k (by rw [hB.next]; omega), hB.kept k hk]
  · intro k hk
    rw [hends.kept' k (by rw [hB.next']; omega), hB.kept' k hk]

end Autograd
end Rustorch
