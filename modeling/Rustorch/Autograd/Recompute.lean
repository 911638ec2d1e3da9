import Rustorch.Autograd.Replay

/-!
# What the recomputation leaves in the leaves

Where the function returned a result of its own that requires gradients, running it again and
going backward succeeds, and each leaf gets what the nodes of the first run would have sent along
the edge of its input.
-/

namespace Rustorch
namespace Autograd

open Relay List Option PostOrder Variable

variable {T : Type}

/-! ## Leaves -/

theorem length_leaves (savedInputs : List T) : (leaves savedInputs).length = savedInputs.length := by
  unfold leaves
  rw [length_map, length_zipIdx]

theorem getElem?_leaves (savedInputs : List T) (i : Nat) : (leaves savedInputs)[i]? =
    savedInputs[i]?.map (fun tensor =>
      { tensor := tensor, gradFn := none, grad := i, requiresGrad := true }) := by
  unfold leaves
  rw [getElem?_map, getElem?_zipIdx, Option.map_map, Nat.zero_add]
  rfl

theorem leaves_valid {savedInputs : List T} {v : Variable T} (hv : v ∈ leaves savedInputs) :
    v.Valid savedInputs.length := by
  obtain ⟨i, hi⟩ := mem_iff_getElem?.1 hv
  rw [getElem?_leaves] at hi
  obtain ⟨tensor, htensor, heq⟩ := map_eq_some_iff.1 hi
  rw [← heq]
  refine ⟨?_, (List.getElem?_eq_some_iff.1 htensor).1⟩
  intro k hk
  cases hk

theorem forall₂_of_getElem? {α β : Type} {R : α → β → Prop} {xs : List α} {ys : List β}
    (hlength : xs.length = ys.length)
    (h : ∀ (i : Nat) x y, xs[i]? = some x → ys[i]? = some y → R x y) : Forall₂ R xs ys := by
  apply forall₂_iff_get.2
  refine ⟨hlength, ?_⟩
  intro i hx hy
  exact h i _ _ (getElem?_eq_getElem hx) (getElem?_eq_getElem hy)

theorem leaves_mirror (inputs : List (Variable T)) (first : Nat) (required : List Bool) :
    Forall₂ (fun v v' => Mirrors (replayPlace inputs first required) v v' ∧
      (v'.requiresGrad = true → v.requiresGrad = true))
      (leaves (inputs.map tensor)) inputs := by
  apply forall₂_of_getElem?
  · rw [length_leaves, length_map]
  · intro i v v' hv hv'
    rw [getElem?_leaves, getElem?_map, hv'] at hv
    cases hv
    refine ⟨⟨rfl, ?_⟩, fun _ => rfl⟩
    change v'.edge.dest = (inputs[i]?).bind (fun v => v.edge.dest)
    rw [hv']
    rfl

theorem sound_leafHeap (savedInputs : List T) : (leafHeap savedInputs).Sound true where
  below _ _ hn := absurd hn not_mem_nil
  slot _ _ hs := absurd hs not_mem_nil
  unused _ _ := rfl
  total _ _ := ⟨[], rfl, rfl⟩

theorem replays_leaves (inputs : List (Variable T)) (heap : Heap T) (code : List (Instr T)) :
    Replays inputs heap.next (flags true code (inputs.map requiresGrad)) code
      (leaves (inputs.map tensor)) (leafHeap (inputs.map tensor)) inputs heap where
  flags := rfl
  vars := leaves_mirror _ _ _
  le := by rw [length_leaves, length_map]
  next := by rw [length_leaves]; rfl
  next' := by rw [length_leaves, length_map, Nat.sub_self, Nat.add_zero]
  unused _ _ := rfl
  paired k hle hk := by
    have hlt : k < (inputs.map tensor).length := hk
    rw [length_map] at hlt
    exact absurd hle (Nat.not_le.2 hlt)
  passes k hle hk := by
    have hlt : k < (inputs.map tensor).length := hk
    rw [length_map] at hlt
    exact absurd hle (Nat.not_le.2 hlt)

/-! ## Where the function returned a result of its own -/

/-- The function returned a result of its own that requires gradients: what it returns was made by
an op, from an input that requires gradients. -/
structure Tracks (f : PureFn T) (inputs : List (Variable T)) : Prop where
  own : inputs.length ≤ (f (inputs.map tensor)).result
  required : (flags true (f (inputs.map tensor)).code
    (inputs.map requiresGrad))[(f (inputs.map tensor)).result]? = some true

/-- A call whose result has a node, and the call on fresh leaves beside it. -/
structure Recomputes (f : PureFn T) (inputs : List (Variable T)) (heap : Heap T) (y : Variable T)
    (heap' : Heap T) (root : Nat) (out : Variable T) (localHeap : Heap T) (p : Nat) : Prop where
  call : Autograd.call true f (leaves (inputs.map tensor))
    (leafHeap (inputs.map tensor)) = .ok (out, localHeap)
  next : localHeap.next = inputs.length + p
  next' : heap'.next = heap.next + p
  node : out.gradFn = some (inputs.length + root)
  node' : y.gradFn = some (heap.next + root)
  required : y.requiresGrad = true
  lt : root < p
  sound : localHeap.Sound true
  leaf : ∀ k, k < inputs.length → localHeap.nodes k = Record.absent
  replays : ∃ env env', Replays inputs heap.next
    (flags true (f (inputs.map tensor)).code (inputs.map requiresGrad)) []
    env localHeap env' heap'
  counts : replayNode inputs heap.next
    (flags true (f (inputs.map tensor)).code (inputs.map requiresGrad))
    (inputs.length + root) = some (heap.next + root)

theorem exists_recomputes {f : PureFn T} {inputs : List (Variable T)} {heap heap' : Heap T}
    {y : Variable T} (htracks : Tracks f inputs) (hcall : call true f inputs heap = .ok (y, heap')) :
    ∃ root out localHeap p, Recomputes f inputs heap y heap' root out localHeap p := by
  have htensors : (leaves (inputs.map tensor)).map tensor = inputs.map tensor :=
    tensors_eq (fun _ _ h => h.1.tensor) (leaves_mirror inputs 0 [])
  have hlength : (leaves (inputs.map tensor)).length = inputs.length := by
    rw [length_leaves, length_map]
  have hnext : (leafHeap (inputs.map tensor)).next = inputs.length := length_map _
  have hinv : Replays inputs heap.next
      (flags true (f (inputs.map tensor)).code (inputs.map requiresGrad))
      (f ((leaves (inputs.map tensor)).map tensor)).code
      (leaves (inputs.map tensor)) (leafHeap (inputs.map tensor)) inputs heap := by
    rw [htensors]
    exact replays_leaves inputs heap _
  have hrel := call_rel steps_replays f hinv
  rw [hcall] at hrel
  generalize hlocal : call true f (leaves (inputs.map tensor))
    (leafHeap (inputs.map tensor)) = left at hrel
  cases hrel with
  | @ok r _ hr =>
    obtain ⟨out, localHeap⟩ := r
    obtain ⟨hR, vars, vars', hend, hreturns, hreturns'⟩ := hr
    have hnumbered := numbered_run hreturns.run
    have hnumbered' := numbered_run hreturns'.run
    have hextends := extends_run (sound_leafHeap (inputs.map tensor))
      (fun v hv => leaves_valid hv) hreturns.run
    obtain ⟨p, hp, hpnext⟩ := hnumbered'.length
    have hresult := hreturns.result
    have hresult' := hreturns'.result
    rw [htensors] at hresult
    obtain ⟨root, hroot⟩ := Nat.exists_eq_add_of_le htracks.own
    rw [hroot] at hresult hresult'
    -- the flags at the end are those of the environment
    have hflags := hend.flags
    have hflag : y.requiresGrad = true := by
      have hrequired := htracks.required
      rw [hroot, ← hflags] at hrequired
      unfold flags at hrequired
      rw [getElem?_map, hresult'] at hrequired
      exact some.inj hrequired
    have hlt : root < p := by
      have := (List.getElem?_eq_some_iff.1 hresult').1
      omega
    refine ⟨root, out, localHeap, p, hlocal, ?_, hpnext, ?_, ?_, hflag, hlt, hextends.sound, ?_,
      ⟨vars, vars', hend⟩, ?_⟩
    · rw [hend.next, hend.vars.length_eq, hp]
    · have hnode := hnumbered.node root out (by rw [hlength]; exact hresult)
      rw [hnode, hR.2 hflag, if_pos rfl, hnext]
    · have hnode := hnumbered'.node root y hresult'
      rw [hnode, hflag, if_pos rfl]
    · intro k hk
      exact hextends.kept k (hnext.symm ▸ hk)
    · unfold replayNode
      rw [← hroot, if_pos ⟨htracks.own, htracks.required⟩, hroot, Nat.add_sub_cancel_left]

/-! ## The sweep over the fresh nodes -/

section Sweeps

variable {f : PureFn T} {inputs : List (Variable T)} {heap heap' localHeap : Heap T}
  {y out : Variable T} {root p : Nat}

/-- Where the gradients of the fresh nodes and leaves stand in the first run. -/
abbrev placeOf (f : PureFn T) (inputs : List (Variable T)) (first : Nat) :
    Nat ⊕ Nat → Option (Nat ⊕ Nat) :=
  replayPlace inputs first
    (flags true (f (inputs.map tensor)).code (inputs.map requiresGrad))

abbrev nodeOf (f : PureFn T) (inputs : List (Variable T)) (first : Nat) : Nat → Option Nat :=
  replayNode inputs first
    (flags true (f (inputs.map tensor)).code (inputs.map requiresGrad))

variable {first : Nat} {d : Nat ⊕ Nat} {i : Nat}

theorem nodeOf_eq_some {k k' : Nat} (h : nodeOf f inputs first k = some k') :
    inputs.length ≤ k ∧ k' = first + (k - inputs.length) := by
  unfold nodeOf replayNode at h
  split at h
  · next hk =>
      cases h
      exact ⟨hk.1, rfl⟩
  · cases h

theorem placeOf_inl_eq_some {k : Nat} (h : placeOf f inputs first (.inl k) = some d) :
    inputs.length ≤ k ∧ d = .inl (first + (k - inputs.length)) := by
  obtain ⟨k', hk', rfl⟩ := map_eq_some_iff.1 h
  obtain ⟨hle, rfl⟩ := nodeOf_eq_some hk'
  exact ⟨hle, rfl⟩

theorem placeOf_inr_eq_some {a : Nat} (h : placeOf f inputs first (.inr a) = some d) :
    ∃ v, inputs[a]? = some v ∧ v.edge.dest = some d := by
  obtain ⟨v, hv, hd⟩ := bind_eq_some_iff.1 h
  exact ⟨v, hv, hd⟩

theorem placeOf_inr_ne {a k : Nat} (hvalid : ∀ v ∈ inputs, v.Valid first)
    (hsink : placeOf f inputs first (.inr a) = some d)
    (hnode : placeOf f inputs first (.inl k) = some d) : False := by
  obtain ⟨v, hv, hd⟩ := placeOf_inr_eq_some hsink
  obtain ⟨_, rfl⟩ := placeOf_inl_eq_some hnode
  have hlt := (hvalid v (mem_of_getElem? hv)).edge_node hd
  exact absurd hlt (Nat.not_lt.2 (Nat.le_add_right _ _))

theorem sorted_placeOf (hvalid : ∀ v ∈ inputs, v.Valid first) :
    Sorted (placeOf f inputs first) (range inputs.length) where
  nodup := nodup_range
  node k k' d hk hk' := by
    obtain ⟨hle, rfl⟩ := placeOf_inl_eq_some hk
    obtain ⟨hle', heq⟩ := placeOf_inl_eq_some hk'
    have := Sum.inl_injective heq
    omega
  sink a d ha := by
    obtain ⟨v, hv, hd⟩ := placeOf_inr_eq_some ha
    exact ⟨mem_range.2 (List.getElem?_eq_some_iff.1 hv).1,
      fun k hk => placeOf_inr_ne hvalid ha hk⟩

/-- The counterparts of the fresh nodes, in order. -/
theorem filterMap_nodeOf (first : Nat) (is : List Nat) :
    (is.map (fun i => inputs.length + i)).filterMap (nodeOf f inputs first) =
      (is.map (fun i => first + i)).filter
        (fun k => (nodeOf f inputs first (inputs.length + (k - first))).isSome) := by
  induction is with
  | nil => rfl
  | cons i is ih =>
    rw [map_cons, map_cons]
    cases hpick : nodeOf f inputs first (inputs.length + i) with
    | none =>
      rw [filterMap_cons_none hpick, filter_cons_of_neg, ih]
      rw [Nat.add_sub_cancel_left, hpick]
      exact Bool.false_ne_true
    | some k' =>
      rw [filterMap_cons_some hpick, filter_cons_of_pos, ih]
      · obtain ⟨_, rfl⟩ := nodeOf_eq_some hpick
        rw [Nat.add_sub_cancel_left]
      · rw [Nat.add_sub_cancel_left, hpick]
        rfl

theorem leaves_grads (savedInputs : List T) (slots : Nat → Option T) :
    (leaves savedInputs).map (fun leaf => slots leaf.grad) =
      (range savedInputs.length).map slots := by
  apply ext_getElem?
  intro i
  rw [getElem?_map, getElem?_leaves, getElem?_map, Option.map_map]
  by_cases hi : i < savedInputs.length
  · rw [getElem?_eq_getElem hi, getElem?_range hi]
    rfl
  · rw [getElem?_eq_none (Nat.not_lt.1 hi),
      getElem?_eq_none (by rw [length_range]; exact Nat.not_lt.1 hi)]
    rfl

variable (h : Recomputes f inputs heap y heap' root out localHeap p)

include h

theorem Recomputes.node_lt {k k' : Nat} (hk : nodeOf f inputs first k = some k') :
    k < inputs.length + p := by
  obtain ⟨env, env', hreplays⟩ := h.replays
  have hlength : (flags true (f (inputs.map tensor)).code
      (inputs.map requiresGrad)).length = inputs.length + p := by
    rw [← hreplays.flags]
    unfold flags
    rw [length_map, ← hreplays.vars.length_eq, ← hreplays.next, h.next]
  unfold nodeOf replayNode at hk
  split at hk
  · next hflag =>
      rw [← hlength]
      exact (List.getElem?_eq_some_iff.1 hflag.2).1
  · cases hk

theorem Recomputes.paired (hi : i < p) :
    Paired (placeOf f inputs heap.next) (emitHeld (localHeap.graph true))
      (emitHeld (heap'.graph true)) (nodeOf f inputs heap.next) (inputs.length + i) := by
  obtain ⟨env, env', hreplays⟩ := h.replays
  apply hreplays.paired _ (Nat.le_add_right _ _)
  rw [h.next]
  exact Nat.add_lt_add_left hi _

theorem ne_root_of_nodeOf_eq_none (hnone : nodeOf f inputs heap.next (inputs.length + i) = none) :
    i ≠ root := by
  rintro rfl
  have hcounts := h.counts
  unfold nodeOf at hnone
  rw [hnone] at hcounts
  cases hcounts

variable [AddCommSemigroup T] {add : T → T → Except String T} {ones : T → Option T}

/-- What a backward pass from the recomputed result leaves behind. -/
def localSweep (localHeap : Heap T) (root : Nat) (g : T) : Nat ⊕ Nat → WithZero T :=
  relay (emitHeld (localHeap.graph true)) (start root g (fun _ => none))
    (descending localHeap.next)

theorem recompute_eq_some (hadd : ∀ x y, add x y = .ok (x + y)) (g : T) :
    ∃ slots, recompute add ones true f (inputs.map tensor) g = some slots ∧
      ∀ s, held (slots s) = localSweep localHeap (inputs.length + root) g (.inr s) := by
  have hlt : inputs.length + root < localHeap.next := by
    rw [h.next]
    exact Nat.add_lt_add_left h.lt _
  obtain ⟨tape, hrun, hslots⟩ := @backwardFrom_sweep T true localHeap _ add ones hadd h.sound out _
    h.node hlt (some g) g rfl (fun _ => none)
  refine ⟨tape.slots, ?_, hslots⟩
  unfold recompute
  simp only [h.call, hrun]

/-- The leaves of the second run have no nodes, so the sweep leaves in them what its nodes send. -/
theorem localSweep_inr (g : T) (s : Nat) :
    localSweep localHeap (inputs.length + root) g (.inr s) =
      relay (emitHeld (localHeap.graph true)) (start (inputs.length + root) g (fun _ => none))
        ((descending p).map (fun i => inputs.length + i)) (.inr s) := by
  unfold localSweep
  rw [h.next, descending_add, relay_append]
  apply relay_stay
  intro k hk
  refine ⟨Sum.inr_ne_inl, ?_⟩
  intro x
  apply out_of_notMem
  have habsent : ((localHeap.graph true) k).nextEdges = [] := by
    change (localHeap.nodes k).nextEdges = []
    rw [h.leaf k (mem_descending.1 hk)]
    rfl
  rw [habsent]
  exact not_mem_nil

variable {st : Nat ⊕ Nat → WithZero T}

/-- Before the second sweep the roots hold the same gradient and nothing has arrived elsewhere. -/
theorem sumsUp_start {g : T} (hroot : st (.inl (heap.next + root)) = (g : WithZero T))
    (hzero : ∀ i, i < p → i ≠ root → st (.inl (heap.next + i)) = 0) :
    SumsUp (placeOf f inputs heap.next) (range inputs.length) st
      (start (inputs.length + root) g (fun _ => none)) st := by
  constructor
  · intro k e hk
    obtain ⟨k', hk', rfl⟩ := map_eq_some_iff.1 hk
    have hlt := h.node_lt hk'
    obtain ⟨hle, rfl⟩ := nodeOf_eq_some hk'
    obtain ⟨i, rfl⟩ := Nat.exists_eq_add_of_le hle
    rw [Nat.add_sub_cancel_left]
    change (if inputs.length + i = inputs.length + root then (g : WithZero T) else 0) = _
    by_cases hi : i = root
    · rw [hi, if_pos rfl, hroot]
    · rw [if_neg (fun heq => hi (Nat.add_left_cancel heq)), hzero i (by omega) hi]
  · intro e _
    have hnone : content (arriving (placeOf f inputs heap.next) e)
        ((range inputs.length).map .inr)
        (start (inputs.length + root) g (fun _ => none)) = 0 := by
      apply sum_eq_zero
      intro x hx
      obtain ⟨e', he', rfl⟩ := mem_map.1 hx
      obtain ⟨s, _, rfl⟩ := mem_map.1 he'
      exact (arriving_additive _ e).zero (.inr s)
    rw [hnone, add_zero]

theorem out_dead (hvalid : ∀ v ∈ inputs, v.Valid heap.next) {j k' : Nat}
    (hnone : nodeOf f inputs heap.next (inputs.length + i) = none) (hj : j < p)
    (hk' : nodeOf f inputs heap.next (inputs.length + j) = some k') (x : WithZero T) :
    Relay.out (emitHeld (heap'.graph true)) k' x (.inl (heap.next + i)) = 0 := by
  apply out_eq_zero
  intro part hpart heq
  rw [(h.paired hj).same k' hk' x] at hpart
  obtain ⟨part', _, hplace⟩ := mem_filterMap.1 hpart
  obtain ⟨e, he, rfl⟩ := map_eq_some_iff.1 hplace
  simp only at heq
  rw [heq] at he
  -- what is sent goes to the place of a node of the second run, or of one of its leaves
  cases hpart' : part'.1 with
  | inl k =>
    rw [hpart'] at he
    obtain ⟨k'', hk'', hsame⟩ := map_eq_some_iff.1 he
    obtain ⟨hle, rfl⟩ := nodeOf_eq_some hk''
    have hki : k = inputs.length + i := by
      have := Sum.inl_injective hsame
      omega
    subst hki
    cases hnone.symm.trans hk''
  | inr a =>
    rw [hpart'] at he
    obtain ⟨v, hv, hdest⟩ := placeOf_inr_eq_some he
    have hlt := (hvalid v (mem_of_getElem? hv)).edge_node hdest
    exact absurd hlt (Nat.not_lt.2 (Nat.le_add_right _ _))

/-- The nodes of the first run send to an earlier place what the leaves mapped to it get when the
function runs again. -/
theorem relay_first (hvalid : ∀ v ∈ inputs, v.Valid heap.next) {g : T}
    (hroot : st (.inl (heap.next + root)) = (g : WithZero T))
    (hzero : ∀ i, i < p → i ≠ root → st (.inl (heap.next + i)) = 0)
    (hd : ∀ k, d = .inl k → k < heap.next) : relay (emitHeld (heap'.graph true)) st
        ((descending p).map (fun i => heap.next + i)) d =
      st d + content (arriving (placeOf f inputs heap.next) d)
        ((range inputs.length).map .inr)
        (localSweep localHeap (inputs.length + root) g) := by
  have hcontent : content (arriving (placeOf f inputs heap.next) d)
      ((range inputs.length).map .inr) (localSweep localHeap (inputs.length + root) g) =
      content (arriving (placeOf f inputs heap.next) d) ((range inputs.length).map .inr)
        (relay (emitHeld (localHeap.graph true)) (start (inputs.length + root) g (fun _ => none))
          ((descending p).map (fun i => inputs.length + i))) := by
    apply content_congr
    intro e he
    obtain ⟨s, _, rfl⟩ := mem_map.1 he
    exact localSweep_inr h g s
  have hrun := relay_carry (sumsUp_carries (sorted_placeOf hvalid) st)
    ((descending p).map (fun i => inputs.length + i)) _ _ (by
      intro k hk
      obtain ⟨i, hi, rfl⟩ := mem_map.1 hk
      exact h.paired (mem_descending.1 hi)) (sumsUp_start h hroot hzero)
  rw [filterMap_nodeOf] at hrun
  -- the nodes without a counterpart hold nothing at any time, so the sweep may skip them
  have hfilter := relay_filter (follows_emitHeld (heap'.graph true))
    ((descending p).map (fun i => heap.next + i)) st
    (p := fun k => (nodeOf f inputs heap.next (inputs.length + (k - heap.next))).isSome)
    (by
      intro k hk hout
      obtain ⟨i, hi, rfl⟩ := mem_map.1 hk
      rw [Nat.add_sub_cancel_left] at hout
      have hnone := isNone_iff_eq_none.1 (isSome_eq_false_iff.1 hout)
      refine ⟨hzero i (mem_descending.1 hi) (ne_root_of_nodeOf_eq_none h hnone), ?_⟩
      intro j hj hin x
      obtain ⟨j', hj', rfl⟩ := mem_map.1 hj
      rw [Nat.add_sub_cancel_left] at hin
      obtain ⟨k', hk'⟩ := isSome_iff_exists.1 hin
      obtain ⟨_, heq⟩ := nodeOf_eq_some hk'
      rw [Nat.add_sub_cancel_left] at heq
      exact heq ▸ out_dead h hvalid hnone (mem_descending.1 hj') hk' x)
  rw [hfilter, hcontent]
  apply hrun.other
  intro k hk
  obtain ⟨_, rfl⟩ := placeOf_inl_eq_some hk
  exact absurd (hd _ rfl) (Nat.not_lt.2 (Nat.le_add_right _ _))

theorem localSweep_reaches (g : T) :
    ∃ a, placeOf f inputs heap.next (.inr a) ≠ none ∧
      localSweep localHeap (inputs.length + root) g (.inr a) ≠ 0 := by
  have hpos : ∀ x y : WithZero T, x ≠ 0 → x + y ≠ 0 := by
    intro x y hx
    cases x using WithZero.recZeroCoe with
    | zero => exact absurd rfl hx
    | coe a =>
      cases y using WithZero.recZeroCoe with
      | zero => exact hx
      | coe b =>
        exact WithZero.coe_ne_zero
  obtain ⟨env, env', hreplays⟩ := h.replays
  let good : Nat ⊕ Nat → Prop := fun d => placeOf f inputs heap.next d ≠ none
  -- a node that counts passes something on to a place that counts
  have hpass : ∀ k ∈ descending localHeap.next, good (.inl k) → ∀ x ≠ 0,
      ∃ part ∈ emitHeld (localHeap.graph true) k x, good part.1 ∧ part.2 ≠ 0 ∧
        ∀ n, part.1 = .inl n → n ∈ successors (localHeap.graph true) k := by
    intro k hk hgood x hx
    cases x using WithZero.recZeroCoe with
    | zero => exact absurd rfl hx
    | coe b =>
      have hnode : nodeOf f inputs heap.next k ≠ none := by
        intro hnone
        apply hgood
        exact congrArg (Option.map Sum.inl) hnone
      obtain ⟨k', hk'⟩ := ne_none_iff_exists'.1 hnode
      obtain ⟨part, hpart, hplace, hne⟩ := hreplays.passes k (nodeOf_eq_some hk').1
        (mem_descending.1 hk) hnode b
      refine ⟨part, hpart, hplace, hne, ?_⟩
      intro n hn
      have hdest := dest_of_mem_parts hpart
      rw [hn] at hdest
      exact mem_successors.2 hdest
  -- the root counts, and holds the seed
  have hfirst : ∃ d, good d ∧ start (inputs.length + root) g (fun _ => none) d ≠ 0 ∧
      ∀ k, d = .inl k → k ∈ descending localHeap.next := by
    refine ⟨.inl (inputs.length + root), ?_, ?_, ?_⟩
    · intro hnone
      have hcounts : placeOf f inputs heap.next (.inl (inputs.length + root)) =
          some (.inl (heap.next + root)) := congrArg (Option.map Sum.inl) h.counts
      rw [hnone] at hcounts
      cases hcounts
    · change (if inputs.length + root = inputs.length + root then (g : WithZero T) else 0) ≠ 0
      rw [if_pos rfl]
      exact WithZero.coe_ne_zero
    · intro k hk
      rw [← Sum.inl_injective hk]
      apply mem_descending.2
      rw [h.next]
      exact Nat.add_lt_add_left h.lt _
  exact relay_reaches hpos _ _
    (ordered_descending (fun k n hn => h.sound.edge_below hn) _) hpass hfirst

/-! ## The node of the checkpoint -/

/-- The node of a checkpoint answers the gradients of the leaves, in the order of the inputs. -/
def AnswersLeaves (f : PureFn T) (inputs : List (Variable T)) (add : T → T → Except String T)
    (ones : T → Option T) (record : Record T) : Prop :=
  record.nextEdges = inputs.map edge ∧ ∀ g, ∃ slots,
    recompute add ones true f (inputs.map tensor) g = some slots ∧
      record.apply true g = some ((range inputs.length).map slots)

theorem checkpointN_answers (hadd : ∀ x y, add x y = .ok (x + y)) :
    AnswersLeaves f inputs add ones
      { name := "CheckpointNBackward"
        apply := CheckpointNBackward.apply add ones f (inputs.map tensor)
        nextEdges := inputs.map edge } := by
  refine ⟨rfl, ?_⟩
  intro g
  obtain ⟨slots, hslots, _⟩ := @recompute_eq_some T f inputs heap heap' localHeap y out root p h _
    add ones hadd g
  refine ⟨slots, hslots, ?_⟩
  unfold CheckpointNBackward.apply
  simp only [hslots]
  rw [leaves_grads, length_map]

omit h in
/-- The gradient of the only leaf is there. -/
theorem checkpoint_answers {x : Variable T} (h : Recomputes f [x] heap y heap' root out localHeap p)
    (hadd : ∀ x y, add x y = .ok (x + y)) :
    AnswersLeaves f [x] add ones
      { name := "CheckpointBackward"
        apply := CheckpointBackward.apply add ones f x.tensor
        nextEdges := [x.edge] } := by
  refine ⟨rfl, ?_⟩
  intro g
  obtain ⟨slots, hslots, hheld⟩ := @recompute_eq_some T f [x] heap heap' localHeap y out root p h _
    add ones hadd g
  refine ⟨slots, hslots, ?_⟩
  obtain ⟨a, ha, hne⟩ := localSweep_reaches h g
  have hzero : a = 0 := by
    obtain ⟨d, hd⟩ := ne_none_iff_exists'.1 ha
    obtain ⟨v, hv, _⟩ := placeOf_inr_eq_some hd
    have hlt := (List.getElem?_eq_some_iff.1 hv).1
    exact Nat.lt_one_iff.1 hlt
  subst hzero
  rw [← hheld] at hne
  unfold CheckpointBackward.apply
  have hslots' : recompute add ones true f [x.tensor] g = some slots := hslots
  simp only [hslots']
  cases hleaf : slots 0 with
  | none => exact absurd (congrArg held hleaf) hne
  | some b =>
    change _ = some [slots 0]
    rw [hleaf]

omit h in
/-- What a node sends to one place, as a sum over its edges. -/
theorem sum_parts_to (d : Nat ⊕ Nat) (entries : List (Edge Nat Nat × Option T)) :
    (((parts held entries).filter (fun part => part.1 = d)).map Prod.snd).sum =
      (entries.map (fun entry => if entry.1.dest = some d then held entry.2 else 0)).sum := by
  induction entries with
  | nil => rfl
  | cons entry entries ih =>
    obtain ⟨e, x⟩ := entry
    have hsplit : parts held ((e, x) :: entries) = parts held [(e, x)] ++ parts held entries :=
      filterMap_append (l := [(e, x)])
    rw [hsplit, filter_append, map_append, sum_append, ih, map_cons, sum_cons]
    cases hd : e.dest with
    | none => simp [parts, hd]
    | some d' =>
      cases x with
      | none => simp [parts, held]
      | some b =>
        by_cases heq : d' = d
        · simp [parts, hd, heq]
        · simp [parts, hd, heq]

theorem out_checkpoint {record : Record T} (hanswers : AnswersLeaves f inputs add ones record)
    (hadd : ∀ x y, add x y = .ok (x + y)) (g : T) (d : Nat ⊕ Nat) :
    (((emitRecord true record (g : WithZero T)).filter (fun part => part.1 = d)).map Prod.snd).sum =
      content (arriving (placeOf f inputs heap.next) d) ((range inputs.length).map .inr)
        (localSweep localHeap (inputs.length + root) g) := by
  obtain ⟨hedges, happly⟩ := hanswers
  obtain ⟨slots, hslots, happly⟩ := happly g
  obtain ⟨slots', hslots', hheld⟩ := @recompute_eq_some T f inputs heap heap' localHeap y out root p
    h _ add ones hadd g
  obtain rfl : slots = slots' := Option.some.inj (hslots.symm.trans hslots')
  change (((parts held (record.nextEdges.zip ((record.apply true g).getD []))).filter _).map
    Prod.snd).sum = _
  rw [hedges, happly, Option.getD_some, sum_parts_to]
  congr 1
  apply ext_getElem?
  intro i
  rw [List.map_map, getElem?_map, getElem?_map]
  -- edge `i` carries the gradient of leaf `i`
  by_cases hi : i < inputs.length
  · have hzip : ((inputs.map edge).zip ((range inputs.length).map slots))[i]? =
        some (inputs[i].edge, slots i) := by
      apply getElem?_zip_eq_some.2
      constructor
      · rw [getElem?_map, getElem?_eq_getElem hi]
        rfl
      · rw [getElem?_map, getElem?_range hi]
        rfl
    rw [hzip, getElem?_range hi]
    have hplace : placeOf f inputs heap.next (.inr i) = inputs[i].edge.dest := by
      change (inputs[i]?).bind (fun v => v.edge.dest) = _
      rw [getElem?_eq_getElem hi]
      rfl
    change some (if inputs[i].edge.dest = some d then held (slots i) else 0) =
      some (if placeOf f inputs heap.next (.inr i) = some d then _ else 0)
    rw [hplace, hheld]
  · rw [getElem?_eq_none, getElem?_eq_none]
    · rfl
    · rw [length_range]
      exact Nat.not_lt.1 hi
    · rw [length_zip, length_map]
      exact le_trans (Nat.min_le_left _ _) (Nat.not_lt.1 hi)

end Sweeps

end Autograd
end Rustorch
