import Rustorch.Autograd.Bridge

/-!
# When a checkpoint is transparent

A checkpoint is transparent when its result has the value of the plain call, and `backward` from
every expression over it ends as it does over the plain result, with the same gradients.  This holds
exactly when the function returned a result of its own that requires gradients and gradients are
enabled when `backward` is called, or when the call has no gradients to track and did not return a
tracked input.
-/

namespace Rustorch
namespace Autograd

open Relay List Option Outcome Function Variable

variable {T : Type} (add : T → T → Except String T) (ones : T → Option T)

/-- `backward` from two variables ends alike, with the same gradients in the slots below `first`,
and panics only for want of an initial gradient. -/
structure SameBackward (later : Bool) (first : Nat) (initialGrad : Option T)
    (slots : Nat → Option T) (r r' : Variable T × Heap T) : Prop where
  outcome : (backwardFrom add ones later r'.2 r'.1 initialGrad slots).2 =
    (backwardFrom add ones later r.2 r.1 initialGrad slots).2
  grads : ∀ s, s < first → (backwardFrom add ones later r'.2 r'.1 initialGrad slots).1.slots s =
    (backwardFrom add ones later r.2 r.1 initialGrad slots).1.slots s
  noPanic : (initialGrad.orElse (fun _ => ones r'.1.tensor)).isSome = true →
    (backwardFrom add ones later r'.2 r'.1 initialGrad slots).2 ≠ .panic

/-- A checkpoint of a call on a heap; `later` says whether gradients are enabled when `backward` is
called. -/
structure Transparent (later : Bool) (heap : Heap T)
    (plain checkpointed : Outcome BackwardError (Variable T × Heap T)) : Prop where
  value : Outcome.Rel (fun r r' => r'.1.tensor = r.1.tensor ∧
    r'.1.requiresGrad = r.1.requiresGrad) plain checkpointed
  backward : ∀ r r', plain = .ok r → checkpointed = .ok r' →
    ∀ (expr : PureFn T) (others : List (Variable T)), (∀ v ∈ others, v.Valid heap.next) →
      ∀ (gradEnabled : Bool) (initialGrad : Option T) (slots : Nat → Option T),
        Outcome.Rel (SameBackward add ones later heap.next initialGrad slots)
          (call gradEnabled expr (r.1 :: others) r.2) (call gradEnabled expr (r'.1 :: others) r'.2)

/-- With gradients to track, the function returned a result of its own that requires them, and
gradients are enabled later; without, it did not return a tracked input. -/
def Replayable (gradEnabled later : Bool) (f : PureFn T) (inputs : List (Variable T)) : Prop :=
  if gradEnabled && inputs.any requiresGrad then Tracks f inputs ∧ later = true
  else ∀ v, inputs[(f (inputs.map tensor)).result]? = some v →
    v.requiresGrad = false ∧ v.gradFn = none

variable {add ones} {gradEnabled later : Bool} {heap : Heap T} {f : PureFn T}
  {inputs : List (Variable T)}

/-! ## Backward from an expression -/

section Expressions

variable [AddCommSemigroup T] {h h' z z' : Heap T} {p : Nat} {root : Option Nat}

omit [AddCommSemigroup T] in
theorem agrees_start {k k' : Nat} (hk : expressionNode heap.next p root k = some k') (g : T)
    (slots : Nat → Option T) :
    Agrees (expressionPlace heap.next p root) (start k g slots) (start k' g slots) := by
  intro l d hl
  cases l with
  | inl j =>
    obtain ⟨j', hj', rfl⟩ := map_eq_some_iff.1 hl
    change (if j = k then (g : WithZero T) else 0) = if j' = k' then (g : WithZero T) else 0
    by_cases hjk : j = k
    · subst hjk
      rw [hk] at hj'
      rw [if_pos rfl, if_pos (some.inj hj').symm]
    · rw [if_neg hjk, if_neg]
      rintro rfl
      exact hjk (expressionNode_injective hj' hk)
  | inr s =>
    rw [expressionPlace_inr] at hl
    split at hl
    · cases hl
      rfl
    · cases hl

theorem sameBackward_of_ends (hadd : ∀ x y, add x y = .ok (x + y))
    (hends : Ends later heap h h' z z' p root) {v v' : Variable T}
    (hv : v.Valid z.next) (hv' : v'.Valid z'.next) (hpair : Counterparts heap.next p root v v')
    (initialGrad : Option T) (slots : Nat → Option T) :
    SameBackward add ones later heap.next initialGrad slots (v, z) (v', z') := by
  have htensor := hpair.mirrors.tensor
  cases hnode : v.gradFn with
  | none =>
    have hnode' : v'.gradFn = none := by
      rw [hpair.node, hnode]
      rfl
    -- without a node both sweeps stop with the same error
    have hrun : ∀ (w : Variable T) (x : Heap T), w.gradFn = none →
        backwardFrom add ones later x w initialGrad slots =
          ({ grads := fun _ => none, slots := slots, applied := [] }, .err .noGradFn) := by
      intro w x hw
      unfold backwardFrom backward
      simp only [hw]
    constructor
    · rw [hrun v z hnode, hrun v' z' hnode']
    · intro s _
      rw [hrun v z hnode, hrun v' z' hnode']
    · intro _
      rw [hrun v' z' hnode']
      intro hpanic
      cases hpanic
  | some k =>
    obtain ⟨k', hk'⟩ := ne_none_iff_exists'.1 (hpair.known k hnode)
    have hnode' : v'.gradFn = some k' := by
      rw [hpair.node, hnode]
      exact hk'
    cases hgrad : initialGrad.orElse (fun _ => ones v.tensor) with
    | none =>
      -- without a first gradient both panic
      have hrun : ∀ (w : Variable T) (x : Heap T) (j : Nat), w.gradFn = some j →
          w.tensor = v.tensor → backwardFrom add ones later x w initialGrad slots =
            ({ grads := fun _ => none, slots := slots, applied := [] }, .panic) := by
        intro w x j hw ht
        unfold backwardFrom backward
        simp only [hw, ht, hgrad]
      constructor
      · rw [hrun v z k hnode rfl, hrun v' z' k' hnode' htensor.symm]
      · intro s _
        rw [hrun v z k hnode rfl, hrun v' z' k' hnode' htensor.symm]
      · intro hsome
        rw [← htensor, hgrad] at hsome
        cases hsome
    | some g =>
      -- with one, each sweep is a relay, and the two relays leave the same in the slots
      obtain ⟨tape, hrun, hslots⟩ := @backwardFrom_sweep T later z _ add ones hadd
        hends.sound v k hnode (hv.node k hnode) initialGrad g hgrad slots
      obtain ⟨tape', hrun', hslots'⟩ := @backwardFrom_sweep T later z' _ add ones hadd
        hends.sound' v' k' hnode' (hv'.node k' hnode') initialGrad g (htensor ▸ hgrad) slots
      have hzero : ∀ i, i < p → root ≠ some (heap.next + i) →
          start k g slots (.inl (heap.next + i)) = 0 := by
        intro i hi hne
        apply if_neg
        rintro rfl
        rw [expressionNode_inner hi hne] at hk'
        cases hk'
      constructor
      · rw [hrun, hrun']
      · intro s hs
        rw [hrun, hrun']
        apply held_injective
        rw [hslots, hslots']
        exact (sweep_eq hends (agrees_start hk' g slots) hzero (d := .inr s) hs).symm
      · intro _
        rw [hrun']
        intro hpanic
        cases hpanic

theorem sameBackward_of_bridges (hadd : ∀ x y, add x y = .ok (x + y))
    (hbridges : Bridges later heap h h' p root) (hsound : h.Sound later) (hsound' : h'.Sound later)
    {y y' : Variable T} (hy : y.Valid h.next) (hy' : y'.Valid h'.next)
    (hpair : Counterparts heap.next p root y y') (expr : PureFn T) {others : List (Variable T)}
    (hothers : ∀ v ∈ others, v.Valid heap.next) (gradEnabled : Bool) (initialGrad : Option T)
    (slots : Nat → Option T) :
    Outcome.Rel (SameBackward add ones later heap.next initialGrad slots)
      (call gradEnabled expr (y :: others) h) (call gradEnabled expr (y' :: others) h') := by
  have hvars : Forall₂ (Counterparts heap.next p root) (y :: others) (y' :: others) := by
    apply Forall₂.cons hpair
    apply forall₂_same.2
    exact fun v hv => counterparts_of_valid (hothers v hv)
  have hle : heap.next ≤ h.next := by
    rw [hbridges.next]
    exact Nat.le_add_right _ _
  have hle' : heap.next ≤ h'.next := by
    rw [hbridges.next', Nat.add_assoc]
    exact Nat.le_add_right _ _
  -- the expression starts with counterparts and unused nodes above
  have hinv : Builds heap.next p root later (expr ((y :: others).map tensor)).code
      (y :: others) h (y' :: others) h' := by
    refine ⟨hvars, hbridges.next.ge, ?_, hsound.unused, hsound'.unused, ?_, ?_⟩
    · rw [hbridges.next', hbridges.next]
    · intro k hk hlt
      rw [hbridges.next] at hlt
      exact absurd hk (Nat.not_le.2 hlt)
    · intro k hk hlt
      rw [hbridges.next] at hlt
      exact absurd hk (Nat.not_le.2 hlt)
  have hrel := call_rel (@steps_builds T heap.next p root gradEnabled later hbridges.inside) expr hinv
  generalize call gradEnabled expr (y :: others) h = left at hrel
  generalize call gradEnabled expr (y' :: others) h' = right at hrel
  cases hrel with
  | err e => exact Rel.err e
  | panic => exact Rel.panic
  | @ok r r' hr =>
    obtain ⟨v, z⟩ := r
    obtain ⟨v', z'⟩ := r'
    obtain ⟨hR, vars, vars', hend, hreturns, hreturns'⟩ := hr
    -- both graphs stay sound while the expression grows them
    have hvalid : ∀ w ∈ y :: others, w.Valid h.next := by
      intro w hw
      rcases mem_cons.1 hw with heq | hin
      · exact heq ▸ hy
      · exact (hothers w hin).mono hle
    have hvalid' : ∀ w ∈ y' :: others, w.Valid h'.next := by
      intro w hw
      rcases mem_cons.1 hw with heq | hin
      · exact heq ▸ hy'
      · exact (hothers w hin).mono hle'
    have hextends := extends_run hsound hvalid hreturns.run
    have hextends' := extends_run hsound' hvalid' hreturns'.run
    apply Rel.ok
    exact sameBackward_of_ends hadd
      ⟨hbridges, ⟨vars, vars', hend⟩, hextends.sound, hextends'.sound, hextends.kept,
        hextends'.kept⟩
      (hextends.valid v (mem_of_getElem? hreturns.result))
      (hextends'.valid v' (mem_of_getElem? hreturns'.result)) hR initialGrad slots

end Expressions

/-! ## A checkpoint over any node that answers as the recomputation does -/

/-- The two checkpoints differ in their node only. -/
def checkpointWith (record : Record T) (gradEnabled : Bool) (f : PureFn T)
    (inputs : List (Variable T)) (heap : Heap T) : Outcome BackwardError (Variable T × Heap T) :=
  match call false f inputs heap with
  | .ok (outNoGrad, heap) =>
    let (out, heap) := heap.newVariable outNoGrad.tensor
    if gradEnabled && inputs.any requiresGrad then .ok (heap.attach out record)
    else .ok (out, heap)
  | .err e => .err e
  | .panic => .panic

theorem checkpoint_eq {x : Variable T} : checkpoint add ones gradEnabled f x heap = checkpointWith
    { name := "CheckpointBackward"
      apply := CheckpointBackward.apply add ones f x.tensor
      nextEdges := [x.edge] } gradEnabled f [x] heap := by
  have hany : [x].any requiresGrad = x.requiresGrad := Bool.or_false x.requiresGrad
  rw [checkpointWith, hany]
  exact (rfl : checkpoint add ones gradEnabled f x heap = _)

/-- The node of a checkpoint answers what the leaves get where the recomputation succeeds, and
panics where it fails. -/
structure CheckpointNode [AddCommSemigroup T] (add : T → T → Except String T) (ones : T → Option T)
    (f : PureFn T) (inputs : List (Variable T)) (record : Record T) : Prop where
  answers : ∀ {heap heap' localHeap : Heap T} {y out : Variable T} {root p : Nat},
    Recomputes f inputs heap y heap' root out localHeap p → AnswersLeaves f inputs add ones record
  fails : ∀ later g, recompute add ones later f (inputs.map tensor) g = none →
    record.apply later g = none

variable {record : Record T} {o : Variable T} {after : Heap T}

/-- A heap with one more record. -/
abbrev Heap.push (heap : Heap T) (record : Record T) : Heap T where
  nodes := update heap.nodes heap.next record
  next := heap.next + 1

theorem checkpointWith_of_tracking (hcall : call false f inputs heap = .ok (o, after))
    (htracking : (gradEnabled && inputs.any requiresGrad) = true) :
    checkpointWith record gradEnabled f inputs heap = .ok
      ({ tensor := o.tensor, gradFn := some after.next, grad := after.next, requiresGrad := true },
        after.push record) := by
  unfold checkpointWith
  simp only [hcall, htracking, if_true]
  rfl

theorem checkpointWith_of_not_tracking (hcall : call false f inputs heap = .ok (o, after))
    (htracking : (gradEnabled && inputs.any requiresGrad) = false) :
    checkpointWith record gradEnabled f inputs heap = .ok
      ({ tensor := o.tensor, gradFn := none, grad := after.next, requiresGrad := false },
        { after with next := after.next + 1 }) := by
  unfold checkpointWith
  simp only [hcall, htracking, Bool.false_eq_true, if_false]
  rfl

/-- The run that records nothing, beside the plain call. -/
theorem exists_silent {y : Variable T} {h : Heap T}
    (hcall : call gradEnabled f inputs heap = .ok (y, h)) :
    ∃ o after, call false f inputs heap = .ok (o, after) ∧ o.tensor = y.tensor ∧
      after.next = h.next ∧ after.nodes = heap.nodes := by
  have hsame : Forall₂ (fun v v' : Variable T => v.tensor = v'.tensor) inputs inputs :=
    forall₂_same.2 (fun _ _ => rfl)
  have hrel := call_rel (@steps_tensors T gradEnabled false) f
    (show _ ∧ _ from ⟨hsame, (rfl : heap.next = heap.next)⟩)
  rw [hcall] at hrel
  generalize hsilent : call false f inputs heap = right at hrel
  cases hrel with
  | @ok _ r' hr =>
    obtain ⟨o, after⟩ := r'
    obtain ⟨htensor, vars, vars', ⟨_, hnext⟩, _, hreturns'⟩ := hr
    have hquiet := @quiet_run T false _ _ _ _ _ rfl hreturns'.run
    exact ⟨o, after, rfl, htensor.symm, hnext, hquiet.nodes⟩

theorem checkpointWith_value :
    Outcome.Rel (fun r r' : Variable T × Heap T => r'.1.tensor = r.1.tensor ∧
        r'.1.requiresGrad = (gradEnabled && inputs.any requiresGrad))
      (call gradEnabled f inputs heap) (checkpointWith record gradEnabled f inputs heap) := by
  have hsame : Forall₂ (fun v v' : Variable T => v.tensor = v'.tensor) inputs inputs :=
    forall₂_same.2 (fun _ _ => rfl)
  have hrel := call_rel (@steps_tensors T gradEnabled false) f
    (show _ ∧ _ from ⟨hsame, (rfl : heap.next = heap.next)⟩)
  generalize hsilent : call false f inputs heap = right at hrel
  generalize call gradEnabled f inputs heap = left at hrel
  cases hrel with
  | err e =>
    unfold checkpointWith
    rw [hsilent]
    exact Rel.err e
  | panic =>
    unfold checkpointWith
    rw [hsilent]
    exact Rel.panic
  | @ok r r' hr =>
    obtain ⟨o, after⟩ := r'
    cases htracking : gradEnabled && inputs.any requiresGrad with
    | true =>
      rw [checkpointWith_of_tracking hsilent htracking]
      exact Rel.ok ⟨hr.1.symm, rfl⟩
    | false =>
      rw [checkpointWith_of_not_tracking hsilent htracking]
      exact Rel.ok ⟨hr.1.symm, rfl⟩

/-! ## The bridges -/

section Bridges

variable [AddCommSemigroup T]

variable {d : Nat ⊕ Nat}

/-- A place to which a node without edges sends nothing. -/
theorem relay_absent {z : Heap T} {ks : List Nat} (habsent : ∀ k ∈ ks, z.nodes k = Record.absent)
    (st : Nat ⊕ Nat → WithZero T) (hd : ∀ k ∈ ks, d ≠ .inl k) :
    relay (emitHeld (z.graph later)) st ks d = st d := by
  apply relay_stay
  intro k hk
  refine ⟨hd k hk, ?_⟩
  intro x
  apply out_eq_zero
  intro part hpart
  rw [emitHeld_graph, habsent k hk, emitRecord_absent] at hpart
  cases hpart

omit [AddCommSemigroup T] in
theorem Old.ne_inl {first i : Nat} (hd : Old first d) : d ≠ .inl (first + i) := by
  rintro rfl
  exact absurd hd (Nat.not_lt.2 (Nat.le_add_right _ _))

/-- With gradients to track, the checkpoint sends to old places what the call sends there. -/
theorem bridges_tracking (hadd : ∀ x y, add x y = .ok (x + y)) (hsound : heap.Sound true)
    (hvalid : ∀ v ∈ inputs, v.Valid heap.next) {record : Record T} {y out : Variable T}
    {h localHeap after : Heap T} {root p : Nat}
    (hrec : Recomputes f inputs heap y h root out localHeap p)
    (hanswers : AnswersLeaves f inputs add ones record)
    (hkept : ∀ k, k < heap.next → h.nodes k = heap.nodes k) (hnext : after.next = h.next)
    (hnodes : after.nodes = heap.nodes) :
    Bridges true heap h
      (after.push record) p (some (heap.next + root)) where
  sound := hsound
  next := hrec.next'
  next' := by
    change after.next + 1 = _
    rw [hnext, hrec.next']
  inside := by
    intro k hk
    cases hk
    exact ⟨Nat.le_add_right _ _, Nat.add_lt_add_left hrec.lt _⟩
  kept := hkept
  kept' := by
    intro k hk
    have hne : k ≠ after.next := by
      rw [hnext, hrec.next']
      omega
    change update after.nodes after.next record k = _
    rw [update_of_ne hne, hnodes]
  middle := by
    intro st st' hagree hzero d hd
    have hlast : after.next = heap.next + p := hnext.trans hrec.next'
    -- below its own address, the checkpoint left no nodes
    have hrest : ∀ st'', relay (emitHeld (Heap.graph
        (after.push record) true)) st'' ((PostOrder.descending p).map (fun i => heap.next + i)) d = st'' d := by
      intro st''
      apply relay_absent
      · intro k hk
        obtain ⟨i, hi, rfl⟩ := mem_map.1 hk
        have hlt := PostOrder.mem_descending.1 hi
        change update after.nodes after.next record (heap.next + i) = _
        rw [update_of_ne (by omega), hnodes]
        exact hsound.unused _ (Nat.le_add_right _ _)
      · intro k hk
        obtain ⟨i, _, rfl⟩ := mem_map.1 hk
        exact hd.ne_inl
    have hself : emitHeld (Heap.graph
        (after.push record) true) (heap.next + p) = emitRecord true record := by
      rw [emitHeld_graph]
      change emitRecord true (update after.nodes after.next record (heap.next + p)) = _
      rw [← hlast, update_self]
    have hheld : st (.inl (heap.next + root)) = st' (.inl (heap.next + p)) := by
      apply hagree
      rw [expressionPlace_inl]
      unfold expressionNode
      rw [if_neg (by omega), if_pos rfl]
      rfl
    have hst : st d = st' d := hagree d d (expressionPlace_old hd)
    change _ = relay _ (relayStep _ st' (heap.next + p))
      ((PostOrder.descending p).map (fun i => heap.next + i)) d
    rw [hrest, relayStep_of_ne hd.ne_inl, ← hheld, ← hst]
    unfold Relay.out
    rw [hself]
    generalize hx : st (.inl (heap.next + root)) = x
    cases x using WithZero.recZeroCoe with
    | zero =>
      -- nothing arrived at the result
      rw [(follows_emitHeld (h.graph true)).relay_of_zero]
      · exact (add_zero _).symm
      · intro k hk
        obtain ⟨i, hi, rfl⟩ := mem_map.1 hk
        by_cases heq : i = root
        · rw [heq, hx]
        · apply hzero i (PostOrder.mem_descending.1 hi)
          intro hroot
          apply heq
          have := some.inj hroot
          omega
    | coe g =>
      rw [relay_first hrec hvalid hx, out_checkpoint hrec hanswers hadd]
      · intro i hi hne
        apply hzero i hi
        intro hroot
        apply hne
        have := some.inj hroot
        omega
      · intro k hk
        rw [hk] at hd
        exact hd

/-- Without gradients to track, neither the call nor its checkpoint leaves nodes. -/
theorem bridges_quiet (hsound : heap.Sound later) {h after : Heap T} {p : Nat}
    (hp : h.next = heap.next + p) (hquiet : h.nodes = heap.nodes) (hnext : after.next = h.next)
    (hnodes : after.nodes = heap.nodes) :
    Bridges later heap h { after with next := after.next + 1 } p none where
  sound := hsound
  next := hp
  next' := by
    change after.next + 1 = _
    rw [hnext, hp]
  inside := by
    intro k hk
    cases hk
  kept k _ := by rw [hquiet]
  kept' k _ := by
    change after.nodes k = _
    rw [hnodes]
  middle := by
    intro st st' hagree _ d hd
    rw [relay_absent, relay_absent]
    · exact hagree d d (expressionPlace_old hd)
    · intro k hk
      obtain ⟨i, _, rfl⟩ := mem_map.1 hk
      change after.nodes (heap.next + i) = _
      rw [hnodes]
      exact hsound.unused _ (Nat.le_add_right _ _)
    · intro k hk
      obtain ⟨i, _, rfl⟩ := mem_map.1 hk
      exact hd.ne_inl
    · intro k hk
      obtain ⟨i, _, rfl⟩ := mem_map.1 hk
      rw [hquiet]
      exact hsound.unused _ (Nat.le_add_right _ _)
    · intro k hk
      obtain ⟨i, _, rfl⟩ := mem_map.1 hk
      exact hd.ne_inl

end Bridges

/-! ## When the recomputation fails -/

section Failures

/-- Run again on leaves, a function that returns an input has no node to go backward from, and
neither has any function while gradients are not enabled. -/
theorem recompute_eq_none
    (hfails : (f (inputs.map tensor)).result < inputs.length ∨ later = false) (g : T) :
    recompute add ones later f (inputs.map tensor) g = none := by
  have htensors : (leaves (inputs.map tensor)).map tensor = inputs.map tensor :=
    tensors_eq (fun _ _ h => h.1.tensor) (leaves_mirror inputs 0 [])
  have hlength : (leaves (inputs.map tensor)).length = inputs.length := by
    rw [length_leaves, length_map]
  cases hcall : call later f (leaves (inputs.map tensor))
      (leafHeap (inputs.map tensor)) with
  | err e =>
    unfold recompute
    simp only [hcall]
  | panic =>
    unfold recompute
    simp only [hcall]
  | ok r =>
    obtain ⟨out, localHeap⟩ := r
    have hnode : out.gradFn = none := by
      obtain ⟨vars, hreturns⟩ := call_eq_ok.1 hcall
      have hnumbered := numbered_run hreturns.run
      have hresult := hreturns.result
      rw [htensors] at hresult
      rcases Nat.lt_or_ge (f (inputs.map tensor)).result inputs.length with hlt | hge
      · -- it returned a leaf
        rw [hnumbered.input _ (by rw [hlength]; exact hlt), getElem?_leaves] at hresult
        obtain ⟨tensor, _, rfl⟩ := map_eq_some_iff.1 hresult
        rfl
      · have hoff : later = false := hfails.resolve_left (Nat.not_lt.2 hge)
        obtain ⟨i, hi⟩ := Nat.exists_eq_add_of_le hge
        rw [hi, ← hlength] at hresult
        have hquiet := quiet_run (by rw [hoff]; rfl) hreturns.run
        have hrequires := hquiet.results _ out (Nat.le_add_right _ _) hresult
        rw [hnumbered.node i out hresult, hrequires]
        exact if_neg Bool.false_ne_true
    have hback : backwardFrom add ones later localHeap out (some g) (fun _ => none) =
        ({ grads := fun _ => none, slots := fun _ => none, applied := [] }, .err .noGradFn) := by
      unfold backwardFrom backward
      simp only [hnode]
    unfold recompute
    simp only [hcall, hback]

theorem backwardFrom_panic {h : Heap T} {y : Variable T} {root : Nat} (hroot : y.gradFn = some root)
    {g : T} (happly : (h.nodes root).apply later g = none) (slots : Nat → Option T) :
    (backwardFrom add ones later h y (some g) slots).2 = .panic := by
  have hvisit : ∃ topo, (visit (h.graph later) (h.next + 1) root ([], ∅)).1 = topo ++ [root] := by
    exact ⟨_, rfl⟩
  obtain ⟨topo, htopo⟩ := hvisit
  have hprocess : ∀ tape : Tape Nat Nat T, tape.grads root = some g →
      (process (h.graph later) add tape root).2 = .panic := by
    intro tape hgrad
    have happly' : ((h.graph later) root).apply g = none := happly
    unfold process
    simp only [hgrad, happly']
  have hall : ∀ (tape : Tape Nat Nat T) (rest : List Nat), tape.grads root = some g →
      (processAll (h.graph later) add (root :: rest) tape).2 = .panic := by
    intro tape rest hgrad
    have hone := hprocess tape hgrad
    unfold processAll
    generalize process (h.graph later) add tape root = after at hone
    obtain ⟨tape', out⟩ := after
    subst hone
    rfl
  unfold backwardFrom backward
  simp only [hroot, htopo, reverse_append, reverse_singleton, singleton_append]
  exact hall _ _ (@Function.update_self Nat (fun _ => Option T) _ root (some g) (fun _ => none))

end Failures

/-! ## The condition -/

section Iff

variable [AddCommSemigroup T]

variable {h : Heap T} {record : Record T} {after : Heap T} {others : List (Variable T)}

omit [AddCommSemigroup T] in
/-- Where the condition holds, the result requires gradients as the result of the checkpoint does,
and without gradients to track it has no node. -/
theorem requires_of_replayable {y : Variable T}
    (hcall : call gradEnabled f inputs heap = .ok (y, h))
    (hreplayable : Replayable gradEnabled later f inputs) :
    y.requiresGrad = (gradEnabled && inputs.any requiresGrad) ∧
      ((gradEnabled && inputs.any requiresGrad) = false → y.gradFn = none) := by
  obtain ⟨vars, hreturns⟩ := call_eq_ok.1 hcall
  have hresult := hreturns.result
  unfold Replayable at hreplayable
  cases htracking : gradEnabled && inputs.any requiresGrad with
  | true =>
    rw [htracking, if_pos rfl] at hreplayable
    refine ⟨?_, fun hoff => Bool.noConfusion hoff⟩
    have hon : gradEnabled = true := (Bool.and_eq_true_iff.1 htracking).1
    subst hon
    have hrequired := hreplayable.1.required
    rw [← flags_run _ hreturns.run, getElem?_map, hresult] at hrequired
    exact some.inj hrequired
  | false =>
    rw [htracking, if_neg Bool.false_ne_true] at hreplayable
    have hnumbered := numbered_run hreturns.run
    rcases Nat.lt_or_ge (f (inputs.map tensor)).result inputs.length with hlt | hge
    · rw [hnumbered.input _ hlt] at hresult
      obtain ⟨hrequires, hnode⟩ := hreplayable y hresult
      exact ⟨hrequires, fun _ => hnode⟩
    · have hquiet := quiet_run htracking hreturns.run
      have hrequires := hquiet.results _ y hge hresult
      obtain ⟨i, hi⟩ := Nat.exists_eq_add_of_le hge
      rw [hi] at hresult
      refine ⟨hrequires, fun _ => ?_⟩
      rw [hnumbered.node i y hresult, hrequires]
      exact if_neg Bool.false_ne_true

theorem sameBackward_tracking (hadd : ∀ x y, add x y = .ok (x + y)) (hsound : heap.Sound true)
    (hvalid : ∀ v ∈ inputs, v.Valid heap.next) (hrecord : CheckpointNode add ones f inputs record)
    (htracks : Tracks f inputs) {y o : Variable T} (hcall : call true f inputs heap = .ok (y, h))
    (htensor : o.tensor = y.tensor) (hnext : after.next = h.next)
    (hnodes : after.nodes = heap.nodes) (expr : PureFn T)
    (hothers : ∀ v ∈ others, v.Valid heap.next) (gradEnabled : Bool) (initialGrad : Option T)
    (slots : Nat → Option T) : Outcome.Rel (SameBackward add ones true heap.next initialGrad slots)
      (call gradEnabled expr (y :: others) h)
      (call gradEnabled expr
        ({ tensor := o.tensor, gradFn := some after.next, grad := after.next,
           requiresGrad := true } :: others)
        (after.push record)) := by
  obtain ⟨root, out, localHeap, p, hrec⟩ := exists_recomputes htracks hcall
  obtain ⟨vars, hreturns⟩ := call_eq_ok.1 hcall
  have hextends := extends_run hsound hvalid hreturns.run
  have hanswers := hrecord.answers hrec
  -- the checkpoint adds one node, with the edges of the inputs
  have hafter : Heap.Sound true { after with nodes := heap.nodes } := by
    apply hsound.grow
    rw [hnext, hrec.next']
    exact Nat.le_add_right _ _
  have hsound' : Heap.Sound true (after.push record) := by
    rw [Heap.push, hnodes]
    have hedge : ∀ d, some d ∈ record.nextEdges.map Edge.dest →
        ∃ v ∈ inputs, v.edge.dest = some d := by
      intro d hd
      rw [hanswers.1, List.map_map] at hd
      obtain ⟨v, hv, heq⟩ := mem_map.1 hd
      exact ⟨v, hv, heq⟩
    have hle : heap.next ≤ after.next := by
      rw [hnext]
      exact hextends.le
    apply hafter.attach (Nat.lt_succ_self _)
    · intro n hn
      obtain ⟨v, hv, heq⟩ := hedge _ hn
      exact lt_of_lt_of_le ((hvalid v hv).edge_node heq) hle
    · intro s hs
      obtain ⟨v, hv, heq⟩ := hedge _ hs
      exact lt_of_lt_of_le ((hvalid v hv).edge_slot heq) hle
    · intro g
      obtain ⟨slots', _, happly⟩ := hanswers.2 g
      refine ⟨_, happly, ?_⟩
      rw [hanswers.1, length_map, length_map, length_range]
  have hlast : after.next = heap.next + p := hnext.trans hrec.next'
  -- this node stands for the last node of the recorded run
  have hpick : expressionNode heap.next p (some (heap.next + root)) (heap.next + root) =
      some after.next := by
    unfold expressionNode
    rw [if_neg (by omega), if_pos rfl, hlast]
  have hpair : Counterparts heap.next p (some (heap.next + root)) y
      { tensor := o.tensor, gradFn := some after.next, grad := after.next,
        requiresGrad := true } := by
    refine ⟨⟨htensor.symm, ?_⟩, hrec.required, ?_, ?_⟩
    · unfold MirrorsEdge
      rw [y.edge_dest, edge_dest, hrec.required, if_pos rfl, if_pos rfl, hrec.node',
        bind_some, expressionPlace_inl, hpick]
      rfl
    · rw [hrec.node', bind_some, hpick]
    · intro k hk
      rw [hrec.node'] at hk
      cases hk
      rw [hpick]
      exact some_ne_none _
  apply sameBackward_of_bridges hadd
    (bridges_tracking hadd hsound hvalid hrec hanswers hextends.kept hnext hnodes)
    hextends.sound hsound' (hextends.valid y (mem_of_getElem? hreturns.result)) _ hpair expr
    hothers
  constructor
  · intro k hk
    cases hk
    exact Nat.lt_succ_self _
  · exact Nat.lt_succ_self _

theorem sameBackward_quiet (hadd : ∀ x y, add x y = .ok (x + y)) (hsound : heap.Sound later)
    (hvalid : ∀ v ∈ inputs, v.Valid heap.next)
    (htracking : (gradEnabled && inputs.any requiresGrad) = false) {y o : Variable T}
    (hcall : call gradEnabled f inputs heap = .ok (y, h)) (hrequires : y.requiresGrad = false)
    (hnode : y.gradFn = none) (htensor : o.tensor = y.tensor) (hnext : after.next = h.next)
    (hnodes : after.nodes = heap.nodes) (expr : PureFn T)
    (hothers : ∀ v ∈ others, v.Valid heap.next) (exprEnabled : Bool) (initialGrad : Option T)
    (slots : Nat → Option T) : Outcome.Rel (SameBackward add ones later heap.next initialGrad slots)
      (call exprEnabled expr (y :: others) h)
      (call exprEnabled expr
        ({ tensor := o.tensor, gradFn := none, grad := after.next,
           requiresGrad := false } :: others)
        { after with next := after.next + 1 }) := by
  obtain ⟨vars, hreturns⟩ := call_eq_ok.1 hcall
  have hextends := extends_run hsound hvalid hreturns.run
  have hquiet := quiet_run htracking hreturns.run
  obtain ⟨p, _, hp⟩ := (numbered_run hreturns.run).length
  have hsound' : Heap.Sound later { after with next := after.next + 1 } := by
    rw [hnodes]
    apply hsound.grow
    rw [hnext, hp]
    omega
  have hpair : Counterparts heap.next p none y
      { tensor := o.tensor, gradFn := none, grad := after.next, requiresGrad := false } := by
    refine ⟨⟨htensor.symm, ?_⟩, hrequires, ?_, ?_⟩
    · unfold MirrorsEdge
      rw [y.edge_dest, edge_dest, hrequires, if_neg Bool.false_ne_true]
      rfl
    · rw [hnode]
      rfl
    · intro k hk
      rw [hnode] at hk
      cases hk
  apply sameBackward_of_bridges hadd (bridges_quiet hsound hp hquiet.nodes hnext hnodes)
    hextends.sound hsound' (hextends.valid y (mem_of_getElem? hreturns.result)) _ hpair expr
    hothers
  constructor
  · intro k hk
    cases hk
  · exact Nat.lt_succ_self _

section

variable (hadd : ∀ x y, add x y = .ok (x + y))

include hadd

theorem transparent_of_replayable (hsound : heap.Sound later)
    (hvalid : ∀ v ∈ inputs, v.Valid heap.next) (hrecord : CheckpointNode add ones f inputs record)
    (hok : ∀ r, call gradEnabled f inputs heap = .ok r → Replayable gradEnabled later f inputs) :
    Transparent add ones later heap (call gradEnabled f inputs heap)
      (checkpointWith record gradEnabled f inputs heap) := by
  constructor
  · -- the value is that of the call, whatever the node does
    have hvalue := @checkpointWith_value T gradEnabled heap f inputs record
    generalize checkpointWith record gradEnabled f inputs heap = right at hvalue
    cases hcall : call gradEnabled f inputs heap with
    | err e =>
      rw [hcall] at hvalue
      cases hvalue with
      | err => exact Rel.err e
    | panic =>
      rw [hcall] at hvalue
      cases hvalue with
      | panic => exact Rel.panic
    | ok r =>
      have hrequires := requires_of_replayable hcall (hok r hcall)
      rw [hcall] at hvalue
      cases hvalue with
      | ok hr => exact Rel.ok ⟨hr.1, hr.2.trans hrequires.1.symm⟩
  · rintro ⟨y, h⟩ r' hcall hcheckpoint expr others hothers exprEnabled initialGrad slots
    obtain ⟨o, after, hsilent, htensor, hnext, hnodes⟩ := exists_silent hcall
    -- the gradients are compared by whether anything is tracked
    have hreplayable := hok _ hcall
    obtain ⟨hrequires, hnode⟩ := requires_of_replayable hcall hreplayable
    unfold Replayable at hreplayable
    cases htracking : gradEnabled && inputs.any requiresGrad with
    | true =>
      rw [htracking, if_pos rfl] at hreplayable
      obtain ⟨htracks, rfl⟩ := hreplayable
      obtain rfl : gradEnabled = true := (Bool.and_eq_true_iff.1 htracking).1
      rw [checkpointWith_of_tracking hsilent htracking] at hcheckpoint
      cases hcheckpoint
      exact sameBackward_tracking hadd hsound hvalid hrecord htracks hcall htensor hnext hnodes
        expr hothers exprEnabled initialGrad slots
    | false =>
      rw [checkpointWith_of_not_tracking hsilent htracking] at hcheckpoint
      cases hcheckpoint
      exact sameBackward_quiet hadd hsound hvalid htracking hcall (hrequires.trans htracking)
        (hnode htracking) htensor hnext hnodes expr hothers exprEnabled initialGrad slots

/-- The expression that is the result itself. -/
def itself : PureFn T := fun _ => { code := [], result := 0 }

theorem replayable_of_transparent (hsound : heap.Sound later)
    (hvalid : ∀ v ∈ inputs, v.Valid heap.next) (hrecord : CheckpointNode add ones f inputs record)
    (htransparent : Transparent add ones later heap (call gradEnabled f inputs heap)
      (checkpointWith record gradEnabled f inputs heap)) {r : Variable T × Heap T}
    (hcall : call gradEnabled f inputs heap = .ok r) : Replayable gradEnabled later f inputs := by
  obtain ⟨y, h⟩ := r
  obtain ⟨o, after, hsilent, htensor, hnext, hnodes⟩ := exists_silent hcall
  obtain ⟨vars, hreturns⟩ := call_eq_ok.1 hcall
  have hresult := hreturns.result
  have hnumbered := numbered_run hreturns.run
  have hextends := extends_run hsound hvalid hreturns.run
  have hvalue := htransparent.value
  unfold Replayable
  cases htracking : gradEnabled && inputs.any requiresGrad with
  | true =>
    rw [if_pos rfl]
    have hcheckpoint := @checkpointWith_of_tracking T _ _ _ _ record _ _ hsilent htracking
    rw [hcall, hcheckpoint] at hvalue
    have hrequires : y.requiresGrad = true := by
      cases hvalue with
      | ok hr => exact hr.2.symm
    -- `backward` from the result itself would panic
    have hsame := htransparent.backward _ _ hcall hcheckpoint itself []
      (fun v hv => absurd hv not_mem_nil) true (some y.tensor) (fun _ => none)
    have hnot : ¬ ((f (inputs.map tensor)).result < inputs.length ∨ later = false) := by
      intro hfails
      have happly := hrecord.fails later y.tensor (recompute_eq_none hfails y.tensor)
      cases hsame with
      | ok hr =>
        apply hr.noPanic rfl
        apply backwardFrom_panic rfl
        change (update after.nodes after.next record after.next).apply later _ = none
        rw [update_self]
        exact happly
    obtain ⟨hown, hlater⟩ := not_or.1 hnot
    refine ⟨⟨Nat.not_lt.1 hown, ?_⟩, ?_⟩
    · have hon : gradEnabled = true := (Bool.and_eq_true_iff.1 htracking).1
      subst hon
      rw [← flags_run _ hreturns.run, getElem?_map, hresult, map_some, hrequires]
    · cases later with
      | true => rfl
      | false => exact absurd rfl hlater
  | false =>
    rw [if_neg Bool.false_ne_true]
    intro v hv
    have hcheckpoint := @checkpointWith_of_not_tracking T _ _ _ _ record _ _ hsilent htracking
    rw [hcall, hcheckpoint] at hvalue
    have hrequires : y.requiresGrad = false := by
      cases hvalue with
      | ok hr => exact hr.2.symm
    have hlt := (List.getElem?_eq_some_iff.1 hv).1
    have hy : v = y := by
      rw [hnumbered.input _ hlt, hv] at hresult
      exact some.inj hresult
    refine ⟨hy ▸ hrequires, ?_⟩
    cases hnode : v.gradFn with
    | none => rfl
    | some k =>
      -- `backward` succeeds from the input, but the checkpoint has no node
      exfalso
      have hsame := htransparent.backward _ _ hcall hcheckpoint itself []
        (fun v hv => absurd hv not_mem_nil) true (some y.tensor) (fun _ => none)
      have hyvalid := hextends.valid y (mem_of_getElem? hreturns.result)
      rw [hy] at hnode
      obtain ⟨tape, hrun, _⟩ := @backwardFrom_sweep T later h _ add ones hadd hextends.sound y k
        hnode (hyvalid.node k hnode) (some y.tensor) y.tensor rfl (fun _ => none)
      cases hsame with
      | ok hr =>
        have houtcome := hr.outcome
        rw [hrun] at houtcome
        cases houtcome

theorem checkpointNode_checkpointN :
    CheckpointNode add ones f inputs
      { name := "CheckpointNBackward"
        apply := CheckpointNBackward.apply add ones f (inputs.map tensor)
        nextEdges := inputs.map edge } where
  answers hrec := checkpointN_answers hrec hadd
  fails later g hnone := by
    change CheckpointNBackward.apply add ones f (inputs.map tensor) later g = none
    unfold CheckpointNBackward.apply
    rw [hnone]

end

theorem checkpointNode_checkpoint (hadd : ∀ x y, add x y = .ok (x + y)) {x : Variable T} :
    CheckpointNode add ones f [x]
      { name := "CheckpointBackward"
        apply := CheckpointBackward.apply add ones f x.tensor
        nextEdges := [x.edge] } where
  answers hrec := checkpoint_answers hrec hadd
  fails later g hnone := by
    have hnone' : recompute add ones later f [x.tensor] g = none := hnone
    change CheckpointBackward.apply add ones f x.tensor later g = none
    unfold CheckpointBackward.apply
    rw [hnone']

/-- Both checkpoints are transparent exactly where the function fails or can be replayed. -/
theorem checkpoint_transparent_iff (add : T → T → Except String T) (ones : T → Option T)
    (hadd : ∀ x y, add x y = .ok (x + y)) (gradEnabled later : Bool) (heap : Heap T)
    (hsound : heap.Sound later) (f : PureFn T) :
    (∀ inputs : List (Variable T), (∀ v ∈ inputs, v.Valid heap.next) →
      (Transparent add ones later heap (call gradEnabled f inputs heap)
          (checkpointN add ones gradEnabled f inputs heap) ↔
        ∀ r, call gradEnabled f inputs heap = .ok r → Replayable gradEnabled later f inputs)) ∧
    ∀ x : Variable T, x.Valid heap.next →
      (Transparent add ones later heap (call gradEnabled f [x] heap)
          (checkpoint add ones gradEnabled f x heap) ↔
        ∀ r, call gradEnabled f [x] heap = .ok r → Replayable gradEnabled later f [x]) := by
  constructor
  · intro inputs hvalid
    constructor
    · exact fun h r hcall => replayable_of_transparent hadd hsound hvalid
        (checkpointNode_checkpointN hadd) h hcall
    · exact fun h => transparent_of_replayable hadd hsound hvalid
        (checkpointNode_checkpointN hadd) h
  · intro x hvalid
    have hvalid' : ∀ v ∈ [x], v.Valid heap.next := by
      intro v hv
      rw [mem_singleton.1 hv]
      exact hvalid
    rw [checkpoint_eq]
    constructor
    · exact fun h r hcall => replayable_of_transparent hadd hsound hvalid'
        (checkpointNode_checkpoint hadd) h hcall
    · exact fun h => transparent_of_replayable hadd hsound hvalid'
        (checkpointNode_checkpoint hadd) h

end Iff

/-! ## Two functions of one leaf -/

/-- A leaf, alone on its heap. -/
def soleLeaf : Variable Int where
  tensor := 3
  gradFn := none
  grad := 0
  requiresGrad := true

def soleHeap : Heap Int where
  nodes := fun _ => Record.absent
  next := 1

theorem sound_soleHeap (later : Bool) : soleHeap.Sound later where
  below _ _ hn := absurd hn not_mem_nil
  slot _ _ hs := absurd hs not_mem_nil
  unused _ _ := rfl
  total _ _ := ⟨[], rfl, rfl⟩

theorem valid_soleLeaf : soleLeaf.Valid soleHeap.next where
  node k hk := by cases hk
  slot := Nat.zero_lt_one

def square : Op Int where
  name := "square"
  backwardName := "SquareBackward"
  forward := fun xs =>
    match xs with
    | [x] => .ok (x * x)
    | _ => .error "one argument expected"
  vjp := fun xs grad => xs.map (fun x => 2 * x * grad)
  vjp_length := fun _ _ => List.length_map _

/-- `backward` through the checkpoint of a function that uses its leaf. -/
theorem checkpoint_square_transparent :
    Transparent (fun x y : Int => .ok (x + y)) (fun _ => some 1) true soleHeap
      (call true (fun _ => { code := [{ op := square, args := [0] }], result := 1 }) [soleLeaf]
        soleHeap)
      (checkpoint (fun x y : Int => .ok (x + y)) (fun _ => some 1) true
        (fun _ => { code := [{ op := square, args := [0] }], result := 1 }) soleLeaf soleHeap) :=
  ((checkpoint_transparent_iff (fun x y : Int => .ok (x + y)) (fun _ => some 1) (fun _ _ => rfl) true
    true soleHeap (sound_soleHeap true)
    (fun _ => { code := [{ op := square, args := [0] }], result := 1 })).2 soleLeaf
      valid_soleLeaf).2 (fun _ _ => ⟨⟨le_refl 1, rfl⟩, rfl⟩)

/-- A function that returns its leaf cannot be replayed: `backward` panics in the checkpoint. -/
theorem checkpointN_identity_not_transparent :
    ¬ ∀ (gradEnabled later : Bool) (f : PureFn Int) (inputs : List (Variable Int))
        (heap : Heap Int), heap.Sound later → (∀ v ∈ inputs, v.Valid heap.next) →
      Transparent (fun x y : Int => .ok (x + y)) (fun _ => some 1) later heap
        (call gradEnabled f inputs heap)
        (checkpointN (fun x y : Int => .ok (x + y)) (fun _ => some 1) gradEnabled f inputs heap) := by
  intro h
  have htransparent := h true true itself [soleLeaf] soleHeap (sound_soleHeap true)
    (by
      intro v hv
      rw [mem_singleton.1 hv]
      exact valid_soleLeaf)
  have hsame := htransparent.backward _ _ rfl rfl itself []
    (fun v hv => absurd hv not_mem_nil) true none (fun _ => none)
  cases hsame with
  | ok hr => exact hr.noPanic rfl rfl

end Autograd
end Rustorch
