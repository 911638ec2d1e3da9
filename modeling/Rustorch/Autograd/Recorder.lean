import Rustorch.Autograd.LeafGrads
import Rustorch.Autograd.Tracing

/-!
# Programs that record a graph

A module's forward pass, with gradients enabled, makes variables and nodes.  What an op computes,
and what its node computes on the way back, is left to the backend.  `Draws` says which variables a
program's result gets its gradient path from, one rule for each way to build a program; a backward
pass without error fills exactly the slots on these paths (`backwardFrom_fills_iff`).
-/

namespace Rustorch
namespace Autograd

open Function List Outcome Variable

/-- The value of an op and the gradients of its node, from the op's name, its numbers and its
tensors; the sum of two gradients; the gradient of a scalar. -/
structure Backend (T : Type) where
  value : String → List Nat → List T → Outcome BackwardError T
  grads : String → List Nat → List T → T → Option (List T)
  add : T → T → Except String T
  ones : T → Option T

abbrev Recorder (T : Type) : Type → Type := StateT (Heap T) (Outcome BackwardError)

namespace Recorder

variable {T : Type}

/-- `Variable::new` -/
def constant (tensor : T) : Recorder T (Variable T) := fun heap =>
  .ok (heap.newVariable tensor)

/-- `Variable::leaf` -/
def leaf (tensor : T) : Recorder T (Variable T) := fun heap =>
  let (out, heap) := heap.newVariable tensor
  .ok ({ out with requiresGrad := true }, heap)

def fail {α : Type} (e : BackwardError) : Recorder T α := fun _ =>
  .err e

/-- An op of `ops.rs`.  The node gives every edge a gradient, if it does not panic. -/
def op (backend : Backend T) (name : String) (saved : List Nat) (args : List (Variable T)) :
    Recorder T (Variable T) := fun heap => do
  let out ← backend.value name saved (args.map tensor)
  let (out, heap) := heap.newVariable out
  if args.any requiresGrad then
    pure (heap.attach out
      { name := name ++ "Backward"
        apply := fun _ grad =>
          (backend.grads name saved (args.map tensor) grad).map (map some)
        nextEdges := args.map edge })
  else
    pure (out, heap)

end Recorder

/-! ## Paths -/

section Paths

variable {T : Type} {heap heap' : Heap T} {s : Nat}

/-- Edges lead to earlier nodes, and a node gives every edge a gradient. -/
structure Heap.Recorded (heap : Heap T) : Prop where
  below : ∀ k n, some (Sum.inl n) ∈ (heap.nodes k).nextEdges.map Edge.dest → n < k
  full : ∀ k gradEnabled g entries, (heap.nodes k).apply gradEnabled g = some entries →
    ∀ entry ∈ entries, entry.isSome

/-- A gradient at node `k` comes to the slot `s`. -/
inductive Heap.Feeds (heap : Heap T) (s : Nat) : Nat → Prop
  | slot {k : Nat} : some (Sum.inr s) ∈ (heap.nodes k).nextEdges.map Edge.dest → heap.Feeds s k
  | node {k n : Nat} : some (Sum.inl n) ∈ (heap.nodes k).nextEdges.map Edge.dest →
      heap.Feeds s n → heap.Feeds s k

/-- A gradient for a variable comes to the slot `s`. -/
def Variable.Feeds (heap : Heap T) (s : Nat) (v : Variable T) : Prop :=
  v.edge.dest = some (.inr s) ∨ ∃ k, v.edge.dest = some (.inl k) ∧ heap.Feeds s k

theorem Heap.Feeds.congr (hbelow : ∀ k n, some (Sum.inl n) ∈ (heap.nodes k).nextEdges.map Edge.dest →
      n < k) {next : Nat} (hkept : ∀ k < next, heap'.nodes k = heap.nodes k) {k : Nat} :
    heap.Feeds s k → k < next → heap'.Feeds s k := by
  intro h
  induction h with
  | slot hmem =>
    intro hk
    exact .slot (by rwa [hkept _ hk])
  | node hmem _ ih =>
    intro hk
    exact .node (by rwa [hkept _ hk]) (ih (lt_trans (hbelow _ _ hmem) hk))

/-- What a program that ends makes of a heap: `out` gets its paths to `s` from `sources`. -/
structure Drawn (s : Nat) (sources : Set (Variable T)) (heap : Heap T) (out : Variable T)
    (heap' : Heap T) : Prop where
  le : heap.next ≤ heap'.next
  kept : ∀ k < heap.next, heap'.nodes k = heap.nodes k
  recorded : heap'.Recorded
  valid : out.Valid heap'.next
  tied : out.gradFn.isSome → out.requiresGrad = true
  feeds : out.Feeds heap' s ↔ ∃ v ∈ sources, v.Feeds heap s

theorem Drawn.feeds_iff {sources : Set (Variable T)} {out v : Variable T} (hheap : heap.Recorded)
    (h : Drawn s sources heap out heap') (hv : v.Valid heap.next) :
    v.Feeds heap' s ↔ v.Feeds heap s := by
  refine or_congr_right (exists_congr fun k => and_congr_right fun hk => ?_)
  have hlt := hv.edge_node hk
  exact ⟨fun hf => hf.congr h.recorded.below (fun j hj => (h.kept j hj).symm) hlt,
    fun hf => hf.congr hheap.below h.kept hlt⟩

theorem Drawn.trans {X Y Z : Set (Variable T)} {heap'' : Heap T} {v out : Variable T}
    (h : Drawn s X heap v heap') (h' : Drawn s Y heap' out heap'')
    (hiff : (∃ w ∈ Y, w.Feeds heap' s) ↔ ∃ w ∈ Z, w.Feeds heap s) : Drawn s Z heap out heap'' where
  le := h.le.trans h'.le
  kept k hk := (h'.kept k (lt_of_lt_of_le hk h.le)).trans (h.kept k hk)
  recorded := h'.recorded
  valid := h'.valid
  tied := h'.tied
  feeds := h'.feeds.trans hiff

end Paths

/-! ## Programs -/

section Draws

variable {T α : Type} {s : Nat} {K X Y : Set (Variable T)}

/-- From every heap that has handed out `s` and the known variables, the result of a program gets
its paths from the sources. -/
def Draws (s : Nat) (known : Set (Variable T)) (prog : Recorder T (Variable T))
    (sources : Set (Variable T)) : Prop :=
  ∀ heap out heap', heap.Recorded → s < heap.next → (∀ v ∈ known, v.Valid heap.next) →
    prog heap = .ok (out, heap') → Drawn s sources heap out heap'

theorem Draws.congr {prog : Recorder T (Variable T)} (h : Draws s K prog X) :
    X = Y → Draws s K prog Y := by
  rintro rfl
  exact h

theorem Draws.run_bind {prog : Recorder T (Variable T)} {rest : Variable T → Recorder T (Variable T)}
    {Z : Variable T → Set (Variable T)} (h : Draws s K prog X)
    (hrest : ∀ v, Draws s (insert v K) (rest v) (Z v)) {heap heap'' : Heap T} {out : Variable T}
    (hheap : heap.Recorded) (hs : s < heap.next) (hK : ∀ v ∈ K, v.Valid heap.next)
    (hrun : (prog >>= rest) heap = .ok (out, heap'')) :
    ∃ v heap', Drawn s X heap v heap' ∧ Drawn s (Z v) heap' out heap'' := by
  obtain ⟨⟨v, heap'⟩, hprog, hrun⟩ := bind_eq_ok.1 hrun
  have hfirst := h heap v heap' hheap hs hK hprog
  refine ⟨v, heap', hfirst, hrest v heap' out heap'' hfirst.recorded
    (lt_of_lt_of_le hs hfirst.le) ?_ hrun⟩
  rintro w (rfl | hw)
  · exact hfirst.valid
  · exact (hK w hw).mono hfirst.le

theorem Draws.bind {prog : Recorder T (Variable T)} {rest : Variable T → Recorder T (Variable T)}
    (h : Draws s K prog X) (hY : Y ⊆ K)
    (hrest : ∀ v, Draws s (insert v K) (rest v) (insert v Y)) :
    Draws s K (prog >>= rest) (X ∪ Y) := by
  intro heap out heap'' hheap hs hK hrun
  obtain ⟨v, heap', hfirst, hsecond⟩ := h.run_bind hrest hheap hs hK hrun
  refine hfirst.trans hsecond ?_
  constructor
  · rintro ⟨w, rfl | hw, hf⟩
    · obtain ⟨x, hx, hxf⟩ := hfirst.feeds.1 hf
      exact ⟨x, .inl hx, hxf⟩
    · exact ⟨w, .inr hw, (hfirst.feeds_iff hheap (hK w (hY hw))).1 hf⟩
  · rintro ⟨w, hw | hw, hf⟩
    · exact ⟨v, .inl rfl, hfirst.feeds.2 ⟨w, hw, hf⟩⟩
    · exact ⟨w, .inr hw, (hfirst.feeds_iff hheap (hK w (hY hw))).2 hf⟩

theorem Draws.skip {prog : Recorder T (Variable T)} {rest : Variable T → Recorder T (Variable T)}
    (h : Draws s K prog X) (hrest : ∀ v, Draws s (insert v K) (rest v) ∅) :
    Draws s K (prog >>= rest) ∅ := by
  intro heap out heap'' hheap hs hK hrun
  obtain ⟨v, heap', hfirst, hsecond⟩ := h.run_bind hrest hheap hs hK hrun
  exact hfirst.trans hsecond (by simp)

theorem Draws.lift {value : Outcome BackwardError α} {rest : α → Recorder T (Variable T)}
    (hrest : ∀ a, Draws s K (rest a) X) : Draws s K (StateT.lift value >>= rest) X := by
  intro heap out heap' hheap hs hvalid hrun
  obtain ⟨⟨a, heap''⟩, hlift, hrun⟩ := bind_eq_ok.1 hrun
  obtain ⟨b, _, hb⟩ := bind_eq_ok.1 hlift
  cases hb
  exact hrest a heap out heap' hheap hs hvalid hrun

theorem draws_fail {e : BackwardError} : Draws s K (Recorder.fail e) X := by
  intro heap out heap' _ _ _ hrun
  cases hrun

theorem not_feeds {heap : Heap T} {v : Variable T} (hv : v.requiresGrad = false) :
    ¬ v.Feeds heap s := by
  have hdest : v.edge.dest = none := by rw [v.edge_dest, hv]; rfl
  rintro (hf | ⟨k, hk, _⟩)
  · rw [hdest] at hf
    cases hf
  · rw [hdest] at hk
    cases hk

theorem drawn_fresh {heap : Heap T} (hheap : heap.Recorded) {tensor : T} {requiresGrad : Bool}
    (hs : requiresGrad = true → s < heap.next) :
    Drawn s ∅ heap
      { tensor := tensor, gradFn := none, grad := heap.next, requiresGrad := requiresGrad }
      { heap with next := heap.next + 1 } := by
  refine ⟨Nat.le_succ _, fun _ _ => rfl, ⟨hheap.below, hheap.full⟩, ⟨?_, Nat.lt_succ_self _⟩, ?_,
    iff_of_false ?_ (by simp)⟩
  · rintro k ⟨⟩
  · rintro ⟨⟩
  · cases requiresGrad with
    | false => exact not_feeds rfl
    | true =>
      rintro (hf | ⟨k, hk, _⟩)
      · exact absurd (Sum.inr_injective (Option.some.inj hf)) (ne_of_gt (hs rfl))
      · cases hk

theorem draws_constant (tensor : T) : Draws s K (Recorder.constant tensor) ∅ := by
  rintro heap out heap' hheap hs _ ⟨⟩
  exact drawn_fresh hheap fun _ => hs

theorem draws_leaf (tensor : T) : Draws s K (Recorder.leaf tensor) ∅ := by
  rintro heap out heap' hheap hs _ ⟨⟩
  exact drawn_fresh hheap fun _ => hs

/-- A new node leads to the arguments. -/
theorem drawn_attach {args : List (Variable T)} {heap : Heap T} {tensor : T} {record : Record T}
    (hedges : record.nextEdges = args.map edge)
    (hfull : ∀ gradEnabled g entries, record.apply gradEnabled g = some entries →
      ∀ entry ∈ entries, entry.isSome)
    (hheap : heap.Recorded) (hvalid : ∀ v ∈ args, v.Valid heap.next) :
    Drawn s {v | v ∈ args} heap
      { tensor := tensor, gradFn := some heap.next, grad := heap.next, requiresGrad := true }
      { nodes := update heap.nodes heap.next record, next := heap.next + 1 } := by
  have hkept : ∀ k < heap.next, update heap.nodes heap.next record k = heap.nodes k :=
    fun k hk => update_of_ne (ne_of_lt hk) _ _
  have hmem : ∀ d, some d ∈ (update heap.nodes heap.next record heap.next).nextEdges.map Edge.dest ↔
      ∃ v ∈ args, v.edge.dest = some d := by
    intro d
    rw [update_self, hedges, map_map]
    exact mem_map
  have hbelow : ∀ k n, some (Sum.inl n) ∈ (update heap.nodes heap.next record k).nextEdges.map
      Edge.dest → n < k := by
    intro k n hn
    by_cases hk : k = heap.next
    · subst hk
      obtain ⟨v, hv, hd⟩ := (hmem _).1 hn
      exact (hvalid v hv).edge_node hd
    · rw [update_of_ne hk] at hn
      exact hheap.below k n hn
  refine ⟨Nat.le_succ _, hkept, ⟨hbelow, ?_⟩, ⟨?_, Nat.lt_succ_self _⟩, fun _ => rfl, ?_⟩
  · intro k gradEnabled g entries happly
    by_cases hk : k = heap.next
    · subst hk
      simp only [update_self] at happly
      exact hfull gradEnabled g entries happly
    · simp only [update_of_ne hk] at happly
      exact hheap.full k gradEnabled g entries happly
  · rintro k ⟨⟩
    exact Nat.lt_succ_self _
  · constructor
    · rintro (hf | ⟨k, hk, hf⟩)
      · cases hf
      · cases hk
        cases hf with
        | slot hs =>
          obtain ⟨v, hv, hd⟩ := (hmem _).1 hs
          exact ⟨v, hv, .inl hd⟩
        | node hn hf =>
          obtain ⟨v, hv, hd⟩ := (hmem _).1 hn
          exact ⟨v, hv, .inr ⟨_, hd, hf.congr hbelow (fun k hk => (hkept k hk).symm)
            ((hvalid v hv).edge_node hd)⟩⟩
    · rintro ⟨v, hv, hd | ⟨k, hd, hf⟩⟩
      · exact .inr ⟨_, rfl, .slot ((hmem _).2 ⟨v, hv, hd⟩)⟩
      · exact .inr ⟨_, rfl, .node ((hmem _).2 ⟨v, hv, hd⟩)
          (hf.congr hheap.below hkept ((hvalid v hv).edge_node hd))⟩

theorem draws_op (backend : Backend T) (name : String) (saved : List Nat)
    {args : List (Variable T)} (hargs : ∀ v ∈ args, v ∈ K) :
    Draws s K (Recorder.op backend name saved args) {v | v ∈ args} := by
  intro heap out heap' hheap hs hvalid hrun
  obtain ⟨value, _, hrun⟩ := bind_eq_ok.1 hrun
  simp only [Heap.newVariable, Heap.attach] at hrun
  split at hrun
  · cases hrun
    refine drawn_attach rfl ?_ hheap fun v hv => hvalid v (hargs v hv)
    intro _ g entries happly
    obtain ⟨grads, _, rfl⟩ := Option.map_eq_some_iff.1 happly
    intro entry hentry
    obtain ⟨g, _, rfl⟩ := mem_map.1 hentry
    rfl
  · next hany =>
    cases hrun
    have hfresh := @drawn_fresh T s heap hheap value false fun _ => hs
    refine { hfresh with feeds := iff_of_false (not_feeds rfl) ?_ }
    rintro ⟨v, hv, hf⟩
    have hv' : v.requiresGrad = false :=
      Bool.eq_false_iff.2 fun htrue => hany (any_eq_true.2 ⟨v, hv, htrue⟩)
    exact not_feeds hv' hf

theorem Draws.op_bind {backend : Backend T} {name : String} {saved : List Nat}
    {args : List (Variable T)} {rest : Variable T → Recorder T (Variable T)}
    (hargs : ∀ v ∈ args, v ∈ K) (hY : Y ⊆ K)
    (hrest : ∀ v, Draws s (insert v K) (rest v) (insert v Y)) (hX : X = {v | v ∈ args} ∪ Y) :
    Draws s K (Recorder.op backend name saved args >>= rest) X :=
  ((draws_op backend name saved hargs).bind hY hrest).congr hX.symm

end Draws

/-! ## The backward pass -/

section Pass

variable {K S G : Type} [DecidableEq K] [DecidableEq S] {graph : Graph K S G}
  {add : G → G → Except String G} {s : S} {tape tape' : Tape K S G}

/-- A gradient waits at a node, or is in a slot. -/
def Tape.Holds (tape : Tape K S G) : K ⊕ S → Prop
  | .inl k => (tape.grads k).isSome
  | .inr s => (tape.slots s).isSome

theorem isSome_update {I : Type} [DecidableEq I] {f : I → Option G} {i j : I} {g : G} :
    i = j ∨ (f j).isSome → (update f i (some g) j).isSome := by
  intro h
  by_cases hij : j = i
  · rw [hij, update_self]
    rfl
  · rw [update_of_ne hij]
    exact h.resolve_left (Ne.symm hij)

theorem accumulateIntoEdge_holds {edge : Edge K S} {g : G} {d : K ⊕ S}
    (hrun : accumulateIntoEdge add edge g tape = (tape', .ok ())) :
    edge.dest = some d ∨ tape.Holds d → tape'.Holds d := by
  obtain ⟨node, gradSlot⟩ := edge
  unfold accumulateIntoEdge at hrun
  intro h
  cases node with
  | some n =>
    have hnew : ∀ g, Tape.Holds { tape with grads := update tape.grads n (some g) } d := by
      intro g
      cases d with
      | inl k => exact isSome_update (h.imp_left fun heq => Sum.inl_injective (Option.some.inj heq))
      | inr s => exact h.resolve_left fun heq => Sum.inl_ne_inr (Option.some.inj heq)
    simp only at hrun
    split at hrun
    · split at hrun
      · cases hrun
        exact hnew _
      · cases hrun
    · cases hrun
      exact hnew _
  | none =>
    cases gradSlot with
    | none =>
      cases hrun
      exact h.resolve_left (Option.some_ne_none d).symm
    | some slot =>
      have hnew : ∀ g, Tape.Holds { tape with slots := update tape.slots slot (some g) } d := by
        intro g
        cases d with
        | inl k => exact h.resolve_left fun heq => Sum.inr_ne_inl (Option.some.inj heq)
        | inr s =>
          exact isSome_update (h.imp_left fun heq => Sum.inr_injective (Option.some.inj heq))
      simp only at hrun
      split at hrun
      · split at hrun
        · cases hrun
          exact hnew _
        · cases hrun
      · cases hrun
        exact hnew _

theorem accumulate_holds {d : K ⊕ S} {entries : List (Edge K S × Option G)} :
    ∀ {tape : Tape K S G}, accumulate add entries tape = (tape', .ok ()) →
      (tape.Holds d ∨ ∃ entry ∈ entries, entry.1.dest = some d ∧ entry.2.isSome) →
        tape'.Holds d := by
  induction entries with
  | nil =>
    intro tape hrun h
    cases hrun
    exact h.resolve_right (by simp)
  | cons entry entries ih =>
    intro tape hrun h
    obtain ⟨edge, g⟩ := entry
    cases g with
    | none =>
      refine ih hrun (h.imp_right ?_)
      rintro ⟨entry, hmem, hdest, hsome⟩
      rcases mem_cons.1 hmem with rfl | hmem
      · cases hsome
      · exact ⟨entry, hmem, hdest, hsome⟩
    | some g =>
      rw [accumulate] at hrun
      split at hrun
      · next hone =>
        refine ih hrun ?_
        rcases h with h | ⟨entry, hmem, hdest, hsome⟩
        · exact .inl (accumulateIntoEdge_holds hone (.inr h))
        · rcases mem_cons.1 hmem with rfl | hmem
          · exact .inl (accumulateIntoEdge_holds hone (.inl hdest))
          · exact .inr ⟨entry, hmem, hdest, hsome⟩
      · next hbad _ =>
        cases hrun
        exact absurd rfl hbad

theorem process_holds {node : K}
    (hfull : ∀ g entries, (graph node).apply g = some entries → ∀ entry ∈ entries, entry.isSome)
    (hrun : process graph add tape node = (tape', .ok ())) {d : K ⊕ S} :
    (tape.Holds d ∧ d ≠ .inl node ∨
      tape.Holds (.inl node) ∧ some d ∈ (graph node).nextEdges.map Edge.dest) → tape'.Holds d := by
  intro h
  unfold process at hrun
  split at hrun
  · next hnone =>
    cases hrun
    rcases h with h | h
    · exact h.1
    · exact absurd h.1 (by rw [Tape.Holds, hnone]; exact Bool.false_ne_true)
  · split at hrun
    · cases hrun
    · next happly =>
      simp only at hrun
      split at hrun
      · cases hrun
      · next hlen =>
        refine accumulate_holds hrun ?_
        rcases h with ⟨hd, hne⟩ | ⟨_, hmem⟩
        · left
          cases d with
          | inl k =>
            have hk : k ≠ node := fun heq => hne (congrArg _ heq)
            change (update tape.grads node none k).isSome
            rwa [update_of_ne hk]
          | inr s => exact hd
        · right
          obtain ⟨i, hi, hedge⟩ := getElem_of_mem hmem
          rw [length_map] at hi
          have hentry := getElem_mem
            (by rwa [length_zip, not_not.1 hlen, Nat.min_self] :
              i < ((graph node).nextEdges.zip _).length)
          exact ⟨_, hentry, by simpa using hedge,
            by simpa using hfull _ _ happly _ (getElem_mem _)⟩

theorem process_slot {node : K} (hs : some (Sum.inr s) ∉ (graph node).nextEdges.map Edge.dest) :
    (process graph add tape node).1.slots s = tape.slots s := by
  have hentries : ∀ (entries : List (Edge K S × Option G)) (tape : Tape K S G),
      (∀ entry ∈ entries, entry.1.dest ≠ some (.inr s)) →
        (accumulate add entries tape).1.slots s = tape.slots s := by
    intro entries
    induction entries with
    | nil => exact fun _ _ => rfl
    | cons entry entries ih =>
      intro tape h
      obtain ⟨edge, g⟩ := entry
      cases g with
      | none => exact ih tape fun e he => h e (mem_cons_of_mem _ he)
      | some g =>
        have hone := @slots_of_dest_ne _ _ _ _ _ add s tape edge g (h _ mem_cons_self)
        rw [accumulate]
        split
        · next hrun =>
          rw [hrun] at hone
          exact (ih _ fun e he => h e (mem_cons_of_mem _ he)).trans hone
        · next hrun =>
          rw [hrun] at hone
          exact hone
  unfold process
  split
  · rfl
  · split
    · rfl
    · simp only
      split
      · rfl
      · refine hentries _ _ fun entry hentry hdest => hs ?_
        rw [← hdest]
        exact mem_map_of_mem (of_mem_zip hentry).1

theorem processAll_slot {nodes : List K}
    (hs : ∀ k ∈ nodes, some (Sum.inr s) ∉ (graph k).nextEdges.map Edge.dest) :
    ∀ tape : Tape K S G, (processAll graph add nodes tape).1.slots s = tape.slots s := by
  induction nodes with
  | nil => exact fun _ => rfl
  | cons node nodes ih =>
    intro tape
    have hone := @process_slot _ _ _ _ _ _ add _ tape _ (hs node mem_cons_self)
    rw [processAll]
    split
    · next hrun =>
      rw [hrun] at hone
      exact (ih (fun k hk => hs k (mem_cons_of_mem _ hk)) _).trans hone
    · next hrun =>
      rw [hrun] at hone
      exact hone

end Pass

section Fills

variable {T : Type} {add : T → T → Except String T} {heap : Heap T} {s : Nat}

theorem processAll_fills (hheap : heap.Recorded) {nodes : List Nat} {tape' : Tape Nat Nat T} :
    ∀ {tape : Tape Nat Nat T}, PostOrder.Ordered (successors (heap.graph true)) nodes →
      processAll (heap.graph true) add nodes tape = (tape', .ok ()) →
        (tape.Holds (.inr s) ∨ ∃ k ∈ nodes, tape.Holds (.inl k) ∧ heap.Feeds s k) →
          tape'.Holds (.inr s) := by
  induction nodes with
  | nil =>
    intro tape _ hrun h
    cases hrun
    exact h.resolve_right (by simp)
  | cons node nodes ih =>
    intro tape hordered hrun h
    obtain ⟨hout, hlead, hordered⟩ := hordered
    rw [processAll] at hrun
    split at hrun
    · next hone =>
      have hstep := @process_holds _ _ _ _ _ _ add _ _ node (hheap.full node true) hone
      refine ih hordered hrun ?_
      rcases h with h | ⟨k, hk, hholds, hfeeds⟩
      · exact .inl (hstep (.inl ⟨h, Sum.inr_ne_inl⟩))
      · rcases mem_cons.1 hk with rfl | hk
        · cases hfeeds with
          | slot hs => exact .inl (hstep (.inr ⟨hholds, hs⟩))
          | node hn hf =>
            exact .inr ⟨_, hlead _ (mem_successors.2 hn), hstep (.inr ⟨hholds, hn⟩), hf⟩
        · have hne : (Sum.inl k : Nat ⊕ Nat) ≠ .inl node :=
            fun heq => hout (Sum.inl_injective heq ▸ hk)
          exact .inr ⟨k, hk, hstep (.inl ⟨hholds, hne⟩), hfeeds⟩
    · next hbad _ =>
      cases hrun
      exact absurd rfl hbad

/-- A pass without error fills the empty slots that the root feeds, and no others. -/
theorem backwardFrom_fills_iff {ones : T → Option T} (hheap : heap.Recorded) {out : Variable T}
    (hvalid : out.Valid heap.next) (htied : out.gradFn.isSome → out.requiresGrad = true)
    {initialGrad : Option T} {slots : Nat → Option T} (hempty : slots s = none)
    {tape : Tape Nat Nat T}
    (hrun : backwardFrom add ones true heap out initialGrad slots = (tape, .ok ())) :
    (tape.slots s).isSome ↔ out.Feeds heap s := by
  have hbelow : ∀ k, ∀ n ∈ successors (heap.graph true) k, n < k :=
    fun k n hn => hheap.below k n (mem_successors.1 hn)
  unfold backwardFrom backward at hrun
  cases hfn : out.gradFn with
  | none => simp only [hfn, Prod.mk.injEq, reduceCtorEq, and_false] at hrun
  | some root =>
    have hdest : out.edge.dest = some (.inl root) := by
      rw [out.edge_dest, htied (by rw [hfn]; rfl), hfn]
      rfl
    have hroot : out.Feeds heap s ↔ heap.Feeds s root := by
      unfold Variable.Feeds
      simp [hdest]
    obtain ⟨hordered, hlisted⟩ := @PostOrder.ordered_visit Nat _ _ id (heap.next + 1) root hbelow
      (lt_trans (hvalid.node root hfn) (Nat.lt_succ_self _))
    simp only [hfn, visit_eq] at hrun
    split at hrun
    · simp only [Prod.mk.injEq, reduceCtorEq, and_false] at hrun
    · rw [hroot]
      constructor
      · intro hsome
        by_contra hnot
        have hclosed : ∀ k, ¬ heap.Feeds s k → ∀ n ∈ successors (heap.graph true) k,
            ¬ heap.Feeds s n := fun k hk n hn hf => hk (.node (mem_successors.1 hn) hf)
        have hinside := PostOrder.visit_inside hclosed (heap.next + 1) root ([], ∅) hnot
          (fun v hv => absurd hv not_mem_nil)
        have hkept := fun tape => @processAll_slot _ _ _ _ _ (heap.graph true) add s _
          (fun k hk hs => hinside k (mem_reverse.1 hk) (.slot hs)) tape
        have hslot : tape.slots s = none := by
          rw [← hempty, ← congrArg (fun run : Tape Nat Nat T × _ => run.1.slots s) hrun, hkept]
        rw [hslot] at hsome
        cases hsome
      · intro hf
        refine processAll_fills hheap hordered hrun (.inr ⟨root, mem_reverse.2 hlisted, ?_, hf⟩)
        simp [Tape.Holds]

end Fills

end Autograd
end Rustorch
