import Rustorch.Autograd.Checkpoint

/-!
# What a run records

One run of a function keeps the heap sound.  Two runs of the same code, on different heaps or with
gradients enabled in only one of them, go through the same tensors and fail in the same way.
-/

namespace Rustorch
namespace Autograd

open List Option Outcome Function Variable

variable {T : Type} {gradEnabled gradEnabled' : Bool}

/-! ## Variables -/

/-- The node and the slot of a variable have been handed out. -/
structure Variable.Valid (next : Nat) (v : Variable T) : Prop where
  node : ∀ k, v.gradFn = some k → k < next
  slot : v.grad < next

variable {v : Variable T}

theorem Variable.Valid.mono {next next' : Nat} (hle : next ≤ next') (h : v.Valid next) :
    v.Valid next' where
  node k hk := lt_of_lt_of_le (h.node k hk) hle
  slot := lt_of_lt_of_le h.slot hle

theorem Variable.edge_dest (v : Variable T) :
    v.edge.dest = if v.requiresGrad then some (match v.gradFn with
      | some node => .inl node
      | none => .inr v.grad) else none := by
  unfold edge
  cases v.requiresGrad with
  | false => rfl
  | true =>
    cases v.gradFn with
    | none => rfl
    | some node => rfl

theorem Variable.Valid.edge_node {next n : Nat} (h : v.Valid next)
    (hn : v.edge.dest = some (.inl n)) : n < next := by
  rw [v.edge_dest] at hn
  split at hn
  · cases hfn : v.gradFn with
    | none =>
      rw [hfn] at hn
      cases hn
    | some node =>
      rw [hfn] at hn
      cases hn
      exact h.node n hfn
  · cases hn

theorem Variable.Valid.edge_slot {next s : Nat} (h : v.Valid next)
    (hs : v.edge.dest = some (.inr s)) : s < next := by
  rw [v.edge_dest] at hs
  split at hs
  · cases hfn : v.gradFn with
    | none =>
      rw [hfn] at hs
      cases hs
      exact h.slot
    | some node =>
      rw [hfn] at hs
      cases hs
  · cases hs

/-! ## One op -/

section Finish

variable {op : Op T} {args : List (Variable T)} {out : T} {heap : Heap T}

/-- Whether an op records a node. -/
abbrev records (gradEnabled : Bool) (args : List (Variable T)) : Bool :=
  gradEnabled && args.any requiresGrad

theorem finish_fst : (op.finish gradEnabled args out heap).1 =
    { tensor := out
      gradFn := if records gradEnabled args then some heap.next else none
      grad := heap.next
      requiresGrad := records gradEnabled args } := by
  unfold Op.finish records
  cases gradEnabled && args.any requiresGrad with
  | false => rfl
  | true => rfl

theorem finish_next : (op.finish gradEnabled args out heap).2.next = heap.next + 1 := by
  unfold Op.finish
  cases gradEnabled && args.any requiresGrad with
  | false => rfl
  | true => rfl

theorem finish_nodes : (op.finish gradEnabled args out heap).2.nodes =
    if records gradEnabled args then Function.update heap.nodes heap.next (op.record args)
    else heap.nodes := by
  unfold Op.finish records
  cases gradEnabled && args.any requiresGrad with
  | false => rfl
  | true => rfl

theorem finish_nodes_of_ne {k : Nat} (hk : k ≠ heap.next) :
    (op.finish gradEnabled args out heap).2.nodes k = heap.nodes k := by
  rw [finish_nodes]
  split
  · exact update_of_ne hk _ _
  · rfl

theorem finish_valid :
    (op.finish gradEnabled args out heap).1.Valid (op.finish gradEnabled args out heap).2.next := by
  rw [finish_fst, finish_next]
  constructor
  · intro k hk
    split at hk
    · cases hk
      exact Nat.lt_succ_self _
    · cases hk
  · exact Nat.lt_succ_self _

variable {next : Nat}

theorem Heap.Sound.attach (h : heap.Sound gradEnabled') {record : Record T} (hlt : heap.next < next)
    (hnode : ∀ n, some (Sum.inl n) ∈ record.nextEdges.map Edge.dest → n < heap.next)
    (hslot : ∀ s, some (Sum.inr s) ∈ record.nextEdges.map Edge.dest → s < heap.next)
    (htotal : ∀ g, ∃ entries, record.apply gradEnabled' g = some entries ∧
      entries.length = record.nextEdges.length) :
    Heap.Sound gradEnabled' { nodes := update heap.nodes heap.next record, next := next } := by
  have hnew : ∀ k, update heap.nodes heap.next record k =
      if k = heap.next then record else heap.nodes k := update_apply _ _ _
  constructor
  · intro k n hn
    simp only [hnew] at hn
    split at hn
    · next heq => exact heq ▸ hnode n hn
    · exact h.below k n hn
  · intro k s hs
    simp only [hnew] at hs
    split at hs
    · exact lt_trans (hslot s hs) hlt
    · exact lt_trans (h.slot k s hs) hlt
  · intro k hk
    change update heap.nodes heap.next record k = _
    rw [hnew, if_neg (ne_of_gt (lt_of_lt_of_le hlt hk))]
    exact h.unused k (le_trans hlt.le hk)
  · intro k g
    simp only [hnew]
    split
    · exact htotal g
    · exact h.total k g

theorem Heap.Sound.grow (h : heap.Sound gradEnabled) (hle : heap.next ≤ next) :
    Heap.Sound gradEnabled { heap with next := next } where
  below := h.below
  slot k s hs := lt_of_lt_of_le (h.slot k s hs) hle
  unused k hk := h.unused k (le_trans hle hk)
  total := h.total

theorem record_total (g : T) : ∃ entries, (op.record args).apply gradEnabled g = some entries ∧
    entries.length = (op.record args).nextEdges.length := by
  refine ⟨_, rfl, ?_⟩
  unfold Op.record
  rw [length_map, op.vjp_length, length_map, length_map]

theorem Heap.Sound.finish (h : heap.Sound gradEnabled') (hargs : ∀ v ∈ args, v.Valid heap.next) :
    (op.finish gradEnabled args out heap).2.Sound gradEnabled' := by
  have hnext := @finish_next T gradEnabled op args out heap
  have hnodes := @finish_nodes T gradEnabled op args out heap
  generalize (op.finish gradEnabled args out heap).2 = heap' at hnext hnodes
  obtain ⟨nodes, next⟩ := heap'
  subst hnext hnodes
  split
  · apply h.attach (Nat.lt_succ_self _)
    · intro n hn
      obtain ⟨v, hv, heq⟩ := mem_map.1 (by simpa [Op.record] using hn)
      exact (hargs v hv).edge_node heq
    · intro s hs
      obtain ⟨v, hv, heq⟩ := mem_map.1 (by simpa [Op.record] using hs)
      exact (hargs v hv).edge_slot heq
    · exact fun g => record_total g
  · exact h.grow (Nat.le_succ _)

end Finish

/-! ## Runs -/

section Runs

variable {code : List (Instr T)} {env env' : List (Variable T)} {heap heap' : Heap T}

theorem mem_of_lookup {idxs : List Nat} : ∀ {args : List (Variable T)},
    lookup env idxs = some args → ∀ v ∈ args, v ∈ env := by
  induction idxs with
  | nil =>
    intro args h v hv
    cases h
    cases hv
  | cons a idxs ih =>
    intro args h v hv
    unfold lookup at h
    rw [mapM_cons, bind_eq_bind, bind_eq_some_iff] at h
    obtain ⟨w, hw, h⟩ := h
    rw [bind_eq_bind, bind_eq_some_iff] at h
    obtain ⟨rest, hrest, h⟩ := h
    cases h
    rcases mem_cons.1 hv with heq | hin
    · exact heq ▸ mem_of_getElem? hw
    · exact ih hrest v hin

variable {instr : Instr T} {rest : List (Instr T)} {args inputs : List (Variable T)}

theorem run_cons_none (hargs : lookup env instr.args = none) :
    run gradEnabled (instr :: rest) env heap = .panic := by
  unfold run
  rw [hargs]

theorem run_cons_error {message : String} (hargs : lookup env instr.args = some args)
    (hout : instr.op.forward (args.map tensor) = .error message) :
    run gradEnabled (instr :: rest) env heap = .err (.backend instr.op.name message) := by
  unfold run
  rw [hargs]
  unfold Op.call
  simp only [hout]

theorem run_cons_ok {out : T} (hargs : lookup env instr.args = some args)
    (hout : instr.op.forward (args.map tensor) = .ok out) :
    run gradEnabled (instr :: rest) env heap =
      run gradEnabled rest (env ++ [(instr.op.finish gradEnabled args out heap).1])
        (instr.op.finish gradEnabled args out heap).2 := by
  conv_lhs => unfold run
  rw [hargs]
  unfold Op.call
  simp only [hout]

theorem run_cons_inv (hrun : run gradEnabled (instr :: rest) env heap = .ok (env', heap')) :
    ∃ args out, lookup env instr.args = some args ∧
      run gradEnabled rest (env ++ [(instr.op.finish gradEnabled args out heap).1])
        (instr.op.finish gradEnabled args out heap).2 = .ok (env', heap') := by
  cases hargs : lookup env instr.args with
  | none =>
    rw [run_cons_none hargs] at hrun
    cases hrun
  | some args =>
    cases hout : instr.op.forward (args.map tensor) with
    | error message =>
      rw [run_cons_error hargs hout] at hrun
      cases hrun
    | ok out =>
      rw [run_cons_ok hargs hout] at hrun
      exact ⟨args, out, rfl, hrun⟩

theorem run_invariant {Inv : List (Variable T) → Heap T → Prop}
    (hstep : ∀ {op : Op T} {args env heap} (out : T), Inv env heap → (∀ v ∈ args, v ∈ env) →
      Inv (env ++ [(op.finish gradEnabled args out heap).1])
        (op.finish gradEnabled args out heap).2) :
    ∀ {code env heap env' heap'}, run gradEnabled code env heap = .ok (env', heap') →
      Inv env heap → Inv env' heap' := by
  intro code
  induction code with
  | nil =>
    intro env heap env' heap' hrun h
    cases hrun
    exact h
  | cons instr rest ih =>
    intro env heap env' heap' hrun h
    obtain ⟨args, out, hargs, hrest⟩ := run_cons_inv hrun
    exact ih hrest (hstep out h (mem_of_lookup hargs))

/-- A run hands out later addresses and leaves the nodes before them alone. -/
structure Extends (gradEnabled' : Bool) (heap : Heap T) (env' : List (Variable T))
    (heap' : Heap T) : Prop where
  le : heap.next ≤ heap'.next
  sound : heap'.Sound gradEnabled'
  kept : ∀ k, k < heap.next → heap'.nodes k = heap.nodes k
  valid : ∀ v ∈ env', v.Valid heap'.next

theorem extends_run (hsound : heap.Sound gradEnabled') (hvalid : ∀ v ∈ env, v.Valid heap.next)
    (hrun : run gradEnabled code env heap = .ok (env', heap')) :
    Extends gradEnabled' heap env' heap' := by
  refine @run_invariant T gradEnabled (Extends gradEnabled' heap) ?_ _ _ _ _ _ hrun
    ⟨le_refl _, hsound, fun _ _ => rfl, hvalid⟩
  intro op args env heap' out h hargs
  have hnext : heap'.next ≤ (op.finish gradEnabled args out heap').2.next := by
    rw [finish_next]
    exact Nat.le_succ _
  constructor
  · exact le_trans h.le hnext
  · exact h.sound.finish (fun v hv => h.valid v (hargs v hv))
  · intro k hk
    rw [finish_nodes_of_ne (ne_of_lt (lt_of_lt_of_le hk h.le))]
    exact h.kept k hk
  · intro v hv
    rcases mem_append.1 hv with hin | hin
    · exact (h.valid v hin).mono hnext
    · rw [mem_singleton.1 hin]
      exact finish_valid

/-- The results of a run are numbered from the first free address on. -/
structure Numbered (inputs : List (Variable T)) (first : Nat) (env : List (Variable T))
    (heap : Heap T) : Prop where
  length : ∃ p, env.length = inputs.length + p ∧ heap.next = first + p
  input : ∀ i, i < inputs.length → env[i]? = inputs[i]?
  node : ∀ i v, env[inputs.length + i]? = some v →
    v.gradFn = if v.requiresGrad then some (first + i) else none

theorem numbered_run (hrun : run gradEnabled code inputs heap = .ok (env', heap')) :
    Numbered inputs heap.next env' heap' := by
  refine @run_invariant T gradEnabled (Numbered inputs heap.next) ?_ _ _ _ _ _ hrun ?_
  · intro op args env after out h _
    obtain ⟨p, hp, hnext⟩ := h.length
    constructor
    · refine ⟨p + 1, ?_, ?_⟩
      · rw [length_append, hp]
        rfl
      · rw [finish_next, hnext]
        rfl
    · intro i hi
      rw [getElem?_append_left (by omega)]
      exact h.input i hi
    · intro i v hv
      by_cases hlt : i < p
      · rw [getElem?_append_left (by omega)] at hv
        exact h.node i v hv
      · obtain rfl | hgt : i = p ∨ p < i := by omega
        · rw [getElem?_append_right (by omega), hp, Nat.sub_self] at hv
          cases hv
          rw [finish_fst, hnext]
        · rw [getElem?_eq_none (by rw [length_append, length_singleton]; omega)] at hv
          cases hv
  · refine ⟨⟨0, rfl, rfl⟩, fun i hi => rfl, ?_⟩
    intro i v hv
    rw [getElem?_eq_none (Nat.le_add_right _ _)] at hv
    cases hv

/-- Without gradients to track, a run records nothing. -/
structure Quiet (gradEnabled : Bool) (inputs : List (Variable T)) (heap : Heap T)
    (env : List (Variable T)) (heap' : Heap T) : Prop where
  quiet : gradEnabled = true → ∀ v ∈ env, v.requiresGrad = false
  nodes : heap'.nodes = heap.nodes
  length : inputs.length ≤ env.length
  results : ∀ i v, inputs.length ≤ i → env[i]? = some v → v.requiresGrad = false

theorem quiet_run (hquiet : (gradEnabled && inputs.any requiresGrad) = false)
    (hrun : run gradEnabled code inputs heap = .ok (env', heap')) :
    Quiet gradEnabled inputs heap env' heap' := by
  refine @run_invariant T gradEnabled (Quiet gradEnabled inputs heap) ?_ _ _ _ _ _ hrun ?_
  · intro op args env after out h hargs
    have hrecords : records gradEnabled args = false := by
      cases gradEnabled with
      | false => rfl
      | true =>
        apply any_eq_false.2
        intro v hv
        rw [h.quiet rfl v (hargs v hv)]
        exact Bool.false_ne_true
    have hfst := @finish_fst T gradEnabled op args out after
    rw [hrecords] at hfst
    constructor
    · intro hon v hv
      rcases mem_append.1 hv with hin | hin
      · exact h.quiet hon v hin
      · rw [mem_singleton.1 hin, hfst]
    · rw [finish_nodes, hrecords]
      exact h.nodes
    · rw [length_append]
      exact Nat.le_add_right_of_le h.length
    · intro i v hle hv
      by_cases hi : i < env.length
      · rw [getElem?_append_left hi] at hv
        exact h.results i v hle hv
      · rw [getElem?_append_right (Nat.not_lt.1 hi)] at hv
        have hmem := mem_of_getElem? hv
        rw [mem_singleton.1 hmem, hfst]
  · refine ⟨?_, rfl, le_refl _, ?_⟩
    · rintro rfl v hv
      have hany := any_eq_false.1 hquiet v hv
      simpa using hany
    · intro i v hle hv
      rw [getElem?_eq_none hle] at hv
      cases hv

end Runs

/-! ## Two runs of the same code -/

section Pairs

theorem getElem?_rel {α β : Type} {R : α → β → Prop} {xs : List α} {ys : List β}
    (h : Forall₂ R xs ys) : ∀ i : Nat, (xs[i]? = none ∧ ys[i]? = none) ∨
      ∃ x y, xs[i]? = some x ∧ ys[i]? = some y ∧ R x y := by
  induction h with
  | nil => exact fun _ => Or.inl ⟨rfl, rfl⟩
  | cons hxy _ ih =>
    intro i
    cases i with
    | zero => exact Or.inr ⟨_, _, rfl, rfl, hxy⟩
    | succ i => exact ih i

variable {R : Variable T → Variable T → Prop}

theorem lookup_rel {env env' : List (Variable T)} (h : Forall₂ R env env')
    (idxs : List Nat) : (lookup env idxs = none ∧ lookup env' idxs = none) ∨
      ∃ args args', lookup env idxs = some args ∧ lookup env' idxs = some args' ∧
        Forall₂ R args args' := by
  induction idxs with
  | nil => exact Or.inr ⟨[], [], rfl, rfl, Forall₂.nil⟩
  | cons a idxs ih =>
    unfold lookup
    rw [mapM_cons, mapM_cons]
    rcases getElem?_rel h a with ⟨hv, hv'⟩ | ⟨v, v', hv, hv', hR⟩
    · rw [hv, hv']
      exact Or.inl ⟨rfl, rfl⟩
    · rw [hv, hv']
      rcases ih with ⟨hr, hr'⟩ | ⟨args, args', hr, hr', hargs⟩
      · unfold lookup at hr hr'
        rw [hr, hr']
        exact Or.inl ⟨rfl, rfl⟩
      · unfold lookup at hr hr'
        rw [hr, hr']
        exact Or.inr ⟨v :: args, v' :: args', rfl, rfl, Forall₂.cons hR hargs⟩

theorem tensors_eq (hR : ∀ v v', R v v' → v.tensor = v'.tensor) {args args' : List (Variable T)}
    (h : Forall₂ R args args') : args.map tensor = args'.map tensor := by
  induction h with
  | nil => rfl
  | cons hv _ ih => rw [map_cons, map_cons, hR _ _ hv, ih]

/-- What relates two environments and heaps before some code, and is kept by each op of it, relates
the ends of the two runs. -/
structure Steps (gradEnabled gradEnabled' : Bool) (R : Variable T → Variable T → Prop)
    (Inv : List (Instr T) → List (Variable T) → Heap T → List (Variable T) → Heap T → Prop) :
    Prop where
  tensor : ∀ v v', R v v' → v.tensor = v'.tensor
  env : ∀ {code env heap env' heap'}, Inv code env heap env' heap' → Forall₂ R env env'
  step : ∀ {instr rest env heap env' heap' args args'} (out : T),
    Inv (instr :: rest) env heap env' heap' → lookup env instr.args = some args →
      lookup env' instr.args = some args' → Forall₂ R args args' →
        Inv rest (env ++ [(instr.op.finish gradEnabled args out heap).1])
          (instr.op.finish gradEnabled args out heap).2
          (env' ++ [(instr.op.finish gradEnabled' args' out heap').1])
          (instr.op.finish gradEnabled' args' out heap').2

variable {Inv : List (Instr T) → List (Variable T) → Heap T → List (Variable T) → Heap T → Prop}

theorem run_rel (h : Steps gradEnabled gradEnabled' R Inv) :
    ∀ (code : List (Instr T)) {env heap env' heap'}, Inv code env heap env' heap' →
      Outcome.Rel (fun r r' => Inv [] r.1 r.2 r'.1 r'.2) (run gradEnabled code env heap)
        (run gradEnabled' code env' heap') := by
  intro code
  induction code with
  | nil => exact fun hinv => Rel.ok hinv
  | cons instr rest ih =>
    intro env heap env' heap' hinv
    rcases lookup_rel (h.env hinv) instr.args with ⟨hl, hl'⟩ | ⟨args, args', hl, hl', hargs⟩
    · rw [run_cons_none hl, run_cons_none hl']
      exact Rel.panic
    · have htensors := tensors_eq h.tensor hargs
      cases hout : instr.op.forward (args.map tensor) with
      | error message =>
        rw [run_cons_error hl hout, run_cons_error hl' (htensors ▸ hout)]
        exact Rel.err _
      | ok out =>
        rw [run_cons_ok hl hout, run_cons_ok hl' (htensors ▸ hout)]
        exact ih (h.step out hinv hl hl' hargs)

/-- The run behind a call that returns. -/
structure Returns (gradEnabled : Bool) (f : PureFn T) (inputs : List (Variable T)) (heap : Heap T)
    (vars : List (Variable T)) (r : Variable T × Heap T) : Prop where
  run : run gradEnabled (f (inputs.map tensor)).code inputs heap = .ok (vars, r.2)
  result : vars[(f (inputs.map tensor)).result]? = some r.1

theorem call_eq_ok {f : PureFn T} {inputs : List (Variable T)} {heap : Heap T}
    {r : Variable T × Heap T} :
    call gradEnabled f inputs heap = .ok r ↔ ∃ vars, Returns gradEnabled f inputs heap vars r := by
  unfold call
  constructor
  · intro h
    cases hrun : run gradEnabled (f (inputs.map tensor)).code inputs heap with
    | err e =>
      simp only [hrun] at h
      cases h
    | panic =>
      simp only [hrun] at h
      cases h
    | ok after =>
      obtain ⟨vars, heap'⟩ := after
      simp only [hrun] at h
      cases hv : vars[(f (inputs.map tensor)).result]? with
      | none =>
        simp only [hv] at h
        cases h
      | some v =>
        simp only [hv] at h
        cases h
        exact ⟨vars, hrun, hv⟩
  · rintro ⟨vars, hrun, hv⟩
    simp only [hrun, hv]

/-- Calls of a function from related environments end in related variables. -/
theorem call_rel (h : Steps gradEnabled gradEnabled' R Inv) (f : PureFn T) {env heap env' heap'}
    (hinv : Inv (f (env.map tensor)).code env heap env' heap') :
    Outcome.Rel (fun r r' => R r.1 r'.1 ∧ ∃ vars vars', Inv [] vars r.2 vars' r'.2 ∧
        Returns gradEnabled f env heap vars r ∧ Returns gradEnabled' f env' heap' vars' r')
      (call gradEnabled f env heap) (call gradEnabled' f env' heap') := by
  have htensors := tensors_eq h.tensor (h.env hinv)
  -- related runs end alike, so only the equal outcomes are left
  have hrun := run_rel h _ hinv
  cases hleft : run gradEnabled (f (env.map tensor)).code env heap with
  | err e =>
    cases hright : run gradEnabled' (f (env.map tensor)).code env' heap' with
    | err e' =>
      rw [hleft, hright] at hrun
      cases hrun
      unfold call
      simp only [hleft, ← htensors, hright]
      exact Rel.err e
    | _ =>
      rw [hleft, hright] at hrun
      cases hrun
  | panic =>
    cases hright : run gradEnabled' (f (env.map tensor)).code env' heap' with
    | panic =>
      unfold call
      simp only [hleft, ← htensors, hright]
      exact Rel.panic
    | _ =>
      rw [hleft, hright] at hrun
      cases hrun
  | ok r =>
    cases hright : run gradEnabled' (f (env.map tensor)).code env' heap' with
    | ok r' =>
      rw [hleft, hright] at hrun
      cases hrun with
      | ok hr =>
        rcases getElem?_rel (h.env hr) (f (env.map tensor)).result with
          ⟨hv, hv'⟩ | ⟨v, v', hv, hv', hR⟩
        · unfold call
          simp only [hleft, ← htensors, hright, hv, hv']
          exact Rel.panic
        · have hreturns : Returns gradEnabled f env heap r.1 (v, r.2) := ⟨hleft, hv⟩
          have hreturns' : Returns gradEnabled' f env' heap' r'.1 (v', r'.2) :=
            ⟨htensors ▸ hright, htensors ▸ hv'⟩
          rw [call_eq_ok.2 ⟨_, hreturns⟩, call_eq_ok.2 ⟨_, hreturns'⟩]
          exact Rel.ok ⟨hR, r.1, r'.1, hr, hreturns, hreturns'⟩
    | _ =>
      rw [hleft, hright] at hrun
      cases hrun

end Pairs

/-! ## Which results require gradients -/

/-- Whether each position requires gradients, from those that do at first. -/
def flags (gradEnabled : Bool) : List (Instr T) → List Bool → List Bool
  | [], required => required
  | instr :: rest, required =>
    flags gradEnabled rest (required ++
      [gradEnabled && instr.args.any (fun a => required[a]?.getD false)])

theorem getElem?_flags (code : List (Instr T)) : ∀ (required : List Bool) (k : Nat),
    k < required.length → (flags gradEnabled code required)[k]? = required[k]? := by
  induction code with
  | nil => exact fun _ _ _ => rfl
  | cons instr rest ih =>
    intro required k hk
    unfold flags
    rw [ih _ k (by rw [length_append]; exact Nat.lt_add_right _ hk), getElem?_append_left hk]

variable {env : List (Variable T)}

theorem any_of_lookup {idxs : List Nat} : ∀ {args : List (Variable T)},
    lookup env idxs = some args → args.any requiresGrad =
      idxs.any (fun a => (env.map requiresGrad)[a]?.getD false) := by
  induction idxs with
  | nil =>
    intro args h
    cases h
    rfl
  | cons a idxs ih =>
    intro args h
    unfold lookup at h
    rw [mapM_cons, bind_eq_bind, bind_eq_some_iff] at h
    obtain ⟨w, hw, h⟩ := h
    rw [bind_eq_bind, bind_eq_some_iff] at h
    obtain ⟨rest, hrest, h⟩ := h
    cases h
    rw [any_cons, any_cons, ih hrest, getElem?_map, hw]
    rfl

variable {instr : Instr T} {rest : List (Instr T)} {args : List (Variable T)}

theorem getElem?_flags_cons (hargs : lookup env instr.args = some args) :
    (flags gradEnabled (instr :: rest) (env.map requiresGrad))[env.length]? =
      some (records gradEnabled args) := by
  unfold flags
  rw [getElem?_flags, getElem?_append_right (by rw [length_map]), length_map,
    Nat.sub_self, ← any_of_lookup hargs]
  · rfl
  · rw [length_append, length_map]
    exact Nat.lt_succ_self _

theorem flags_cons {out : T} {heap : Heap T} (hargs : lookup env instr.args = some args) :
    flags gradEnabled (instr :: rest) (env.map requiresGrad) =
      flags gradEnabled rest ((env ++ [(instr.op.finish gradEnabled args out heap).1]).map
        requiresGrad) := by
  conv_lhs => unfold flags
  rw [← any_of_lookup hargs, map_append, map_singleton, finish_fst]

theorem flags_run (code : List (Instr T)) : ∀ {env env' : List (Variable T)} {heap heap' : Heap T},
    run gradEnabled code env heap = .ok (env', heap') →
      env'.map requiresGrad = flags gradEnabled code (env.map requiresGrad) := by
  induction code with
  | nil =>
    intro env env' heap heap' hrun
    cases hrun
    rfl
  | cons instr rest ih =>
    intro env env' heap heap' hrun
    obtain ⟨args, out, hargs, hrest⟩ := run_cons_inv hrun
    rw [ih hrest, flags_cons hargs]

theorem steps_tensors : Steps gradEnabled gradEnabled' (fun v v' : Variable T => v.tensor = v'.tensor)
    (fun _ env heap env' heap' =>
      Forall₂ (fun v v' => v.tensor = v'.tensor) env env' ∧ heap'.next = heap.next) where
  tensor _ _ h := h
  env h := h.1
  step := by
    intro instr rest env heap env' heap' args args' out h _ _ _
    refine ⟨rel_append h.1 (Forall₂.cons ?_ Forall₂.nil), ?_⟩
    · rw [finish_fst, finish_fst]
    · rw [finish_next, finish_next, h.2]

end Autograd
end Rustorch
