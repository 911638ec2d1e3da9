import Rustorch.Autograd.Tracing

/-!
# A function run again on fresh leaves

The nodes of a function that ran on fresh leaves are paired with those of the same function on its
own inputs: a result that requires gradients has its node on both sides, and a leaf stands for the
edge of its input.  Relays along the two sets of nodes then leave the same gradients.
-/

namespace Rustorch
namespace Autograd

open Relay List Variable

variable {T : Type} {place : Nat ⊕ Nat → Option (Nat ⊕ Nat)} {gradEnabled : Bool}

/-! ## Mirrored edges -/

def emitRecord (gradEnabled : Bool) (record : Record T) :
    WithZero T → List ((Nat ⊕ Nat) × WithZero T) :=
  WithZero.recZeroCoe [] (fun g =>
    parts held (record.nextEdges.zip ((record.apply gradEnabled g).getD [])))

theorem emitHeld_graph (heap : Heap T) (k : Nat) :
    emitHeld (heap.graph gradEnabled) k = emitRecord gradEnabled (heap.nodes k) := rfl

theorem emitRecord_absent (x : WithZero T) : emitRecord gradEnabled Record.absent x = [] := by
  cases x using WithZero.recZeroCoe with
  | zero => rfl
  | coe g => rfl

theorem emitRecord_op (op : Op T) (args : List (Variable T)) (g : T) :
    emitRecord gradEnabled (op.record args) (g : WithZero T) =
      parts held ((args.map edge).zip
        ((op.vjp (args.map tensor) g).map some)) := rfl

/-- An edge that leads where the place of another edge leads. -/
def MirrorsEdge (place : Nat ⊕ Nat → Option (Nat ⊕ Nat)) (e e' : Edge Nat Nat) : Prop :=
  e'.dest = e.dest.bind place

/-- A variable that holds the same tensor, and whose edge is mirrored. -/
structure Mirrors (place : Nat ⊕ Nat → Option (Nat ⊕ Nat)) (v v' : Variable T) : Prop where
  tensor : v.tensor = v'.tensor
  edge : MirrorsEdge place v.edge v'.edge

theorem carry_parts {edges edges' : List (Edge Nat Nat)}
    (h : Forall₂ (MirrorsEdge place) edges edges') : ∀ entries : List (Option T),
      carry place (parts held (edges.zip entries)) = parts held (edges'.zip entries) := by
  induction h with
  | nil => exact fun _ => rfl
  | @cons e e' es es' hedge _ ih =>
    intro entries
    cases entries with
    | nil => rfl
    | cons entry entries =>
      have hsplit : ∀ (d : Edge Nat Nat) (ds : List (Edge Nat Nat)),
          parts held ((d :: ds).zip (entry :: entries)) =
            parts held [(d, entry)] ++ parts held (ds.zip entries) :=
        fun d ds => filterMap_append (l := [(d, entry)])
      have hone : carry place (parts held [(e, entry)]) = parts held [(e', entry)] := by
        unfold MirrorsEdge at hedge
        cases hd : e.dest with
        | none =>
          simp [parts, carry, hd, hedge]
        | some d =>
          cases entry with
          | none => simp [parts, carry]
          | some g =>
            cases hplace : place d with
            | none => simp [parts, carry, hd, hedge, hplace]
            | some d' => simp [parts, carry, hd, hedge, hplace]
      rw [hsplit, hsplit, ← ih entries, ← hone]
      exact filterMap_append

variable {args : List (Variable T)}

theorem carry_record (op : Op T) {args' : List (Variable T)}
    (h : Forall₂ (Mirrors place) args args') (x : WithZero T) :
    emitRecord gradEnabled (op.record args') x =
      carry place (emitRecord gradEnabled (op.record args) x) := by
  cases x using WithZero.recZeroCoe with
  | zero => rfl
  | coe g =>
    have hedges : Forall₂ (MirrorsEdge place) (args.map edge)
        (args'.map edge) := by
      rw [forall₂_map_left_iff, forall₂_map_right_iff]
      exact h.imp (fun _ _ hv => hv.edge)
    rw [emitRecord_op, emitRecord_op, carry_parts hedges, tensors_eq (fun _ _ hv => hv.tensor) h]

theorem parts_detached {edges : List (Edge Nat Nat)} (h : ∀ e ∈ edges, e.dest = none)
    (entries : List (Option T)) : parts held (edges.zip entries) = [] := by
  apply filterMap_eq_nil_iff.2
  rintro ⟨e, entry⟩ hzip
  simp only [h e (of_mem_zip hzip).1]

/-- Arguments that need no gradients make a node that nothing leaves. -/
theorem emitRecord_detached (op : Op T) (h : args.any requiresGrad = false)
    (x : WithZero T) : emitRecord gradEnabled (op.record args) x = [] := by
  cases x using WithZero.recZeroCoe with
  | zero => rfl
  | coe g =>
    apply parts_detached
    intro e he
    obtain ⟨v, hv, rfl⟩ := mem_map.1 he
    have hfalse := any_eq_false.1 h v hv
    rw [v.edge_dest, if_neg hfalse]

theorem exists_part (op : Op T) {v : Variable T} {d : Nat ⊕ Nat} (hv : v ∈ args)
    (hd : v.edge.dest = some d) (g : T) :
    ∃ part ∈ emitRecord gradEnabled (op.record args) (g : WithZero T), part.1 = d ∧ part.2 ≠ 0 := by
  obtain ⟨i, hi⟩ := mem_iff_getElem?.1 hv
  have hlt : i < (op.vjp (args.map tensor) g).length := by
    rw [op.vjp_length, length_map]
    exact (List.getElem?_eq_some_iff.1 hi).1
  obtain ⟨y, hy⟩ : ∃ y, (op.vjp (args.map tensor) g)[i]? = some y :=
    ⟨_, getElem?_eq_getElem hlt⟩
  refine ⟨(d, (y : WithZero T)), ?_, rfl, WithZero.coe_ne_zero⟩
  rw [emitRecord_op]
  apply mem_filterMap.2
  refine ⟨(v.edge, some y), ?_, ?_⟩
  · apply mem_iff_getElem?.2
    refine ⟨i, getElem?_zip_eq_some.2 ⟨?_, ?_⟩⟩
    · rw [getElem?_map, hi]
      rfl
    · rw [getElem?_map, hy]
      rfl
  · simp only [hd]
    rfl

/-! ## The two runs -/

/-- The node on the inputs that a node on the leaves stands for. -/
def replayNode (inputs : List (Variable T)) (first : Nat) (required : List Bool) (k : Nat) :
    Option Nat :=
  if inputs.length ≤ k ∧ required[k]? = some true then some (first + (k - inputs.length)) else none

/-- A leaf stands for the edge of its input. -/
def replayPlace (inputs : List (Variable T)) (first : Nat) (required : List Bool) :
    Nat ⊕ Nat → Option (Nat ⊕ Nat)
  | .inl k => (replayNode inputs first required k).map .inl
  | .inr a => (inputs[a]?).bind (fun v => v.edge.dest)

theorem replayPlace_inl (inputs : List (Variable T)) (first : Nat) (required : List Bool) (k : Nat) :
    replayPlace inputs first required (.inl k) =
      (replayNode inputs first required k).map .inl := rfl

/-- The run on fresh leaves beside the run on the inputs, before some code.  A node that counts
passes its gradient on to a place that counts. -/
structure Replays (inputs : List (Variable T)) (first : Nat) (required : List Bool)
    (code : List (Instr T)) (env : List (Variable T)) (heap : Heap T) (env' : List (Variable T))
    (heap' : Heap T) : Prop where
  flags : flags true code (env'.map requiresGrad) = required
  vars : Forall₂ (fun v v' => Mirrors (replayPlace inputs first required) v v' ∧
    (v'.requiresGrad = true → v.requiresGrad = true)) env env'
  le : inputs.length ≤ env.length
  next : heap.next = env.length
  next' : heap'.next = first + (env.length - inputs.length)
  unused : ∀ k, heap.next ≤ k → heap.nodes k = Record.absent
  paired : ∀ k, inputs.length ≤ k → k < heap.next →
    Paired (replayPlace inputs first required) (emitHeld (heap.graph true))
      (emitHeld (heap'.graph true)) (replayNode inputs first required) k
  passes : ∀ k, inputs.length ≤ k → k < heap.next → replayNode inputs first required k ≠ none →
    ∀ g : T, ∃ part ∈ emitHeld (heap.graph true) k (g : WithZero T),
      replayPlace inputs first required part.1 ≠ none ∧ part.2 ≠ 0

section Step

variable {inputs : List (Variable T)} {first : Nat} {required : List Bool}

variable {R : Variable T → Variable T → Prop} {args args' : List (Variable T)} {gradEnabled : Bool}
  {op : Op T} {out : T} {heap : Heap T} {later : Bool}

theorem any_of_forall₂ (hR : ∀ v v', R v v' → v'.requiresGrad = true → v.requiresGrad = true)
    (h : Forall₂ R args args') :
    args'.any requiresGrad = true → args.any requiresGrad = true := by
  induction h with
  | nil => exact id
  | cons hv _ ih =>
    intro hany
    rw [any_cons, Bool.or_eq_true] at hany ⊢
    exact hany.imp (hR _ _ hv) ih

/-- The counterpart of an argument. -/
theorem exists_left_of_forall₂ (h : Forall₂ R args args') {v' : Variable T} (hv' : v' ∈ args') :
    ∃ v ∈ args, R v v' := by
  induction h with
  | nil => cases hv'
  | @cons w w' ws ws' hw _ ih =>
    rcases mem_cons.1 hv' with heq | hin
    · exact ⟨w, mem_cons_self, heq ▸ hw⟩
    · obtain ⟨v, hv, hR⟩ := ih hin
      exact ⟨v, mem_cons_of_mem w hv, hR⟩

theorem exists_right_of_forall₂ (h : Forall₂ R args args') {v : Variable T} (hv : v ∈ args) :
    ∃ v', R v v' := by
  induction h with
  | nil => cases hv
  | @cons w w' ws ws' hw _ ih =>
    rcases mem_cons.1 hv with heq | hin
    · exact ⟨w', heq ▸ hw⟩
    · exact ih hin

theorem finish_dest : (op.finish gradEnabled args out heap).1.edge.dest =
      if records gradEnabled args then some (.inl heap.next) else none := by
  rw [finish_fst, edge_dest]
  cases records gradEnabled args with
  | false => rfl
  | true => rfl

theorem emitHeld_finish_self (hrecords : records gradEnabled args = true) :
    emitHeld ((op.finish gradEnabled args out heap).2.graph later) heap.next =
      emitRecord later (op.record args) := by
  rw [emitHeld_graph, finish_nodes, if_pos hrecords, Function.update_self]

theorem emitHeld_finish_of_ne {k : Nat} (hk : k ≠ heap.next) :
    emitHeld ((op.finish gradEnabled args out heap).2.graph later) k =
      emitHeld (heap.graph later) k := by
  rw [emitHeld_graph, finish_nodes_of_ne hk, emitHeld_graph]

theorem steps_replays : Steps true true
    (fun v v' => Mirrors (replayPlace inputs first required) v v' ∧
      (v'.requiresGrad = true → v.requiresGrad = true))
    (Replays inputs first required) where
  tensor v v' h := h.1.tensor
  env h := h.vars
  step := by
    intro instr rest env heap env' heap' args args' out h hargs hargs' hrel
    have hlength : env.length = env'.length := h.vars.length_eq
    have hmirrors : Forall₂ (Mirrors (replayPlace inputs first required)) args args' :=
      hrel.imp (fun _ _ hv => hv.1)
    have himp : records true args' = true → records true args = true :=
      any_of_forall₂ (fun _ _ hv => hv.2) hrel
    -- the flag of the new position says whether it has a counterpart
    have hflag : required[env.length]? = some (records true args') := by
      rw [← h.flags, hlength]
      exact getElem?_flags_cons hargs'
    have hpick : replayNode inputs first required heap.next =
        if records true args' then some heap'.next else none := by
      unfold replayNode
      rw [h.next, h.next', hflag]
      cases records true args' with
      | false => simp
      | true => simp [h.le]
    have hfirst : ∀ k k', inputs.length ≤ k → k < heap.next →
        replayNode inputs first required k = some k' → k' ≠ heap'.next := by
      intro k k' hle hk hsome
      unfold replayNode at hsome
      split at hsome
      · cases hsome
        rw [h.next']
        have := h.next
        omega
      · cases hsome
    constructor
    · rw [← h.flags]
      exact (flags_cons hargs').symm
    · apply rel_append h.vars
      refine Forall₂.cons ⟨⟨?_, ?_⟩, ?_⟩ Forall₂.nil
      · rw [finish_fst, finish_fst]
      · unfold MirrorsEdge
        rw [finish_dest, finish_dest]
        cases hany' : records true args' with
        | false =>
          cases records true args with
          | false => rfl
          | true =>
            rw [if_pos rfl, Option.bind_some, replayPlace_inl, hpick, hany']
            rfl
        | true =>
          rw [himp hany', if_pos rfl, if_pos rfl, Option.bind_some, replayPlace_inl, hpick, hany']
          rfl
      · rw [finish_fst, finish_fst]
        simpa [records] using himp
    · rw [length_append]
      exact Nat.le_add_right_of_le h.le
    · rw [finish_next, h.next, length_append]
      rfl
    · rw [finish_next, h.next', length_append, length_singleton]
      have := h.le
      omega
    · intro k hk
      rw [finish_next] at hk
      rw [finish_nodes_of_ne (by omega)]
      exact h.unused k (by omega)
    · intro k hle hk
      rw [finish_next] at hk
      rcases Nat.lt_succ_iff_lt_or_eq.1 hk with hlt | rfl
      · -- an earlier node is not touched
        have hold := h.paired k hle hlt
        constructor
        · exact hold.counterpart
        · intro k' hk' x
          rw [emitHeld_finish_of_ne (hfirst k k' hle hlt hk'), emitHeld_finish_of_ne (by omega)]
          exact hold.same k' hk' x
        · intro hnone x
          rw [emitHeld_finish_of_ne (by omega)]
          exact hold.nothing hnone x
      · constructor
        · rfl
        · intro k' hk' x
          rw [hpick] at hk'
          split at hk'
          · next hany' =>
              cases hk'
              rw [emitHeld_finish_self hany', emitHeld_finish_self (himp hany')]
              exact carry_record _ hmirrors x
          · cases hk'
        · intro hnone x
          have hany' : records true args' = false := by
            rw [hpick] at hnone
            cases hany' : records true args' with
            | false => rfl
            | true =>
              rw [hany'] at hnone
              cases hnone
          cases hany : records true args with
          | false =>
            rw [emitHeld_graph, finish_nodes, if_neg (by rw [hany]; exact Bool.false_ne_true),
              h.unused heap.next (le_refl _), emitRecord_absent]
            rfl
          | true =>
            rw [emitHeld_finish_self hany, ← carry_record _ hmirrors]
            exact emitRecord_detached _ hany' x
    · intro k hle hk hsome g
      rw [finish_next] at hk
      rcases Nat.lt_succ_iff_lt_or_eq.1 hk with hlt | rfl
      · rw [emitHeld_finish_of_ne (by omega)]
        exact h.passes k hle hlt hsome g
      · have hany' : records true args' = true := by
          rw [hpick] at hsome
          by_contra hany'
          rw [if_neg hany'] at hsome
          exact hsome rfl
        rw [emitHeld_finish_self (himp hany')]
        obtain ⟨v', hv', hrequires⟩ := any_eq_true.1 hany'
        obtain ⟨v, hv, hmirror, _⟩ := exists_left_of_forall₂ hrel hv'
        have hedge : v'.edge.dest = v.edge.dest.bind _ := hmirror.edge
        rw [v'.edge_dest, if_pos hrequires] at hedge
        cases hd : v.edge.dest with
        | none =>
          rw [hd] at hedge
          cases hedge
        | some d =>
          obtain ⟨part, hpart, hdest, hne⟩ := exists_part instr.op hv hd g
          refine ⟨part, hpart, ?_, hne⟩
          rw [hd, Option.bind_some] at hedge
          rw [hdest, ← hedge]
          exact Option.some_ne_none _

end Step

end Autograd
end Rustorch
