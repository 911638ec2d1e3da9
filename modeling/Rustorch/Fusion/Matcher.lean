import Mathlib.Data.List.Sort
import Rustorch.Fusion.Pattern
import Rustorch.Lib.Runs
import Rustorch.Lib.Separated

/-!
# Matching chains of operations in a trace

`find_matches` tries the patterns, longest first, at every node that no match covers.  The walk
from a node follows the first consumer that it finds.  What it returns are disjoint chains of the
patterns; none is missing unless one goes through another consumer (`matcher_meets`).
-/

namespace Rustorch
namespace Fusion

open List Runs

structure TraceNode where
  opKind : OpKind
  inputs : List Nat
  deriving DecidableEq, Repr

structure Match where
  patternLabel : String
  nodeIndices : List Nat
  deriving DecidableEq, Repr

def opKindMatches (actual expected : OpKind) : Bool :=
  expected == .any || actual == expected

/-- The first node whose primary input is `current`. -/
def nextLink (tr : List TraceNode) (current : Nat) : Option Nat :=
  tr.findIdx? fun node => node.inputs.head? == some current

def tryMatchChain (tr : List TraceNode) : Nat → List OpKind → Option (List Nat)
  | _, [] => some []
  | current, expected :: rest =>
    match tr[current]? with
    | none => none
    | some node =>
      if opKindMatches node.opKind expected then
        match rest with
        | [] => some [current]
        | kind :: kinds =>
          match nextLink tr current with
          | none => none
          -- the walk does not come back to try another consumer
          | some next => (tryMatchChain tr next (kind :: kinds)).map (current :: ·)
      else
        none

structure Scan where
  covered : List Bool
  found : List Match
  deriving DecidableEq, Repr

open Scan

namespace Scan

/-- The indices of a chain are nodes of the trace (`IsChainOf.lt_length`). -/
def covers (st : Scan) (i : Nat) : Bool :=
  st.covered.getD i false

def emit (st : Scan) (pattern : Pattern) (chain : List Nat) : Scan where
  covered := chain.foldl (fun covered i => covered.set i true) st.covered
  found := st.found ++ [⟨pattern.label, chain⟩]

/-- The chain that a pattern gives at a start, when no node of it is covered. -/
def hit (tr : List TraceNode) (st : Scan) (pattern : Pattern) (start : Nat) :
    Option (List Nat) :=
  -- a chain that meets a covered node is dropped whole
  if st.covers start then
    none
  else
    (tryMatchChain tr start pattern.chain).filter fun chain => !chain.any st.covers

def visit (tr : List TraceNode) (st : Scan) (at' : Pattern × Nat) : Scan :=
  match hit tr st at'.1 at'.2 with
  | some chain => st.emit at'.1 chain
  | none => st

def scanPattern (tr : List TraceNode) (st : Scan) (pattern : Pattern) : Scan :=
  if pattern.isEmpty then
    st
  else
    (range tr.length).foldl (fun st start => visit tr st (pattern, start)) st

def initial (tr : List TraceNode) : Scan :=
  ⟨replicate tr.length false, []⟩

end Scan

def byLength (patterns : List Pattern) : List Pattern :=
  patterns.insertionSort fun a b => b.len ≤ a.len

def findMatches (tr : List TraceNode) (patterns : List Pattern) : List Match :=
  if tr.isEmpty || patterns.isEmpty then
    []
  else
    -- the sort is stable, and so is the one of the matches by their first node
    let scan := (byLength patterns).foldl (scanPattern tr) (.initial tr)
    scan.found.insertionSort fun a b => a.nodeIndices.headD 0 ≤ b.nodeIndices.headD 0

/-! ## What the matcher is for -/

/-- Every node reads nodes before it. -/
def Acyclic (tr : List TraceNode) : Prop :=
  ∀ (i : Nat) (node : TraceNode), tr[i]? = some node → ∀ j ∈ node.inputs, j < i

/-- A node of the wanted kind. -/
def KindAt (tr : List TraceNode) (i : Nat) (kind : OpKind) : Prop :=
  ∃ node, tr[i]? = some node ∧ opKindMatches node.opKind kind = true

/-- The primary input of node `j` is `i`. -/
def Feeds (tr : List TraceNode) (i j : Nat) : Prop :=
  ∃ node, tr[j]? = some node ∧ node.inputs.head? = some i

/-- Nodes of the pattern's kinds, each the primary input of the next. -/
structure IsChainOf (tr : List TraceNode) (kinds : List OpKind) (nodes : List Nat) : Prop where
  kinds : Forall₂ (KindAt tr) nodes kinds
  links : nodes.IsChain (Feeds tr)

def Sound (tr : List TraceNode) (patterns : List Pattern) (found : List Match) : Prop :=
  ∀ m ∈ found, ∃ p ∈ patterns, p.label = m.patternLabel ∧ p.chain ≠ [] ∧
    IsChainOf tr p.chain m.nodeIndices

/-- No node belongs to two matches. -/
def DisjointMatches (found : List Match) : Prop :=
  found.Pairwise fun a b => a.nodeIndices.Disjoint b.nodeIndices

/-- Every chain of a pattern shares a node with a match that is at least as long. -/
def Complete (tr : List TraceNode) (patterns : List Pattern) (found : List Match) : Prop :=
  ∀ p ∈ patterns, p.chain ≠ [] → ∀ nodes, IsChainOf tr p.chain nodes →
    ∃ m ∈ found, p.len ≤ m.nodeIndices.length ∧ ∃ i ∈ nodes, i ∈ m.nodeIndices

/-- The visits of the scan in order. -/
def visits (tr : List TraceNode) (patterns : List Pattern) : List (Pattern × Nat) :=
  ((byLength patterns).filter fun p => !p.isEmpty).flatMap fun p =>
    (range tr.length).map fun start => (p, start)

/-- The scan before a visit. -/
def scanned (tr : List TraceNode) (before : List (Pattern × Nat)) : Scan :=
  run (visit tr) (.initial tr) before

/-- A chain of uncovered nodes begins at the start of a visit that finds nothing. -/
structure Missed (tr : List TraceNode) (st : Scan) (p : Pattern) (start : Nat)
    (nodes : List Nat) : Prop where
  chain : IsChainOf tr p.chain nodes
  root : nodes.head? = some start
  uncovered : ∀ i ∈ nodes, st.covers i = false
  silent : st.hit tr p start = none

structure Meets (tr : List TraceNode) (patterns : List Pattern) : Prop where
  sound : Sound tr patterns (findMatches tr patterns)
  disjoint : DisjointMatches (findMatches tr patterns)
  complete : Complete tr patterns (findMatches tr patterns)

/-- The walk of a visit misses no chain. -/
def Walked (tr : List TraceNode) (st : Scan) (v : Pattern × Nat) : Prop :=
  ∀ nodes, ¬ Missed tr st v.1 v.2 nodes

/-- A walk for an equally long pattern runs into every chain that the walk of a visit misses. -/
def Crossed (tr : List TraceNode) (patterns : List Pattern) (st : Scan) (v : Pattern × Nat) :
    Prop :=
  ∀ nodes, Missed tr st v.1 v.2 nodes → ∃ q ∈ patterns, q.len = v.1.len ∧
    ∃ start chain, tryMatchChain tr start q.chain = some chain ∧ ∃ i ∈ nodes, i ∈ chain

def primaryInput (tr : List TraceNode) (j : Nat) : Option Nat :=
  tr[j]?.bind fun node => node.inputs.head?

/-- No node is the primary input of two nodes. -/
def Unbranched (tr : List TraceNode) : Prop :=
  ∀ j < tr.length, ∀ k < tr.length, primaryInput tr j = primaryInput tr k →
    primaryInput tr j = none ∨ j = k

instance (tr : List TraceNode) : Decidable (Unbranched tr) :=
  inferInstanceAs (Decidable (∀ j < tr.length, ∀ k < tr.length, _ → _))

/-! ## The walk -/

section Walk

variable {tr : List TraceNode}

variable {kinds : List OpKind}

theorem IsChainOf.lt_length {nodes : List Nat} (h : IsChainOf tr kinds nodes) :
    ∀ i ∈ nodes, i < tr.length := by
  intro i hi
  obtain ⟨l, hl, rfl⟩ := mem_iff_getElem.1 hi
  obtain ⟨node, hnode, _⟩ := (forall₂_iff_get.1 h.kinds).2 l hl
    ((forall₂_iff_get.1 h.kinds).1 ▸ hl)
  exact (List.getElem?_eq_some_iff.1 hnode).1

theorem IsChainOf.length_eq {nodes : List Nat} (h : IsChainOf tr kinds nodes) :
    nodes.length = kinds.length :=
  h.kinds.length_eq

theorem feeds_nextLink {current next : Nat} (h : nextLink tr current = some next) :
    Feeds tr current next := by
  obtain ⟨hlt, hfirst, _⟩ := findIdx?_eq_some_iff_getElem.1 h
  exact ⟨_, getElem?_eq_getElem hlt, by simpa using hfirst⟩

theorem tryMatchChain_sound (hkinds : kinds ≠ []) :
    ∀ {start nodes}, tryMatchChain tr start kinds = some nodes →
      IsChainOf tr kinds nodes ∧ nodes.head? = some start := by
  induction kinds with
  | nil => exact absurd rfl hkinds
  | cons kind rest ih =>
    intro start nodes h
    unfold tryMatchChain at h
    split at h
    · cases h
    · next node hnode =>
        split at h
        · next hkind =>
            split at h
            · cases h
              exact ⟨⟨.cons ⟨node, hnode, hkind⟩ .nil, .singleton _⟩, rfl⟩
            · split at h
              · cases h
              · next next hnext =>
                  obtain ⟨tail, htail, rfl⟩ := Option.map_eq_some_iff.1 h
                  obtain ⟨hchain, hhead⟩ := ih (cons_ne_nil _ _) htail
                  refine ⟨⟨.cons ⟨node, hnode, hkind⟩ hchain.kinds, ?_⟩, rfl⟩
                  obtain ⟨tail, rfl⟩ := head?_eq_some_iff.1 hhead
                  exact isChain_cons_cons.2 ⟨feeds_nextLink hnext, hchain.links⟩
        · cases h

/-- Without branches the first consumer is the only one. -/
theorem Unbranched.nextLink (h : Unbranched tr) {i j : Nat} (hfeeds : Feeds tr i j) :
    nextLink tr i = some j := by
  have hprimary : ∀ {k}, Feeds tr i k → primaryInput tr k = some i ∧ k < tr.length := by
    rintro k ⟨node, hnode, hhead⟩
    exact ⟨Option.bind_eq_some_iff.2 ⟨node, hnode, hhead⟩, (List.getElem?_eq_some_iff.1 hnode).1⟩
  obtain ⟨hj, hjlt⟩ := hprimary hfeeds
  cases hnext : Fusion.nextLink tr i with
  | none =>
    obtain ⟨node, hnode, hhead⟩ := hfeeds
    have hno := findIdx?_eq_none_iff.1 hnext node (mem_of_getElem? hnode)
    simp [hhead] at hno
  | some k =>
    obtain ⟨hk, hklt⟩ := hprimary (feeds_nextLink hnext)
    rcases h j hjlt k hklt (hj.trans hk.symm) with hnone | rfl
    · cases hj.symm.trans hnone
    · rfl

theorem Unbranched.tryMatchChain (h : Unbranched tr) : ∀ {start nodes},
    IsChainOf tr kinds nodes → nodes.head? = some start →
      tryMatchChain tr start kinds = some nodes := by
  induction kinds with
  | nil =>
    rintro start nodes ⟨hkinds, _⟩ hhead
    cases hkinds
    cases hhead
  | cons kind rest ih =>
    rintro start nodes ⟨hkinds, hlinks⟩ hhead
    cases hkinds with
    | @cons i _ tail _ hkind hrest =>
      cases hhead
      obtain ⟨node, hnode, hmatches⟩ := hkind
      cases hrest with
      | nil => simp [Fusion.tryMatchChain, hnode, hmatches]
      | @cons next _ _ _ hnext hmore =>
        obtain ⟨hfeeds, hlinks⟩ := isChain_cons_cons.1 hlinks
        simp only [Fusion.tryMatchChain, hnode, hmatches, if_true, h.nextLink hfeeds]
        rw [ih ⟨.cons hnext hmore, hlinks⟩ rfl, Option.map_some]

end Walk

/-! ## One visit -/

section Visit

variable {tr : List TraceNode} {st : Scan} {p : Pattern} {start : Nat} {chain : List Nat}

theorem hit_eq_some : st.hit tr p start = some chain ↔
    st.covers start = false ∧ tryMatchChain tr start p.chain = some chain ∧
      ∀ i ∈ chain, st.covers i = false := by
  unfold hit
  split
  · next h => simp [h]
  · next h =>
      have hstart : st.covers start = false := Bool.eq_false_iff.2 h
      simp [Option.filter_eq_some_iff, hstart]

theorem covers_foldl (covered : List Bool) {i : Nat} (hi : i < covered.length) :
    ∀ chain : List Nat, (chain.foldl (fun covered i => covered.set i true) covered).getD i false =
      (decide (i ∈ chain) || covered.getD i false) := by
  intro chain
  induction chain generalizing covered with
  | nil => simp
  | cons j chain ih =>
    rw [foldl_cons, ih (covered.set j true) (by simpa using hi)]
    by_cases hij : i = j
    · subst hij
      simp [hi]
    · simp [hij, getElem?_set_ne (Ne.symm hij)]

theorem length_foldl_set (covered : List Bool) (chain : List Nat) :
    (chain.foldl (fun covered i => covered.set i true) covered).length = covered.length := by
  induction chain generalizing covered with
  | nil => rfl
  | cons j chain ih => rw [foldl_cons, ih, length_set]

/-- What the scan keeps: the covered nodes are those of the matches. -/
structure Scan.Valid (tr : List TraceNode) (patterns : List Pattern) (st : Scan) : Prop where
  size : st.covered.length = tr.length
  covered : ∀ i, st.covers i = true ↔ ∃ m ∈ st.found, i ∈ m.nodeIndices
  sound : Sound tr patterns st.found
  disjoint : DisjointMatches st.found

theorem valid_initial (tr : List TraceNode) (patterns : List Pattern) :
    (initial tr).Valid tr patterns where
  size := length_replicate
  covered := by
    intro i
    have hfree : (initial tr).covers i = false := by
      rw [covers, initial, getD_eq_getElem?_getD, getElem?_replicate]
      split
      · rfl
      · rfl
    rw [hfree]
    simp [initial]
  sound := fun _ hm => absurd hm not_mem_nil
  disjoint := .nil

variable {patterns : List Pattern}

theorem valid_emit (hst : st.Valid tr patterns) (hp : p ∈ patterns) (hne : p.chain ≠ [])
    (hchain : IsChainOf tr p.chain chain) (hfree : ∀ i ∈ chain, st.covers i = false) :
    (st.emit p chain).Valid tr patterns where
  size := (length_foldl_set _ _).trans hst.size
  covered := by
    intro i
    simp only [emit, covers, mem_append, mem_singleton, or_and_right, exists_or, exists_eq_left]
    by_cases hi : i < st.covered.length
    · rw [covers_foldl _ hi, Bool.or_eq_true, decide_eq_true_iff, or_comm]
      exact or_congr_left (hst.covered i)
    · have hout : i ∉ chain := fun hmem => hi (hst.size ▸ hchain.lt_length i hmem)
      -- past the end of the list the default answers, before and after
      have hold := hst.covered i
      simp only [covers, getD_eq_getElem?_getD, getElem?_eq_none (Nat.le_of_not_lt hi)] at hold
      simp only [getD_eq_getElem?_getD, hout, or_false, ← hold,
        getElem?_eq_none (length_foldl_set st.covered chain ▸ Nat.le_of_not_lt hi)]
  sound := by
    intro m hm
    rcases mem_append.1 hm with hm | hm
    · exact hst.sound m hm
    · cases mem_singleton.1 hm
      exact ⟨p, hp, rfl, hne, hchain⟩
  disjoint := by
    refine pairwise_append.2 ⟨hst.disjoint, pairwise_singleton _ _, ?_⟩
    intro m hm m' hm' i hi hi'
    cases mem_singleton.1 hm'
    -- a node of an old match is covered, and those of the new chain are not
    have hcovered := (hst.covered i).2 ⟨m, hm, hi⟩
    rw [hfree i hi'] at hcovered
    cases hcovered

theorem valid_visit (hp : p ∈ patterns) (hne : p.chain ≠ []) (hst : st.Valid tr patterns) :
    (visit tr st (p, start)).Valid tr patterns := by
  unfold visit
  split
  · next chain hhit =>
      obtain ⟨_, hwalk, hfree⟩ := hit_eq_some.1 hhit
      exact valid_emit hst hp hne (tryMatchChain_sound hne hwalk).1 hfree
  · exact hst

end Visit

/-! ## The scan -/

section Whole

variable {tr : List TraceNode} {patterns : List Pattern}

theorem mem_visits {p : Pattern} {start : Nat} :
    (p, start) ∈ visits tr patterns ↔ p ∈ patterns ∧ p.chain ≠ [] ∧ start < tr.length := by
  have hsort : p ∈ byLength patterns ↔ p ∈ patterns :=
    (perm_insertionSort _ _).mem_iff
  simp [visits, hsort, Pattern.isEmpty, and_assoc]

theorem visits_pairwise : (visits tr patterns).Pairwise fun v w => w.1.len ≤ v.1.len := by
  have hsort : (byLength patterns).Pairwise fun a b => b.len ≤ a.len :=
    pairwise_insertionSort _ _
  refine pairwise_flatMap.2 ⟨?_, ?_⟩
  · intro p _
    exact pairwise_map.2 (pairwise_iff_forall_sublist.2 fun _ => le_rfl)
  · refine (hsort.filter _).imp ?_
    intro p q hpq v hv w hw
    obtain ⟨_, _, rfl⟩ := mem_map.1 hv
    obtain ⟨_, _, rfl⟩ := mem_map.1 hw
    exact hpq

theorem foldl_scanPattern (ps : List Pattern) (st : Scan) :
    ps.foldl (scanPattern tr) st =
      run (visit tr) st ((ps.filter fun p => !p.isEmpty).flatMap fun p =>
        (range tr.length).map fun start => (p, start)) := by
  induction ps generalizing st with
  | nil => rfl
  | cons p ps ih =>
    rw [foldl_cons, ih, scanPattern]
    cases hempty : p.isEmpty with
    | true => simp [hempty]
    | false => simp [hempty, run, foldl_map]

theorem findMatches_perm :
    (findMatches tr patterns).Perm (scanned tr (visits tr patterns)).found := by
  have hscan : scanned tr (visits tr patterns) =
      (byLength patterns).foldl (scanPattern tr) (.initial tr) :=
    (foldl_scanPattern _ _).symm
  unfold findMatches
  split
  · next hempty =>
      have hnone : visits tr patterns = [] := by
        rw [eq_nil_iff_forall_not_mem]
        rintro ⟨p, start⟩ hmem
        obtain ⟨hp, _, hstart⟩ := mem_visits.1 hmem
        rcases Bool.or_eq_true_iff.1 hempty with htr | hps
        · rw [isEmpty_iff.1 htr] at hstart
          exact absurd hstart (Nat.not_lt_zero _)
        · rw [isEmpty_iff.1 hps] at hp
          exact not_mem_nil hp
      rw [hnone]
      exact .nil
  · rw [hscan]
    exact perm_insertionSort _ _

theorem valid_scanned {before : List (Pattern × Nat)}
    (h : ∀ v ∈ before, v ∈ visits tr patterns) : (scanned tr before).Valid tr patterns := by
  -- the run visits pairs of `visits` only, so each chain is one of a listed pattern
  refine @invariant _ _ (visit tr) (fun _ v => v ∈ visits tr patterns)
    _ _ (Scan.Valid tr patterns) ?_ ?_ (valid_initial tr patterns)
  · rintro st ⟨p, start⟩ hmem hst
    obtain ⟨hp, hne, _⟩ := mem_visits.1 hmem
    exact valid_visit hp hne hst
  · refine along_iff.2 ?_
    rintro _ v _ rfl
    exact h v (mem_append_right _ mem_cons_self)

variable {st : Scan}

theorem mem_found_visit {v : Pattern × Nat} {m : Match} : m ∈ (visit tr st v).found ↔
      m ∈ st.found ∨ st.hit tr v.1 v.2 = some m.nodeIndices ∧ v.1.label = m.patternLabel := by
  unfold visit
  split
  · next chain hhit =>
      obtain ⟨label, nodes⟩ := m
      simp only [emit, mem_append, mem_singleton, Match.mk.injEq, Option.some.injEq, hhit]
      constructor
      · rintro (hm | ⟨rfl, rfl⟩)
        · exact .inl hm
        · exact .inr ⟨rfl, rfl⟩
      · rintro (hm | ⟨rfl, rfl⟩)
        · exact .inl hm
        · exact .inr ⟨rfl, rfl⟩
  · next hhit => simp [hhit]

theorem mem_found_run {m : Match} (es : List (Pattern × Nat)) : ∀ {st : Scan},
    m ∈ (run (visit tr) st es).found ↔
      m ∈ st.found ∨ ∃ before p start after, es = before ++ (p, start) :: after ∧
        (run (visit tr) st before).hit tr p start = some m.nodeIndices ∧
        p.label = m.patternLabel := by
  induction es with
  | nil => simp
  | cons v es ih =>
    intro st
    rw [run_cons, ih, mem_found_visit, or_assoc]
    refine or_congr_right ⟨?_, ?_⟩
    · rintro (⟨hhit, hlabel⟩ | ⟨before, p, start, after, rfl, hhit, hlabel⟩)
      · exact ⟨[], v.1, v.2, es, rfl, hhit, hlabel⟩
      · exact ⟨v :: before, p, start, after, rfl, hhit, hlabel⟩
    · rintro ⟨before, p, start, after, heq, hhit, hlabel⟩
      cases before with
      | nil =>
        cases heq
        exact .inl ⟨hhit, hlabel⟩
      | cons w before =>
        cases heq
        exact .inr ⟨before, p, start, after, rfl, hhit, hlabel⟩

theorem mem_found_append {m : Match} {before after : List (Pattern × Nat)}
    (h : m ∈ (scanned tr before).found) : m ∈ (scanned tr (before ++ after)).found := by
  rw [scanned, run_append]
  exact (mem_found_run after).2 (.inl h)

theorem mem_found_of_hit {before after : List (Pattern × Nat)} {p : Pattern} {start : Nat}
    {chain : List Nat} (h : (scanned tr before).hit tr p start = some chain) :
    ⟨p.label, chain⟩ ∈ (scanned tr (before ++ (p, start) :: after)).found :=
  (mem_found_run _).2 (.inr ⟨before, p, start, after, rfl, h, rfl⟩)

theorem length_of_hit {p : Pattern} (hne : p.chain ≠ []) {start : Nat} {chain : List Nat}
    (h : st.hit tr p start = some chain) : chain.length = p.len :=
  (tryMatchChain_sound hne (hit_eq_some.1 h).2.1).1.length_eq

theorem findMatches_sound : Sound tr patterns (findMatches tr patterns) :=
  fun m hm => (valid_scanned fun _ hv => hv).sound m (findMatches_perm.mem_iff.1 hm)

theorem findMatches_disjoint : DisjointMatches (findMatches tr patterns) :=
  (Perm.pairwise_iff (fun {_ _} => disjoint_symm) findMatches_perm).2
    (valid_scanned fun _ hv => hv).disjoint

end Whole

/-! ## Completeness -/

section Completeness

variable {tr : List TraceNode} {patterns : List Pattern}

theorem len_le_of_visits {before after : List (Pattern × Nat)} {v w : Pattern × Nat}
    (h : visits tr patterns = before ++ v :: after) (hw : w ∈ after) : w.1.len ≤ v.1.len := by
  have hsorted := h ▸ @visits_pairwise tr patterns
  exact (pairwise_cons.1 (pairwise_append.1 hsorted).2.1).1 w hw

theorem le_len_of_visits {before after : List (Pattern × Nat)} {v w : Pattern × Nat}
    (h : visits tr patterns = before ++ v :: after) (hw : w ∈ before) : v.1.len ≤ w.1.len := by
  have hsorted := h ▸ @visits_pairwise tr patterns
  exact (pairwise_append.1 hsorted).2.2 w hw v mem_cons_self

/-- A match that covers part of a missed chain comes from a later visit, for a pattern that is no
longer than this one. -/
theorem crossed_of_complete (h : Complete tr patterns (findMatches tr patterns)) :
    Along (visit tr) (Crossed tr patterns) (.initial tr) (visits tr patterns) := by
  refine along_iff.2 ?_
  rintro before ⟨p, start⟩ after hvisits nodes hmissed
  have hvisit : (p, start) ∈ visits tr patterns :=
    hvisits ▸ mem_append_right _ mem_cons_self
  obtain ⟨hp, hne, _⟩ := mem_visits.1 hvisit
  obtain ⟨m, hm, hlen, i, hi, him⟩ := h p hp hne nodes hmissed.chain
  have hemitted := (mem_found_run _).1 (findMatches_perm.mem_iff.1 hm)
  rcases hemitted with hnil | ⟨before', q, later, after', hvisits', hhit, _⟩
  · exact absurd hnil not_mem_nil
  · rcases Separated.append_cons_cases (hvisits.symm.trans hvisits') with
      ⟨rfl, heq, _⟩ | ⟨mid, rfl, rfl⟩ | ⟨mid, rfl, _⟩
    -- this visit found nothing
    · cases heq
      cases hhit.symm.trans hmissed.silent
    -- a later visit is for a pattern that is no longer than this one
    · have hq := (mem_visits.1 (hvisits' ▸ mem_append_right _ mem_cons_self :
        (q, later) ∈ visits tr patterns))
      exact ⟨q, hq.1, le_antisymm (len_le_of_visits hvisits (mem_append_right _ mem_cons_self))
        (length_of_hit hq.2.1 hhit ▸ hlen), later, _, (hit_eq_some.1 hhit).2.1, i, hi, him⟩
    -- an earlier match would cover the node
    · have hvalid : (scanned tr (before' ++ (q, later) :: mid)).Valid tr patterns :=
        valid_scanned fun v hv => hvisits ▸ mem_append_left _ hv
      have hcovered := (hvalid.covered i).2 ⟨_, mem_found_of_hit hhit, him⟩
      cases hcovered.symm.trans (hmissed.uncovered i hi)

theorem complete_of_walked (h : Along (visit tr) (Walked tr) (.initial tr) (visits tr patterns)) :
    Complete tr patterns (findMatches tr patterns) := by
  intro p hp hne nodes hchain
  obtain ⟨start, hroot⟩ : ∃ start, nodes.head? = some start := by
    cases nodes with
    | nil => exact absurd (length_eq_zero_iff.1 hchain.length_eq.symm) hne
    | cons start nodes => exact ⟨start, rfl⟩
  have hstart : start < tr.length := hchain.lt_length start (mem_of_mem_head? hroot)
  obtain ⟨before, after, hvisits⟩ :=
    append_of_mem (mem_visits.2 ⟨hp, hne, hstart⟩ : (p, start) ∈ visits tr patterns)
  have hvalid : (scanned tr before).Valid tr patterns :=
    valid_scanned fun v hv => hvisits ▸ mem_append_left _ hv
  -- at the visit of its pattern to its root, the chain is free, or part of it is covered
  by_cases hfree : ∀ i ∈ nodes, (scanned tr before).covers i = false
  · cases hhit : (scanned tr before).hit tr p start with
    | some chain =>
      -- the match may be another chain, but it begins at the same root
      have hwalk := (tryMatchChain_sound hne (hit_eq_some.1 hhit).2.1).2
      refine ⟨_, findMatches_perm.mem_iff.2 (hvisits ▸ mem_found_of_hit hhit),
        (length_of_hit hne hhit).ge, start, mem_of_mem_head? hroot,
        mem_of_mem_head? hwalk⟩
    | none =>
      exact absurd ⟨hchain, hroot, hfree, hhit⟩
        (along_iff.1 h before (p, start) after hvisits nodes)
  -- a node of the chain is covered by a match of a pattern that came first
  · push Not at hfree
    obtain ⟨i, hi, hcovered⟩ := hfree
    obtain ⟨m, hm, him⟩ := (hvalid.covered i).1 (Bool.ne_false_iff.1 hcovered)
    refine ⟨m, findMatches_perm.mem_iff.2 (hvisits ▸ mem_found_append hm), ?_, i, hi, him⟩
    rcases (mem_found_run _).1 hm with hnil | ⟨first, q, earlier, rest, rfl, hhit, _⟩
    · exact absurd hnil not_mem_nil
    · have hq : (q, earlier) ∈ first ++ (q, earlier) :: rest :=
        mem_append_right _ mem_cons_self
      have hqv : (q, earlier) ∈ visits tr patterns := hvisits ▸ mem_append_left _ hq
      exact (length_of_hit (mem_visits.1 hqv).2.1 hhit).symm ▸ le_len_of_visits hvisits hq

/-- In a trace without branches no walk misses a chain. -/
theorem Unbranched.walked (h : Unbranched tr) :
    Along (visit tr) (Walked tr) (.initial tr) (visits tr patterns) := by
  refine along_iff.2 ?_
  rintro before ⟨p, start⟩ after _ nodes hmissed
  have hhit : hit tr (run (visit tr) (.initial tr) before) p start = some nodes :=
    hit_eq_some.2 ⟨hmissed.uncovered start (mem_of_mem_head? hmissed.root),
      h.tryMatchChain hmissed.chain hmissed.root, hmissed.uncovered⟩
  cases hhit.symm.trans hmissed.silent

/-- The matches are chains of the patterns and disjoint, and none is missing as long as every visit
of the scan finds a chain where there is one.  A chain that a visit misses is met only if a walk for
another pattern of its length, or from another start, happens to run into it. -/
theorem matcher_meets (tr : List TraceNode) (patterns : List Pattern) :
    (Along (visit tr) (Walked tr) (.initial tr) (visits tr patterns) →
        Meets tr patterns) ∧
      (Meets tr patterns →
        Along (visit tr) (Crossed tr patterns) (.initial tr) (visits tr patterns)) :=
  ⟨fun h => ⟨findMatches_sound, findMatches_disjoint, complete_of_walked h⟩,
    fun h => crossed_of_complete h.complete⟩

/-- Two matches of different patterns in one straight trace. -/
theorem matcher_meets_straight :
    Meets [⟨.matmul, []⟩, ⟨.biasAdd, [0]⟩, ⟨.relu, [1]⟩, ⟨.matmul, [2]⟩, ⟨.relu, [3]⟩]
      [⟨"matmul+relu", [.matmul, .relu]⟩, ⟨"linear", [.matmul, .biasAdd, .any]⟩] :=
  (matcher_meets _ _).1 (Unbranched.walked (by decide))

/-- A product that feeds a ReLU and then a bias. -/
theorem not_meets_second_consumer :
    Acyclic [⟨.matmul, []⟩, ⟨.relu, [0]⟩, ⟨.biasAdd, [0]⟩] ∧
      ¬ Meets [⟨.matmul, []⟩, ⟨.relu, [0]⟩, ⟨.biasAdd, [0]⟩]
        [⟨"matmul+bias", [.matmul, .biasAdd]⟩] := by
  refine ⟨?_, ?_⟩
  · intro i node hnode j hj
    rcases i with _ | _ | _ | i
    · cases hnode
      cases hj
    · cases hnode
      cases mem_singleton.1 hj
      exact Nat.zero_lt_one
    · cases hnode
      cases mem_singleton.1 hj
      exact Nat.zero_lt_two
    · cases hnode
  · intro h
    obtain ⟨m, hm, _⟩ := h.complete _ (mem_singleton_self _) (cons_ne_nil _ _) [0, 2]
      ⟨.cons ⟨_, rfl, rfl⟩ (.cons ⟨_, rfl, rfl⟩ .nil), .cons_cons ⟨_, rfl, rfl⟩ (.singleton _)⟩
    have hnone : findMatches [⟨.matmul, []⟩, ⟨.relu, [0]⟩, ⟨.biasAdd, [0]⟩]
        [⟨"matmul+bias", [.matmul, .biasAdd]⟩] = [] := by decide
    rw [hnone] at hm
    exact not_mem_nil hm

end Completeness

end Fusion
end Rustorch
