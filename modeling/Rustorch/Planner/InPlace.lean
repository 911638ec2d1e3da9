import Rustorch.Planner.Allocator

/-!
# In-place rewriting

`planWithInplace` lets the output of a unary op take over the storage of a dying input.  Every
accepted `(input, output)` pair is merged into one interval before packing, and the output is put
back into the input's slot afterwards.

The merged interval starts at the input's definition.  It covers the output's lifetime only when
the output is not born before the hint's step, which no safety condition checks:
`planWithInplace_safe` is the safety of the pass under that condition and
`planWithInplace_unsafe` the failure without it.
-/

namespace Rustorch
namespace Planner

open List LifetimeTable Prod

/-! ## Hints and blockers -/

structure InPlaceHint where
  input : TensorId
  output : TensorId
  step : Nat
  deriving DecidableEq, Repr

structure InPlaceBlockers where
  hasHook : Finset TensorId
  isView : Finset TensorId

namespace InPlaceBlockers

def new : InPlaceBlockers where
  hasHook := ∅
  isView := ∅

def isHookFree (b : InPlaceBlockers) (id : TensorId) : Bool :=
  !decide (id ∈ b.hasHook)

def isNotView (b : InPlaceBlockers) (id : TensorId) : Bool :=
  !decide (id ∈ b.isView)

end InPlaceBlockers

inductive InPlaceDecision
  | apply
  | blockedByMissingId
  | blockedByLastUse
  | blockedByHook
  | blockedByView
  deriving DecidableEq, Repr

/-- The four safety conditions, in the order the source tests them. -/
def evaluateHint (table : LifetimeTable) (hint : InPlaceHint) (blockers : InPlaceBlockers) :
    InPlaceDecision :=
  match table.get hint.input with
  | none => .blockedByMissingId
  | some input =>
    if (table.get hint.output).isNone then
      .blockedByMissingId
    else if input.lastUse ≠ hint.step then
      .blockedByLastUse
    else if !blockers.isHookFree hint.input then
      .blockedByHook
    else if !blockers.isNotView hint.input then
      .blockedByView
    else
      .apply

/-! ## Accepting hints -/

/-- The running state of the conflict filter. -/
structure Claims where
  inputs : Finset TensorId
  outputs : Finset TensorId
  safe : List InPlaceHint

def Claims.conflicts (c : Claims) (h : InPlaceHint) : Bool :=
  decide (h.input ∈ c.inputs) || decide (h.output ∈ c.outputs) ||
    decide (h.output ∈ c.inputs) || decide (h.input ∈ c.outputs)

def Claims.step (table : LifetimeTable) (blockers : InPlaceBlockers) (c : Claims)
    (h : InPlaceHint) : Claims :=
  if evaluateHint table h blockers = .apply ∧ c.conflicts h = false then
    { inputs := insert h.input c.inputs
      outputs := insert h.output c.outputs
      safe := c.safe ++ [h] }
  else
    c

/-- The hints the planner keeps: approved, and in no conflict with an earlier one. -/
def acceptedHints (table : LifetimeTable) (hints : List InPlaceHint)
    (blockers : InPlaceBlockers) : List InPlaceHint :=
  (hints.foldl (Claims.step table blockers) { inputs := ∅, outputs := ∅, safe := [] }).safe

/-! ## Rewriting the table -/

def mergeIntervals (input output : Interval) : Interval :=
  { defStep := input.defStep
    lastUse := max input.lastUse output.lastUse
    bytes := max input.bytes output.bytes
    align := max input.align output.align }

/-- The merged interval of every accepted hint, keyed by its input; `none` is the failed
`expect`. -/
def mergedIntervals (table : LifetimeTable) (safe : List InPlaceHint) :
    Option (AList (fun _ : TensorId => Interval)) :=
  safe.foldlM
    (fun m h => do
      let input ← table.get h.input
      let output ← table.get h.output
      some (m.insert h.input (mergeIntervals input output)))
    ∅

/-- Copy one row of the table: aliased outputs are dropped, merged inputs replaced. -/
def rewriteStep (aliased : List TensorId) (merged : AList (fun _ : TensorId => Interval))
    (t : LifetimeTable) (r : Row) : LifetimeTable :=
  if r.1 ∈ aliased then
    t
  else
    let final := (merged.lookup r.1).getD r.2
    (t.recordDefWithAlign r.1 final.defStep final.bytes final.align).recordUseIgnored r.1
      final.lastUse

def rewriteTable (table : LifetimeTable) (aliased : List TensorId)
    (merged : AList (fun _ : TensorId => Interval)) : LifetimeTable :=
  table.iter.foldl (rewriteStep aliased merged) new

/-! ## Stitching the outputs back -/

/-- Put the output of one hint into its input's slot; `none` is the failed `expect` or the slot
index out of range. -/
def stitchStep (result : PlanResult) (h : InPlaceHint) : Option PlanResult := do
  let slot ← result.slotOf h.input
  if slot < result.slots.length then
    some
      { slots := result.slots.modify slot (fun s => s.pushAliasedTenant h.output)
        assignment := result.assignment ++ [(h.output, slot)] }
  else
    none

/-- `plan` with in-place rewriting; `none` is a panic. -/
def planWithInplace (table : LifetimeTable) (hints : List InPlaceHint)
    (blockers : InPlaceBlockers) : Option PlanResult := do
  let safe := acceptedHints table hints blockers
  let merged ← mergedIntervals table safe
  let rewritten := rewriteTable table (safe.map InPlaceHint.output) merged
  safe.foldlM stitchStep (plan rewritten)

/-! ## What the filter accepts -/

/-- Two hints that name no tensor in common roles. -/
structure Apart (a b : InPlaceHint) : Prop where
  input_ne : a.input ≠ b.input
  output_ne : a.output ≠ b.output
  input_ne_output : a.input ≠ b.output
  output_ne_input : a.output ≠ b.input

instance : Std.Symm Apart where
  symm := by
    intro a b h
    exact ⟨h.input_ne.symm, h.output_ne.symm, h.output_ne_input.symm, h.input_ne_output.symm⟩

/-- What the filter keeps: every accepted hint is approved and claimed, and accepted hints are
pairwise apart. -/
structure ClaimsInv (table : LifetimeTable) (blockers : InPlaceBlockers) (c : Claims) : Prop where
  approved : ∀ h ∈ c.safe, evaluateHint table h blockers = .apply
  claimed : ∀ h ∈ c.safe, h.input ∈ c.inputs ∧ h.output ∈ c.outputs
  apart : c.safe.Pairwise Apart

variable {table : LifetimeTable} {blockers : InPlaceBlockers} {h : InPlaceHint}
  {base r : PlanResult}

theorem claimsInv_step {c : Claims} :
    ClaimsInv table blockers c → ClaimsInv table blockers (c.step table blockers h) := by
  intro hc
  unfold Claims.step
  split
  · rename_i hok
    have hfree : h.input ∉ c.inputs ∧ h.output ∉ c.outputs ∧ h.output ∉ c.inputs ∧
        h.input ∉ c.outputs := by
      simpa [Claims.conflicts, and_assoc] using hok.2
    refine ⟨?_, ?_, ?_⟩
    · intro g hg
      rcases mem_append.1 hg with hg | hg
      · exact hc.approved g hg
      · have hgh : g = h := by
          simpa using hg
        exact hgh ▸ hok.1
    · intro g hg
      rcases mem_append.1 hg with hg | hg
      · exact ⟨Finset.mem_insert_of_mem (hc.claimed g hg).1,
          Finset.mem_insert_of_mem (hc.claimed g hg).2⟩
      · have hgh : g = h := by
          simpa using hg
        subst hgh
        exact ⟨Finset.mem_insert_self _ _, Finset.mem_insert_self _ _⟩
    · -- the new hint was checked against the tensors already claimed
      refine pairwise_append.2 ⟨hc.apart, pairwise_singleton _ h, ?_⟩
      intro g hg g' hg'
      have hgh : g' = h := by
        simpa using hg'
      subst hgh
      have hgc := hc.claimed g hg
      refine ⟨?_, ?_, ?_, ?_⟩
      · intro heq
        exact hfree.1 (heq ▸ hgc.1)
      · intro heq
        exact hfree.2.1 (heq ▸ hgc.2)
      · intro heq
        exact hfree.2.2.1 (heq ▸ hgc.1)
      · intro heq
        exact hfree.2.2.2 (heq ▸ hgc.2)
  · exact hc

theorem claimsInv_foldl (hints : List InPlaceHint) : ∀ c : Claims, ClaimsInv table blockers c →
      ClaimsInv table blockers (hints.foldl (Claims.step table blockers) c) := by
  induction hints with
  | nil =>
    intro c hc
    exact hc
  | cons h hints ih =>
    intro c hc
    exact ih _ (claimsInv_step hc)

theorem acceptedHints_inv (table : LifetimeTable) (hints : List InPlaceHint)
    (blockers : InPlaceBlockers) :
    (∀ h ∈ acceptedHints table hints blockers, evaluateHint table h blockers = .apply) ∧
      (acceptedHints table hints blockers).Pairwise Apart := by
  have hinv := @claimsInv_foldl table blockers hints
    { inputs := ∅, outputs := ∅, safe := [] }
    ⟨by simp, by simp, Pairwise.nil⟩
  exact ⟨hinv.approved, hinv.apart⟩

theorem evaluateHint_apply {b : InPlaceBlockers} : evaluateHint table h b = .apply →
      ∃ input output, table.get h.input = some input ∧ table.get h.output = some output ∧
        input.lastUse = h.step := by
  intro happ
  unfold evaluateHint at happ
  cases hin : table.get h.input with
  | none =>
    simp [hin] at happ
  | some input =>
    cases hout : table.get h.output with
    | none =>
      simp [hin, hout] at happ
    | some output =>
      refine ⟨input, output, rfl, rfl, ?_⟩
      by_contra hne
      simp [hin, hout, hne] at happ

/-! ## The rewritten table -/

theorem defInterval_extend {iv : Interval} :
    iv.Valid →
      { defInterval none iv.defStep iv.bytes iv.align with
        lastUse := max iv.defStep iv.lastUse } = iv := by
  intro h
  have hlast : max iv.defStep iv.lastUse = iv.lastUse := max_eq_right h.def_le
  have halign : max iv.align 1 = iv.align := max_eq_left h.align_pos
  cases iv with
  | mk d l b a => simp_all [defInterval]

section Rewrite

variable {aliased : List TensorId} {merged : AList (fun _ : TensorId => Interval)}

variable {t : LifetimeTable} {id : TensorId} {table : LifetimeTable}

theorem get_rewriteStep_of_ne {r : Row} :
    id ≠ r.1 → (rewriteStep aliased merged t r).get id = t.get id := by
  intro hne
  unfold rewriteStep
  split
  · rfl
  · rw [get_recordUseIgnored, if_neg hne, get_recordDefWithAlign, if_neg hne]

theorem get_rewriteStep_self {r : Row} :
    r.1 ∉ aliased → t.get r.1 = none → ((merged.lookup r.1).getD r.2).Valid →
      (rewriteStep aliased merged t r).get r.1 = some ((merged.lookup r.1).getD r.2) := by
  intro hr hnone hvalid
  have hstore := defInterval_extend hvalid
  rw [rewriteStep, if_neg hr, get_recordUseIgnored, if_pos rfl,
    get_recordDefWithAlign, if_pos rfl, hnone]
  exact congrArg some hstore

theorem get_foldl_rewrite_of_ne (rows : List Row) :
    ∀ (t : LifetimeTable) (id : TensorId), id ∉ rows.map fst →
      (rows.foldl (rewriteStep aliased merged) t).get id = t.get id := by
  induction rows with
  | nil =>
    intro t id _
    rfl
  | cons r rows ih =>
    intro t id hid
    have hid' : id ≠ r.1 ∧ id ∉ rows.map fst := by
      simpa using hid
    rw [foldl_cons, ih _ _ hid'.2, get_rewriteStep_of_ne hid'.1]

theorem get_foldl_rewrite (rows : List Row) :
    ∀ t : LifetimeTable, (rows.map fst).Nodup → ∀ r ∈ rows,
      r.1 ∉ aliased → t.get r.1 = none → ((merged.lookup r.1).getD r.2).Valid →
        (rows.foldl (rewriteStep aliased merged) t).get r.1 =
          some ((merged.lookup r.1).getD r.2) := by
  induction rows with
  | nil =>
    intro t _ r hr
    cases hr
  | cons a rows ih =>
    intro t hnodup r hr hal hnone hvalid
    have hcons : a.1 ∉ rows.map fst ∧ (rows.map fst).Nodup :=
      nodup_cons.1 hnodup
    rcases mem_cons.1 hr with rfl | hmem
    · rw [foldl_cons, get_foldl_rewrite_of_ne rows _ _ hcons.1]
      exact get_rewriteStep_self hal hnone hvalid
    · have hne : r.1 ≠ a.1 := by
        intro heq
        exact hcons.1 (heq ▸ mem_map_of_mem (f := fst) hmem)
      refine ih _ hcons.2 r hmem hal ?_ hvalid
      rw [get_rewriteStep_of_ne hne, hnone]

theorem get_foldl_rewrite_aliased (rows : List Row) :
    ∀ (t : LifetimeTable) (id : TensorId), id ∈ aliased →
      (rows.foldl (rewriteStep aliased merged) t).get id = t.get id := by
  induction rows with
  | nil =>
    intro t id _
    rfl
  | cons r rows ih =>
    intro t id hid
    rw [foldl_cons, ih _ _ hid]
    by_cases hr : id = r.1
    · subst hr
      rw [rewriteStep, if_pos hid]
    · exact get_rewriteStep_of_ne hr

theorem get_rewriteTable_aliased :
    id ∈ aliased → (rewriteTable table aliased merged).get id = none := by
  intro hid
  rw [rewriteTable, get_foldl_rewrite_aliased _ _ _ hid, get_new]

theorem get_rewriteTable_missing :
    table.get id = none → (rewriteTable table aliased merged).get id = none := by
  intro hid
  have hrows : id ∉ table.iter.map fst := by
    intro hmem
    rcases mem_map.1 hmem with ⟨⟨id', iv⟩, hrow, rfl⟩
    have hget := mem_iter.1 hrow
    rw [hid] at hget
    cases hget
  rw [rewriteTable, get_foldl_rewrite_of_ne _ _ _ hrows, get_new]

theorem get_rewriteTable (merged : AList (fun _ : TensorId => Interval)) {iv : Interval} :
    table.get id = some iv → id ∉ aliased → ((merged.lookup id).getD iv).Valid →
      (rewriteTable table aliased merged).get id = some ((merged.lookup id).getD iv) := by
  intro hget hal hvalid
  exact get_foldl_rewrite table.iter new table.nodup_iter_ids (id, iv)
    (mem_iter.2 hget) hal (get_new id) hvalid

end Rewrite

/-! ## The merged intervals -/

/-- The map holds the merged interval of every hint, and only inputs are keys. -/
structure Merged (table : LifetimeTable) (safe : List InPlaceHint)
    (m : AList (fun _ : TensorId => Interval)) : Prop where
  input : ∀ h ∈ safe, ∃ i o, table.get h.input = some i ∧ table.get h.output = some o ∧
    m.lookup h.input = some (mergeIntervals i o)
  other : ∀ id, (∀ h ∈ safe, h.input ≠ id) → m.lookup id = none

theorem merged_foldlM (rest : List InPlaceHint) :
    ∀ (done : List InPlaceHint) (m m' : AList (fun _ : TensorId => Interval)),
      (done ++ rest).Pairwise Apart → Merged table done m →
        rest.foldlM
          (fun m h => do
            let input ← table.get h.input
            let output ← table.get h.output
            some (m.insert h.input (mergeIntervals input output))) m = some m' →
          Merged table (done ++ rest) m' := by
  induction rest with
  | nil =>
    intro done m m' _ hm hfold
    have heq : m = m' := by
      simpa using hfold
    subst heq
    simpa using hm
  | cons h rest ih =>
    intro done m m' hpair hm hfold
    cases hi : table.get h.input with
    | none =>
      simp [hi] at hfold
    | some i =>
      cases ho : table.get h.output with
      | none =>
        simp [hi, ho] at hfold
      | some o =>
        -- the hints are apart, so the entry of an earlier input stays
        have hnext : Merged table (done ++ [h]) (m.insert h.input (mergeIntervals i o)) := by
          refine ⟨?_, ?_⟩
          · intro g hg
            rcases mem_append.1 hg with hg | hg
            · rcases hm.input g hg with ⟨gi, go, hgi, hgo, hlook⟩
              have hne : g.input ≠ h.input :=
                ((pairwise_append.1 hpair).2.2 g hg h mem_cons_self).input_ne
              exact ⟨gi, go, hgi, hgo, by rw [AList.lookup_insert_ne hne]; exact hlook⟩
            · have hgh : g = h := by
                simpa using hg
              subst hgh
              exact ⟨i, o, hi, ho, AList.lookup_insert _⟩
          · intro id hid
            have hne : id ≠ h.input := by
              intro heq
              exact hid h (by simp) heq.symm
            rw [AList.lookup_insert_ne hne]
            exact hm.other id (fun g hg => hid g (mem_append_left [h] hg))
        have hrest := ih (done ++ [h]) _ m' (by simpa using hpair) hnext
          (by simpa [hi, ho] using hfold)
        simpa using hrest

theorem mergedIntervals_merged {safe : List InPlaceHint} {m : AList (fun _ : TensorId => Interval)} :
    safe.Pairwise Apart → mergedIntervals table safe = some m → Merged table safe m := by
  intro hpair hm
  refine merged_foldlM safe [] ∅ m (by simpa using hpair) ⟨by simp, ?_⟩ hm
  intro id _
  exact AList.lookup_empty id

variable {i o : Interval}

theorem mergeIntervals_valid : i.Valid → (mergeIntervals i o).Valid := by
  intro hi
  exact ⟨le_trans hi.def_le (le_max_left _ _), le_trans hi.align_pos (le_max_left _ _)⟩

/-! ## The stitched plan -/

/-- The stitched plan assigns what the packer assigned, and every output to its input's slot. -/
structure Stitched (base : PlanResult) (done : List InPlaceHint) (result : PlanResult) :
    Prop where
  assigned : ∀ id k, (id, k) ∈ result.assignment ↔
    (id, k) ∈ base.assignment ∨ ∃ h ∈ done, h.output = id ∧ base.slotOf h.input = some k
  lookup : ∀ id, (∀ h ∈ done, h.output ≠ id) → result.slotOf id = base.slotOf id
  found : ∀ h ∈ done, ∃ k, base.slotOf h.input = some k

theorem stitchStep_stitched {result result' : PlanResult} {done : List InPlaceHint} :
    (∀ g ∈ done, Apart g h) → Stitched base done result → stitchStep result h = some result' →
      Stitched base (done ++ [h]) result' := by
  intro hap hs hstep
  have hbase : result.slotOf h.input = base.slotOf h.input :=
    hs.lookup h.input (fun g hg => (hap g hg).output_ne_input)
  cases hslot : result.slotOf h.input with
  | none =>
    simp [stitchStep, hslot] at hstep
  | some slot =>
    by_cases hlt : slot < result.slots.length
    · have hres : result' =
          { slots := result.slots.modify slot (fun s => s.pushAliasedTenant h.output)
            assignment := result.assignment ++ [(h.output, slot)] } := by
        simpa [stitchStep, hslot, hlt] using hstep.symm
      subst hres
      refine ⟨?_, ?_, ?_⟩
      · intro id k
        -- the output joins the slot of the input, all others stay where they are
        have hold := hs.assigned id k
        simp only [mem_append, mem_singleton, hold, Prod.mk.injEq]
        constructor
        · rintro ((hb | ⟨g, hg, hgo, hgk⟩) | ⟨rfl, rfl⟩)
          · exact Or.inl hb
          · exact Or.inr ⟨g, Or.inl hg, hgo, hgk⟩
          · exact Or.inr ⟨h, Or.inr rfl, rfl, by rw [← hbase, hslot]⟩
        · rintro (hb | ⟨g, hg | rfl, hgo, hgk⟩)
          · exact Or.inl (Or.inl hb)
          · exact Or.inl (Or.inr ⟨g, hg, hgo, hgk⟩)
          · rw [← hbase, hslot] at hgk
            exact Or.inr ⟨hgo.symm, (Option.some.inj hgk).symm⟩
      · intro id hid
        have hne : h.output ≠ id := hid h (by simp)
        have hrec := hs.lookup id (fun g hg => hid g (mem_append_left [h] hg))
        rw [← hrec]
        simp [PlanResult.slotOf, find?_append, hne]
      · intro g hg
        rcases mem_append.1 hg with hg | hg
        · exact hs.found g hg
        · have hgh : g = h := by
            simpa using hg
          exact ⟨slot, by rw [hgh, ← hbase, hslot]⟩
    · simp [stitchStep, hslot, hlt] at hstep

theorem stitch_foldlM (rest : List InPlaceHint) :
    ∀ (done : List InPlaceHint) (result result' : PlanResult),
      (done ++ rest).Pairwise Apart → Stitched base done result →
        rest.foldlM stitchStep result = some result' → Stitched base (done ++ rest) result' := by
  induction rest with
  | nil =>
    intro done result result' _ hs hfold
    have heq : result = result' := by
      simpa using hfold
    subst heq
    simpa using hs
  | cons h rest ih =>
    intro done result result' hpair hs hfold
    cases hstep : stitchStep result h with
    | none =>
      simp [hstep] at hfold
    | some mid =>
      have hap : ∀ g ∈ done, Apart g h := by
        intro g hg
        exact (pairwise_append.1 hpair).2.2 g hg h mem_cons_self
      have hnext := ih (done ++ [h]) mid result' (by simpa using hpair)
        (stitchStep_stitched hap hs hstep) (by simpa [hstep] using hfold)
      simpa using hnext

variable {hints : List InPlaceHint}

theorem planWithInplace_eq_some : planWithInplace table hints blockers = some r →
      ∃ m, Merged table (acceptedHints table hints blockers) m ∧
        Stitched
          (plan (rewriteTable table
            ((acceptedHints table hints blockers).map InPlaceHint.output) m))
          (acceptedHints table hints blockers) r := by
  intro hr
  have hpair := (acceptedHints_inv table hints blockers).2
  cases hm : mergedIntervals table (acceptedHints table hints blockers) with
  | none =>
    simp [planWithInplace, hm] at hr
  | some m =>
    refine ⟨m, mergedIntervals_merged hpair hm, ?_⟩
    refine stitch_foldlM (acceptedHints table hints blockers) [] _ r (by simpa using hpair)
      ⟨?_, ?_, ?_⟩ (by simpa [planWithInplace, hm] using hr)
    · intro id k
      simp
    · intro id _
      rfl
    · intro h hh
      cases hh

/-! ## Safety -/

def SharesSlot (r : PlanResult) (a b : TensorId) : Prop :=
  ∃ k, (a, k) ∈ r.assignment ∧ (b, k) ∈ r.assignment

/-- `a` and `b` are the two tensors of hint `h`, in either order. -/
def InPlaceHint.Pairs (h : InPlaceHint) (a b : TensorId) : Prop :=
  (h.input = a ∧ h.output = b) ∨ (h.input = b ∧ h.output = a)

/-- Distinct tensors of one slot have disjoint lifetimes in the original table, except that the
two tensors of an accepted hint may share the hint's step. -/
def InPlaceSafe (table : LifetimeTable) (accepted : List InPlaceHint) (r : PlanResult) : Prop :=
  ∀ a b ia ib, a ≠ b → table.get a = some ia → table.get b = some ib → SharesSlot r a b →
    (∀ s, ia.Alive s → ¬ ib.Alive s) ∨
      ∃ h ∈ accepted, h.Pairs a b ∧ ∀ s, ia.Alive s → ib.Alive s → s = h.step

/-- The output of every accepted hint is not born before the hint's step. -/
def OutputsBornAtStep (table : LifetimeTable) (accepted : List InPlaceHint) : Prop :=
  ∀ h ∈ accepted, ∀ o, table.get h.output = some o → h.step ≤ o.defStep

/-- `big` is alive whenever `small` is. -/
def Interval.Covers (big small : Interval) : Prop :=
  ∀ s, small.Alive s → big.Alive s

theorem Interval.Covers.disjoint {a b a' b' : Interval} :
    a.Covers a' → b.Covers b' → a.Valid → b.Valid → a.overlaps b = false →
      ∀ s, a'.Alive s → ¬ b'.Alive s := by
  intro hca hcb ha hb hoverlap s hsa hsb
  have hover : a.overlaps b = true := (Interval.overlaps_iff ha hb).2 ⟨s, hca s hsa, hcb s hsb⟩
  rw [hoverlap] at hover
  cases hover

theorem mergeIntervals_covers_input (i o : Interval) : (mergeIntervals i o).Covers i := by
  intro s hs
  exact ⟨hs.1, le_trans hs.2 (le_max_left _ _)⟩

theorem mergeIntervals_covers_output : i.defStep ≤ o.defStep → (mergeIntervals i o).Covers o := by
  intro hdef s hs
  exact ⟨le_trans hdef hs.1, le_trans hs.2 (le_max_right _ _)⟩

section Safety

variable {table : LifetimeTable} {accepted : List InPlaceHint}
  {m : AList (fun _ : TensorId => Interval)}

/-- What a tensor stands for in the packed table: the packer's interval for `rep` covers the
tensor's own lifetime. -/
structure Represented (table rewritten : LifetimeTable) (rep id : TensorId) : Prop where
  covers : ∀ iv, table.get id = some iv →
    ∃ big, rewritten.get rep = some big ∧ big.Covers iv

theorem represented_self (hm : Merged table accepted m) {id : TensorId} :
    id ∉ accepted.map InPlaceHint.output →
      Represented table (rewriteTable table (accepted.map InPlaceHint.output) m) id id := by
  intro hid
  refine ⟨?_⟩
  intro iv hiv
  have hvalid := table.valid id iv hiv
  by_cases hin : ∃ h ∈ accepted, h.input = id
  · rcases hin with ⟨h, hh, rfl⟩
    rcases hm.input h hh with ⟨i, o, hi, _, hlook⟩
    cases hiv.symm.trans hi
    have hget := get_rewriteTable m hiv hid
      (by rw [hlook]; exact mergeIntervals_valid hvalid)
    rw [hlook] at hget
    exact ⟨_, hget, mergeIntervals_covers_input iv o⟩
  · have hnone : m.lookup id = none := by
      refine hm.other id ?_
      intro h hh heq
      exact hin ⟨h, hh, heq⟩
    have hget := get_rewriteTable m hiv hid (by rw [hnone]; exact hvalid)
    rw [hnone] at hget
    exact ⟨iv, hget, fun s hs => hs⟩

variable {blockers : InPlaceBlockers} {h : InPlaceHint}

theorem represented_output (hm : Merged table accepted m) :
    h ∈ accepted → evaluateHint table h blockers = .apply →
      h.input ∉ accepted.map InPlaceHint.output → OutputsBornAtStep table accepted →
        Represented table (rewriteTable table (accepted.map InPlaceHint.output) m)
          h.input h.output := by
  intro hh happ hin hborn
  refine ⟨?_⟩
  intro iv hiv
  rcases hm.input h hh with ⟨i, o, hi, ho, hlook⟩
  cases hiv.symm.trans ho
  rcases evaluateHint_apply happ with ⟨i', _, hi', _, hlast⟩
  cases hi.symm.trans hi'
  have hvalid := table.valid _ i hi
  have hget := get_rewriteTable m hi hin
    (by rw [hlook]; exact mergeIntervals_valid hvalid)
  rw [hlook] at hget
  refine ⟨_, hget, mergeIntervals_covers_output ?_⟩
  calc
    i.defStep ≤ i.lastUse := hvalid.def_le
    _ = h.step := hlast
    _ ≤ iv.defStep := hborn h hh iv hiv

theorem disjoint_of_represented {rewritten : LifetimeTable} {a b repA repB : TensorId}
    {ia ib : Interval} {k : Nat} :
    Represented table rewritten repA a → Represented table rewritten repB b → repA ≠ repB →
      (plan rewritten).slotOf repA = some k → (plan rewritten).slotOf repB = some k →
        table.get a = some ia → table.get b = some ib → ∀ s, ia.Alive s → ¬ ib.Alive s := by
  intro hra hrb hne hka hkb hia hib
  rcases hra.covers ia hia with ⟨bigA, hbigA, hcovA⟩
  rcases hrb.covers ib hib with ⟨bigB, hbigB, hcovB⟩
  have hdisj : bigA.overlaps bigB = false :=
    plan_disjoint hbigA hbigB hne (slotOf_eq_some.1 hka) (slotOf_eq_some.1 hkb)
  exact hcovA.disjoint hcovB (rewritten.valid _ _ hbigA) (rewritten.valid _ _ hbigB) hdisj

theorem pair_shares_step {i o : Interval} :
    evaluateHint table h blockers = .apply → table.get h.input = some i →
      h.step ≤ o.defStep → ∀ s, i.Alive s → o.Alive s → s = h.step := by
  intro happ hi hborn s hsi hso
  rcases evaluateHint_apply happ with ⟨i', _, hi', _, hlast⟩
  cases hi.symm.trans hi'
  have h₁ : s ≤ h.step := hlast ▸ hsi.2
  exact le_antisymm h₁ (le_trans hborn hso.1)

end Safety

/-- The in-place plan is safe when no accepted output is born before its hint's step. -/
theorem planWithInplace_safe : planWithInplace table hints blockers = some r →
      OutputsBornAtStep table (acceptedHints table hints blockers) →
        InPlaceSafe table (acceptedHints table hints blockers) r := by
  intro hr hborn a b ia ib hne hia hib hshare
  rcases planWithInplace_eq_some hr with ⟨m, hm, hs⟩
  obtain ⟨happ, hpair⟩ := acceptedHints_inv table hints blockers
  rcases hshare with ⟨k, hak, hbk⟩
  have hown : ∀ id, (id, k) ∈ (plan (rewriteTable table
      ((acceptedHints table hints blockers).map InPlaceHint.output) m)).assignment →
      id ∉ (acceptedHints table hints blockers).map InPlaceHint.output := by
    intro id hid hal
    rcases mem_assignment.1 hid with ⟨iv, hget, _⟩
    rw [get_rewriteTable_aliased hal] at hget
    cases hget
  -- an output lives in the slot of its input, whose interval covers both
  have hout : ∀ h ∈ acceptedHints table hints blockers, ∀ id, h.output = id →
      (plan (rewriteTable table
        ((acceptedHints table hints blockers).map InPlaceHint.output) m)).slotOf h.input =
          some k →
        Represented table (rewriteTable table
          ((acceptedHints table hints blockers).map InPlaceHint.output) m) h.input id := by
    intro h hh id hid hk
    subst hid
    exact represented_output hm hh (happ h hh) (hown _ (slotOf_eq_some.1 hk)) hborn
  -- each of the two is packed itself, or is the output of a hint
  rcases (hs.assigned a k).1 hak with ha | ⟨h, hh, hha, hhk⟩
  · rcases (hs.assigned b k).1 hbk with hb | ⟨g, hg, hgb, hgk⟩
    · exact Or.inl (disjoint_of_represented (represented_self hm (hown a ha))
        (represented_self hm (hown b hb)) hne (slotOf_eq_some.2 ha) (slotOf_eq_some.2 hb) hia hib)
    · by_cases hga : g.input = a
      · refine Or.inr ⟨g, hg, Or.inl ⟨hga, hgb⟩, ?_⟩
        exact pair_shares_step (happ g hg) (hga ▸ hia) (hborn g hg ib (hgb ▸ hib))
      · exact Or.inl (disjoint_of_represented (represented_self hm (hown a ha))
          (hout g hg b hgb hgk) (Ne.symm hga) (slotOf_eq_some.2 ha) hgk hia hib)
  · rcases (hs.assigned b k).1 hbk with hb | ⟨g, hg, hgb, hgk⟩
    · by_cases hhb : h.input = b
      · refine Or.inr ⟨h, hh, Or.inr ⟨hhb, hha⟩, ?_⟩
        intro s hsa hsb
        exact pair_shares_step (happ h hh) (hhb ▸ hib) (hborn h hh ia (hha ▸ hia)) s hsb hsa
      · exact Or.inl (disjoint_of_represented (hout h hh a hha hhk)
          (represented_self hm (hown b hb)) hhb hhk (slotOf_eq_some.2 hb) hia hib)
    · by_cases heq : h = g
      · subst heq
        exact absurd (hha.symm.trans hgb) hne
      · have hap : Apart h g := hpair.forall hh hg heq
        exact Or.inl (disjoint_of_represented (hout h hh a hha hhk) (hout g hg b hgb hgk)
          hap.input_ne hhk hgk hia hib)

/-- A hint whose output is born before the step, while the input is alive, makes the returned
plan unsafe: the two tensors share an earlier step. -/
theorem planWithInplace_unsafe : planWithInplace table hints blockers = some r →
      h ∈ acceptedHints table hints blockers → table.get h.input = some i →
        table.get h.output = some o → i.defStep < h.step → i.defStep ≤ o.lastUse →
          o.defStep < h.step → ¬ InPlaceSafe table (acceptedHints table hints blockers) r := by
  intro hr hh hi ho hidef hlast hodef hsafe
  rcases planWithInplace_eq_some hr with ⟨m, _, hs⟩
  obtain ⟨happ, hpair⟩ := acceptedHints_inv table hints blockers
  rcases hs.found h hh with ⟨k, hk⟩
  have hin : (h.input, k) ∈ r.assignment := (hs.assigned _ _).2 (Or.inl (slotOf_eq_some.1 hk))
  have hout : (h.output, k) ∈ r.assignment := (hs.assigned _ _).2 (Or.inr ⟨h, hh, rfl, hk⟩)
  have hne : h.input ≠ h.output := by
    intro heq
    rcases mem_assignment.1 (slotOf_eq_some.1 hk) with ⟨iv, hget, _⟩
    rw [heq, get_rewriteTable_aliased (mem_map_of_mem hh)] at hget
    cases hget
  -- The first step at which both tensors are alive comes before the hint's step.
  let s := max i.defStep o.defStep
  have hsi : i.Alive s := by
    rcases evaluateHint_apply (happ h hh) with ⟨i', _, hi', _, hstep⟩
    cases hi.symm.trans hi'
    exact ⟨le_max_left _ _, by omega⟩
  have hso : o.Alive s := ⟨le_max_right _ _, max_le hlast (table.valid _ o ho).def_le⟩
  have huniq : ∀ g ∈ acceptedHints table hints blockers, g.Pairs h.input h.output → g = h := by
    intro g hg hgp
    by_contra hgh
    have hap : Apart g h := hpair.forall hg hh hgh
    rcases hgp with ⟨hgi, _⟩ | ⟨hgi, _⟩
    · exact hap.input_ne hgi
    · exact hap.input_ne_output hgi
  rcases hsafe h.input h.output i o hne hi ho ⟨k, hin, hout⟩ with hdisj | ⟨g, hg, hgp, hgs⟩
  · exact hdisj s hsi hso
  · have hstep := hgs s hsi hso
    rw [huniq g hg hgp] at hstep
    omega

/-- In-place planning, for every table, hint list and blocker set: the returned plan is safe when
no accepted output is born before its hint's step; and a safe plan has no accepted output born
before the step while the input is already alive. -/
theorem planWithInplace_disjoint {table : LifetimeTable} {hints : List InPlaceHint}
    {blockers : InPlaceBlockers} {r : PlanResult} :
    planWithInplace table hints blockers = some r →
      (OutputsBornAtStep table (acceptedHints table hints blockers) →
        InPlaceSafe table (acceptedHints table hints blockers) r) ∧
      (InPlaceSafe table (acceptedHints table hints blockers) r →
        ∀ h ∈ acceptedHints table hints blockers, ∀ i o, table.get h.input = some i →
          table.get h.output = some o → i.defStep < h.step → i.defStep ≤ o.lastUse →
            h.step ≤ o.defStep) := by
  intro hr
  refine ⟨planWithInplace_safe hr, ?_⟩
  intro hsafe h hh i o hi ho hidef hlast
  by_contra hborn
  exact planWithInplace_unsafe hr hh hi ho hidef hlast (by omega) hsafe

/-- Tensor 0 dies at step 1, where tensor 1 is born. -/
def chainTable : LifetimeTable :=
  (((new.recordDef ⟨0⟩ 0 4).recordUseIgnored ⟨0⟩ 1).recordDef ⟨1⟩ 1
    8).recordUseIgnored ⟨1⟩ 2

def chainHint : InPlaceHint :=
  { input := ⟨0⟩, output := ⟨1⟩, step := 1 }

def chainPlan : PlanResult :=
  { slots := [{ bytes := 8, align := 1, tenants := [⟨0⟩, ⟨1⟩],
                intervals := [{ defStep := 0, lastUse := 2, bytes := 8, align := 1 }] }]
    assignment := [(⟨0⟩, 0), (⟨1⟩, 0)] }

/-- On a chain the in-place plan puts both tensors into one slot and is safe. -/
theorem planWithInplace_chain :
    InPlaceSafe chainTable (acceptedHints chainTable [chainHint] InPlaceBlockers.new)
      chainPlan := by
  have hplan : planWithInplace chainTable [chainHint] InPlaceBlockers.new = some chainPlan := by
    decide
  have haccepted : acceptedHints chainTable [chainHint] InPlaceBlockers.new = [chainHint] := by
    decide
  refine (planWithInplace_disjoint hplan).1 ?_
  intro h hh o ho
  have hchain : h = chainHint := by
    simpa [haccepted] using hh
  subst hchain
  have hget : chainTable.get chainHint.output =
      some { defStep := 1, lastUse := 2, bytes := 8, align := 1 } := by
    decide
  rw [hget] at ho
  cases ho
  decide

/-- Tensor 0 is alive over steps 0–2 and tensor 1 over steps 1–3. -/
def overlappingTable : LifetimeTable :=
  (((new.recordDef ⟨0⟩ 0 4).recordUseIgnored ⟨0⟩ 2).recordDef ⟨1⟩ 1
    4).recordUseIgnored ⟨1⟩ 3

/-- A hint that reuses tensor 0 for tensor 1 at step 2 is accepted although tensor 1 is born at
step 1. -/
def earlyOutputHint : InPlaceHint :=
  { input := ⟨0⟩, output := ⟨1⟩, step := 2 }

def earlyOutputPlan : PlanResult :=
  { slots := [{ bytes := 4, align := 1, tenants := [⟨0⟩, ⟨1⟩],
                intervals := [{ defStep := 0, lastUse := 3, bytes := 4, align := 1 }] }]
    assignment := [(⟨0⟩, 0), (⟨1⟩, 0)] }

/-- Two tensors alive at step 1 share a slot. -/
theorem planWithInplace_early_output :
    planWithInplace overlappingTable [earlyOutputHint] InPlaceBlockers.new =
        some earlyOutputPlan ∧
      ¬ InPlaceSafe overlappingTable
        (acceptedHints overlappingTable [earlyOutputHint] InPlaceBlockers.new)
        earlyOutputPlan := by
  have hplan : planWithInplace overlappingTable [earlyOutputHint] InPlaceBlockers.new =
      some earlyOutputPlan := by
    decide
  refine ⟨hplan, ?_⟩
  exact planWithInplace_unsafe (h := earlyOutputHint)
    (i := { defStep := 0, lastUse := 2, bytes := 4, align := 1 })
    (o := { defStep := 1, lastUse := 3, bytes := 4, align := 1 })
    hplan (by decide) (by decide) (by decide) (by decide) (by decide) (by decide)

end Planner
end Rustorch
