import Rustorch.Planner.InPlace

/-!
# Completeness of the in-place plan

A complete plan lists every tensor of the table once, as a tenant of exactly the slot it is
assigned to.  The packer's plan is complete, and putting an output back into its input's slot
keeps a plan complete as long as the input still has a slot.

The input of an accepted hint loses its slot in one case: when the hint names it as its own
output, it is dropped from the table as an aliased output.  `planWithInplace_complete_iff` is the
exact condition under which the call returns.
-/

namespace Rustorch
namespace Planner

open List LifetimeTable Prod

/-! ## Which hints are chosen -/

/-- `h` is chosen after the hints `earlier` (the last one first): it is approved, and apart from
every earlier hint that is chosen. -/
def Chosen (table : LifetimeTable) (blockers : InPlaceBlockers) :
    List InPlaceHint → InPlaceHint → Prop
  | [], h => evaluateHint table h blockers = .apply
  | g :: earlier, h =>
    Chosen table blockers earlier h ∧ (Chosen table blockers earlier g → Apart g h)

/-- No chosen hint names one tensor as its input and its output. -/
def SelfHintsDropped (table : LifetimeTable) (hints : List InPlaceHint)
    (blockers : InPlaceBlockers) : Prop :=
  ∀ earlier h later, hints = earlier ++ h :: later →
    Chosen table blockers earlier.reverse h → h.input ≠ h.output

/-- The claimed ids are the inputs and the outputs of the accepted hints. -/
structure Claims.Tracks (c : Claims) : Prop where
  inputs : ∀ id, id ∈ c.inputs ↔ ∃ g ∈ c.safe, g.input = id
  outputs : ∀ id, id ∈ c.outputs ↔ ∃ g ∈ c.safe, g.output = id

variable {h : InPlaceHint} {hints : List InPlaceHint} {r : PlanResult}

theorem Claims.Tracks.conflicts {c : Claims} :
    c.Tracks → (c.conflicts h = false ↔ ∀ g ∈ c.safe, Apart g h) := by
  intro hc
  have hfree : c.conflicts h = false ↔ h.input ∉ c.inputs ∧ h.output ∉ c.outputs ∧
      h.output ∉ c.inputs ∧ h.input ∉ c.outputs := by
    simp [Claims.conflicts, and_assoc]
  rw [hfree, hc.inputs, hc.outputs, hc.inputs, hc.outputs]
  constructor
  · rintro ⟨hii, hoo, hio, hoi⟩ g hg
    refine ⟨?_, ?_, ?_, ?_⟩
    · intro heq
      exact hii ⟨g, hg, heq⟩
    · intro heq
      exact hoo ⟨g, hg, heq⟩
    · intro heq
      exact hio ⟨g, hg, heq⟩
    · intro heq
      exact hoi ⟨g, hg, heq⟩
  · intro hap
    refine ⟨?_, ?_, ?_, ?_⟩
    · rintro ⟨g, hg, heq⟩
      exact (hap g hg).input_ne heq
    · rintro ⟨g, hg, heq⟩
      exact (hap g hg).output_ne heq
    · rintro ⟨g, hg, heq⟩
      exact (hap g hg).input_ne_output heq
    · rintro ⟨g, hg, heq⟩
      exact (hap g hg).output_ne_input heq

section Filter

variable {table : LifetimeTable} {blockers : InPlaceBlockers}

variable {h : InPlaceHint}

theorem Claims.Tracks.step {c : Claims} : c.Tracks → (c.step table blockers h).Tracks := by
  intro hc
  unfold Claims.step
  split
  · refine ⟨?_, ?_⟩
    · intro id
      simp only [Finset.mem_insert, hc.inputs, mem_append, mem_singleton]
      constructor
      · rintro (rfl | ⟨g, hg, rfl⟩)
        · exact ⟨h, Or.inr rfl, rfl⟩
        · exact ⟨g, Or.inl hg, rfl⟩
      · rintro ⟨g, hg | rfl, rfl⟩
        · exact Or.inr ⟨g, hg, rfl⟩
        · exact Or.inl rfl
    · intro id
      simp only [Finset.mem_insert, hc.outputs, mem_append, mem_singleton]
      constructor
      · rintro (rfl | ⟨g, hg, rfl⟩)
        · exact ⟨h, Or.inr rfl, rfl⟩
        · exact ⟨g, Or.inl hg, rfl⟩
      · rintro ⟨g, hg | rfl, rfl⟩
        · exact Or.inr ⟨g, hg, rfl⟩
        · exact Or.inl rfl
  · exact hc

/-- The conflict filter after a list of hints. -/
def claimsAfter (table : LifetimeTable) (blockers : InPlaceBlockers) (hints : List InPlaceHint) :
    Claims :=
  hints.foldl (Claims.step table blockers) { inputs := ∅, outputs := ∅, safe := [] }

theorem claimsAfter_snoc (hints : List InPlaceHint) (h : InPlaceHint) :
    claimsAfter table blockers (hints ++ [h]) =
      (claimsAfter table blockers hints).step table blockers h := by
  simp [claimsAfter, foldl_append]

theorem claimsAfter_tracks (hints : List InPlaceHint) :
    (claimsAfter table blockers hints).Tracks := by
  induction hints using reverseRecOn with
  | nil =>
    refine ⟨?_, ?_⟩ <;> simp [claimsAfter]
  | append_singleton hints h ih =>
    rw [claimsAfter_snoc]
    exact ih.step

/-- The filter keeps the next hint when it is approved and apart from the kept ones. -/
theorem safe_snoc (hints : List InPlaceHint) (g h : InPlaceHint) :
    h ∈ (claimsAfter table blockers (hints ++ [g])).safe ↔
      h ∈ (claimsAfter table blockers hints).safe ∨
        (h = g ∧ evaluateHint table g blockers = .apply ∧
          ∀ k ∈ (claimsAfter table blockers hints).safe, Apart k g) := by
  rw [claimsAfter_snoc, Claims.step]
  have hconf : (claimsAfter table blockers hints).conflicts g = false ↔
      ∀ k ∈ (claimsAfter table blockers hints).safe, Apart k g :=
    (claimsAfter_tracks hints).conflicts
  split
  · rename_i hok
    rw [mem_append, mem_singleton]
    constructor
    · rintro (hh | rfl)
      · exact Or.inl hh
      · exact Or.inr ⟨rfl, hok.1, hconf.1 hok.2⟩
    · rintro (hh | ⟨rfl, _⟩)
      · exact Or.inl hh
      · exact Or.inr rfl
  · rename_i hno
    constructor
    · exact Or.inl
    · rintro (hh | ⟨_, happ, hap⟩)
      · exact hh
      · exact absurd ⟨happ, hconf.2 hap⟩ hno

/-- The recursive rule agrees with the running filter. -/
theorem chosen_iff (hints : List InPlaceHint) (h : InPlaceHint) :
    Chosen table blockers hints.reverse h ↔
      evaluateHint table h blockers = .apply ∧
        ∀ k ∈ (claimsAfter table blockers hints).safe, Apart k h := by
  induction hints using reverseRecOn generalizing h with
  | nil =>
    simp [Chosen, claimsAfter]
  | append_singleton hints g ih =>
    rw [reverse_append, reverse_singleton, singleton_append, Chosen, ih h, ih g]
    constructor
    · rintro ⟨⟨happ, hap⟩, hg⟩
      refine ⟨happ, ?_⟩
      intro k hk
      rcases (safe_snoc hints g k).1 hk with hk | ⟨rfl, hgk⟩
      · exact hap k hk
      · exact hg hgk
    · rintro ⟨happ, hap⟩
      refine ⟨⟨happ, ?_⟩, ?_⟩
      · intro k hk
        exact hap k ((safe_snoc hints g k).2 (Or.inl hk))
      · intro hgk
        exact hap g ((safe_snoc hints g g).2 (Or.inr ⟨rfl, hgk⟩))

theorem mem_acceptedHints {hints : List InPlaceHint} : h ∈ acceptedHints table hints blockers ↔
      ∃ earlier later, hints = earlier ++ h :: later ∧
        Chosen table blockers earlier.reverse h := by
  have hsafe : ∀ hints : List InPlaceHint, h ∈ (claimsAfter table blockers hints).safe ↔
      ∃ earlier later, hints = earlier ++ h :: later ∧
        Chosen table blockers earlier.reverse h := by
    intro hints
    induction hints using reverseRecOn with
    | nil =>
      simp [claimsAfter]
    | append_singleton hints g ih =>
      rw [safe_snoc, ih]
      constructor
      · rintro (⟨earlier, later, rfl, hch⟩ | ⟨rfl, hch⟩)
        · exact ⟨earlier, later ++ [g], by simp, hch⟩
        · exact ⟨hints, [], rfl, (chosen_iff hints h).2 hch⟩
      · rintro ⟨earlier, later, heq, hch⟩
        -- The chosen hint is the last one, or the split is one of the shorter list.
        rcases eq_nil_or_concat later with rfl | ⟨later, last, rfl⟩
        · rcases append_inj' heq rfl with ⟨rfl, hlast⟩
          cases hlast
          exact Or.inr ⟨rfl, (chosen_iff _ _).1 hch⟩
        · rw [concat_eq_append, ← cons_append, ← append_assoc] at heq
          rcases append_inj' heq rfl with ⟨rfl, _⟩
          exact Or.inl ⟨earlier, later, rfl, hch⟩
  exact hsafe hints

end Filter

variable {table : LifetimeTable} {blockers : InPlaceBlockers}

theorem selfHintsDropped_iff : SelfHintsDropped table hints blockers ↔
      ∀ h ∈ acceptedHints table hints blockers, h.input ≠ h.output := by
  constructor
  · intro hdrop h hh
    rcases mem_acceptedHints.1 hh with ⟨earlier, later, heq, hch⟩
    exact hdrop earlier h later heq hch
  · intro hne earlier h later heq hch
    exact hne h (mem_acceptedHints.2 ⟨earlier, later, heq, hch⟩)

/-! ## Plans whose slots and assignment agree -/

namespace PlanResult

def ids (r : PlanResult) : List TensorId :=
  r.assignment.map fst

/-- Every assigned tensor is assigned once, and is a tenant of exactly the slot it is assigned
to, once. -/
structure Placed (r : PlanResult) : Prop where
  once : r.ids.Nodup
  tenant : ∀ id k, (id, k) ∈ r.assignment ↔ ∃ s, r.slots[k]? = some s ∧ id ∈ s.tenants
  single : ∀ s ∈ r.slots, s.tenants.Nodup

/-- The plan places exactly the tensors of the table. -/
structure Complete (table : LifetimeTable) (r : PlanResult) : Prop where
  placed : r.Placed
  covers : ∀ id, id ∈ r.ids ↔ (table.get id).isSome

variable {r : PlanResult} {id : TensorId}

theorem Placed.slotOf {k : Nat} : r.Placed → (r.slotOf id = some k ↔ (id, k) ∈ r.assignment) := by
  intro hr
  exact find?_key_eq_some hr.once

theorem Placed.exists_slotOf :
    r.Placed → id ∈ r.ids → ∃ k, r.slotOf id = some k ∧ k < r.slots.length := by
  intro hr hid
  rcases mem_map.1 hid with ⟨⟨_, k⟩, hmem, rfl⟩
  refine ⟨k, hr.slotOf.2 hmem, ?_⟩
  rcases (hr.tenant _ _).1 hmem with ⟨s, hs, _⟩
  exact (List.getElem?_eq_some_iff.1 hs).1

theorem Placed.push {k : Nat} : r.Placed → id ∉ r.ids → k < r.slots.length →
      Placed { slots := r.slots.modify k (fun s => s.pushAliasedTenant id)
               assignment := r.assignment ++ [(id, k)] } := by
  intro hr hid hk
  -- an id without a slot is a tenant of none
  have hnew : ∀ s ∈ r.slots, id ∉ s.tenants := by
    intro s hs hmem
    rcases getElem?_of_mem hs with ⟨j, hj⟩
    have hassigned := (hr.tenant id j).2 ⟨s, hj, hmem⟩
    exact hid (mem_map_of_mem (f := fst) hassigned)
  refine ⟨?_, ?_, ?_⟩
  · -- the id is new, so it is assigned once
    have hids : (r.ids ++ [id]).Nodup := by
      refine nodup_append'.2 ⟨hr.once, nodup_singleton id, ?_⟩
      intro a ha hb
      rw [mem_singleton] at hb
      exact hid (hb ▸ ha)
    simpa [ids] using hids
  · intro id' j
    rw [mem_append, hr.tenant, mem_singleton, Prod.mk.injEq]
    simp only [getElem?_modify, Option.map_eq_map, Option.map_eq_some_iff]
    constructor
    · rintro (⟨s, hs, hmem⟩ | ⟨rfl, rfl⟩)
      · refine ⟨_, ⟨s, hs, rfl⟩, ?_⟩
        split
        · exact mem_append_left [id] hmem
        · exact hmem
      · refine ⟨_, ⟨_, getElem?_eq_getElem hk, rfl⟩, ?_⟩
        rw [if_pos rfl]
        exact mem_append_right _ (mem_singleton_self _)
    · rintro ⟨_, ⟨s, hs, rfl⟩, hmem⟩
      split at hmem
      · rename_i hkj
        rcases mem_append.1 hmem with hold | hlast
        · exact Or.inl ⟨s, hs, hold⟩
        · exact Or.inr ⟨mem_singleton.1 hlast, hkj.symm⟩
      · exact Or.inl ⟨s, hs, hmem⟩
  · intro s hs
    rcases getElem?_of_mem hs with ⟨j, hj⟩
    simp only [getElem?_modify, Option.map_eq_map, Option.map_eq_some_iff] at hj
    rcases hj with ⟨old, hold, rfl⟩
    have hmem : old ∈ r.slots := mem_of_getElem? hold
    split
    · refine nodup_append'.2 ⟨hr.single old hmem, nodup_singleton id, ?_⟩
      intro a ha hb
      rw [mem_singleton] at hb
      exact hnew old hmem (hb ▸ ha)
    · exact hr.single old hmem

end PlanResult

theorem plan_complete (table : LifetimeTable) : (plan table).Complete table := by
  have htenant : ∀ id k, (id, k) ∈ (plan table).assignment ↔
      ∃ s, (plan table).slots[k]? = some s ∧ id ∈ s.tenants := by
    intro id k
    constructor
    · intro h
      rcases mem_assignment.1 h with ⟨iv, _, hmem⟩
      have hlt := (packRows_packed (packingOrder table)).bound _ (FirstFit.mem_contents.1 hmem)
      have hs := getElem?_eq_getElem (l := (plan table).slots) hlt
      exact ⟨_, hs, (mem_tenants hs).2 h⟩
    · rintro ⟨s, hs, hmem⟩
      exact (mem_tenants hs).1 hmem
  refine ⟨⟨plan_assignment_nodup table, htenant, ?_⟩, ?_⟩
  · intro s hs
    rcases getElem?_of_mem hs with ⟨k, hk⟩
    have hfilled := (packRows_packed (packingOrder table)).filled k s hk
    have hrows : ((packRows (packingOrder table)).2.map fst).map fst =
        (packingOrder table).map fst := by
      rw [packRows, FirstFit.pack_items]
    have hnodup : (((packRows (packingOrder table)).2.map fst).map fst).Nodup := by
      rw [hrows]
      exact ((packingOrder_perm table).map fst).nodup_iff.2 table.nodup_iter_ids
    rw [filled_tenants hfilled]
    exact hnodup.sublist ((filter_sublist.map fst).map fst)
  · intro id
    rw [PlanResult.ids, plan_assignment_ids, ((packingOrder_perm table).map fst).mem_iff,
      Option.isSome_iff_exists]
    constructor
    · intro h
      rcases mem_map.1 h with ⟨⟨id', iv⟩, hrow, rfl⟩
      exact ⟨iv, mem_iter.1 hrow⟩
    · rintro ⟨iv, hiv⟩
      exact mem_map.2 ⟨(id, iv), mem_iter.2 hiv, rfl⟩

/-! ## The call returns -/

theorem stitchStep_placed : r.Placed → h.input ∈ r.ids → h.output ∉ r.ids →
      ∃ r', stitchStep r h = some r' ∧ r'.Placed ∧ r'.ids = r.ids ++ [h.output] := by
  intro hr hin hout
  rcases hr.exists_slotOf hin with ⟨k, hk, hlt⟩
  refine ⟨{ slots := r.slots.modify k (fun s => s.pushAliasedTenant h.output)
            assignment := r.assignment ++ [(h.output, k)] }, ?_, hr.push hout hlt, ?_⟩
  · simp [stitchStep, hk, hlt]
  · simp [PlanResult.ids]

theorem stitch_placed (safe : List InPlaceHint) :
    ∀ r : PlanResult, r.Placed → (∀ h ∈ safe, h.input ∈ r.ids) →
      (∀ h ∈ safe, h.output ∉ r.ids) → (safe.map InPlaceHint.output).Nodup →
        ∃ r', safe.foldlM stitchStep r = some r' ∧ r'.Placed ∧
          r'.ids = r.ids ++ safe.map InPlaceHint.output := by
  induction safe with
  | nil =>
    intro r hr _ _ _
    exact ⟨r, rfl, hr, by simp⟩
  | cons h safe ih =>
    intro r hr hin hout hnodup
    have hcons := nodup_cons.1 (map_cons ▸ hnodup)
    rcases stitchStep_placed hr (hin h mem_cons_self) (hout h mem_cons_self) with
      ⟨mid, hstep, hmid, hids⟩
    have hinmid : ∀ g ∈ safe, g.input ∈ mid.ids := by
      intro g hg
      rw [hids]
      exact mem_append_left _ (hin g (mem_cons_of_mem h hg))
    have houtmid : ∀ g ∈ safe, g.output ∉ mid.ids := by
      intro g hg hmem
      rw [hids, mem_append, mem_singleton] at hmem
      rcases hmem with hmem | heq
      · exact hout g (mem_cons_of_mem h hg) hmem
      · exact hcons.1 (heq ▸ mem_map_of_mem hg)
    rcases ih mid hmid hinmid houtmid hcons.2 with ⟨r', hfold, hr', hids'⟩
    refine ⟨r', ?_, hr', ?_⟩
    · rw [foldlM_cons, hstep]
      exact hfold
    · rw [hids', hids]
      simp

theorem exists_mergedIntervals (safe : List InPlaceHint) :
    (∀ h ∈ safe, (table.get h.input).isSome ∧ (table.get h.output).isSome) →
      ∃ m, mergedIntervals table safe = some m := by
  have hfold : ∀ (safe : List InPlaceHint) (m : AList (fun _ : TensorId => Interval)),
      (∀ h ∈ safe, (table.get h.input).isSome ∧ (table.get h.output).isSome) →
        ∃ m', safe.foldlM
          (fun m h => do
            let input ← table.get h.input
            let output ← table.get h.output
            some (m.insert h.input (mergeIntervals input output))) m = some m' := by
    intro safe
    induction safe with
    | nil =>
      intro m _
      exact ⟨m, rfl⟩
    | cons h safe ih =>
      intro m hall
      rcases hall h mem_cons_self with ⟨hin, hout⟩
      rcases Option.isSome_iff_exists.1 hin with ⟨i, hi⟩
      rcases Option.isSome_iff_exists.1 hout with ⟨o, ho⟩
      rcases ih (m.insert h.input (mergeIntervals i o))
        (fun g hg => hall g (mem_cons_of_mem h hg)) with ⟨m', hm'⟩
      refine ⟨m', ?_⟩
      rw [foldlM_cons, hi, ho]
      exact hm'
  exact hfold safe ∅

theorem isSome_get_rewriteTable {accepted : List InPlaceHint}
    {m : AList (fun _ : TensorId => Interval)} : Merged table accepted m → ∀ id,
      ((rewriteTable table (accepted.map InPlaceHint.output) m).get id).isSome ↔
        (table.get id).isSome ∧ id ∉ accepted.map InPlaceHint.output := by
  intro hm id
  constructor
  · intro hsome
    refine ⟨?_, ?_⟩
    · cases hget : table.get id with
      | none =>
        rw [get_rewriteTable_missing hget] at hsome
        cases hsome
      | some iv =>
        rfl
    · intro hal
      rw [get_rewriteTable_aliased hal] at hsome
      cases hsome
  · rintro ⟨hsome, hal⟩
    rcases Option.isSome_iff_exists.1 hsome with ⟨iv, hiv⟩
    rcases (represented_self hm hal).covers iv hiv with ⟨big, hbig, _⟩
    rw [hbig]
    rfl

theorem planWithInplace_complete : (∀ h ∈ acceptedHints table hints blockers, h.input ≠ h.output) →
      ∃ r, planWithInplace table hints blockers = some r ∧ r.Complete table := by
  intro hself
  rcases acceptedHints_inv table hints blockers with ⟨happ, hpair⟩
  have hknown : ∀ h ∈ acceptedHints table hints blockers,
      (table.get h.input).isSome ∧ (table.get h.output).isSome := by
    intro h hh
    rcases evaluateHint_apply (happ h hh) with ⟨i, o, hi, ho, _⟩
    simp [hi, ho]
  rcases exists_mergedIntervals _ hknown with ⟨m, hm⟩
  have hget := isSome_get_rewriteTable (mergedIntervals_merged hpair hm)
  have hbase := plan_complete (rewriteTable table
    ((acceptedHints table hints blockers).map InPlaceHint.output) m)
  -- No accepted input is an accepted output: not its own, and not another hint's.
  have hin : ∀ h ∈ acceptedHints table hints blockers,
      h.input ∉ (acceptedHints table hints blockers).map InPlaceHint.output := by
    intro h hh hmem
    rcases mem_map.1 hmem with ⟨g, hg, heq⟩
    by_cases hgh : g = h
    · subst hgh
      exact hself g hg heq.symm
    · have hap : Apart g h := hpair.forall hg hh hgh
      exact hap.output_ne_input heq
  rcases stitch_placed (acceptedHints table hints blockers) _ hbase.placed
    (fun h hh => (hbase.covers _).2 ((hget _).2 ⟨(hknown h hh).1, hin h hh⟩))
    (fun h hh hmem => ((hget _).1 ((hbase.covers _).1 hmem)).2 (mem_map_of_mem hh))
    (pairwise_map.2 (hpair.imp (fun h => h.output_ne))) with ⟨r, hr, hplaced, hids⟩
  refine ⟨r, ?_, hplaced, ?_⟩
  · rw [planWithInplace, hm]
    exact hr
  · intro id
    rw [hids, mem_append, hbase.covers, hget]
    constructor
    · rintro (⟨hsome, _⟩ | hmem)
      · exact hsome
      · rcases mem_map.1 hmem with ⟨h, hh, rfl⟩
        exact (hknown h hh).2
    · intro hsome
      by_cases hal : id ∈ (acceptedHints table hints blockers).map InPlaceHint.output
      · exact Or.inr hal
      · exact Or.inl ⟨hsome, hal⟩

/-- A call that returns has accepted no hint that names one tensor twice: its input would have
been dropped from the packed table. -/
theorem planWithInplace_self : planWithInplace table hints blockers = some r →
      ∀ h ∈ acceptedHints table hints blockers, h.input ≠ h.output := by
  intro hr h hh heq
  rcases planWithInplace_eq_some hr with ⟨m, _, hs⟩
  rcases hs.found h hh with ⟨k, hk⟩
  rcases mem_assignment.1 (slotOf_eq_some.1 hk) with ⟨iv, hget, _⟩
  rw [heq, get_rewriteTable_aliased (mem_map_of_mem hh)] at hget
  cases hget

/-- For every table, hint list and blocker set, the call returns a complete plan exactly when no
chosen hint names one tensor as its input and its output. -/
theorem planWithInplace_complete_iff (table : LifetimeTable) (hints : List InPlaceHint)
    (blockers : InPlaceBlockers) :
    (∃ r, planWithInplace table hints blockers = some r ∧ r.Complete table) ↔
      SelfHintsDropped table hints blockers := by
  rw [selfHintsDropped_iff]
  constructor
  · rintro ⟨r, hr, _⟩
    exact planWithInplace_self hr
  · exact planWithInplace_complete

/-- One tensor, dead at step 0. -/
def singleTable : LifetimeTable :=
  new.recordDef ⟨0⟩ 0 4

/-- A hint to overwrite tensor 0 by itself at its last step is accepted, and the call panics. -/
theorem planWithInplace_self_hint :
    ¬ ∃ r, planWithInplace singleTable [{ input := ⟨0⟩, output := ⟨0⟩, step := 0 }]
      InPlaceBlockers.new = some r ∧ r.Complete singleTable := by
  have hnone : planWithInplace singleTable [{ input := ⟨0⟩, output := ⟨0⟩, step := 0 }]
      InPlaceBlockers.new = none := by
    decide
  rintro ⟨r, hr, _⟩
  rw [hnone] at hr
  cases hr

end Planner
end Rustorch
