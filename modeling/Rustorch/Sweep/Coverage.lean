import Mathlib.Algebra.BigOperators.Ring.List
import Rustorch.Sweep.Spec

/-!
# When sweeps cover the product without repetition

Axis values are overlaid on the base by name, so that an axis whose name comes again leaves no
trace.  Grid and random plans have every combination once exactly when no such axis has a choice,
and the number of combinations is a `usize`.
-/

namespace Rustorch
namespace Sweep

open List Machine

variable {N : Type} {entries : List (String × Json N)} {axes : List (Axis N)}

/-- `get` on an object. -/
def Json.get? (j : Json N) (k : String) : Option (Json N) :=
  match j with
  | .object entries => entries.lookup k
  | _ => none

/-- The configuration is the base outside the names of the axes and what the trial records on
them. -/
structure Agrees (entries : List (String × Json N)) (axes : List (Axis N)) (t : Trial N) :
    Prop where
  outside : ∀ k ∉ axes.map Axis.name, t.cfg.get? k = entries.lookup k
  inside : ∀ k ∈ axes.map Axis.name, ∃ v, t.axes.get? k = some v ∧ t.cfg.get? k = some v

/-- The trials are as many as `size` says, no two alike, and agree with the base. -/
structure Trials (entries : List (String × Json N)) (axes : List (Axis N)) (size : Nat)
    (trials : List (Trial N)) : Prop where
  length : trials.length = size
  nodup : (trials.map Trial.cfg).Nodup
  agrees : ∀ t ∈ trials, Agrees entries axes t

/-- What grid and random plans promise. -/
def Covers (m : Machine) (env : Env N) (entries : List (String × Json N))
    (axes : List (Axis N)) : Prop :=
  ∃ size grid, cartesianSize m axes = .ok size ∧
    SweepSpec.plan m env { strategy := .grid, axes } (.object entries) = .ok grid ∧
    Trials entries axes size grid ∧
    ∀ cfg, ∃ sampled,
      SweepSpec.plan m env { strategy := .random cfg, axes } (.object entries) = .ok sampled ∧
      Trials entries axes (min cfg.trials size) sampled ∧
      ∀ t ∈ sampled, t.cfg ∈ grid.map Trial.cfg

/-- No combination is empty or no axis that a later one of its name overwrites has a choice. -/
def Distinguishable (axes : List (Axis N)) : Prop :=
  (∃ a ∈ axes, a.values = []) ∨
    axes.Pairwise (fun a b => a.name = b.name → a.values.length = 1)

/-! ## Combinations -/

/-- One value of each axis. -/
def Combination (combo : List (Json N)) (axes : List (Axis N)) : Prop :=
  List.Forall₂ (fun v (a : Axis N) => v ∈ a.values) combo axes

variable {combo : List (Json N)} {a : Axis N} {v : Json N} {combos : List (List (Json N))}

theorem mem_cartesian : combo ∈ cartesian axes ↔ Combination combo axes := by
  rw [cartesian_eq, Choices.mem_all, forall₂_map_right_iff]
  rfl

theorem nodup_cartesian : (∀ a ∈ axes, a.values.Nodup) → (cartesian axes).Nodup := by
  intro h
  rw [cartesian_eq]
  apply Choices.nodup_all
  intro values hvalues
  obtain ⟨a, ha, rfl⟩ := mem_map.1 hvalues
  exact h a ha

theorem exists_combination : (∀ a ∈ axes, a.values ≠ []) → ∃ combo, Combination combo axes := by
  induction axes with
  | nil => exact fun _ => ⟨[], .nil⟩
  | cons a axes ih =>
    intro h
    obtain ⟨hfirst, hrest⟩ := forall_mem_cons.1 h
    obtain ⟨v, hv⟩ := exists_mem_of_ne_nil _ hfirst
    obtain ⟨combo, hcombo⟩ := ih hrest
    exact ⟨v :: combo, .cons hv hcombo⟩

theorem keys_assignments :
    Combination combo axes → (assignments axes combo).map Prod.fst = axes.map Axis.name := by
  intro h
  rw [assignments, map_fst_zip]
  rw [length_map]
  exact h.length_eq.ge

/-! ## Overlays of combinations -/

/-- The configuration of a combination. -/
def configOf (entries : List (String × Json N)) (axes : List (Axis N))
    (combo : List (Json N)) : List (String × Json N) :=
  Overlay.overlay entries (assignments axes combo)

theorem configOf_cons : configOf entries (a :: axes) (v :: combo) =
      configOf (Overlay.insert a.name v entries) axes combo :=
  rfl

theorem lookup_configOf : a.name ∉ axes.map Axis.name → Combination combo axes →
      (configOf entries (a :: axes) (v :: combo)).lookup a.name = some v := by
  intro hname h
  rw [configOf_cons, configOf, Overlay.lookup_overlay_of_notMem, Overlay.lookup_insert_self]
  rwa [keys_assignments h]

/-- Where no overwritten axis has a choice, the configuration tells the combination. -/
theorem configOf_injective {combo' : List (Json N)} :
    axes.Pairwise (fun a b => a.name = b.name → a.values.length = 1) →
      Combination combo axes → Combination combo' axes →
        configOf entries axes combo = configOf entries axes combo' → combo = combo' := by
  intro hpairwise h h' heq
  induction h generalizing combo' entries with
  | nil =>
    cases h'
    rfl
  | @cons v a combo axes hv hrest ih =>
    cases h' with
    | @cons v' _ combo' _ hv' hrest' =>
      obtain ⟨hfirst, hpairwise⟩ := pairwise_cons.1 hpairwise
      have hsame : v = v' := by
        by_cases hlater : a.name ∈ axes.map Axis.name
        · obtain ⟨b, hb, hname⟩ := mem_map.1 hlater
          obtain ⟨w, hw⟩ := length_eq_one_iff.1 (hfirst b hb hname.symm)
          rw [hw, mem_singleton] at hv hv'
          rw [hv, hv']
        · have hget := congrArg (lookup a.name) heq
          rw [lookup_configOf hlater hrest, lookup_configOf hlater hrest'] at hget
          exact Option.some.inj hget
      subst hsame
      rw [ih hpairwise hrest' heq]

theorem exists_same_config :
    (∀ a ∈ axes, a.values.Nodup) → (∀ a ∈ axes, a.values ≠ []) →
      ¬ axes.Pairwise (fun a b => a.name = b.name → a.values.length = 1) →
        ∃ combo combo', Combination combo axes ∧ Combination combo' axes ∧ combo ≠ combo' ∧
          ∀ entries, configOf entries axes combo = configOf entries axes combo' := by
  induction axes with
  | nil => exact fun _ _ h => absurd .nil h
  | cons a axes ih =>
    intro hnodup hne hpairwise
    obtain ⟨hnodupa, hnodup⟩ := forall_mem_cons.1 hnodup
    obtain ⟨hnea, hne⟩ := forall_mem_cons.1 hne
    rw [pairwise_cons, not_and_or] at hpairwise
    rcases hpairwise with hfirst | hrest
    · push Not at hfirst
      obtain ⟨b, hb, hname, hlen⟩ := hfirst
      obtain ⟨v, w, values, hvalues⟩ : ∃ v w values, a.values = v :: w :: values := by
        match h : a.values with
        | [] => exact absurd h hnea
        | [v] => exact absurd (by rw [h]; rfl) hlen
        | v :: w :: values => exact ⟨v, w, values, rfl⟩
      have hvw : v ≠ w := by
        rw [hvalues] at hnodupa
        exact fun heq => (nodup_cons.1 hnodupa).1 (heq ▸ mem_cons_self)
      obtain ⟨combo, hcombo⟩ := exists_combination hne
      refine ⟨v :: combo, w :: combo, ?_, ?_, ?_, ?_⟩
      · exact .cons (by simp [hvalues]) hcombo
      · exact .cons (by simp [hvalues]) hcombo
      · exact fun heq => hvw (cons.inj heq).1
      · intro entries
        have hkey : a.name ∈ (assignments axes combo).map Prod.fst := by
          rw [keys_assignments hcombo, hname]
          exact mem_map_of_mem hb
        rw [configOf_cons, configOf_cons, configOf, configOf,
          Overlay.overlay_insert_of_mem hkey, Overlay.overlay_insert_of_mem hkey]
    · obtain ⟨v, hv⟩ := exists_mem_of_ne_nil _ hnea
      obtain ⟨combo, combo', h, h', hdiff, hsame⟩ := ih hnodup hne hrest
      refine ⟨v :: combo, v :: combo', .cons hv h, .cons hv h', ?_, ?_⟩
      · exact fun heq => hdiff (cons.inj heq).2
      · intro entries
        rw [configOf_cons, configOf_cons, hsame]

/-- Different combinations have different configurations exactly for distinguishable axes. -/
theorem nodup_configs_iff (hnodup : ∀ a ∈ axes, a.values.Nodup) :
    ((cartesian axes).map (configOf entries axes)).Nodup ↔ Distinguishable axes := by
  constructor
  · intro h
    by_cases hempty : ∃ a ∈ axes, a.values = []
    · exact .inl hempty
    · refine .inr ?_
      by_contra hpairwise
      push Not at hempty
      obtain ⟨combo, combo', hc, hc', hdiff, hsame⟩ :=
        exists_same_config hnodup hempty hpairwise
      exact hdiff (inj_on_of_nodup_map h (mem_cartesian.2 hc) (mem_cartesian.2 hc')
        (hsame entries))
  · rintro (⟨a, ha, hempty⟩ | hpairwise)
    · have hnone : cartesian axes = [] := by
        rw [← length_eq_zero_iff, length_cartesian, prod_eq_zero_iff, mem_map]
        exact ⟨a, ha, by rw [hempty]; rfl⟩
      rw [hnone]
      exact nodup_nil
    · refine (nodup_cartesian hnodup).map_on ?_
      intro combo hc combo' hc' heq
      exact configOf_injective hpairwise (mem_cartesian.1 hc) (mem_cartesian.1 hc') heq

/-! ## Trials -/

theorem agrees_makeTrial {id : String} {b : Option UInt32} :
    Combination combo axes → Agrees entries axes (makeTrial id (.object entries) axes combo b) := by
  intro h
  refine ⟨?_, ?_⟩
  · intro k hk
    exact Overlay.lookup_overlay_of_notMem (by rwa [keys_assignments h])
  · intro k hk
    rw [← keys_assignments h] at hk
    obtain ⟨v, hv⟩ := Overlay.lookup_overlay_of_mem hk
    exact ⟨v, hv [], hv entries⟩

theorem map_cfg_mapIdx {ids : Nat → String} :
    (combos.mapIdx (fun i combo => makeTrial (ids i) (.object entries) axes combo none)).map
      Trial.cfg = (combos.map (configOf entries axes)).map Json.object := by
  rw [map_map]
  refine ext_getElem (by simp) ?_
  intro i hi hi'
  rw [getElem_map, getElem_mapIdx, getElem_map]
  rfl

theorem object_injective : Function.Injective (Json.object (N := N)) :=
  fun _ _ h => Json.object.inj h

/-- A plan of combinations is as good as their configurations are different. -/
theorem trials_mapIdx (ids : Nat → String) (hcombos : ∀ combo ∈ combos, Combination combo axes)
    (hnodup : (combos.map (configOf entries axes)).Nodup) : Trials entries axes combos.length
      (combos.mapIdx (fun i combo => makeTrial (ids i) (.object entries) axes combo none)) where
  length := length_mapIdx
  nodup := by
    rw [map_cfg_mapIdx]
    exact hnodup.map object_injective
  agrees := by
    intro t ht
    obtain ⟨i, hi, rfl⟩ := mem_mapIdx.1 ht
    exact agrees_makeTrial (hcombos _ (getElem_mem hi))

/-! ## Plans -/

section Plans

variable {m : Machine} {env : Env N}

theorem plan_grid (hne : axes ≠ []) :
    SweepSpec.plan m env { strategy := .grid, axes } (.object entries) =
      .ok (planGrid env axes (.object entries)) := by
  simp [SweepSpec.plan, Json.isObject, hne]

theorem plan_random (hne : axes ≠ []) {cfg : RandomConfig} {size : Nat} :
    cartesianSize m axes = .ok size →
      ∃ combos : List (List (Json N)), combos.Perm (cartesian axes) ∧
        SweepSpec.plan m env { strategy := .random cfg, axes } (.object entries) =
          .ok ((combos.take (min cfg.trials size)).mapIdx
            (fun i combo => makeTrial (env.ulid i) (.object entries) axes combo none)) := by
  intro hsize
  have hplan : SweepSpec.plan m env { strategy := .random cfg, axes } (.object entries) =
      planRandom m env cfg axes (.object entries) := by
    simp [SweepSpec.plan, Json.isObject, hne]
  have hseed : ∃ seed, planRandom m env cfg axes (.object entries) =
      .ok ((((env.stdRng seed).run (cartesian axes)).take (min cfg.trials size)).mapIdx
        (fun i combo => makeTrial (env.ulid i) (.object entries) axes combo none)) := by
    rw [planRandom, hsize]
    exact ⟨_, rfl⟩
  obtain ⟨seed, hseed⟩ := hseed
  exact ⟨(env.stdRng seed).run (cartesian axes), Shuffle.perm _ _, hplan.trans hseed⟩

theorem covers_of_distinguishable (hne : axes ≠ []) (hvalues : ∀ a ∈ axes, a.values.Nodup)
    (hsize : cartesianSize m axes = .ok (cartesian axes).length) :
    Distinguishable axes → Covers m env entries axes := by
  intro hdist
  have hnodup : ((cartesian axes).map (configOf entries axes)).Nodup :=
    (nodup_configs_iff hvalues).2 hdist
  refine ⟨_, _, hsize, plan_grid hne, ?_, ?_⟩
  · exact trials_mapIdx env.ulid (fun combo h => mem_cartesian.1 h) hnodup
  · intro cfg
    obtain ⟨combos, hperm, hplan⟩ := plan_random hne hsize
    have hsub : ∀ combo ∈ combos.take (min cfg.trials (cartesian axes).length),
        combo ∈ cartesian axes := fun combo h => hperm.mem_iff.1 (mem_of_mem_take h)
    have hconfigs :
        ((combos.take (min cfg.trials (cartesian axes).length)).map
          (configOf entries axes)).Nodup := by
      have hall := (hperm.map (configOf entries axes)).nodup_iff.2 hnodup
      rw [map_take]
      exact hall.sublist (take_sublist _ _)
    have hlen : (combos.take (min cfg.trials (cartesian axes).length)).length =
        min cfg.trials (cartesian axes).length := by
      rw [length_take, hperm.length_eq, Nat.min_assoc, Nat.min_self]
    refine ⟨_, hplan, ?_, ?_⟩
    · have htrials := trials_mapIdx env.ulid
        (fun combo h => mem_cartesian.1 (hsub combo h)) hconfigs
      rwa [hlen] at htrials
    · intro t ht
      have hcfg := mem_map_of_mem (f := Trial.cfg) ht
      rw [map_cfg_mapIdx] at hcfg
      rw [planGrid, map_cfg_mapIdx]
      exact map_subset _ (map_subset _ hsub) hcfg

theorem distinguishable_of_covers (hne : axes ≠ []) (hvalues : ∀ a ∈ axes, a.values.Nodup) :
    Covers m env entries axes → Distinguishable axes := by
  rintro ⟨size, grid, -, hgrid, htrials, -⟩
  rw [plan_grid hne] at hgrid
  cases hgrid
  have hnodup := htrials.nodup
  rw [planGrid, map_cfg_mapIdx] at hnodup
  exact (nodup_configs_iff hvalues).1 (hnodup.of_map _)

end Plans

/-- In both builds and for every generator, the grid and random plans of a sweep cover its product
without repetition exactly when its axes can be told apart and no product of sizes overflows. -/
theorem plans_cover_iff (memory : Nat) (entries : List (String × Json N)) (axes : List (Axis N))
    (hne : axes ≠ []) (hvalues : ∀ a ∈ axes, a.values.Nodup) :
    (∀ build env, Covers ⟨build, memory⟩ env entries axes) ↔
      Distinguishable axes ∧ PartialProducts (axes.map (fun a => a.values.length)) := by
  constructor
  · intro h
    refine ⟨distinguishable_of_covers hne hvalues (h .debug plainEnv), ?_⟩
    obtain ⟨size, grid, hsize, -⟩ := h .debug plainEnv
    apply partial_of_product
    rw [← cartesianSize, hsize]
    exact nofun
  · rintro ⟨hdist, hproducts⟩ build env
    refine covers_of_distinguishable hne hvalues ?_ hdist
    rw [cartesianSize, product_eq_prod hproducts, length_cartesian]

/-- Two axes of different names. -/
theorem plans_cover_iff_lr_wd :
    (∀ build env, Covers ⟨build, 1024⟩ env [] [lrAxis, { lrAxis with name := "wd" }]) ↔
      Distinguishable [lrAxis, { lrAxis with name := "wd" }] ∧ PartialProducts [2, 2] :=
  plans_cover_iff 1024 [] [lrAxis, { lrAxis with name := "wd" }] (cons_ne_nil _ _)
    (by simp [lrAxis])

/-- Two axes of one name: four trials, and two configurations. -/
theorem not_covers_repeated_name :
    ¬ ∀ build env, Covers ⟨build, 1024⟩ env [] [lrAxis, lrAxis] := by
  intro h
  have hvalues : ∀ a ∈ [lrAxis, lrAxis], a.values.Nodup := by simp [lrAxis]
  rcases distinguishable_of_covers (cons_ne_nil _ _) hvalues (h .release plainEnv) with
    ⟨a, ha, hempty⟩ | hpairwise
  · simp only [mem_cons, not_mem_nil, or_self, or_false] at ha
    rw [ha] at hempty
    cases hempty
  · have hfirst := (pairwise_cons.1 hpairwise).1 lrAxis (mem_singleton_self _) rfl
    exact absurd hfirst (by decide)

end Sweep
end Rustorch
