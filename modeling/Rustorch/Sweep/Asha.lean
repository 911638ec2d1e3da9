import Rustorch.Lib.Halving
import Rustorch.Sweep.Spec

/-!
# When an ASHA plan halves successively

The budgets are multiplied with saturation, so that a plan whose bound is the greatest `u32` ends
with a budget that is no multiple.  The plan is a successive-halving schedule exactly when that
budget does not arise or no combination is left for it.
-/

namespace Rustorch
namespace Sweep

open List Halving

variable {N : Type} {env : Env N} {base : Json N} {axes : List (Axis N)}

/-! ## What a trial runs -/

namespace Trial

/-- What was merged and what was assigned. -/
def settings (t : Trial N) : Json N × Json N :=
  (t.cfg, t.axes)

/-- The resource budget, 0 where the trial has none. -/
def budget (t : Trial N) : Nat :=
  t.rungBudget.elim 0 UInt32.toNat

end Trial

/-- Budgets and settings of a plan, in its order. -/
def outline (plan : List (Trial N)) : List (Nat × (Json N × Json N)) :=
  plan.map (fun t => (t.budget, t.settings))

/-- The settings of a combination. -/
def settingsOf (base : Json N) (axes : List (Axis N)) (combo : List (Json N)) :
    Json N × Json N :=
  (makeTrial "" base axes combo none).settings

variable {id : String} {combo : List (Json N)} {b : Option UInt32}

theorem settings_makeTrial :
    (makeTrial id base axes combo b).settings = settingsOf base axes combo := by
  cases base <;> rfl

theorem rungBudget_makeTrial : (makeTrial id base axes combo b).rungBudget = b := by
  cases base <;> rfl

/-! ## Schedules -/

namespace AshaConfig

/-- The configurations that planning accepts. -/
structure Accepted (cfg : AshaConfig) : Prop where
  two_le : 2 ≤ cfg.eta.toNat
  one_le : 1 ≤ cfg.minResource.toNat
  le_max : cfg.minResource.toNat ≤ cfg.maxResource.toNat

/-- The exact budget of a rung. -/
def budgetAt (cfg : AshaConfig) (i : Nat) : Nat :=
  cfg.minResource.toNat * cfg.eta.toNat ^ i

/-- The saturated budget does not arise, or fewer combinations than it takes to reach it. -/
def NotSaturated (cfg : AshaConfig) (n : Nat) : Prop :=
  cfg.maxResource.toNat < u32Max ∨ (∃ i, cfg.budgetAt i = u32Max) ∨
    ∀ k, u32Max < cfg.budgetAt k → n < cfg.eta.toNat ^ k

end AshaConfig

/-- A successive-halving schedule of `n` combinations: the budgets in use are
`min_resource * eta ^ i` for the first few `i`, in increasing order and up to `max_resource`; rung
`i` has `n / eta ^ i` trials, whose combinations are among those of the rung before. -/
structure SuccessiveHalving (cfg : AshaConfig) (n : Nat) (plan : List (Trial N)) : Prop where
  increasing : (plan.map Trial.budget).Pairwise (· ≤ ·)
  budgets : ∃ r, (∀ i < r, cfg.budgetAt i ≤ cfg.maxResource.toNat) ∧
    (plan.map Trial.budget).dedup = (range r).map cfg.budgetAt
  size : ∀ i, cfg.budgetAt i ≤ cfg.maxResource.toNat →
    (rung (outline plan) (cfg.budgetAt i)).length = n / cfg.eta.toNat ^ i
  nested : ∀ i, cfg.budgetAt (i + 1) ≤ cfg.maxResource.toNat →
    rung (outline plan) (cfg.budgetAt (i + 1)) ⊆
      rung (outline plan) (cfg.budgetAt i)

/-! ## The budgets -/

/-- What the loop collects from `b` on: the `k` multiples up to the bound and, where the next one
saturates without passing the bound, the greatest `u32`. -/
structure Collects (eta max b k : Nat) (bs : List Nat) : Prop where
  le_max : ∀ i < k, b * eta ^ i ≤ max
  max_lt : max < b * eta ^ k
  shape : (max < u32Max ∨ ∃ i, b * eta ^ i = u32Max) ∧
      bs = (range k).map (fun i => b * eta ^ i) ∨
    max = u32Max ∧ (∀ i, b * eta ^ i ≠ u32Max) ∧
      bs = (range k).map (fun i => b * eta ^ i) ++ [u32Max]

section Budgets

variable {eta max b k : Nat} {bs : List Nat}

theorem map_range_succ : (range (k + 1)).map (fun i => b * eta ^ i) =
    b :: (range k).map (fun i => b * eta * eta ^ i) := by
  rw [range_succ_eq_map, map_cons, map_map, pow_zero, mul_one]
  refine congrArg (b :: ·) (map_congr_left fun i _ => ?_)
  simp only [Function.comp_apply, pow_succ', mul_assoc]

theorem Collects.cons (h : Collects eta max (b * eta) k bs) : b ≤ max → b < u32Max →
    Collects eta max b (k + 1) (b :: bs) := by
  intro hle hlt
  have hstep : ∀ i, b * eta ^ (i + 1) = b * eta * eta ^ i := by
    intro i
    rw [pow_succ', mul_assoc]
  refine ⟨?_, ?_, ?_⟩
  · intro i hi
    cases i with
    | zero => rwa [pow_zero, mul_one]
    | succ i =>
      rw [hstep]
      exact h.le_max i (Nat.lt_of_succ_lt_succ hi)
  · rw [hstep]
    exact h.max_lt
  · rw [map_range_succ]
    rcases h.shape with ⟨hexact, hbs⟩ | ⟨hmax, hne, hbs⟩
    · refine .inl ⟨hexact.imp_right ?_, by rw [hbs]⟩
      rintro ⟨i, hi⟩
      exact ⟨i + 1, by rw [hstep, hi]⟩
    · refine .inr ⟨hmax, ?_, by rw [hbs]; rfl⟩
      intro i
      cases i with
      | zero =>
        rw [pow_zero, mul_one]
        exact hlt.ne
      | succ i =>
        rw [hstep]
        exact hne i

theorem collects_nil : max < b → max < u32Max → Collects eta max b 0 [] := by
  intro hlt hmax
  refine ⟨nofun, ?_, .inl ⟨.inl hmax, rfl⟩⟩
  rwa [pow_zero, mul_one]

theorem collects_one (heta : 0 < eta) : b < u32Max → b ≤ max → max ≤ u32Max → u32Max < b * eta →
    Collects eta max b 1 (b :: if u32Max ≤ max then [u32Max] else []) := by
  intro hb hle hmax hover
  have hone : (range 1).map (fun i => b * eta ^ i) = [b] := by
    rw [map_range_succ]
    rfl
  refine ⟨?_, ?_, ?_⟩
  · intro i hi
    rw [Nat.lt_one_iff.1 hi, pow_zero, mul_one]
    exact hle
  · rw [pow_one]
    exact hmax.trans_lt hover
  · rw [hone]
    by_cases hsat : u32Max ≤ max
    · refine .inr ⟨hmax.antisymm hsat, ?_, by rw [if_pos hsat]; rfl⟩
      intro i
      cases i with
      | zero =>
        rw [pow_zero, mul_one]
        exact hb.ne
      | succ i =>
        rw [pow_succ', ← mul_assoc]
        exact (hover.trans_le (Nat.le_mul_of_pos_right _ (Nat.pow_pos heta))).ne'
    · exact .inl ⟨.inl (Nat.lt_of_not_le hsat), by rw [if_neg hsat]⟩

theorem collects_max : 2 ≤ eta → b = u32Max → max = u32Max → Collects eta max b 1 [b] := by
  rintro heta rfl rfl
  refine ⟨?_, ?_, .inl ⟨.inr ⟨0, ?_⟩, ?_⟩⟩
  · intro i hi
    rw [Nat.lt_one_iff.1 hi, pow_zero, mul_one]
  · rw [pow_one]
    exact (Nat.lt_mul_iff_one_lt_right (by decide)).2 heta
  · rw [pow_zero, mul_one]
  · rw [map_range_succ]
    rfl

end Budgets

section Loop

variable {eta max b : UInt32}

theorem budgets_of_max {heta : 2 ≤ eta.toNat} {hb : 0 < b.toNat} : b.toNat = u32Max →
    (budgets eta max b heta hb).map UInt32.toNat = if u32Max ≤ max.toNat then [u32Max] else [] := by
  intro h
  have hnext : saturatingMul b eta = b := by
    apply UInt32.toNat_inj.1
    rw [toNat_saturatingMul, h]
    exact Nat.min_eq_right (Nat.le_mul_of_pos_right _ (Nat.lt_of_lt_of_le Nat.two_pos heta))
  rw [budgets]
  simp only [hnext, dite_true]
  rw [← h]
  by_cases hle : b ≤ max
  · rw [if_pos hle, if_pos (UInt32.le_iff_toNat_le.1 hle)]
    rfl
  · rw [if_neg hle, if_neg (mt UInt32.le_iff_toNat_le.2 hle)]
    rfl

theorem budgets_collects (heta : 2 ≤ eta.toNat) (hb : 0 < b.toNat) :
    ∃ k, Collects eta.toNat max.toNat b.toNat k
      ((budgets eta max b heta hb).map UInt32.toNat) := by
  have hmax := toNat_le_u32Max max
  fun_induction budgets eta max b heta hb with
  | case1 b hb hle next hnext =>
    -- A budget that multiplying leaves in place is the greatest one.
    have htop : b.toNat = u32Max := by
      have hself : saturatingMul b eta = b := hnext
      have hfix := toNat_saturatingMul b eta
      have htwo := Nat.mul_le_mul_left b.toNat heta
      rw [hself] at hfix
      omega
    have hle' := UInt32.le_iff_toNat_le.1 hle
    exact ⟨1, collects_max heta htop (by omega)⟩
  | case2 b hb hle next hnext ih =>
    have hle' := UInt32.le_iff_toNat_le.1 hle
    have hlt := lt_saturatingMul heta hnext
    have hnat := toNat_saturatingMul b eta
    have htop : b.toNat < u32Max := hlt.trans_le (toNat_le_u32Max _)
    rw [map_cons]
    by_cases hfits : b.toNat * eta.toNat ≤ u32Max
    · rw [Nat.min_eq_left hfits] at hnat
      obtain ⟨k, hk⟩ := ih
      rw [hnat] at hk
      exact ⟨k + 1, hk.cons hle' htop⟩
    · rw [Nat.min_eq_right (Nat.le_of_not_le hfits)] at hnat
      rw [budgets_of_max hnat]
      exact ⟨1, collects_one (Nat.lt_of_lt_of_le Nat.two_pos heta) htop hle' hmax
        (Nat.lt_of_not_le hfits)⟩
  | case3 b hb hlt =>
    have hlt' := Nat.lt_of_not_le (mt UInt32.le_iff_toNat_le.2 hlt)
    exact ⟨0, collects_nil hlt' (hlt'.trans_le (toNat_le_u32Max b))⟩

end Loop

/-! ## The rungs -/

variable {plan : List (Trial N)}

theorem map_fst_outline : (outline plan).map Prod.fst = plan.map Trial.budget := by
  rw [outline, map_map]
  rfl

theorem outline_append {plan' : List (Trial N)} :
    outline (plan ++ plan') = outline plan ++ outline plan' :=
  map_append

theorem outline_mapIdx {ids : Nat → String} {combos : List (List (Json N))} {b : UInt32} :
    outline (combos.mapIdx (fun i combo => makeTrial (ids i) base axes combo (some b))) =
      (combos.map (settingsOf base axes)).map (fun st => (b.toNat, st)) := by
  rw [outline, map_map]
  refine ext_getElem (by simp) ?_
  intro i hi hi'
  rw [getElem_map, getElem_mapIdx, getElem_map, settings_makeTrial, Trial.budget,
    rungBudget_makeTrial]
  rfl

theorem outline_rungs {eta : UInt32} {bs : List UInt32} {survivors : List (List (Json N))}
    {out : List (Trial N)} :
    outline (rungs env eta base axes bs survivors out) =
      outline out ++ schedule eta.toNat (bs.map UInt32.toNat)
        (survivors.map (settingsOf base axes)) := by
  induction bs generalizing survivors out with
  | nil => exact (append_nil _).symm
  | cons b rest ih =>
    rw [rungs, map_cons, schedule, length_map, ← map_take, ← append_assoc]
    split
    · next hstop =>
        have hrest : schedule eta.toNat (rest.map UInt32.toNat)
            ((survivors.take (survivors.length / eta.toNat)).map (settingsOf base axes)) = [] := by
          rcases hstop with hzero | hnil
          · rw [hzero, take_zero, map_nil, schedule_nil]
          · rw [hnil]
            rfl
        rw [hrest, append_nil, outline_append, outline_mapIdx]
    · rw [ih, outline_append, outline_mapIdx]

/-! ## The schedule -/

section Schedule

variable {cfg : AshaConfig} {k : Nat} {plan : List (Trial N)} {items : List (Json N × Json N)}

theorem pairwise_budgetAt (h : cfg.Accepted) :
    ((range k).map cfg.budgetAt).Pairwise (· < ·) := by
  refine pairwise_map.2 (pairwise_lt_range.imp ?_)
  intro i j hij
  exact Nat.mul_lt_mul_of_pos_left (Nat.pow_lt_pow_right h.two_le hij) h.one_le

theorem getElem?_budgetAt {i : Nat} : i < k →
    ((range k).map cfg.budgetAt)[i]? = some (cfg.budgetAt i) := by
  intro hi
  rw [getElem?_map, getElem?_range hi]
  rfl

theorem successiveHalving_of_exact (h : cfg.Accepted)
    (hle : ∀ i < k, cfg.budgetAt i ≤ cfg.maxResource.toNat)
    (hlt : cfg.maxResource.toNat < cfg.budgetAt k)
    (hplan : outline plan =
      schedule cfg.eta.toNat ((range k).map cfg.budgetAt) items) :
    SuccessiveHalving cfg items.length plan := by
  have hpairwise := pairwise_budgetAt (k := k) h
  have hnodup : ((range k).map cfg.budgetAt).Nodup := hpairwise.imp fun h => Nat.ne_of_lt h
  have hrung : ∀ i, cfg.budgetAt i ≤ cfg.maxResource.toNat →
      rung (outline plan) (cfg.budgetAt i) = items.take (items.length / cfg.eta.toNat ^ i) := by
    intro i hi
    have hik : i < k := by
      by_contra hki
      have hmono := Nat.mul_le_mul_left cfg.minResource.toNat
        (Nat.pow_le_pow_right (Nat.lt_of_lt_of_le Nat.two_pos h.two_le) (Nat.le_of_not_lt hki))
      exact absurd (hlt.trans_le hmono) (Nat.not_lt.2 hi)
    rw [hplan, rung_schedule hnodup (getElem?_budgetAt hik)]
  refine ⟨?_, ?_, ?_, ?_⟩
  · rw [← map_fst_outline, hplan]
    exact pairwise_budgets hpairwise
  · rw [← map_fst_outline, hplan]
    obtain ⟨r, hr, hdedup⟩ := dedup_budgets hnodup
    rw [length_map, length_range] at hr
    refine ⟨r, fun i hi => hle i (hi.trans_le hr), ?_⟩
    rw [hdedup, ← map_take, take_range, Nat.min_eq_left hr]
  · intro i hi
    rw [hrung i hi, length_take]
    exact Nat.min_eq_left (Nat.div_le_self _ _)
  · intro i hi
    have hprev : cfg.budgetAt i ≤ cfg.maxResource.toNat :=
      (Nat.mul_le_mul_left _ (Nat.pow_le_pow_right
        (Nat.lt_of_lt_of_le Nat.two_pos h.two_le) (Nat.le_succ i))).trans hi
    rw [hrung i hprev, hrung (i + 1) hi]
    refine (take_sublist_take_left ?_).subset
    exact Nat.div_le_div_left (Nat.pow_le_pow_right (Nat.lt_of_lt_of_le Nat.two_pos h.two_le)
      (Nat.le_succ i)) (Nat.pow_pos (Nat.lt_of_lt_of_le Nat.two_pos h.two_le))

theorem not_successiveHalving_of_saturated (hne : ∀ i, cfg.budgetAt i ≠ u32Max)
    (hitems : cfg.eta.toNat ^ k ≤ items.length) (heta : 0 < cfg.eta.toNat)
    (hnodup : ((range k).map cfg.budgetAt ++ [u32Max]).Nodup)
    (hplan : outline plan = schedule cfg.eta.toNat ((range k).map cfg.budgetAt ++ [u32Max]) items) :
    ¬ SuccessiveHalving cfg items.length plan := by
  intro h
  have hlast : ((range k).map cfg.budgetAt ++ [u32Max])[k]? = some u32Max := by
    rw [getElem?_append_right (by simp), length_map, length_range, Nat.sub_self]
    rfl
  have hrung : rung (outline plan) u32Max = items.take (items.length / cfg.eta.toNat ^ k) := by
    rw [hplan, rung_schedule hnodup hlast]
  have hpos : 0 < items.length / cfg.eta.toNat ^ k := Nat.div_pos hitems (Nat.pow_pos heta)
  have hsome : (rung (outline plan) u32Max).length ≠ 0 := by
    rw [hrung, length_take, Nat.min_eq_left (Nat.div_le_self _ _)]
    exact hpos.ne'
  obtain ⟨st, hst⟩ := exists_mem_of_length_pos (Nat.pos_of_ne_zero hsome)
  obtain ⟨e, he, -⟩ := mem_map.1 hst
  obtain ⟨heplan, hbudget⟩ := mem_filter.1 he
  obtain ⟨r, -, hdedup⟩ := h.budgets
  have hmem : u32Max ∈ (plan.map Trial.budget).dedup := by
    rw [mem_dedup, ← map_fst_outline]
    exact mem_map.2 ⟨e, heplan, by simpa using hbudget⟩
  rw [hdedup] at hmem
  obtain ⟨i, -, hi⟩ := mem_map.1 hmem
  exact hne i hi

theorem successiveHalving_iff (h : cfg.Accepted) {bs : List Nat}
    (hbs : Collects cfg.eta.toNat cfg.maxResource.toNat cfg.minResource.toNat k bs)
    (hplan : outline plan = schedule cfg.eta.toNat bs items) :
    SuccessiveHalving cfg items.length plan ↔ cfg.NotSaturated items.length := by
  have heta : 0 < cfg.eta.toNat := Nat.lt_of_lt_of_le Nat.two_pos h.two_le
  rcases hbs.shape with ⟨hexact, rfl⟩ | ⟨hmax, hne, rfl⟩
  · refine iff_of_true ?_ (hexact.imp_right .inl)
    exact successiveHalving_of_exact h hbs.le_max hbs.max_lt hplan
  · constructor
    · intro hhalving
      refine .inr (.inr fun j hj => ?_)
      by_contra hitems
      -- The first budget past the bound comes no later than this one.
      have hkj : k ≤ j := by
        by_contra hjk
        exact absurd (hbs.le_max j (Nat.lt_of_not_le hjk)) (by rw [hmax]; exact Nat.not_le.2 hj)
      have hexact : ((range k).map cfg.budgetAt).Nodup :=
        (pairwise_budgetAt h).imp fun h => Nat.ne_of_lt h
      have hnodup : ((range k).map cfg.budgetAt ++ [u32Max]).Nodup := by
        refine hexact.append (nodup_singleton _) ?_
        intro b hb hlast
        obtain ⟨i, -, rfl⟩ := mem_map.1 hb
        exact hne i (mem_singleton.1 hlast)
      exact not_successiveHalving_of_saturated hne
        ((Nat.pow_le_pow_right heta hkj).trans (Nat.le_of_not_lt hitems)) heta hnodup hplan hhalving
    · rintro (hlt | ⟨i, hi⟩ | hfew)
      · exact absurd hmax hlt.ne
      · exact absurd hi (hne i)
      · have hitems : items.length < cfg.eta.toNat ^ k := hfew k (hmax ▸ hbs.max_lt)
        rw [schedule_concat (by simpa using hitems)] at hplan
        exact successiveHalving_of_exact h hbs.le_max hbs.max_lt hplan

end Schedule

/-! ## Plans -/

variable {cfg : AshaConfig}

theorem planAsha_ok_iff : (∃ plan, planAsha env cfg axes base = .ok plan) ↔ cfg.Accepted := by
  rw [planAsha]
  split
  · next heta =>
      refine iff_of_false (by simp) fun h => ?_
      exact absurd (UInt32.lt_iff_toNat_lt.1 heta) (Nat.not_lt.2 h.two_le)
  · next heta =>
      split
      · next hmin =>
          refine iff_of_false (by simp) fun h => ?_
          rcases hmin with hzero | hlt
          · have hone := h.one_le
            rw [hzero] at hone
            exact absurd hone (by decide)
          · exact absurd (UInt32.lt_iff_toNat_lt.1 hlt) (Nat.not_lt.2 h.le_max)
      · next hmin =>
          obtain ⟨hzero, hle⟩ := not_or.1 hmin
          refine iff_of_true ⟨_, rfl⟩ ⟨two_le_of_not_lt heta, pos_of_ne_zero hzero, ?_⟩
          exact Nat.le_of_not_lt fun hlt => hle (UInt32.lt_iff_toNat_lt.2 hlt)

theorem planAsha_eq_ok : planAsha env cfg axes base = .ok plan → ∃ heta hb, plan =
      rungs env cfg.eta base axes (budgets cfg.eta cfg.maxResource cfg.minResource heta hb)
        (cartesian axes) [] := by
  intro h
  rw [planAsha] at h
  split at h
  · cases h
  · split at h
    · cases h
    · cases h
      exact ⟨_, _, rfl⟩

theorem halving_iff_of_plan (h : cfg.Accepted) : planAsha env cfg axes base = .ok plan →
      (SuccessiveHalving cfg (cartesian axes).length plan ↔
        cfg.NotSaturated (cartesian axes).length) := by
  intro hplan
  obtain ⟨heta, hb, hrungs⟩ := planAsha_eq_ok hplan
  have houtline : outline plan = schedule cfg.eta.toNat
      ((budgets cfg.eta cfg.maxResource cfg.minResource heta hb).map UInt32.toNat)
      ((cartesian axes).map (settingsOf base axes)) := by
    rw [hrungs]
    exact outline_rungs
  obtain ⟨k, hk⟩ := budgets_collects heta hb
  have hiff := successiveHalving_iff h hk houtline
  rwa [length_map] at hiff

/-- Planning ends for every accepted configuration, and the plan is a successive-halving schedule
exactly when no combination is left for a saturated budget. -/
theorem planAsha_halving_iff (env : Env N) (cfg : AshaConfig) (axes : List (Axis N))
    (base : Json N) (h : cfg.Accepted) :
    (∃ plan, planAsha env cfg axes base = .ok plan ∧
        SuccessiveHalving cfg (cartesian axes).length plan) ↔
      cfg.NotSaturated (cartesian axes).length := by
  have hok : ∃ plan, planAsha env cfg axes base = .ok plan := planAsha_ok_iff.2 h
  obtain ⟨plan, hplan⟩ := hok
  rw [← halving_iff_of_plan h hplan]
  constructor
  · rintro ⟨plan', hplan', hhalving⟩
    cases hplan.symm.trans hplan'
    exact hhalving
  · intro hhalving
    exact ⟨plan, hplan, hhalving⟩

/-! ## Two values -/

theorem planAsha_halving_small : ∃ plan,
    planAsha plainEnv ⟨2, 1, 27⟩ [lrAxis] (.object []) = .ok plan ∧
      SuccessiveHalving ⟨2, 1, 27⟩ (cartesian [lrAxis]).length plan :=
  (planAsha_halving_iff plainEnv ⟨2, 1, 27⟩ [lrAxis] (.object [])
    ⟨by decide, by decide, by decide⟩).2 (.inl (by decide))

/-- Bounded by the greatest `u32`, twice the half of it saturates, and a trial is left for it. -/
theorem planAsha_saturates : ¬ ∃ plan,
    planAsha plainEnv ⟨2, 2147483648, 4294967295⟩ [lrAxis] (.object []) = .ok plan ∧
      SuccessiveHalving ⟨2, 2147483648, 4294967295⟩ (cartesian [lrAxis]).length plan := by
  rintro ⟨plan, hplan, hhalving⟩
  have hacc : AshaConfig.Accepted ⟨2, 2147483648, 4294967295⟩ :=
    ⟨by decide, by decide, by decide⟩
  rcases (halving_iff_of_plan hacc hplan).1 hhalving with hlt | ⟨i, hi⟩ | hfew
  · exact absurd hlt (by decide)
  · -- Every exact budget is even, the greatest number is odd.
    have heven : 2 ∣ AshaConfig.budgetAt ⟨2, 2147483648, 4294967295⟩ i :=
      Dvd.dvd.mul_right (by decide) _
    rw [hi] at heven
    exact absurd heven (by decide)
  · exact absurd (hfew 1 (by decide)) (by decide)

end Sweep
end Rustorch
