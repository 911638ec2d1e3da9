import Mathlib.Data.List.GetD
import Rustorch.Nn.ExactSampling

/-!
# Greedy sampling and the repeat penalty

Without any filter a temperature of `0` or less takes the largest logit.  With one, a negative
temperature turns the order of the logits around.  The penalty is applied once for each occurrence
of a token, so a token that was emitted twice is penalised twice.

- `documented_iff` : the configurations that are greedy below `0` and take the recent tokens as a
  set
-/

namespace Rustorch
namespace Nn

open List

open Extended (fin negInf nan ofScore)
open OnlineSoftmax (weight normalizer)

variable {F : Type} [Field F] [LinearOrder F]

/-- The first index of the largest value. -/
structure IsLowestMax (xs : List F) (i : Nat) : Prop where
  lt : i < xs.length
  max : ∀ j < xs.length, xs.getD j 0 ≤ xs.getD i 0
  first : ∀ j < i, xs.getD j 0 < xs.getD i 0

section Steps

variable [SamplerMath F] {config : SamplingConfig F} {logits : List F}

/-! ## The largest logit -/

theorem argmax_map (xs : List F) (hne : xs ≠ []) : IsLowestMax xs (argmax (xs.map fin)) := by
  have hloop : ∀ xs : List F, xs ≠ [] → ∃ i, IsLowestMax xs i ∧
      (xs.map fin).zipIdx.foldl
          (fun best vi => if best.2 < vi.1 then (vi.2, vi.1) else best)
          (0, (Scalar.negInf : Extended F)) = (i, fin (xs.getD i 0)) := by
    intro xs
    -- The end of the list, as the fold keeps the earliest index of its largest value so far.
    induction xs using reverseRecOn with
    | nil => exact fun h => absurd rfl h
    | append_singleton xs x ih =>
      intro _
      rw [map_append, zipIdx_append, foldl_append]
      by_cases hnil : xs = []
      · subst hnil
        refine ⟨0, ⟨Nat.one_pos, ?_, ?_⟩, ?_⟩
        · intro j hj
          obtain rfl : j = 0 := by simpa using hj
          exact le_refl _
        · intro j hj
          cases hj
        · rfl
      · obtain ⟨i, hi, hfold⟩ := ih hnil
        have hold : ∀ j < xs.length, (xs ++ [x]).getD j 0 = xs.getD j 0 := fun j hj =>
          getD_append _ _ _ _ hj
        have hnew : (xs ++ [x]).getD xs.length 0 = x := by
          rw [getD_append_right _ _ _ _ (le_refl _), Nat.sub_self]
          rfl
        have hstep : ([x].map (fin : F → Extended F)).zipIdx (xs.map fin).length =
            [(fin x, xs.length)] := by
          rw [length_map]
          rfl
        rw [hfold, Nat.zero_add, hstep, foldl_cons, foldl_nil]
        simp only [fin_lt_fin]
        -- A later value takes over only when strictly larger; ties stay with the lower index.
        by_cases hlt : xs.getD i 0 < x
        · refine ⟨xs.length, ⟨by simp, ?_, ?_⟩, ?_⟩
          · intro j hj
            rw [hnew]
            rcases Nat.lt_or_eq_of_le (Nat.le_of_lt_succ (by simpa using hj)) with hj | rfl
            · rw [hold j hj]
              exact (hi.max j hj).trans hlt.le
            · exact hnew.le
          · intro j hj
            rw [hnew, hold j hj]
            exact (hi.max j hj).trans_lt hlt
          · rw [if_pos hlt, hnew]
        · refine ⟨i, ⟨?_, ?_, ?_⟩, ?_⟩
          · rw [length_append]
            exact Nat.lt_add_right _ hi.lt
          · intro j hj
            rw [hold i hi.lt]
            rcases Nat.lt_or_eq_of_le (Nat.le_of_lt_succ (by simpa using hj)) with hj | rfl
            · rw [hold j hj]
              exact hi.max j hj
            · rw [hnew]
              exact not_lt.1 hlt
          · intro j hj
            rw [hold i hi.lt, hold j (hj.trans hi.lt)]
            exact hi.first j hj
          · rw [if_neg hlt, hold i hi.lt]
  obtain ⟨i, hi, hfold⟩ := hloop xs hne
  rw [argmax, hfold]
  exact hi

theorem sample_greedy (u : F) (recentTokens : List UInt32) (hne : logits ≠ [])
    (ht : config.temperature ≤ 0) (hnone : config.topK = none ∧ config.topP = none ∧
      config.repeatPenalty = none) :
    sample logits config recentTokens u = argmax (logits.map fin) := by
  have hnonempty : logits.map (fin : F → Extended F) ≠ [] := by simpa using hne
  have hfast : config.lift.temperature ≤ 0 ∧ config.lift.topK = none ∧
      config.lift.topP = none ∧ config.lift.repeatPenalty = none := by
    simpa [SamplingConfig.lift, zero_eq, ht] using hnone
  unfold sample sampleNext
  rw [if_neg hnonempty, if_pos hfast]

/-! ## A temperature of zero -/

omit [Field F] [SamplerMath F] in
@[simp] theorem nan_lt (x : Extended F) : Extended.lt nan x = false := by
  cases x <;> rfl

theorem truncateTopK_nan (xs : List F) :
    truncateTopK config.lift (xs.map fun _ => nan) = xs.map fun _ => nan := by
  have hmasked : ∀ kth : Extended F × Nat,
      ((xs.map fun _ => (nan : Extended F)).map fun v =>
        if v < kth.1 then Scalar.negInf else v) = xs.map fun _ => nan := by
    intro kth
    rw [map_map]
    apply map_congr_left
    intro x _
    have hlt : ¬(nan : Extended F) < kth.1 := fun h =>
      Bool.false_ne_true ((nan_lt kth.1).symm.trans h)
    rw [Function.comp_apply, if_neg hlt]
  unfold truncateTopK
  split
  · split_ifs
    · split
      · exact hmasked _
      · rfl
    · rfl
  · rfl

theorem softmax_nan {xs : List F} (hne : xs ≠ []) :
    softmax (xs.map fun _ => (nan : Extended F)) = none := by
  have hrun : ∀ xs : List F,
      (xs.map fun _ => (nan : Extended F)).foldl (· + ·) nan = nan := by
    intro xs
    induction xs with
    | nil => rfl
    | cons x xs ih => rw [map_cons, foldl_cons, Extended.nan_add, ih]
  have hexp : ∀ m : Extended F, Scalar.exp (nan - m) = nan := by
    intro m
    rfl
  have hnan : ¬(0 : Extended F) < nan := fun h => by
    have hfalse := Extended.lt_nan (0 : Extended F)
    exact Bool.false_ne_true (hfalse.symm.trans h)
  cases xs with
  | nil => exact absurd rfl hne
  | cons x xs =>
    simp only [softmax, map_map, Function.comp_def, hexp]
    rw [map_cons, foldl_cons, Extended.add_nan, hrun, if_neg hnan]

/-- Logits over a temperature of `0` are not numbers, and step 4 falls back on the largest one. -/
theorem sample_zero [IsStrictOrderedRing F] (u : F) (recentTokens : List UInt32)
    (hne : logits ≠ []) (ht : config.temperature = 0) :
    sample logits config recentTokens u = argmax (logits.map fin) := by
  by_cases hnone : config.topK = none ∧ config.topP = none ∧ config.repeatPenalty = none
  · exact sample_greedy u recentTokens hne ht.le hnone
  · have hnonempty : logits.map (fin : F → Extended F) ≠ [] := by simpa using hne
    have hfast : ¬(config.lift.temperature ≤ 0 ∧ config.lift.topK = none ∧
        config.lift.topP = none ∧ config.lift.repeatPenalty = none) := by
      simpa [SamplingConfig.lift, zero_eq, ht] using hnone
    have hpenalised := @applyRepeatPenalty_map F _ _ _ config _ recentTokens logits
    have hlen := congrArg length hpenalised
    rw [length_applyRepeatPenalty, length_map, length_map] at hlen
    have heps : (Scalar.epsilon : Extended F) < Scalar.abs (config.lift.temperature - 1) := by
      change (fin (1 / 2 ^ 23) : Extended F) < fin |config.temperature - 1|
      rw [fin_lt_fin, ht, zero_sub, abs_neg, abs_one, div_lt_one (by positivity)]
      exact one_lt_pow₀ one_lt_two (by decide)
    have hdiv : (1 : Extended F) / config.lift.temperature = nan := by
      change Extended.div (fin 1) (fin config.temperature) = nan
      rw [ht]
      exact if_pos rfl
    have hscaled : applyTemperature config.lift
        (applyRepeatPenalty config.lift recentTokens (logits.map fin)) =
          (penalised config recentTokens logits).map fun _ => nan := by
      rw [hpenalised, applyTemperature, if_pos heps, hdiv, map_map]
      rfl
    unfold sample sampleNext
    rw [if_neg hnonempty, if_neg hfast, hscaled, truncateTopK_nan]
    dsimp only
    rw [softmax_nan]
    rintro hnil
    rw [hnil, length_nil] at hlen
    exact hne (eq_nil_of_length_eq_zero hlen)

/-! ## The most likely token -/

section Winner

variable {ps qs : List F} {p : F} {kept : Finset Nat} {i : Nat}

omit [SamplerMath F] in
theorem IsNucleus.mem_of_top (h : IsNucleus p ps kept) (hp : 0 < p) (hi : i < ps.length)
    (htop : ∀ j < ps.length, j ≠ i → ps.getD j 0 < ps.getD i 0) : i ∈ kept := by
  by_contra hout
  have hne : kept.Nonempty := by
    rw [Finset.nonempty_iff_ne_empty]
    rintro rfl
    have hreach := h.reaches
    exact absurd hreach (not_le.2 hp)
  obtain ⟨j, hj⟩ := hne
  have hle := h.highest j hj i hi hout
  have hji : j ≠ i := fun heq => hout (heq ▸ hj)
  exact absurd hle (not_le.2 (htop j (Finset.mem_range.1 (h.subset hj)) hji))

omit [LinearOrder F] [SamplerMath F] in
theorem sum_range_getD (ps : List F) : ∑ j ∈ Finset.range ps.length, ps.getD j 0 = ps.sum := by
  have hkeep : keepOnly (Finset.range ps.length) ps = ps := by
    apply ext_getElem?
    intro j
    rw [getElem?_keepOnly]
    cases hj : ps[j]? with
    | none => rfl
    | some x =>
      have hlt : j < ps.length := (List.getElem?_eq_some_iff.1 hj).1
      rw [Option.map_some, if_pos (Finset.mem_range.2 hlt)]
  rw [← sum_keepOnly (Finset.Subset.refl _), hkeep]

omit [SamplerMath F] in
theorem getD_nonneg (hnonneg : ∀ x ∈ ps, 0 ≤ x) (j : Nat) : 0 ≤ ps.getD j 0 := by
  rw [getD_eq_getElem?_getD]
  cases hj : ps[j]? with
  | none => exact le_refl 0
  | some x => exact hnonneg x (mem_of_getElem? hj)

variable [IsStrictOrderedRing F]

omit [SamplerMath F] in
theorem sum_kept_le_one (hkept : kept ⊆ Finset.range ps.length) (hnonneg : ∀ x ∈ ps, 0 ≤ x)
    (hsum : ps.sum = 1) : ∑ j ∈ kept, ps.getD j 0 ≤ 1 := by
  rw [← hsum, ← sum_range_getD]
  exact Finset.sum_le_sum_of_subset_of_nonneg hkept fun j _ _ => getD_nonneg hnonneg j

omit [SamplerMath F] in
/-- The filters do not make the most likely token less likely. -/
theorem Filtered.le_top {topP : Option F} (h : Filtered topP ps qs) (hi : i < ps.length)
    (htop : ∀ j < ps.length, j ≠ i → ps.getD j 0 < ps.getD i 0) (hnonneg : ∀ x ∈ ps, 0 ≤ x)
    (hsum : ps.sum = 1) : ps.getD i 0 ≤ qs.getD i 0 := by
  cases h with
  | all _ => exact le_refl _
  | nucleus _ hp _ hkept =>
    have hmem := hkept.mem_of_top hp hi htop
    have hpos := hp.trans_le hkept.reaches
    have hle := sum_kept_le_one hkept.subset hnonneg hsum
    have hget : ps[i]? = some (ps.getD i 0) := by
      rw [getD_eq_getElem?_getD, getElem?_eq_getElem hi]
      rfl
    rw [getD_eq_getElem?_getD (l := map _ _), getElem?_map, getElem?_keepOnly,
      hget, Option.map_some, if_pos hmem, Option.map_some, Option.getD_some]
    have hnn : 0 ≤ ps.getD i 0 := hnonneg _ (mem_of_getElem? hget)
    exact le_mul_of_one_le_right hnn ((one_le_div hpos).2 hle)

/-- A larger score is more likely. -/
theorem probabilities_lt {ys : List (WithBot F)} (hsup : (ys : Multiset (WithBot F)).sup ≠ ⊥)
    {i j : Nat} {y z : WithBot F} (hi : ys[i]? = some y) (hj : ys[j]? = some z) (hlt : z < y) :
    (probabilities ys).getD j 0 < (probabilities ys).getD i 0 := by
  have hpos := OnlineSoftmax.normalizer_pos SamplerMath.exp_pos hsup
  rw [probabilities, getD_eq_getElem?_getD, getD_eq_getElem?_getD, getElem?_map,
    getElem?_map, hi, hj]
  exact mul_lt_mul_of_pos_right
    (OnlineSoftmax.weight_lt_weight SamplerMath.exp_pos SamplerMath.exp_strictMono hsup hlt)
    (one_div_pos.2 hpos)

omit [Field F] [SamplerMath F] [IsStrictOrderedRing F] in
theorem Threshold.not_lt_top {topK : Option Nat} {xs : List F} {c : WithBot F} {x : F}
    (hc : Threshold topK xs c) (htop : ∀ y ∈ xs, y ≤ x) : ¬(x : WithBot F) < c := by
  cases hc with
  | all _ => exact not_lt_bot
  | kth _ hpos _ _ hge =>
    obtain ⟨y, hy, hle⟩ := countP_pos_iff.1 (hpos.trans_le hge)
    rw [WithBot.coe_lt_coe, not_lt]
    exact (of_decide_eq_true hle).trans (htop y hy)

theorem sample_pair (recentTokens : List UInt32) (ht : config.temperature ≠ 0)
    (hgeneral : ¬(config.temperature ≤ 0 ∧ config.topK = none ∧ config.topP = none ∧
      config.repeatPenalty = none)) (hne : logits ≠ []) {a b : F}
    (hadjusted : adjusted config recentTokens logits = [a, b]) :
    (b < a → sample logits config recentTokens (1 / 2) = 0) ∧
      (a < b → sample logits config recentTokens (1 / 2) = 1) := by
  obtain ⟨c, qs, hc, hqs, hsum, hsample⟩ := sample_spec recentTokens ht hgeneral hne
  rw [hadjusted] at hc hqs
  have hsup := sup_masked_ne_bot hc (cons_ne_nil _ _)
  have hnonneg := @probabilities_nonneg F _ _ _ _ (masked c [a, b])
  have hprobs := sum_probabilities hsup
  -- the draw at one half falls to the token that holds more than half of the mass
  have hhalf : clamped (1 / 2 : F) = 1 / 2 := by
    apply min_eq_left
    norm_num
  obtain ⟨i, hi, hindex, hge, hlt⟩ := hsample (1 / 2) (by norm_num)
  have hlength : qs.length = 2 := hqs.length_eq
  obtain ⟨q, r, rfl⟩ : ∃ q r, qs = [q, r] := length_eq_two.1 hlength
  obtain ⟨x, y, hxy⟩ : ∃ x y, probabilities (masked c [a, b]) = [x, y] := ⟨_, _, rfl⟩
  rw [hxy] at hqs hnonneg hprobs
  have hbelow : ∀ z w : F, z < w → (if (z : WithBot F) < c then ⊥ else (z : WithBot F)) < w := by
    intro z w hzw
    split_ifs
    · exact WithBot.bot_lt_coe w
    · exact WithBot.coe_lt_coe.2 hzw
  -- only the mass of the first token stands before the second
  have hmass : massBefore [q, r] 1 = q := by simp [massBefore]
  have hqr : q + r = 1 := by simpa using hsum
  have hxy1 : x + y = 1 := by simpa using hprobs
  constructor
  · intro hba
    have hkeep := hc.not_lt_top (x := a) (by simpa using hba.le)
    have hlt' := probabilities_lt hsup (i := 0) (j := 1) (congrArg some (if_neg hkeep)) rfl (hbelow b a hba)
    rw [hxy] at hlt'
    have hyx : y < x := hlt'
    have hle : x ≤ q := hqs.le_top (i := 0) (by simp) (by
      intro j hj hj0
      obtain rfl : j = 1 := by
        simp only [length_cons, length_nil] at hj
        omega
      exact hyx) hnonneg hprobs
    cases i with
    | zero => exact hindex
    | succ i =>
      obtain rfl : i = 0 := by
        omega
      linarith
  · intro hab
    have hkeep := hc.not_lt_top (x := b) (by simpa using hab.le)
    have hlt' := probabilities_lt hsup (i := 1) (j := 0) (congrArg some (if_neg hkeep)) rfl (hbelow a b hab)
    rw [hxy] at hlt'
    have hyx : x < y := hlt'
    have hle : y ≤ r := hqs.le_top (i := 1) (by simp) (by
      intro j hj hj1
      obtain rfl : j = 0 := by
        simp only [length_cons, length_nil] at hj
        omega
      exact hyx) hnonneg hprobs
    cases i with
    | zero =>
      linarith
    | succ i =>
      obtain rfl : i = 0 := by
        omega
      exact hindex

end Winner

/-! ## Which configurations do what they say -/

/-- Greedy below `0`, and the recent tokens taken as a set. -/
def Documented (config : SamplingConfig F) : Prop :=
  ∀ (logits : List F), logits ≠ [] → ∀ (recentTokens : List UInt32) (u : F), 0 ≤ u → u < 1 →
    (config.temperature < 0 →
      IsLowestMax (penalised config recentTokens logits)
        (sample logits config recentTokens u)) ∧
    ∀ recentTokens' : List UInt32, (∀ tok, tok ∈ recentTokens' ↔ tok ∈ recentTokens) →
      sample logits config recentTokens' u = sample logits config recentTokens u

section Documented

variable [IsStrictOrderedRing F]

omit [SamplerMath F] in
theorem exists_scale (ht : 0 < config.temperature) :
    ∃ s, 0 < s ∧ ∀ xs, scaled config xs = xs.map (· * s) := by
  by_cases heps : 1 / 2 ^ 23 < |config.temperature - 1|
  · exact ⟨1 / config.temperature, one_div_pos.2 ht, fun xs => if_pos heps⟩
  · refine ⟨1, one_pos, fun xs => ?_⟩
    rw [scaled, if_neg heps]
    simp

theorem not_documented_of_penalty {penalty : F} (ht : 0 < config.temperature)
    (hpenalty : config.repeatPenalty = some penalty) (hone : 1 < penalty) :
    ¬Documented config := by
  intro hdoc
  have hpos : 0 < penalty := zero_lt_one.trans hone
  obtain ⟨s, hs, hscale⟩ := exists_scale ht
  -- once penalised, token 0 is still ahead of token 1; twice, it is behind
  obtain ⟨x, hx, hxpenalty⟩ := exists_between hone
  have hpenalised : ∀ toks : List UInt32, penalised config toks [penalty * penalty, x] =
      toks.foldl (penaliseToken penalty) [penalty * penalty, x] := by
    intro toks
    rw [penalised, hpenalty]
    exact if_pos hone
  have hstep : ∀ v : F, 0 < v → penaliseToken penalty [v, x] 0 = [v / penalty, x] := by
    intro v hv
    change [if 0 < v then v / penalty else v * penalty, x] = _
    rw [if_pos hv]
  have honce : adjusted config [0] [penalty * penalty, x] = [penalty * s, x * s] := by
    rw [adjusted, hpenalised, foldl_cons, foldl_nil, hstep _ (mul_pos hpos hpos),
      mul_div_cancel_right₀ _ hpos.ne', hscale]
    rfl
  have htwice : adjusted config [0, 0] [penalty * penalty, x] = [1 * s, x * s] := by
    rw [adjusted, hpenalised, foldl_cons, foldl_cons, foldl_nil,
      hstep _ (mul_pos hpos hpos), mul_div_cancel_right₀ _ hpos.ne', hstep _ hpos,
      div_self hpos.ne', hscale]
    rfl
  have hgeneral : ¬(config.temperature ≤ 0 ∧ config.topK = none ∧ config.topP = none ∧
      config.repeatPenalty = none) := fun h => absurd h.1 (not_le.2 ht)
  have hfirst := (sample_pair [0] ht.ne' hgeneral (cons_ne_nil _ _) honce).1
    (mul_lt_mul_of_pos_right hxpenalty hs)
  have hsecond := (sample_pair [0, 0] ht.ne' hgeneral (cons_ne_nil _ _) htwice).2
    (mul_lt_mul_of_pos_right hx hs)
  have hsame := (hdoc [penalty * penalty, x] (cons_ne_nil _ _) [0] (1 / 2) (by norm_num)
    (by norm_num)).2 [0, 0] (by simp)
  rw [hfirst, hsecond] at hsame
  cases hsame

theorem not_documented_of_filter (ht : config.temperature < 0)
    (hfilter : ¬(config.topK = none ∧ config.topP = none ∧ config.repeatPenalty = none)) :
    ¬Documented config := by
  intro hdoc
  have hpenalised : penalised config [] [0, 1] = [0, 1] := by
    rw [penalised]
    cases config.repeatPenalty with
    | none => rfl
    | some penalty => exact ite_self _
  have heps : 1 / 2 ^ 23 < |config.temperature - 1| := by
    have habs : 1 < |config.temperature - 1| := by
      rw [abs_of_neg (by linarith)]
      linarith
    exact lt_trans (by norm_num) habs
  have hadjusted : adjusted config [] [0, 1] =
      [0 * (1 / config.temperature), 1 * (1 / config.temperature)] := by
    rw [adjusted, hpenalised, scaled, if_pos heps]
    rfl
  have hneg : 1 / config.temperature < 0 := one_div_neg.2 ht
  have hfirst := (sample_pair [] ht.ne (fun h => hfilter h.2) (cons_ne_nil _ _)
    hadjusted).1 (by rw [zero_mul, one_mul]; exact hneg)
  have hmax := (hdoc [0, 1] (cons_ne_nil _ _) [] (1 / 2) (by norm_num) (by norm_num)).1 ht
  rw [hpenalised, hfirst] at hmax
  have hle : (1 : F) ≤ 0 := hmax.max 1 (by simp)
  exact absurd hle (not_le.2 one_pos)

/-- A configuration does what it says just when no filter is set below `0`, and no penalty
above. -/
theorem documented_iff (config : SamplingConfig F) :
    Documented config ↔
      (config.temperature < 0 →
        config.topK = none ∧ config.topP = none ∧ config.repeatPenalty = none) ∧
      (0 < config.temperature →
        ∀ penalty, config.repeatPenalty = some penalty → penalty ≤ 1) := by
  constructor
  · intro hdoc
    refine ⟨?_, ?_⟩
    · intro ht
      by_contra hfilter
      exact not_documented_of_filter ht hfilter hdoc
    · intro ht penalty hpenalty
      by_contra hone
      exact not_documented_of_penalty ht hpenalty (not_le.1 hone) hdoc
  · rintro ⟨hgreedy, hset⟩ logits hne recentTokens u hu0 hu1
    rcases lt_trichotomy config.temperature 0 with ht | ht | ht
    · have hnone := hgreedy ht
      have hpenalised : penalised config recentTokens logits = logits := by
        rw [penalised, hnone.2.2]
      refine ⟨fun _ => ?_, fun recentTokens' _ => ?_⟩
      · rw [hpenalised, sample_greedy u recentTokens hne ht.le hnone]
        exact argmax_map logits hne
      · rw [sample_greedy u recentTokens hne ht.le hnone,
          sample_greedy u recentTokens' hne ht.le hnone]
    · refine ⟨fun hneg => absurd hneg (by rw [ht]; exact lt_irrefl 0), fun recentTokens' _ => ?_⟩
      rw [sample_zero u recentTokens hne ht, sample_zero u recentTokens' hne ht]
    · refine ⟨fun hneg => absurd hneg ht.not_gt, fun recentTokens' _ => ?_⟩
      have hoff : ∀ toks : List UInt32,
          applyRepeatPenalty config.lift toks (logits.map fin) = logits.map fin := by
        intro toks
        rw [applyRepeatPenalty_map, penalised]
        cases hpenalty : config.repeatPenalty with
        | none => rfl
        | some penalty =>
          dsimp only
          rw [if_neg (not_lt.2 (hset ht penalty hpenalty))]
      unfold sample sampleNext
      rw [hoff, hoff]

end Documented

end Steps

/-! ## Rational configurations -/

theorem documented_warm : Documented
    ({ temperature := 7 / 10, topK := some 40, topP := some (9 / 10),
       repeatPenalty := none } : SamplingConfig ℚ) :=
  (documented_iff _).2 ⟨fun h => absurd h (by norm_num), fun _ _ h => by cases h⟩

/-- One with a negative temperature and top-k, and the default of the sampler. -/
theorem not_documented_default :
    ¬Documented
      ({ temperature := -1, topK := some 1, topP := none,
         repeatPenalty := none } : SamplingConfig ℚ) ∧
    ¬Documented
      ({ temperature := 1, topK := some 50, topP := some (19 / 20),
         repeatPenalty := some (11 / 10) } : SamplingConfig ℚ) := by
  constructor
  · apply not_documented_of_filter (by norm_num)
    simp
  · exact not_documented_of_penalty one_pos rfl (by norm_num)

end Nn
end Rustorch
