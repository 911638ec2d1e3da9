import Rustorch.Nn.GreedySampling

/-!
# The filters of the sampler

With a positive temperature the draw falls into the part of the unit interval that belongs to the
returned token.  The parts are as long as the renormalised weights, and lie side by side in the
order of the tokens.  Draws above `1 - f32::EPSILON` are taken for that number.

Tokens that tie with the `k`-th largest logit all pass the top-k filter.
-/

namespace Rustorch
namespace Nn

open List

open Extended (fin negInf nan ofScore)

attribute [local instance] two_atLeastTwo

variable {F : Type} [Field F] [LinearOrder F]

/-- The weight of a token among the kept ones. -/
def renormalised (kept : Finset Nat) (ps : List F) (i : Nat) : F :=
  (if i ∈ kept then ps.getD i 0 else 0) / ∑ j ∈ kept, ps.getD j 0

/-- Where the part of a token starts. -/
def partStart (kept : Finset Nat) (ps : List F) (i : Nat) : F :=
  ∑ j ∈ Finset.range i, renormalised kept ps j

/-- The largest draw that the walk sees. -/
def lastDraw : F :=
  1 - 1 / 2 ^ 23

section Draws

variable [SamplerMath F]

/-- The draws that return a token. -/
def draws (logits : List F) (config : SamplingConfig F) (recentTokens : List UInt32) (i : Nat) :
    Set F :=
  {u | 0 ≤ u ∧ u < 1 ∧ sample logits config recentTokens u = i}

/-- Some draw returns the token. -/
def CanReturn (logits : List F) (config : SamplingConfig F) (recentTokens : List UInt32)
    (i : Nat) : Prop :=
  (draws logits config recentTokens i).Nonempty

/-- The draws of a token are its part of the unit interval; the part that holds the largest draw
goes on to `1`. -/
structure DrawnByWeight (logits : List F) (config : SamplingConfig F)
    (recentTokens : List UInt32) (kept : Finset Nat) (ps : List F) (i : Nat) : Prop where
  inside : partStart kept ps i + renormalised kept ps i ≤ lastDraw →
    draws logits config recentTokens i =
      Set.Ico (partStart kept ps i) (partStart kept ps i + renormalised kept ps i)
  across : partStart kept ps i ≤ lastDraw →
    lastDraw < partStart kept ps i + renormalised kept ps i →
      draws logits config recentTokens i = Set.Ico (partStart kept ps i) 1
  beyond : lastDraw < partStart kept ps i → draws logits config recentTokens i = ∅

variable [IsStrictOrderedRing F] {config : SamplingConfig F} {logits : List F}

/-! ## The kept tokens -/

/-- The tokens with a share. -/
def support (ps : List F) : Finset Nat :=
  (Finset.range ps.length).filter fun i => 0 < ps.getD i 0

section Kept

variable {ps : List F}

section

variable (hnonneg : ∀ x ∈ ps, 0 ≤ x)

include hnonneg

omit [SamplerMath F] [IsStrictOrderedRing F] in
theorem getD_of_not_mem_support {i : Nat} :
    i ∉ support ps → ps.getD i 0 = 0 := by
  intro hi
  by_cases hlt : i < ps.length
  · have hnot : ¬0 < ps.getD i 0 := fun hpos =>
      hi (Finset.mem_filter.2 ⟨Finset.mem_range.2 hlt, hpos⟩)
    exact le_antisymm (not_lt.1 hnot) (getD_nonneg hnonneg i)
  · rw [getD_eq_getElem?_getD, getElem?_eq_none (not_lt.1 hlt)]
    rfl

omit [SamplerMath F] [IsStrictOrderedRing F] in
theorem sum_support : ∑ j ∈ support ps, ps.getD j 0 = ps.sum := by
  rw [← sum_range_getD]
  exact Finset.sum_subset (Finset.filter_subset _ _) fun i _ hi =>
    getD_of_not_mem_support hnonneg hi

omit [SamplerMath F] in
/-- Only all tokens with a share reach the whole. -/
theorem isNucleus_support (hsum : ps.sum = 1) :
    IsNucleus 1 ps (support ps) := by
  have htotal := (sum_support hnonneg).trans hsum
  refine ⟨Finset.filter_subset _ _, ?_, htotal.ge, ?_⟩
  · intro i _ j _ hj
    rw [getD_of_not_mem_support hnonneg hj]
    exact getD_nonneg hnonneg i
  · intro i hi _
    have herase := Finset.add_sum_erase (support ps) (fun j => ps.getD j 0) hi
    have hi0 : 0 < ps.getD i 0 := (Finset.mem_filter.1 hi).2
    linarith

omit [SamplerMath F] [IsStrictOrderedRing F] in
theorem renormalised_support (hsum : ps.sum = 1) (i : Nat) :
    renormalised (support ps) ps i = ps.getD i 0 := by
  rw [renormalised, sum_support hnonneg, hsum, div_one]
  split_ifs with hi
  · rfl
  · exact (getD_of_not_mem_support hnonneg hi).symm

omit [SamplerMath F] in
theorem renormalised_pos {kept : Finset Nat} (htotal : 0 < ∑ j ∈ kept, ps.getD j 0) (i : Nat) :
    (0 < renormalised kept ps i → i ∈ kept ∧ 0 < ps.getD i 0) ∧ 0 ≤ renormalised kept ps i := by
  unfold renormalised
  split_ifs with hi
  · refine ⟨fun hpos => ⟨hi, ?_⟩, div_nonneg (getD_nonneg hnonneg i) htotal.le⟩
    exact (div_pos_iff_of_pos_right htotal).1 hpos
  · rw [zero_div]
    exact ⟨fun hpos => absurd hpos (lt_irrefl 0), le_refl 0⟩

end

omit [SamplerMath F] in
theorem Filtered.exists_kept {topP : Option F} {qs : List F} (h : Filtered topP ps qs)
    (hp : ∀ p, topP = some p → 0 < p ∧ p ≤ 1) (hnonneg : ∀ x ∈ ps, 0 ≤ x) (hsum : ps.sum = 1) :
    ∃ kept : Finset Nat, (∀ p, topP = some p → IsNucleus p ps kept) ∧
      (topP = none → kept = support ps) ∧ (∀ i, 0 < renormalised kept ps i →
        i ∈ kept ∧ 0 < ps.getD i 0) ∧
        ∀ i, qs.getD i 0 = renormalised kept ps i ∧ 0 ≤ renormalised kept ps i := by
  cases h with
  | all hall =>
    have htotal : 0 < ∑ j ∈ support ps, ps.getD j 0 := by
      rw [sum_support hnonneg, hsum]
      exact one_pos
    refine ⟨support ps, ?_, fun _ => rfl, fun i => (renormalised_pos hnonneg htotal i).1,
      fun i => ⟨(renormalised_support hnonneg hsum i).symm,
        (renormalised_pos hnonneg htotal i).2⟩⟩
    intro p htopP
    -- a mass above `0` that keeps every token is the whole
    obtain rfl : p = 1 :=
      le_antisymm (hp p htopP).2 ((hall p htopP).resolve_left (not_le.2 (hp p htopP).1))
    exact isNucleus_support hnonneg hsum
  | nucleus htopP hpos hlt hkept =>
    have htotal := hpos.trans_le hkept.reaches
    refine ⟨_, ?_, ?_, fun i => (renormalised_pos hnonneg htotal i).1,
      fun i => ⟨?_, (renormalised_pos hnonneg htotal i).2⟩⟩
    · intro p' htopP'
      cases htopP.symm.trans htopP'
      exact hkept
    · intro hnone
      cases htopP.symm.trans hnone
    · rw [renormalised, getD_eq_getElem?_getD, getElem?_map, getElem?_keepOnly,
        getD_eq_getElem?_getD]
      cases hi : ps[i]? with
      | none =>
        simp
      | some x =>
        simp only [Option.map_some, Option.getD_some]
        rw [mul_one_div]

end Kept

/-! ## The parts of the unit interval -/

omit [LinearOrder F] [SamplerMath F] [IsStrictOrderedRing F] in
theorem massBefore_succ (qs : List F) (i : Nat) :
    massBefore qs (i + 1) = massBefore qs i + qs.getD i 0 := by
  rw [massBefore, take_add_one, sum_append, massBefore, getD_eq_getElem?_getD]
  cases qs[i]? with
  | none => simp
  | some q => simp

omit [LinearOrder F] [SamplerMath F] [IsStrictOrderedRing F] in
theorem partStart_succ (kept : Finset Nat) (ps : List F) (i : Nat) :
    partStart kept ps (i + 1) = partStart kept ps i + renormalised kept ps i :=
  Finset.sum_range_succ _ _

variable {recentTokens : List UInt32} {kept : Finset Nat} {i : Nat} {xs : List F} {c : WithBot F}
  {topK : Option Nat}

/-- A draw returns the token in whose part it falls, but for the largest draws. -/
theorem sample_eq_iff {ps qs : List F}
    (hqs : ∀ i, qs.getD i 0 = renormalised kept ps i ∧ 0 ≤ renormalised kept ps i) {u : F}
    (hsample : ∃ i < qs.length, sample logits config recentTokens u = i ∧
      massBefore qs i ≤ clamped u ∧ clamped u < massBefore qs (i + 1)) (i : Nat) :
    sample logits config recentTokens u = i ↔
      partStart kept ps i ≤ min u lastDraw ∧
        min u lastDraw < partStart kept ps i + renormalised kept ps i := by
  have hstart : ∀ i, massBefore qs i = partStart kept ps i := by
    intro i
    induction i with
    | zero => rfl
    | succ i ih => rw [massBefore_succ, ih, (hqs i).1, partStart_succ]
  have hmono : Monotone (partStart kept ps) :=
    monotone_nat_of_le_succ fun i => by
      rw [partStart_succ]
      exact le_add_of_nonneg_right (hqs i).2
  obtain ⟨j, _, hj, hge, hlt⟩ := hsample
  rw [hstart] at hge hlt
  rw [hj, ← partStart_succ]
  constructor
  · rintro rfl
    exact ⟨hge, hlt⟩
  · rintro ⟨hge', hlt'⟩
    -- two parts that hold one draw are the same
    rcases lt_trichotomy j i with hji | heq | hij
    · exact absurd (hlt.trans_le (hmono hji)) (not_lt.2 hge')
    · exact heq
    · exact absurd (hlt'.trans_le (hmono hij)) (not_lt.2 hge)

theorem drawnByWeight {ps : List F} (hnonneg : ∀ j, 0 ≤ renormalised kept ps j)
    (hsample : ∀ u, 0 ≤ u → (sample logits config recentTokens u = i ↔
      partStart kept ps i ≤ min u lastDraw ∧
        min u lastDraw < partStart kept ps i + renormalised kept ps i)) :
    DrawnByWeight logits config recentTokens kept ps i := by
  have hstart : 0 ≤ partStart kept ps i := Finset.sum_nonneg fun j _ => hnonneg j
  have hlast : (lastDraw : F) < 1 := by
    unfold lastDraw
    norm_num
  refine ⟨?_, ?_, ?_⟩
  · intro hend
    ext u
    constructor
    · rintro ⟨hu0, _, hu⟩
      obtain ⟨hge, hlt⟩ := (hsample u hu0).1 hu
      refine ⟨hge.trans (min_le_left _ _), ?_⟩
      exact (min_lt_iff.1 hlt).resolve_right (not_lt.2 hend)
    · rintro ⟨hge, hlt⟩
      have hu0 := hstart.trans hge
      have hle := hlt.le.trans hend
      refine ⟨hu0, hle.trans_lt hlast, (hsample u hu0).2 ?_⟩
      rw [min_eq_left hle]
      exact ⟨hge, hlt⟩
  · intro hle hend
    ext u
    constructor
    · rintro ⟨hu0, hu1, hu⟩
      exact ⟨((hsample u hu0).1 hu).1.trans (min_le_left _ _), hu1⟩
    · rintro ⟨hge, hu1⟩
      have hu0 := hstart.trans hge
      exact ⟨hu0, hu1, (hsample u hu0).2 ⟨le_min hge hle, (min_le_right _ _).trans_lt hend⟩⟩
  · intro hgt
    rw [Set.eq_empty_iff_forall_notMem]
    rintro u ⟨hu0, _, hu⟩
    exact absurd (((hsample u hu0).1 hu).1.trans (min_le_right _ _)) (not_le.2 hgt)

/-! ## Top-k -/

omit [LinearOrder F] [SamplerMath F] [IsStrictOrderedRing F] in
theorem card_le_countP (xs : List F) (P : F → Bool) (tokens : Finset Nat)
    (htokens : ∀ i ∈ tokens, i < xs.length ∧ P (xs.getD i 0) = true) :
    tokens.card ≤ xs.countP P := by
  have hxs : xs = (range xs.length).map fun i => xs.getD i 0 := by
    apply ext_getElem (by simp)
    intro i hi _
    simp [getD_eq_getElem?_getD, hi]
  have hcount : xs.countP P = ((range xs.length).filter fun i => P (xs.getD i 0)).length := by
    conv_lhs => rw [hxs]
    rw [countP_map, countP_eq_length_filter]
    rfl
  have hsubset : tokens.toList ⊆ (range xs.length).filter fun i => P (xs.getD i 0) := by
    intro i hi
    obtain ⟨hlt, hP⟩ := htokens i (Finset.mem_toList.1 hi)
    exact mem_filter.2 ⟨mem_range.2 hlt, hP⟩
  rw [hcount, ← Finset.length_toList]
  exact (subperm_of_subset tokens.nodup_toList hsubset).length_le

omit [IsStrictOrderedRing F] in
theorem not_lt_of_probability_pos (hpos : 0 < (probabilities (masked c xs)).getD i 0) :
    i < xs.length ∧ ¬((xs.getD i 0 : F) : WithBot F) < c := by
  rw [probabilities, getD_eq_getElem?_getD, getElem?_map, masked, getElem?_map] at hpos
  cases hi : xs[i]? with
  | none =>
    rw [hi] at hpos
    exact absurd hpos (lt_irrefl 0)
  | some x =>
    refine ⟨(List.getElem?_eq_some_iff.1 hi).1, ?_⟩
    rw [getD_eq_getElem?_getD, hi, Option.getD_some]
    intro hlt
    rw [hi] at hpos
    simp only [Option.map_some, Option.getD_some, if_pos hlt, OnlineSoftmax.weight_bot_right,
      zero_mul] at hpos
    exact absurd hpos (lt_irrefl 0)

omit [SamplerMath F] [IsStrictOrderedRing F] in
theorem Threshold.countP_lt {k : Nat} (hc : Threshold topK xs c) (hk : topK = some k) (hpos : 0 < k)
    (hi : i < xs.length) (hreach : ¬((xs.getD i 0 : F) : WithBot F) < c) :
    xs.countP (xs.getD i 0 < ·) < k := by
  cases hc with
  | all hall =>
    have hmem : xs.getD i 0 ∈ xs := by
      rw [getD_eq_getElem?_getD, getElem?_eq_getElem hi]
      exact getElem_mem hi
    have hlt : xs.countP (xs.getD i 0 < ·) < xs.length := by
      apply lt_of_le_of_ne countP_le_length
      intro heq
      have hself := countP_eq_length.1 heq _ hmem
      exact absurd (of_decide_eq_true hself) (lt_irrefl _)
    have hle := (hall k hk).resolve_left hpos.ne'
    omega
  | kth hk' _ _ hcount _ =>
    cases hk.symm.trans hk'
    apply lt_of_le_of_lt _ hcount
    apply countP_mono_left
    intro x _ hx
    have hle := not_lt.1 (fun h => hreach (WithBot.coe_lt_coe.2 h))
    exact decide_eq_true (hle.trans_lt (of_decide_eq_true hx))

omit [SamplerMath F] [IsStrictOrderedRing F] in
theorem Threshold.card_le {k : Nat} (hc : Threshold topK xs c) (hk : topK = some k) (hpos : 0 < k)
    (hties : ∀ x ∈ xs, xs.countP (x < ·) < k → xs.countP (x ≤ ·) ≤ k) (tokens : Finset Nat)
    (htokens : ∀ i ∈ tokens, i < xs.length ∧ ¬((xs.getD i 0 : F) : WithBot F) < c) :
    tokens.card ≤ k := by
  cases hc with
  | all hall =>
    have hle := (hall k hk).resolve_left hpos.ne'
    have hcard := card_le_countP xs (fun _ => true) tokens fun i hi => ⟨(htokens i hi).1, rfl⟩
    exact hcard.trans (countP_le_length.trans hle)
  | @kth k' c hk' _ _ hcount hge =>
    cases hk.symm.trans hk'
    have hmem : c ∈ xs := by
      by_contra hout
      have hsame : xs.countP (c ≤ ·) = xs.countP (c < ·) := by
        apply countP_congr
        intro x hx
        have hne : c ≠ x := fun h => hout (h ▸ hx)
        simp [lt_iff_le_and_ne, hne]
      omega
    have hcard := card_le_countP xs (c ≤ ·) tokens fun i hi =>
      ⟨(htokens i hi).1, decide_eq_true (not_lt.1 fun h =>
        (htokens i hi).2 (WithBot.coe_lt_coe.2 h))⟩
    exact hcard.trans (hties c hmem hcount)

/-! ## The result -/

/-- What the sampler does with a positive temperature and a top-p in `(0, 1]`.

Every returned token has fewer than `k` larger adjusted logits, and lies in a nucleus of the
distribution after top-k, or without a top-p in its support.  Its draws are its part of the unit
interval, as long as its weight there, but for the draws above the largest one that the walk
sees. -/
theorem sample_filters (config : SamplingConfig F) (ht : 0 < config.temperature)
    (hp : ∀ p, config.topP = some p → 0 < p ∧ p ≤ 1) (logits : List F) (hne : logits ≠ [])
    (recentTokens : List UInt32) :
    (∀ k, config.topK = some k → 0 < k →
      (∀ i, CanReturn logits config recentTokens i →
        (adjusted config recentTokens logits).countP
          ((adjusted config recentTokens logits).getD i 0 < ·) < k) ∧
      ((∀ x ∈ adjusted config recentTokens logits,
          (adjusted config recentTokens logits).countP (x < ·) < k →
            (adjusted config recentTokens logits).countP (x ≤ ·) ≤ k) →
        ∀ tokens : Finset Nat, (∀ i ∈ tokens, CanReturn logits config recentTokens i) →
          tokens.card ≤ k)) ∧
    ∃ c kept, Threshold config.topK (adjusted config recentTokens logits) c ∧
      (∀ p, config.topP = some p →
        IsNucleus p (probabilities (masked c (adjusted config recentTokens logits))) kept) ∧
      (config.topP = none →
        kept = support (probabilities (masked c (adjusted config recentTokens logits)))) ∧
      ∀ i, (CanReturn logits config recentTokens i → i ∈ kept) ∧
        DrawnByWeight logits config recentTokens kept
          (probabilities (masked c (adjusted config recentTokens logits))) i := by
  have hgeneral : ¬(config.temperature ≤ 0 ∧ config.topK = none ∧ config.topP = none ∧
      config.repeatPenalty = none) := fun h => absurd h.1 (not_le.2 ht)
  obtain ⟨c, qs, hc, hqs, hsum, hsample⟩ := sample_spec recentTokens ht.ne' hgeneral hne
  have hadjusted : adjusted config recentTokens logits ≠ [] := by
    intro hnil
    have hlen := hqs.length_eq
    rw [hnil] at hlen
    rw [eq_nil_of_length_eq_zero hlen, sum_nil] at hsum
    exact zero_ne_one hsum
  have hsup := sup_masked_ne_bot hc hadjusted
  obtain ⟨kept, hnucleus, hsupport, hpositive, hkept⟩ :=
    hqs.exists_kept hp probabilities_nonneg (sum_probabilities hsup)
  have hiff := fun i u hu => sample_eq_iff hkept (hsample u hu) i
  -- a token that some draw returns has a part of positive length in the walk
  have hreturn : ∀ i, CanReturn logits config recentTokens i → i ∈ kept ∧
      0 < (probabilities (masked c (adjusted config recentTokens logits))).getD i 0 := by
    rintro i ⟨u, hu0, _, hu⟩
    obtain ⟨hge, hlt⟩ := (hiff i u hu0).1 hu
    exact hpositive i (by linarith)
  refine ⟨?_, c, kept, hc, hnucleus, hsupport, fun i => ⟨fun h => (hreturn i h).1, ?_⟩⟩
  · intro k hk hpos
    refine ⟨?_, ?_⟩
    · intro i hi
      obtain ⟨hlt, hreach⟩ := not_lt_of_probability_pos (hreturn i hi).2
      exact hc.countP_lt hk hpos hlt hreach
    · intro hties tokens htokens
      exact hc.card_le hk hpos hties tokens fun i hi =>
        not_lt_of_probability_pos (hreturn i (htokens i hi)).2
  · exact drawnByWeight (fun j => (hkept j).2) (hiff i)

end Draws

/-! ## Rational logits -/

/-- No filter but top-k, at temperature `1`. -/
def topKOnly (topK : Option Nat) : SamplingConfig ℚ where
  temperature := 1
  topK := topK
  topP := none
  repeatPenalty := none

theorem sample_filters_tie :
    ∃ c kept, Threshold (some 1) (adjusted (topKOnly (some 1)) [] [0, 0]) c ∧
      (∀ p, (none : Option ℚ) = some p →
        IsNucleus p (probabilities (masked c (adjusted (topKOnly (some 1)) [] [0, 0]))) kept) ∧
      ((none : Option ℚ) = none →
        kept = support (probabilities (masked c (adjusted (topKOnly (some 1)) [] [0, 0])))) ∧
      ∀ i, (CanReturn [0, 0] (topKOnly (some 1)) [] i → i ∈ kept) ∧
        DrawnByWeight [0, 0] (topKOnly (some 1)) [] kept
          (probabilities (masked c (adjusted (topKOnly (some 1)) [] [0, 0]))) i :=
  (sample_filters (topKOnly (some 1)) one_pos (fun _ h => by cases h) [0, 0]
    (cons_ne_nil _ _) []).2

/-- Both tokens of a tie are returned with a top-k of one, no set has a total probability of two,
and a token with a small weight is never returned. -/
theorem filters_not_exact :
    ¬(∀ tokens : Finset Nat, (∀ i ∈ tokens, CanReturn [0, 0] (topKOnly (some 1)) [] i) →
      tokens.card ≤ 1) ∧
    (¬∃ kept, IsNucleus 2 (probabilities [(0 : WithBot ℚ)]) kept) ∧
    0 < (probabilities [(0 : WithBot ℚ), ((-2 ^ 25 : ℚ) : WithBot ℚ)]).getD 1 0 ∧
    ¬CanReturn [0, -2 ^ 25] (topKOnly none) [] 1 := by
  refine ⟨?_, ?_, by decide +kernel, ?_⟩
  · intro h
    have hcard := h {0, 1} (by
      intro i hi
      rcases Finset.mem_insert.1 hi with rfl | hi
      · exact ⟨0, by norm_num, by norm_num, by decide +kernel⟩
      · rw [Finset.mem_singleton.1 hi]
        exact ⟨1 / 2, by norm_num, by norm_num, by decide +kernel⟩)
    exact absurd hcard (by decide)
  · rintro ⟨kept, hkept⟩
    have hle := sum_kept_le_one hkept.subset probabilities_nonneg (by decide +kernel)
    have hreach := hkept.reaches
    linarith
  · rintro ⟨u, hu0, _, hu⟩
    obtain ⟨c, qs, hc, hqs, -, hsample⟩ := @sample_spec ℚ _ _ _ (topKOnly none) [0, -2 ^ 25]
      [] _ one_ne_zero (fun h => absurd h.1 (by decide)) (cons_ne_nil _ _)
    obtain ⟨i, -, hi, hge, -⟩ := hsample u hu0
    obtain rfl : 1 = i := hu.symm.trans hi
    -- the part of token 0 ends above the largest draw
    have hadjusted : adjusted (topKOnly none) [] [0, -2 ^ 25] = [0, -2 ^ 25] := by decide +kernel
    rw [hadjusted] at hc hqs
    cases hc with
    | kth hk => cases hk
    | all _ =>
      cases hqs with
      | nucleus hp => cases hp
      | all _ =>
        have hfirst : lastDraw < massBefore
            (probabilities (masked ⊥ [(0 : ℚ), -2 ^ 25])) 1 := by decide +kernel
        have hle : massBefore (probabilities (masked ⊥ [(0 : ℚ), -2 ^ 25])) 1 ≤ lastDraw :=
          hge.trans (min_le_right _ _)
        exact absurd hle (not_le.2 hfirst)

end Nn
end Rustorch
