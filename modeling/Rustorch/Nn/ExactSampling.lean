import Mathlib.Tactic.Linarith
import Mathlib.Tactic.Positivity
import Rustorch.Lib.Extended
import Rustorch.Lib.OnlineSoftmax
import Rustorch.Nn.Sampling

/-!
# Sampling over an exact field

The steps of `sample_next` on finite logits, over an ordered field with `-∞` and NaN.  The
exponential is any positive increasing function, and the sort leaves equal elements in any order.
-/

namespace Rustorch
namespace Nn

open List
open Prod (fst map snd)
open Option (map_some)

open Extended (fin negInf nan ofScore)
open OnlineSoftmax (weight normalizer)

theorem two_atLeastTwo : Nat.AtLeastTwo 2 := ⟨le_rfl⟩

attribute [local instance] two_atLeastTwo

/-- The exponential and the sort that the sampler calls. -/
class SamplerMath (F : Type) [Field F] [LinearOrder F] where
  exp : F → F
  exp_pos : ∀ x, 0 < exp x
  exp_strictMono : StrictMono exp
  sortUnstableBy : (Extended F × Nat → Extended F × Nat → Bool) → List (Extended F × Nat) →
    List (Extended F × Nat)
  sortUnstableBy_perm : ∀ le xs, (sortUnstableBy le xs).Perm xs
  /-- The elements are sorted where the comparator orders them. -/
  sortUnstableBy_pairwise : ∀ le xs,
    (∀ a ∈ xs, ∀ b ∈ xs, ∀ c ∈ xs, le a b = true → le b c = true → le a c = true) →
      (∀ a ∈ xs, ∀ b ∈ xs, (le a b || le b a) = true) →
        (sortUnstableBy le xs).Pairwise fun a b => le a b = true

variable {F : Type} [Field F] [LinearOrder F]

section Instances

variable [SamplerMath F]

instance exactScalar : Scalar (Extended F) where
  zero := fin 0
  one := fin 1
  add := Extended.add
  sub := Extended.sub
  mul := Extended.mul
  div := Extended.div
  max := Extended.max
  natCast n := fin n
  lt x y := Extended.lt x y = true
  le x y := (Extended.lt x y || Extended.eq x y) = true
  negInf := negInf
  epsilon := fin (1 / 2 ^ 23)
  abs
    | fin x => fin |x|
    | _ => nan
  exp := Extended.exp SamplerMath.exp
  decLt := fun _ _ => inferInstanceAs (Decidable (_ = true))
  decLe := fun _ _ => inferInstanceAs (Decidable (_ = true))
  sortUnstableBy := SamplerMath.sortUnstableBy
  sortUnstableBy_perm := SamplerMath.sortUnstableBy_perm

@[simp] theorem fin_lt_fin {x y : F} : (fin x : Extended F) < fin y ↔ x < y :=
  decide_eq_true_iff

@[simp] theorem fin_le_fin {x y : F} : (fin x : Extended F) ≤ fin y ↔ x ≤ y := by
  change (decide (x < y) || decide (x = y)) = true ↔ x ≤ y
  simp [le_iff_lt_or_eq]

theorem zero_eq : (0 : Extended F) = fin 0 := rfl

theorem one_eq : (1 : Extended F) = fin 1 := rfl

@[simp] theorem zero_lt_fin {x : F} : (0 : Extended F) < fin x ↔ 0 < x :=
  fin_lt_fin

end Instances

/-! ## The configuration and the first two steps -/

def SamplingConfig.lift (config : SamplingConfig F) : SamplingConfig (Extended F) where
  temperature := fin config.temperature
  topK := config.topK
  topP := config.topP.map fin
  repeatPenalty := config.repeatPenalty.map fin

open SamplingConfig

/-- The id for a draw. -/
def sample [SamplerMath F] (logits : List F) (config : SamplingConfig F)
    (recentTokens : List UInt32) (u : F) : Nat :=
  (sampleNext (logits.map fin) config.lift recentTokens (fun _ : Unit => (fin u, ())) ()).1

/-- The penalty on one token. -/
def penaliseToken (penalty : F) (logits : List F) (tok : UInt32) : List F :=
  match logits[tok.toNat]? with
  | some v => logits.set tok.toNat (if 0 < v then v / penalty else v * penalty)
  | none => logits

/-- The logits after the repeat penalty. -/
def penalised (config : SamplingConfig F) (recentTokens : List UInt32) (logits : List F) :
    List F :=
  match config.repeatPenalty with
  | some penalty =>
    if 1 < penalty then recentTokens.foldl (penaliseToken penalty) logits else logits
  | none => logits

/-- The logits over the temperature. -/
def scaled (config : SamplingConfig F) (logits : List F) : List F :=
  if 1 / 2 ^ 23 < |config.temperature - 1| then
    logits.map (· * (1 / config.temperature))
  else
    logits

section Steps

variable [SamplerMath F] {config : SamplingConfig F}

theorem penalise_map {penalty : F} (hpenalty : 0 < penalty) (logits : List F) (tok : UInt32) :
    penalise (fin penalty) (logits.map fin) tok = (penaliseToken penalty logits tok).map fin := by
  unfold penalise penaliseToken
  rw [getElem?_map]
  cases logits[tok.toNat]? with
  | none => rfl
  | some v =>
    simp only [map_some, map_set, zero_lt_fin]
    congr 1
    split_ifs
    · exact Extended.fin_div hpenalty.ne'
    · rfl

theorem applyRepeatPenalty_map [IsStrictOrderedRing F] (recentTokens : List UInt32) (logits : List F) :
    applyRepeatPenalty config.lift recentTokens (logits.map fin) =
      (penalised config recentTokens logits).map fin := by
  unfold applyRepeatPenalty penalised lift
  cases config.repeatPenalty with
  | none => rfl
  | some penalty =>
    simp only [map_some, one_eq, fin_lt_fin]
    split_ifs with hone
    · have hpos : 0 < penalty := zero_lt_one.trans hone
      induction recentTokens generalizing logits with
      | nil => rfl
      | cons tok toks ih => rw [foldl_cons, foldl_cons, penalise_map hpos, ih]
    · rfl

theorem applyTemperature_map (ht : config.temperature ≠ 0) (logits : List F) :
    applyTemperature config.lift (logits.map fin) = (scaled config logits).map fin := by
  have hdiv : (1 : Extended F) / fin config.temperature = fin (1 / config.temperature) :=
    Extended.fin_div ht
  have heps : (Scalar.epsilon : Extended F) < Scalar.abs (fin config.temperature - 1) ↔
      1 / 2 ^ 23 < |config.temperature - 1| := fin_lt_fin
  simp only [applyTemperature, lift, scaled, heps, hdiv]
  split_ifs
  · rw [map_map, map_map]
    rfl
  · rfl

/-! ## The sort -/

/-- The sort of indexed values puts the larger ones first. -/
theorem sort_spec (xs : List F) :
    ∃ ps : List (F × Nat),
      Scalar.sortUnstableBy descending (xs.map fin).zipIdx = ps.map (map fin id) ∧
        ps.Perm xs.zipIdx ∧ ps.Pairwise fun a b => b.1 ≤ a.1 := by
  -- all values are finite, so the order of the code is total on them
  have hzip : (xs.map fin).zipIdx = xs.zipIdx.map (map fin id) := zipIdx_map
  have hperm := Scalar.sortUnstableBy_perm (descending (F := Extended F)) (xs.map fin).zipIdx
  have hmem : ∀ a ∈ (xs.map fin).zipIdx, ∃ p : F × Nat, a = map fin id p := by
    intro a ha
    rw [hzip] at ha
    obtain ⟨p, _, rfl⟩ := mem_map.1 ha
    exact ⟨p, rfl⟩
  have hdesc : ∀ p q : F × Nat,
      descending (F := Extended F) (map fin id p) (map fin id q) = true ↔ q.1 ≤ p.1 := by
    intro p q
    change (!decide ((fin p.1 : Extended F) < fin q.1)) = true ↔ q.1 ≤ p.1
    simp
  have hsorted : (Scalar.sortUnstableBy descending (xs.map fin).zipIdx).Pairwise
      fun a b => descending (F := Extended F) a b = true :=
    SamplerMath.sortUnstableBy_pairwise (descending (F := Extended F)) (xs.map fin).zipIdx (by
      intro a ha b hb c hc hab hbc
      obtain ⟨p, rfl⟩ := hmem a ha
      obtain ⟨q, rfl⟩ := hmem b hb
      obtain ⟨r, rfl⟩ := hmem c hc
      exact (hdesc p r).2 (((hdesc q r).1 hbc).trans ((hdesc p q).1 hab))) (by
      intro a ha b hb
      obtain ⟨p, rfl⟩ := hmem a ha
      obtain ⟨q, rfl⟩ := hmem b hb
      rw [Bool.or_eq_true, hdesc, hdesc]
      exact le_total _ _)
  -- so the sorted list comes from finite values, in the order of these
  have hlift : ∃ ps : List (F × Nat), ps.map (map fin id) =
      Scalar.sortUnstableBy descending (xs.map fin).zipIdx := by
    rw [← Set.mem_range, Set.range_list_map]
    intro a ha
    obtain ⟨p, rfl⟩ := hmem a (hperm.mem_iff.1 ha)
    exact ⟨p, rfl⟩
  obtain ⟨ps, hps⟩ := hlift
  have hinj : Function.Injective (map fin id : F × Nat → Extended F × Nat) :=
    Function.Injective.prodMap (fun _ _ h => fin.inj h) Function.injective_id
  refine ⟨ps, hps.symm, ?_, ?_⟩
  · rw [← hps, hzip] at hperm
    exact (map_perm_map_iff hinj).1 hperm
  · rw [← hps, pairwise_map] at hsorted
    exact hsorted.imp fun h => (hdesc _ _).1 h

/-! ## Top-k -/

/-- The values below the threshold of step 3 are masked. -/
def masked (c : WithBot F) (xs : List F) : List (WithBot F) :=
  xs.map fun x : F => if (x : WithBot F) < c then ⊥ else x

/-- No threshold, or the `k`-th largest value. -/
inductive Threshold (topK : Option Nat) (xs : List F) : WithBot F → Prop
  | all : (∀ k, topK = some k → k = 0 ∨ xs.length ≤ k) → Threshold topK xs ⊥
  | kth {k : Nat} {c : F} : topK = some k → 0 < k → k < xs.length →
      xs.countP (c < ·) < k → k ≤ xs.countP (c ≤ ·) → Threshold topK xs c

omit [Field F] [SamplerMath F] in
/-- In a descending list the elements before `c` are those above it, but for ties. -/
theorem count_of_sorted {before after : List F} {c : F} :
    (before ++ c :: after).Pairwise (fun a b => b ≤ a) →
      (before ++ c :: after).countP (c < ·) ≤ before.length ∧
        before.length < (before ++ c :: after).countP (c ≤ ·) := by
  intro h
  rw [pairwise_append, pairwise_cons] at h
  obtain ⟨_, ⟨hafter, _⟩, hbefore⟩ := h
  constructor
  · have hzero : (c :: after).countP (c < ·) = 0 := by
      rw [countP_eq_zero]
      intro a ha
      rcases mem_cons.1 ha with rfl | ha
      · simp
      · simpa using hafter a ha
    rw [countP_append, hzero]
    exact countP_le_length
  · have hall : before.countP (c ≤ ·) = before.length := by
      rw [countP_eq_length]
      intro b hb
      simpa using hbefore b hb c mem_cons_self
    rw [countP_append, hall, countP_cons_of_pos (by simp)]
    omega

omit [Field F] [SamplerMath F] in
theorem masked_bot (xs : List F) : masked ⊥ xs = xs.map fun x : F => (x : WithBot F) := by
  apply map_congr_left
  intro x _
  rw [if_neg not_lt_bot]

theorem map_ofScore_masked (c : F) (xs : List F) :
    (masked c xs).map ofScore =
      (xs.map fin).map fun v => if v < fin c then Scalar.negInf else v := by
  rw [masked, map_map, map_map]
  apply map_congr_left
  intro x _
  simp only [Function.comp_apply, fin_lt_fin, WithBot.coe_lt_coe]
  split_ifs
  · rfl
  · rfl

theorem truncateTopK_map (xs : List F) :
    ∃ c, Threshold config.topK xs c ∧
      truncateTopK config.lift (xs.map fin) = (masked c xs).map ofScore := by
  have hall : (masked ⊥ xs).map ofScore = xs.map fin := by
    rw [masked_bot, map_map]
    rfl
  unfold truncateTopK
  simp only [lift]
  cases hk : config.topK with
  | none =>
    refine ⟨⊥, Threshold.all ?_, hall.symm⟩
    intro k h
    cases h
  | some k =>
    simp only [length_map]
    by_cases hrange : 0 < k ∧ k < xs.length
    · rw [if_pos hrange]
      obtain ⟨hpos, hlt⟩ := hrange
      obtain ⟨ps, hsort, hperm, hpairs⟩ := sort_spec xs
      have hlen : ps.length = xs.length := by rw [hperm.length_eq, length_zipIdx]
      have hslot : k - 1 < ps.length := by omega
      have hfst : (ps.map fst).Perm xs := by
        have hmap := hperm.map fst
        rwa [zipIdx_map_fst] at hmap
      have hsplit : ps.map fst =
          (ps.take (k - 1)).map fst ++ ps[k - 1].1 :: (ps.drop k).map fst := by
        have hdrop := drop_eq_getElem_cons hslot
        rw [Nat.sub_add_cancel hpos] at hdrop
        rw [← map_cons, ← hdrop, ← map_append, take_append_drop]
      have hsorted : (ps.map fst).Pairwise fun a b => b ≤ a := pairwise_map.2 hpairs
      rw [hsplit] at hsorted
      have hcount := count_of_sorted hsorted
      rw [← hsplit, hfst.countP_eq, hfst.countP_eq, length_map, length_take,
        Nat.min_eq_left hslot.le] at hcount
      have hkth : (ps.map (map fin id))[k - 1]? =
          some (map (fin : F → Extended F) id ps[k - 1]) := by
        rw [getElem?_map, getElem?_eq_getElem hslot, map_some]
      rw [hsort, hkth]
      exact ⟨(ps[k - 1].1 : F), Threshold.kth rfl hpos hlt (by omega) (by omega),
        (map_ofScore_masked _ _).symm⟩
    · rw [if_neg hrange]
      refine ⟨⊥, Threshold.all ?_, hall.symm⟩
      intro k' h
      cases h
      omega

/-! ## Softmax -/

/-- The probabilities of scores, `0` where they are masked. -/
def probabilities (ys : List (WithBot F)) : List F :=
  let s : Multiset (WithBot F) := ys
  ys.map fun y => weight SamplerMath.exp s.sup y * (1 / normalizer SamplerMath.exp s)

section Softmax

variable [IsStrictOrderedRing F] {ys : List (WithBot F)}

theorem softmax_map (hsup : (ys : Multiset (WithBot F)).sup ≠ ⊥) :
    softmax (ys.map ofScore) = some ((probabilities ys).map fin) := by
  have hmax : (ys.map ofScore).foldl max (Scalar.negInf : Extended F) =
      ofScore (ys : Multiset (WithBot F)).sup := by
    have h := Extended.foldl_max_map_ofScore ys ⊥
    rwa [bot_sup_eq] at h
  obtain ⟨m, hm⟩ := WithBot.ne_bot_iff_exists.1 hsup
  have hexps : (ys.map ofScore).map
      (fun v => Scalar.exp (v - ofScore (ys : Multiset (WithBot F)).sup)) =
        (ys.map (weight SamplerMath.exp (ys : Multiset (WithBot F)).sup)).map fin := by
    rw [map_map, map_map, ← hm]
    apply map_congr_left
    intro y _
    cases y using WithBot.recBotCoe with
    | bot => rfl
    | coe y => rfl
  have hsum : ((ys.map (weight SamplerMath.exp (ys : Multiset (WithBot F)).sup)).map
      fin).foldl (· + ·) (0 : Extended F) = fin (normalizer SamplerMath.exp ys) := by
    have h := Extended.foldl_add_map_fin
      (ys.map (weight SamplerMath.exp (ys : Multiset (WithBot F)).sup)) 0
    rwa [zero_add] at h
  have hpos := OnlineSoftmax.normalizer_pos SamplerMath.exp_pos hsup
  simp only [softmax, hmax, hexps, hsum, zero_lt_fin]
  have hdiv : (1 : Extended F) / fin (normalizer SamplerMath.exp ys) =
      fin (1 / normalizer SamplerMath.exp ys) := Extended.fin_div hpos.ne'
  rw [if_pos hpos, hdiv, map_map, probabilities, map_map, map_map]
  rfl

theorem probabilities_nonneg : ∀ p ∈ probabilities ys, 0 ≤ p := by
  intro p hp
  obtain ⟨y, _, rfl⟩ := mem_map.1 hp
  by_cases hsup : (ys : Multiset (WithBot F)).sup = ⊥
  · rw [hsup, OnlineSoftmax.weight_bot_left, zero_mul]
  · have hpos := OnlineSoftmax.normalizer_pos SamplerMath.exp_pos hsup
    exact mul_nonneg (OnlineSoftmax.weight_nonneg SamplerMath.exp_pos _ _)
      (div_nonneg zero_le_one hpos.le)

theorem sum_probabilities (hsup : (ys : Multiset (WithBot F)).sup ≠ ⊥) :
    (probabilities ys).sum = 1 := by
  have hpos := OnlineSoftmax.normalizer_pos SamplerMath.exp_pos hsup
  have hsum : (ys.map (weight SamplerMath.exp (ys : Multiset (WithBot F)).sup)).sum =
      normalizer SamplerMath.exp ys := rfl
  rw [probabilities, sum_map_mul_right, hsum, mul_one_div_cancel hpos.ne']

end Softmax

/-! ## The nucleus -/

/-- The values at the kept indices, and `0` at the others. -/
def keepOnly (kept : Finset Nat) (ps : List F) : List F :=
  ps.zipIdx.map fun pi => if pi.2 ∈ kept then pi.1 else 0

/-- A set of indices with the largest values, whose sum reaches `p`, but not without one of its
smallest. -/
structure IsNucleus (p : F) (ps : List F) (kept : Finset Nat) : Prop where
  subset : kept ⊆ Finset.range ps.length
  highest : ∀ i ∈ kept, ∀ j < ps.length, j ∉ kept → ps.getD j 0 ≤ ps.getD i 0
  reaches : p ≤ ∑ i ∈ kept, ps.getD i 0
  minimal : ∀ i ∈ kept, (∀ j ∈ kept, ps.getD i 0 ≤ ps.getD j 0) →
    ∑ j ∈ kept.erase i, ps.getD j 0 < p

variable {ps : List F} {qs : List (F × Nat)} {p : F}

omit [LinearOrder F] [SamplerMath F] in
theorem sum_getD (hqs : ∀ q ∈ qs, q ∈ ps.zipIdx) (hnodup : (qs.map snd).Nodup) :
    ∑ i ∈ (qs.map snd).toFinset, ps.getD i 0 = (qs.map fst).sum := by
  rw [sum_toFinset _ hnodup, map_map]
  congr 1
  apply map_congr_left
  intro q hq
  have hget := mem_zipIdx_iff_getElem?.1 (hqs q hq)
  rw [Function.comp_apply, getD_eq_getElem?_getD, hget]
  rfl

/-- The walk stops at the first token that reaches `p`, or at the last one. -/
theorem nucleusCutoff_map (qs : List (F × Nat)) (hqs : qs ≠ []) :
    ∀ a < p, ∃ before last after, qs = before ++ last :: after ∧
      nucleusCutoff (fin p) (fin a) (qs.map (map fin id)) = before.length + 1 ∧
        a + (before.map fst).sum < p ∧
          (p ≤ a + (before.map fst).sum + last.1 ∨ after = []) := by
  induction qs with
  | nil => exact absurd rfl hqs
  | cons q qs ih =>
    intro a ha
    rw [map_cons, nucleusCutoff]
    simp only [Prod.map_fst, Extended.fin_add, fin_le_fin]
    by_cases hreach : p ≤ a + q.1
    · refine ⟨[], q, qs, rfl, if_pos hreach, ?_, Or.inl ?_⟩
      · simpa using ha
      · simpa using hreach
    · rw [if_neg hreach]
      by_cases hnil : qs = []
      · subst hnil
        refine ⟨[], q, [], rfl, rfl, ?_, Or.inr rfl⟩
        simpa using ha
      · obtain ⟨before, last, after, rfl, hcut, hshort, hstop⟩ :=
          ih hnil (a + q.1) (not_le.1 hreach)
        refine ⟨q :: before, last, after, rfl, by rw [hcut, length_cons], ?_, ?_⟩
        · rwa [map_cons, sum_cons, ← add_assoc]
        · rwa [map_cons, sum_cons, ← add_assoc]

omit [Field F] [LinearOrder F] [SamplerMath F] in
theorem getElem?_foldl_set {α β : Type} (f : β → Nat) (x : α) (is : List β) :
    ∀ (xs : List α) (j : Nat), (is.foldl (fun buf i => buf.set (f i) x) xs)[j]? =
      if j ∈ is.map f then xs[j]?.map (fun _ => x) else xs[j]? := by
  induction is with
  | nil =>
    intro xs j
    rfl
  | cons i is ih =>
    intro xs j
    rw [foldl_cons, ih, getElem?_set', map_cons]
    by_cases hmem : j ∈ is.map f
    · rw [if_pos hmem, if_pos (mem_cons_of_mem _ hmem)]
      split_ifs
      · cases xs[j]? with
        | none => rfl
        | some y => rfl
      · rfl
    · rw [if_neg hmem]
      by_cases heq : f i = j
      · rw [if_pos heq, if_pos (by rw [heq]; exact mem_cons_self)]
        rfl
      · rw [if_neg heq, if_neg]
        rw [mem_cons]
        rintro (rfl | h)
        · exact heq rfl
        · exact hmem h

omit [SamplerMath F] [LinearOrder F] in
theorem getElem?_keepOnly (kept : Finset Nat) (ps : List F) (j : Nat) :
    (keepOnly kept ps)[j]? = ps[j]?.map fun x => if j ∈ kept then x else 0 := by
  rw [keepOnly, getElem?_map, getElem?_zipIdx, Option.map_map]
  simp only [Nat.zero_add]
  rfl

omit [Field F] [LinearOrder F] [SamplerMath F] in
/-- The second components of a list of indexed values are its indices, each once. -/
theorem map_snd_perm (hperm : qs.Perm ps.zipIdx) :
    (qs.map snd).Perm (range ps.length) := by
  have hmap := hperm.map snd
  rwa [zipIdx_map_snd, ← range_eq_range'] at hmap

theorem foldl_set_zero (ps : List F) (before after : List (F × Nat))
    (hperm : (before ++ after).Perm ps.zipIdx) :
    (after.map (map fin id)).foldl (fun buf vi => buf.set vi.2 (0 : Extended F))
        (ps.map fin) =
      (keepOnly (before.map snd).toFinset ps).map fin := by
  have hindices := map_snd_perm hperm
  rw [map_append] at hindices
  have hnodup := hindices.nodup_iff.2 nodup_range
  rw [nodup_append] at hnodup
  have hafter : (after.map (map (fin : F → Extended F) id)).map snd =
      after.map snd := by
    rw [map_map]
    rfl
  apply ext_getElem?
  intro j
  rw [getElem?_foldl_set, hafter, getElem?_map, getElem?_map, getElem?_keepOnly]
  cases hj : ps[j]? with
  | none => simp
  | some x =>
    have hlt : j ∈ range ps.length := by
      rw [mem_range]
      by_contra hge
      rw [getElem?_eq_none (not_lt.1 hge)] at hj
      cases hj
    rw [← hindices.mem_iff, mem_append] at hlt
    simp only [map_some, mem_toFinset]
    by_cases hmem : j ∈ after.map snd
    · have hnot : j ∉ before.map snd := fun h => hnodup.2.2 j h j hmem rfl
      rw [if_pos hmem, if_neg hnot]
      rfl
    · rw [if_neg hmem, if_pos (hlt.resolve_right hmem)]

omit [LinearOrder F] [SamplerMath F] in
theorem getD_of_mem_zipIdx {q : F × Nat} : q ∈ ps.zipIdx → ps.getD q.2 0 = q.1 := by
  intro hq
  rw [getD_eq_getElem?_getD, mem_zipIdx_iff_getElem?.1 hq]
  rfl

omit [SamplerMath F] in
theorem isNucleus_of_cut [IsStrictOrderedRing F] {before after : List (F × Nat)} {last : F × Nat}
    (hperm : (before ++ last :: after).Perm ps.zipIdx)
    (hpairs : (before ++ last :: after).Pairwise fun a b => b.1 ≤ a.1)
    (hshort : (before.map fst).sum < p) (hreach : p ≤ (before.map fst).sum + last.1) :
    IsNucleus p ps ((before ++ [last]).map snd).toFinset := by
  have happend : before ++ last :: after = (before ++ [last]) ++ after := by
    rw [append_assoc, singleton_append]
  have hindices := map_snd_perm hperm
  have hnodup := hindices.nodup_iff.2 nodup_range
  have hkeptIn : ∀ q ∈ before ++ [last], q ∈ ps.zipIdx := by
    intro q hq
    apply hperm.mem_iff.1
    rw [happend]
    exact mem_append_left _ hq
  have hkeptNodup : ((before ++ [last]).map snd).Nodup := by
    rw [happend, map_append, nodup_append] at hnodup
    exact hnodup.1
  have hsum : ∑ i ∈ ((before ++ [last]).map snd).toFinset, ps.getD i 0 =
      (before.map fst).sum + last.1 := by
    rw [sum_getD hkeptIn hkeptNodup, map_append, sum_append, map_singleton, sum_singleton]
  rw [happend, pairwise_append, pairwise_append] at hpairs
  obtain ⟨⟨_, _, hlast⟩, _, hafter⟩ := hpairs
  refine ⟨?_, ?_, hsum ▸ hreach, ?_⟩
  · intro i hi
    rw [mem_toFinset] at hi
    obtain ⟨q, hq, rfl⟩ := mem_map.1 hi
    rw [Finset.mem_range]
    exact snd_lt_of_mem_zipIdx (hkeptIn q hq)
  · intro i hi j hj hout
    rw [mem_toFinset] at hi hout
    obtain ⟨q, hq, rfl⟩ := mem_map.1 hi
    have hjmem := hindices.mem_iff.2 (mem_range.2 hj)
    rw [happend, map_append, mem_append] at hjmem
    obtain ⟨r, hr, rfl⟩ := mem_map.1 (hjmem.resolve_left hout)
    have hrIn : r ∈ ps.zipIdx := by
      apply hperm.mem_iff.1
      rw [happend]
      exact mem_append_right _ hr
    rw [getD_of_mem_zipIdx (hkeptIn q hq), getD_of_mem_zipIdx hrIn]
    exact hafter q hq r hr
  · intro i hi hmin
    -- The last token kept is a lightest one, so any lightest one weighs as much.
    have hlastMem : last ∈ before ++ [last] :=
      mem_append_right _ (mem_singleton_self last)
    have hle := hmin last.2 (mem_toFinset.2 (mem_map_of_mem hlastMem))
    have hge : last.1 ≤ ps.getD i 0 := by
      rw [mem_toFinset] at hi
      obtain ⟨q, hq, rfl⟩ := mem_map.1 hi
      rw [getD_of_mem_zipIdx (hkeptIn q hq)]
      rcases mem_append.1 hq with hbefore | hsingle
      · exact hlast q hbefore last (mem_singleton_self last)
      · rw [mem_singleton.1 hsingle]
    have hvalue : ps.getD i 0 = last.1 := by
      rw [getD_of_mem_zipIdx (hkeptIn last hlastMem)] at hle
      exact le_antisymm hle hge
    have herase := Finset.add_sum_erase _ (fun j => ps.getD j 0) hi
    rw [hsum, hvalue, add_comm] at herase
    rw [add_right_cancel herase]
    exact hshort

omit [LinearOrder F] [SamplerMath F] in
theorem sum_keepOnly {kept : Finset Nat} (hkept : kept ⊆ Finset.range ps.length) :
    (keepOnly kept ps).sum = ∑ i ∈ kept, ps.getD i 0 := by
  have hlist : keepOnly kept ps =
      (range ps.length).map fun i => if i ∈ kept then ps.getD i 0 else 0 := by
    have hindices : range ps.length = ps.zipIdx.map snd := by
      rw [zipIdx_map_snd, range_eq_range']
    rw [hindices, map_map, keepOnly]
    apply map_congr_left
    intro q hq
    rw [Function.comp_apply, getD_of_mem_zipIdx hq]
  have hsum : (keepOnly kept ps).sum =
      ∑ i ∈ Finset.range ps.length, if i ∈ kept then ps.getD i 0 else 0 := by
    rw [hlist]
    rfl
  rw [hsum, Finset.sum_ite_mem, Finset.inter_eq_right.2 hkept]

theorem truncateTopP_map [IsStrictOrderedRing F] (hp : config.topP = some p) (hunit : 0 < p ∧ p < 1)
    (hsum : ps.sum = 1) : ∃ kept, IsNucleus p ps kept ∧
      truncateTopP config.lift (ps.map fin) =
        ((keepOnly kept ps).map (· * (1 / ∑ i ∈ kept, ps.getD i 0))).map fin := by
  obtain ⟨qs, hsort, hperm, hpairs⟩ := sort_spec ps
  have hqs : qs ≠ [] := by
    rintro rfl
    have hlen := hperm.length_eq
    rw [length_zipIdx] at hlen
    rw [eq_nil_of_length_eq_zero hlen.symm, sum_nil] at hsum
    exact zero_ne_one hsum
  obtain ⟨before, last, after, rfl, hcut, hshort, hstop⟩ := nucleusCutoff_map qs hqs 0 hunit.1
  rw [zero_add] at hshort hstop
  have happend : before ++ last :: after = (before ++ [last]) ++ after := by
    rw [append_assoc, singleton_append]
  have hperm' : ((before ++ [last]) ++ after).Perm ps.zipIdx := happend ▸ hperm
  have hkept : ((before ++ [last]).map fst).sum = (before.map fst).sum + last.1 := by
    rw [map_append, sum_append, map_singleton, sum_singleton]
  have hreach : p ≤ (before.map fst).sum + last.1 := by
    rcases hstop with hle | rfl
    · exact hle
    · have htotal := (hperm.map fst).sum_eq
      rw [zipIdx_map_fst, hsum, hkept] at htotal
      rw [htotal]
      exact hunit.2.le
  have hnucleus := isNucleus_of_cut hperm hpairs hshort hreach
  refine ⟨_, hnucleus, ?_⟩
  have hdrop : ((before ++ last :: after).map (map (fin : F → Extended F) id)).drop
      (before.length + 1) = after.map (map fin id) := by
    rw [happend, map_append, drop_left']
    simp
  -- The writes behind the cut clear exactly the indices the nucleus leaves out.
  have hset := foldl_set_zero ps (before ++ [last]) after hperm'
  have htotal := Extended.foldl_add_map_fin
    (keepOnly ((before ++ [last]).map snd).toFinset ps) 0
  rw [zero_add] at htotal
  have hsumEq := sum_keepOnly hnucleus.subset
  have hpositive := hunit.1.trans_le hnucleus.reaches
  have hguard : (fin 0 : Extended F) < fin p ∧ (fin p : Extended F) < 1 :=
    ⟨fin_lt_fin.2 hunit.1, fin_lt_fin.2 hunit.2⟩
  have hdiv : ∀ x : F, 0 < x → (1 : Extended F) / fin x = fin (1 / x) :=
    fun x hx => Extended.fin_div hx.ne'
  rw [zero_eq] at hset
  simp only [truncateTopP, lift, hp, map_some, hsort, zero_eq,
    hcut, hdrop, hset, htotal, hsumEq]
  rw [if_pos hguard, if_pos (fin_lt_fin.2 hpositive), hdiv _ hpositive, map_map, map_map]
  rfl

/-! ## The walk over the distribution -/

section Walk

/-- The mass before an index. -/
def massBefore (qs : List F) (i : Nat) : F :=
  (qs.take i).sum

variable {u : F}

/-- The walk stops at the token whose part of the unit interval holds the draw. -/
theorem cdfIndex_map (qs : List F) : ∀ a ≤ u, u < a + qs.sum → ∃ i < qs.length,
      cdfIndex (fin u) (fin a) (qs.map fin) = some i ∧
        a + massBefore qs i ≤ u ∧ u < a + massBefore qs (i + 1) := by
  induction qs with
  | nil =>
    intro a ha hu
    rw [sum_nil, add_zero] at hu
    exact absurd hu (not_lt.2 ha)
  | cons q qs ih =>
    intro a ha hu
    rw [map_cons, cdfIndex]
    simp only [Extended.fin_add, fin_lt_fin]
    by_cases hstop : u < a + q
    · refine ⟨0, Nat.succ_pos _, if_pos hstop, ?_, ?_⟩
      · simpa [massBefore] using ha
      · simpa [massBefore] using hstop
    · rw [sum_cons, ← add_assoc] at hu
      obtain ⟨i, hi, hindex, hge, hlt⟩ := ih (a + q) (not_lt.1 hstop) hu
      refine ⟨i + 1, Nat.succ_lt_succ hi, ?_, ?_, ?_⟩
      · rw [if_neg hstop, hindex]
        rfl
      · rwa [massBefore, take_succ_cons, sum_cons, ← add_assoc]
      · rwa [massBefore, take_succ_cons, sum_cons, ← add_assoc]

theorem inverseCdf_map (hu : 0 ≤ u) {qs : List F} (hlt : u < qs.sum) :
    ∃ i < qs.length, inverseCdf (fin u) (qs.map fin) = i ∧
      massBefore qs i ≤ u ∧ u < massBefore qs (i + 1) := by
  obtain ⟨i, hi, hindex, hge, hlt'⟩ := cdfIndex_map qs 0 hu (by rwa [zero_add])
  rw [zero_add] at hge hlt'
  refine ⟨i, hi, ?_, hge, hlt'⟩
  rw [inverseCdf, zero_eq, hindex]

/-- The draw that the walk uses. -/
def clamped (u : F) : F :=
  min u (1 - 1 / 2 ^ 23)

theorem clampUnit_map (hu : 0 ≤ u) : clampUnit (fin u) = fin (clamped u) := by
  have hlow : ¬(fin u : Extended F) < 0 := fun h => absurd (fin_lt_fin.1 h) (not_lt.2 hu)
  have hbound : (1 : Extended F) - Scalar.epsilon = fin (1 - 1 / 2 ^ 23) := rfl
  simp only [clampUnit, if_neg hlow, hbound, fin_lt_fin, clamped]
  split_ifs with h
  · rw [min_eq_right h.le]
  · rw [min_eq_left (not_lt.1 h)]

omit [SamplerMath F] in
theorem clamped_nonneg [IsStrictOrderedRing F] (hu : 0 ≤ u) : 0 ≤ clamped u := by
  have hsmall : (1 : F) / 2 ^ 23 ≤ 1 := by
    rw [div_le_one (by positivity)]
    exact one_le_pow₀ one_le_two
  exact le_min hu (sub_nonneg.2 hsmall)

omit [SamplerMath F] in
theorem clamped_lt_one [IsStrictOrderedRing F] : clamped u < 1 := by
  have hpos : (0 : F) < 1 / 2 ^ 23 := by positivity
  exact (min_le_right _ _).trans_lt (sub_lt_self 1 hpos)

end Walk

/-! ## The whole sampler -/

section Pipeline

variable (config : SamplingConfig F) {logits : List F}
  (recentTokens : List UInt32)

/-- The logits that the filters see. -/
def adjusted (config : SamplingConfig F) (recentTokens : List UInt32) (logits : List F) :
    List F :=
  scaled config (penalised config recentTokens logits)

omit [Field F] [SamplerMath F] in
theorem sup_masked_ne_bot {topK : Option Nat} {xs : List F} {c : WithBot F}
    (hc : Threshold topK xs c) (hne : xs ≠ []) :
    (masked c xs : Multiset (WithBot F)).sup ≠ ⊥ := by
  have hex : ∃ x ∈ xs, ¬(x : WithBot F) < c := by
    cases hc with
    | all _ =>
      obtain ⟨x, hx⟩ := exists_mem_of_ne_nil xs hne
      exact ⟨x, hx, not_lt_bot⟩
    | kth _ hpos _ _ hge =>
      obtain ⟨x, hx, hle⟩ := countP_pos_iff.1 (hpos.trans_le hge)
      exact ⟨x, hx, by simpa using hle⟩
  obtain ⟨x, hx, hkeep⟩ := hex
  have hmem : (x : WithBot F) ∈ (masked c xs : Multiset (WithBot F)) := by
    exact mem_map.2 ⟨x, hx, if_neg hkeep⟩
  intro hbot
  exact WithBot.coe_ne_bot (le_bot_iff.1 (hbot ▸ Multiset.le_sup hmem))

/-- The distribution after both filters. -/
inductive Filtered (topP : Option F) (ps : List F) : List F → Prop
  | all : (∀ p, topP = some p → p ≤ 0 ∨ 1 ≤ p) → Filtered topP ps ps
  | nucleus {p : F} {kept : Finset Nat} : topP = some p → 0 < p → p < 1 → IsNucleus p ps kept →
      Filtered topP ps ((keepOnly kept ps).map (· * (1 / ∑ i ∈ kept, ps.getD i 0)))

variable {config}

variable {topP : Option F}

omit [SamplerMath F] in
theorem Filtered.sum_eq_one {ps qs : List F} (h : Filtered topP ps qs) (hsum : ps.sum = 1) :
    qs.sum = 1 := by
  cases h with
  | all _ => exact hsum
  | nucleus _ hpos _ hkept =>
    have hkeep := sum_keepOnly hkept.subset
    have hpos' := hpos.trans_le hkept.reaches
    rw [sum_map_mul_right, map_id', hkeep, mul_one_div_cancel hpos'.ne']

omit [SamplerMath F] in
theorem Filtered.length_eq {ps qs : List F} (h : Filtered topP ps qs) : qs.length = ps.length := by
  cases h with
  | all _ => rfl
  | nucleus _ _ _ _ => rw [length_map, keepOnly, length_map, length_zipIdx]

variable [IsStrictOrderedRing F]

theorem exists_filtered {ps : List F} (hsum : ps.sum = 1) :
    ∃ qs, Filtered config.topP ps qs ∧
      truncateTopP config.lift (ps.map fin) = qs.map fin := by
  cases hp : config.topP with
  | none =>
    refine ⟨ps, Filtered.all (fun p h => by cases h), ?_⟩
    simp [truncateTopP, lift, hp]
  | some p =>
    by_cases hunit : 0 < p ∧ p < 1
    · obtain ⟨kept, hkept, hkeep⟩ := truncateTopP_map hp hunit hsum
      exact ⟨_, .nucleus rfl hunit.1 hunit.2 hkept, hkeep⟩
    · refine ⟨ps, Filtered.all ?_, ?_⟩
      · rintro p' h
        cases h
        exact (not_and_or.1 hunit).imp not_lt.1 not_lt.1
      · have hguard : ¬((0 : Extended F) < fin p ∧ (fin p : Extended F) < 1) := fun h =>
          hunit ⟨zero_lt_fin.1 h.1, fin_lt_fin.1 h.2⟩
        simp only [truncateTopP, lift, hp, map_some, if_neg hguard]

/-- Off the greedy path the draw picks the token whose part of the distribution holds it. -/
theorem sample_spec (ht : config.temperature ≠ 0)
    (hgeneral : ¬(config.temperature ≤ 0 ∧ config.topK = none ∧ config.topP = none ∧
      config.repeatPenalty = none)) (hne : logits ≠ []) :
    ∃ c qs, Threshold config.topK (adjusted config recentTokens logits) c ∧
      Filtered config.topP (probabilities (masked c (adjusted config recentTokens logits))) qs ∧
        qs.sum = 1 ∧ ∀ u, 0 ≤ u → ∃ i < qs.length, sample logits config recentTokens u = i ∧
          massBefore qs i ≤ clamped u ∧ clamped u < massBefore qs (i + 1) := by
  obtain ⟨c, hc, htopK⟩ :=
    @truncateTopK_map F _ _ _ config (adjusted config recentTokens logits)
  have hpenalised := @applyRepeatPenalty_map F _ _ _ config _ recentTokens logits
  have hscaled := applyTemperature_map ht (penalised config recentTokens logits)
  have hadjusted : adjusted config recentTokens logits ≠ [] := by
    have hlen := congrArg length hscaled
    rw [← hpenalised, length_applyTemperature, length_applyRepeatPenalty, length_map,
      length_map] at hlen
    rw [← length_pos_iff, adjusted, ← hlen]
    exact length_pos_iff.2 hne
  have hsup := sup_masked_ne_bot hc hadjusted
  have hprobs := sum_probabilities hsup
  obtain ⟨qs, hqs, htopP⟩ := @exists_filtered F _ _ _ config _ _ hprobs
  have hsum := hqs.sum_eq_one hprobs
  refine ⟨c, qs, hc, hqs, hsum, ?_⟩
  intro u hu
  obtain ⟨i, hi, hindex, hge, hlt⟩ := inverseCdf_map (clamped_nonneg hu)
    (hsum.symm ▸ clamped_lt_one : clamped u < qs.sum)
  refine ⟨i, hi, ?_, hge, hlt⟩
  have hfast : ¬(config.lift.temperature ≤ 0 ∧ config.lift.topK = none ∧
      config.lift.topP = none ∧ config.lift.repeatPenalty = none) := by
    simpa [zero_eq, lift] using hgeneral
  have hnonempty : logits.map (fin : F → Extended F) ≠ [] := by simpa using hne
  have hworking : truncateTopK config.lift (applyTemperature config.lift
      (applyRepeatPenalty config.lift recentTokens (logits.map fin))) =
        (masked c (adjusted config recentTokens logits)).map ofScore := by
    rw [hpenalised, hscaled]
    exact htopK
  unfold sample sampleNext
  rw [if_neg hnonempty, if_neg hfast, hworking]
  dsimp only
  rw [softmax_map hsup]
  simp only [htopP, clampUnit_map hu, hindex]

end Pipeline

end Steps

/-! ## A sampler over the rationals -/

/-- A positive increasing function in place of the exponential, and a stable sort. -/
instance ratMath : SamplerMath ℚ where
  exp x := if x ≤ 0 then 1 / (1 - x) else 1 + x
  exp_pos x := by
    split_ifs with h
    · exact one_div_pos.2 (by linarith)
    · linarith
  exp_strictMono := by
    intro x y hxy
    dsimp only
    split_ifs with hx hy hy
    · exact one_div_lt_one_div_of_lt (by linarith) (by linarith)
    · calc
        1 / (1 - x) ≤ 1 := (div_le_one (by linarith)).2 (by linarith)
        _ < 1 + y := by linarith
    · linarith
    · linarith
  sortUnstableBy le xs := xs.insertionSort fun a b => le a b = true
  sortUnstableBy_perm le xs := perm_insertionSort _ xs
  sortUnstableBy_pairwise := by
    intro le xs htrans htotal
    let r : {a // a ∈ xs} → {a // a ∈ xs} → Prop := fun a b => le a.1 b.1 = true
    have hmap : (xs.attach.insertionSort r).map Subtype.val =
        xs.insertionSort fun a b => le a b = true := by
      have hval := map_insertionSort r (fun a b => le a b = true) Subtype.val xs.attach
        (fun _ _ _ _ => Iff.rfl)
      rwa [attach_map_subtype_val] at hval
    have htotal' : Std.Total r :=
      ⟨fun a b => (Bool.or_eq_true _ _).mp (htotal a.1 a.2 b.1 b.2)⟩
    have htrans' : IsTrans _ r :=
      ⟨fun a b c => htrans a.1 a.2 b.1 b.2 c.1 c.2⟩
    rw [← hmap, pairwise_map]
    exact pairwise_insertionSort r xs.attach

end Nn
end Rustorch
