import Mathlib.Data.List.Basic

/-!
# Token sampling

`sampling.rs`: `sample_next` picks a token id from the logits, with at most one draw from the
caller's generator.  The arithmetic is that of `Scalar`, which asks for no laws, so that rounding,
infinities and NaN are covered.
-/

namespace Rustorch
namespace Nn

open List

/-- The `f32` operations of the sampler; `max` is `f32::max`.  The order in which
`sortUnstableBy` leaves equal elements is open in the source as it is here. -/
class Scalar (F : Type) extends Zero F, One F, Add F, Sub F, Mul F, Div F, Max F, NatCast F,
    LT F, LE F where
  negInf : F
  epsilon : F
  abs : F → F
  exp : F → F
  decLt : DecidableLT F
  decLe : DecidableLE F
  sortUnstableBy : (F × Nat → F × Nat → Bool) → List (F × Nat) → List (F × Nat)
  sortUnstableBy_perm : ∀ le xs, (sortUnstableBy le xs).Perm xs

attribute [reducible, instance] Scalar.decLt Scalar.decLe

structure SamplingConfig (F : Type) where
  temperature : F
  topK : Option Nat
  topP : Option F
  repeatPenalty : Option F

variable {F : Type} [Scalar F]

def SamplingConfig.greedy : SamplingConfig F where
  temperature := 0
  topK := none
  topP := none
  repeatPenalty := none

/-- The lower index wins a tie. -/
def argmax (logits : List F) : Nat :=
  (logits.zipIdx.foldl (fun best vi => if best.2 < vi.1 then (vi.2, vi.1) else best)
    (0, Scalar.negInf)).1

/-- Step 1, for one recent token. -/
def penalise (penalty : F) (working : List F) (tok : UInt32) : List F :=
  match working[tok.toNat]? with
  | some v => working.set tok.toNat (if 0 < v then v / penalty else v * penalty)
  | none => working

def applyRepeatPenalty (config : SamplingConfig F) (recentTokens : List UInt32)
    (working : List F) : List F :=
  match config.repeatPenalty with
  | some penalty => if 1 < penalty then recentTokens.foldl (penalise penalty) working else working
  | none => working

/-- Step 2. -/
def applyTemperature (config : SamplingConfig F) (working : List F) : List F :=
  if Scalar.epsilon < Scalar.abs (config.temperature - 1) then
    let invT := 1 / config.temperature
    working.map (· * invT)
  else
    working

/-- The comparator `b.partial_cmp(a).unwrap_or(Equal)`: `a` may stand before `b`. -/
def descending (a b : F × Nat) : Bool :=
  !decide (a.1 < b.1)

/-- Step 3.  After the selection, slot `k - 1` holds what a full sort puts there. -/
def truncateTopK (config : SamplingConfig F) (working : List F) : List F :=
  match config.topK with
  | some k =>
    if 0 < k ∧ k < working.length then
      match (Scalar.sortUnstableBy descending working.zipIdx)[k - 1]? with
      | some kth => working.map (fun v => if v < kth.1 then Scalar.negInf else v)
      | none => working
    else
      working
  | none => working

/-- Step 4; `none` when the exponentials do not sum to a positive number. -/
def softmax (working : List F) : Option (List F) :=
  let maxLogit := working.foldl max Scalar.negInf
  let exps := working.map (fun v => Scalar.exp (v - maxLogit))
  let sumExp : F := exps.foldl (· + ·) 0
  if 0 < sumExp then
    let invSum := 1 / sumExp
    some (exps.map (· * invSum))
  else
    none

/-- How many of the sorted tokens reach mass `p`; all of them if they never do. -/
def nucleusCutoff (p : F) : F → List (F × Nat) → Nat
  | _, [] => 0
  | cum, vi :: rest => if p ≤ cum + vi.1 then 1 else nucleusCutoff p (cum + vi.1) rest + 1

/-- Step 5. -/
def truncateTopP (config : SamplingConfig F) (working : List F) : List F :=
  match config.topP with
  | some p =>
    if 0 < p ∧ p < 1 then
      let sortedIdx := Scalar.sortUnstableBy descending working.zipIdx
      let kept := (sortedIdx.drop (nucleusCutoff p 0 sortedIdx)).foldl
        (fun buf vi => buf.set vi.2 0) working
      let s : F := kept.foldl (· + ·) 0
      if 0 < s then
        let invS := 1 / s
        kept.map (· * invS)
      else
        kept
    else
      working
  | none => working

def clampUnit (u : F) : F :=
  let low := if u < 0 then 0 else u
  if 1 - Scalar.epsilon < low then 1 - Scalar.epsilon else low

def cdfIndex (u : F) : F → List F → Option Nat
  | _, [] => none
  | acc, p :: rest => if u < acc + p then some 0 else (cdfIndex u (acc + p) rest).map (· + 1)

/-- Step 6, with its safety net. -/
def inverseCdf (u : F) (working : List F) : Nat :=
  match cdfIndex u 0 working with
  | some i => i
  | none => ((working.zipIdx.reverse.find? (fun pi => 0 < pi.1)).map Prod.snd).getD 0

/-- The id and the generator's state afterwards. -/
def sampleNext {σ : Type} (logits : List F) (config : SamplingConfig F)
    (recentTokens : List UInt32) (uniform01Sample : σ → F × σ) (s : σ) : Nat × σ :=
  if logits = [] then
    (0, s)
  else if config.temperature ≤ 0 ∧ config.topK = none ∧ config.topP = none ∧
      config.repeatPenalty = none then
    (argmax logits, s)
  else
    let working := truncateTopK config
      (applyTemperature config (applyRepeatPenalty config recentTokens logits))
    match softmax working with
    | none => (argmax logits, s)
    | some probs =>
      let (draw, s') := uniform01Sample s
      (inverseCdf (clampUnit draw) (truncateTopP config probs), s')

/-! ## The id is in the vocabulary -/

theorem foldl_argmax_lt {n : Nat} :
    ∀ (vis : List (F × Nat)) (best : Nat × F), best.1 < n → (∀ vi ∈ vis, vi.2 < n) →
      (vis.foldl (fun best vi => if best.2 < vi.1 then (vi.2, vi.1) else best) best).1 < n := by
  intro vis
  induction vis with
  | nil =>
    intro best hbest _
    exact hbest
  | cons vi vis ih =>
    intro best hbest hall
    rw [foldl_cons]
    apply ih
    · split_ifs
      · exact hall vi (mem_cons_self ..)
      · exact hbest
    · intro vj hvj
      exact hall vj (mem_cons_of_mem vi hvj)

variable {logits working : List F}

theorem argmax_lt : logits ≠ [] → argmax logits < logits.length := by
  intro hne
  exact foldl_argmax_lt _ _ (length_pos_iff.2 hne) (fun _ h => snd_lt_of_mem_zipIdx h)

@[simp] theorem length_penalise (penalty : F) (working : List F) (tok : UInt32) :
    (penalise penalty working tok).length = working.length := by
  unfold penalise
  split
  · exact length_set
  · rfl

theorem length_foldl_penalise (penalty : F) (toks : List UInt32) :
    ∀ working : List F, (toks.foldl (penalise penalty) working).length = working.length := by
  induction toks with
  | nil =>
    intro working
    rfl
  | cons tok toks ih =>
    intro working
    rw [foldl_cons, ih, length_penalise]

@[simp] theorem length_applyRepeatPenalty (config : SamplingConfig F) (toks : List UInt32)
    (working : List F) : (applyRepeatPenalty config toks working).length = working.length := by
  unfold applyRepeatPenalty
  split
  · split_ifs
    · exact length_foldl_penalise ..
    · rfl
  · rfl

@[simp] theorem length_applyTemperature (config : SamplingConfig F) (working : List F) :
    (applyTemperature config working).length = working.length := by
  simp only [applyTemperature]
  split_ifs
  · exact length_map _
  · rfl

@[simp] theorem length_truncateTopK (config : SamplingConfig F) (working : List F) :
    (truncateTopK config working).length = working.length := by
  unfold truncateTopK
  split
  · split_ifs
    · split
      · exact length_map _
      · rfl
    · rfl
  · rfl

theorem length_softmax {probs : List F} :
    softmax working = some probs → probs.length = working.length := by
  intro h
  simp only [softmax, Option.ite_none_right_eq_some, Option.some.injEq] at h
  rw [← h.2, length_map, length_map]

theorem length_foldl_set {α β : Type} (f : β → Nat) (x : α) (is : List β) :
    ∀ xs : List α, (is.foldl (fun buf i => buf.set (f i) x) xs).length = xs.length := by
  induction is with
  | nil =>
    intro xs
    rfl
  | cons i is ih =>
    intro xs
    rw [foldl_cons, ih, length_set]

@[simp] theorem length_truncateTopP (config : SamplingConfig F) (working : List F) :
    (truncateTopP config working).length = working.length := by
  simp only [truncateTopP]
  split
  · split_ifs
    · rw [length_map, length_foldl_set]
    · exact length_foldl_set ..
    · rfl
  · rfl

theorem cdfIndex_lt {u : F} :
    ∀ {acc : F} {i : Nat}, cdfIndex u acc working = some i → i < working.length := by
  induction working with
  | nil =>
    intro acc i h
    cases h
  | cons p rest ih =>
    intro acc i h
    unfold cdfIndex at h
    split_ifs at h
    · cases h
      exact Nat.succ_pos _
    · rw [Option.map_eq_some_iff] at h
      obtain ⟨j, hj, rfl⟩ := h
      exact Nat.succ_lt_succ (ih hj)

theorem inverseCdf_lt {u : F} : working ≠ [] → inverseCdf u working < working.length := by
  intro hne
  unfold inverseCdf
  split
  · next h => exact cdfIndex_lt h
  · cases hfind : working.zipIdx.reverse.find? (fun pi => 0 < pi.1) with
    | none => exact length_pos_iff.2 hne
    | some pi =>
      exact snd_lt_of_mem_zipIdx (mem_reverse.1 (mem_of_find?_eq_some hfind))

theorem sampleNext_lt {σ : Type} (config : SamplingConfig F) (recentTokens : List UInt32)
    (uniform01Sample : σ → F × σ) (s : σ) : logits ≠ [] →
      (sampleNext logits config recentTokens uniform01Sample s).1 < logits.length := by
  intro hne
  simp only [sampleNext, if_neg hne]
  split_ifs
  · exact argmax_lt hne
  · split
    · exact argmax_lt hne
    · next probs h =>
        have hlen := length_softmax h
        simp only [length_truncateTopK, length_applyTemperature, length_applyRepeatPenalty] at hlen
        have hprobs : truncateTopP config probs ≠ [] := by
          rw [← length_pos_iff, length_truncateTopP, hlen]
          exact length_pos_iff.2 hne
        simpa only [length_truncateTopP, hlen] using inverseCdf_lt hprobs

end Nn
end Rustorch
