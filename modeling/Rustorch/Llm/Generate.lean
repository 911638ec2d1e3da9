import Rustorch.Nn.KvCache
import Rustorch.Nn.Sampling

/-!
# The generation loop

`LlamaModel::generate` feeds the prompt token by token, then decodes and samples in a loop.  The
loop starts by feeding the last prompt token again, at the next position, so every sampled id
is conditioned on a context that has this token twice.
-/

namespace Rustorch
namespace Llm

open Nn List

/-- What `generate` uses of a model: three sizes, `Scratch::new`, `decode_step` and
`scratch.logits`.  A panic is `none`. -/
structure Decoder (F S : Type) where
  numHiddenLayers : Nat
  nKvHeads : Nat
  headDim : Nat
  scratch : S
  decodeStep : Int → Nat → KVCache F → S → Option (KVCache F × S)
  logits : S → List F

structure GenState (F S : Type) where
  cache : KVCache F
  scratch : S
  output : List UInt32
  newTokens : List UInt32
  lastToken : Int
  nextUState : UInt64

/-- What the loop starts from. -/
def GenState.start {F S : Type} (cache : KVCache F) (scratch : S) (output : List UInt32)
    (last : UInt32) : GenState F S where
  cache := cache
  scratch := scratch
  output := output
  newTokens := []
  lastToken := last.toNat
  nextUState := 1

variable {F S : Type} [Scalar F]

/-- `next_u`, over the state it captures. -/
def nextU (s : UInt64) : F × UInt64 :=
  let s' := s * 6364136223846793005 + 1
  (((s' >>> 32).toNat : F) / ((4294967295 : Nat) : F), s')

namespace Decoder

def prefill (M : Decoder F S) : Nat → List UInt32 → KVCache F → S → List UInt32 →
    Option (KVCache F × S × List UInt32)
  | _, [], cache, scratch, output => some (cache, scratch, output)
  | pos, tok :: toks, cache, scratch, output => do
    let (cache, scratch) ← M.decodeStep tok.toNat pos cache scratch
    let cache ← KVCache.succeeded (cache.advance 1)
    prefill M (pos + 1) toks cache scratch (output ++ [tok])

/-- One iteration of the loop after the prompt. -/
def step (M : Decoder F S) (config : SamplingConfig F) (st : GenState F S) :
    Option (GenState F S) := do
  let pos := st.cache.currentLen
  let (cache, scratch) ← M.decodeStep st.lastToken pos st.cache st.scratch
  let cache ← KVCache.succeeded (cache.advance 1)
  let (next, s) := sampleNext (M.logits scratch) config st.output nextU st.nextUState
  some {
    cache := cache
    scratch := scratch
    output := st.output ++ [UInt32.ofNat next]
    newTokens := st.newTokens ++ [UInt32.ofNat next]
    lastToken := next
    nextUState := s }

def loop (M : Decoder F S) (config : SamplingConfig F) :
    Nat → GenState F S → Option (GenState F S)
  | 0, st => some st
  | n + 1, st => M.step config st >>= M.loop config n

/-- The state after the prompt and `n` iterations; the second `none` is the early return on an
empty prompt. -/
def runTo (M : Decoder F S) (promptIds : List UInt32) (config : SamplingConfig F)
    (n maxSeq : Nat) : Option (Option (GenState F S)) := do
  let (cache, scratch, output) ← M.prefill 0 promptIds
    (KVCache.new M.numHiddenLayers 1 M.nKvHeads M.headDim maxSeq) M.scratch []
  match promptIds.getLast? with
  | none => some none
  | some last =>
    (M.loop config n (GenState.start cache scratch output last)).map some

def generate (M : Decoder F S) (promptIds : List UInt32) (config : SamplingConfig F)
    (maxNewTokens maxSeq : Nat) : Option (List UInt32) :=
  (M.runTo promptIds config maxNewTokens maxSeq).map fun st? =>
    (st?.map GenState.newTokens).getD []

end Decoder

/-! ## A decoder over its context -/

/-- What was fed, with the positions, and the logits it left. -/
structure Feed (F : Type) where
  fed : List (Nat × Int)
  logits : List F

def Feed.push (f : List Int → List F) (feed : Feed F) (pos : Nat) (tok : Int) : Feed F where
  fed := feed.fed ++ [(pos, tok)]
  logits := f ((feed.fed ++ [(pos, tok)]).map Prod.snd)

/-- `decode_step` seen from outside: it fails unless the position is the cache length and below
`max_seq`; else the token joins the context and the logits are a function of the whole of it. -/
def contextDecoder (numHiddenLayers nKvHeads headDim : Nat) (f : List Int → List F) :
    Decoder F (Feed F) where
  numHiddenLayers := numHiddenLayers
  nKvHeads := nKvHeads
  headDim := headDim
  scratch := { fed := [], logits := [] }
  decodeStep tok pos cache feed :=
    if pos = cache.currentLen ∧ pos < cache.maxSeq then
      some (cache, feed.push f pos tok)
    else
      none
  logits := Feed.logits

/-- Ids as `decode_step` receives them. -/
def tokens (ids : List UInt32) : List Int :=
  ids.map (fun id => (id.toNat : Int))

/-- Every id once, at consecutive positions from `pos` on. -/
def feeds (pos : Nat) (ids : List UInt32) : List (Nat × Int) :=
  (tokens ids).zipIdx pos |>.map Prod.swap

@[simp] theorem length_feeds (pos : Nat) (ids : List UInt32) :
    (feeds pos ids).length = ids.length := by
  simp [feeds, tokens]

theorem feeds_append (pos : Nat) (ids ids' : List UInt32) :
    feeds pos (ids ++ ids') = feeds pos ids ++ feeds (pos + ids.length) ids' := by
  simp [feeds, tokens, zipIdx_append]

/-- The `i`-th state of the generator. -/
def drawState (F : Type) [Scalar F] (i : Nat) : UInt64 :=
  (fun s => (nextU s : F × UInt64).2)^[i] 1

/-- Generation conditions on exactly the prompt and its own output. -/
def ConditionsOnOutput (M : Decoder F (Feed F)) (f : List Int → List F) (promptIds : List UInt32)
    (config : SamplingConfig F) (maxNewTokens maxSeq : Nat) : Prop :=
  ∃ ids, M.generate promptIds config maxNewTokens maxSeq = some ids ∧ ids.length = maxNewTokens ∧
    ∀ i < maxNewTokens,
      (∃ st, M.runTo promptIds config (i + 1) maxSeq = some (some st) ∧
        st.scratch.fed = feeds 0 (promptIds ++ ids.take i)) ∧
      ids[i]? = some (UInt32.ofNat (sampleNext (f (tokens (promptIds ++ ids.take i))) config
        (promptIds ++ ids.take i) nextU (drawState F i)).1)

/-! ## The prompt -/

omit [Scalar F] in
theorem advance_one {cache : KVCache F} :
    cache.maxSeq < u64Size → cache.currentLen < cache.maxSeq →
      ∃ cache', KVCache.succeeded (cache.advance 1) = some cache' ∧
        cache'.currentLen = cache.currentLen + 1 ∧ cache'.maxSeq = cache.maxSeq := by
  intro hsize h
  refine ⟨{ cache with currentLen := cache.currentLen + 1, currentLen_le := h }, ?_, rfl, rfl⟩
  rw [KVCache.advance_of_le hsize (Nat.succ_le_of_lt h)]
  rfl

section Run

variable {numHiddenLayers nKvHeads headDim : Nat} {f : List Int → List F}

omit [Scalar F] in
theorem contextDecoder_decodeStep {cache : KVCache F} {feed : Feed F} {tok : Int} :
    cache.currentLen < cache.maxSeq →
      (contextDecoder numHiddenLayers nKvHeads headDim f).decodeStep tok cache.currentLen cache feed =
        some (cache, feed.push f cache.currentLen tok) := by
  intro h
  exact if_pos ⟨rfl, h⟩

omit [Scalar F] in
theorem prefill_eq (ids : List UInt32) :
    ∀ (pos : Nat) (cache : KVCache F) (feed : Feed F) (output : List UInt32),
      cache.maxSeq < u64Size → cache.currentLen = pos → pos + ids.length ≤ cache.maxSeq →
        ∃ cache' feed', (contextDecoder numHiddenLayers nKvHeads headDim f).prefill pos ids cache
            feed output = some (cache', feed', output ++ ids) ∧
          cache'.currentLen = pos + ids.length ∧ cache'.maxSeq = cache.maxSeq ∧
          feed'.fed = feed.fed ++ feeds pos ids := by
  induction ids with
  | nil =>
    intro pos cache feed output _ hlen _
    refine ⟨cache, feed, ?_, hlen, rfl, ?_⟩
    · rw [Decoder.prefill, append_nil]
    · exact (append_nil _).symm
  | cons id ids ih =>
    intro pos cache feed output hsize hlen hroom
    rw [length_cons] at hroom
    subst hlen
    obtain ⟨cache₁, hadv, hlen₁, hmax₁⟩ := @advance_one F cache hsize (by omega)
    obtain ⟨cache', feed', hrun, hlen', hmax', hfed'⟩ :=
      ih (cache.currentLen + 1) cache₁ (feed.push f cache.currentLen id.toNat) (output ++ [id])
        (hmax₁ ▸ hsize) hlen₁ (by omega)
    refine ⟨cache', feed', ?_, ?_, hmax'.trans hmax₁, ?_⟩
    · rw [Decoder.prefill, contextDecoder_decodeStep (by omega)]
      simpa [hadv] using hrun
    · rw [hlen', length_cons]
      omega
    · rw [hfed']
      calc
        (feed.push f cache.currentLen id.toNat).fed ++ feeds (cache.currentLen + 1) ids
            = feed.fed ++ (feeds cache.currentLen [id] ++ feeds (cache.currentLen + 1) ids) := by
              rw [← append_assoc]
              rfl
        _ = feed.fed ++ feeds cache.currentLen (id :: ids) := by
              rfl

/-! ## The loop -/

/-- What one iteration does to the state. -/
structure Stepped (f : List Int → List F) (config : SamplingConfig F)
    (st st' : GenState F (Feed F)) : Prop where
  currentLen : st'.cache.currentLen = st.cache.currentLen + 1
  maxSeq : st'.cache.maxSeq = st.cache.maxSeq
  scratch : st'.scratch = st.scratch.push f st.cache.currentLen st.lastToken
  sampled : sampleNext st'.scratch.logits config st.output nextU st.nextUState =
    (st'.lastToken.toNat, st'.nextUState)
  lastToken : 0 ≤ st'.lastToken
  output : st'.output = st.output ++ [UInt32.ofNat st'.lastToken.toNat]
  newTokens : st'.newTokens = st.newTokens ++ [UInt32.ofNat st'.lastToken.toNat]

theorem step_eq {config : SamplingConfig F} {st : GenState F (Feed F)} :
    st.cache.maxSeq < u64Size → st.cache.currentLen < st.cache.maxSeq →
      ∃ st', (contextDecoder numHiddenLayers nKvHeads headDim f).step config st = some st' ∧
        Stepped f config st st' := by
  intro hsize h
  obtain ⟨cache', hadv, hlen, hmax⟩ := advance_one hsize h
  let feed' := st.scratch.push f st.cache.currentLen st.lastToken
  let r := sampleNext feed'.logits config st.output nextU st.nextUState
  refine ⟨{
    cache := cache'
    scratch := feed'
    output := st.output ++ [UInt32.ofNat r.1]
    newTokens := st.newTokens ++ [UInt32.ofNat r.1]
    lastToken := r.1
    nextUState := r.2 }, ?_, hlen, hmax, rfl, rfl, Int.natCast_nonneg _, rfl, rfl⟩
  simp only [Decoder.step, contextDecoder_decodeStep h, hadv, Option.bind_eq_bind, Option.bind_some]
  rfl

omit [Scalar F] in
theorem length_fed_push (feed : Feed F) (pos : Nat) (tok : Int) :
    (feed.push f pos tok).fed.length = feed.fed.length + 1 :=
  length_append

omit f in
theorem loop_succ (M : Decoder F S) (config : SamplingConfig F) (n : Nat) :
    ∀ st : GenState F S, M.loop config (n + 1) st = M.loop config n st >>= M.step config := by
  induction n with
  | zero =>
    intro st
    simp [Decoder.loop]
  | succ n ih =>
    intro st
    rw [Decoder.loop, Decoder.loop, bind_assoc]
    congr 1
    funext st'
    exact ih st'

theorem runTo_succ (M : Decoder F S) (promptIds : List UInt32) (config : SamplingConfig F)
    (n maxSeq : Nat) : M.runTo promptIds config (n + 1) maxSeq =
      M.runTo promptIds config n maxSeq >>= fun st? =>
        match st? with
        | none => some none
        | some st => (M.step config st).map some := by
  simp only [Decoder.runTo, bind_assoc]
  congr 1
  funext r
  cases promptIds.getLast? with
  | none => rfl
  | some last =>
    simp only [loop_succ, Option.bind_eq_bind]
    cases M.loop config n _ with
    | none => rfl
    | some st => rfl

/-- Every id fits `u32`, so that `next as u32` keeps it. -/
def IdsFit (f : List Int → List F) : Prop :=
  ∀ ctx, (f ctx).length ≤ UInt32.size

/-- After `n` iterations: the output is the prompt and the new ids, and the context is the prompt,
its last token again, and the new ids but the newest. -/
structure Running (f : List Int → List F) (promptIds : List UInt32) (last : UInt32)
    (maxSeq n : Nat) (st : GenState F (Feed F)) : Prop where
  currentLen : st.cache.currentLen = promptIds.length + n
  maxSeq : st.cache.maxSeq = maxSeq
  output : st.output = promptIds ++ st.newTokens
  newTokens : st.newTokens.length = n
  length_fed : st.scratch.fed.length = promptIds.length + n
  lastToken : IdsFit f → st.lastToken = ((st.newTokens.getLastD last).toNat : Int)
  fed : IdsFit f → st.scratch.fed = feeds 0 (promptIds ++ (last :: st.newTokens).dropLast)

section Loop

variable {promptIds : List UInt32} {last : UInt32} {config : SamplingConfig F} {maxSeq n : Nat}

variable {st st' : GenState F (Feed F)}

theorem Stepped.lastToken_eq (hstep : Stepped f config st st') (hfit : IdsFit f) :
    st'.lastToken = ((UInt32.ofNat st'.lastToken.toNat).toNat : Int) := by
  have hlt : st'.lastToken.toNat < UInt32.size := by
    have hnext : st'.lastToken.toNat =
        (sampleNext st'.scratch.logits config st.output nextU st.nextUState).1 := by
      rw [hstep.sampled]
    rw [hnext]
    by_cases hnil : st'.scratch.logits = []
    · rw [sampleNext, if_pos hnil]
      exact Nat.two_pow_pos 32
    · apply Nat.lt_of_lt_of_le (sampleNext_lt config st.output nextU st.nextUState hnil)
      rw [hstep.scratch]
      exact hfit _
  rw [UInt32.toNat_ofNat_of_lt' hlt]
  exact (Int.toNat_of_nonneg hstep.lastToken).symm

theorem Running.step : Running f promptIds last maxSeq n st → Stepped f config st st' →
      Running f promptIds last maxSeq (n + 1) st' := by
  intro hrun hstep
  refine ⟨?_, hstep.maxSeq.trans hrun.maxSeq, ?_, ?_, ?_, ?_, ?_⟩
  · rw [hstep.currentLen, hrun.currentLen, Nat.add_assoc]
  · rw [hstep.output, hstep.newTokens, hrun.output, append_assoc]
  · rw [hstep.newTokens, length_append, hrun.newTokens]
    rfl
  · rw [hstep.scratch, length_fed_push, hrun.length_fed, Nat.add_assoc]
  · intro hfit
    rw [hstep.newTokens, getLastD_concat]
    exact hstep.lastToken_eq hfit
  · intro hfit
    -- the pending token joins the context, so nothing but the newest id is missing from it
    have hlast : feeds (promptIds ++ (last :: st.newTokens).dropLast).length
        [st.newTokens.getLastD last] = [(st.cache.currentLen, st.lastToken)] := by
      rw [hrun.lastToken hfit, hrun.currentLen, length_append, length_dropLast,
        length_cons, hrun.newTokens]
      rfl
    have hsplit : (last :: st.newTokens).dropLast ++ [st.newTokens.getLastD last] =
        last :: st.newTokens := by
      rw [← getLast_eq_getLastD (cons_ne_nil _ _)]
      exact dropLast_append_getLast _
    calc
      st'.scratch.fed
          = feeds 0 (promptIds ++ (last :: st.newTokens).dropLast) ++
              [(st.cache.currentLen, st.lastToken)] := by
            rw [hstep.scratch, ← hrun.fed hfit]
            rfl
      _ = feeds 0 (promptIds ++ ((last :: st.newTokens).dropLast ++
              [st.newTokens.getLastD last])) := by
            rw [← append_assoc, feeds_append _ (_ ++ _), Nat.zero_add, hlast]
      _ = feeds 0 (promptIds ++ (last :: st'.newTokens).dropLast) := by
            rw [hsplit, hstep.newTokens, ← cons_append, dropLast_concat]

theorem running_start (hlast : promptIds.getLast? = some last) :
    maxSeq < u64Size → promptIds.length ≤ maxSeq →
      ∃ st, (contextDecoder numHiddenLayers nKvHeads headDim f).runTo promptIds config 0 maxSeq =
          some (some st) ∧ Running f promptIds last maxSeq 0 st := by
  intro hsize hroom
  obtain ⟨cache, feed, hrun, hlen, hmax, hfed⟩ :=
    @prefill_eq F numHiddenLayers nKvHeads headDim f promptIds 0
      (KVCache.new numHiddenLayers 1 nKvHeads headDim maxSeq) { fed := [], logits := [] } [] hsize rfl
      (by simpa [KVCache.new] using hroom)
  rw [Nat.zero_add] at hlen
  refine ⟨GenState.start cache feed promptIds last, ?_, ?_⟩
  · have hprefill : (contextDecoder numHiddenLayers nKvHeads headDim f).prefill 0 promptIds
        (KVCache.new numHiddenLayers 1 nKvHeads headDim maxSeq) { fed := [], logits := [] } [] =
        some (cache, feed, promptIds) := hrun
    simp only [Decoder.runTo, contextDecoder] at hprefill ⊢
    rw [hprefill]
    simp [hlast, Decoder.loop]
  · have hfed' : feed.fed = feeds 0 promptIds := hfed
    refine ⟨hlen, hmax, ?_, rfl, ?_, fun _ => rfl, fun _ => ?_⟩
    · exact (append_nil promptIds).symm
    · exact (congrArg length hfed').trans (length_feeds 0 promptIds)
    · exact hfed'.trans (congrArg (feeds 0) (append_nil promptIds).symm)

theorem runTo_step :
    (contextDecoder numHiddenLayers nKvHeads headDim f).runTo promptIds config n maxSeq =
        some (some st) →
      Running f promptIds last maxSeq n st → maxSeq < u64Size → promptIds.length + n < maxSeq →
        ∃ st', (contextDecoder numHiddenLayers nKvHeads headDim f).runTo promptIds config (n + 1)
            maxSeq = some (some st') ∧ Stepped f config st st' := by
  intro hrun hinv hsize hroom
  have hlt : st.cache.currentLen < st.cache.maxSeq := by
    rw [hinv.currentLen, hinv.maxSeq]
    exact hroom
  obtain ⟨st', hstep, hstepped⟩ := @step_eq F _ numHiddenLayers nKvHeads headDim f config st
    (hinv.maxSeq ▸ hsize) hlt
  refine ⟨st', ?_, hstepped⟩
  rw [runTo_succ, hrun]
  simp [hstep]

/-- The loop never stops early within `max_seq`. -/
theorem running (hlast : promptIds.getLast? = some last) (hsize : maxSeq < u64Size) :
    promptIds.length + n ≤ maxSeq →
      ∃ st, (contextDecoder numHiddenLayers nKvHeads headDim f).runTo promptIds config n maxSeq =
          some (some st) ∧ Running f promptIds last maxSeq n st := by
  induction n with
  | zero =>
    intro hroom
    exact running_start hlast hsize hroom
  | succ n ih =>
    intro hroom
    obtain ⟨st, hrun, hinv⟩ := ih (by omega)
    obtain ⟨st', hrun', hstep⟩ := runTo_step hrun hinv hsize (by omega)
    exact ⟨st', hrun', hinv.step hstep⟩

end Loop

/-! ## What generation conditions on -/

section Generate

variable {promptIds : List UInt32} {last : UInt32} {config : SamplingConfig F}
  {maxNewTokens maxSeq : Nat}

theorem generate_of_runTo {st : GenState F (Feed F)} :
    (contextDecoder numHiddenLayers nKvHeads headDim f).runTo promptIds config maxNewTokens maxSeq =
        some (some st) →
      (contextDecoder numHiddenLayers nKvHeads headDim f).generate promptIds config maxNewTokens
        maxSeq = some st.newTokens := by
  intro h
  rw [Decoder.generate, h]
  rfl

/-- The first iteration feeds the last prompt token a second time, so the first id is not sampled
from the logits of the prompt. -/
theorem conditionsOnOutput_iff (hprompt : promptIds ≠ []) (hsize : maxSeq < u64Size)
    (hroom : promptIds.length + maxNewTokens ≤ maxSeq) :
    ConditionsOnOutput (contextDecoder numHiddenLayers nKvHeads headDim f) f promptIds config
        maxNewTokens maxSeq ↔ maxNewTokens = 0 := by
  have hlast := getLast?_eq_some_getLast hprompt
  constructor
  · rintro ⟨ids, _, _, hids⟩
    by_contra hpos
    obtain ⟨⟨st, hrun, hfed⟩, _⟩ := hids 0 (Nat.pos_of_ne_zero hpos)
    obtain ⟨st', hrun', hinv⟩ :=
      @running F _ numHiddenLayers nKvHeads headDim f promptIds _ config maxSeq 1 hlast hsize (by omega)
    rw [hrun] at hrun'
    cases hrun'
    have hlen := hinv.length_fed
    rw [hfed, length_feeds, take_zero, append_nil] at hlen
    omega
  · rintro rfl
    obtain ⟨st, hrun, hinv⟩ :=
      @running F _ numHiddenLayers nKvHeads headDim f promptIds _ config maxSeq 0 hlast hsize hroom
    refine ⟨st.newTokens, generate_of_runTo hrun, hinv.newTokens, ?_⟩
    intro i hi
    cases hi

end Generate

end Run

/-! ## A run that repeats the prompt token -/

/-- Rationals in place of `f32`; every logit lies above `negInf`, and greedy sampling calls
neither `exp` nor the sort. -/
local instance ratScalar : Scalar ℚ where
  negInf := -(2 ^ 128)
  epsilon := 1 / 2 ^ 23
  abs x := if x < 0 then -x else x
  exp x := 1 + x
  decLt := inferInstance
  decLe := inferInstance
  sortUnstableBy le xs := xs.mergeSort le
  sortUnstableBy_perm le xs := List.mergeSort_perm xs le

/-- Id 0 after one token, id 1 after more. -/
def lengthLogits (ctx : List Int) : List ℚ :=
  if ctx.length = 1 then [1, 0] else [0, 1]

/-- After the prompt `[0]` the logits favour id 0, but generation returns id 1. -/
theorem generate_repeats_prompt : ¬ ConditionsOnOutput (contextDecoder 1 1 2 lengthLogits)
    lengthLogits [0] SamplingConfig.greedy 1 2 := by
  rintro ⟨ids, hrun, _, hids⟩
  have hgen : (contextDecoder 1 1 2 lengthLogits).generate [0] SamplingConfig.greedy 1 2 =
      some [1] := by
    decide +kernel
  have hnext := (hids 0 Nat.one_pos).2
  rw [hgen] at hrun
  cases hrun
  revert hnext
  decide +kernel

theorem generate_nothing : ([3, 5] : List UInt32) ≠ [] ∧
    ConditionsOnOutput (contextDecoder 1 1 2 lengthLogits) lengthLogits [3, 5]
      SamplingConfig.greedy 0 2 ∧
    ¬ ConditionsOnOutput (contextDecoder 1 1 2 lengthLogits) lengthLogits [3, 5]
      SamplingConfig.greedy 2 4 := by
  have hprompt : ([3, 5] : List UInt32) ≠ [] := by decide
  refine ⟨hprompt, (conditionsOnOutput_iff hprompt (by decide) (by decide)).2 rfl, fun h => ?_⟩
  exact absurd ((conditionsOnOutput_iff hprompt (by decide) (by decide)).1 h) (by decide)

end Llm
end Rustorch
