import Rustorch.Lib.Machine
import Rustorch.Lib.Rows

/-!
# The key-value cache

`kv_cache.rs`: each layer holds two `[batch, n_heads, max_seq, head_dim]` buffers and one counter
says how many positions are valid.  `append` writes the rows of new positions at the counter;
`advance` moves it.  Sums and products of sizes wrap at the machine word.
-/

namespace Rustorch
namespace Nn

open List

inductive KVCacheError
  | overflow (requested max : Nat)
  | wrongInputLen (expected gotK gotV : Nat)
  | layerOutOfRange (layer numLayers : Nat)
  deriving DecidableEq, Repr

variable {F : Type}

structure KVLayerCache (F : Type) where
  k : List F
  v : List F
  batch : Nat
  nHeads : Nat
  maxSeq : Nat
  headDim : Nat
  length_k : k.length = batch * nHeads * maxSeq * headDim % u64Size
  length_v : v.length = batch * nHeads * maxSeq * headDim % u64Size

/-- `buf[lo..hi].copy_from_slice(&new[slo..shi])`; `none` is a panic. -/
def copySlice (lo hi : Nat) (new : List F) (slo shi : Nat) (buf : List F) : Option (List F) :=
  if (lo ≤ hi ∧ hi ≤ buf.length) ∧ (slo ≤ shi ∧ shi ≤ new.length) ∧ hi - lo = shi - slo then
    some (Rows.writeAt lo ((new.drop slo).take (shi - slo)) buf)
  else
    none

theorem length_copySlice {lo hi slo shi : Nat} {new buf buf' : List F} :
    copySlice lo hi new slo shi buf = some buf' → buf'.length = buf.length := by
  intro h
  unfold copySlice at h
  split at h
  · next hin =>
      obtain ⟨⟨hlo, hhi⟩, ⟨hslo, hshi⟩, hsame⟩ := hin
      cases h
      refine Rows.length_writeAt ?_
      rw [length_take, length_drop]
      omega
  · cases h

namespace KVLayerCache

/-- `vec![0.0; n]` twice; the allocation is taken to succeed. -/
def new [Zero F] (batch nHeads maxSeq headDim : Nat) : KVLayerCache F where
  k := replicate (batch * nHeads * maxSeq * headDim % u64Size) 0
  v := replicate (batch * nHeads * maxSeq * headDim % u64Size) 0
  batch := batch
  nHeads := nHeads
  maxSeq := maxSeq
  headDim := headDim
  length_k := length_replicate
  length_v := length_replicate

/-- The pairs `(b, h)` in the order of the two nested loops. -/
def heads (batch nHeads : Nat) : List (Nat × Nat) :=
  range batch ×ˢ range nHeads

def srcOff (layer : KVLayerCache F) (seqAdded : Nat) (bh : Nat × Nat) : Nat :=
  (bh.1 * layer.nHeads * seqAdded * layer.headDim + bh.2 * seqAdded * layer.headDim) % u64Size

def dstOff (layer : KVLayerCache F) (currentLen : Nat) (bh : Nat × Nat) : Nat :=
  (bh.1 * layer.nHeads * layer.maxSeq * layer.headDim + bh.2 * layer.maxSeq * layer.headDim +
    currentLen * layer.headDim) % u64Size

/-- The rows of one head, copied into one of the two buffers. -/
def copyRows (layer : KVLayerCache F) (currentLen seqAdded : Nat) (bh : Nat × Nat)
    (new buf : List F) : Option (List F) :=
  let src := layer.srcOff seqAdded bh
  let dst := layer.dstOff currentLen bh
  let n := seqAdded * layer.headDim
  copySlice dst ((dst + n) % u64Size) new src ((src + n) % u64Size) buf

/-- One iteration of the loops of `append`. -/
def copyHead (currentLen seqAdded : Nat) (newK newV : List F) (layer : KVLayerCache F)
    (bh : Nat × Nat) : Option (KVLayerCache F) :=
  match hk : layer.copyRows currentLen seqAdded bh newK layer.k,
      hv : layer.copyRows currentLen seqAdded bh newV layer.v with
  | some k, some v =>
    some { layer with
      k := k
      v := v
      length_k := (length_copySlice hk).trans layer.length_k
      length_v := (length_copySlice hv).trans layer.length_v }
  | _, _ => none

/-- The layer and the result; `none` is a panic. -/
def append (layer : KVLayerCache F) (currentLen seqAdded : Nat) (newK newV : List F) :
    Option (KVLayerCache F × Except KVCacheError Unit) :=
  if layer.maxSeq < (currentLen + seqAdded) % u64Size then
    some (layer, .error (.overflow ((currentLen + seqAdded) % u64Size) layer.maxSeq))
  else
    let bhsd := layer.batch * layer.nHeads * seqAdded * layer.headDim % u64Size
    if newK.length ≠ bhsd ∨ newV.length ≠ bhsd then
      some (layer, .error (.wrongInputLen bhsd newK.length newV.length))
    else
      ((heads layer.batch layer.nHeads).foldlM (copyHead currentLen seqAdded newK newV) layer).map
        fun layer' => (layer', .ok ())

variable {currentLen seqAdded : Nat} {newK newV : List F} {layer layer' : KVLayerCache F}

theorem copyHead_maxSeq {bh : Nat × Nat} :
    copyHead currentLen seqAdded newK newV layer bh = some layer' →
      layer'.maxSeq = layer.maxSeq := by
  intro h
  unfold copyHead at h
  split at h
  · cases h
    rfl
  · cases h

theorem foldlM_copyHead_maxSeq (bhs : List (Nat × Nat)) : ∀ {layer layer' : KVLayerCache F},
      bhs.foldlM (copyHead currentLen seqAdded newK newV) layer = some layer' →
        layer'.maxSeq = layer.maxSeq := by
  induction bhs with
  | nil =>
    intro layer layer' h
    cases h
    rfl
  | cons bh bhs ih =>
    intro layer layer' h
    rw [foldlM_cons] at h
    cases hhead : copyHead currentLen seqAdded newK newV layer bh with
    | none => simp [hhead] at h
    | some next =>
      rw [hhead] at h
      exact (ih h).trans (copyHead_maxSeq hhead)

theorem append_maxSeq {r : Except KVCacheError Unit} :
    layer.append currentLen seqAdded newK newV = some (layer', r) →
      layer'.maxSeq = layer.maxSeq := by
  intro h
  simp only [append] at h
  split_ifs at h
  · cases h
    rfl
  · cases h
    rfl
  · obtain ⟨next, hnext, heq⟩ := Option.map_eq_some_iff.1 h
    cases heq
    exact foldlM_copyHead_maxSeq _ hnext

end KVLayerCache

/-- The layers share the length the cache was sized for, and the counter never passes it. -/
structure KVCache (F : Type) where
  layers : List (KVLayerCache F)
  currentLen : Nat
  maxSeq : Nat
  layers_maxSeq : ∀ layer ∈ layers, layer.maxSeq = maxSeq
  currentLen_le : currentLen ≤ maxSeq

namespace KVCache

def new [Zero F] (numLayers batch nHeads headDim maxSeq : Nat) : KVCache F where
  layers := replicate numLayers (KVLayerCache.new batch nHeads maxSeq headDim)
  currentLen := 0
  maxSeq := maxSeq
  layers_maxSeq := by
    intro layer hlayer
    rw [eq_of_mem_replicate hlayer]
    rfl
  currentLen_le := Nat.zero_le maxSeq

def clear (cache : KVCache F) : KVCache F :=
  { cache with currentLen := 0, currentLen_le := Nat.zero_le _ }

def setLayer (cache : KVCache F) (layerIdx : Nat) (layer : KVLayerCache F)
    (h : layer.maxSeq = cache.maxSeq) : KVCache F :=
  { cache with
    layers := cache.layers.set layerIdx layer
    layers_maxSeq := by
      intro l hl
      rcases mem_or_eq_of_mem_set hl with hl | rfl
      · exact cache.layers_maxSeq l hl
      · exact h }

/-- The cache and the result; `none` is a panic. -/
def append (cache : KVCache F) (layerIdx seqAdded : Nat) (newK newV : List F) :
    Option (KVCache F × Except KVCacheError Unit) :=
  match hget : cache.layers[layerIdx]? with
  | none => some (cache, .error (.layerOutOfRange layerIdx cache.layers.length))
  | some layer =>
    match happ : layer.append cache.currentLen seqAdded newK newV with
    | none => none
    | some (layer', r) =>
      some (cache.setLayer layerIdx layer' ((KVLayerCache.append_maxSeq happ).trans
        (cache.layers_maxSeq layer (mem_of_getElem? hget))), r)

/-- The cache and the result. -/
def advance (cache : KVCache F) (seqAdded : Nat) : KVCache F × Except KVCacheError Unit :=
  if h : (cache.currentLen + seqAdded) % u64Size ≤ cache.maxSeq then
    ({ cache with currentLen := (cache.currentLen + seqAdded) % u64Size, currentLen_le := h },
      .ok ())
  else
    (cache, .error (.overflow ((cache.currentLen + seqAdded) % u64Size) cache.maxSeq))

/-- What the caller's `?` goes on with. -/
def succeeded : KVCache F × Except KVCacheError Unit → Option (KVCache F)
  | (cache, .ok ()) => some cache
  | (_, .error _) => none

theorem advance_of_le {cache : KVCache F} {seqAdded : Nat} (hsize : cache.maxSeq < u64Size)
    (h : cache.currentLen + seqAdded ≤ cache.maxSeq) :
    cache.advance seqAdded =
      ({ cache with currentLen := cache.currentLen + seqAdded, currentLen_le := h }, .ok ()) := by
  have hmod : (cache.currentLen + seqAdded) % u64Size = cache.currentLen + seqAdded :=
    Nat.mod_eq_of_lt (lt_of_le_of_lt h hsize)
  simp only [advance, hmod, dif_pos h]

end KVCache

end Nn
end Rustorch
