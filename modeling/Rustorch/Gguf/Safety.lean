import Rustorch.Gguf.Reader

/-!
# Which files the parser survives

A file is safe on a machine when parsing it returns, and every tensor of the index it returns lies
inside the file.  It is safe in both builds exactly when no size it declares is beyond the machine.
-/

namespace Rustorch
namespace Gguf

open Reads Outcome List Machine

/-- Parsing returns, and the bytes of every indexed tensor are its exact range of the file. -/
structure Safe (m : Machine) (bytes : ByteVec) : Prop where
  returns : fromBytes m bytes ≠ .panic
  covers : ∀ file, fromBytes m bytes = .ok file → ∀ t ∈ file.tensors,
    file.dataOffset + t.offset.toNat + t.exactSize ≤ bytes.data.length ∧
    file.tensorBytes m t =
      .ok ((bytes.data.drop (file.dataOffset + t.offset.toNat)).take t.exactSize)

/-! ## Sized files -/

/-- The header rounded up to the alignment. -/
def alignUp (headerEnd alignment : Nat) : Nat :=
  (if headerEnd % alignment > 0 then headerEnd / alignment + 1 else headerEnd / alignment) *
    alignment

/-- Every tensor that the bounds check reaches, which is every one after tensors that fit, has
exact sizes. -/
def ReachedExact (dataLen : Nat) (tensors : List TensorInfo) : Prop :=
  ∀ before t after, tensors = before ++ t :: after →
    (∀ s ∈ before, s.Fits dataLen) → t.Exact

/-- The index of a file whose header ends at `headerEnd`. -/
structure Index.Sized (length headerEnd : Nat) (index : Index) : Prop where
  alignment : index.alignment.toNat ≠ 0
  dataOffset : alignUp headerEnd index.alignment.toNat ≤ length
  tensors : ReachedExact (length - alignUp headerEnd index.alignment.toNat) index.tensors

/-- Every string, array, dimension and tensor count that is met while the index is read is within
the machine, and so is the index. -/
structure Sized (memory : Nat) (bytes : ByteVec) : Prop where
  demands : ∀ d ∈ demands bytes.data readIndex 0, d.Met memory
  index : ∀ index headerEnd,
    exact .truncated bytes.data readIndex 0 = .ok (index, headerEnd) →
      index.Sized bytes.data.length headerEnd

/-! ## The start of the data section -/

variable {m : Machine} {headerEnd alignment : Nat}

theorem alignUp_lt : headerEnd ≤ isizeMax → alignment < u64Size →
    alignUp headerEnd alignment < u64Size := by
  intro hend halign
  have hword : isizeMax + isizeMax < u64Size := by decide
  have hdiv : headerEnd / alignment * alignment ≤ headerEnd := Nat.div_mul_le_self _ _
  unfold alignUp
  split
  · rcases Nat.lt_or_ge headerEnd alignment with hlt | hge
    · rw [Nat.div_eq_of_lt hlt]
      omega
    · calc
        (headerEnd / alignment + 1) * alignment
            = headerEnd / alignment * alignment + alignment := Nat.succ_mul _ _
        _ ≤ headerEnd + headerEnd := by omega
        _ < u64Size := by omega
  · omega

theorem mul_alignUp : headerEnd ≤ isizeMax → alignment < u64Size →
    (m.mul (if headerEnd % alignment > 0 then headerEnd / alignment + 1
      else headerEnd / alignment) alignment : Outcome GgufError Nat)
      = .ok (alignUp headerEnd alignment) := by
  intro hend halign
  exact mul_of_lt (alignUp_lt hend halign)

/-! ## The bounds check -/

variable {dataLen : Nat} {tensors : List TensorInfo}

variable {t : TensorInfo} {index : Index}

theorem ReachedExact.head : ReachedExact dataLen (t :: tensors) → t.Exact := by
  intro h
  exact h [] t tensors rfl (by simp)

theorem ReachedExact.tail : ReachedExact dataLen (t :: tensors) →
    t.Fits dataLen → ReachedExact dataLen tensors := by
  intro h hfits before s after hsplit hbefore
  apply h (t :: before) s after
  · rw [hsplit]
    rfl
  · intro r hr
    rcases mem_cons.1 hr with rfl | hr
    · exact hfits
    · exact hbefore r hr

theorem checkOffsets_cons : t.Exact →
    checkOffsets m dataLen (t :: tensors) =
      if t.offset.toNat + t.exactSize > dataLen then
        .err (.tensorOffsetOob t.name t.offset dataLen)
      else
        checkOffsets m dataLen tensors := by
  intro h
  rw [checkOffsets, TensorInfo.byteSize_of_exact h, ok_bind, TensorInfo.end_of_exact h, ok_bind]

theorem checkOffsets_ne_panic : ReachedExact dataLen tensors →
    checkOffsets m dataLen tensors ≠ .panic := by
  induction tensors with
  | nil =>
    intro _ h
    cases h
  | cons t rest ih =>
    intro h
    rw [checkOffsets_cons h.head]
    split
    · intro hpanic
      cases hpanic
    · next hfits => exact ih (h.tail (Nat.le_of_not_lt hfits))

theorem fits_of_checkOffsets : ReachedExact dataLen tensors →
    checkOffsets m dataLen tensors = .ok () → ∀ t ∈ tensors, t.Exact ∧ t.Fits dataLen := by
  induction tensors with
  | nil =>
    intro _ _ t ht
    cases ht
  | cons t rest ih =>
    intro h hok s hs
    rw [checkOffsets_cons h.head] at hok
    split at hok
    · cases hok
    · next hfits =>
        have hfits : t.Fits dataLen := Nat.le_of_not_lt hfits
        rcases mem_cons.1 hs with rfl | hs
        · exact ⟨h.head, hfits⟩
        · exact ih (h.tail hfits) hok s hs

/-! ## A development build checks the sizes -/

section Debug

variable {memory : Nat}

theorem exact_of_debug {t : TensorInfo} :
    checkOffsets ⟨.debug, memory⟩ dataLen (t :: tensors) ≠ .panic → t.Exact := by
  intro h
  unfold checkOffsets at h
  obtain ⟨hproducts, hblocks, hsize⟩ := TensorInfo.sizes_of_debug (ne_panic_of_bind h)
  rw [TensorInfo.byteSize_of_lt hproducts hblocks hsize, ok_bind] at h
  have hstop : t.offset.toNat + t.exactSize < u64Size :=
    lt_of_debug_u64 (ne_panic_of_bind h)
  exact ⟨hproducts, hblocks, hstop⟩

theorem reachedExact_of_debug :
    checkOffsets ⟨.debug, memory⟩ dataLen tensors ≠ .panic → ReachedExact dataLen tensors := by
  induction tensors with
  | nil =>
    intro _ before t after hsplit
    simp at hsplit
  | cons t rest ih =>
    intro h before s after hsplit hbefore
    have ht : t.Exact := exact_of_debug h
    rw [checkOffsets_cons ht] at h
    cases before with
    | nil =>
      cases hsplit
      exact ht
    | cons r before =>
      -- the loop went past `t`, so it goes on over the rest
      cases hsplit
      have hfits : t.offset.toNat + t.exactSize ≤ dataLen := hbefore t mem_cons_self
      rw [if_neg (Nat.not_lt.2 hfits)] at h
      exact ih h before s after rfl (fun u hu => hbefore u (mem_cons_of_mem t hu))

end Debug

/-! ## The parser -/

variable {bytes : ByteVec}

variable {headerEnd : Nat}

theorem fromBytes_of_index : run .truncated bytes.data m readIndex 0 = .ok (index, headerEnd) →
      headerEnd ≤ isizeMax → index.alignment.toNat ≠ 0 →
      fromBytes m bytes = do
        let dataLen ← m.sub bytes.data.length (alignUp headerEnd index.alignment.toNat)
        checkOffsets m dataLen index.tensors
        return { bytes := bytes, version := index.version, metadata := index.metadata,
                 tensors := index.tensors,
                 dataOffset := alignUp headerEnd index.alignment.toNat,
                 alignment := index.alignment } := by
  intro hrun hend halign
  have hdiv : (divCeil headerEnd index.alignment.toNat : Outcome GgufError Nat)
      = .ok (if headerEnd % index.alignment.toNat > 0 then
          headerEnd / index.alignment.toNat + 1 else headerEnd / index.alignment.toNat) :=
    if_neg halign
  unfold fromBytes
  rw [hrun, ok_bind]
  simp only [hdiv, ok_bind, mul_alignUp hend index.alignment.toNat_lt]

theorem tensorBytes_of_fits {file : GgufFile} : t.Exact →
    file.dataOffset + t.offset.toNat + t.exactSize ≤ file.bytes.data.length →
      file.tensorBytes m t =
        .ok ((file.bytes.data.drop (file.dataOffset + t.offset.toNat)).take t.exactSize) := by
  intro hexact hle
  have hword : isizeMax < u64Size := by decide
  have hlen := file.bytes.length_le
  unfold GgufFile.tensorBytes
  rw [add_of_lt (by omega), ok_bind, TensorInfo.byteSize_of_exact hexact,
    ok_bind, add_of_lt (by omega), ok_bind,
    slice_of_le (Nat.le_add_right _ _) hle, Nat.add_sub_cancel_left]

theorem headerEnd_le :
    exact .truncated bytes.data readIndex 0 = .ok (index, headerEnd) → headerEnd ≤ isizeMax := by
  intro h
  exact (exact_le (Nat.zero_le _) h).trans bytes.length_le

theorem run_of_exact : (∀ d ∈ demands bytes.data readIndex 0, d.Met m.memory) →
      exact .truncated bytes.data readIndex 0 = .ok (index, headerEnd) →
        run .truncated bytes.data m readIndex 0 = .ok (index, headerEnd) := by
  intro hmet hexact
  rw [run_of_met hmet, hexact]
  rfl

theorem safe_of_sized : Sized m.memory bytes → Safe m bytes := by
  intro h
  cases hexact : exact .truncated bytes.data readIndex 0 with
  | error e =>
    have hfail : fromBytes m bytes = .err e := by
      unfold fromBytes
      rw [run_of_met h.demands, hexact]
      rfl
    refine ⟨?_, ?_⟩
    · rw [hfail]
      intro hpanic
      cases hpanic
    · intro file hok
      rw [hfail] at hok
      cases hok
  | ok result =>
    obtain ⟨index, headerEnd⟩ := result
    obtain ⟨halign, hoffset, htensors⟩ := h.index index headerEnd hexact
    have hfile := fromBytes_of_index (run_of_exact h.demands hexact) (headerEnd_le hexact) halign
    rw [sub_of_le hoffset, ok_bind] at hfile
    constructor
    · rw [hfile]
      cases hcheck : checkOffsets m
          (bytes.data.length - alignUp headerEnd index.alignment.toNat) index.tensors with
      | ok u => simp
      | err e => simp
      | panic => exact absurd hcheck (checkOffsets_ne_panic htensors)
    · intro file hok t ht
      rw [hfile, bind_eq_ok] at hok
      obtain ⟨_, hcheck, hreturn⟩ := hok
      cases hreturn
      obtain ⟨hsize, hfits⟩ := fits_of_checkOffsets htensors hcheck t ht
      have hle : alignUp headerEnd index.alignment.toNat + t.offset.toNat + t.exactSize
          ≤ bytes.data.length := by
        unfold TensorInfo.Fits at hfits
        omega
      exact ⟨hle, tensorBytes_of_fits hsize hle⟩

theorem sized_of_debug {memory : Nat} : Safe ⟨.debug, memory⟩ bytes → Sized memory bytes := by
  intro h
  have hmet : ∀ d ∈ demands bytes.data readIndex 0, d.Met memory := by
    intro d hd
    by_contra hd'
    apply h.returns
    unfold fromBytes
    rw [run_of_not_met bytes.length_le (Nat.zero_le _) ⟨d, hd, hd'⟩]
    rfl
  refine ⟨hmet, ?_⟩
  intro index headerEnd hexact
  have hrun := run_of_exact (m := ⟨.debug, memory⟩) hmet hexact
  have halign : index.alignment.toNat ≠ 0 := by
    intro hzero
    apply h.returns
    unfold fromBytes
    rw [hrun, ok_bind]
    simp only [hzero]
    rfl
  have hreturns := h.returns
  rw [fromBytes_of_index hrun (headerEnd_le hexact) halign] at hreturns
  have hoffset : alignUp headerEnd index.alignment.toNat ≤ bytes.data.length :=
    le_of_debug_sub (ne_panic_of_bind hreturns)
  rw [sub_of_le hoffset, ok_bind] at hreturns
  exact ⟨halign, hoffset, reachedExact_of_debug (ne_panic_of_bind hreturns)⟩

/-- Parsing is safe in both builds exactly when the file is sized: every length, count and
dimension met in the index is within the machine, the alignment is not zero, the data section
starts inside the file, and the tensors up to the first rejected one have exact sizes. -/
theorem safe_iff_sized (memory : Nat) (bytes : ByteVec) :
    (∀ build, Safe ⟨build, memory⟩ bytes) ↔ Sized memory bytes := by
  constructor
  · intro h
    exact sized_of_debug (h .debug)
  · intro h build
    exact safe_of_sized h

/-! ## Files that are not sized -/

/-- A header that announces `2^64 - 1` tensors and ends. -/
def hugeCount : ByteVec where
  data := [0x47, 0x47, 0x55, 0x46, 3, 0, 0, 0, 255, 255, 255, 255, 255, 255, 255, 255,
    0, 0, 0, 0, 0, 0, 0, 0]
  length_le := by decide

/-- The parser panics on the huge count in either build and with any memory. -/
theorem hugeCount_panics :
    (∀ m : Machine, fromBytes m hugeCount = .panic) ∧
      ¬ ∀ memory bytes build, Safe ⟨build, memory⟩ bytes := by
  have hpanic : ∀ m : Machine, fromBytes m hugeCount = .panic := by
    intro m
    have hunmet : ∃ d ∈ demands hugeCount.data readIndex 0, ¬ d.Met m.memory :=
      ⟨.alloc ((2 ^ 64 - 1) * tensorInfoSize), by decide, fun h => absurd h.2 (by decide)⟩
    unfold fromBytes
    rw [run_of_not_met hugeCount.length_le (Nat.zero_le _) hunmet]
    rfl
  exact ⟨hpanic, fun h => (h 0 hugeCount .debug).returns (hpanic _)⟩

end Gguf
end Rustorch
