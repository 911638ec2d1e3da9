import Rustorch.Serde.RoundTrip

/-!
# Which safetensors files the reader survives

The header is the attacker's: sizes, offsets and shapes are 64-bit numbers that the reader adds and
multiplies.  A file is safe on a machine when reading it returns and every tensor it returns has
exactly the bytes of its range.  It is safe in both builds exactly when none of the products of
the entries that are reached overflows.
-/

namespace Rustorch
namespace Serde

open Rustorch.Core LittleEndian Chunks List Outcome Machine StringMap

/-! ## The reader on a machine -/

def FitsIsize (x : Int) : Prop :=
  -(2 ^ 63) ≤ x ∧ x < 2 ^ 63

instance (x : Int) : Decidable (FitsIsize x) :=
  inferInstanceAs (Decidable (_ ∧ _))

/-- The product of two `isize`. -/
def mulIsize (m : Machine) (x y : Int) : Outcome SafetensorsError Int :=
  if FitsIsize (x * y) then
    .ok (x * y)
  else
    match m.build with
    | .debug => .panic
    | .release => .ok (wrapI64 (x * y))

/-- The loop of `compute_contiguous_strides`, from the last dimension on; the first dimension is
not multiplied in. -/
def computeStrides (m : Machine) : List Nat → Int → Outcome SafetensorsError (List Int)
  | [], _ => .ok []
  | [_], acc => .ok [acc]
  | d :: d' :: ds, acc => do
    let next ← mulIsize m acc (asI64 d)
    let rest ← computeStrides m (d' :: ds) next
    return acc :: rest

/-- The arithmetic of `from_vec_typed` on `len` elements. -/
def fromVecArithmetic (m : Machine) (T : Dtype) (shape : Shape) (len : Nat) :
    Outcome SafetensorsError Unit := do
  let expected ← m.product shape
  if len ≠ expected then
    return ()
  else
    let _ ← m.mul expected T.byteSize
    let _ ← computeStrides m shape.reverse 1
    return ()

def buildTensorFromBytesOn (m : Machine) (shape : Shape) (dtype : Dtype) (bytes : List UInt8) :
    Outcome SafetensorsError AnyTensor :=
  match dtype with
  | .f16 => buildTensorFromBytes shape .f16 bytes
  | .bf16 => buildTensorFromBytes shape .bf16 bytes
  | dtype => do
    fromVecArithmetic m dtype shape (bytes.length / dtype.byteSize)
    buildTensorFromBytes shape dtype bytes

/-- `readEntry` with the arithmetic of the machine. -/
def readEntryOn (m : Machine) (binary : List UInt8) (e : String × HeaderEntry) :
    Outcome SafetensorsError (String × AnyTensor) := do
  let name := e.1
  let dtype ← ofExcept (dtypeFromStr e.2.dtype)
  let (start, stop) := e.2.dataOffsets
  let size := binary.length
  if stop > size ∨ start > stop then
    .err (.invalidHeader
      s!"tensor {name}: offsets [{start}, {stop}] outside binary block of len {size}")
  else
    let slice ← slice binary start stop
    let numel ← m.product e.2.shape
    let expectedBytes ← m.mul numel dtype.byteSize
    if slice.length ≠ expectedBytes then
      .err (.sizeMismatch name expectedBytes slice.length)
    else
      let t ← buildTensorFromBytesOn m e.2.shape dtype slice
      return (name, t)

/-- The header and the data section. -/
def readHeader (json : SerdeJson) (src : List UInt8) :
    Outcome SafetensorsError (StringMap HeaderEntry × List UInt8) := do
  let (sizeBuf, src) ← readExact src 8
  let headerSize := ofBytes sizeBuf
  if headerSize > maxHeaderSize then
    .err (headerTooLong headerSize)
  else
    let (headerBytes, binary) ← readExact src headerSize
    let header ← mapErr .json (ofExcept (json.fromSlice headerBytes))
    return (header, binary)

def readFromOn (m : Machine) (json : SerdeJson) (src : List UInt8) :
    Outcome SafetensorsError (StringMap AnyTensor) := do
  let (header, binary) ← readHeader json src
  let out ← header.toList.mapM (readEntryOn m binary)
  return ofEntries out

/-! ## Safe files -/

/-- Reading returns, and every tensor that is returned has as many bytes, in exact arithmetic, as
the range of the data section that the header gives it. -/
structure Safe (m : Machine) (json : SerdeJson) (src : List UInt8) : Prop where
  returns : readFromOn m json src ≠ .panic
  covers : ∀ tensors, readFromOn m json src = .ok tensors →
    ∃ header binary, readHeader json src = .ok (header, binary) ∧
      ∀ t ∈ tensors.toList, ∃ entry, (t.1, entry) ∈ header.toList ∧
        entry.dataOffsets.1 ≤ entry.dataOffsets.2 ∧ entry.dataOffsets.2 ≤ binary.length ∧
        t.2.shape.prod * t.2.dtype.byteSize = entry.dataOffsets.2 - entry.dataOffsets.1

/-- No product of trailing dimensions, the first dimension apart, leaves the `isize` range. -/
def StridesFit (shape : Shape) : Prop :=
  ∀ k, 0 < k → FitsIsize ((shape.drop k).map asI64).prod

namespace HeaderEntry

/-- The range lies inside a data section of `size` bytes. -/
def InData (e : HeaderEntry) (size : Nat) : Prop :=
  e.dataOffsets.1 ≤ e.dataOffsets.2 ∧ e.dataOffsets.2 ≤ size

/-- The range has exactly the bytes of the shape. -/
def Filled (e : HeaderEntry) (d : Dtype) : Prop :=
  e.shape.prod * d.byteSize = e.dataOffsets.2 - e.dataOffsets.1

def HalfType (d : Dtype) : Prop :=
  d = .f16 ∨ d = .bf16

/-- The products that the reader forms for the entry do not overflow. -/
def Exact (e : HeaderEntry) (size : Nat) : Prop :=
  ∀ d, dtypeFromStr e.dtype = .ok d → e.InData size →
    PartialProducts e.shape ∧ e.shape.prod * d.byteSize < u64Size ∧
      (e.Filled d → ¬ HalfType d → StridesFit e.shape)

/-- The reader makes a tensor of the entry. -/
def Accepted (e : HeaderEntry) (size : Nat) : Prop :=
  ∃ d, dtypeFromStr e.dtype = .ok d ∧ ¬ HalfType d ∧ e.InData size ∧ e.Filled d

end HeaderEntry

/-- Every entry that the loop reaches, which is every one after accepted ones, is exact. -/
def ReachedExact (size : Nat) : List (String × HeaderEntry) → Prop
  | [] => True
  | e :: es => e.2.Exact size ∧ (e.2.Accepted size → ReachedExact size es)

/-- Where the file has a header, the products of the entries that are reached do not overflow. -/
def Sized (json : SerdeJson) (src : List UInt8) : Prop :=
  ∀ header binary, readHeader json src = .ok (header, binary) →
    ReachedExact binary.length header.toList

/-! ## Strides -/

section Strides

variable {m : Machine} {ds : List Nat} {acc : Int}

/-- The products of the loop stay in the `isize` range. -/
def RunsFit (ds : List Nat) (acc : Int) : Prop :=
  ∀ j, 0 < j → j < ds.length → FitsIsize (acc * ((ds.take j).map asI64).prod)

theorem runsFit_cons {d d' : Nat} : RunsFit (d :: d' :: ds) acc ↔
    FitsIsize (acc * asI64 d) ∧ RunsFit (d' :: ds) (acc * asI64 d) := by
  constructor
  · intro h
    have hone := h 1 Nat.one_pos (by simp)
    rw [take_succ_cons, take_zero, map_cons, map_nil, prod_singleton] at hone
    refine ⟨hone, ?_⟩
    intro j hj hlt
    have hnext := h (j + 1) (Nat.succ_pos j) (by simpa using hlt)
    rwa [take_succ_cons, map_cons, prod_cons, ← mul_assoc] at hnext
  · rintro ⟨hfirst, hrest⟩ j hj hlt
    obtain ⟨j, rfl⟩ := Nat.exists_eq_succ_of_ne_zero (Nat.ne_of_gt hj)
    rw [take_succ_cons, map_cons, prod_cons, ← mul_assoc]
    rcases Nat.eq_zero_or_pos j with rfl | hpos
    · rwa [take_zero, map_nil, prod_nil, mul_one]
    · exact hrest j hpos (by simpa using hlt)

theorem computeStrides_of_fits :
    ∀ {acc : Int}, RunsFit ds acc → ∃ ss, computeStrides m ds acc = .ok ss := by
  induction ds with
  | nil =>
    intro acc _
    exact ⟨[], rfl⟩
  | cons d ds ih =>
    intro acc h
    cases ds with
    | nil => exact ⟨[acc], rfl⟩
    | cons d' ds =>
      obtain ⟨hfirst, hrest⟩ := runsFit_cons.1 h
      obtain ⟨ss, hss⟩ := ih hrest
      refine ⟨acc :: ss, ?_⟩
      rw [computeStrides, mulIsize, if_pos hfirst, ok_bind, hss]
      rfl

theorem runsFit_of_debug {memory : Nat} :
    ∀ {acc : Int}, computeStrides ⟨.debug, memory⟩ ds acc ≠ .panic → RunsFit ds acc := by
  induction ds with
  | nil =>
    intro acc _ j _ hlt
    cases hlt
  | cons d ds ih =>
    intro acc h
    cases ds with
    | nil =>
      intro j hj hlt
      simp at hlt
      omega
    | cons d' ds =>
      rw [computeStrides] at h
      have hfirst : FitsIsize (acc * asI64 d) := by
        by_contra hout
        refine ne_panic_of_bind h ?_
        rw [mulIsize, if_neg hout]
      rw [mulIsize, if_pos hfirst, ok_bind] at h
      exact runsFit_cons.2 ⟨hfirst, ih (ne_panic_of_bind h)⟩

theorem runsFit_reverse {shape : Shape} : RunsFit shape.reverse 1 ↔ StridesFit shape := by
  have hprod : ∀ k, ((shape.reverse.take (shape.length - k)).map asI64).prod =
      ((shape.drop k).map asI64).prod := by
    intro k
    rw [← reverse_drop, map_reverse, (reverse_perm _).prod_eq]
  constructor
  · intro h k hk
    rw [← hprod k]
    rcases Nat.lt_or_ge k shape.length with hlt | hge
    · have hrun := h (shape.length - k) (by omega) (by simp; omega)
      rwa [one_mul] at hrun
    · rw [Nat.sub_eq_zero_of_le hge, take_zero]
      decide
  · intro h j hj hlt
    rw [length_reverse] at hlt
    have hfit := h (shape.length - j) (by omega)
    rw [← hprod, Nat.sub_sub_self (Nat.le_of_lt hlt)] at hfit
    rwa [one_mul]

end Strides

/-! ## One entry -/

section Entry

variable {m : Machine} {binary : List UInt8} {name : String} {e : HeaderEntry} {d : Dtype}

theorem fromVecArithmetic_of_fits {shape : Shape} : PartialProducts shape →
    shape.prod * d.byteSize < u64Size → StridesFit shape →
      fromVecArithmetic m d shape shape.prod = .ok () := by
  intro hproducts hbytes hstrides
  obtain ⟨ss, hss⟩ := computeStrides_of_fits (m := m) (runsFit_reverse.2 hstrides)
  rw [fromVecArithmetic, product_eq_prod hproducts, ok_bind, if_neg (by simp),
    mul_of_lt hbytes, ok_bind, hss]
  rfl

theorem stridesFit_of_debug {memory : Nat} {shape : Shape} : PartialProducts shape →
    shape.prod * d.byteSize < u64Size →
      fromVecArithmetic ⟨.debug, memory⟩ d shape shape.prod ≠ .panic → StridesFit shape := by
  intro hproducts hbytes h
  rw [fromVecArithmetic, product_eq_prod hproducts, ok_bind, if_neg (by simp),
    mul_of_lt hbytes, ok_bind] at h
  exact runsFit_reverse.1 (runsFit_of_debug (ne_panic_of_bind h))

theorem buildTensorFromBytesOn_of_full {shape : Shape} {bytes : List UInt8} :
    ¬ HeaderEntry.HalfType d → buildTensorFromBytesOn m shape d bytes = (do
      fromVecArithmetic m d shape (bytes.length / d.byteSize)
      buildTensorFromBytes shape d bytes) := by
  intro hfull
  cases d with
  | f16 => exact absurd (Or.inl rfl) hfull
  | bf16 => exact absurd (Or.inr rfl) hfull
  | _ => rfl

/-- The range of the data section that an entry gives. -/
abbrev HeaderEntry.bytesIn (e : HeaderEntry) (binary : List UInt8) : List UInt8 :=
  (binary.drop e.dataOffsets.1).take (e.dataOffsets.2 - e.dataOffsets.1)

theorem HeaderEntry.InData.slice {size : Nat} (hsize : binary.length = size) (hin : e.InData size) :
    ¬ (e.dataOffsets.2 > binary.length ∨ e.dataOffsets.1 > e.dataOffsets.2) ∧
      (e.bytesIn binary).length = e.dataOffsets.2 - e.dataOffsets.1 := by
  obtain ⟨horder, hstop⟩ := hin
  constructor
  · omega
  · rw [length_take, length_drop]
    omega

theorem readEntryOn_eq (hd : dtypeFromStr e.dtype = .ok d) (hin : e.InData binary.length) :
    readEntryOn m binary (name, e) = (do
      let numel ← m.product e.shape
      let expectedBytes ← m.mul numel d.byteSize
      if e.dataOffsets.2 - e.dataOffsets.1 ≠ expectedBytes then
        .err (.sizeMismatch name expectedBytes (e.dataOffsets.2 - e.dataOffsets.1))
      else
        let t ← buildTensorFromBytesOn m e.shape d (e.bytesIn binary)
        return (name, t)) := by
  obtain ⟨hnot, hlen⟩ := hin.slice rfl
  unfold readEntryOn
  simp only [hd, ofExcept_ok, ok_bind, if_neg hnot, slice_of_le hin.1 hin.2, hlen]

theorem readEntry_of_inData (hd : dtypeFromStr e.dtype = .ok d) (hin : e.InData binary.length) :
    readEntry binary (name, e) =
      if e.dataOffsets.2 - e.dataOffsets.1 ≠ Core.numel e.shape * d.byteSize % u64Size then
        .err (.sizeMismatch name (Core.numel e.shape * d.byteSize % u64Size)
          (e.dataOffsets.2 - e.dataOffsets.1))
      else do
        let t ← buildTensorFromBytes e.shape d (e.bytesIn binary)
        return (name, t) := by
  obtain ⟨hnot, hlen⟩ := hin.slice rfl
  unfold readEntry
  simp only [hd, ofExcept_ok, ok_bind, if_neg hnot, slice_of_le hin.1 hin.2, hlen]

theorem readEntry_refused : (¬ ∃ d, dtypeFromStr e.dtype = .ok d ∧ e.InData binary.length) →
    (∃ err, readEntry binary (name, e) = .err err) ∧
      ∀ m, readEntryOn m binary (name, e) = readEntry binary (name, e) := by
  intro hnot
  unfold readEntry readEntryOn
  cases hd : dtypeFromStr e.dtype with
  | error err =>
    simp only [ofExcept_error, err_bind]
    exact ⟨⟨err, rfl⟩, fun _ => trivial⟩
  | ok d =>
    have hout : e.dataOffsets.2 > binary.length ∨ e.dataOffsets.1 > e.dataOffsets.2 := by
      by_contra hin
      refine hnot ⟨d, hd, ?_, ?_⟩
      · omega
      · omega
    simp only [ofExcept_ok, ok_bind, if_pos hout]
    exact ⟨⟨_, rfl⟩, fun _ => trivial⟩

/-! ### Building the tensor -/

theorem build_cases {kind : String} {shape : Shape} (data : List (Elem d)) :
    (data.length = Core.numel shape → ∃ t, build d kind shape data = .ok t) ∧
      build d kind shape data ≠ .panic ∧
      ∀ t, build d kind shape data = .ok t → t.shape = shape ∧ t.dtype = d := by
  unfold build
  split
  · next t ht =>
      refine ⟨fun _ => ⟨_, rfl⟩, by simp, ?_⟩
      intro t' ht'
      cases ht'
      refine ⟨?_, rfl⟩
      unfold fromVecTyped at ht
      split at ht
      · cases ht
      · cases ht
        exact Layout.shape_contiguous _ _
  · next err herr =>
      refine ⟨?_, by simp, ?_⟩
      · intro hlen
        rw [fromVecTyped, if_neg (not_not.2 hlen)] at herr
        cases herr
      · intro t ht
        cases ht

theorem length_chunksExact {k : Nat} (hk : 0 < k) (xs : List UInt8) :
    (chunksExact k xs).length = xs.length / k := by
  have htake : (xs.take (xs.length / k * k)).length = xs.length / k * k := by
    rw [length_take]
    exact Nat.min_eq_left (Nat.div_mul_le_self _ _)
  rw [chunksExact, length_chunks hk, htake, Nat.mul_mod_left, Nat.mul_div_cancel _ hk]
  rfl

theorem buildTensorFromBytes_cases (shape : Shape) (bytes : List UInt8) :
    (¬ HeaderEntry.HalfType d → bytes.length / d.byteSize = Core.numel shape →
      ∃ t, buildTensorFromBytes shape d bytes = .ok t) ∧
      buildTensorFromBytes shape d bytes ≠ .panic ∧
      ∀ t, buildTensorFromBytes shape d bytes = .ok t →
        ¬ HeaderEntry.HalfType d ∧ t.shape = shape ∧ t.dtype = d := by
  have hbuild : ∀ (d : Dtype) (kind : String) (data : List (Elem d)), ¬ HeaderEntry.HalfType d →
      data.length = bytes.length / d.byteSize →
      (¬ HeaderEntry.HalfType d → bytes.length / d.byteSize = Core.numel shape →
        ∃ t, build d kind shape data = .ok t) ∧
        build d kind shape data ≠ .panic ∧
        ∀ t, build d kind shape data = .ok t →
          ¬ HeaderEntry.HalfType d ∧ t.shape = shape ∧ t.dtype = d := by
    intro d kind data hfull hlen
    obtain ⟨hok, hpanic, ht⟩ := @build_cases d kind shape data
    exact ⟨fun _ hnumel => hok (hlen.trans hnumel), hpanic, fun t h => ⟨hfull, ht t h⟩⟩
  have hfour := length_chunksExact (show 0 < 4 by decide) bytes
  have height := length_chunksExact (show 0 < 8 by decide) bytes
  cases d with
  | f32 =>
    exact hbuild .f32 _ _ (by simp [HeaderEntry.HalfType])
      ((@length_map _ UInt32 (chunksExact 4 bytes) _).trans hfour)
  | f64 =>
    exact hbuild .f64 _ _ (by simp [HeaderEntry.HalfType])
      ((@length_map _ UInt64 (chunksExact 8 bytes) _).trans height)
  | i64 =>
    exact hbuild .i64 _ _ (by simp [HeaderEntry.HalfType])
      ((@length_map _ Int64 (chunksExact 8 bytes) _).trans height)
  | i32 =>
    exact hbuild .i32 _ _ (by simp [HeaderEntry.HalfType])
      ((@length_map _ Int32 (chunksExact 4 bytes) _).trans hfour)
  | i8 =>
    exact hbuild .i8 _ _ (by simp [HeaderEntry.HalfType])
      ((@length_map _ Int8 bytes _).trans (Nat.div_one _).symm)
  | bool =>
    exact hbuild .bool _ _ (by simp [HeaderEntry.HalfType])
      ((@length_map _ Bool bytes _).trans (Nat.div_one _).symm)
  | f16 =>
    refine ⟨fun hfull => absurd (Or.inl rfl) hfull, by simp [buildTensorFromBytes], ?_⟩
    intro t ht
    cases ht
  | bf16 =>
    refine ⟨fun hfull => absurd (Or.inr rfl) hfull, by simp [buildTensorFromBytes], ?_⟩
    intro t ht
    cases ht

/-! ### Reading the entry -/

theorem readEntry_ne_panic : readEntry binary (name, e) ≠ .panic := by
  by_cases hd : ∃ d, dtypeFromStr e.dtype = .ok d ∧ e.InData binary.length
  · obtain ⟨d, hd, hin⟩ := hd
    rw [readEntry_of_inData hd hin]
    split_ifs
    · simp
    · obtain ⟨_, hpanic, _⟩ := @buildTensorFromBytes_cases d e.shape (e.bytesIn binary)
      cases hbuild : buildTensorFromBytes e.shape d (e.bytesIn binary) with
      | ok t => simp
      | err err => simp
      | panic => exact absurd hbuild hpanic
  · obtain ⟨⟨err, herr⟩, _⟩ := @readEntry_refused binary name e hd
    rw [herr]
    simp

/-- Where nothing overflows, both builds do what the wrapping arithmetic does. -/
theorem readEntryOn_of_exact (h : e.Exact binary.length) :
    readEntryOn m binary (name, e) = readEntry binary (name, e) := by
  by_cases hd : ∃ d, dtypeFromStr e.dtype = .ok d ∧ e.InData binary.length
  · obtain ⟨d, hd, hin⟩ := hd
    obtain ⟨hproducts, hbytes, hstrides⟩ := h d hd hin
    have hprod : e.shape.prod < u64Size := by
      simpa using hproducts e.shape.length le_rfl
    rw [readEntryOn_eq hd hin, readEntry_of_inData hd hin, product_eq_prod hproducts,
      ok_bind, mul_of_lt hbytes, ok_bind, numel_of_fits hprod,
      Nat.mod_eq_of_lt hbytes]
    split_ifs with hsize
    · rfl
    · have hfilled : e.Filled d := (not_not.1 hsize).symm
      by_cases hhalf : HeaderEntry.HalfType d
      · rcases hhalf with rfl | rfl
        · rfl
        · rfl
      · have hcount : (e.bytesIn binary).length / d.byteSize = e.shape.prod := by
          rw [(hin.slice rfl).2, ← hfilled, Nat.mul_div_cancel _ d.byteSize_pos]
        rw [buildTensorFromBytesOn_of_full hhalf, hcount,
          fromVecArithmetic_of_fits hproducts hbytes (hstrides hfilled hhalf), ok_bind]
  · exact (@readEntry_refused binary name e hd).2 m

/-- A development build that reads the entry met no overflow. -/
theorem exact_of_debug {memory : Nat} :
    readEntryOn ⟨.debug, memory⟩ binary (name, e) ≠ .panic → e.Exact binary.length := by
  intro h d hd hin
  rw [readEntryOn_eq hd hin] at h
  have hproducts := partial_of_product (ne_panic_of_bind h)
  rw [product_eq_prod hproducts, ok_bind] at h
  have hbytes : e.shape.prod * d.byteSize < u64Size :=
    lt_of_debug_u64 (ne_panic_of_bind h)
  refine ⟨hproducts, hbytes, ?_⟩
  intro hfilled hhalf
  rw [mul_of_lt hbytes, ok_bind, if_neg (not_not.2 hfilled.symm),
    buildTensorFromBytesOn_of_full hhalf, (hin.slice rfl).2, ← hfilled,
    Nat.mul_div_cancel _ d.byteSize_pos] at h
  exact stridesFit_of_debug hproducts hbytes
    (ne_panic_of_bind (ne_panic_of_bind h))

theorem accepted_of_ok {y : String × AnyTensor} (h : e.Exact binary.length) :
    readEntry binary (name, e) = .ok y →
      y.1 = name ∧ e.InData binary.length ∧ y.2.shape = e.shape ∧
        ¬ HeaderEntry.HalfType y.2.dtype ∧ dtypeFromStr e.dtype = .ok y.2.dtype ∧
        e.Filled y.2.dtype := by
  intro hok
  by_cases hd : ∃ d, dtypeFromStr e.dtype = .ok d ∧ e.InData binary.length
  · obtain ⟨d, hd, hin⟩ := hd
    obtain ⟨hproducts, hbytes, _⟩ := h d hd hin
    have hprod : e.shape.prod < u64Size := by
      simpa using hproducts e.shape.length le_rfl
    rw [readEntry_of_inData hd hin, numel_of_fits hprod, Nat.mod_eq_of_lt hbytes] at hok
    split_ifs at hok with hsize
    obtain ⟨t, ht, hy⟩ := bind_eq_ok.1 hok
    cases hy
    obtain ⟨hhalf, hshape, hdtype⟩ := (buildTensorFromBytes_cases e.shape _).2.2 t ht
    refine ⟨rfl, hin, hshape, ?_, ?_, ?_⟩
    · rwa [hdtype]
    · rw [hd, hdtype]
    · rw [hdtype]
      exact (not_not.1 hsize).symm
  · obtain ⟨⟨err, herr⟩, _⟩ := @readEntry_refused binary name e hd
    rw [herr] at hok
    cases hok

theorem ok_of_accepted (h : e.Exact binary.length) :
    e.Accepted binary.length → ∃ y, readEntry binary (name, e) = .ok y := by
  rintro ⟨d, hd, hhalf, hin, hfilled⟩
  obtain ⟨hproducts, hbytes, _⟩ := h d hd hin
  have hprod : e.shape.prod < u64Size := by
    simpa using hproducts e.shape.length le_rfl
  obtain ⟨t, ht⟩ := (buildTensorFromBytes_cases e.shape (e.bytesIn binary)).1 hhalf (by
      rw [(hin.slice rfl).2, ← hfilled, Nat.mul_div_cancel _ d.byteSize_pos, numel_of_fits hprod])
  refine ⟨(name, t), ?_⟩
  rw [readEntry_of_inData hd hin, numel_of_fits hprod, Nat.mod_eq_of_lt hbytes,
    if_neg (not_not.2 hfilled.symm), ht]
  rfl

end Entry

/-! ## The loop over the header -/

section Loop

variable {binary : List UInt8} {es : List (String × HeaderEntry)}

theorem mapM_of_reached (m : Machine) : ReachedExact binary.length es →
    es.mapM (readEntryOn m binary) = es.mapM (readEntry binary) := by
  induction es with
  | nil =>
    intro _
    rfl
  | cons e es ih =>
    rintro ⟨hexact, hrest⟩
    rw [mapM_cons, mapM_cons, @readEntryOn_of_exact m binary e.1 e.2 hexact]
    cases he : readEntry binary e with
    | panic => rfl
    | err err => rfl
    | ok y =>
      obtain ⟨_, hin, _, hhalf, hd, hfilled⟩ := @accepted_of_ok binary e.1 e.2 _ hexact he
      rw [ok_bind, ok_bind, ih (hrest ⟨_, hd, hhalf, hin, hfilled⟩)]

theorem reached_of_debug {memory : Nat} :
    es.mapM (readEntryOn ⟨.debug, memory⟩ binary) ≠ .panic → ReachedExact binary.length es := by
  induction es with
  | nil =>
    intro _
    trivial
  | cons e es ih =>
    intro h
    rw [mapM_cons] at h
    have hexact : e.2.Exact binary.length :=
      @exact_of_debug binary e.1 e.2 memory (ne_panic_of_bind h)
    refine ⟨hexact, ?_⟩
    intro haccepted
    obtain ⟨y, hy⟩ := @ok_of_accepted binary e.1 e.2 hexact haccepted
    have hok : readEntryOn ⟨.debug, memory⟩ binary e = .ok y :=
      (@readEntryOn_of_exact _ binary e.1 e.2 hexact).trans hy
    rw [hok, ok_bind] at h
    exact ih (ne_panic_of_bind h)

/-- Every tensor of a finished loop has the bytes of its entry's range. -/
theorem covers_of_reached {ys : List (String × AnyTensor)} : ReachedExact binary.length es →
    es.mapM (readEntry binary) = .ok ys →
      Forall₂ (fun e y => y.1 = e.1 ∧ e.2.dataOffsets.1 ≤ e.2.dataOffsets.2 ∧
        e.2.dataOffsets.2 ≤ binary.length ∧
        y.2.shape.prod * y.2.dtype.byteSize = e.2.dataOffsets.2 - e.2.dataOffsets.1) es ys := by
  induction es generalizing ys with
  | nil =>
    intro _ h
    cases h
    exact Forall₂.nil
  | cons e es ih =>
    rintro ⟨hexact, hrest⟩ h
    rw [mapM_cons, bind_eq_ok] at h
    obtain ⟨y, hy, h⟩ := h
    obtain ⟨zs, hzs, h⟩ := bind_eq_ok.1 h
    cases h
    obtain ⟨hname, hin, hshape, hhalf, hd, hfilled⟩ := @accepted_of_ok binary e.1 e.2 _ hexact hy
    refine Forall₂.cons ⟨hname, hin.1, hin.2, ?_⟩ (ih (hrest ⟨_, hd, hhalf, hin, hfilled⟩) hzs)
    rw [hshape]
    exact hfilled

end Loop

/-! ## The reader -/

section Reader

variable {json : SerdeJson} {src : List UInt8}

theorem readHeader_ne_panic : readHeader json src ≠ .panic := by
  have hexact : ∀ (bytes : List UInt8) (n : Nat), readExact bytes n ≠ .panic := by
    intro bytes n
    rw [readExact]
    split_ifs
    · simp
    · simp
  rw [readHeader]
  cases hfirst : readExact src 8 with
  | panic => exact absurd hfirst (hexact _ _)
  | err err => simp
  | ok first =>
    simp only [ok_bind]
    split_ifs
    · simp
    · cases hsecond : readExact first.2 (ofBytes first.1) with
      | panic => exact absurd hsecond (hexact _ _)
      | err err => simp
      | ok second =>
        simp only [ok_bind]
        cases json.fromSlice second.1 with
        | error err => simp [mapErr]
        | ok header => simp [mapErr]

theorem safe_of_sized (m : Machine) : Sized json src → Safe m json src := by
  intro hsized
  have hrun : ∀ header binary, readHeader json src = .ok (header, binary) →
      readFromOn m json src = (do
        let out ← header.toList.mapM (readEntry binary)
        return ofEntries out) := by
    intro header binary hheader
    rw [readFromOn, hheader, ok_bind]
    simp only [mapM_of_reached m (hsized header binary hheader)]
  cases hheader : readHeader json src with
  | panic => exact absurd hheader readHeader_ne_panic
  | err err =>
    have hfail : readFromOn m json src = .err err := by
      rw [readFromOn, hheader]
      rfl
    refine ⟨by rw [hfail]; simp, ?_⟩
    intro tensors hok
    rw [hfail] at hok
    cases hok
  | ok result =>
    obtain ⟨header, binary⟩ := result
    have hfrom := hrun header binary hheader
    constructor
    -- no entry panics, so neither does the loop
    · have hloop : header.toList.mapM (readEntry binary) ≠ .panic :=
        mapM_ne_panic fun e _ => @readEntry_ne_panic binary e.1 e.2
      rw [hfrom]
      cases hout : header.toList.mapM (readEntry binary) with
      | panic => exact absurd hout hloop
      | err err => simp
      | ok ys => simp
    · intro tensors hok
      rw [hfrom] at hok
      obtain ⟨ys, hys, htensors⟩ := bind_eq_ok.1 hok
      cases htensors
      have hall := covers_of_reached (hsized header binary hheader) hys
      -- the loop keeps the names in order, so the map has the entries as they were read
      have hkeys : ys.map Prod.fst = header.toList.map Prod.fst := by
        refine forall₂_eq_eq_eq ▸ forall₂_map_left_iff.2 (forall₂_map_right_iff.2 ?_)
        exact hall.flip.imp fun y e h => h.1
      have hlist : (ofEntries ys).toList = ys :=
        toList_ofEntries ((ordered_toList header).of_keys hkeys)
      refine ⟨header, binary, hheader, ?_⟩
      intro t ht
      rw [hlist] at ht
      obtain ⟨i, hi, rfl⟩ := getElem_of_mem ht
      have hi' : i < header.toList.length := by rwa [hall.length_eq]
      obtain ⟨hname, hcover⟩ := (forall₂_iff_get.1 hall).2 i hi' hi
      refine ⟨(header.toList.get ⟨i, hi'⟩).2, ?_, hcover⟩
      have hmem := get_mem header.toList ⟨i, hi'⟩
      simp only [get_eq_getElem] at hname hmem ⊢
      rwa [hname]

theorem sized_of_debug {memory : Nat} : Safe ⟨.debug, memory⟩ json src → Sized json src := by
  intro h header binary hheader
  have hreturns := h.returns
  rw [readFromOn, hheader, ok_bind] at hreturns
  exact reached_of_debug (ne_panic_of_bind hreturns)

/-- Reading is safe in both builds exactly when no product of an entry that the loop reaches
overflows: neither of its dimensions, nor with the element size, nor, for an entry that is
accepted, of its trailing dimensions. -/
theorem readFrom_safe_iff (memory : Nat) (json : SerdeJson) (src : List UInt8) :
    (∀ build, Safe ⟨build, memory⟩ json src) ↔ Sized json src := by
  constructor
  · intro h
    exact sized_of_debug (h .debug)
  · intro h build
    exact safe_of_sized ⟨build, memory⟩ h

end Reader

/-! ## A file that is not sized -/

/-- The header of one tensor of shape `2^32 × 2^32` with no bytes. -/
def wideText : String :=
  "\x7b\"w\":\x7b\"dtype\":\"F32\",\"shape\":[4294967296,4294967296],\"data_offsets\":[0,0]\x7d\x7d"

def wideEntry : HeaderEntry where
  dtype := "F32"
  shape := [4294967296, 4294967296]
  dataOffsets := (0, 0)

/-- The tensor of that shape without elements. -/
def wideTensor : AnyTensor where
  dtype := .f32
  tensor := { storage := [], layout := Layout.contiguous [4294967296, 4294967296] .f32 }
  dtype_eq := rfl

def wideJson : SerdeJson :=
  oneHeader [("w", wideEntry)] wideText

def wideFile : List UInt8 :=
  toBytes 8 (utf8 wideText).length ++ utf8 wideText

theorem readHeader_wideFile :
    readHeader wideJson wideFile = .ok (ofEntries [("w", wideEntry)], []) :=
  rfl

theorem readEntryOn_wide :
    readEntryOn ⟨.release, 1024⟩ [] ("w", wideEntry) = .ok ("w", wideTensor) := by
  have hbuild : buildTensorFromBytes wideEntry.shape .f32 [] = .ok wideTensor := by
    rw [buildTensorFromBytes, chunksExact, take_nil, chunks_nil]
    rfl
  change (buildTensorFromBytes wideEntry.shape .f32 [] >>= fun t => ok ("w", t)) = _
  rw [hbuild, ok_bind]

/-- Both products wrap to 0, the number of bytes there are. -/
theorem readFromOn_wide : readFromOn ⟨.release, 1024⟩ wideJson wideFile =
    .ok (ofEntries [("w", wideTensor)]) := by
  change ([("w", wideEntry)].mapM (readEntryOn ⟨.release, 1024⟩ []) >>=
    fun out => ok (ofEntries out)) = _
  simp only [mapM_cons, mapM_nil, readEntryOn_wide]
  rfl

/-- A release build returns a tensor of `2^64` elements for it, a development build panics. -/
theorem wideFile_not_safe : ¬ Safe ⟨.release, 1024⟩ wideJson wideFile ∧
    readFromOn ⟨.debug, 1024⟩ wideJson wideFile = .panic := by
  constructor
  · intro h
    obtain ⟨header, binary, hheader, hcovers⟩ := h.covers _ readFromOn_wide
    cases readHeader_wideFile.symm.trans hheader
    obtain ⟨entry, hentry, -, -, hbytes⟩ := hcovers ("w", wideTensor) (mem_singleton_self _)
    have hlist : (ofEntries [("w", wideEntry)]).toList = [("w", wideEntry)] :=
      toList_ofEntries (pairwise_singleton _ _)
    rw [hlist, mem_singleton] at hentry
    cases hentry
    exact absurd hbytes (by decide)
  · rfl

end Serde
end Rustorch
