import Rustorch.Serde.Safetensors

/-!
# Saving and loading

The writer stores the first cells of every storage and the reader rebuilds each tensor from them,
so a map survives exactly when these cells are the elements in shape order, when no tensor has a
half-precision dtype, and when the header is within the reader's limit.
-/

namespace Rustorch
namespace Serde

open Rustorch.Core LittleEndian Chunks List Outcome Machine StringMap

/-- The names are the same, and every tensor has the same dtype, shape and elements. -/
def SameEntries (es es' : List (String × AnyTensor)) : Prop :=
  List.Forall₂ (fun e e' => e.1 = e'.1 ∧ AnyTensor.Same e.2 e'.2) es es'

/-- Reading the bytes gives the map back. -/
def RoundTrips (json : SerdeJson) (tensors : StringMap AnyTensor) (bytes : ByteVec) : Prop :=
  ∃ out, readFrom json bytes.data = .ok out ∧ SameEntries tensors.toList out.toList

def AnyTensor.Half (t : AnyTensor) : Prop :=
  t.dtype = .f16 ∨ t.dtype = .bf16

/-! ## One tensor -/

/-- The bytes the writer emits for a tensor. -/
def AnyTensor.contents (t : AnyTensor) : List UInt8 :=
  (t.tensor.storage.take t.numel).flatMap (cellBytes t.dtype)

variable {t : AnyTensor}

theorem length_contents (h : t.Reachable) : t.contents.length = t.numel * t.dtype.byteSize := by
  rw [AnyTensor.contents, length_flatMap_of_length (length_cellBytes t.dtype), h.length_front,
    h.numel_eq]

theorem nbytes_eq (h : t.Reachable) :
    t.numel * t.dtype.byteSize % u64Size = t.numel * t.dtype.byteSize := by
  apply Nat.mod_eq_of_lt
  rw [h.numel_eq]
  exact h.bytes.trans (by decide)

theorem block_eq (h : t.Reachable) : block t = .ok t.contents := by
  have htake : t.asBytes.take (t.numel * t.dtype.byteSize) = t.contents :=
    take_flatMap_of_length (length_cellBytes t.dtype) _ _
  have hle : t.numel * t.dtype.byteSize ≤ t.asBytes.length := by
    rw [AnyTensor.asBytes, length_flatMap_of_length (length_cellBytes t.dtype)]
    exact Nat.mul_le_mul_right _ h.numel_le
  rw [block, nbytes_eq h, slice_of_le (Nat.zero_le _) hle, drop_zero, Nat.sub_zero, htake]

theorem build_packed (h : t.Reachable) (kind : String) {data : List (Elem t.dtype)} :
    data = t.tensor.storage.take t.numel → build t.dtype kind t.shape data = .ok t.packed := by
  intro hdata
  unfold build
  split
  · next t' ht' =>
      rw [hdata, h.fromVecTyped] at ht'
      cases ht'
      rfl
  · next e he =>
      rw [hdata, h.fromVecTyped] at he
      cases he

variable {α : Type} {text : String}

theorem map_chunksExact_flatMap {k : Nat} (hk : 0 < k) {enc : α → List UInt8} (dec : List UInt8 → α)
    (hlen : ∀ a, (enc a).length = k) (hdec : ∀ a, dec (enc a) = a) (xs : List α) :
    (chunksExact k (xs.flatMap enc)).map dec = xs := by
  rw [chunksExact_flatMap hk hlen, map_map]
  calc
    xs.map (dec ∘ enc) = xs.map id := map_congr_left (fun a _ => hdec a)
    _ = xs := map_id xs

theorem map_flatMap_singleton {enc : α → UInt8} {dec : UInt8 → α} (hdec : ∀ a, dec (enc a) = a)
    (xs : List α) : (xs.flatMap (fun a => [enc a])).map dec = xs := by
  induction xs with
  | nil => rfl
  | cons x xs ih =>
    rw [flatMap_cons, singleton_append, map_cons, hdec, ih]

theorem uint32_of_bytes (v : UInt32) : UInt32.ofNat (ofBytes (toBytes 4 v.toNat)) = v := by
  rw [ofBytes_toBytes v.toNat_lt, UInt32.ofNat_toNat]

theorem uint64_of_bytes (v : UInt64) : UInt64.ofNat (ofBytes (toBytes 8 v.toNat)) = v := by
  rw [ofBytes_toBytes v.toNat_lt, UInt64.ofNat_toNat]

theorem int32_of_bytes (v : Int32) :
    (UInt32.ofNat (ofBytes (toBytes 4 v.toUInt32.toNat))).toInt32 = v := by
  rw [uint32_of_bytes]
  rfl

theorem int64_of_bytes (v : Int64) :
    (UInt64.ofNat (ofBytes (toBytes 8 v.toUInt64.toNat))).toInt64 = v := by
  rw [uint64_of_bytes]
  rfl

theorem bool_of_byte (v : Bool) : (v.toUInt8 != 0) = v := by
  cases v <;> rfl

/-- The reader rebuilds every dtype it supports from the bytes of the writer. -/
theorem buildTensorFromBytes_contents (h : t.Reachable) (hhalf : ¬ t.Half) :
    buildTensorFromBytes t.shape t.dtype t.contents = .ok t.packed := by
  have hbuild := @build_packed t h
  obtain ⟨d, tensor, hd⟩ := t
  cases d with
  | f32 =>
    exact hbuild "f32"
      (map_chunksExact_flatMap (by decide) (fun c => UInt32.ofNat (ofBytes c))
        (length_cellBytes .f32) uint32_of_bytes _)
  | f64 =>
    exact hbuild "f64"
      (map_chunksExact_flatMap (by decide) (fun c => UInt64.ofNat (ofBytes c))
        (length_cellBytes .f64) uint64_of_bytes _)
  | f16 => exact absurd (Or.inl rfl) hhalf
  | bf16 => exact absurd (Or.inr rfl) hhalf
  | i64 =>
    exact hbuild "i64"
      (map_chunksExact_flatMap (by decide) (fun c => (UInt64.ofNat (ofBytes c)).toInt64)
        (length_cellBytes .i64) int64_of_bytes _)
  | i32 =>
    exact hbuild "i32"
      (map_chunksExact_flatMap (by decide) (fun c => (UInt32.ofNat (ofBytes c)).toInt32)
        (length_cellBytes .i32) int32_of_bytes _)
  | i8 => exact hbuild "i8" (map_flatMap_singleton (fun _ => rfl) _)
  | bool => exact hbuild "bool" (map_flatMap_singleton bool_of_byte _)

theorem buildTensorFromBytes_half {shape : Shape} {bytes : List UInt8} (hhalf : t.Half) :
    ∀ t', buildTensorFromBytes shape t.dtype bytes ≠ .ok t' := by
  intro t' hok
  rcases hhalf with hd | hd
  · rw [hd] at hok
    cases hok
  · rw [hd] at hok
    cases hok

/-! ## The binary block -/

/-- What the reader makes of one entry of the map that was written. -/
def rebuild (e : String × AnyTensor) : Outcome SafetensorsError (String × AnyTensor) := do
  let t ← buildTensorFromBytes e.2.shape e.2.dtype e.2.contents
  return (e.1, t)

theorem readEntry_eq {name : String} {before after : List UInt8} (h : t.Reachable) :
    readEntry (before ++ (t.contents ++ after))
        (name, { dtype := dtypeToStr t.dtype, shape := t.shape,
                 dataOffsets := (before.length, before.length + t.contents.length) }) =
      rebuild (name, t) := by
  have hinside : ¬ (before.length + t.contents.length >
      (before ++ (t.contents ++ after)).length ∨
      before.length > before.length + t.contents.length) := by
    simp only [length_append]
    omega
  have hslice : (slice (before ++ (t.contents ++ after)) before.length
      (before.length + t.contents.length) : Outcome SafetensorsError (List UInt8)) =
        .ok t.contents := by
    rw [slice_of_le (by omega) (by simp only [length_append]; omega)]
    simp
  have hsize : ¬ t.contents.length ≠ numel t.shape * t.dtype.byteSize % u64Size := by
    rw [not_not, numel_of_bytes h.bytes, ← h.numel_eq, nbytes_eq h, length_contents h]
  simp only [readEntry, rebuild, dtypeFromStr_toStr, ofExcept_ok, ok_bind,
    if_neg hinside, hslice, if_neg hsize]

theorem readEntries_eq {ts : List (String × AnyTensor)} :
    (∀ e ∈ ts, e.2.Reachable) → ∀ before : List UInt8,
      (before ++ (ts.map (fun e => e.2.contents)).flatten).length < u64Size →
        (headerFrom before.length ts).mapM
          (readEntry (before ++ (ts.map (fun e => e.2.contents)).flatten)) = ts.mapM rebuild := by
  induction ts with
  | nil =>
    intro _ before _
    rfl
  | cons e ts ih =>
    intro hreach before hsize
    obtain ⟨name, t⟩ := e
    have ht : t.Reachable := hreach (name, t) mem_cons_self
    have hrest := ih (fun e he => hreach e (mem_cons_of_mem _ he)) (before ++ t.contents)
    simp only [map_cons, flatten_cons, length_append, append_assoc]
      at hsize hrest ⊢
    have hbytes : t.numel * t.dtype.byteSize % u64Size = t.contents.length := by
      rw [nbytes_eq ht, length_contents ht]
    have hstop : (before.length + t.contents.length) % u64Size =
        before.length + t.contents.length := Nat.mod_eq_of_lt (by omega)
    simp only [headerFrom, hbytes, hstop, mapM_cons, readEntry_eq ht, hrest hsize]

theorem headerFrom_keys (ts : List (String × AnyTensor)) :
    ∀ cursor, (headerFrom cursor ts).map Prod.fst = ts.map Prod.fst := by
  induction ts with
  | nil =>
    intro _
    rfl
  | cons e ts ih =>
    intro cursor
    simp only [headerFrom, map_cons, ih]

/-! ## A file -/

variable {json : SerdeJson} {tensors : StringMap AnyTensor} {bytes : ByteVec}

/-- The header of a map. -/
def headerOf (tensors : StringMap AnyTensor) : StringMap HeaderEntry :=
  ofEntries (headerFrom 0 tensors.toList)

theorem toList_headerOf : (headerOf tensors).toList = headerFrom 0 tensors.toList := by
  apply toList_ofEntries
  exact (ordered_toList tensors).of_keys (headerFrom_keys _ 0)

theorem writeTo_eq_ok (hreach : ∀ e ∈ tensors.toList, e.2.Reachable) :
    writeTo json tensors = .ok bytes → ∃ text, json.toString (headerOf tensors) = .ok text ∧
      bytes.data = toBytes 8 (utf8 text).length ++ (utf8 text ++
        (tensors.toList.map (fun e => e.2.contents)).flatten) := by
  intro h
  have hblocks : tensors.toList.mapM (fun e => block e.2) =
      .ok (tensors.toList.map (fun e => e.2.contents)) :=
    mapM_eq_ok (fun e he => block_eq (hreach e he))
  unfold writeTo at h
  rw [bind_eq_ok] at h
  obtain ⟨text, htext, h⟩ := h
  rw [hblocks, ok_bind] at h
  refine ⟨text, ?_, ?_⟩
  · rw [mapErr_eq_ok] at htext
    cases hjson : json.toString (headerOf tensors) with
    | error e =>
      rw [headerOf] at hjson
      rw [hjson] at htext
      cases htext
    | ok text' =>
      rw [headerOf] at hjson
      rw [hjson] at htext
      cases htext
      rfl
  · rw [ByteVec.ofList_eq_ok h, append_assoc]

theorem readFrom_file {header block : List UInt8} : header.length < 256 ^ 8 →
    readFrom json (toBytes 8 header.length ++ (header ++ block)) =
      if header.length > maxHeaderSize then
        .err (headerTooLong header.length)
      else do
        let entries ← Outcome.mapErr .json (Outcome.ofExcept (json.fromSlice header))
        let out ← entries.toList.mapM (readEntry block)
        return ofEntries out := by
  intro hlen
  have hfirst : readExact (toBytes 8 header.length ++ (header ++ block)) 8 =
      .ok (toBytes 8 header.length, header ++ block) := by
    rw [readExact, if_neg (by simp), take_left' (length_toBytes 8 _),
      drop_left' (length_toBytes 8 _)]
  have hsecond : readExact (header ++ block) header.length = .ok (header, block) := by
    rw [readExact, if_neg (by simp), take_left, drop_left]
  unfold readFrom
  rw [hfirst, ok_bind]
  simp only [ofBytes_toBytes hlen, hsecond, ok_bind]

theorem readFrom_written (hparses : json.Parses) (hreach : ∀ e ∈ tensors.toList, e.2.Reachable) :
    json.toString (headerOf tensors) = .ok text →
      bytes.data = toBytes 8 (utf8 text).length ++ (utf8 text ++
        (tensors.toList.map (fun e => e.2.contents)).flatten) →
      readFrom json bytes.data =
        if (utf8 text).length > maxHeaderSize then
          .err (headerTooLong (utf8 text).length)
        else do
          let out ← tensors.toList.mapM rebuild
          return ofEntries out := by
  intro htext hdata
  obtain ⟨header, hheader, hlist⟩ := hparses _ _ htext
  have hword : isizeMax < 256 ^ 8 := by decide
  have hword' : 256 ^ 8 = u64Size := by decide
  have hlen := bytes.length_le
  rw [hdata, length_append, length_append] at hlen
  have hentries : header.toList.mapM
      (readEntry (tensors.toList.map (fun e => e.2.contents)).flatten) =
        tensors.toList.mapM rebuild := by
    rw [hlist, toList_headerOf]
    exact readEntries_eq hreach [] (by rw [nil_append]; omega)
  rw [hdata, readFrom_file (by omega)]
  simp only [hheader, ofExcept_ok, mapErr, ok_bind, hentries]

theorem rebuild_eq {e : String × AnyTensor} :
    e.2.Reachable → ¬ e.2.Half → rebuild e = .ok (e.1, e.2.packed) := by
  intro h hhalf
  unfold rebuild
  rw [buildTensorFromBytes_contents h hhalf]
  rfl

theorem not_half_of_rebuild {e e' : String × AnyTensor} : rebuild e = .ok e' → ¬ e.2.Half := by
  intro h hhalf
  obtain ⟨t', ht', _⟩ := bind_eq_ok.1 h
  exact buildTensorFromBytes_half hhalf t' ht'

theorem toList_packed : (ofEntries
    (tensors.toList.map (fun e => (e.1, e.2.packed)))).toList =
      tensors.toList.map (fun e => (e.1, e.2.packed)) := by
  apply toList_ofEntries
  apply (ordered_toList tensors).of_keys
  rw [map_map]
  rfl

theorem sameEntries_packed (hreach : ∀ e ∈ tensors.toList, e.2.Reachable) :
    SameEntries tensors.toList (tensors.toList.map (fun e => (e.1, e.2.packed))) ↔
      ∀ e ∈ tensors.toList, e.2.InOrder := by
  unfold SameEntries
  rw [forall₂_map_right_iff, forall₂_same]
  constructor
  · intro h e he
    exact (AnyTensor.same_packed_iff (hreach e he)).1 (h e he).2
  · intro h e he
    exact ⟨rfl, (AnyTensor.same_packed_iff (hreach e he)).2 (h e he)⟩

theorem readFrom_packed (hparses : json.Parses) (hreach : ∀ e ∈ tensors.toList, e.2.Reachable)
    (hwrite : writeTo json tensors = .ok bytes) : (∀ e ∈ tensors.toList, ¬ e.2.Half) →
      (∀ text, json.toString (headerOf tensors) = .ok text →
        (utf8 text).length ≤ maxHeaderSize) →
      readFrom json bytes.data =
        .ok (ofEntries (tensors.toList.map (fun e => (e.1, e.2.packed)))) := by
  intro hhalf hlimit
  obtain ⟨text, htext, hdata⟩ := writeTo_eq_ok hreach hwrite
  rw [readFrom_written hparses hreach htext hdata, if_neg (Nat.not_lt.2 (hlimit text htext)),
    mapM_eq_ok (fun e he => rebuild_eq (hreach e he) (hhalf e he))]
  rfl

/-- A map that is written is read back as it was exactly when no tensor has a half-precision
dtype, the elements of every tensor are the first cells of its storage in order, and the printed
header has at most `100000000` bytes. -/
theorem roundTrips_iff (hparses : json.Parses)
    (hreach : ∀ e ∈ tensors.toList, e.2.Reachable) (hwrite : writeTo json tensors = .ok bytes) :
    RoundTrips json tensors bytes ↔
      (∀ e ∈ tensors.toList, ¬ e.2.Half ∧ e.2.InOrder) ∧
      ∀ text, json.toString (headerOf tensors) = .ok text →
        (utf8 text).length ≤ maxHeaderSize := by
  obtain ⟨text, htext, hdata⟩ := writeTo_eq_ok hreach hwrite
  constructor
  · rintro ⟨out, hread, hsame⟩
    rw [readFrom_written hparses hreach htext hdata] at hread
    have hmax : (utf8 text).length ≤ maxHeaderSize := by
      by_contra hlong
      rw [if_pos (Nat.lt_of_not_le hlong)] at hread
      cases hread
    rw [if_neg (Nat.not_lt.2 hmax)] at hread
    obtain ⟨entries, hentries, hout⟩ := bind_eq_ok.1 hread
    have hhalf : ∀ e ∈ tensors.toList, ¬ e.2.Half := by
      intro e he
      obtain ⟨e', he'⟩ := ok_of_mapM hentries he
      exact not_half_of_rebuild he'
    rw [mapM_eq_ok (fun e he => rebuild_eq (hreach e he) (hhalf e he))] at hentries
    cases hentries
    cases hout
    rw [toList_packed, sameEntries_packed hreach] at hsame
    refine ⟨fun e he => ⟨hhalf e he, hsame e he⟩, ?_⟩
    intro text' htext'
    rw [htext] at htext'
    cases htext'
    exact hmax
  · rintro ⟨hall, hlimit⟩
    refine ⟨_, readFrom_packed hparses hreach hwrite (fun e he => (hall e he).1) hlimit, ?_⟩
    rw [toList_packed]
    exact (sameEntries_packed hreach).2 (fun e he => (hall e he).2)

/-! ## Two files -/

/-- A JSON library that knows one header. -/
def oneHeader (entries : List (String × HeaderEntry)) (text : String) : SerdeJson where
  toString header := if header.toList = entries then .ok text else .error "unknown header"
  fromSlice bytes :=
    if bytes = utf8 text then .ok (ofEntries entries) else .error "unknown text"

theorem oneHeader_parses {entries : List (String × HeaderEntry)} :
    Ordered entries → (oneHeader entries text).Parses := by
  intro h header text' htext
  change (if header.toList = entries then Except.ok text else Except.error "unknown header") = _
    at htext
  split at htext
  · next hlist =>
      cases htext
      refine ⟨ofEntries entries, ?_, ?_⟩
      · exact if_pos rfl
      · rw [toList_ofEntries h, hlist]
  · cases htext

/-- The header of one `2 × 2` tensor of bytes named `w`. -/
def squareText : String :=
  "\x7b\"w\":\x7b\"dtype\":\"I8\",\"shape\":[2,2],\"data_offsets\":[0,4]\x7d\x7d"

def squareJson : SerdeJson :=
  oneHeader [("w", { dtype := "I8", shape := [2, 2], dataOffsets := (0, 4) })] squareText

theorem squareJson_parses : squareJson.Parses :=
  oneHeader_parses (pairwise_singleton _ _)

/-- The rows `1 2` and `3 4`. -/
def square : AnyTensor where
  dtype := .i8
  tensor := { storage := ([1, 2, 3, 4] : List Int8), layout := Layout.contiguous [2, 2] .i8 }
  dtype_eq := rfl

/-- The transpose of `square`, over the same storage. -/
def squareTransposed : AnyTensor where
  dtype := .i8
  tensor := { storage := ([1, 2, 3, 4] : List Int8)
              layout := Layout.ofAxes [⟨2, 1⟩, ⟨2, 2⟩] 0 u64Size_pos .i8 }
  dtype_eq := rfl

theorem square_reachable : square.Reachable :=
  @Core.Reachable.fromVecTyped _ .i8 [2, 2] ([1, 2, 3, 4] : List Int8) _ (by decide) (by decide) rfl

theorem squareTransposed_reachable : squareTransposed.Reachable :=
  @Core.Reachable.view _ _ _ (.transpose 0 1) square_reachable trivial rfl

def savedAs (t : AnyTensor) : StringMap AnyTensor :=
  ofEntries [("w", t)]

theorem toList_savedAs (t : AnyTensor) : (savedAs t).toList = [("w", t)] :=
  toList_ofEntries (pairwise_singleton _ _)

variable {t : AnyTensor}

theorem forall_savedAs {P : AnyTensor → Prop} : P t → ∀ e ∈ (savedAs t).toList, P e.2 := by
  intro h e he
  rw [toList_savedAs, mem_singleton] at he
  rw [he]
  exact h

theorem squareText_short : squareJson.toString (headerOf (savedAs t)) = .ok squareText →
      ∀ text, squareJson.toString (headerOf (savedAs t)) = .ok text →
        (utf8 text).length ≤ maxHeaderSize := by
  intro hprint text htext
  rw [hprint] at htext
  cases htext
  decide

/-- The square is saved and loaded. -/
theorem square_roundTrips :
    ∃ bytes, writeTo squareJson (savedAs square) = .ok bytes ∧
      RoundTrips squareJson (savedAs square) bytes := by
  have horder : square.InOrder := by
    intro i hi
    have hlt : i < 4 := hi
    match i, hlt with
    | 0, _ => rfl
    | 1, _ => rfl
    | 2, _ => rfl
    | 3, _ => rfl
  have hhalf : ¬ square.Half := by
    rintro (h | h)
    · cases h
    · cases h
  refine ⟨_, rfl, (roundTrips_iff squareJson_parses (forall_savedAs square_reachable) rfl).2 ?_⟩
  exact ⟨@forall_savedAs _ (fun t => ¬ t.Half ∧ t.InOrder) ⟨hhalf, horder⟩, squareText_short rfl⟩

/-- Its transpose is saved in storage order, so it is loaded as the square. -/
theorem squareTransposed_not_roundTrips : squareTransposed.Reachable ∧
    ∃ bytes, writeTo squareJson (savedAs squareTransposed) = .ok bytes ∧
      ¬ RoundTrips squareJson (savedAs squareTransposed) bytes := by
  refine ⟨squareTransposed_reachable, _, rfl, ?_⟩
  rintro ⟨out, hread, hsame⟩
  have hhalf : ¬ squareTransposed.Half := by
    rintro (h | h)
    · cases h
    · cases h
  rw [readFrom_packed squareJson_parses (forall_savedAs squareTransposed_reachable) rfl
    (@forall_savedAs _ (fun t => ¬ t.Half) hhalf) (squareText_short rfl)] at hread
  cases hread
  rw [toList_packed, sameEntries_packed (forall_savedAs squareTransposed_reachable),
    toList_savedAs] at hsame
  -- the second element is the third cell
  have hcell := hsame ("w", squareTransposed) mem_cons_self 1 (by decide)
  cases hcell

end Serde
end Rustorch
