import Rustorch.Core.Dense
import Rustorch.Lib.LittleEndian
import Rustorch.Lib.StringMap

/-!
# Elements and their bytes

A cell of a tensor is a value of the type its dtype names; floats are kept as bit patterns.  A
storage is the bytes of its cells, one after the other.
-/

namespace Rustorch
namespace Serde

open Rustorch.Core LittleEndian List Traversal

def Elem : Dtype → Type
  | .f32 => UInt32
  | .f64 => UInt64
  | .f16 => UInt16
  | .bf16 => UInt16
  | .i64 => Int64
  | .i32 => Int32
  | .i8 => Int8
  | .bool => Bool

instance (d : Dtype) : Inhabited (Elem d) :=
  match d with
  | .f32 => inferInstanceAs (Inhabited UInt32)
  | .f64 => inferInstanceAs (Inhabited UInt64)
  | .f16 => inferInstanceAs (Inhabited UInt16)
  | .bf16 => inferInstanceAs (Inhabited UInt16)
  | .i64 => inferInstanceAs (Inhabited Int64)
  | .i32 => inferInstanceAs (Inhabited Int32)
  | .i8 => inferInstanceAs (Inhabited Int8)
  | .bool => inferInstanceAs (Inhabited Bool)

/-- The bytes of one cell. -/
def cellBytes : (d : Dtype) → Elem d → List UInt8
  | .f32, v => toBytes 4 (UInt32.toNat v)
  | .f64, v => toBytes 8 (UInt64.toNat v)
  | .f16, v => toBytes 2 (UInt16.toNat v)
  | .bf16, v => toBytes 2 (UInt16.toNat v)
  | .i64, v => toBytes 8 (Int64.toUInt64 v).toNat
  | .i32, v => toBytes 4 (Int32.toUInt32 v).toNat
  | .i8, v => [Int8.toUInt8 v]
  | .bool, v => [Bool.toUInt8 v]

theorem length_cellBytes (d : Dtype) (v : Elem d) : (cellBytes d v).length = d.byteSize := by
  cases d with
  | f32 => exact length_toBytes 4 _
  | f64 => exact length_toBytes 8 _
  | f16 => exact length_toBytes 2 _
  | bf16 => exact length_toBytes 2 _
  | i64 => exact length_toBytes 8 _
  | i32 => exact length_toBytes 4 _
  | i8 => rfl
  | bool => rfl

/-- A tensor of any dtype. -/
structure AnyTensor where
  dtype : Dtype
  tensor : Tensor (Elem dtype)
  dtype_eq : tensor.layout.dtype = dtype

namespace AnyTensor

def shape (t : AnyTensor) : Shape :=
  t.tensor.shape

def numel (t : AnyTensor) : Nat :=
  t.tensor.numel

/-- `storage().as_bytes()` -/
def asBytes (t : AnyTensor) : List UInt8 :=
  t.tensor.storage.flatMap (cellBytes t.dtype)

/-- The same dtype, shape and elements in shape order. -/
inductive Same : AnyTensor → AnyTensor → Prop
  | mk {d : Dtype} {t t' : Tensor (Elem d)} {h : t.layout.dtype = d} {h' : t'.layout.dtype = d} :
      t.shape = t'.shape → t.elements = t'.elements → Same ⟨d, t, h⟩ ⟨d, t', h'⟩

/-- Built from a vector or of zeros, then viewed. -/
def Reachable (t : AnyTensor) : Prop :=
  Core.Reachable t.tensor

/-- The first cells of the storage as a fresh tensor of the same shape. -/
def packed (t : AnyTensor) : AnyTensor where
  dtype := t.dtype
  tensor := { storage := t.tensor.storage.take t.numel, layout := Layout.contiguous t.shape t.dtype }
  dtype_eq := rfl

/-- The element at a linear index is the cell of the storage at that index. -/
def InOrder (t : AnyTensor) : Prop :=
  ∀ i < t.numel, t.tensor.storage[t.tensor.layout.indexAt i]? = t.tensor.storage[i]?

variable {t : AnyTensor}

section

variable (h : t.Reachable)

include h

theorem Reachable.bytes : t.shape.prod * t.dtype.byteSize < 2 ^ 63 := by
  have hbytes := reachable_shape_bytes h
  rwa [t.dtype_eq] at hbytes

theorem Reachable.numel_eq : t.numel = t.shape.prod :=
  numel_of_bytes h.bytes

theorem Reachable.numel_le : t.numel ≤ t.tensor.storage.length := by
  rw [h.numel_eq]
  exact reachable_prod_le h

theorem Reachable.length_front :
    (t.tensor.storage.take t.numel).length = t.shape.prod := by
  rw [length_take, Nat.min_eq_left h.numel_le, h.numel_eq]

/-- A vector of the first cells makes the packed tensor. -/
theorem Reachable.fromVecTyped :
    fromVecTyped t.dtype t.shape (t.tensor.storage.take t.numel) = .ok t.packed.tensor := by
  apply if_neg
  rw [not_not, h.length_front, numel_of_bytes h.bytes]

theorem Reachable.packed_elements :
    t.packed.tensor.elements = some (t.tensor.storage.take t.numel) := by
  obtain ⟨t', ht', _, _, helements⟩ := fromVecTyped_elements h.length_front h.bytes
  rw [h.fromVecTyped] at ht'
  cases ht'
  exact helements

end

theorem front_eq_mapM (h : t.numel ≤ t.tensor.storage.length) :
    (range t.numel).mapM (fun i => t.tensor.storage[i]?) =
      some (t.tensor.storage.take t.numel) := by
  refine (mapM_eq_some _ _).2 (forall₂_iff_get.2 ⟨by simp [h], ?_⟩)
  intro i hi hi'
  have hin : i < t.tensor.storage.length := by
    rw [length_range] at hi
    omega
  simp [hin]

/-- A tensor reads as its first cells exactly when its elements are these cells in order. -/
theorem same_packed_iff (h : t.Reachable) : Same t t.packed ↔ t.InOrder := by
  have hcells : ∀ i ∈ range t.numel,
      ∃ v, t.tensor.storage[t.tensor.layout.indexAt i]? = some v := by
    obtain ⟨xs, hxs, _⟩ := reachable_elements h
    have hmap : (range t.numel).mapM
        (fun i => t.tensor.storage[t.tensor.layout.indexAt i]?) = some xs :=
      (Tensor.elements_eq t.tensor).symm.trans hxs
    intro i hi
    by_contra hnone
    have hget : t.tensor.storage[t.tensor.layout.indexAt i]? = none := by
      rw [Option.eq_none_iff_forall_ne_some]
      exact fun v hv => hnone ⟨v, hv⟩
    rw [mapM_eq_none hi hget] at hmap
    cases hmap
  have hiff : t.tensor.elements = t.packed.tensor.elements ↔ t.InOrder := by
    rw [h.packed_elements, Tensor.elements_eq, ← front_eq_mapM h.numel_le]
    refine (mapM_eq_mapM_iff hcells).trans ?_
    simp only [mem_range]
    rfl
  constructor
  · intro hsame
    apply hiff.1
    cases hsame with
    | mk _ helements => exact helements
  · intro horder
    exact Same.mk (Layout.shape_contiguous _ _).symm (hiff.2 horder)

end AnyTensor

end Serde
end Rustorch

/-!
# The safetensors format

`safetensors.rs`: eight bytes with the size of the header, the header as JSON, then the bytes of
every tensor.  The JSON library is a parameter.
-/

namespace Rustorch
namespace Serde

open Rustorch.Core LittleEndian Chunks

inductive SafetensorsError
  | io (message : String)
  | json (message : String)
  | unsupportedDtype (name : String)
  | invalidHeader (message : String)
  | sizeMismatch (name : String) (expected got : Nat)
  deriving DecidableEq, Repr

def dtypeToStr : Dtype → String
  | .f32 => "F32"
  | .f64 => "F64"
  | .f16 => "F16"
  | .bf16 => "BF16"
  | .i64 => "I64"
  | .i32 => "I32"
  | .i8 => "I8"
  | .bool => "BOOL"

def dtypeFromStr (s : String) : Except SafetensorsError Dtype :=
  match s with
  | "F32" => .ok .f32
  | "F64" => .ok .f64
  | "F16" => .ok .f16
  | "BF16" => .ok .bf16
  | "I64" => .ok .i64
  | "I32" => .ok .i32
  | "I8" => .ok .i8
  | "BOOL" => .ok .bool
  | other => .error (.unsupportedDtype other)

theorem dtypeFromStr_toStr (d : Dtype) : dtypeFromStr (dtypeToStr d) = .ok d := by
  cases d <;> rfl

structure HeaderEntry where
  dtype : String
  shape : List Nat
  dataOffsets : Nat × Nat
  deriving DecidableEq, Repr

/-- `serde_json::to_string` and `from_slice` on headers. -/
structure SerdeJson where
  toString : StringMap HeaderEntry → Except String String
  fromSlice : List UInt8 → Except String (StringMap HeaderEntry)

def utf8 (text : String) : List UInt8 :=
  text.toUTF8.data.toList

/-- The library parses what it prints. -/
def SerdeJson.Parses (json : SerdeJson) : Prop :=
  ∀ header text, json.toString header = .ok text →
    ∃ header', json.fromSlice (utf8 text) = .ok header' ∧ header'.toList = header.toList

/-! ## The writer -/

/-- The loop over the tensors with the cursor into the binary block. -/
def headerFrom : Nat → List (String × AnyTensor) → List (String × HeaderEntry)
  | _, [] => []
  | cursor, (name, t) :: rest =>
    let nbytes := t.numel * t.dtype.byteSize % u64Size
    let stop := (cursor + nbytes) % u64Size
    (name, { dtype := dtypeToStr t.dtype, shape := t.shape, dataOffsets := (cursor, stop) }) ::
      headerFrom stop rest

/-- `&bytes[..nbytes]` of one tensor. -/
def block (t : AnyTensor) : Outcome SafetensorsError (List UInt8) :=
  Machine.slice t.asBytes 0 (t.numel * t.dtype.byteSize % u64Size)

/-- Writing to a vector. -/
def writeTo (json : SerdeJson) (tensors : StringMap AnyTensor) :
    Outcome SafetensorsError ByteVec := do
  let header := StringMap.ofEntries (headerFrom 0 tensors.toList)
  let headerJson ← Outcome.mapErr .json (Outcome.ofExcept (json.toString header))
  let headerBytes := utf8 headerJson
  let blocks ← tensors.toList.mapM (fun e => block e.2)
  ByteVec.ofList (toBytes 8 headerBytes.length ++ headerBytes ++ blocks.flatten)

/-! ## The reader -/

def maxHeaderSize : Nat := 100000000

def headerTooLong (headerSize : Nat) : SafetensorsError :=
  .invalidHeader s!"header_size {headerSize} exceeds 100MB sanity limit"

/-- `read_exact` of `n` bytes: what was read and what is left. -/
def readExact (src : List UInt8) (n : Nat) :
    Outcome SafetensorsError (List UInt8 × List UInt8) :=
  if src.length < n then
    .err (.io "failed to fill whole buffer")
  else
    .ok (src.take n, src.drop n)

theorem fromVecTyped_dtype {α : Type} {T : Dtype} {shape : Shape} {data : List α} {t : Tensor α} :
    fromVecTyped T shape data = .ok t → t.layout.dtype = T := by
  intro h
  unfold fromVecTyped at h
  split at h
  · cases h
  · cases h
    rfl

def tensorErrorText : TensorError → String
  | .shapeDataMismatch expected got shape =>
    s!"shape {shape} requires {expected} elements, got {got}"

/-- `from_vec_typed` with the error of this module; `kind` is the Rust type in its text. -/
def build (d : Dtype) (kind : String) (shape : Shape) (data : List (Elem d)) :
    Outcome SafetensorsError AnyTensor :=
  match h : fromVecTyped d shape data with
  | .ok t => .ok { dtype := d, tensor := t, dtype_eq := fromVecTyped_dtype h }
  | .error e =>
    let text := tensorErrorText e
    .err (.invalidHeader s!"tensor build {kind}: {text}")

def buildTensorFromBytes (shape : Shape) (dtype : Dtype) (bytes : List UInt8) :
    Outcome SafetensorsError AnyTensor :=
  match dtype with
  | .f32 => build .f32 "f32" shape ((chunksExact 4 bytes).map (fun c => UInt32.ofNat (ofBytes c)))
  | .f64 => build .f64 "f64" shape ((chunksExact 8 bytes).map (fun c => UInt64.ofNat (ofBytes c)))
  | .i64 =>
    build .i64 "i64" shape
      ((chunksExact 8 bytes).map (fun c => (UInt64.ofNat (ofBytes c)).toInt64))
  | .i32 =>
    build .i32 "i32" shape
      ((chunksExact 4 bytes).map (fun c => (UInt32.ofNat (ofBytes c)).toInt32))
  | .i8 => build .i8 "i8" shape (bytes.map (fun b => b.toInt8))
  | .bool => build .bool "bool" shape (bytes.map (fun b => b != 0))
  | .f16 => .err (.unsupportedDtype (dtypeToStr .f16))
  | .bf16 => .err (.unsupportedDtype (dtypeToStr .bf16))

/-- One turn of the loop over the header. -/
def readEntry (binary : List UInt8) (e : String × HeaderEntry) :
    Outcome SafetensorsError (String × AnyTensor) := do
  let name := e.1
  let dtype ← Outcome.ofExcept (dtypeFromStr e.2.dtype)
  let (start, stop) := e.2.dataOffsets
  let size := binary.length
  if stop > size ∨ start > stop then
    .err (.invalidHeader
      s!"tensor {name}: offsets [{start}, {stop}] outside binary block of len {size}")
  else
    let slice ← Machine.slice binary start stop
    let expectedBytes := numel e.2.shape * dtype.byteSize % u64Size
    if slice.length ≠ expectedBytes then
      .err (.sizeMismatch name expectedBytes slice.length)
    else
      let t ← buildTensorFromBytes e.2.shape dtype slice
      return (name, t)

def readFrom (json : SerdeJson) (src : List UInt8) :
    Outcome SafetensorsError (StringMap AnyTensor) := do
  let (sizeBuf, src) ← readExact src 8
  let headerSize := ofBytes sizeBuf
  if headerSize > maxHeaderSize then
    .err (headerTooLong headerSize)
  else
    let (headerBytes, binary) ← readExact src headerSize
    let header ← Outcome.mapErr .json (Outcome.ofExcept (json.fromSlice headerBytes))
    let out ← header.toList.mapM (readEntry binary)
    return StringMap.ofEntries out

end Serde
end Rustorch
