import Rustorch.Lib.ByteReader
import Rustorch.Lib.StringMap

/-!
# Metadata values

`metadata.rs`: the typed values of the key-value section.  Floats are kept as bit patterns.
-/

namespace Rustorch
namespace Gguf

inductive MetaValueType
  | u8 | i8 | u16 | i16 | u32 | i32 | f32 | bool | string | array | u64 | i64 | f64
  deriving DecidableEq, Repr

def MetaValueType.fromU32 (v : UInt32) : Option MetaValueType :=
  match v with
  | 0 => some .u8
  | 1 => some .i8
  | 2 => some .u16
  | 3 => some .i16
  | 4 => some .u32
  | 5 => some .i32
  | 6 => some .f32
  | 7 => some .bool
  | 8 => some .string
  | 9 => some .array
  | 10 => some .u64
  | 11 => some .i64
  | 12 => some .f64
  | _ => none

inductive MetaArray
  | u8 (v : List UInt8)
  | i8 (v : List Int8)
  | u16 (v : List UInt16)
  | i16 (v : List Int16)
  | u32 (v : List UInt32)
  | i32 (v : List Int32)
  | f32 (v : List UInt32)
  | bool (v : List Bool)
  | string (v : List String)
  | u64 (v : List UInt64)
  | i64 (v : List Int64)
  | f64 (v : List UInt64)
  deriving DecidableEq, Repr

inductive MetaValue
  | u8 (v : UInt8)
  | i8 (v : Int8)
  | u16 (v : UInt16)
  | i16 (v : Int16)
  | u32 (v : UInt32)
  | i32 (v : Int32)
  | f32 (v : UInt32)
  | bool (v : Bool)
  | string (v : String)
  | array (v : MetaArray)
  | u64 (v : UInt64)
  | i64 (v : Int64)
  | f64 (v : UInt64)
  deriving DecidableEq, Repr

/-- `as u64` of the integer types; a signed value is extended by its sign. -/
def MetaValue.asU64 : MetaValue → Option UInt64
  | .u8 v => some v.toUInt64
  | .u16 v => some v.toUInt64
  | .u32 v => some v.toUInt64
  | .u64 v => some v
  | .i8 v => some v.toInt64.toUInt64
  | .i16 v => some v.toInt64.toUInt64
  | .i32 v => some v.toInt64.toUInt64
  | .i64 v => some v.toUInt64
  | _ => none

structure Metadata where
  kv : StringMap MetaValue

namespace Metadata

def get (metadata : Metadata) (key : String) : Option MetaValue :=
  metadata.kv[key]?

def getU64 (metadata : Metadata) (key : String) : Option UInt64 := do
  let value ← metadata.get key
  value.asU64

end Metadata

end Gguf
end Rustorch

/-!
# Tensor types and descriptors

`tensor.rs`: the quantization formats with their block sizes, and the entry of one tensor in the
index of a file.  `byteSize` is the code's computation on a machine; `exactSize` is the same number
without overflow.
-/

namespace Rustorch
namespace Gguf

inductive GgufError
  | badMagic (magic : UInt32)
  | unsupportedVersion (version : UInt32)
  | unknownMetaType (tag : UInt32)
  | unknownDtype (tag : UInt32)
  | truncated (needed available : Nat)
  | badUtf8 (field : String)
  | tensorOffsetOob (name : String) (offset : UInt64) (dataLen : Nat)
  deriving DecidableEq, Repr

inductive GgmlType
  | f32 | f16 | q4_0 | q4_1 | q5_0 | q5_1 | q8_0 | q8_1 | q2_K | q3_K | q4_K | q5_K | q6_K
  | q8_K | iq2_XXS | iq2_XS | iq3_XXS | iq1_S | iq4_NL | iq3_S | iq2_S | iq4_XS | i8 | i16
  | i32 | i64 | f64 | iq1_M | bf16
  deriving DecidableEq, Repr

namespace GgmlType

def fromU32 (v : UInt32) : Except GgufError GgmlType :=
  match v with
  | 0 => .ok .f32
  | 1 => .ok .f16
  | 2 => .ok .q4_0
  | 3 => .ok .q4_1
  | 6 => .ok .q5_0
  | 7 => .ok .q5_1
  | 8 => .ok .q8_0
  | 9 => .ok .q8_1
  | 10 => .ok .q2_K
  | 11 => .ok .q3_K
  | 12 => .ok .q4_K
  | 13 => .ok .q5_K
  | 14 => .ok .q6_K
  | 15 => .ok .q8_K
  | 16 => .ok .iq2_XXS
  | 17 => .ok .iq2_XS
  | 18 => .ok .iq3_XXS
  | 19 => .ok .iq1_S
  | 20 => .ok .iq4_NL
  | 21 => .ok .iq3_S
  | 22 => .ok .iq2_S
  | 23 => .ok .iq4_XS
  | 24 => .ok .i8
  | 25 => .ok .i16
  | 26 => .ok .i32
  | 27 => .ok .i64
  | 28 => .ok .f64
  | 29 => .ok .iq1_M
  | 30 => .ok .bf16
  | other => .error (.unknownDtype other)

/-- The number of values of one quantization block. -/
def blockSize : GgmlType → Nat
  | .f32 | .f16 | .bf16 | .f64 => 1
  | .i8 | .i16 | .i32 | .i64 => 1
  | .q4_0 | .q4_1 | .q5_0 | .q5_1 => 32
  | .q8_0 | .q8_1 => 32
  | .q2_K | .q3_K | .q4_K | .q5_K | .q6_K | .q8_K | .iq2_XXS | .iq2_XS | .iq3_XXS | .iq1_S
  | .iq4_NL | .iq3_S | .iq2_S | .iq4_XS | .iq1_M => 256

/-- The number of bytes of one quantization block. -/
def typeSize : GgmlType → Nat
  | .f32 | .i32 => 4
  | .f16 | .bf16 | .i16 => 2
  | .f64 | .i64 => 8
  | .i8 => 1
  | .q4_0 => 2 + 16
  | .q4_1 => 2 + 2 + 16
  | .q5_0 => 2 + 4 + 16
  | .q5_1 => 2 + 2 + 4 + 16
  | .q8_0 => 2 + 32
  | .q8_1 => 4 + 32
  | .q4_K => 2 + 2 + 12 + 128
  | .q6_K => 128 + 64 + 16 + 2
  | .q2_K => 2 + 2 + 16 + 64
  | .q3_K => 32 + 64 + 12 + 2
  | .q5_K => 2 + 2 + 12 + 32 + 128
  | .q8_K => 4 + 256 + 32
  | .iq2_XXS => 2 + 64
  | .iq2_XS => 2 + 64 + 16
  | .iq3_XXS => 2 + 64 + 32
  | .iq1_S => 2 + 32 + 8
  | .iq4_NL => 2 + 16
  | .iq3_S => 2 + 64 + 32 + 8 + 16
  | .iq2_S => 2 + 64 + 16 + 8
  | .iq4_XS => 2 + 2 + 64 + 128
  | .iq1_M => 32 + 16 + 8

def byteSizeFor (m : Machine) (dtype : GgmlType) (nElements : Nat) : Outcome GgufError Nat := do
  m.debugAssert (nElements % dtype.blockSize == 0)
  m.mul (nElements / dtype.blockSize) dtype.typeSize

end GgmlType

structure TensorInfo where
  name : String
  shape : List UInt64
  dtype : GgmlType
  offset : UInt64
  deriving DecidableEq, Repr

namespace TensorInfo

def nElements (m : Machine) (t : TensorInfo) : Outcome GgufError Nat :=
  m.product (t.shape.map UInt64.toNat)

def byteSize (m : Machine) (t : TensorInfo) : Outcome GgufError Nat := do
  let n ← t.nElements m
  t.dtype.byteSizeFor m n

/-! ## Exact sizes -/

def exactElements (t : TensorInfo) : Nat :=
  (t.shape.map UInt64.toNat).prod

def exactSize (t : TensorInfo) : Nat :=
  t.exactElements / t.dtype.blockSize * t.dtype.typeSize

/-- Whole blocks, and no machine word on the way to the end of the tensor overflows. -/
structure Exact (t : TensorInfo) : Prop where
  products : Machine.PartialProducts (t.shape.map UInt64.toNat)
  blocks : t.exactElements % t.dtype.blockSize = 0
  stop : t.offset.toNat + t.exactSize < u64Size

/-- The tensor ends inside a data section of `dataLen` bytes. -/
def Fits (dataLen : Nat) (t : TensorInfo) : Prop :=
  t.offset.toNat + t.exactSize ≤ dataLen

variable {m : Machine} {t : TensorInfo}

theorem byteSize_of_lt : Machine.PartialProducts (t.shape.map UInt64.toNat) →
    t.exactElements % t.dtype.blockSize = 0 → t.exactSize < u64Size →
      t.byteSize m = .ok t.exactSize := by
  intro hproducts hblocks hsize
  have helements : t.nElements m = .ok t.exactElements := Machine.product_eq_prod hproducts
  have hassert : (t.exactElements % t.dtype.blockSize == 0) = true := by
    simp [hblocks]
  unfold byteSize GgmlType.byteSizeFor
  rw [helements, Outcome.ok_bind, Machine.debugAssert_of_true hassert, Outcome.ok_bind]
  exact Machine.mul_of_lt hsize

theorem byteSize_of_exact : t.Exact → t.byteSize m = .ok t.exactSize := by
  intro h
  exact byteSize_of_lt h.products h.blocks ((Nat.le_add_left _ _).trans_lt h.stop)

theorem sizes_of_debug {memory : Nat} : t.byteSize ⟨.debug, memory⟩ ≠ .panic →
    Machine.PartialProducts (t.shape.map UInt64.toNat) ∧
      t.exactElements % t.dtype.blockSize = 0 ∧ t.exactSize < u64Size := by
  intro h
  unfold byteSize at h
  have hproducts : Machine.PartialProducts (t.shape.map UInt64.toNat) :=
    Machine.partial_of_product (Outcome.ne_panic_of_bind h)
  have helements : t.nElements ⟨.debug, memory⟩ = .ok t.exactElements :=
    Machine.product_eq_prod hproducts
  rw [helements, Outcome.ok_bind] at h
  unfold GgmlType.byteSizeFor at h
  have hassert : (t.exactElements % t.dtype.blockSize == 0) = true :=
    Machine.true_of_debug_assert (Outcome.ne_panic_of_bind h)
  rw [Machine.debugAssert_of_true hassert, Outcome.ok_bind] at h
  exact ⟨hproducts, by simpa using hassert, Machine.lt_of_debug_u64 h⟩

theorem end_of_exact : t.Exact →
    (m.add t.offset.toNat t.exactSize : Outcome GgufError Nat) =
      .ok (t.offset.toNat + t.exactSize) := by
  intro h
  exact Machine.add_of_lt h.stop

end TensorInfo

end Gguf
end Rustorch

/-!
# The file parser

`reader.rs`: the header, the key-value section and the tensor index are read from the front of the
file; then the start of the data section is aligned and every tensor is checked against its length.
The parser is a reader program; `fromBytes` runs it on a machine.
-/

namespace Rustorch
namespace Gguf

open Reads

def ggufMagic : UInt32 := 0x46554747

def ggufDefaultAlignment : UInt64 := 32

/-! ## Scalars -/

def readU8 : Reads GgufError UInt8 := do
  let v ← littleEndian 1
  return UInt8.ofNat v

def readI8 : Reads GgufError Int8 := do
  let v ← readU8
  return v.toInt8

def readU16 : Reads GgufError UInt16 := do
  let v ← littleEndian 2
  return UInt16.ofNat v

def readI16 : Reads GgufError Int16 := do
  let v ← readU16
  return v.toInt16

def readU32 : Reads GgufError UInt32 := do
  let v ← littleEndian 4
  return UInt32.ofNat v

def readI32 : Reads GgufError Int32 := do
  let v ← readU32
  return v.toInt32

def readU64 : Reads GgufError UInt64 := do
  let v ← littleEndian 8
  return UInt64.ofNat v

def readI64 : Reads GgufError Int64 := do
  let v ← readU64
  return v.toInt64

/-- The bit pattern of an `f32`. -/
def readF32 : Reads GgufError UInt32 :=
  readU32

/-- The bit pattern of an `f64`. -/
def readF64 : Reads GgufError UInt64 :=
  readU64

def readBool : Reads GgufError Bool := do
  let v ← readU8
  return v != 0

/-- A length, then that many bytes of UTF-8. -/
def readString (field : String) : Reads GgufError String := do
  let len ← readU64
  let bs ← bytes len
  match String.fromUTF8? ⟨bs.toArray⟩ with
  | some s => return s
  | none => .fail (.badUtf8 field)

/-! ## Values -/

/-- `n` elements of `size` bytes each, pushed to a vector with capacity for all of them. -/
def readVec {α : Type} (size : Nat) (elem : Reads GgufError α) (n : UInt64) :
    Reads GgufError (List α) := do
  reserve (n.toNat * size)
  times elem n.toNat

def readArray : Reads GgufError MetaArray := do
  let elemTypeTag ← readU32
  match MetaValueType.fromU32 elemTypeTag with
  | none => .fail (.unknownMetaType elemTypeTag)
  | some elemType =>
    let n ← readU64
    match elemType with
    | .u8 =>
      -- the buffer is made before the length is compared with the bytes that are left
      reserve n.toNat
      let v ← bytes n
      return .u8 v
    | .i8 => return .i8 (← readVec 1 readI8 n)
    | .u16 => return .u16 (← readVec 2 readU16 n)
    | .i16 => return .i16 (← readVec 2 readI16 n)
    | .u32 => return .u32 (← readVec 4 readU32 n)
    | .i32 => return .i32 (← readVec 4 readI32 n)
    | .f32 => return .f32 (← readVec 4 readF32 n)
    | .bool => return .bool (← readVec 1 readBool n)
    | .string => return .string (← readVec 24 (readString "meta.array.string") n)
    | .u64 => return .u64 (← readVec 8 readU64 n)
    | .i64 => return .i64 (← readVec 8 readI64 n)
    | .f64 => return .f64 (← readVec 8 readF64 n)
    | .array => .fail (.unknownMetaType 9)

def readValue (vt : MetaValueType) : Reads GgufError MetaValue :=
  match vt with
  | .u8 => return .u8 (← readU8)
  | .i8 => return .i8 (← readI8)
  | .u16 => return .u16 (← readU16)
  | .i16 => return .i16 (← readI16)
  | .u32 => return .u32 (← readU32)
  | .i32 => return .i32 (← readI32)
  | .f32 => return .f32 (← readF32)
  | .bool => return .bool (← readBool)
  | .string => return .string (← readString "meta.string")
  | .u64 => return .u64 (← readU64)
  | .i64 => return .i64 (← readI64)
  | .f64 => return .f64 (← readF64)
  | .array => return .array (← readArray)

/-! ## The index -/

def readEntry : Reads GgufError (String × MetaValue) := do
  let key ← readString "meta.key"
  let vtTag ← readU32
  match MetaValueType.fromU32 vtTag with
  | none => .fail (.unknownMetaType vtTag)
  | some vt =>
    let val ← readValue vt
    return (key, val)

def readTensorInfo : Reads GgufError TensorInfo := do
  let name ← readString "tensor.name"
  let nDims ← readU32
  reserve (nDims.toNat * 8)
  let shape ← times readU64 nDims.toNat
  let dtypeTag ← readU32
  let dtype ← ofExcept (GgmlType.fromU32 dtypeTag)
  let offset ← readU64
  return { name := name, shape := shape, dtype := dtype, offset := offset }

/-- What is read before the data section. -/
structure Index where
  version : UInt32
  metadata : Metadata
  tensors : List TensorInfo

/-- The size of a `TensorInfo` in memory. -/
def tensorInfoSize : Nat := 64

def readIndex : Reads GgufError Index := do
  let magic ← readU32
  if magic ≠ ggufMagic then
    .fail (.badMagic magic)
  else
    let version ← readU32
    if version ≠ 2 ∧ version ≠ 3 then
      .fail (.unsupportedVersion version)
    else
      let tensorCount ← readU64
      let metadataCount ← readU64
      let kv ← times readEntry metadataCount.toNat
      reserve (tensorCount.toNat * tensorInfoSize)
      let tensors ← times readTensorInfo tensorCount.toNat
      return { version := version, metadata := ⟨StringMap.ofEntries kv⟩, tensors := tensors }

/-! ## Files -/

structure GgufFile where
  bytes : ByteVec
  version : UInt32
  metadata : Metadata
  tensors : List TensorInfo
  dataOffset : Nat
  alignment : UInt64

def Index.alignment (index : Index) : UInt64 :=
  (index.metadata.getU64 "general.alignment").getD ggufDefaultAlignment

/-- The loop over the tensors: each must end inside the data section. -/
def checkOffsets (m : Machine) (dataLen : Nat) : List TensorInfo → Outcome GgufError Unit
  | [] => .ok ()
  | t :: rest => do
    let size ← t.byteSize m
    let stop ← m.add t.offset.toNat size
    if stop > dataLen then
      .err (.tensorOffsetOob t.name t.offset dataLen)
    else
      checkOffsets m dataLen rest

def fromBytes (m : Machine) (bytes : ByteVec) : Outcome GgufError GgufFile := do
  let (index, headerEnd) ← run .truncated bytes.data m readIndex 0
  let blocks ← Machine.divCeil headerEnd index.alignment.toNat
  let dataOffset ← m.mul blocks index.alignment.toNat
  let dataLen ← m.sub bytes.data.length dataOffset
  checkOffsets m dataLen index.tensors
  return { bytes := bytes, version := index.version, metadata := index.metadata,
           tensors := index.tensors, dataOffset := dataOffset, alignment := index.alignment }

/-- The bytes of one tensor. -/
def GgufFile.tensorBytes (m : Machine) (file : GgufFile) (t : TensorInfo) :
    Outcome GgufError (List UInt8) := do
  let start ← m.add file.dataOffset t.offset.toNat
  let size ← t.byteSize m
  let stop ← m.add start size
  Machine.slice file.bytes.data start stop

end Gguf
end Rustorch
