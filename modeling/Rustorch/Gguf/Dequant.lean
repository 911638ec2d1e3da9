import Rustorch.Lib.BitPacking
import Rustorch.Lib.Filling
import Rustorch.Lib.Outcome

/-!
# Dequantization of the K-quants

`dequant.rs`: the super-blocks of 256 weights of `Q3_K`, `Q4_K`, `Q5_K` and `Q6_K`.  Bytes are
`UInt8`; the scalars are any type with the operations the code uses, with the conversion of integers
for `as f32`, and `half` reads an `f16` from its two bytes.
-/

namespace Rustorch
namespace Gguf

open Filling (slice)
open List (range)
open Nat (lt_or_ge zero_add)
open LoopNest (put)

inductive DequantError
  | bufferTooSmall (needed available : Nat)
  | outputSize (expected got : Nat)
  deriving DecidableEq, Repr

def qkK : Nat := 256

def q3KBytes : Nat := 32 + 64 + 12 + 2

def q4KBytes : Nat := 2 + 2 + 12 + 128

def q5KBytes : Nat := 2 + 2 + 12 + 32 + 128

def q6KBytes : Nat := 128 + 64 + 16 + 2

section Model

variable {F : Type} [Add F] [Sub F] [Mul F] [IntCast F] (half : UInt8 → UInt8 → F)

/-- `x as f32` of a byte. -/
def asF32 (x : UInt8) : F := ((x.toNat : ℤ) : F)

/-- The size checks and the loop over the super-blocks, which every format has. -/
def dequantBlocks (blockBytes : Nat)
    (block : List UInt8 → Nat → List F → Option (List F)) (src : List UInt8) (dst : List F) :
    Outcome DequantError (List F) :=
  if dst.length % qkK ≠ 0 then
    .err (.outputSize (dst.length / qkK * qkK) dst.length)
  else
    let nb := dst.length / qkK
    let needed := nb * blockBytes
    if src.length < needed then
      .err (.bufferTooSmall needed src.length)
    else
      Outcome.expect ((range nb).foldlM (fun dst b => do
        let out ← slice dst (b * qkK) ((b + 1) * qkK)
        let out ← block src (b * blockBytes) out
        some (Rows.writeAt (b * qkK) out dst)) dst)

/-! ## `Q4_K` -/

def unpackQ4KScM (scales : List UInt8) : Option (List UInt8 × List UInt8) :=
  (range 4).foldlM (fun (scM : List UInt8 × List UInt8) i => do
    let a : UInt8 ← scales[i]?
    let b : UInt8 ← scales[i + 4]?
    let c : UInt8 ← scales[i + 8]?
    let sc ← put scM.1 i (a &&& 0x3F)
    let m ← put scM.2 i (b &&& 0x3F)
    let sc ← put sc (i + 4) ((c &&& (0x0F : UInt8)) ||| ((a >>> 6) <<< 4))
    let m ← put m (i + 4) ((c >>> 4) ||| ((b >>> 6) <<< 4))
    some (sc, m)) (List.replicate 8 0, List.replicate 8 0)

def dequantQ4KBlock (src : List UInt8) (off : Nat) (out : List F) : Option (List F) := do
  let d := half (← src[off]?) (← src[off + 1]?)
  let dmin := half (← src[off + 2]?) (← src[off + 3]?)
  let scales12 ← slice src (off + 4) (off + 16)
  let scM ← unpackQ4KScM scales12
  let qs ← slice src (off + 16) (off + 16 + 128)
  (range 4).foldlM (fun out jPair => do
    let j0 := 2 * jPair
    let j1 := 2 * jPair + 1
    let nibbles ← slice qs (jPair * 32) ((jPair + 1) * 32)
    let scale0 := d * asF32 (← scM.1[j0]?)
    let min0 := dmin * asF32 (← scM.2[j0]?)
    let scale1 := d * asF32 (← scM.1[j1]?)
    let min1 := dmin * asF32 (← scM.2[j1]?)
    let out ← (range 32).foldlM (fun out k => do
      let nibble : UInt8 ← nibbles[k]?
      let q := asF32 (nibble &&& 0x0F)
      put out (j0 * 32 + k) (scale0 * q - min0)) out
    (range 32).foldlM (fun out k => do
      let nibble : UInt8 ← nibbles[k]?
      let q := asF32 (nibble >>> 4)
      put out (j1 * 32 + k) (scale1 * q - min1)) out) out

def dequantQ4K : List UInt8 → List F → Outcome DequantError (List F) :=
  dequantBlocks q4KBytes (dequantQ4KBlock half)

/-! ## `Q5_K` -/

/-- `if (h & u) != 0 { 16.0 } else { 0.0 }` -/
def highPart (h u : UInt8) : F :=
  if h &&& u ≠ 0 then ((16 : ℤ) : F) else ((0 : ℤ) : F)

def dequantQ5KBlock (src : List UInt8) (off : Nat) (out : List F) : Option (List F) := do
  let d := half (← src[off]?) (← src[off + 1]?)
  let dmin := half (← src[off + 2]?) (← src[off + 3]?)
  let scales12 ← slice src (off + 4) (off + 16)
  let scM ← unpackQ4KScM scales12
  let qh ← slice src (off + 16) (off + 16 + 32)
  let qsAll ← slice src (off + 16 + 32) (off + 16 + 32 + 128)
  -- the state is `u1`, `u2` and the output
  let st ← (range 4).foldlM (fun (st : UInt8 × UInt8 × List F) pair => do
    let sb0 := 2 * pair
    let sb1 := 2 * pair + 1
    let scale0 := d * asF32 (← scM.1[sb0]?)
    let min0 := dmin * asF32 (← scM.2[sb0]?)
    let scale1 := d * asF32 (← scM.1[sb1]?)
    let min1 := dmin * asF32 (← scM.2[sb1]?)
    let ql ← slice qsAll (pair * 32) ((pair + 1) * 32)
    let out ← (range 32).foldlM (fun out l => do
      let q : UInt8 ← ql[l]?
      let low := asF32 (q &&& 0x0F)
      let high := highPart (← qh[l]?) st.1
      put out (sb0 * 32 + l) (scale0 * (low + high) - min0)) st.2.2
    let out ← (range 32).foldlM (fun out l => do
      let q : UInt8 ← ql[l]?
      let low := asF32 (q >>> 4)
      let high := highPart (← qh[l]?) st.2.1
      put out (sb1 * 32 + l) (scale1 * (low + high) - min1)) out
    some (st.1 <<< 2, st.2.1 <<< 2, out)) (1, 2, out)
  some st.2.2

def dequantQ5K : List UInt8 → List F → Outcome DequantError (List F) :=
  dequantBlocks q5KBytes (dequantQ5KBlock half)

/-! ## `Q3_K` -/

def u32FromLeBytes (bytes : List UInt8) : UInt32 :=
  UInt32.ofNat (LittleEndian.ofBytes bytes)

def kmask1 : UInt32 := 0x03030303

def kmask2 : UInt32 := 0x0f0f0f0f

/-- The bytes of a word, the low one first: `(aux & 0xff) as u8`, … -/
def bytesOfWord (aux : UInt32) : List UInt8 :=
  [(aux &&& 0xff).toUInt8, ((aux >>> 8) &&& 0xff).toUInt8, ((aux >>> 16) &&& 0xff).toUInt8,
    ((aux >>> 24) &&& 0xff).toUInt8]

/-- The `scales_u8` of a block. -/
def unpackQ3KScales (scRaw : List UInt8) : Option (List UInt8) := do
  let aux0 := u32FromLeBytes [← scRaw[0]?, ← scRaw[1]?, ← scRaw[2]?, ← scRaw[3]?]
  let aux1 := u32FromLeBytes [← scRaw[4]?, ← scRaw[5]?, ← scRaw[6]?, ← scRaw[7]?]
  let aux2Raw := u32FromLeBytes [← scRaw[8]?, ← scRaw[9]?, ← scRaw[10]?, ← scRaw[11]?]
  let aux2 := ((aux0 >>> 4) &&& kmask2) ||| (((aux2Raw >>> 4) &&& kmask1) <<< 4)
  let aux3 := ((aux1 >>> 4) &&& kmask2) ||| (((aux2Raw >>> 6) &&& kmask1) <<< 4)
  let aux0 := (aux0 &&& kmask2) ||| ((aux2Raw &&& kmask1) <<< 4)
  let aux1 := (aux1 &&& kmask2) ||| (((aux2Raw >>> 2) &&& kmask1) <<< 4)
  some (bytesOfWord aux0 ++ bytesOfWord aux1 ++ bytesOfWord aux2 ++ bytesOfWord aux3)

/-- What the loops over a `Q3_K` block carry. -/
structure Q3KState (F : Type) where
  is : Nat
  m : UInt8
  outIdx : Nat
  out : List F

/-- The loop over the 16 weights of a sub-block; `base` is 0 in the low one and 16 in the high. -/
def q3KSubBlock (dl : F) (qChunk hmask : List UInt8) (base : Nat) (shift m : UInt8)
    (st : Nat × List F) : Option (Nat × List F) :=
  (range 16).foldlM (fun (st : Nat × List F) l => do
    let q : UInt8 ← qChunk[l + base]?
    let h : UInt8 ← hmask[l + base]?
    let qLo : ℤ := ((q >>> shift) &&& 0x03).toNat
    let v := qLo - (if h &&& m ≠ 0 then 0 else 4)
    let out ← put st.2 st.1 (dl * (v : F))
    some (st.1 + 1, out)) st

def dequantQ3KBlock (src : List UInt8) (off : Nat) (out : List F) : Option (List F) := do
  let hmask ← slice src off (off + 32)
  let qs ← slice src (off + 32) (off + 32 + 64)
  let scRaw ← slice src (off + 96) (off + 96 + 12)
  let dAll := half (← src[off + 108]?) (← src[off + 109]?)
  let scalesU8 ← unpackQ3KScales scRaw
  let st ← (range 2).foldlM (fun (st : Q3KState F) i => do
    let n := i * 128
    let qChunk ← slice qs (n / 4) (n / 4 + 32)
    let st ← (range 4).foldlM (fun (st : UInt8 × Q3KState F) _ => do
      let shift := st.1
      let st := st.2
      let dl := dAll * (((← scalesU8[st.is]?).toInt8.toInt - 32 : ℤ) : F)
      let idxOut ← q3KSubBlock dl qChunk hmask 0 shift st.m (st.outIdx, st.out)
      let dl := dAll * (((← scalesU8[st.is + 1]?).toInt8.toInt - 32 : ℤ) : F)
      let idxOut ← q3KSubBlock dl qChunk hmask 16 shift st.m idxOut
      some (shift + 2, (⟨st.is + 2, st.m <<< 1, idxOut.1, idxOut.2⟩ : Q3KState F))) (0, st)
    some st.2) (⟨0, 1, 0, out⟩ : Q3KState F)
  some st.out

def dequantQ3K : List UInt8 → List F → Outcome DequantError (List F) :=
  dequantBlocks q3KBytes (dequantQ3KBlock half)

/-! ## `Q6_K` -/

/-- `(low as i32) | (high as i32) << 4` -/
def joinQ6 (low high : UInt8) : ℤ := (low.toNat ||| high.toNat <<< 4 : Nat)

/-- The four weights of one turn of the loop over a half. -/
def q6KTurn (d : F) (qlH qhH scH : List UInt8) (outH : List F) (l : Nat) : Option (List F) := do
  let qhh : UInt8 ← qhH[l]?
  let qa : UInt8 ← qlH[l]?
  let qb : UInt8 ← qlH[l + 32]?
  let q1 := joinQ6 (qa &&& 0x0F) (qhh &&& 0x03)
  let q2 := joinQ6 (qb &&& 0x0F) ((qhh >>> 2) &&& 0x03)
  let q3 := joinQ6 (qa >>> 4) ((qhh >>> 4) &&& 0x03)
  let q4 := joinQ6 (qb >>> 4) ((qhh >>> 6) &&& 0x03)
  let s1 := d * (((← scH[l / 16]?).toInt8.toInt : ℤ) : F)
  let s2 := d * (((← scH[2 + l / 16]?).toInt8.toInt : ℤ) : F)
  let s3 := d * (((← scH[4 + l / 16]?).toInt8.toInt : ℤ) : F)
  let s4 := d * (((← scH[6 + l / 16]?).toInt8.toInt : ℤ) : F)
  let outH ← put outH l (s1 * ((q1 - 32 : ℤ) : F))
  let outH ← put outH (l + 32) (s2 * ((q2 - 32 : ℤ) : F))
  let outH ← put outH (l + 64) (s3 * ((q3 - 32 : ℤ) : F))
  put outH (l + 96) (s4 * ((q4 - 32 : ℤ) : F))

def dequantQ6KBlock (src : List UInt8) (off : Nat) (out : List F) : Option (List F) := do
  let ql ← slice src off (off + 128)
  let qh ← slice src (off + 128) (off + 128 + 64)
  let scalesI8 ← slice src (off + 192) (off + 192 + 16)
  let d := half (← src[off + 208]?) (← src[off + 209]?)
  (range 2).foldlM (fun out i => do
    let qlH ← slice ql (i * 64) (i * 64 + 64)
    let qhH ← slice qh (i * 32) (i * 32 + 32)
    let scH ← slice scalesI8 (i * 8) (i * 8 + 8)
    let outH ← slice out (i * 128) (i * 128 + 128)
    let outH ← (range 32).foldlM (q6KTurn d qlH qhH scH) outH
    some (Rows.writeAt (i * 128) outH out)) out

def dequantQ6K : List UInt8 → List F → Outcome DequantError (List F) :=
  dequantBlocks q6KBytes (dequantQ6KBlock half)

end Model

end Gguf
end Rustorch

/-!
# The codes of a super-block

What the bytes of a super-block say, apart from its `f16` fields: a scale code for every sub-block,
in some formats a minimum code, and 256 weight codes.  Every stored bit is a bit of one of these
codes, so unpacking is a bijection (`codes_bijective`).
-/

namespace Rustorch
namespace Gguf

open BitPacking

inductive KQuant
  | q3_K | q4_K | q5_K | q6_K
  deriving DecidableEq, Repr

open KQuant

namespace KQuant

/-- The bytes of a super-block. -/
def blockBytes : KQuant → Nat
  | .q3_K => q3KBytes
  | .q4_K => q4KBytes
  | .q5_K => q5KBytes
  | .q6_K => q6KBytes

/-- The bytes of a super-block that are not of an `f16` field. -/
def packedBytes : KQuant → Nat
  | .q3_K => 32 + 64 + 12
  | .q4_K => 12 + 128
  | .q5_K => 12 + 32 + 128
  | .q6_K => 128 + 64 + 16

/-- Where they start. -/
def packedAt : KQuant → Nat
  | .q3_K | .q6_K => 0
  | .q4_K | .q5_K => 4

def subBlocks : KQuant → Nat
  | .q3_K | .q6_K => 16
  | .q4_K | .q5_K => 8

/-- The number of minimum codes. -/
def mins : KQuant → Nat
  | .q3_K | .q6_K => 0
  | .q4_K | .q5_K => 8

def scaleBits : KQuant → Nat
  | .q3_K | .q4_K | .q5_K => 6
  | .q6_K => 8

def weightBits : KQuant → Nat
  | .q3_K => 3
  | .q4_K => 4
  | .q5_K => 5
  | .q6_K => 6

end KQuant

/-- In-range codes of a super-block. -/
@[ext] structure Codes (q : KQuant) where
  scales : Fin q.subBlocks → BitVec q.scaleBits
  mins : Fin q.mins → BitVec 6
  weights : Fin 256 → BitVec q.weightBits

/-! ## The codes in the bytes of their fields

Weight `w` is weight `w % 32` of the row `w / 32`. -/

section Fields

/-- `sc[i]` of `unpack_q4_k_sc_m`. -/
def scCode (scales : Nat → UInt8) (i : Nat) : Nat :=
  if i < 4 then
    field (scales i) 0 6
  else
    join 4 (field (scales (i + 4)) 0 4) (field (scales (i - 4)) 6 2)

/-- `m[i]` of `unpack_q4_k_sc_m`. -/
def mCode (scales : Nat → UInt8) (i : Nat) : Nat :=
  if i < 4 then
    field (scales (i + 4)) 0 6
  else
    join 4 (field (scales (i + 4)) 4 4) (field (scales i) 6 2)

/-- Two rows share 32 bytes, the even row in the low nibbles. -/
def nibbleCode (qs : Nat → UInt8) (w : Nat) : Nat :=
  field (qs (w / 32 / 2 * 32 + w % 32)) (4 * (w / 32 % 2)) 4

/-- A nibble and a bit of `qh`; the row is the bit's place. -/
def q5Code (qh qs : Nat → UInt8) (w : Nat) : Nat :=
  join 4 (nibbleCode qs w) (field (qh (w % 32)) (w / 32) 1)

/-- Two bits of `qs`, in halves of four rows, and a bit of `hmask`. -/
def q3Code (hmask qs : Nat → UInt8) (w : Nat) : Nat :=
  join 2 (field (qs (w / 128 * 32 + w % 32)) (2 * (w / 32 % 4)) 2) (field (hmask (w % 32)) (w / 32) 1)

/-- A scale of `Q3_K`: a nibble of the first eight bytes and two bits of the last four. -/
def q3Scale (scales : Nat → UInt8) (i : Nat) : Nat :=
  join 4 (field (scales (i % 8)) (4 * (i / 8)) 4) (field (scales (8 + i % 4)) (2 * (i / 4)) 2)

/-- A nibble of `ql` and two bits of `qh`, in halves of four rows. -/
def q6Code (ql qh : Nat → UInt8) (w : Nat) : Nat :=
  join 4 (field (ql (w / 128 * 64 + w % 64)) (4 * (w / 64 % 2)) 4)
    (field (qh (w / 128 * 32 + w % 32)) (2 * (w / 32 % 4)) 2)

section Bounds

variable (b b' : Nat → UInt8) (i : Nat)

theorem scCode_lt : scCode b i < 2 ^ 6 := by
  rw [scCode]
  split_ifs
  · exact field_lt _ _ _
  · exact join_lt (u := 2) (field_lt _ _ _) (field_lt _ _ _)

theorem mCode_lt : mCode b i < 2 ^ 6 := by
  rw [mCode]
  split_ifs
  · exact field_lt _ _ _
  · exact join_lt (u := 2) (field_lt _ _ _) (field_lt _ _ _)

theorem nibbleCode_lt : nibbleCode b i < 2 ^ 4 :=
  field_lt _ _ _

theorem q5Code_lt : q5Code b b' i < 2 ^ 5 :=
  join_lt (u := 1) (nibbleCode_lt b' i) (field_lt _ _ _)

theorem q3Code_lt : q3Code b b' i < 2 ^ 3 :=
  join_lt (u := 1) (field_lt _ _ _) (field_lt _ _ _)

theorem q3Scale_lt : q3Scale b i < 2 ^ 6 :=
  join_lt (u := 2) (field_lt _ _ _) (field_lt _ _ _)

theorem q6Code_lt : q6Code b b' i < 2 ^ 6 :=
  join_lt (u := 2) (field_lt _ _ _) (field_lt _ _ _)

end Bounds

end Fields

/-! ## Unpacking -/

namespace KQuant

/-- The scale codes of the packed bytes. -/
def scaleCode : KQuant → (Nat → UInt8) → Nat → Nat
  | .q3_K, bytes => q3Scale fun k => bytes (96 + k)
  | .q4_K, bytes => scCode bytes
  | .q5_K, bytes => scCode bytes
  | .q6_K, bytes => fun i => field (bytes (192 + i)) 0 8

def minCode : KQuant → (Nat → UInt8) → Nat → Nat
  | .q4_K, bytes => mCode bytes
  | .q5_K, bytes => mCode bytes
  | _, _ => fun _ => 0

def weightCode : KQuant → (Nat → UInt8) → Nat → Nat
  | .q3_K, bytes => q3Code bytes fun k => bytes (32 + k)
  | .q4_K, bytes => nibbleCode fun k => bytes (12 + k)
  | .q5_K, bytes => q5Code (fun k => bytes (12 + k)) fun k => bytes (44 + k)
  | .q6_K, bytes => q6Code bytes fun k => bytes (128 + k)

theorem scaleCode_lt (q : KQuant) (bytes : Nat → UInt8) (i : Nat) :
    q.scaleCode bytes i < 2 ^ q.scaleBits := by
  cases q with
  | q3_K =>
    rw [scaleCode, scaleBits]
    exact q3Scale_lt _ i
  | q4_K => exact scCode_lt bytes i
  | q5_K => exact scCode_lt bytes i
  | q6_K => exact field_lt _ _ _

theorem minCode_lt (q : KQuant) (bytes : Nat → UInt8) (i : Nat) : q.minCode bytes i < 2 ^ 6 := by
  cases q with
  | q3_K => exact Nat.two_pow_pos 6
  | q4_K => exact mCode_lt bytes i
  | q5_K => exact mCode_lt bytes i
  | q6_K => exact Nat.two_pow_pos 6

theorem weightCode_lt (q : KQuant) (bytes : Nat → UInt8) (w : Nat) :
    q.weightCode bytes w < 2 ^ q.weightBits := by
  cases q with
  | q3_K =>
    rw [weightCode, weightBits]
    exact q3Code_lt _ _ w
  | q4_K =>
    rw [weightCode, weightBits]
    exact nibbleCode_lt _ w
  | q5_K =>
    rw [weightCode, weightBits]
    exact q5Code_lt _ _ w
  | q6_K =>
    rw [weightCode, weightBits]
    exact q6Code_lt _ _ w

end KQuant

/-- The byte at a place of a fixed-size array. -/
def byteAt {n : Nat} (bytes : Fin n → UInt8) (k : Nat) : UInt8 :=
  if h : k < n then bytes ⟨k, h⟩ else 0

theorem byteAt_val {n : Nat} (bytes : Fin n → UInt8) (k : Fin n) : byteAt bytes k = bytes k :=
  dif_pos k.isLt

/-- The codes that the packed bytes of a super-block hold. -/
def codes (q : KQuant) (bytes : Fin q.packedBytes → UInt8) : Codes q where
  scales i := BitVec.ofNat q.scaleBits (q.scaleCode (byteAt bytes) i)
  mins i := BitVec.ofNat 6 (q.minCode (byteAt bytes) i)
  weights w := BitVec.ofNat q.weightBits (q.weightCode (byteAt bytes) w)

/-! ## Every stored bit is a bit of a code -/

/-- A bit of the packed bytes that the codes determine. -/
def Readable (q : KQuant) (bit : (Nat → UInt8) → Bool) : Prop :=
  ∃ read : Codes q → Bool, ∀ bytes, read (codes q bytes) = bit (byteAt bytes)

section Readable

variable {q : KQuant} {bit : (Nat → UInt8) → Bool} {i j : Nat}

theorem readable_scale : i < q.subBlocks → j < q.scaleBits →
    (∀ bytes, (q.scaleCode bytes i).testBit j = bit bytes) → Readable q bit := by
  intro hi hj hbit
  refine ⟨fun c => (c.scales ⟨i, hi⟩).getLsbD j, ?_⟩
  intro bytes
  exact (getLsbD_code hj).trans (hbit _)

theorem readable_min : i < q.mins → j < 6 →
    (∀ bytes, (q.minCode bytes i).testBit j = bit bytes) → Readable q bit := by
  intro hi hj hbit
  refine ⟨fun c => (c.mins ⟨i, hi⟩).getLsbD j, ?_⟩
  intro bytes
  exact (getLsbD_code hj).trans (hbit _)

theorem readable_weight : i < 256 → j < q.weightBits →
    (∀ bytes, (q.weightCode bytes i).testBit j = bit bytes) → Readable q bit := by
  intro hi hj hbit
  refine ⟨fun c => (c.weights ⟨i, hi⟩).getLsbD j, ?_⟩
  intro bytes
  exact (getLsbD_code hj).trans (hbit _)

end Readable

section Bits

variable (b b' : Nat → UInt8) {k j : Nat}

theorem scCode_bit_low : k < 4 → j < 6 →
    (scCode b k).testBit j = (b k).toNat.testBit j := by
  intro hk hj
  rw [scCode, if_pos hk, testBit_field _ _ hj, zero_add]

theorem scCode_bit_nibble : 8 ≤ k → j < 4 →
    (scCode b (k - 4)).testBit j = (b k).toNat.testBit j := by
  intro hk hj
  rw [scCode, if_neg (by omega), testBit_join_low _ (field_lt _ _ _) hj,
    testBit_field _ _ hj, zero_add, Nat.sub_add_cancel (by omega)]

theorem scCode_bit_high : j < 2 →
    (scCode b (k + 4)).testBit (4 + j) = (b k).toNat.testBit (6 + j) := by
  intro hj
  rw [scCode, if_neg (by omega), testBit_join_high _ _ (field_lt _ _ _),
    testBit_field _ _ hj, Nat.add_sub_cancel]

theorem mCode_bit_low : k < 4 → j < 6 →
    (mCode b k).testBit j = (b (k + 4)).toNat.testBit j := by
  intro hk hj
  rw [mCode, if_pos hk, testBit_field _ _ hj, zero_add]

theorem mCode_bit_nibble : 8 ≤ k → j < 4 →
    (mCode b (k - 4)).testBit j = (b k).toNat.testBit (4 + j) := by
  intro hk hj
  rw [mCode, if_neg (by omega), testBit_join_low _ (field_lt _ _ _) hj,
    testBit_field _ _ hj, Nat.sub_add_cancel (by omega)]

theorem mCode_bit_high : 4 ≤ k → j < 2 →
    (mCode b k).testBit (4 + j) = (b k).toNat.testBit (6 + j) := by
  intro hk hj
  rw [mCode, if_neg (by omega), testBit_join_high _ _ (field_lt _ _ _), testBit_field _ _ hj]

theorem nibbleCode_bit : j < 8 →
    (nibbleCode b (k / 32 * 64 + j / 4 * 32 + k % 32)).testBit (j % 4) = (b k).toNat.testBit j := by
  intro hj
  have hbyte : (k / 32 * 64 + j / 4 * 32 + k % 32) / 32 / 2 * 32 +
      (k / 32 * 64 + j / 4 * 32 + k % 32) % 32 = k := by omega
  have hplace : 4 * ((k / 32 * 64 + j / 4 * 32 + k % 32) / 32 % 2) + j % 4 = j := by omega
  rw [nibbleCode, testBit_field _ _ (by omega), hbyte, hplace]

theorem q5Code_bit_low {w : Nat} : j < 4 →
    (q5Code b b' w).testBit j = (nibbleCode b' w).testBit j := by
  intro hj
  rw [q5Code, testBit_join_low _ (nibbleCode_lt _ _) hj]

theorem q5Code_bit_high : k < 32 → (q5Code b b' (j * 32 + k)).testBit 4 = (b k).toNat.testBit j := by
  intro hk
  have hrow : (j * 32 + k) / 32 = j := by omega
  have hcol : (j * 32 + k) % 32 = k := by omega
  rw [q5Code, testBit_join_high _ 0 (nibbleCode_lt _ _),
    testBit_field _ _ Nat.one_pos, hrow, hcol, Nat.add_zero]

/-- The byte and the place of a field of two bits that is one of four in its byte. -/
theorem quarter_field (hj : j < 8) :
    (k / 32 * 128 + j / 2 * 32 + k % 32) / 128 * 32 +
      (k / 32 * 128 + j / 2 * 32 + k % 32) % 32 = k ∧
    2 * ((k / 32 * 128 + j / 2 * 32 + k % 32) / 32 % 4) + j % 2 = j := by
  omega

theorem q3Code_bit_low : j < 8 →
    (q3Code b b' (k / 32 * 128 + j / 2 * 32 + k % 32)).testBit (j % 2) =
      (b' k).toNat.testBit j := by
  intro hj
  obtain ⟨hbyte, hplace⟩ := @quarter_field k j hj
  rw [q3Code, testBit_join_low _ (field_lt _ _ _) (by omega),
    testBit_field _ _ (by omega), hbyte, hplace]

theorem q3Code_bit_high : k < 32 → (q3Code b b' (j * 32 + k)).testBit 2 = (b k).toNat.testBit j := by
  intro hk
  have hrow : (j * 32 + k) / 32 = j := by omega
  have hcol : (j * 32 + k) % 32 = k := by omega
  rw [q3Code, testBit_join_high _ 0 (field_lt _ _ _),
    testBit_field _ _ Nat.one_pos, hrow, hcol, Nat.add_zero]

theorem q3Scale_bit_low : k < 8 → j < 8 →
    (q3Scale b (j / 4 * 8 + k)).testBit (j % 4) = (b k).toNat.testBit j := by
  intro hk hj
  have hbyte : (j / 4 * 8 + k) % 8 = k := by omega
  have hplace : 4 * ((j / 4 * 8 + k) / 8) + j % 4 = j := by omega
  rw [q3Scale, testBit_join_low _ (field_lt _ _ _) (by omega),
    testBit_field _ _ (by omega), hbyte, hplace]

theorem q3Scale_bit_high : k < 4 → j < 8 →
    (q3Scale b (j / 2 * 4 + k)).testBit (4 + j % 2) = (b (8 + k)).toNat.testBit j := by
  intro hk hj
  have hbyte : (j / 2 * 4 + k) % 4 = k := by omega
  have hplace : 2 * ((j / 2 * 4 + k) / 4) + j % 2 = j := by omega
  rw [q3Scale, testBit_join_high _ _ (field_lt _ _ _), testBit_field _ _ (by omega), hbyte, hplace]

theorem q6Code_bit_low : j < 8 →
    (q6Code b b' (k / 64 * 128 + j / 4 * 64 + k % 64)).testBit (j % 4) = (b k).toNat.testBit j := by
  intro hj
  have hbyte : (k / 64 * 128 + j / 4 * 64 + k % 64) / 128 * 64 +
      (k / 64 * 128 + j / 4 * 64 + k % 64) % 64 = k := by omega
  have hplace : 4 * ((k / 64 * 128 + j / 4 * 64 + k % 64) / 64 % 2) + j % 4 = j := by omega
  rw [q6Code, testBit_join_low _ (field_lt _ _ _) (by omega),
    testBit_field _ _ (by omega), hbyte, hplace]

theorem q6Code_bit_high : j < 8 →
    (q6Code b b' (k / 32 * 128 + j / 2 * 32 + k % 32)).testBit (4 + j % 2) =
      (b' k).toNat.testBit j := by
  intro hj
  obtain ⟨hbyte, hplace⟩ := @quarter_field k j hj
  rw [q6Code, testBit_join_high _ _ (field_lt _ _ _), testBit_field _ _ (by omega), hbyte, hplace]

end Bits

variable {k j : Nat}

theorem readable_scM {q : KQuant} (hsc : q.scaleCode = scCode) (hm : q.minCode = mCode)
    (hsub : q.subBlocks = 8) (hmins : q.mins = 8) (hbits : q.scaleBits = 6) : k < 12 → j < 8 →
      Readable q fun bytes => (bytes k).toNat.testBit j := by
  intro hk hj
  rcases lt_or_ge k 4 with hlow | hlow
  · rcases lt_or_ge j 6 with hj6 | hj6
    · refine readable_scale (i := k) (j := j) (by omega) (by omega) ?_
      intro b
      rw [hsc, scCode_bit_low b hlow hj6]
    · refine readable_scale (i := k + 4) (j := 4 + (j - 6)) (by omega) (by omega) ?_
      intro b
      rw [hsc, scCode_bit_high b (by omega), Nat.add_sub_cancel' hj6]
  · rcases lt_or_ge k 8 with hmid | hmid
    · rcases lt_or_ge j 6 with hj6 | hj6
      · refine readable_min (i := k - 4) (j := j) (by omega) hj6 ?_
        intro b
        rw [hm, mCode_bit_low b (by omega) hj6, Nat.sub_add_cancel hlow]
      · refine readable_min (i := k) (j := 4 + (j - 6)) (by omega) (by omega) ?_
        intro b
        rw [hm, mCode_bit_high b hlow (by omega), Nat.add_sub_cancel' hj6]
    · rcases lt_or_ge j 4 with hj4 | hj4
      · refine readable_scale (i := k - 4) (j := j) (by omega) (by omega) ?_
        intro b
        rw [hsc, scCode_bit_nibble b hmid hj4]
      · refine readable_min (i := k - 4) (j := j - 4) (by omega) (by omega) ?_
        intro b
        rw [hm, mCode_bit_nibble b hmid (by omega), Nat.add_sub_cancel' hj4]

theorem readable_q3 : k < q3_K.packedBytes → j < 8 →
    Readable .q3_K fun bytes => (bytes k).toNat.testBit j := by
  intro hk hj
  rw [packedBytes] at hk
  rcases lt_or_ge k 32 with hmask | hmask
  · refine readable_weight (i := j * 32 + k) (j := 2) (by omega) (by decide) ?_
    intro b
    rw [weightCode, q3Code_bit_high b (fun k => b (32 + k)) hmask]
  · rcases lt_or_ge k 96 with hqs | hqs
    · refine readable_weight (i := (k - 32) / 32 * 128 + j / 2 * 32 + (k - 32) % 32) (j := j % 2)
        (by omega) (by rw [weightBits]; omega) ?_
      intro b
      rw [weightCode, q3Code_bit_low b (fun k => b (32 + k)) hj, Nat.add_sub_cancel' hmask]
    · rcases lt_or_ge k 104 with hlow | hlow
      · refine readable_scale (i := j / 4 * 8 + (k - 96)) (j := j % 4)
          (by rw [subBlocks]; omega) (by rw [scaleBits]; omega) ?_
        intro b
        rw [scaleCode, q3Scale_bit_low (fun k => b (96 + k)) (by omega) hj, Nat.add_sub_cancel' hqs]
      · refine readable_scale (i := j / 2 * 4 + (k - 104)) (j := 4 + j % 2)
          (by rw [subBlocks]; omega) (by rw [scaleBits]; omega) ?_
        intro b
        rw [scaleCode, q3Scale_bit_high (fun k => b (96 + k)) (by omega) hj,
          ← Nat.add_assoc, Nat.add_sub_cancel' hlow]

theorem readable_q4 : k < q4_K.packedBytes → j < 8 →
    Readable .q4_K fun bytes => (bytes k).toNat.testBit j := by
  intro hk hj
  rw [packedBytes] at hk
  rcases lt_or_ge k 12 with hscM | hscM
  · exact readable_scM rfl rfl rfl rfl rfl hscM hj
  · refine readable_weight (i := (k - 12) / 32 * 64 + j / 4 * 32 + (k - 12) % 32) (j := j % 4)
      (by omega) (by rw [weightBits]; omega) ?_
    intro b
    rw [weightCode, nibbleCode_bit (fun k => b (12 + k)) hj, Nat.add_sub_cancel' hscM]

theorem readable_q5 : k < q5_K.packedBytes → j < 8 →
    Readable .q5_K fun bytes => (bytes k).toNat.testBit j := by
  intro hk hj
  rw [packedBytes] at hk
  rcases lt_or_ge k 12 with hscM | hscM
  · exact readable_scM rfl rfl rfl rfl rfl hscM hj
  · rcases lt_or_ge k 44 with hqh | hqh
    · refine readable_weight (i := j * 32 + (k - 12)) (j := 4) (by omega) (by decide) ?_
      intro b
      rw [weightCode, q5Code_bit_high (fun k => b (12 + k)) (fun k => b (44 + k)) (by omega),
        Nat.add_sub_cancel' hscM]
    · refine readable_weight (i := (k - 44) / 32 * 64 + j / 4 * 32 + (k - 44) % 32) (j := j % 4)
        (by omega) (by rw [weightBits]; omega) ?_
      intro b
      rw [weightCode, q5Code_bit_low (fun k => b (12 + k)) (fun k => b (44 + k)) (by omega),
        nibbleCode_bit (fun k => b (44 + k)) hj, Nat.add_sub_cancel' hqh]

theorem readable_q6 : k < q6_K.packedBytes → j < 8 →
    Readable .q6_K fun bytes => (bytes k).toNat.testBit j := by
  intro hk hj
  rw [packedBytes] at hk
  rcases lt_or_ge k 128 with hql | hql
  · refine readable_weight (i := k / 64 * 128 + j / 4 * 64 + k % 64) (j := j % 4)
      (by omega) (by rw [weightBits]; omega) ?_
    intro b
    rw [weightCode, q6Code_bit_low b (fun k => b (128 + k)) hj]
  · rcases lt_or_ge k 192 with hqh | hqh
    · refine readable_weight (i := (k - 128) / 32 * 128 + j / 2 * 32 + (k - 128) % 32)
        (j := 4 + j % 2) (by omega) (by rw [weightBits]; omega) ?_
      intro b
      rw [weightCode, q6Code_bit_high b (fun k => b (128 + k)) hj, Nat.add_sub_cancel' hql]
    · refine readable_scale (i := k - 192) (j := j) (by rw [subBlocks]; omega)
        (by rw [scaleBits]; omega) ?_
      intro b
      rw [scaleCode, testBit_field _ _ hj, zero_add, Nat.add_sub_cancel' hqh]

theorem readable_bit (q : KQuant) : k < q.packedBytes → j < 8 →
    Readable q fun bytes => (bytes k).toNat.testBit j := by
  cases q with
  | q3_K => exact readable_q3
  | q4_K => exact readable_q4
  | q5_K => exact readable_q5
  | q6_K => exact readable_q6

/-! ## Unpacking is a bijection -/

def Codes.equivProd (q : KQuant) : Codes q ≃
    (Fin q.subBlocks → BitVec q.scaleBits) × (Fin q.mins → BitVec 6) ×
      (Fin 256 → BitVec q.weightBits) where
  toFun c := (c.scales, c.mins, c.weights)
  invFun t := ⟨t.1, t.2.1, t.2.2⟩
  left_inv _ := rfl
  right_inv _ := rfl

instance (q : KQuant) : Finite (Codes q) := by
  have hbits : ∀ w : Nat, Finite (BitVec w) := fun w => Finite.of_equiv _ BitVec.equivFin.symm.toEquiv
  exact Finite.of_equiv _ (Codes.equivProd q).symm

theorem card_codes (q : KQuant) : Nat.card (Codes q) = 256 ^ q.packedBytes := by
  have hfun : ∀ n w : Nat, Nat.card (Fin n → BitVec w) = 2 ^ (w * n) := by
    intro n w
    rw [Nat.card_pi, Finset.prod_const, card_bitVec, Finset.card_univ, Fintype.card_fin,
      Nat.pow_mul]
  have hbits : q.scaleBits * q.subBlocks + (6 * q.mins + q.weightBits * 256) = 8 * q.packedBytes := by
    cases q <;> rfl
  rw [Nat.card_congr (Codes.equivProd q), Nat.card_prod, Nat.card_prod, hfun, hfun, hfun,
    ← Nat.pow_add, ← Nat.pow_add, hbits, Nat.pow_mul]

theorem codes_bijective (q : KQuant) : Function.Bijective (codes q) := by
  refine bijective_of_bits (card_codes q).le ?_
  intro i j hj
  obtain ⟨read, hread⟩ := readable_bit q i.isLt hj
  refine ⟨read, ?_⟩
  intro bytes
  rw [hread bytes]
  exact congrArg (fun x : UInt8 => x.toNat.testBit j) (byteAt_val bytes i)

end Gguf
end Rustorch
