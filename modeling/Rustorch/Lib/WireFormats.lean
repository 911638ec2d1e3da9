import Rustorch.Lib.LittleEndian

/-!
# Checksummed records

A record is the length of a payload in 8 bytes, a checksum of these bytes, the payload, and a
checksum of the payload; the checksums have 4 bytes.  Records are put end to end.

- `unframe_frames` : the payloads come back in order
-/

namespace RecordFrames

open List

open LittleEndian (toBytes ofBytes readBytes readBytes_append)

variable (check : List UInt8 → UInt32)

def frame (payload : List UInt8) : List UInt8 :=
  let lenBytes := toBytes 8 payload.length
  lenBytes ++ toBytes 4 (check lenBytes).toNat ++ payload ++ toBytes 4 (check payload).toNat

/-- One record, whose checksums have to be right. -/
def readFrame (bytes : List UInt8) : Option (List UInt8 × List UInt8) := do
  let (lenBytes, rest) ← readBytes 8 bytes
  let (lenCheck, rest) ← readBytes 4 rest
  guard (ofBytes lenCheck = (check lenBytes).toNat)
  let (payload, rest) ← readBytes (ofBytes lenBytes) rest
  let (payloadCheck, rest) ← readBytes 4 rest
  guard (ofBytes payloadCheck = (check payload).toNat)
  return (payload, rest)

def unframeLoop : Nat → List UInt8 → Option (List (List UInt8))
  | _, [] => some []
  | 0, _ :: _ => none
  | fuel + 1, b :: bytes => do
    let (payload, rest) ← readFrame check (b :: bytes)
    let payloads ← unframeLoop fuel rest
    return payload :: payloads

/-- The payloads of all records, to the end of the input. -/
def unframe (bytes : List UInt8) : Option (List (List UInt8)) :=
  unframeLoop check bytes.length bytes

variable {check} {payload : List UInt8}

theorem readFrame_frame (hlen : payload.length < 2 ^ 64) (rest : List UInt8) :
    readFrame check (frame check payload ++ rest) = some (payload, rest) := by
  have hlength : payload.length < 256 ^ 8 := hlen
  have hcheck : ∀ bs, (check bs).toNat < 256 ^ 4 := fun bs => (check bs).toNat_lt
  have height : (toBytes 8 payload.length).length = 8 := LittleEndian.length_toBytes _ _
  have hfour : ∀ n, (toBytes 4 n).length = 4 := fun n => LittleEndian.length_toBytes _ _
  unfold readFrame frame
  simp only [append_assoc]
  rw [readBytes_append height]
  simp only [Option.bind_eq_bind, Option.bind_some]
  rw [readBytes_append (hfour _)]
  simp only [Option.bind_some, LittleEndian.ofBytes_toBytes (hcheck _),
    LittleEndian.ofBytes_toBytes hlength]
  rw [readBytes_append rfl]
  simp only [Option.bind_some]
  rw [readBytes_append (hfour _)]
  simp [guard, LittleEndian.ofBytes_toBytes (hcheck payload)]

theorem frame_length : payload.length + 16 = (frame check payload).length := by
  unfold frame
  simp only [length_append, LittleEndian.length_toBytes]
  omega

/-- Records put end to end come apart again. -/
theorem unframe_frames (payloads : List (List UInt8))
    (hlen : ∀ payload ∈ payloads, payload.length < 2 ^ 64) :
    unframe check (payloads.flatMap (frame check)) = some payloads := by
  have hloop : ∀ (payloads : List (List UInt8)) (fuel : Nat),
      (∀ payload ∈ payloads, payload.length < 2 ^ 64) →
        (payloads.flatMap (frame check)).length ≤ fuel →
          unframeLoop check fuel (payloads.flatMap (frame check)) = some payloads := by
    intro payloads
    induction payloads with
    | nil =>
      intro fuel _ _
      cases fuel with
      | zero => rfl
      | succ fuel => rfl
    | cons payload payloads ih =>
      intro fuel hlen hfuel
      obtain ⟨hp, hps⟩ := forall_mem_cons.1 hlen
      rw [flatMap_cons] at hfuel ⊢
      have hread := @readFrame_frame check payload hp (payloads.flatMap (frame check))
      have hlong := @frame_length check payload
      cases hbytes : frame check payload with
      | nil =>
        rw [hbytes] at hlong
        cases hlong
      | cons b bs =>
        rw [hbytes] at hread hfuel
        rw [cons_append] at hread ⊢
        cases fuel with
        | zero => simp at hfuel
        | succ fuel =>
          -- A frame takes at least one byte, so the fuel lasts.
          have hrest : (payloads.flatMap (frame check)).length ≤ fuel := by
            rw [cons_append, length_cons, length_append] at hfuel
            omega
          rw [unframeLoop, hread]
          change (unframeLoop check fuel (payloads.flatMap (frame check))).bind _ = _
          rw [ih fuel hps hrest]
          rfl
  exact hloop payloads _ hlen (le_refl _)

end RecordFrames

/-!
# The protobuf wire format

A message is a list of fields, each a key and a value: a varint, 4 or 8 bytes, or a length and so
many bytes.  A varint has seven bits a byte, the lowest first, with the top bit set on every byte
but the last.

- `decodeVarint_encode` : what is encoded is decoded, whatever follows it
- `decodeFields_encode` : a message is decoded to its fields
-/

namespace ProtoWire

open LittleEndian (toBytes ofBytes readBytes readBytes_append)

/-! ## Varints -/

def encodeVarint (n : Nat) : List UInt8 :=
  if n < 128 then [UInt8.ofNat n] else UInt8.ofNat (n % 128 + 128) :: encodeVarint (n / 128)
termination_by n

/-- A varint of at most `k` bytes. -/
def decodeVarint : Nat → List UInt8 → Option (Nat × List UInt8)
  | 0, _ => none
  | _, [] => none
  | k + 1, b :: bytes =>
    if b.toNat < 128 then
      some (b.toNat, bytes)
    else
      (decodeVarint k bytes).map fun (n, rest) => (b.toNat - 128 + 128 * n, rest)

/-- A 64-bit varint has ten bytes at most; the bits past the 64th are dropped. -/
def readVarint (bytes : List UInt8) : Option (Nat × List UInt8) :=
  (decodeVarint 10 bytes).map fun (n, rest) => (n % 2 ^ 64, rest)

theorem decodeVarint_encode {k : Nat} (rest : List UInt8) : ∀ n, n < 128 ^ (k + 1) →
    decodeVarint (k + 1) (encodeVarint n ++ rest) = some (n, rest) := by
  have hlast : ∀ (k n : Nat), n < 128 →
      decodeVarint (k + 1) ([UInt8.ofNat n] ++ rest) = some (n, rest) := by
    intro k n hlt
    have hbyte : (UInt8.ofNat n).toNat = n := UInt8.toNat_ofNat_of_lt' (by
      rw [UInt8.size]
      omega)
    rw [List.singleton_append, decodeVarint, hbyte, if_pos hlt]
  induction k with
  | zero =>
    intro n hn
    have hlt : n < 128 := by simpa using hn
    rw [encodeVarint, if_pos hlt]
    exact hlast 0 n hlt
  | succ k ih =>
    intro n hn
    rw [encodeVarint]
    split
    · next hlt => exact hlast (k + 1) n hlt
    · next hge =>
        have hbyte : (UInt8.ofNat (n % 128 + 128)).toNat = n % 128 + 128 :=
          UInt8.toNat_ofNat_of_lt' (by
            rw [UInt8.size]
            omega)
        have hdiv : n / 128 < 128 ^ (k + 1) := by
          apply Nat.div_lt_of_lt_mul
          rwa [pow_succ, Nat.mul_comm] at hn
        rw [List.cons_append, decodeVarint, hbyte, if_neg (by omega), ih _ hdiv, Option.map_some]
        simp only [Nat.add_sub_cancel, Nat.mod_add_div]

theorem readVarint_encode {n : Nat} (hn : n < 2 ^ 64) (rest : List UInt8) :
    readVarint (encodeVarint n ++ rest) = some (n, rest) := by
  have hlt : n < 128 ^ (9 + 1) := hn.trans (by decide)
  rw [readVarint, decodeVarint_encode rest n hlt, Option.map_some]
  simp only [Nat.mod_eq_of_lt hn]

theorem encodeVarint_inj_of_append {m n : Nat} {t : List UInt8} (hm : m < 2 ^ 64)
    (hn : n < 2 ^ 64) : encodeVarint m ++ t = encodeVarint n → m = n := by
  intro h
  have hread := readVarint_encode hn []
  rw [List.append_nil, ← h, readVarint_encode hm] at hread
  exact congrArg Prod.fst (Option.some.inj hread)

theorem length_encodeVarint_le {k : Nat} : ∀ {n}, n < 128 ^ (k + 1) →
    (encodeVarint n).length ≤ k + 1 := by
  induction k with
  | zero =>
    intro n hn
    rw [encodeVarint, if_pos (by simpa using hn)]
    exact le_refl 1
  | succ k ih =>
    intro n hn
    rw [encodeVarint]
    split
    · exact Nat.le_add_left _ _
    · rw [List.length_cons]
      apply Nat.succ_le_succ
      apply ih
      apply Nat.div_lt_of_lt_mul
      rwa [pow_succ, Nat.mul_comm] at hn

theorem encodeVarint_ne_nil (n : Nat) : encodeVarint n ≠ [] := by
  rw [encodeVarint]
  split
  · exact List.cons_ne_nil _ _
  · exact List.cons_ne_nil _ _

/-! ## Fields -/

inductive Value
  | varint (n : Nat)
  | fixed64 (n : Nat)
  | bytes (bs : List UInt8)
  | fixed32 (n : Nat)
  deriving DecidableEq

structure Field where
  number : Nat
  value : Value
  deriving DecidableEq

def Value.wireType : Value → Nat
  | .varint _ => 0
  | .fixed64 _ => 1
  | .bytes _ => 2
  | .fixed32 _ => 5

def Value.encode : Value → List UInt8
  | .varint n => encodeVarint n
  | .fixed64 n => toBytes 8 n
  | .bytes bs => encodeVarint bs.length ++ bs
  | .fixed32 n => toBytes 4 n

def Field.encode (f : Field) : List UInt8 :=
  encodeVarint (f.number * 8 + f.value.wireType) ++ f.value.encode

def decodeValue (wireType : Nat) (bytes : List UInt8) : Option (Value × List UInt8) :=
  match wireType with
  | 0 => (readVarint bytes).map fun (n, rest) => (.varint n, rest)
  | 1 => (readBytes 8 bytes).map fun (bs, rest) => (.fixed64 (ofBytes bs), rest)
  | 2 => do
    let (n, rest) ← readVarint bytes
    let (bs, rest) ← readBytes n rest
    return (.bytes bs, rest)
  | 5 => (readBytes 4 bytes).map fun (bs, rest) => (.fixed32 (ofBytes bs), rest)
  | _ => none

/-- A field number is positive. -/
def decodeField (bytes : List UInt8) : Option (Field × List UInt8) := do
  let (key, rest) ← readVarint bytes
  guard (key / 8 ≠ 0)
  let (value, rest) ← decodeValue (key % 8) rest
  return ({ number := key / 8, value := value }, rest)

/-- The fields of at most so many bytes, to the end of the input. -/
def decodeFieldsLoop : Nat → List UInt8 → Option (List Field)
  | _, [] => some []
  | 0, _ :: _ => none
  | fuel + 1, b :: bytes => do
    let (f, rest) ← decodeField (b :: bytes)
    let fs ← decodeFieldsLoop fuel rest
    return f :: fs

def decodeFields (bytes : List UInt8) : Option (List Field) :=
  decodeFieldsLoop bytes.length bytes

/-- The numbers fit their encodings. -/
def Value.Fits : Value → Prop
  | .varint n => n < 2 ^ 64
  | .fixed64 n => n < 2 ^ 64
  | .bytes bs => bs.length < 2 ^ 64
  | .fixed32 n => n < 2 ^ 32

structure Field.Fits (f : Field) : Prop where
  number : 0 < f.number ∧ f.number < 2 ^ 29
  value : f.value.Fits

theorem decodeValue_encode {v : Value} (hv : v.Fits) (rest : List UInt8) :
    decodeValue v.wireType (v.encode ++ rest) = some (v, rest) := by
  cases v with
  | varint n =>
    have hn : n < 2 ^ 64 := hv
    simp only [Value.wireType, Value.encode, decodeValue, readVarint_encode hn, Option.map_some]
  | fixed64 n =>
    have hn : n < 256 ^ 8 := hv
    simp only [Value.wireType, Value.encode, decodeValue, readBytes_append (LittleEndian.length_toBytes _ n),
      Option.map_some,
      LittleEndian.ofBytes_toBytes hn]
  | bytes bs =>
    have hlen : bs.length < 2 ^ 64 := hv
    simp only [Value.wireType, Value.encode, decodeValue, List.append_assoc,
      readVarint_encode hlen, readBytes_append rfl, Option.bind_eq_bind, Option.bind_some]
    rfl
  | fixed32 n =>
    have hn : n < 256 ^ 4 := hv
    simp only [Value.wireType, Value.encode, decodeValue, readBytes_append (LittleEndian.length_toBytes _ n),
      Option.map_some,
      LittleEndian.ofBytes_toBytes hn]

theorem wireType_lt (v : Value) : v.wireType < 8 := by
  unfold Value.wireType
  split
  · decide
  · decide
  · decide
  · decide

theorem decodeField_encode {f : Field} (hf : f.Fits) (rest : List UInt8) :
    decodeField (f.encode ++ rest) = some (f, rest) := by
  obtain ⟨hpos, hlt⟩ := hf.number
  have htype := wireType_lt f.value
  have hdiv : (f.number * 8 + f.value.wireType) / 8 = f.number := by omega
  have hmod : (f.number * 8 + f.value.wireType) % 8 = f.value.wireType := by omega
  unfold decodeField Field.encode
  rw [List.append_assoc, readVarint_encode (by omega)]
  simp only [Option.bind_eq_bind, Option.bind_some, hdiv, hmod]
  rw [decodeValue_encode hf.value]
  simp [guard, hpos.ne']

theorem encode_ne_nil (f : Field) : f.encode ≠ [] := by
  exact List.append_ne_nil_of_left_ne_nil (encodeVarint_ne_nil _) _

theorem decodeFields_encode (fs : List Field) (hfs : ∀ f ∈ fs, f.Fits) :
    decodeFields (fs.flatMap Field.encode) = some fs := by
  have hloop : ∀ (fs : List Field) (fuel : Nat), (∀ f ∈ fs, f.Fits) →
      (fs.flatMap Field.encode).length ≤ fuel →
        decodeFieldsLoop fuel (fs.flatMap Field.encode) = some fs := by
    intro fs
    induction fs with
    | nil =>
      intro fuel _ _
      cases fuel with
      | zero => rfl
      | succ fuel => rfl
    | cons f fs ih =>
      intro fuel hfs hlen
      obtain ⟨hf, hfs⟩ := List.forall_mem_cons.1 hfs
      rw [List.flatMap_cons] at hlen ⊢
      have hdecode := decodeField_encode hf (fs.flatMap Field.encode)
      cases hbytes : f.encode with
      | nil => exact absurd hbytes (encode_ne_nil f)
      | cons b bs =>
        rw [hbytes] at hdecode hlen
        rw [List.cons_append] at hdecode ⊢
        cases fuel with
        | zero => simp at hlen
        | succ fuel =>
          -- A field takes at least one byte, so the fuel lasts.
          have hrest : (fs.flatMap Field.encode).length ≤ fuel := by
            rw [List.cons_append, List.length_cons, List.length_append] at hlen
            omega
          rw [decodeFieldsLoop, hdecode]
          change (decodeFieldsLoop fuel (fs.flatMap Field.encode)).bind _ = _
          rw [ih fuel hfs hrest]
          rfl
  exact hloop fs _ hfs (le_refl _)

end ProtoWire
