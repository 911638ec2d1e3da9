import Rustorch.Lib.WireFormats
import Rustorch.Serde.Safetensors

/-!
# TensorBoard event files

`external.rs`: the sink appends one record for each metric, with an `Event` message that is put
together by hand.  Floats are their bits; `asF64` and `asF32` are the casts, and `hash` is the
CRC-32 of the `crc32fast` crate, any function of bytes.  The reader is written from the framing and
the wire format, and takes the last value of a field as they ask for.
-/

namespace Rustorch
namespace Log

open List Option

open LittleEndian (toBytes)
open ProtoWire (Field Value encodeVarint)

/-- A string has at most `isize::MAX` bytes. -/
structure Metric where
  name : String
  value : UInt64
  step : Int64
  timestamp : Int64
  name_lt : (Serde.utf8 name).length < 2 ^ 63

/-- The sink skips events of the other kinds. -/
inductive LogEvent
  | metric (m : Metric)
  | other

/-! ## The sink -/

section Sink

variable (asF64 : Int64 → UInt64) (asF32 : UInt64 → UInt32) (hash : List UInt8 → UInt32)

def writeVarint (v : UInt64) : List UInt8 :=
  if v ≥ 0x80 then (v.toUInt8 ||| 0x80) :: writeVarint (v >>> 7) else [v.toUInt8]
termination_by v.toNat
decreasing_by
  rename_i h
  have hge : 128 ≤ v.toNat := h
  rw [UInt64.toNat_shiftRight]
  change v.toNat >>> 7 < v.toNat
  rw [Nat.shiftRight_eq_div_pow]
  omega

/-- A length as a `u64`. -/
def lenVarint (bs : List UInt8) : List UInt8 :=
  writeVarint (UInt64.ofNat bs.length)

def encodeEvent (wallTime : UInt64) (step : Int64) (tag : String) (value : UInt64) : List UInt8 :=
  let tagBytes := Serde.utf8 tag
  let v := [((1 : UInt8) <<< 3) ||| 2] ++ lenVarint tagBytes ++ tagBytes ++
    [((2 : UInt8) <<< 3) ||| 5] ++ toBytes 4 (asF32 value).toNat
  let summary := [((1 : UInt8) <<< 3) ||| 2] ++ lenVarint v ++ v
  [((1 : UInt8) <<< 3) ||| 1] ++ toBytes 8 wallTime.toNat ++
    [(2 : UInt8) <<< 3] ++ writeVarint step.toUInt64 ++
    [((5 : UInt8) <<< 3) ||| 2] ++ lenVarint summary ++ summary

def rotateRight15 (crc : UInt32) : UInt32 :=
  (crc >>> 15) ||| (crc <<< 17)

def maskCrc (crc : UInt32) : UInt32 :=
  rotateRight15 crc + 0xa282ead8

def wrapRecord (payload : List UInt8) : List UInt8 :=
  let lenBytes := toBytes 8 (UInt64.ofNat payload.length).toNat
  let lenCrc := maskCrc (hash lenBytes)
  let payCrc := maskCrc (hash payload)
  lenBytes ++ toBytes 4 lenCrc.toNat ++ payload ++ toBytes 4 payCrc.toNat

/-- What a submitted event appends to the file. -/
def submit : LogEvent → List UInt8
  | .metric m => wrapRecord hash (encodeEvent asF32 (asF64 m.timestamp) m.step m.name m.value)
  | .other => []

end Sink

/-! ## The reader -/

/-- One scalar of an event file. -/
structure Scalar where
  wallTime : UInt64
  step : Int64
  tag : String
  value : UInt32
  deriving DecidableEq

/-- The last value that a field of the message has, read by `pick`. -/
def lastOf {β : Type} (pick : Value → Option β) (number : Nat) (fields : List Field) : Option β :=
  (fields.filterMap fun f => if f.number = number then pick f.value else none).getLast?

def Value.varint? : Value → Option Nat
  | .varint n => some n
  | _ => none

open Value

def Value.fixed64? : Value → Option Nat
  | .fixed64 n => some n
  | _ => none

def Value.bytes? : Value → Option (List UInt8)
  | .bytes bs => some bs
  | _ => none

def Value.fixed32? : Value → Option Nat
  | .fixed32 n => some n
  | _ => none

def decodeUtf8 (bs : List UInt8) : Option String :=
  String.fromUTF8? ⟨bs.toArray⟩

/-- `Value { string tag = 1; float simple_value = 2; }` -/
def readValue (wallTime : UInt64) (step : Int64) (bs : List UInt8) : Option Scalar := do
  let fields ← ProtoWire.decodeFields bs
  let tag ← decodeUtf8 ((lastOf bytes? 1 fields).getD [])
  return {
    wallTime := wallTime
    step := step
    tag := tag
    value := UInt32.ofNat ((lastOf fixed32? 2 fields).getD 0) }

/-- `Event { double wall_time = 1; int64 step = 2; Summary summary = 5; }` with
`Summary { repeated Value value = 1; }` -/
def readEvent (payload : List UInt8) : Option (List Scalar) := do
  let fields ← ProtoWire.decodeFields payload
  let wallTime := UInt64.ofNat ((lastOf fixed64? 1 fields).getD 0)
  let step := (UInt64.ofNat ((lastOf varint? 2 fields).getD 0)).toInt64
  let summary ← ProtoWire.decodeFields ((lastOf bytes? 5 fields).getD [])
  let values := summary.filterMap fun f => if f.number = 1 then bytes? f.value else none
  values.mapM (readValue wallTime step)

/-- All scalars of a file, in order. -/
def readFile (hash : List UInt8 → UInt32) (bytes : List UInt8) : Option (List Scalar) := do
  let payloads ← RecordFrames.unframe (fun bs => maskCrc (hash bs)) bytes
  let events ← payloads.mapM readEvent
  return events.flatten

/-! ## What is written is read back -/

theorem or_0x80 (b : UInt8) : b ||| 0x80 = UInt8.ofNat (b.toNat % 128 + 128) := by
  have hbytes : ∀ n < 256, n ||| 128 = n % 128 + 128 := by decide +kernel
  apply UInt8.toNat_inj.1
  rw [UInt8.toNat_or, UInt8.toNat_ofNat_of_lt' (by rw [UInt8.size]; omega)]
  exact hbytes b.toNat b.toNat_lt

theorem writeVarint_eq (v : UInt64) : writeVarint v = encodeVarint v.toNat := by
  induction v using writeVarint.induct with
  | case1 v hge ih =>
    have hle : 128 ≤ v.toNat := hge
    have hbyte : v.toUInt8.toNat % 128 = v.toNat % 128 := by
      rw [UInt64.toNat_toUInt8]
      omega
    have hshift : (v >>> 7).toNat = v.toNat / 128 := by
      exact Nat.shiftRight_eq_div_pow _ _
    rw [writeVarint, if_pos hge, encodeVarint, if_neg (by omega), ih, or_0x80, hbyte, hshift]
  | case2 v hlt =>
    have hnat : v.toNat < 128 := Nat.lt_of_not_le hlt
    rw [writeVarint, if_neg hlt, encodeVarint, if_pos hnat]
    rfl

theorem lenVarint_eq {bs : List UInt8} (hlen : bs.length < 2 ^ 64) :
    lenVarint bs = encodeVarint bs.length := by
  rw [lenVarint, writeVarint_eq, UInt64.toNat_ofNat_of_lt' hlen]

theorem decodeUtf8_utf8 (text : String) : decodeUtf8 (Serde.utf8 text) = some text := by
  have hbytes : (⟨(Serde.utf8 text).toArray⟩ : ByteArray) = text.toByteArray := by
    rfl
  rw [decodeUtf8, hbytes, String.fromUTF8?, dif_pos text.isValidUTF8]
  rfl

section RoundTrip

variable {asF64 : Int64 → UInt64} {asF32 : UInt64 → UInt32} {hash : List UInt8 → UInt32}

/-- The fields of `Value`. -/
def valueFields (tag : String) (value : UInt32) : List Field :=
  [⟨1, .bytes (Serde.utf8 tag)⟩, ⟨2, .fixed32 value.toNat⟩]

/-- The fields of `Summary`. -/
def summaryFields (tag : String) (value : UInt32) : List Field :=
  [⟨1, .bytes ((valueFields tag value).flatMap Field.encode)⟩]

/-- The fields of `Event`. -/
def eventFields (wallTime : UInt64) (step : Int64) (tag : String) (value : UInt32) : List Field :=
  [⟨1, .fixed64 wallTime.toNat⟩, ⟨2, .varint step.toUInt64.toNat⟩,
    ⟨5, .bytes ((summaryFields tag value).flatMap Field.encode)⟩]

theorem encode_field (number : Nat) (key : UInt8) {value : Value}
    (hkey : number * 8 + value.wireType = key.toNat) (hlt : key.toNat < 128) :
    Field.encode ⟨number, value⟩ = key :: value.encode := by
  rw [Field.encode, hkey, encodeVarint, if_pos hlt, UInt8.ofNat_toNat]
  rfl

theorem length_encode_bytes (number : Nat) (key : UInt8) {bs : List UInt8}
    (hkey : number * 8 + 2 = key.toNat) (hlt : key.toNat < 128) (hlen : bs.length < 2 ^ 64) :
    (Field.encode ⟨number, .bytes bs⟩).length ≤ bs.length + 11 := by
  have hvarint := ProtoWire.length_encodeVarint_le (k := 9) (hlen.trans (by decide))
  rw [@encode_field number key (.bytes bs) hkey hlt, Value.encode, length_cons, length_append]
  omega

theorem encode_bytes_field (number : Nat) (key : UInt8) {bs : List UInt8}
    (hkey : number * 8 + 2 = key.toNat) (hlt : key.toNat < 128) (hlen : bs.length < 2 ^ 64) :
    [key] ++ lenVarint bs ++ bs = Field.encode ⟨number, .bytes bs⟩ := by
  rw [@encode_field number key (.bytes bs) hkey hlt, Value.encode, lenVarint_eq hlen]
  rfl

variable {wallTime : UInt64} {step : Int64} {tag : String} {value : UInt32}

section

variable (htag : (Serde.utf8 tag).length < 2 ^ 63)

include htag

theorem length_valueFields :
    ((valueFields tag value).flatMap Field.encode).length < 2 ^ 63 + 16 := by
  have htagField := @length_encode_bytes 1 10 (Serde.utf8 tag) rfl (by decide) (by omega)
  have hvalueField : (Field.encode ⟨2, .fixed32 value.toNat⟩).length = 5 := by
    rw [encode_field 2 21 rfl (by decide), Value.encode, length_cons, LittleEndian.length_toBytes]
  simp only [valueFields, flatMap_cons, flatMap_nil, length_append, length_nil]
  omega

theorem length_summaryFields :
    ((summaryFields tag value).flatMap Field.encode).length < 2 ^ 63 + 27 := by
  have hvalue := @length_valueFields tag value htag
  have hfield := @length_encode_bytes 1 10 ((valueFields tag value).flatMap Field.encode)
    rfl (by decide) (by omega)
  simp only [summaryFields, flatMap_cons, flatMap_nil, append_nil]
  omega

theorem encodeEvent_eq {value : UInt64} :
    encodeEvent asF32 wallTime step tag value =
      (eventFields wallTime step tag (asF32 value)).flatMap Field.encode := by
  have hkeys : 21 = (((2 : UInt8) <<< 3) ||| 5).toNat ∧ 9 = (((1 : UInt8) <<< 3) ||| 1).toNat ∧
      16 = ((2 : UInt8) <<< 3).toNat := by decide
  have hv : [((1 : UInt8) <<< 3) ||| 2] ++ lenVarint (Serde.utf8 tag) ++ Serde.utf8 tag ++
      [((2 : UInt8) <<< 3) ||| 5] ++ toBytes 4 (asF32 value).toNat =
        (valueFields tag (asF32 value)).flatMap Field.encode := by
    rw [encode_bytes_field 1 _ rfl (by decide) (by omega)]
    simp only [valueFields, flatMap_cons, flatMap_nil, append_assoc, append_nil]
    rw [@encode_field 2 (((2 : UInt8) <<< 3) ||| 5) (.fixed32 (asF32 value).toNat) hkeys.1
      (by decide)]
    rfl
  have hsummary : [((1 : UInt8) <<< 3) ||| 2] ++
      lenVarint ((valueFields tag (asF32 value)).flatMap Field.encode) ++
        (valueFields tag (asF32 value)).flatMap Field.encode =
          (summaryFields tag (asF32 value)).flatMap Field.encode := by
    have hlen := @length_valueFields tag (asF32 value) htag
    rw [encode_bytes_field 1 _ rfl (by decide) (by omega)]
    simp only [summaryFields, flatMap_cons, flatMap_nil, append_nil]
  have hlen := @length_summaryFields tag (asF32 value) htag
  unfold encodeEvent
  simp only [hv, hsummary]
  simp only [eventFields, flatMap_cons, flatMap_nil, append_nil]
  rw [append_assoc _ (lenVarint _), append_assoc _ [((5 : UInt8) <<< 3) ||| 2],
    ← append_assoc [((5 : UInt8) <<< 3) ||| 2],
    encode_bytes_field 5 _ rfl (by decide) (by omega),
    @encode_field 1 (((1 : UInt8) <<< 3) ||| 1) (.fixed64 wallTime.toNat) hkeys.2.1 (by decide),
    @encode_field 2 ((2 : UInt8) <<< 3) (.varint step.toUInt64.toNat) hkeys.2.2 (by decide),
    writeVarint_eq]
  simp only [Value.encode, append_assoc, cons_append, nil_append]

end

theorem fits_of_small {number : Nat} {value : Value} (hnumber : 0 < number ∧ number < 16)
    (hvalue : value.Fits) : Field.Fits ⟨number, value⟩ := by
  refine ⟨⟨hnumber.1, ?_⟩, hvalue⟩
  change number < 2 ^ 29
  omega

section

variable (htag : (Serde.utf8 tag).length < 2 ^ 63)

include htag

theorem fits_valueFields :
    ∀ f ∈ valueFields tag value, f.Fits := by
  intro f hf
  rcases mem_pair.1 hf with rfl | rfl
  · refine fits_of_small (by decide) ?_
    change _ < _
    omega
  · exact fits_of_small (by decide) value.toNat_lt

theorem fits_summaryFields :
    ∀ f ∈ summaryFields tag value, f.Fits := by
  have hlen := @length_valueFields tag value htag
  intro f hf
  obtain rfl := mem_singleton.1 hf
  refine fits_of_small (by decide) ?_
  change _ < _
  omega

theorem fits_eventFields :
    ∀ f ∈ eventFields wallTime step tag value, f.Fits := by
  have hlen := @length_summaryFields tag value htag
  intro f hf
  rcases mem_cons.1 hf with rfl | hf
  · exact fits_of_small (by decide) wallTime.toNat_lt
  · rcases mem_pair.1 hf with rfl | rfl
    · exact fits_of_small (by decide) step.toUInt64.toNat_lt
    · refine fits_of_small (by decide) ?_
      change _ < _
      omega

theorem readValue_encode :
    readValue wallTime step ((valueFields tag value).flatMap Field.encode) =
      some { wallTime := wallTime, step := step, tag := tag, value := value } := by
  have htagField : lastOf bytes? 1 (valueFields tag value) = some (Serde.utf8 tag) := rfl
  have hvalueField : lastOf fixed32? 2 (valueFields tag value) = some value.toNat := rfl
  unfold readValue
  rw [ProtoWire.decodeFields_encode _ (fits_valueFields htag)]
  simp only [bind_eq_bind, bind_some, htagField, hvalueField, getD_some,
    decodeUtf8_utf8, UInt32.ofNat_toNat]
  rfl

theorem readEvent_encode {value : UInt64} :
    readEvent (encodeEvent asF32 wallTime step tag value) =
      some [{ wallTime := wallTime, step := step, tag := tag, value := asF32 value }] := by
  have hwall : lastOf fixed64? 1 (eventFields wallTime step tag (asF32 value)) =
      some wallTime.toNat := rfl
  have hstep : lastOf varint? 2 (eventFields wallTime step tag (asF32 value)) =
      some step.toUInt64.toNat := rfl
  have hsummary : lastOf bytes? 5 (eventFields wallTime step tag (asF32 value)) =
      some ((summaryFields tag (asF32 value)).flatMap Field.encode) := rfl
  have hvalues : ((summaryFields tag (asF32 value)).filterMap fun f =>
      if f.number = 1 then bytes? f.value else none) =
        [(valueFields tag (asF32 value)).flatMap Field.encode] := rfl
  unfold readEvent
  rw [encodeEvent_eq htag, ProtoWire.decodeFields_encode _ (fits_eventFields htag)]
  simp only [bind_eq_bind, bind_some, hwall, hstep, hsummary, getD_some]
  rw [ProtoWire.decodeFields_encode _ (fits_summaryFields htag)]
  simp only [bind_some, hvalues, mapM_cons, mapM_nil, UInt64.ofNat_toNat,
    Int64.toInt64_toUInt64, readValue_encode htag]
  rfl

theorem length_eventFields :
    ((eventFields wallTime step tag value).flatMap Field.encode).length < 2 ^ 64 := by
  have hsummary := @length_summaryFields tag value htag
  have hfield := @length_encode_bytes 5 42 ((summaryFields tag value).flatMap Field.encode)
    rfl (by decide) (by omega)
  have hwall : (Field.encode ⟨1, .fixed64 wallTime.toNat⟩).length = 9 := by
    rw [encode_field 1 9 rfl (by decide), Value.encode, length_cons, LittleEndian.length_toBytes]
  have hstep : (Field.encode ⟨2, .varint step.toUInt64.toNat⟩).length ≤ 11 := by
    have hlt : step.toUInt64.toNat < 128 ^ (9 + 1) := step.toUInt64.toNat_lt.trans (by decide)
    rw [encode_field 2 16 rfl (by decide), Value.encode, length_cons]
    exact Nat.succ_le_succ (ProtoWire.length_encodeVarint_le hlt)
  simp only [eventFields, flatMap_cons, flatMap_nil, length_append, length_nil]
  omega

end

theorem wrapRecord_eq {payload : List UInt8} (hlen : payload.length < 2 ^ 64) :
    wrapRecord hash payload = RecordFrames.frame (fun bs => maskCrc (hash bs)) payload := by
  unfold wrapRecord RecordFrames.frame
  rw [UInt64.toNat_ofNat_of_lt' hlen]

/-- What a reader makes of a metric. -/
def scalar (asF64 : Int64 → UInt64) (asF32 : UInt64 → UInt32) (m : Metric) : Scalar where
  wallTime := asF64 m.timestamp
  step := m.step
  tag := m.name
  value := asF32 m.value

/-- The metrics among the events. -/
def metrics (events : List LogEvent) : List Metric :=
  events.filterMap fun
    | .metric m => some m
    | .other => none

def payload (asF64 : Int64 → UInt64) (asF32 : UInt64 → UInt32) (m : Metric) : List UInt8 :=
  encodeEvent asF32 (asF64 m.timestamp) m.step m.name m.value

theorem length_payload (m : Metric) : (payload asF64 asF32 m).length < 2 ^ 64 := by
  rw [payload, encodeEvent_eq m.name_lt]
  exact length_eventFields m.name_lt

theorem submit_flatMap (events : List LogEvent) :
    events.flatMap (submit asF64 asF32 hash) =
      ((metrics events).map (payload asF64 asF32)).flatMap
        (RecordFrames.frame fun bs => maskCrc (hash bs)) := by
  induction events with
  | nil => rfl
  | cons ev events ih =>
    cases ev with
    | other => simpa [metrics, submit] using ih
    | metric m =>
      rw [flatMap_cons, ih]
      change wrapRecord hash (payload asF64 asF32 m) ++ _ = _
      rw [wrapRecord_eq (length_payload m)]
      rfl

/-- The scalars of a file are the metrics that were submitted, in order, and no varint is the
start of another one. -/
theorem readFile_submit (asF64 : Int64 → UInt64) (asF32 : UInt64 → UInt32)
    (hash : List UInt8 → UInt32) (events : List LogEvent) :
    readFile hash (events.flatMap (submit asF64 asF32 hash)) =
        some ((metrics events).map (scalar asF64 asF32)) ∧
      ∀ v w : UInt64, writeVarint v <+: writeVarint w → v = w := by
  refine ⟨?_, ?_⟩
  · have hunframe := @RecordFrames.unframe_frames (fun bs => maskCrc (hash bs))
      ((metrics events).map (payload asF64 asF32)) (by
        intro bs hbs
        obtain ⟨m, _, rfl⟩ := mem_map.1 hbs
        exact length_payload m)
    have hevents : ((metrics events).map (payload asF64 asF32)).mapM readEvent =
        some ((metrics events).map fun m => [scalar asF64 asF32 m]) := by
      induction metrics events with
      | nil => rfl
      | cons m ms ih =>
        rw [map_cons, mapM_cons, ih]
        have hread : readEvent (payload asF64 asF32 m) = some [scalar asF64 asF32 m] :=
          readEvent_encode m.name_lt
        rw [hread]
        rfl
    unfold readFile
    rw [submit_flatMap, hunframe]
    simp only [bind_eq_bind, bind_some, hevents]
    have hflat : ((metrics events).map fun m => [scalar asF64 asF32 m]).flatten =
        (metrics events).map (scalar asF64 asF32) := by
      exact flatMap_pure_eq_map _ _
    rw [hflat]
    rfl
  · rintro v w ⟨t, ht⟩
    rw [writeVarint_eq, writeVarint_eq] at ht
    exact UInt64.toNat_inj.1 (ProtoWire.encodeVarint_inj_of_append v.toNat_lt w.toNat_lt ht)

end RoundTrip

end Log
end Rustorch
