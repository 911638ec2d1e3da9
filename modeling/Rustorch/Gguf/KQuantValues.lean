import Rustorch.Gguf.Dequant

/-!
# The values of the K-quants

Each loop over a super-block writes the value of every weight, from the scale code, the minimum code
and the weight code that the packed bytes hold (`dequant_values`).
-/

namespace Rustorch
namespace Gguf

open List KQuant Rows UInt32
open Option (bind_eq_bind bind_some)
open Nat (le_of_not_lt mod_eq_of_lt zero_add)

open BitPacking
open Filling (Filled slice)
open LoopNest (put)

section

variable {F : Type} [Sub F] [Mul F] [IntCast F]

/-- `Q5_K` adds the two parts of a code as floats, without rounding. -/
def ExactSums (F : Type) [Add F] [IntCast F] : Prop :=
  ∀ low high : ℤ, 0 ≤ low → low < 16 → high = 0 ∨ high = 16 →
    (low : F) + (high : F) = ((low + high : ℤ) : F)

/-- The value of weight `w`, from the codes. -/
def KQuant.value (d dmin : F) : KQuant → (Nat → UInt8) → Nat → F
  | .q3_K, bytes, w =>
    d * ((q3_K.scaleCode bytes (w / 16) - 32 : ℤ) : F) *
      ((q3_K.weightCode bytes w - 4 : ℤ) : F)
  | .q4_K, bytes, w =>
    d * ((q4_K.scaleCode bytes (w / 32) : ℤ) : F) *
      ((q4_K.weightCode bytes w : ℤ) : F) -
      dmin * ((q4_K.minCode bytes (w / 32) : ℤ) : F)
  | .q5_K, bytes, w =>
    d * ((q5_K.scaleCode bytes (w / 32) : ℤ) : F) *
      ((q5_K.weightCode bytes w : ℤ) : F) -
      dmin * ((q5_K.minCode bytes (w / 32) : ℤ) : F)
  | .q6_K, bytes, w =>
    d * (((BitVec.ofNat 8 (q6_K.scaleCode bytes (w / 16))).toInt : ℤ) : F) *
      ((q6_K.weightCode bytes w - 32 : ℤ) : F)

omit [Sub F] [Mul F] in
theorem asF32_ofNat {c : Nat} : c < 2 ^ 6 → (asF32 (UInt8.ofNat c) : F) = ((c : ℤ) : F) := by
  intro hc
  rw [asF32, UInt8.toNat_ofNat_of_lt' (by rw [UInt8.size]; omega)]

theorem byte_eq_ofNat {x : UInt8} {c : Nat} : x.toNat = c → UInt8.ofNat c = x := by
  intro h
  rw [← h, UInt8.ofNat_toNat]

omit [Sub F] [Mul F] in
theorem asF32_low (x : UInt8) : (asF32 (x &&& 0x0F) : F) = ((field x 0 4 : ℤ) : F) := by
  rw [asF32, toNat_and_mask x 4 rfl]

omit [Sub F] [Mul F] in
theorem asF32_high (x : UInt8) : (asF32 (x >>> 4) : F) = ((field x 4 4 : ℤ) : F) := by
  rw [asF32, toNat_shiftRight x (by decide)]
  rfl

/-! ## `Q4_K` -/

section Unpack

variable (b : Nat → UInt8) {i : Nat}

theorem scCode_low : i < 4 → UInt8.ofNat (scCode b i) = b i &&& 0x3F := by
  intro hi
  refine byte_eq_ofNat ?_
  rw [scCode, if_pos hi, toNat_and_mask _ 6 rfl]

theorem mCode_low : i < 4 → UInt8.ofNat (mCode b i) = b (i + 4) &&& 0x3F := by
  intro hi
  refine byte_eq_ofNat ?_
  rw [mCode, if_pos hi, toNat_and_mask _ 6 rfl]

theorem toNat_nibble_or {x y : UInt8} : x.toNat < 2 ^ 4 →
    (x ||| (y >>> 6) <<< 4).toNat = join 4 x.toNat (field y 6 2) := by
  intro hx
  have htop : (y >>> 6).toNat = field y 6 2 := toNat_shiftRight y (by decide)
  have hlt : (y >>> 6).toNat < 2 ^ (8 - (4 : UInt8).toNat) := by
    rw [htop]
    exact lt_of_lt_of_le (field_lt y 6 2) (by decide)
  rw [toNat_or_shiftLeft (k := 4) x _ (by decide) hx hlt, htop]
  rfl

theorem scCode_high : UInt8.ofNat (scCode b (i + 4)) =
    (b (i + 8) &&& (0x0F : UInt8)) ||| ((b i >>> 6) <<< 4) := by
  have hlow : (b (i + 8) &&& 0x0F).toNat = field (b (i + 8)) 0 4 := toNat_and_mask _ 4 rfl
  refine byte_eq_ofNat ?_
  rw [toNat_nibble_or (by rw [hlow]; exact field_lt _ _ _), hlow, scCode,
    if_neg (by omega), Nat.add_sub_cancel]

theorem mCode_high : UInt8.ofNat (mCode b (i + 4)) =
    (b (i + 8) >>> 4) ||| ((b (i + 4) >>> 6) <<< 4) := by
  have hlow : (b (i + 8) >>> 4).toNat = field (b (i + 8)) 4 4 :=
    toNat_shiftRight _ (by decide)
  refine byte_eq_ofNat ?_
  rw [toNat_nibble_or (by rw [hlow]; exact field_lt _ _ _), hlow, mCode, if_neg (by omega)]

end Unpack

theorem unpackQ4KScM_filled {bytes : Nat → UInt8} {scales : List UInt8} :
    Filled bytes 12 (fun _ => True) scales →
      ∃ scM, unpackQ4KScM scales = some scM ∧
        Filled (fun i => UInt8.ofNat (scCode bytes i)) 8 (fun j => j % 4 < 4) scM.1 ∧
        Filled (fun i => UInt8.ofNat (mCode bytes i)) 8 (fun j => j % 4 < 4) scM.2 := by
  intro hscales
  -- Turn `i` writes the places `i` and `i + 4` of both arrays.
  refine Filling.foldlM_range (fun i (scM : List UInt8 × List UInt8) =>
    Filled (fun i => UInt8.ofNat (scCode bytes i)) 8 (fun j => j % 4 < i) scM.1 ∧
      Filled (fun i => UInt8.ofNat (mCode bytes i)) 8 (fun j => j % 4 < i) scM.2) ?_ ?_
  · constructor
    · exact (Filling.filled_none (by simp)).mono (by omega)
    · exact (Filling.filled_none (by simp)).mono (by omega)
  · rintro i hi ⟨sc, m⟩ ⟨hsc, hm⟩
    obtain ⟨sc1, hput1, hsc1⟩ := hsc.put (by omega) (scCode_low bytes hi)
    obtain ⟨m1, hput2, hm1⟩ := hm.put (by omega) (mCode_low bytes hi)
    obtain ⟨sc2, hput3, hsc2⟩ := hsc1.put (by omega) (@scCode_high bytes i)
    obtain ⟨m2, hput4, hm2⟩ := hm1.put (by omega) (@mCode_high bytes i)
    refine ⟨(sc2, m2), ?_, hsc2.mono ?_, hm2.mono ?_⟩
    · simp only [hscales.read (show i < 12 by omega), hscales.read (show i + 4 < 12 by omega),
        hscales.read (show i + 8 < 12 by omega), bind_eq_bind, bind_some, hput1, hput2,
        hput3, hput4]
    · intro j hj hji
      omega
    · intro j hj hji
      omega

/-- The byte `k` of the super-block at `off`. -/
def blockByte (src : List UInt8) (off k : Nat) : UInt8 :=
  src.getD (off + k) 0

section Block

variable (half : UInt8 → UInt8 → F) {src : List UInt8} {off : Nat} {out : List F}

theorem read_block {n k : Nat} : off + n ≤ src.length → k < n →
    src[off + k]? = some (blockByte src off k) := by
  intro hsrc hk
  exact (Filling.filled_getD src 0).read (by omega)

theorem slice_block {n a b : Nat} (lo len : Nat) : off + n ≤ src.length → a = off + lo →
    b = a + len → lo + len ≤ n → ∃ ys, slice src a b = some ys ∧
      Filled (fun i => blockByte src off (lo + i)) len (fun _ => True) ys := by
  intro hsrc ha hb hlen
  obtain ⟨ys, hslice, hfilled⟩ := (Filling.filled_getD src 0).slice (show a ≤ b by omega) (by omega)
  refine ⟨ys, hslice, ?_⟩
  rw [hb, ha, Nat.add_sub_cancel_left] at hfilled
  simpa only [blockByte, Nat.add_assoc] using hfilled

variable {bytes : Nat → UInt8} {r : Nat} {u : UInt8}

theorem slice_row {n p : Nat} {qs : List UInt8} :
    Filled bytes n (fun _ => True) qs → (p + 1) * 32 ≤ n →
      ∃ ys, slice qs (p * 32) ((p + 1) * 32) = some ys ∧
        Filled (fun i => bytes (p * 32 + i)) 32 (fun _ => True) ys := by
  intro hqs hp
  obtain ⟨ys, hslice, hfilled⟩ := hqs.slice (show p * 32 ≤ (p + 1) * 32 by omega) hp
  refine ⟨ys, hslice, ?_⟩
  rwa [← Nat.sub_mul, Nat.add_sub_cancel_left, Nat.one_mul] at hfilled

theorem value_q4 (d dmin : F) (bytes : Nat → UInt8) {k : Nat} : k < 32 →
    value d dmin .q4_K bytes (r * 32 + k) =
      d * asF32 (UInt8.ofNat (scCode bytes r)) *
        ((field (bytes (12 + (r / 2 * 32 + k))) (4 * (r % 2)) 4 : ℤ) : F) -
        dmin * asF32 (UInt8.ofNat (mCode bytes r)) := by
  intro hk
  have hrow : (r * 32 + k) / 32 = r := by omega
  have hcol : (r * 32 + k) % 32 = k := by omega
  rw [value, scaleCode, weightCode, minCode, nibbleCode, hrow, hcol,
    asF32_ofNat (scCode_lt bytes r), asF32_ofNat (mCode_lt bytes r)]

theorem dequantQ4KBlock_filled : off + q4KBytes ≤ src.length → out.length = 256 →
    ∃ out', dequantQ4KBlock half src off out = some out' ∧
      Filled (value (half (blockByte src off 0) (blockByte src off 1))
        (half (blockByte src off 2) (blockByte src off 3)) .q4_K
        fun k => blockByte src off (4 + k)) 256 (fun i => i < 64 * 4) out' := by
  intro hsrc hout
  rw [q4KBytes] at hsrc
  set bytes : Nat → UInt8 := fun k => blockByte src off (4 + k) with hbytes
  obtain ⟨scales12, hscales, hscF⟩ := slice_block (b := off + 16) 4 12 hsrc rfl rfl (by omega)
  obtain ⟨scM, hscM, hsc, hm⟩ := unpackQ4KScM_filled hscF
  obtain ⟨qs, hqs, hqsF⟩ := slice_block (a := off + 16) 16 128 hsrc rfl rfl (by omega)
  have hqsF' : Filled (fun i => bytes (12 + i)) 128 (fun _ => True) qs := by
    simpa only [hbytes, ← Nat.add_assoc] using hqsF
  have hd0 : src[off]? = some (blockByte src off 0) := read_block (k := 0) hsrc (by omega)
  simp only [dequantQ4KBlock, hd0, read_block (k := 1) hsrc (by omega),
    read_block (k := 2) hsrc (by omega), read_block (k := 3) hsrc (by omega), hscales, hscM, hqs,
    bind_eq_bind, bind_some]
  -- Turn `p` writes the rows `2 p` and `2 p + 1`, from the same 32 bytes.
  refine Filling.foldlM_range (fun p out => Filled _ 256 (fun i => i < 64 * p) out)
    (Filling.filled_none hout) ?_
  intro p hp out hf
  obtain ⟨nibbles, hnibbles, hnF⟩ := slice_row hqsF' (show (p + 1) * 32 ≤ 128 by omega)
  simp only [hnibbles, hsc.2 (2 * p) (by omega) (by omega), hm.2 (2 * p) (by omega) (by omega),
    hsc.2 (2 * p + 1) (by omega) (by omega), hm.2 (2 * p + 1) (by omega) (by omega),
    bind_some]
  refine Filling.fill_row_bind hf (show 64 * p + 32 ≤ 256 by omega) ?_ ?_
  · intro k hk out
    have hbyte : 2 * p / 2 * 32 + k = p * 32 + k := by omega
    rw [hnF.read hk, bind_some, show 64 * p + k = 2 * p * 32 + k by omega,
      value_q4 _ _ bytes hk, hbyte, Nat.mul_mod_right, asF32_low]
  · intro out hf
    change ∃ s, _ = some s ∧ Filled _ 256 (fun i => i < 64 * p + 32 + 32) s
    refine Filling.fill_row hf (by omega) ?_
    intro k hk out
    have hbyte : (2 * p + 1) / 2 * 32 + k = p * 32 + k := by omega
    have hodd : (2 * p + 1) % 2 = 1 := by omega
    rw [hnF.read hk, bind_some, show 64 * p + 32 + k = (2 * p + 1) * 32 + k by omega,
      value_q4 _ _ bytes hk, hbyte, hodd, asF32_high]

/-! ## `Q5_K` -/

omit [Sub F] [Mul F] in
theorem highPart_eq (h : UInt8) : u.toNat = 2 ^ r →
    (highPart h u : F) = ((field h r 1 * 16 : ℤ) : F) := by
  intro hu
  rw [highPart]
  have hbit : field h r 1 < 2 := field_lt h r 1
  have hset := and_bit_ne_zero h hu
  split_ifs with hne
  · rw [hset.1 hne]
    rfl
  · have hzero : field h r 1 = 0 := by
      have hone : field h r 1 ≠ 1 := fun h1 => hne (hset.2 h1)
      omega
    rw [hzero]
    rfl

theorem value_q5 [Add F] (hexact : ExactSums F) (d dmin : F) (bytes : Nat → UInt8) {k : Nat} :
    k < 32 → u.toNat = 2 ^ r →
      value d dmin .q5_K bytes (r * 32 + k) =
        d * asF32 (UInt8.ofNat (scCode bytes r)) *
          (((field (bytes (44 + (r / 2 * 32 + k))) (4 * (r % 2)) 4 : ℤ) : F) +
            highPart (bytes (12 + k)) u) -
          dmin * asF32 (UInt8.ofNat (mCode bytes r)) := by
  intro hk hu
  have hrow : (r * 32 + k) / 32 = r := by omega
  have hcol : (r * 32 + k) % 32 = k := by omega
  have hlow := field_lt (bytes (44 + (r / 2 * 32 + k))) (4 * (r % 2)) 4
  have hhigh := field_lt (bytes (12 + k)) r 1
  rw [value, scaleCode, weightCode, minCode, q5Code, nibbleCode, hrow,
    hcol, asF32_ofNat (scCode_lt bytes r), asF32_ofNat (mCode_lt bytes r), highPart_eq _ hu,
    hexact _ _ (by omega) (by omega) (by omega), join]
  rfl

theorem dequantQ5KBlock_filled [Add F] (hexact : ExactSums F) : off + q5KBytes ≤ src.length →
    out.length = 256 → ∃ out', dequantQ5KBlock half src off out = some out' ∧
      Filled (value (half (blockByte src off 0) (blockByte src off 1))
        (half (blockByte src off 2) (blockByte src off 3)) .q5_K
        fun k => blockByte src off (4 + k)) 256 (fun i => i < 64 * 4) out' := by
  intro hsrc hout
  rw [q5KBytes] at hsrc
  set bytes : Nat → UInt8 := fun k => blockByte src off (4 + k) with hbytes
  set v : Nat → F := value (half (blockByte src off 0) (blockByte src off 1))
    (half (blockByte src off 2) (blockByte src off 3)) .q5_K bytes with hv
  obtain ⟨scales12, hscales, hscF⟩ := slice_block (b := off + 16) 4 12 hsrc rfl rfl (by omega)
  obtain ⟨scM, hscM, hsc, hm⟩ := unpackQ4KScM_filled hscF
  obtain ⟨qh, hqh, hqhF⟩ := slice_block (a := off + 16) 16 32 hsrc rfl rfl (by omega)
  obtain ⟨qsAll, hqs, hqsF⟩ := slice_block (a := off + 16 + 32) 48 128 hsrc rfl rfl (by omega)
  have hqhF' : Filled (fun i => bytes (12 + i)) 32 (fun _ => True) qh := by
    simpa only [hbytes, ← Nat.add_assoc] using hqhF
  have hqsF' : Filled (fun i => bytes (44 + i)) 128 (fun _ => True) qsAll := by
    simpa only [hbytes, ← Nat.add_assoc] using hqsF
  have hd0 : src[off]? = some (blockByte src off 0) := read_block (k := 0) hsrc (by omega)
  simp only [dequantQ5KBlock, hd0, read_block (k := 1) hsrc (by omega),
    read_block (k := 2) hsrc (by omega), read_block (k := 3) hsrc (by omega), hscales, hscM, hqh, hqs,
    bind_eq_bind, bind_some]
  -- Before turn `p`, `u1` and `u2` hold the bits of the rows `2 p` and `2 p + 1`.
  refine Filling.foldlM_range_bind (fun p st => st.1.toNat = 2 ^ (2 * p) % 256 ∧
    st.2.1.toNat = 2 ^ (2 * p + 1) % 256 ∧ Filled v 256 (fun i => i < 64 * p) st.2.2)
    ⟨rfl, rfl, Filling.filled_none hout⟩ ?_ ?_
  · rintro p hp ⟨u1, u2, out⟩ ⟨hu1, hu2, hf⟩
    obtain ⟨ql, hql, hqlF⟩ := slice_row hqsF' (show (p + 1) * 32 ≤ 128 by omega)
    have hbit1 : u1.toNat = 2 ^ (2 * p) := hu1.trans (two_pow_mod (by omega))
    have hbit2 : u2.toNat = 2 ^ (2 * p + 1) := hu2.trans (two_pow_mod (by omega))
    simp only [hql, hsc.2 (2 * p) (by omega) (by omega), hm.2 (2 * p) (by omega) (by omega),
      hsc.2 (2 * p + 1) (by omega) (by omega), hm.2 (2 * p + 1) (by omega) (by omega),
      bind_some]
    refine Filling.fill_row_bind hf (show 64 * p + 32 ≤ 256 by omega) ?_ ?_
    · intro k hk out
      have hbyte : 2 * p / 2 * 32 + k = p * 32 + k := by omega
      rw [hqlF.read hk, bind_some, hqhF'.read hk, bind_some,
        show 64 * p + k = 2 * p * 32 + k by omega, hv, value_q5 hexact _ _ bytes hk hbit1, hbyte,
        Nat.mul_mod_right, asF32_low]
    · intro out hf
      refine Filling.fill_row_bind hf (show 64 * p + 32 + 32 ≤ 256 by omega) ?_ ?_
      · intro k hk out
        have hbyte : (2 * p + 1) / 2 * 32 + k = p * 32 + k := by omega
        have hodd : (2 * p + 1) % 2 = 1 := by omega
        rw [hqlF.read hk, bind_some, hqhF'.read hk, bind_some,
          show 64 * p + 32 + k = (2 * p + 1) * 32 + k by omega,
          hv, value_q5 hexact _ _ bytes hk hbit2, hbyte, hodd, asF32_high]
      · intro out hf
        refine ⟨_, rfl, ?_, ?_, hf.mono (by omega)⟩
        · exact toNat_shift_bit (by decide) hu1
        · exact toNat_shift_bit (by decide) hu2
  · rintro ⟨u1, u2, out⟩ ⟨_, _, hf⟩
    exact ⟨out, rfl, hf⟩

/-! ## `Q6_K` -/

/-- The weight code in row `j` of a half, as the source joins it. -/
theorem joinQ6_eq {x y : UInt8} {c e : Nat} : x.toNat = c → y.toNat = e → c < 2 ^ 4 →
    joinQ6 x y = (join 4 c e : ℤ) := by
  intro hx hy hc
  rw [joinQ6, hx, hy, or_eq_join hc]

theorem toInt8_field (x : UInt8) : x.toInt8.toInt = (BitVec.ofNat 8 (field x 0 8)).toInt := by
  have hx : field x 0 8 = x.toBitVec.toNat := by
    rw [field, Nat.shiftRight_zero, mod_eq_of_lt x.toNat_lt, UInt8.toNat_toBitVec]
  rw [hx, BitVec.ofNat_toNat, BitVec.setWidth_eq]
  rfl

theorem value_q6 (d dmin : F) (bytes : Nat → UInt8) {i j l w c t : Nat} {q : ℤ} : j < 4 → l < 32 →
    w = l + 32 * j → c = l + 32 * (j % 2) → t = 2 * j + l / 16 →
      q = join 4 (field (bytes (i * 64 + c)) (4 * (j / 2)) 4)
        (field (bytes (128 + (i * 32 + l))) (2 * j) 2) →
        value d dmin .q6_K bytes (i * 128 + w) =
          d * (((bytes (192 + (i * 8 + t))).toInt8.toInt : ℤ) : F) * ((q - 32 : ℤ) : F) := by
  intro hj hl hw hc ht hq
  have hhalf : (i * 128 + w) / 128 = i := by omega
  have hrow : (i * 128 + w) / 32 % 4 = j := by omega
  have hcol : (i * 128 + w) % 32 = l := by omega
  have hnibble : (i * 128 + w) / 64 % 2 = j / 2 := by omega
  have hbyte : (i * 128 + w) % 64 = c := by omega
  have hscale : (i * 128 + w) / 16 = i * 8 + t := by omega
  rw [value, scaleCode, weightCode, q6Code, hhalf, hrow, hcol, hnibble, hbyte,
    hscale, toInt8_field, hq]

theorem q6KTurn_filled {d dmin : F} {i l : Nat} {qlH qhH scH : List UInt8} {outH : List F} :
    Filled (fun k => bytes (i * 64 + k)) 64 (fun _ => True) qlH →
      Filled (fun k => bytes (128 + (i * 32 + k))) 32 (fun _ => True) qhH →
      Filled (fun k => bytes (192 + (i * 8 + k))) 8 (fun _ => True) scH → l < 32 →
      Filled (fun w => value d dmin .q6_K bytes (i * 128 + w)) 128 (fun w => w % 32 < l) outH →
        ∃ outH', q6KTurn d qlH qhH scH outH l = some outH' ∧
          Filled (fun w => value d dmin .q6_K bytes (i * 128 + w)) 128
            (fun w => w % 32 < l + 1) outH' := by
  intro hql hqh hsc hl hout
  have hmask : ∀ x : UInt8, (x &&& 0x0F).toNat = field x 0 4 := fun x =>
    toNat_and_mask x 4 rfl
  have htop : ∀ x : UInt8, (x >>> 4).toNat = field x 4 4 := fun x =>
    toNat_shiftRight x (by decide)
  have hpair : ∀ x : UInt8, (x &&& 0x03).toNat = field x 0 2 := fun x =>
    toNat_and_mask x 2 rfl
  have htwo : ∀ (x : UInt8) (k : UInt8), k.toNat < 8 → ((x >>> k) &&& 0x03).toNat = field x k.toNat 2 :=
    fun x k hk => toNat_shiftRight_and_mask x 2 hk rfl
  have hlt : ∀ (x : UInt8) (k : Nat), field x k 4 < 2 ^ 4 := fun x k => field_lt x k 4
  simp only [q6KTurn, hqh.read hl, hql.read (show l < 64 by omega),
    hql.read (show l + 32 < 64 by omega), hsc.read (show l / 16 < 8 by omega),
    hsc.read (show 2 + l / 16 < 8 by omega), hsc.read (show 4 + l / 16 < 8 by omega),
    hsc.read (show 6 + l / 16 < 8 by omega), bind_eq_bind, bind_some]
  obtain ⟨out1, hput1, hf1⟩ := hout.put (show l < 128 by omega) (value_q6 d dmin bytes
    (j := 0) (c := l) (t := l / 16) (by omega) hl rfl rfl (by omega)
    (joinQ6_eq (hmask _) (hpair _) (hlt _ _)))
  obtain ⟨out2, hput2, hf2⟩ := hf1.put (show l + 32 < 128 by omega) (value_q6 d dmin bytes
    (j := 1) (c := l + 32) (t := 2 + l / 16) (by omega) hl rfl rfl rfl
    (joinQ6_eq (hmask _) (htwo _ 2 (by decide)) (hlt _ _)))
  obtain ⟨out3, hput3, hf3⟩ := hf2.put (show l + 64 < 128 by omega) (value_q6 d dmin bytes
    (j := 2) (c := l) (t := 4 + l / 16) (by omega) hl rfl rfl rfl
    (joinQ6_eq (htop _) (htwo _ 4 (by decide)) (hlt _ _)))
  obtain ⟨out4, hput4, hf4⟩ := hf3.put (show l + 96 < 128 by omega) (value_q6 d dmin bytes
    (j := 3) (c := l + 32) (t := 6 + l / 16) (by omega) hl rfl rfl rfl
    (joinQ6_eq (htop _) (htwo _ 6 (by decide)) (hlt _ _)))
  refine ⟨out4, ?_, hf4.mono (by omega)⟩
  rw [hput1, bind_some, hput2, bind_some, hput3, bind_some, hput4]

theorem dequantQ6KBlock_filled (dmin : F) : off + q6KBytes ≤ src.length → out.length = 256 →
    ∃ out', dequantQ6KBlock half src off out = some out' ∧
      Filled (value (half (blockByte src off 208) (blockByte src off 209)) dmin .q6_K
        fun k => blockByte src off k) 256 (fun i => i < 2 * 128) out' := by
  intro hsrc hout
  rw [q6KBytes] at hsrc
  set bytes : Nat → UInt8 := fun k => blockByte src off k with hbytes
  set v : Nat → F := value (half (blockByte src off 208) (blockByte src off 209)) dmin
    .q6_K bytes with hv
  obtain ⟨ql, hql, hqlF⟩ := slice_block (a := off) 0 128 hsrc rfl rfl (by omega)
  obtain ⟨qh, hqh, hqhF⟩ := slice_block (a := off + 128) 128 64 hsrc rfl rfl (by omega)
  obtain ⟨scalesI8, hsc, hscF⟩ := slice_block (a := off + 192) 192 16 hsrc rfl rfl (by omega)
  simp only [dequantQ6KBlock, hql, hqh, hsc, read_block (k := 208) hsrc (by omega),
    read_block (k := 209) hsrc (by omega), bind_eq_bind, bind_some]
  refine Filling.foldlM_range (fun i out => Filled v 256 (fun w => w < i * 128) out)
    ((Filling.filled_none hout).mono (by omega)) ?_
  intro i hi out hf
  obtain ⟨qlH, hqlH, hqlHF⟩ := hqlF.slice (show i * 64 ≤ i * 64 + 64 by omega) (by omega)
  obtain ⟨qhH, hqhH, hqhHF⟩ := hqhF.slice (show i * 32 ≤ i * 32 + 32 by omega) (by omega)
  obtain ⟨scH, hscH, hscHF⟩ := hscF.slice (show i * 8 ≤ i * 8 + 8 by omega) (by omega)
  have hfits : i * 128 + 128 ≤ out.length := by
    rw [hf.1]
    omega
  obtain ⟨outH, houtH, hlen⟩ := Filling.slice_length (Nat.le_add_right (i * 128) 128) hfits
  simp only [hqlH, hqhH, hscH, houtH, bind_some]
  rw [Nat.add_sub_cancel_left] at hqlHF hqhHF hscHF hlen
  simp only [zero_add] at hqlHF
  refine Filling.foldlM_range_bind (fun l outH => Filled (fun w => v (i * 128 + w)) 128
    (fun w => w % 32 < l) outH) ⟨hlen, fun w _ hw => absurd hw (Nat.not_lt_zero _)⟩ ?_ ?_
  · intro l hl outH hrow
    exact q6KTurn_filled hqlHF hqhHF hscHF hl hrow
  · intro outH hrow
    refine ⟨_, rfl, (hf.writeAt (hrow.mono ?_) (by omega)).mono (by omega)⟩
    intro w _ _
    exact Nat.mod_lt w (by decide)

/-! ## `Q3_K` -/

section Words

variable {t j : Nat}

theorem testBit_word (f : Nat → UInt8) {s : UInt32} : t < 4 → s.toNat + j < 8 →
    (u32FromLeBytes [f 0, f 1, f 2, f 3] >>> s).toNat.testBit (8 * t + j) =
      (f t).toNat.testBit (s.toNat + j) := by
  intro ht hj
  have hplace : s.toNat + (8 * t + j) = 8 * t + (s.toNat + j) := by omega
  have hbyte : [f 0, f 1, f 2, f 3].getD t 0 = f t := by
    rcases t with _ | _ | _ | _ | t
    · rfl
    · rfl
    · rfl
    · rfl
    · omega
  rw [UInt32.toNat_shiftRight, mod_eq_of_lt (by omega), Nat.testBit_shiftRight, hplace,
    u32FromLeBytes, toNat_ofNat', Nat.testBit_mod_two_pow, decide_eq_true (by omega),
    Bool.true_and, testBit_ofBytes _ hj, hbyte]

theorem testBit_word_zero (f : Nat → UInt8) : t < 4 → j < 8 →
    (u32FromLeBytes [f 0, f 1, f 2, f 3]).toNat.testBit (8 * t + j) =
      (f t).toNat.testBit (0 + j) := by
  intro ht hj
  have hword := testBit_word f (s := 0) ht (show (0 : UInt32).toNat + j < 8 by simpa using hj)
  rwa [shiftRight_zero] at hword

theorem testBit_mix (x y : UInt32) : t < 4 → j < 8 →
    ((x &&& kmask2) ||| ((y &&& kmask1) <<< 4)).toNat.testBit (8 * t + j) =
      if j < 4 then
        x.toNat.testBit (8 * t + j)
      else
        (decide (j < 6) && y.toNat.testBit (8 * t + (j - 4))) := by
  intro ht hj
  have hmask1 : ∀ t < 4, ∀ j < 8, kmask1.toNat.testBit (8 * t + j) = decide (j < 2) := by decide
  have hmask2 : ∀ t < 4, ∀ j < 8, kmask2.toNat.testBit (8 * t + j) = decide (j < 4) := by decide
  have hfour : (4 : UInt32).toNat % 32 = 4 := rfl
  have hin : 8 * t + j < 32 := by omega
  rw [UInt32.toNat_or, UInt32.toNat_and, UInt32.toNat_shiftLeft, UInt32.toNat_and, hfour,
    Nat.testBit_or, Nat.testBit_and, hmask2 t ht j hj, Nat.testBit_mod_two_pow, decide_eq_true hin,
    Bool.true_and, Nat.testBit_shiftLeft, Nat.testBit_and]
  by_cases hlow : j < 4
  · -- what is shifted up to these places comes from the empty top of the byte below
    have hempty : (decide (8 * t + j ≥ 4) && kmask1.toNat.testBit (8 * t + j - 4)) = false := by
      by_cases hfirst : t = 0
      · rw [decide_eq_false (by omega), Bool.false_and]
      · rw [show 8 * t + j - 4 = 8 * (t - 1) + (j + 4) by omega, hmask1 _ (by omega) _ (by omega),
          decide_eq_false (show ¬ j + 4 < 2 by omega), Bool.and_false]
    rw [if_pos hlow, decide_eq_true hlow, Bool.and_true, Bool.and_comm (y.toNat.testBit _),
      ← Bool.and_assoc, hempty, Bool.false_and, Bool.or_false]
  · have hplace : 8 * t + j - 4 = 8 * t + (j - 4) := by omega
    have hsix : decide (j - 4 < 2) = decide (j < 6) := decide_eq_decide.2 (by omega)
    rw [if_neg hlow, decide_eq_false hlow, Bool.and_false, Bool.false_or, hplace,
      hmask1 t ht _ (by omega), hsix, decide_eq_true (show 8 * t + j ≥ 4 by omega), Bool.true_and,
      Bool.and_comm]

theorem bytesOfWord_eq (x : UInt32) {c : Nat} : t < 4 → c < 256 →
    (∀ j < 8, x.toNat.testBit (8 * t + j) = c.testBit j) →
      (bytesOfWord x)[t]? = some (UInt8.ofNat c) := by
  intro ht hc hbits
  have hlane : ∀ k : UInt32, k.toNat = 8 * t → ((x >>> k) &&& 0xff).toUInt8 = UInt8.ofNat c := by
    intro k hk
    apply byte_ext
    intro j hj
    have hff : (0xff : UInt32).toNat = 2 ^ 8 - 1 := rfl
    rw [toNat_toUInt8, UInt32.toNat_and, UInt32.toNat_shiftRight, hk,
      mod_eq_of_lt (show 8 * t < 32 by omega), hff, Nat.and_two_pow_sub_one_eq_mod, Nat.mod_mod,
      Nat.testBit_mod_two_pow, decide_eq_true hj, Bool.true_and, Nat.testBit_shiftRight, hbits j hj,
      UInt8.toNat_ofNat_of_lt' hc]
  have hzero : x >>> 0 = x := by simp
  rcases t with _ | _ | _ | _ | t
  · exact congrArg some (by rw [← hlane 0 rfl, hzero])
  · exact congrArg some (hlane 8 rfl)
  · exact congrArg some (hlane 16 rfl)
  · exact congrArg some (hlane 24 rfl)
  · omega

theorem bytesOfWord_mix {x y : UInt32} {a c : UInt8} {s r : Nat} : t < 4 →
    (∀ j < 4, x.toNat.testBit (8 * t + j) = a.toNat.testBit (s + j)) →
      (∀ j < 2, y.toNat.testBit (8 * t + j) = c.toNat.testBit (r + j)) →
        (bytesOfWord ((x &&& kmask2) ||| ((y &&& kmask1) <<< 4)))[t]? =
          some (UInt8.ofNat (join 4 (field a s 4) (field c r 2))) := by
  intro ht hx hy
  have hlow := field_lt a s 4
  have hcode : join 4 (field a s 4) (field c r 2) < 2 ^ 6 :=
    join_lt (u := 2) hlow (field_lt c r 2)
  refine bytesOfWord_eq _ ht (by omega) ?_
  intro j hj
  rw [testBit_mix x y ht hj]
  by_cases hj4 : j < 4
  · rw [if_pos hj4, hx j hj4, testBit_join_low _ hlow hj4, testBit_field _ _ hj4]
  · rw [if_neg hj4]
    by_cases hj6 : j < 6
    · obtain ⟨i, rfl⟩ := Nat.exists_eq_add_of_le (le_of_not_lt hj4)
      rw [decide_eq_true hj6, Bool.true_and, Nat.add_sub_cancel_left, hy i (by omega),
        testBit_join_high _ _ hlow, testBit_field _ _ (by omega)]
    · have hpow : 2 ^ 6 ≤ 2 ^ j := Nat.pow_le_pow_right (by decide) (le_of_not_lt hj6)
      rw [decide_eq_false hj6, Bool.false_and, Nat.testBit_lt_two_pow (lt_of_lt_of_le hcode hpow)]

theorem unpackQ3KScales_filled {b : Nat → UInt8} {scRaw : List UInt8} :
    Filled b 12 (fun _ => True) scRaw →
      ∃ scales, unpackQ3KScales scRaw = some scales ∧
        Filled (fun i => UInt8.ofNat (q3Scale b i)) 16 (fun _ => True) scales := by
  intro hraw
  simp only [unpackQ3KScales, hraw.read (show 0 < 12 by omega), hraw.read (show 1 < 12 by omega),
    hraw.read (show 2 < 12 by omega), hraw.read (show 3 < 12 by omega),
    hraw.read (show 4 < 12 by omega), hraw.read (show 5 < 12 by omega),
    hraw.read (show 6 < 12 by omega), hraw.read (show 7 < 12 by omega),
    hraw.read (show 8 < 12 by omega), hraw.read (show 9 < 12 by omega),
    hraw.read (show 10 < 12 by omega), hraw.read (show 11 < 12 by omega), bind_eq_bind,
    bind_some]
  refine ⟨_, rfl, rfl, ?_⟩
  intro i hi _
  change _ = some (UInt8.ofNat (q3Scale b i))
  -- Word `g` holds the scales `4 g`, …, `4 g + 3`.
  have hhigh : ∀ (r : UInt32) (t : Nat), t < 4 → r.toNat ≤ 6 → ∀ j < 2,
      (u32FromLeBytes [b 8, b 9, b 10, b 11] >>> r).toNat.testBit (8 * t + j) =
        (b (8 + t)).toNat.testBit (r.toNat + j) := fun r t ht hr j hj =>
    testBit_word (fun k => b (8 + k)) ht (by omega)
  have hcode : ∀ k s t r : Nat, i % 8 = k → 4 * (i / 8) = s → i % 4 = t → 2 * (i / 4) = r →
      q3Scale b i = join 4 (field (b k) s 4) (field (b (8 + t)) r 2) := by
    rintro k s t r rfl rfl rfl rfl
    rfl
  have hlow : ∀ s : UInt32, s.toNat ≤ 4 → ∀ (f : Nat → UInt8) (t : Nat), t < 4 → ∀ j < 4,
      (u32FromLeBytes [f 0, f 1, f 2, f 3] >>> s).toNat.testBit (8 * t + j) =
        (f t).toNat.testBit (s.toNat + j) := fun s hs f t ht j hj =>
    testBit_word f ht (by omega)
  by_cases h1 : i < 4
  · rw [hcode i 0 i 0 (by omega) (by omega) (by omega) (by omega),
      getElem?_append_left (Nat.lt_of_lt_of_le h1 (by simp [bytesOfWord])),
      getElem?_append_left (Nat.lt_of_lt_of_le h1 (by simp [bytesOfWord])),
      getElem?_append_left (Nat.lt_of_lt_of_le h1 (by simp [bytesOfWord]))]
    exact bytesOfWord_mix h1 (fun j hj => testBit_word_zero b h1 (by omega))
      (fun j hj => testBit_word_zero (fun k => b (8 + k)) h1 (by omega))
  by_cases h2 : i < 8
  · rw [hcode (4 + (i - 4)) 0 (i - 4) 2 (by omega) (by omega) (by omega) (by omega),
      getElem?_append_left (Nat.lt_of_lt_of_le h2 (by simp [bytesOfWord])),
      getElem?_append_left (Nat.lt_of_lt_of_le h2 (by simp [bytesOfWord])),
      getElem?_append_right (le_of_not_lt h1)]
    exact bytesOfWord_mix (t := i - 4) (by omega)
      (fun j hj => testBit_word_zero (fun k => b (4 + k)) (by omega) (by omega))
      (hhigh 2 (i - 4) (by omega) (by decide))
  by_cases h3 : i < 12
  · rw [hcode (i - 8) 4 (i - 8) 4 (by omega) (by omega) (by omega) (by omega),
      getElem?_append_left h3, getElem?_append_right (le_of_not_lt h2)]
    exact bytesOfWord_mix (t := i - 8) (by omega) (hlow 4 (by decide) b (i - 8) (by omega))
      (hhigh 4 (i - 8) (by omega) (by decide))
  · rw [hcode (4 + (i - 12)) 4 (i - 12) 6 (by omega) (by omega) (by omega) (by omega),
      getElem?_append_right (le_of_not_lt h3)]
    exact bytesOfWord_mix (t := i - 12) (by omega)
      (hlow 4 (by decide) (fun k => b (4 + k)) (i - 12) (by omega))
      (hhigh 6 (i - 12) (by omega) (by decide))

end Words

theorem toInt8_ofNat {c : Nat} : c < 2 ^ 6 → (UInt8.ofNat c).toInt8.toInt = c := by
  intro hc
  have hval : (UInt8.ofNat c).toBitVec.toNat = c := by
    rw [UInt8.toNat_toBitVec, UInt8.toNat_ofNat_of_lt' (by rw [UInt8.size]; omega)]
  change (UInt8.ofNat c).toBitVec.toInt = c
  rw [BitVec.toInt_eq_toNat_of_lt (by rw [hval]; omega), hval]

theorem value_q3 (d dmin : F) (bytes : Nat → UInt8) {m shift : UInt8} {i l : Nat} : r < 8 → l < 32 →
    m.toNat = 2 ^ r → shift.toNat = 2 * (r % 4) → i = 2 * r + l / 16 →
      value d dmin .q3_K bytes (32 * r + l) =
        d * (((UInt8.ofNat (q3Scale (fun k => bytes (96 + k)) i)).toInt8.toInt - 32 : ℤ) : F) *
          (((((bytes (32 + (r / 4 * 32 + l)) >>> shift) &&& 0x03).toNat : ℤ) -
            (if bytes l &&& m ≠ 0 then 0 else 4) : ℤ) : F) := by
  intro hr hl hm hshift hi
  have hscale : (32 * r + l) / 16 = i := by omega
  have hhalf : (32 * r + l) / 128 = r / 4 := by omega
  have hrow : (32 * r + l) / 32 = r := by omega
  have hcol : (32 * r + l) % 32 = l := by omega
  have hpair : ((bytes (32 + (r / 4 * 32 + l)) >>> shift) &&& 0x03).toNat =
      field (bytes (32 + (r / 4 * 32 + l))) (2 * (r % 4)) 2 := by
    rw [toNat_shiftRight_and_mask _ 2 (by omega) rfl, hshift]
  have hbit : field (bytes l) r 1 < 2 := field_lt _ _ _
  have hset := and_bit_ne_zero (bytes l) hm
  have hcode : ((join 2 (field (bytes (32 + (r / 4 * 32 + l))) (2 * (r % 4)) 2)
      (field (bytes l) r 1) : ℤ) - 4) =
        (field (bytes (32 + (r / 4 * 32 + l))) (2 * (r % 4)) 2 : ℤ) -
          (if bytes l &&& m ≠ 0 then 0 else 4) := by
    rw [join]
    split_ifs with hne
    · rw [hset.1 hne]
      omega
    · have hone : field (bytes l) r 1 ≠ 1 := fun h1 => hne (hset.2 h1)
      omega
  rw [value, scaleCode, weightCode, q3Code, hscale, hhalf, hrow, hcol, hpair,
    hcode, toInt8_ofNat (q3Scale_lt _ i)]

theorem q3KSubBlock_filled {d dmin : F} {qChunk hmask : List UInt8} {m shift : UInt8} {out : List F}
    (base : Nat) : Filled (fun k => bytes (32 + (r / 4 * 32 + k))) 32 (fun _ => True) qChunk →
      Filled bytes 32 (fun _ => True) hmask → r < 8 → base = 0 ∨ base = 16 → m.toNat = 2 ^ r →
      shift.toNat = 2 * (r % 4) →
      Filled (value d dmin .q3_K bytes) 256 (fun w => w < 32 * r + base) out →
        ∃ st, q3KSubBlock (d * (((UInt8.ofNat (q3Scale (fun k => bytes (96 + k))
            (2 * r + base / 16))).toInt8.toInt - 32 : ℤ) : F)) qChunk hmask base shift m
            (32 * r + base, out) = some st ∧
          st.1 = 32 * r + base + 16 ∧
          Filled (value d dmin .q3_K bytes) 256 (fun w => w < 32 * r + base + 16) st.2 := by
  intro hq hh hr hbase hm hshift hout
  refine Filling.foldlM_range (fun l (st : Nat × List F) => st.1 = 32 * r + base + l ∧
    Filled (value d dmin .q3_K bytes) 256 (fun w => w < 32 * r + base + l) st.2)
    ⟨rfl, hout⟩ ?_
  rintro l hl ⟨idx, out⟩ ⟨rfl, hf⟩
  have hvalue := value_q3 d dmin bytes (i := 2 * r + base / 16) hr (show l + base < 32 by omega) hm
    hshift (by omega)
  rw [show 32 * r + (l + base) = 32 * r + base + l by omega] at hvalue
  obtain ⟨out', hput, hf'⟩ := hf.put (show 32 * r + base + l < 256 by omega) hvalue
  refine ⟨(32 * r + base + l + 1, out'), ?_, rfl, hf'.mono (by omega)⟩
  simp only [hq.read (show l + base < 32 by omega), hh.read (show l + base < 32 by omega),
    bind_eq_bind, bind_some, hput]

theorem dequantQ3KBlock_filled (dmin : F) : off + q3KBytes ≤ src.length → out.length = 256 →
    ∃ out', dequantQ3KBlock half src off out = some out' ∧
      Filled (value (half (blockByte src off 108) (blockByte src off 109)) dmin .q3_K
        fun k => blockByte src off k) 256 (fun i => i < 128 * 2) out' := by
  intro hsrc hout
  rw [q3KBytes] at hsrc
  set bytes : Nat → UInt8 := fun k => blockByte src off k with hbytes
  set v : Nat → F := value (half (blockByte src off 108) (blockByte src off 109)) dmin
    .q3_K bytes with hv
  obtain ⟨hmask, hhmask, hhF⟩ := slice_block (a := off) 0 32 hsrc rfl rfl (by omega)
  obtain ⟨qs, hqs, hqsF⟩ := slice_block (a := off + 32) 32 64 hsrc rfl rfl (by omega)
  obtain ⟨scRaw, hraw, hrawF⟩ := slice_block (a := off + 96) 96 12 hsrc rfl rfl (by omega)
  obtain ⟨scales, hscales, hscF⟩ := unpackQ3KScales_filled hrawF
  simp only [zero_add] at hhF
  simp only [dequantQ3KBlock, hhmask, hqs, hraw, hscales, read_block (k := 108) hsrc (by omega),
    read_block (k := 109) hsrc (by omega), bind_eq_bind, bind_some]
  refine Filling.foldlM_range_bind (fun i st => st.is = 8 * i ∧ st.m.toNat = 2 ^ (4 * i) % 256 ∧
    st.outIdx = 128 * i ∧ Filled v 256 (fun w => w < 128 * i) st.out)
    ⟨rfl, rfl, rfl, Filling.filled_none hout⟩ ?_ ?_
  · rintro i hi ⟨is, m, outIdx, out⟩ ⟨rfl, hm, rfl, hf⟩
    obtain ⟨qChunk, hchunk, hqF⟩ := hqsF.slice (show i * 128 / 4 ≤ i * 128 / 4 + 32 by omega)
      (by omega)
    simp only [hchunk, bind_some]
    -- Pass `t` of half `i` writes row `4 i + t`, from the bit `2 ^ (4 i + t)` of the mask.
    refine Filling.foldlM_range_bind (fun t st => st.1.toNat = 2 * t ∧ st.2.is = 8 * i + 2 * t ∧
      st.2.m.toNat = 2 ^ (4 * i + t) % 256 ∧ st.2.outIdx = 32 * (4 * i + t) ∧
      Filled v 256 (fun w => w < 32 * (4 * i + t)) st.2.out)
      ⟨rfl, rfl, hm, show 128 * i = 32 * (4 * i + 0) by omega, hf.mono (by omega)⟩ ?_ ?_
    · rintro t ht ⟨shift, is, m, outIdx, out⟩ ⟨hshift, rfl, hm, rfl, hf⟩
      have hbit : m.toNat = 2 ^ (4 * i + t) := hm.trans (two_pow_mod (by omega))
      have hhalf : (4 * i + t) / 4 = i := by omega
      have hq4 : i * 128 / 4 = i * 32 := by omega
      have hqrow : Filled (fun k => bytes (32 + ((4 * i + t) / 4 * 32 + k))) 32 (fun _ => True)
          qChunk := by
        rw [hhalf]
        rw [Nat.add_sub_cancel_left, hq4] at hqF
        exact hqF
      have hshift' : shift.toNat = 2 * ((4 * i + t) % 4) := by
        rw [Nat.mul_add_mod, mod_eq_of_lt ht]
        exact hshift
      obtain ⟨⟨idx1, out1⟩, hrun1, hidx1, hf1⟩ := q3KSubBlock_filled 0 hqrow hhF (by omega)
        (Or.inl rfl) hbit hshift' hf
      obtain ⟨⟨idx2, out2⟩, hrun2, hidx2, hf2⟩ := q3KSubBlock_filled 16 hqrow hhF (by omega)
        (Or.inr rfl) hbit hshift' hf1
      have hidx1' : idx1 = 32 * (4 * i + t) + 16 := hidx1
      have his : 8 * i + 2 * t = 2 * (4 * i + t) := by omega
      simp only [Nat.add_zero, Nat.zero_div] at hrun1 hrun2
      simp only [his, hscF.read (show 2 * (4 * i + t) < 16 by omega),
        hscF.read (show 2 * (4 * i + t) + 1 < 16 by omega), bind_some]
      rw [hidx1'] at hrun1
      refine ⟨(shift + 2, ⟨2 * (4 * i + t) + 2, m <<< 1, idx2, out2⟩), ?_, ?_, ?_, ?_, ?_, ?_⟩
      · rw [hrun1, bind_some]
        exact congrArg (fun st => Option.bind st _) hrun2
      · have hshift2 : shift.toNat = 2 * t := hshift
        have htwo : (2 : UInt8).toNat = 2 := rfl
        rw [UInt8.toNat_add, hshift2, htwo, mod_eq_of_lt (by omega), Nat.mul_succ]
      · change 2 * (4 * i + t) + 2 = _
        omega
      · exact toNat_shift_bit (by decide) hm
      · exact hidx2.trans (by omega)
      · exact hf2.mono (by omega)
    · rintro ⟨shift, st⟩ ⟨-, his, hm, hidx, hf⟩
      exact ⟨st, rfl, his.trans (by omega), hm, hidx.trans (by omega), hf.mono (by omega)⟩
  · rintro st ⟨-, -, -, hf⟩
    exact ⟨st.out, rfl, hf⟩

end Block

/-! ## Whole tensors -/

section Tensor

variable (half : UInt8 → UInt8 → F)

variable {src : List UInt8}

omit [Sub F] [Mul F] [IntCast F] in
/-- The loop over the super-blocks, when every block gives its values whatever the output held. -/
theorem dequantBlocks_ok {blockBytes nb : Nat} {block : List UInt8 → Nat → List F → Option (List F)}
    {f : Nat → List F} {dst : List F} : dst.length = nb * qkK →
      nb * blockBytes ≤ src.length → (∀ b < nb, (f b).length = qkK) →
        (∀ b < nb, ∀ out, out.length = qkK → block src (b * blockBytes) out = some (f b)) →
          dequantBlocks blockBytes block src dst = .ok ((List.range nb).flatMap f) := by
  intro hdst hsrc hf hblock
  have hpos : 0 < qkK := by decide
  have hnb : dst.length / qkK = nb := by rw [hdst, Nat.mul_div_cancel _ hpos]
  have hmod : dst.length % qkK = 0 := by rw [hdst, Nat.mul_mod_left]
  rw [dequantBlocks, if_neg (not_not.2 hmod)]
  simp only [hnb]
  rw [if_neg (Nat.not_lt.2 hsrc), Filling.fill_rows hdst hf hblock]
  rfl

variable [Add F]

/-- The function that `dequantize_block_chunk` calls. -/
def KQuant.dequant : KQuant → List UInt8 → List F → Outcome DequantError (List F)
  | .q3_K => dequantQ3K half
  | .q4_K => dequantQ4K half
  | .q5_K => dequantQ5K half
  | .q6_K => dequantQ6K half

/-- What it does to a super-block. -/
def KQuant.dequantBlock : KQuant → List UInt8 → Nat → List F → Option (List F)
  | .q3_K => dequantQ3KBlock half
  | .q4_K => dequantQ4KBlock half
  | .q5_K => dequantQ5KBlock half
  | .q6_K => dequantQ6KBlock half

theorem KQuant.dequant_eq (q : KQuant) :
    q.dequant half = dequantBlocks q.blockBytes (q.dequantBlock half) := by
  cases q <;> rfl

/-- Where a super-block keeps its `d`. -/
def KQuant.scaleAt : KQuant → Nat
  | .q3_K => 108
  | .q4_K | .q5_K => 0
  | .q6_K => 208

/-- The bytes of super-block `b`. -/
def blockAt (q : KQuant) (src : List UInt8) (b : Nat) : Fin q.blockBytes → UInt8 :=
  fun k => blockByte src (b * q.blockBytes) k

/-- Its bytes that are not of an `f16` field. -/
def packed (q : KQuant) (block : Fin q.blockBytes → UInt8) : Fin q.packedBytes → UInt8 :=
  fun k => byteAt block (q.packedAt + k)

/-- The value of a weight: `d` times the scale of the sub-block that owns it times its code, less
`dmin` times the minimum of the sub-block.  The signed codes are stored with an offset, the scales
of `Q6_K` in two's complement. -/
def Codes.value (d dmin : F) : {q : KQuant} → Codes q → Fin 256 → F
  | .q3_K, c, w =>
    d * (((c.scales ⟨w.val / 16, show w.val / 16 < 16 by omega⟩).toNat - 32 : ℤ) : F) *
      (((c.weights w).toNat - 4 : ℤ) : F)
  | .q4_K, c, w =>
    d * (((c.scales ⟨w.val / 32, show w.val / 32 < 8 by omega⟩).toNat : ℤ) : F) *
      (((c.weights w).toNat : ℤ) : F) -
      dmin * (((c.mins ⟨w.val / 32, show w.val / 32 < 8 by omega⟩).toNat : ℤ) : F)
  | .q5_K, c, w =>
    d * (((c.scales ⟨w.val / 32, show w.val / 32 < 8 by omega⟩).toNat : ℤ) : F) *
      (((c.weights w).toNat : ℤ) : F) -
      dmin * (((c.mins ⟨w.val / 32, show w.val / 32 < 8 by omega⟩).toNat : ℤ) : F)
  | .q6_K, c, w =>
    d * ((BitVec.toInt (c.scales ⟨w.val / 16, show w.val / 16 < 16 by omega⟩) : ℤ) : F) *
      (((c.weights w).toNat - 32 : ℤ) : F)

/-- The value of weight `w` of a super-block, from the codes its bytes hold. -/
def blockValue (q : KQuant) (block : Fin q.blockBytes → UInt8) (w : Fin 256) : F :=
  (codes q (packed q block)).value
    (half (byteAt block q.scaleAt) (byteAt block (q.scaleAt + 1)))
    (half (byteAt block 2) (byteAt block 3)) w

omit [Add F] in
theorem value_codes (d dmin : F) (q : KQuant) (bytes : Fin q.packedBytes → UInt8) (w : Fin 256) :
    (codes q bytes).value d dmin w = q.value d dmin (byteAt bytes) w := by
  have hscale : ∀ i : Nat, (BitVec.ofNat q.scaleBits (q.scaleCode (byteAt bytes) i)).toNat =
      q.scaleCode (byteAt bytes) i := fun i => by
    rw [BitVec.toNat_ofNat, mod_eq_of_lt (q.scaleCode_lt _ i)]
  have hmin : ∀ i : Nat, (BitVec.ofNat 6 (q.minCode (byteAt bytes) i)).toNat =
      q.minCode (byteAt bytes) i := fun i => by
    rw [BitVec.toNat_ofNat, mod_eq_of_lt (q.minCode_lt _ i)]
  have hweight : (BitVec.ofNat q.weightBits (q.weightCode (byteAt bytes) w)).toNat =
      q.weightCode (byteAt bytes) w := by
    rw [BitVec.toNat_ofNat, mod_eq_of_lt (q.weightCode_lt _ w)]
  cases q with
  | q3_K => rw [Codes.value, value, codes, hscale, hweight]
  | q4_K => rw [Codes.value, value, codes, hscale, hmin, hweight]
  | q5_K => rw [Codes.value, value, codes, hscale, hmin, hweight]
  | q6_K =>
    rw [Codes.value, value, codes, hweight]
    rfl

theorem scCode_congr {b b' : Nat → UInt8} {i : Nat} : i < 8 → (∀ k < 12, b k = b' k) →
    scCode b i = scCode b' i ∧ mCode b i = mCode b' i := by
  intro hi hb
  rw [scCode, scCode, mCode, mCode]
  split_ifs
  · rw [hb i (by omega), hb (i + 4) (by omega)]
    exact ⟨rfl, rfl⟩
  · rw [hb i (by omega), hb (i + 4) (by omega), hb (i - 4) (by omega)]
    exact ⟨rfl, rfl⟩

omit [Add F] in
theorem value_congr (d dmin : F) (q : KQuant) {bytes bytes' : Nat → UInt8} {w : Nat} : w < 256 →
    (∀ k < q.packedBytes, bytes k = bytes' k) →
      q.value d dmin bytes w = q.value d dmin bytes' w := by
  intro hw hbytes
  cases q with
  | q3_K =>
    rw [packedBytes] at hbytes
    simp only [value, scaleCode, weightCode, q3Scale, q3Code]
    rw [hbytes _ (by omega), hbytes _ (by omega), hbytes _ (by omega), hbytes _ (by omega)]
  | q4_K =>
    rw [packedBytes] at hbytes
    obtain ⟨hsc, hm⟩ := scCode_congr (show w / 32 < 8 by omega) fun k hk => hbytes k (by omega)
    simp only [value, scaleCode, minCode, weightCode, nibbleCode]
    rw [hsc, hm, hbytes _ (by omega)]
  | q5_K =>
    rw [packedBytes] at hbytes
    obtain ⟨hsc, hm⟩ := scCode_congr (show w / 32 < 8 by omega) fun k hk => hbytes k (by omega)
    simp only [value, scaleCode, minCode, weightCode, q5Code, nibbleCode]
    rw [hsc, hm, hbytes _ (by omega), hbytes _ (by omega)]
  | q6_K =>
    rw [packedBytes] at hbytes
    simp only [value, scaleCode, weightCode, q6Code]
    rw [hbytes _ (by omega), hbytes _ (by omega), hbytes _ (by omega)]

omit [Sub F] [Mul F] [Add F] in
/-- Rings add exactly; so do floats of 24 bits of mantissa, on integers this small. -/
theorem exactSums_of_ring {R : Type} [Ring R] : ExactSums R := by
  intro low high _ _ _
  exact (Int.cast_add low high).symm

variable {half}

omit [Add F] in
theorem value_block (d dmin : F) (q : KQuant) (src : List UInt8) (b : Nat) (w : Fin 256) :
    (codes q (packed q (blockAt q src b))).value d dmin w =
      q.value d dmin (fun k => blockByte src (b * q.blockBytes) (q.packedAt + k)) w := by
  have hfit : q.packedAt + q.packedBytes ≤ q.blockBytes := by
    cases q <;> decide
  rw [value_codes]
  refine value_congr d dmin q w.isLt ?_
  intro k hk
  have hbyte : byteAt (packed q (blockAt q src b)) k = byteAt (blockAt q src b) (q.packedAt + k) :=
    byteAt_val (packed q (blockAt q src b)) ⟨k, hk⟩
  rw [hbyte]
  exact byteAt_val (blockAt q src b) ⟨q.packedAt + k, by omega⟩

theorem byteAt_block (q : KQuant) (src : List UInt8) (b : Nat) {k : Nat} : k < q.blockBytes →
    byteAt (blockAt q src b) k = blockByte src (b * q.blockBytes) k := by
  intro hk
  exact byteAt_val (blockAt q src b) ⟨k, hk⟩

/-- Each format's loop, on a block that lies in the source. -/
theorem dequantBlock_filled (hexact : ExactSums F) (q : KQuant) {off : Nat} {out : List F} :
    off + q.blockBytes ≤ src.length → out.length = 256 →
      ∃ out', q.dequantBlock half src off out = some out' ∧
        Filled (q.value (half (blockByte src off q.scaleAt) (blockByte src off (q.scaleAt + 1)))
          (half (blockByte src off 2) (blockByte src off 3))
          fun k => blockByte src off (q.packedAt + k)) 256 (fun _ => True) out' := by
  intro hsrc hout
  cases q with
  | q3_K =>
    obtain ⟨out', hrun, hf⟩ := dequantQ3KBlock_filled half
      (half (blockByte src off 2) (blockByte src off 3)) hsrc hout
    refine ⟨out', hrun, ?_⟩
    simp only [packedAt, zero_add]
    exact hf.mono fun i hi _ => hi
  | q4_K =>
    obtain ⟨out', hrun, hf⟩ := dequantQ4KBlock_filled half hsrc hout
    exact ⟨out', hrun, hf.mono fun i hi _ => hi⟩
  | q5_K =>
    obtain ⟨out', hrun, hf⟩ := dequantQ5KBlock_filled half hexact hsrc hout
    exact ⟨out', hrun, hf.mono fun i hi _ => hi⟩
  | q6_K =>
    obtain ⟨out', hrun, hf⟩ := dequantQ6KBlock_filled half
      (half (blockByte src off 2) (blockByte src off 3)) hsrc hout
    refine ⟨out', hrun, ?_⟩
    simp only [packedAt, zero_add]
    exact hf.mono fun i hi _ => hi

/-- Unpacking uses every stored bit once, and every weight has the value of its codes. -/
theorem kQuant_unpacking (half : UInt8 → UInt8 → F) (hexact : ExactSums F) (q : KQuant) :
    Function.Bijective (codes q) ∧
      ∀ (nb : Nat) (src : List UInt8) (dst : List F), dst.length = nb * qkK →
        nb * q.blockBytes ≤ src.length →
          ∃ out, q.dequant half src dst = .ok out ∧ out.length = nb * qkK ∧
            ∀ b < nb, ∀ w : Fin 256,
              out[b * 256 + w]? = some (blockValue half q (blockAt q src b) w) := by
  refine ⟨codes_bijective q, ?_⟩
  intro nb src dst hdst hsrc
  set v : Nat → Nat → F := fun b => q.value
    (half (blockByte src (b * q.blockBytes) q.scaleAt)
      (blockByte src (b * q.blockBytes) (q.scaleAt + 1)))
    (half (blockByte src (b * q.blockBytes) 2) (blockByte src (b * q.blockBytes) 3))
    (fun k => blockByte src (b * q.blockBytes) (q.packedAt + k)) with hv
  have hlen : ∀ b < nb, ((range 256).map (v b)).length = qkK := by
    intro b _
    rw [length_map, length_range, qkK]
  refine ⟨(range nb).flatMap fun b => (range 256).map (v b), ?_, ?_, ?_⟩
  · rw [q.dequant_eq]
    refine dequantBlocks_ok hdst hsrc hlen ?_
    intro b hb out hout
    have hfit : (b + 1) * q.blockBytes ≤ nb * q.blockBytes := Nat.mul_le_mul_right _ hb
    rw [Nat.succ_mul] at hfit
    obtain ⟨out', hrun, hf⟩ := dequantBlock_filled hexact q (hfit.trans hsrc) hout
    rw [hrun, hf.eq_map]
  · exact length_flatMap_range hlen
  · intro b hb w
    have hrow := row_flatMap_range hlen b hb
    have hcell := getElem?_row qkK b ((range nb).flatMap fun b => (range 256).map (v b)) w
    have hscale : q.scaleAt + 1 < q.blockBytes ∧ 4 ≤ q.blockBytes := by
      cases q <;> decide
    rw [hrow, qkK, if_pos w.isLt] at hcell
    rw [← hcell, getElem?_map, getElem?_range w.isLt, Option.map_some, blockValue,
      value_block, byteAt_block q src b (by omega), byteAt_block q src b (by omega),
      byteAt_block q src b (by omega), byteAt_block q src b (by omega)]

end Tensor

end

/-- A block of `Q4_K` with `d = 1.0` and `dmin = 2.0`. -/
theorem kQuant_unpacking_q4 :
    Function.Bijective (codes .q4_K) ∧
      ∃ out, dequantQ4K (fun _ high => if high = 0x3C then 1 else if high = 0x40 then 2 else 0)
        ([0x00, 0x3C, 0x00, 0x40] ++ (List.range 140).map fun i => UInt8.ofNat (i * 7 + 3))
          (List.replicate 256 (0 : ℤ)) = .ok out ∧
        out[0 * 256 + 37]? = some (-6) := by
  obtain ⟨hbij, hvalues⟩ := kQuant_unpacking
    (fun _ high => if high = 0x3C then 1 else if high = 0x40 then 2 else 0)
    (@exactSums_of_ring ℤ _) .q4_K
  refine ⟨hbij, ?_⟩
  obtain ⟨out, hrun, _, hout⟩ := hvalues 1
    ([0x00, 0x3C, 0x00, 0x40] ++ (range 140).map fun i => UInt8.ofNat (i * 7 + 3))
    (replicate 256 0) length_replicate (by simp [blockBytes, q4KBytes])
  refine ⟨out, hrun, (hout 0 Nat.one_pos 37).trans ?_⟩
  decide +kernel

end Gguf
end Rustorch
