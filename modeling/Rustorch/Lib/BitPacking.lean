import Mathlib.Data.BitVec
import Mathlib.Data.Nat.Bitwise
import Mathlib.SetTheory.Cardinal.Finite
import Rustorch.Lib.LittleEndian

/-!
# Codes packed into bytes

Numbers of a few bits each are packed into bytes by shifts and masks.  The lemmas give the bits of
such a number; when every bit of every byte is a bit of some code, and there are as many tuples of
codes as byte strings, unpacking is a bijection (`bijective_of_bits`).
-/

namespace BitPacking

open Nat (card mod_eq_of_lt pow_add)

/-! ## Bits of bytes -/

variable {x y mask k : UInt8} {low high w u : Nat}

theorem byte_ext : (∀ j < 8, x.toNat.testBit j = y.toNat.testBit j) → x = y := by
  intro h
  apply UInt8.toNat_inj.1
  apply Nat.eq_of_testBit_eq
  intro j
  by_cases hj : j < 8
  · exact h j hj
  · have hpow : 2 ^ 8 ≤ 2 ^ j := Nat.pow_le_pow_right (by decide) (Nat.le_of_not_lt hj)
    rw [Nat.testBit_lt_two_pow (lt_of_lt_of_le x.toNat_lt hpow),
      Nat.testBit_lt_two_pow (lt_of_lt_of_le y.toNat_lt hpow)]

/-- The `w` bits of a byte from bit `k` on. -/
def field (x : UInt8) (k w : Nat) : Nat :=
  (x.toNat >>> k) % 2 ^ w

theorem field_lt (x : UInt8) (k w : Nat) : field x k w < 2 ^ w :=
  Nat.mod_lt _ (Nat.two_pow_pos w)

variable {j r : Nat}

theorem testBit_field (x : UInt8) (k : Nat) : j < w →
    (field x k w).testBit j = x.toNat.testBit (k + j) := by
  intro hj
  rw [field, Nat.testBit_mod_two_pow, Nat.testBit_shiftRight, decide_eq_true hj, Bool.true_and]

theorem toNat_and_mask (x : UInt8) (w : Nat) : mask.toNat = 2 ^ w - 1 →
    (x &&& mask).toNat = field x 0 w := by
  intro hmask
  rw [UInt8.toNat_and, hmask, Nat.and_two_pow_sub_one_eq_mod, field, Nat.shiftRight_zero]

theorem toNat_shiftRight (x : UInt8) : k.toNat < 8 →
    (x >>> k).toNat = field x k.toNat (8 - k.toNat) := by
  intro hk
  have hlt : x.toNat >>> k.toNat < 2 ^ (8 - k.toNat) := by
    rw [Nat.shiftRight_eq_div_pow]
    apply Nat.div_lt_of_lt_mul
    rw [← pow_add, Nat.add_sub_cancel' (Nat.le_of_lt hk)]
    exact x.toNat_lt
  rw [UInt8.toNat_shiftRight, mod_eq_of_lt hk, field, mod_eq_of_lt hlt]

theorem toNat_shiftRight_and_mask (x : UInt8) (w : Nat) : k.toNat < 8 → mask.toNat = 2 ^ w - 1 →
    ((x >>> k) &&& mask).toNat = field x k.toNat w := by
  intro hk hmask
  rw [toNat_and_mask _ w hmask, field, UInt8.toNat_shiftRight, mod_eq_of_lt hk,
    Nat.shiftRight_zero, field]

theorem and_bit_ne_zero (x : UInt8) : mask.toNat = 2 ^ j →
    (x &&& mask ≠ 0 ↔ field x j 1 = 1) := by
  intro hmask
  have hbit : field x j 1 = (x.toNat.testBit j).toNat := by
    rw [field, Nat.pow_one, Nat.shiftRight_eq_div_pow, Nat.toNat_testBit]
  rw [Ne, ← UInt8.toNat_inj, UInt8.toNat_and, hmask, Nat.and_two_pow, hbit]
  cases x.toNat.testBit j with
  | true => simp
  | false => simp

/-! ## Two parts of a code -/

/-- A code whose low `w` bits and high bits are stored apart. -/
def join (w low high : Nat) : Nat :=
  low + high * 2 ^ w

theorem or_eq_join : low < 2 ^ w → low ||| high <<< w = join w low high := by
  intro hlow
  rw [Nat.or_comm, ← Nat.shiftLeft_add_eq_or_of_lt hlow, Nat.shiftLeft_eq, Nat.add_comm, join]

theorem join_lt : low < 2 ^ w → high < 2 ^ u → join w low high < 2 ^ (w + u) := by
  intro hlow hhigh
  calc
    join w low high < 2 ^ w + high * 2 ^ w := Nat.add_lt_add_right hlow _
    _ = (high + 1) * 2 ^ w := by rw [Nat.succ_mul, Nat.add_comm]
    _ ≤ 2 ^ u * 2 ^ w := Nat.mul_le_mul_right _ hhigh
    _ = 2 ^ (w + u) := by rw [pow_add, Nat.mul_comm]

theorem testBit_join_low (high : Nat) : low < 2 ^ w → j < w →
    (join w low high).testBit j = low.testBit j := by
  intro hlow hj
  rw [← or_eq_join hlow, Nat.testBit_or, Nat.testBit_shiftLeft]
  simp [Nat.not_le_of_lt hj]

theorem testBit_join_high (high j : Nat) : low < 2 ^ w →
    (join w low high).testBit (w + j) = high.testBit j := by
  intro hlow
  have hpow : 2 ^ w ≤ 2 ^ (w + j) := Nat.pow_le_pow_right (by decide) (Nat.le_add_right w j)
  rw [← or_eq_join hlow, Nat.testBit_or, Nat.testBit_shiftLeft,
    Nat.testBit_lt_two_pow (lt_of_lt_of_le hlow hpow)]
  simp

theorem toNat_or_shiftLeft (x y : UInt8) : k.toNat < 8 → x.toNat < 2 ^ k.toNat →
    y.toNat < 2 ^ (8 - k.toNat) → (x ||| y <<< k).toNat = join k.toNat x.toNat y.toNat := by
  intro hk hx hy
  have hfit : y.toNat <<< k.toNat < 2 ^ 8 := by
    rw [Nat.shiftLeft_eq]
    calc
      y.toNat * 2 ^ k.toNat < 2 ^ (8 - k.toNat) * 2 ^ k.toNat :=
        Nat.mul_lt_mul_of_pos_right hy (Nat.two_pow_pos _)
      _ = 2 ^ 8 := by rw [← pow_add, Nat.sub_add_cancel (Nat.le_of_lt hk)]
  rw [UInt8.toNat_or, UInt8.toNat_shiftLeft, mod_eq_of_lt hk, mod_eq_of_lt hfit,
    or_eq_join hx]

/-- A bit that is shifted on from turn to turn, and falls out of the byte in the end. -/
theorem toNat_shift_bit : k.toNat < 8 → x.toNat = 2 ^ r % 256 →
    (x <<< k).toNat = 2 ^ (r + k.toNat) % 256 := by
  intro hk hx
  rw [UInt8.toNat_shiftLeft, mod_eq_of_lt hk, Nat.shiftLeft_eq, hx, Nat.mod_mul_mod,
    pow_add]

theorem two_pow_mod : r < 8 → 2 ^ r % 256 = 2 ^ r := by
  intro hr
  exact mod_eq_of_lt (Nat.pow_lt_pow_right (by decide) hr)

/-! ## Bytes of a word -/

theorem testBit_ofBytes (bs : List UInt8) :
    ∀ {t j : Nat}, j < 8 →
      (LittleEndian.ofBytes bs).testBit (8 * t + j) = (bs.getD t 0).toNat.testBit j := by
  induction bs with
  | nil =>
    intro t j _
    simp [LittleEndian.ofBytes]
  | cons b bs ih =>
    intro t j hj
    have hcons : LittleEndian.ofBytes (b :: bs) = 2 ^ 8 * LittleEndian.ofBytes bs + b.toNat := by
      simp [LittleEndian.ofBytes, Nat.ofDigits_cons, Nat.add_comm]
    rw [hcons, Nat.testBit_two_pow_mul_add _ b.toNat_lt]
    cases t with
    | zero =>
      rw [if_pos (by omega), Nat.mul_zero, Nat.zero_add, List.getD_cons_zero]
    | succ t =>
      rw [if_neg (by omega), List.getD_cons_succ, ← ih hj]
      congr 1
      omega

/-! ## Unpacking -/

theorem getLsbD_code {c : Nat} : j < w → (BitVec.ofNat w c).getLsbD j = c.testBit j := by
  intro hj
  rw [BitVec.getLsbD_ofNat, decide_eq_true hj, Bool.true_and]

theorem card_bitVec (w : Nat) : card (BitVec w) = 2 ^ w := by
  rw [Nat.card_congr BitVec.equivFin.toEquiv, Nat.card_eq_fintype_card, Fintype.card_fin]

theorem card_byte : card UInt8 = 256 := by
  have hequiv : UInt8 ≃ BitVec 8 := ⟨UInt8.toBitVec, UInt8.ofBitVec, fun _ => rfl, fun _ => rfl⟩
  exact (Nat.card_congr hequiv).trans (card_bitVec 8)

/-- If every stored bit can be read off the codes, the codes determine the bytes; if there are no
more tuples of codes than byte strings, every tuple of codes is stored by some bytes. -/
theorem bijective_of_bits {n : Nat} {C : Type} [Finite C] {decode : (Fin n → UInt8) → C} :
    card C ≤ 256 ^ n →
      (∀ (i : Fin n) (j : Nat), j < 8 →
        ∃ read : C → Bool, ∀ bytes, read (decode bytes) = (bytes i).toNat.testBit j) →
        Function.Bijective decode := by
  intro hcard hbits
  have hinj : Function.Injective decode := by
    intro bytes bytes' heq
    funext i
    apply byte_ext
    intro j hj
    obtain ⟨read, hread⟩ := hbits i j hj
    rw [← hread bytes, ← hread bytes', heq]
  have hbytes : card (Fin n → UInt8) = 256 ^ n := by
    rw [Nat.card_pi, Finset.prod_const, card_byte, Finset.card_univ, Fintype.card_fin]
  exact hinj.bijective_of_nat_card_le (by rwa [hbytes])

end BitPacking
