import Mathlib.Data.Nat.Digits.Defs
import Rustorch.Lib.Chunks

/-!
# Little-endian bytes

A number is stored in `k` bytes with its low byte first.  A list of equally long encodings, put end
to end, is cut back by taking chunks of that length.
-/

namespace LittleEndian

/-- `to_le_bytes` of a `k`-byte number. -/
def toBytes : Nat → Nat → List UInt8
  | 0, _ => []
  | k + 1, x => UInt8.ofNat x :: toBytes k (x / 256)

/-- `from_le_bytes` -/
def ofBytes (bs : List UInt8) : Nat :=
  Nat.ofDigits 256 (bs.map UInt8.toNat)

@[simp] theorem length_toBytes (k x : Nat) : (toBytes k x).length = k := by
  induction k generalizing x with
  | zero => rfl
  | succ k ih => simp [toBytes, ih]

theorem ofBytes_toBytes {k x : Nat} : x < 256 ^ k → ofBytes (toBytes k x) = x := by
  induction k generalizing x with
  | zero =>
    intro h
    have hx : x = 0 := by simpa using h
    rw [hx]
    rfl
  | succ k ih =>
    intro h
    have hrest : ofBytes (toBytes k (x / 256)) = x / 256 := by
      apply ih
      apply Nat.div_lt_of_lt_mul
      simpa [Nat.pow_succ, Nat.mul_comm] using h
    calc
      ofBytes (toBytes (k + 1) x)
          = (UInt8.ofNat x).toNat + 256 * ofBytes (toBytes k (x / 256)) := by
            simp [ofBytes, toBytes, Nat.ofDigits_cons]
      _ = x % 256 + 256 * (x / 256) := by
            rw [hrest, UInt8.toNat_ofNat']
      _ = x := Nat.mod_add_div x 256

/-- The first `n` bytes and the rest, if there are so many. -/
def readBytes (n : Nat) (bytes : List UInt8) : Option (List UInt8 × List UInt8) :=
  if n ≤ bytes.length then some (bytes.take n, bytes.drop n) else none

theorem readBytes_append {n : Nat} {bs : List UInt8} (hlen : bs.length = n) (rest : List UInt8) :
    readBytes n (bs ++ rest) = some (bs, rest) := by
  unfold readBytes
  rw [← hlen, if_pos (by rw [List.length_append]; exact Nat.le_add_right _ _), List.take_left,
    List.drop_left]

end LittleEndian

namespace Chunks

variable {α β : Type}

/-- `chunks_exact`: a short remainder is left out. -/
def chunksExact (c : Nat) (xs : List α) : List (List α) :=
  chunks c (xs.take (xs.length / c * c))

variable {k : Nat} {enc : α → List β}

theorem length_flatMap_of_length (hlen : ∀ a, (enc a).length = k) (xs : List α) :
    (xs.flatMap enc).length = xs.length * k := by
  induction xs with
  | nil => simp
  | cons x xs ih =>
    rw [List.flatMap_cons, List.length_append, hlen, ih, List.length_cons]
    ring

theorem take_flatMap_of_length (hlen : ∀ a, (enc a).length = k) (xs : List α) (n : Nat) :
    (xs.flatMap enc).take (n * k) = (xs.take n).flatMap enc := by
  induction xs generalizing n with
  | nil => simp
  | cons x xs ih =>
    cases n with
    | zero => simp
    | succ n =>
      have hn : (n + 1) * k = (enc x).length + n * k := by
        rw [hlen]
        ring
      rw [List.flatMap_cons, hn, List.take_length_add_append, ih, List.take_succ_cons,
        List.flatMap_cons]

theorem chunks_flatMap_of_length (hk : 0 < k) (hlen : ∀ a, (enc a).length = k) (xs : List α) :
    chunks k (xs.flatMap enc) = xs.map enc := by
  induction xs with
  | nil => simp
  | cons x xs ih =>
    rw [List.flatMap_cons, chunks_append_of_length hk _ (hlen x), ih, List.map_cons]

/-- Encodings of one length, put end to end, are cut back into the encodings. -/
theorem chunksExact_flatMap (hk : 0 < k) (hlen : ∀ a, (enc a).length = k) (xs : List α) :
    chunksExact k (xs.flatMap enc) = xs.map enc := by
  have hall : (xs.flatMap enc).length / k * k = (xs.flatMap enc).length := by
    rw [length_flatMap_of_length hlen, Nat.mul_div_cancel _ hk]
  rw [chunksExact, hall, List.take_length, chunks_flatMap_of_length hk hlen]

end Chunks
