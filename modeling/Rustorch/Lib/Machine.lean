import Mathlib.Data.Int.ModEq
import Mathlib.Tactic.Ring
import Rustorch.Lib.Outcome

/-!
# 64-bit machine integers

Unsigned machine integers are naturals and signed ones are integers, with the reductions written
out where the code can wrap.  `wrapI64` reduces into the `i64` range and `asU64` is the cast of a
signed value to an unsigned one.  A chain of wrapping operations is computed modulo `2^64`.
-/

def u64Size : Nat := 2 ^ 64

theorem u64Size_pos : 0 < u64Size := by decide

theorem one_lt_u64Size : 1 < u64Size := by decide

def u32Size : Nat := 2 ^ 32

/-- Reduction of an integer to the `i64` range. -/
def wrapI64 (x : Int) : Int :=
  Int.bmod x (2 ^ 64)

/-- The cast of a 64-bit unsigned value to a signed one. -/
def asI64 (n : Nat) : Int :=
  wrapI64 n

/-- The cast of a signed value to a 64-bit unsigned one. -/
def asU64 (x : Int) : Nat :=
  (x % 2 ^ 64).toNat

theorem wrapI64_modEq (x : Int) : wrapI64 x ≡ x [ZMOD 2 ^ 64] := by
  have h := Int.bmod_emod (x := x) (m := 2 ^ 64)
  simpa [Int.ModEq, wrapI64] using h

theorem asI64_modEq (n : Nat) : asI64 n ≡ n [ZMOD 2 ^ 64] :=
  wrapI64_modEq n

variable {x : Int}

theorem wrapI64_eq_self : -(2 ^ 63) ≤ x → x < 2 ^ 63 → wrapI64 x = x := by
  intro hlo hhi
  exact Int.bmod_eq_of_le_mul_two (by omega) (by omega)

theorem asI64_eq_self {n : Nat} : n < 2 ^ 63 → asI64 n = n := by
  intro h
  exact wrapI64_eq_self (by omega) (by omega)

theorem asU64_congr {y : Int} : x ≡ y [ZMOD 2 ^ 64] → asU64 x = asU64 y := by
  intro h
  rw [asU64, asU64, h]

theorem asU64_of_nonneg : 0 ≤ x → x < 2 ^ 64 → asU64 x = x.toNat := by
  intro hlo hhi
  rw [asU64, Int.emod_eq_of_lt hlo hhi]

theorem asU64_lt (x : Int) : asU64 x < 2 ^ 64 := by
  unfold asU64
  omega

theorem le_wrapI64 (x : Int) : -(2 ^ 63) ≤ wrapI64 x := by
  have h := Int.le_bmod (x := x) (m := 2 ^ 64) (by decide)
  simpa [wrapI64] using h

theorem wrapI64_lt (x : Int) : wrapI64 x < 2 ^ 63 := by
  have h := Int.bmod_lt (x := x) (m := 2 ^ 64) (by decide)
  simpa [wrapI64] using h

/-- Signed machine integers are determined by their residue. -/
theorem eq_of_modEq_of_i64 {y : Int} :
    x ≡ y [ZMOD 2 ^ 64] → -(2 ^ 63) ≤ x → x < 2 ^ 63 → -(2 ^ 63) ≤ y → y < 2 ^ 63 → x = y := by
  intro h hx₁ hx₂ hy₁ hy₂
  unfold Int.ModEq at h
  omega

/-!
# A machine that runs a compiled program

A development build stops at an arithmetic overflow and at a failed debug assertion, a release
build wraps and goes on.  A heap request is granted up to the size of the largest block the
allocator has, and never above `isize::MAX` bytes.
-/

inductive Build
  | debug
  | release
  deriving DecidableEq, Repr

structure Machine where
  build : Build
  memory : Nat
  deriving DecidableEq, Repr

def isizeMax : Nat := 2 ^ 63 - 1

/-- The largest request that is granted on a machine with blocks of `memory` bytes. -/
def grants (memory size : Nat) : Prop :=
  size ≤ memory ∧ size ≤ isizeMax

instance (memory size : Nat) : Decidable (grants memory size) :=
  inferInstanceAs (Decidable (_ ∧ _))

/-- The contents of a vector of bytes: its length is at most `isize::MAX`. -/
structure ByteVec where
  data : List UInt8
  length_le : data.length ≤ isizeMax

/-- Writing to a vector that would outgrow `isize::MAX` panics. -/
def ByteVec.ofList {ε : Type} (bytes : List UInt8) : Outcome ε ByteVec :=
  if h : bytes.length ≤ isizeMax then .ok ⟨bytes, h⟩ else .panic

theorem ByteVec.ofList_eq_ok {ε : Type} {bytes : List UInt8} {v : ByteVec} :
    (ofList bytes : Outcome ε ByteVec) = .ok v → v.data = bytes := by
  intro h
  unfold ofList at h
  split at h
  · cases h
    rfl
  · cases h

namespace Machine

variable {ε α : Type}

/-- The result of an unsigned operation whose exact value is `x`. -/
def u64 (m : Machine) (x : Nat) : Outcome ε Nat :=
  if x < u64Size then
    .ok x
  else
    match m.build with
    | .debug => .panic
    | .release => .ok (x % u64Size)

def add (m : Machine) (x y : Nat) : Outcome ε Nat :=
  m.u64 (x + y)

def mul (m : Machine) (x y : Nat) : Outcome ε Nat :=
  m.u64 (x * y)

def sub (m : Machine) (x y : Nat) : Outcome ε Nat :=
  if y ≤ x then
    .ok (x - y)
  else
    match m.build with
    | .debug => .panic
    | .release => .ok (u64Size + x - y)

def divCeil (x y : Nat) : Outcome ε Nat :=
  if y = 0 then .panic else .ok (if x % y > 0 then x / y + 1 else x / y)

def debugAssert (m : Machine) (p : Bool) : Outcome ε Unit :=
  if p then
    .ok ()
  else
    match m.build with
    | .debug => .panic
    | .release => .ok ()

/-- `Vec::with_capacity` of `size` bytes in all, and `vec![0; n]`. -/
def alloc (m : Machine) (size : Nat) : Outcome ε Unit :=
  if grants m.memory size then .ok () else .panic

/-- `&buf[lo..hi]` -/
def slice (buf : List α) (lo hi : Nat) : Outcome ε (List α) :=
  if lo ≤ hi ∧ hi ≤ buf.length then .ok ((buf.drop lo).take (hi - lo)) else .panic

/-! ## Operations without overflow -/

variable {m : Machine} {x y : Nat}

theorem u64_of_lt : x < u64Size → (m.u64 x : Outcome ε Nat) = .ok x := by
  intro h
  exact if_pos h

theorem add_of_lt : x + y < u64Size → (m.add x y : Outcome ε Nat) = .ok (x + y) := by
  intro h
  exact u64_of_lt h

theorem mul_of_lt : x * y < u64Size → (m.mul x y : Outcome ε Nat) = .ok (x * y) := by
  intro h
  exact u64_of_lt h

theorem sub_of_le : y ≤ x → (m.sub x y : Outcome ε Nat) = .ok (x - y) := by
  intro h
  exact if_pos h

theorem debugAssert_of_true {p : Bool} :
    p = true → (m.debugAssert p : Outcome ε Unit) = .ok () := by
  intro h
  exact if_pos h

theorem alloc_of_grants : grants m.memory x → (m.alloc x : Outcome ε Unit) = .ok () := by
  intro h
  exact if_pos h

theorem alloc_of_not_grants : ¬ grants m.memory x → (m.alloc x : Outcome ε Unit) = .panic := by
  intro h
  exact if_neg h

theorem slice_of_le {buf : List α} {lo hi : Nat} : lo ≤ hi → hi ≤ buf.length →
    (slice buf lo hi : Outcome ε (List α)) = .ok ((buf.drop lo).take (hi - lo)) := by
  intro hlo hhi
  exact if_pos ⟨hlo, hhi⟩

/-- A sum that is returned fits, wrapped or not. -/
theorem lt_of_add_eq_ok {z : Nat} : (m.add x y : Outcome ε Nat) = .ok z → z < u64Size := by
  intro h
  unfold add u64 at h
  split at h
  · next hlt =>
      cases h
      exact hlt
  · split at h
    · cases h
    · cases h
      exact Nat.mod_lt _ (by decide)

/-! ## A development build that goes on met no overflow -/

section Debug

variable {memory : Nat}

theorem lt_of_debug_u64 :
    ((⟨.debug, memory⟩ : Machine).u64 x : Outcome ε Nat) ≠ .panic → x < u64Size := by
  intro h
  by_contra hx
  exact h (if_neg hx)

theorem le_of_debug_sub :
    ((⟨.debug, memory⟩ : Machine).sub x y : Outcome ε Nat) ≠ .panic → y ≤ x := by
  intro h
  by_contra hx
  exact h (if_neg hx)

theorem true_of_debug_assert {p : Bool} :
    ((⟨.debug, memory⟩ : Machine).debugAssert p : Outcome ε Unit) ≠ .panic → p = true := by
  intro h
  by_contra hp
  exact h (if_neg hp)

end Debug

/-! ## Products -/

/-- `iter().product()`: the factors are multiplied from the left, starting at one. -/
def product (m : Machine) (xs : List Nat) : Outcome ε Nat :=
  xs.foldlM (fun acc x => m.mul acc x) 1

/-- No partial product of the loop overflows. -/
def PartialProducts (xs : List Nat) : Prop :=
  ∀ k ≤ xs.length, (xs.take k).prod < u64Size

variable {xs : List Nat} {acc memory : Nat}

theorem foldlM_mul : (∀ k ≤ xs.length, acc * (xs.take k).prod < u64Size) →
      (xs.foldlM (fun acc x => m.mul acc x) acc : Outcome ε Nat) = .ok (acc * xs.prod) := by
  induction xs generalizing acc with
  | nil =>
    intro _
    simp
  | cons x xs ih =>
    intro h
    have hx : acc * x < u64Size := by simpa using h 1 (by simp)
    rw [List.foldlM_cons, mul_of_lt hx, Outcome.ok_bind, ih, List.prod_cons, mul_assoc]
    intro k hk
    have hcons := h (k + 1) (by simpa using hk)
    simpa [mul_assoc] using hcons

theorem product_eq_prod : PartialProducts xs → (m.product xs : Outcome ε Nat) = .ok xs.prod := by
  intro h
  have hfold : (m.product xs : Outcome ε Nat) = .ok (1 * xs.prod) := by
    apply foldlM_mul
    intro k hk
    simpa using h k hk
  simpa using hfold

theorem partial_of_foldlM : acc < u64Size →
    (xs.foldlM (fun acc x => (⟨.debug, memory⟩ : Machine).mul acc x) acc : Outcome ε Nat)
      ≠ .panic → ∀ k ≤ xs.length, acc * (xs.take k).prod < u64Size := by
  induction xs generalizing acc with
  | nil =>
    intro hacc _ k _
    simpa using hacc
  | cons x xs ih =>
    intro hacc h k hk
    rw [List.foldlM_cons] at h
    have hmul : ((⟨.debug, memory⟩ : Machine).mul acc x : Outcome ε Nat) ≠ .panic := by
      intro hpanic
      rw [hpanic] at h
      exact h rfl
    have hx : acc * x < u64Size := lt_of_debug_u64 hmul
    rw [mul_of_lt hx, Outcome.ok_bind] at h
    cases k with
    | zero => simpa using hacc
    | succ k =>
      have hrest := ih hx h k (by simpa using hk)
      simpa [mul_assoc] using hrest

theorem partial_of_product :
    ((⟨.debug, memory⟩ : Machine).product xs : Outcome ε Nat) ≠ .panic → PartialProducts xs := by
  intro h k hk
  simpa using partial_of_foldlM (by decide) h k hk

end Machine
