import Mathlib.Algebra.BigOperators.Group.List.Basic
import Mathlib.Algebra.Order.Group.Multiset
import Mathlib.Data.Int.ModEq
import Mathlib.Tactic.Abel
import Mathlib.Tactic.Ring

/-!
# The GPU buffer pool

`acquire` pops a buffer of the bucket or creates one; `release` reads the policy, then the byte
counter, and then takes the lock of the bins, under which it checks both caps and pushes.  Every
lock section and every access to the counter is a step of its own, and the calls of all threads
interleave.  The cap on the bytes is checked against a counter that was read before the lock was
taken, so two releases can both push under it; in a run in which no push overshoots, the pool keeps
its budget (`pool_sound`).
-/

namespace Rustorch
namespace Wgpu

open List Multiset

/-! ## Requests and buckets -/

/-- `u64::next_power_of_two`; it wraps to 0 above `2 ^ 63`. -/
def nextPowerOfTwo (size : UInt64) : UInt64 :=
  if size.toNat ≤ 1 then
    1
  else
    UInt64.ofNat (2 ^ (Nat.log2 (size.toNat - 1) + 1))

def bucketOf (size : UInt64) : UInt64 :=
  max (nextPowerOfTwo size) 64

def saturatingAdd (a b : UInt64) : UInt64 :=
  if a.toNat + b.toNat < UInt64.size then
    a + b
  else
    UInt64.ofNat (UInt64.size - 1)

structure Buffer where
  id : Nat
  bytes : UInt64
  deriving DecidableEq, Repr

structure PoolPolicy where
  maxBytes : UInt64
  maxPerBucket : Nat
  deriving DecidableEq, Repr

/-! ## Bins -/

/-- The entries of `HashMap<u64, Vec<Buffer>>`. -/
abbrev Bins : Type := List (UInt64 × List Buffer)

def binOf : Bins → UInt64 → List Buffer
  | [], _ => []
  | (k, bin) :: bins, bucket => if k = bucket then bin else binOf bins bucket

def setBin : Bins → UInt64 → List Buffer → Bins
  | [], bucket, bin => [(bucket, bin)]
  | (k, old) :: bins, bucket, bin =>
    if k = bucket then (k, bin) :: bins else (k, old) :: setBin bins bucket bin

/-- The bytes of the buffers held: bucket size times number of buffers. -/
def pooled (bins : Bins) : Nat :=
  (bins.map fun e => e.1.toNat * e.2.length).sum

/-! ## Calls in progress -/

inductive Call
  /-- Before the lock of the bins. -/
  | acquire (size : UInt64)
  /-- A hit, under the lock, before the counter is lowered. -/
  | acquireHit (size bucket : UInt64) (buf : Buffer)
  /-- A miss, after the lock. -/
  | acquireMiss (size bucket : UInt64)
  /-- Before the lock of the policy. -/
  | release (bucket : UInt64) (buf : Buffer)
  /-- Before the counter is read. -/
  | releasePolicy (bucket : UInt64) (buf : Buffer) (policy : PoolPolicy)
  /-- Before the lock of the bins, with the counter as it was read. -/
  | releaseCounter (bucket : UInt64) (buf : Buffer) (policy : PoolPolicy) (curBytes : UInt64)
  /-- Under the lock, after the push and before the counter is raised. -/
  | releasePushed (bucket : UInt64)
  /-- Before the lock of the policy. -/
  | setPolicy (policy : PoolPolicy)
  /-- Before the lock of the bins. -/
  | evictAll
  /-- Under the lock, with the number of bins that are cleared. -/
  | evicting (cleared : Nat)
  deriving DecidableEq, Repr

structure Pool where
  policy : PoolPolicy
  bins : Bins
  binsLocked : Bool
  bytesPooled : UInt64
  calls : List Call
  /-- The buffers that callers have, each with the size it was acquired for. -/
  owned : List (Buffer × UInt64)
  created : Nat
  deriving DecidableEq, Repr

def Pool.new (policy : PoolPolicy) : Pool where
  policy := policy
  bins := []
  binsLocked := false
  bytesPooled := 0
  calls := []
  owned := []
  created := 0

/-- The check of `try_release` under the lock. -/
def rejects (policy : PoolPolicy) (binLen : Nat) (curBytes bucket : UInt64) : Bool :=
  policy.maxPerBucket ≤ binLen ∨ policy.maxBytes < saturatingAdd curBytes bucket

/-- One step of a call, with the other calls in progress; a call that needs the lock waits while it
is taken. -/
def Call.advance (call : Call) (s : Pool) : Option Pool :=
  match call with
  | .acquire size =>
    let bucket := bucketOf size
    if s.binsLocked then
      none
    else
      match binOf s.bins bucket with
      | [] => some { s with calls := .acquireMiss size bucket :: s.calls }
      | buf :: bin =>
        some
          { s with
            bins := setBin s.bins bucket bin
            binsLocked := true
            calls := .acquireHit size bucket buf :: s.calls }
  | .acquireHit size bucket buf =>
    some
      { s with
        bytesPooled := s.bytesPooled - bucket
        binsLocked := false
        owned := (buf, size) :: s.owned }
  | .acquireMiss size bucket =>
    some
      { s with
        owned := ({ id := s.created, bytes := bucket }, size) :: s.owned
        created := s.created + 1 }
  | .release bucket buf =>
    some { s with calls := .releasePolicy bucket buf s.policy :: s.calls }
  | .releasePolicy bucket buf policy =>
    some { s with calls := .releaseCounter bucket buf policy s.bytesPooled :: s.calls }
  | .releaseCounter bucket buf policy curBytes =>
    let bin := binOf s.bins bucket
    if s.binsLocked then
      none
    else if rejects policy bin.length curBytes bucket then
      some { s with bins := setBin s.bins bucket bin }
    else
      some
        { s with
          bins := setBin s.bins bucket (buf :: bin)
          binsLocked := true
          calls := .releasePushed bucket :: s.calls }
  | .releasePushed bucket =>
    some { s with bytesPooled := s.bytesPooled + bucket, binsLocked := false }
  | .setPolicy policy => some { s with policy := policy }
  | .evictAll =>
    if s.binsLocked then
      none
    else
      some { s with binsLocked := true, calls := .evicting 0 :: s.calls }
  | .evicting cleared =>
    match s.bins[cleared]? with
    | none => some { s with binsLocked := false }
    | some (bucket, bin) =>
      some
        { s with
          bytesPooled := s.bytesPooled - bucket * UInt64.ofNat bin.length
          bins := s.bins.set cleared (bucket, [])
          calls := .evicting (cleared + 1) :: s.calls }

inductive Action
  | acquire (size : UInt64)
  /-- A caller gives back a buffer with the size it asked for. -/
  | release (size : UInt64) (buf : Buffer)
  | setPolicy (policy : PoolPolicy)
  | evictAll
  /-- The next step of the call at a place in the list. -/
  | run (i : Nat)
  deriving DecidableEq, Repr

def step (s : Pool) : Action → Option Pool
  | .acquire size => some { s with calls := .acquire size :: s.calls }
  | .release size buf =>
    if (buf, size) ∈ s.owned then
      some
        { s with
          owned := s.owned.erase (buf, size)
          calls := .release (bucketOf size) buf :: s.calls }
    else
      none
  | .setPolicy policy => some { s with calls := .setPolicy policy :: s.calls }
  | .evictAll => some { s with calls := .evictAll :: s.calls }
  | .run i =>
    match s.calls[i]? with
    | none => none
    | some call => call.advance { s with calls := s.calls.eraseIdx i }

def steps (s : Pool) : List Action → Option Pool
  | [] => some s
  | a :: as => (step s a).bind fun s => steps s as

/-! ## The property -/

/-- The budget of the pool while no call is in progress, one owner for each buffer, and buffers
large enough. -/
structure PoolSound (s : Pool) : Prop where
  counter : s.calls = [] → s.bytesPooled.toNat = pooled s.bins
  budget : s.calls = [] → s.bytesPooled ≤ s.policy.maxBytes
  perBucket : s.calls = [] → ∀ e ∈ s.bins, e.2.length ≤ s.policy.maxPerBucket
  oneOwner : (s.owned.map fun o => o.1.id).Nodup
  large : ∀ o ∈ s.owned, o.2 ≤ o.1.bytes

/-- The step leaves the policy alone. -/
def keepsPolicy : Action → Bool
  | .setPolicy _ => false
  | _ => true

/-- A request fits a power of two, and a push that the check admits does not overshoot with the
bytes that are held when it is made. -/
def fits (s : Pool) : Action → Bool
  | .acquire size => size.toNat ≤ 2 ^ 63
  | .run i =>
    match s.calls[i]? with
    | some (.releaseCounter bucket _ policy curBytes) =>
      rejects policy (binOf s.bins bucket).length curBytes bucket ||
        decide (pooled s.bins + bucket.toNat ≤ s.policy.maxBytes.toNat)
    | _ => true
  | _ => true

/-- Every step of a run fits in the state that it is made in. -/
def allFit : Pool → List Action → Bool
  | _, [] => true
  | s, a :: as =>
    fits s a &&
      match step s a with
      | some s' => allFit s' as
      | none => true

/-! ## Sums over the bins -/

section Total

variable {M : Type} [AddCancelCommMonoid M] {weight : UInt64 × List Buffer → M} {bins : Bins}
  {bucket : UInt64}

def total (weight : UInt64 × List Buffer → M) (bins : Bins) : M :=
  (bins.map weight).sum

theorem total_cons (e : UInt64 × List Buffer) (bins : Bins) :
    total weight (e :: bins) = weight e + total weight bins := by
  rw [total, List.map_cons, List.sum_cons, total]

theorem total_setBin (h0 : ∀ k, weight (k, []) = 0) (bins : Bins) (bucket : UInt64)
    (bin : List Buffer) :
    total weight (setBin bins bucket bin) + weight (bucket, binOf bins bucket) =
      total weight bins + weight (bucket, bin) := by
  induction bins with
  | nil =>
    rw [setBin, binOf, h0, add_zero, total_cons, add_comm]
  | cons e bins ih =>
    obtain ⟨k, old⟩ := e
    rw [setBin, binOf]
    by_cases hk : k = bucket
    · subst hk
      rw [if_pos rfl, if_pos rfl, total_cons, total_cons]
      abel
    · rw [if_neg hk, if_neg hk, total_cons, total_cons, add_assoc, ih, add_assoc]

variable {bin : List Buffer}

theorem total_clear (h0 : ∀ k, weight (k, []) = 0) {i : Nat} (hi : bins[i]? = some (bucket, bin)) :
    total weight (bins.set i (bucket, [])) + weight (bucket, bin) = total weight bins := by
  induction bins generalizing i with
  | nil => cases hi
  | cons e bins ih =>
    cases i with
    | zero =>
      cases hi
      rw [set_cons_zero, total_cons, total_cons, h0, zero_add, add_comm]
    | succ i =>
      rw [set_cons_succ, total_cons, total_cons, add_assoc, ih hi]

omit [AddCancelCommMonoid M] in
theorem mem_setBin {e : UInt64 × List Buffer} :
    e ∈ setBin bins bucket bin → e ∈ bins ∨ e = (bucket, bin) := by
  induction bins with
  | nil =>
    intro h
    exact Or.inr (List.mem_singleton.1 h)
  | cons old bins ih =>
    intro h
    obtain ⟨k, old⟩ := old
    rw [setBin] at h
    by_cases hk : k = bucket
    · rw [if_pos hk] at h
      rcases mem_cons.1 h with rfl | h
      · exact Or.inr (by rw [hk])
      · exact Or.inl (mem_cons_of_mem _ h)
    · rw [if_neg hk] at h
      rcases mem_cons.1 h with rfl | h
      · exact Or.inl mem_cons_self
      · exact (ih h).imp_left (mem_cons_of_mem _)

omit [AddCancelCommMonoid M] in
theorem binOf_mem : binOf bins bucket ≠ [] → (bucket, binOf bins bucket) ∈ bins := by
  induction bins with
  | nil =>
    intro h
    exact absurd rfl h
  | cons e bins ih =>
    intro h
    obtain ⟨k, bin⟩ := e
    rw [binOf] at h ⊢
    by_cases hk : k = bucket
    · subst hk
      rw [if_pos rfl]
      exact mem_cons_self
    · rw [if_neg hk] at h ⊢
      exact mem_cons_of_mem _ (ih h)

end Total

def bytesWeight (e : UInt64 × List Buffer) : Nat :=
  e.1.toNat * e.2.length

def idsWeight (e : UInt64 × List Buffer) : Multiset Nat :=
  (e.2.map Buffer.id : List Nat)

theorem bytesWeight_nil (k : UInt64) : bytesWeight (k, []) = 0 :=
  Nat.mul_zero _

theorem idsWeight_nil (k : UInt64) : idsWeight (k, []) = 0 :=
  rfl

theorem bytesWeight_cons (k : UInt64) (buf : Buffer) (bin : List Buffer) :
    bytesWeight (k, buf :: bin) = bytesWeight (k, bin) + k.toNat :=
  Nat.mul_succ _ _

theorem idsWeight_cons (k : UInt64) (buf : Buffer) (bin : List Buffer) :
    idsWeight (k, buf :: bin) = {buf.id} + idsWeight (k, bin) := by
  rfl

theorem pooled_eq (bins : Bins) : pooled bins = total bytesWeight bins :=
  rfl

/-! ## Buckets -/

theorem le_bucketOf {size : UInt64} (h : size.toNat ≤ 2 ^ 63) : size ≤ bucketOf size := by
  have hpow : size ≤ nextPowerOfTwo size := by
    rw [UInt64.le_iff_toNat_le, nextPowerOfTwo]
    by_cases hone : size.toNat ≤ 1
    · rw [if_pos hone]
      exact hone
    · rw [if_neg hone]
      have hlt : size.toNat - 1 < 2 ^ (Nat.log2 (size.toNat - 1) + 1) := Nat.lt_log2_self
      have hlog : Nat.log2 (size.toNat - 1) < 63 := (Nat.log2_lt (by omega)).2 (by omega)
      have hle : 2 ^ (Nat.log2 (size.toNat - 1) + 1) ≤ 2 ^ 63 :=
        Nat.pow_le_pow_right (by decide) hlog
      rw [UInt64.toNat_ofNat', Nat.mod_eq_of_lt (by omega)]
      omega
  change size ≤ if nextPowerOfTwo size ≤ 64 then 64 else nextPowerOfTwo size
  split_ifs with hsmall
  · exact hpow.trans (UInt64.le_iff_toNat_le.1 hsmall)
  · exact hpow

/-! ## The invariant -/

/-- What the bins hold beyond what the counter says. -/
def Call.drift : Call → Int
  | .acquireHit _ bucket _ => -(bucket.toNat : Int)
  | .releasePushed bucket => bucket.toNat
  | _ => 0

/-- The buffer that a call has. -/
def Call.ids : Call → List Nat
  | .acquireHit _ _ buf => [buf.id]
  | .release _ buf => [buf.id]
  | .releasePolicy _ buf _ => [buf.id]
  | .releaseCounter _ buf _ _ => [buf.id]
  | _ => []

/-- A call read the policy of the pool, asks for a size that fits, and has a buffer of its
bucket. -/
def Call.Agrees (policy : PoolPolicy) : Call → Prop
  | .acquire size => size.toNat ≤ 2 ^ 63
  | .acquireHit size bucket buf =>
    size.toNat ≤ 2 ^ 63 ∧ bucket = bucketOf size ∧ buf.bytes = bucket
  | .acquireMiss size bucket => size.toNat ≤ 2 ^ 63 ∧ bucket = bucketOf size
  | .release bucket buf => buf.bytes = bucket
  | .releasePolicy bucket buf seen => buf.bytes = bucket ∧ seen = policy
  | .releaseCounter bucket buf seen _ => buf.bytes = bucket ∧ seen = policy
  | .setPolicy _ => False
  | _ => True

/-- The buffers that are held, in use by a call, or owned. -/
def allIds (s : Pool) : Multiset Nat :=
  total idsWeight s.bins +
    (s.calls.map fun c => (c.ids : Multiset Nat)).sum +
    ((s.owned.map fun o => o.1.id : List Nat) : Multiset Nat)

structure Inv (policy : PoolPolicy) (s : Pool) : Prop where
  policy_eq : s.policy = policy
  counter : (s.bytesPooled.toNat : Int) + (s.calls.map Call.drift).sum ≡ pooled s.bins [ZMOD 2 ^ 64]
  budget : pooled s.bins ≤ policy.maxBytes.toNat
  perBucket : ∀ e ∈ s.bins, e.2.length ≤ policy.maxPerBucket
  binSizes : ∀ e ∈ s.bins, ∀ buf ∈ e.2, buf.bytes = e.1
  agrees : ∀ c ∈ s.calls, c.Agrees policy
  ownedSizes : ∀ o ∈ s.owned, o.2.toNat ≤ 2 ^ 63 ∧ o.1.bytes = bucketOf o.2
  ids : (allIds s).Nodup
  fresh : ∀ id ∈ allIds s, id < s.created

theorem inv_new (policy : PoolPolicy) : Inv policy (Pool.new policy) where
  policy_eq := rfl
  counter := Int.ModEq.refl _
  budget := Nat.zero_le _
  perBucket := by simp [Pool.new]
  binSizes := by simp [Pool.new]
  agrees := by simp [Pool.new]
  ownedSizes := by simp [Pool.new]
  ids := by simp [allIds, Pool.new, total]
  fresh := by simp [allIds, Pool.new, total]

variable {policy : PoolPolicy} {s : Pool} {calls : List Call} {rest : Int} {held : Nat}

/-- No buffer is held twice where none was, and none is held that was not. -/
theorem Inv.held_of_le {s' : Pool} (h : Inv policy s) (hle : allIds s' ≤ allIds s)
    (hcreated : s.created ≤ s'.created) :
    (allIds s').Nodup ∧ ∀ id ∈ allIds s', id < s'.created := by
  constructor
  · exact nodup_of_le hle h.ids
  · intro id hid
    exact (h.fresh id (mem_of_le hle hid)).trans_le hcreated

theorem allIds_perm (hp : s.calls.Perm calls) : allIds { s with calls := calls } = allIds s := by
  simp only [allIds, ((hp.map fun c => (c.ids : Multiset Nat)).sum_eq)]

theorem Inv.perm (h : Inv policy s) (hp : s.calls.Perm calls) :
    Inv policy { s with calls := calls } where
  policy_eq := h.policy_eq
  counter := by
    have hsum : (calls.map Call.drift).sum = (s.calls.map Call.drift).sum :=
      ((hp.map _).sum_eq).symm
    rw [hsum]
    exact h.counter
  budget := h.budget
  perBucket := h.perBucket
  binSizes := h.binSizes
  agrees := fun c hc => h.agrees c (hp.mem_iff.2 hc)
  ownedSizes := h.ownedSizes
  ids := (h.held_of_le (allIds_perm hp).le (Nat.le_refl _)).1
  fresh := (h.held_of_le (allIds_perm hp).le (Nat.le_refl _)).2

theorem counter_add {b x : UInt64} (h : (b.toNat : Int) + (x.toNat + rest) ≡ held [ZMOD 2 ^ 64]) :
    ((b + x).toNat : Int) + rest ≡ held [ZMOD 2 ^ 64] := by
  rw [UInt64.toNat_add]
  unfold Int.ModEq at *
  omega

theorem counter_sub {b x : UInt64}
    (h : (b.toNat : Int) + (-(x.toNat : Int) + rest) ≡ held [ZMOD 2 ^ 64]) :
    ((b - x).toNat : Int) + rest ≡ held [ZMOD 2 ^ 64] := by
  rw [UInt64.toNat_sub]
  have hx := x.toNat_lt
  unfold Int.ModEq at *
  omega

/-- The bins and the drift of a call move together. -/
theorem counter_moved {b d : Int} {held' : Nat} (h : b + rest ≡ held [ZMOD 2 ^ 64])
    (hmoved : (held' : Int) = held + d) : b + (d + rest) ≡ held' [ZMOD 2 ^ 64] := by
  unfold Int.ModEq at *
  omega

/-- A push that does not overshoot keeps both caps. -/
theorem not_rejects {n : Nat} {cur bucket : UInt64} (h : rejects policy n cur bucket = false) :
    n < policy.maxPerBucket := by
  rw [rejects, decide_eq_false_iff_not, not_or] at h
  exact not_le.1 h.1

section Advance

variable {policy : PoolPolicy} {s s' : Pool} {c : Call}

/-- The parts of the invariant about the bins, where a bin has become smaller. -/
theorem Inv.bins_of_subset (h : Inv policy s) {bins : Bins}
    (hsub : ∀ e ∈ bins, e ∈ s.bins ∨
      ∃ old ∈ s.bins, old.1 = e.1 ∧ e.2.length ≤ old.2.length ∧ e.2 ⊆ old.2) :
    (∀ e ∈ bins, e.2.length ≤ policy.maxPerBucket) ∧
      ∀ e ∈ bins, ∀ buf ∈ e.2, buf.bytes = e.1 := by
  constructor
  · intro e he
    rcases hsub e he with he | ⟨old, hold, _, hlen, _⟩
    · exact h.perBucket e he
    · exact hlen.trans (h.perBucket old hold)
  · intro e he buf hbuf
    rcases hsub e he with he | ⟨old, hold, hkey, _, hmem⟩
    · exact h.binSizes e he buf hbuf
    · rw [← hkey]
      exact h.binSizes old hold buf (hmem hbuf)

theorem allIds_cons (c : Call) (s : Pool) (calls : List Call) :
    allIds { s with calls := c :: calls } =
      (c.ids : Multiset Nat) + allIds { s with calls := calls } := by
  simp only [allIds, List.map_cons, List.sum_cons]
  abel

theorem allIds_le_cons (c : Call) (s : Pool) :
    allIds s ≤ allIds { s with calls := c :: s.calls } := by
  rw [allIds_cons]
  exact le_add_left _ _

/-- A call that leaves everything but itself and keeps its buffer. -/
theorem Inv.replace {c' : Call} {calls : List Call} (h : Inv policy { s with calls := c :: calls })
    (hdrift : c'.drift = c.drift) (hids : c'.ids = c.ids)
    (hagrees : c.Agrees policy → c'.Agrees policy) :
    Inv policy { s with calls := c' :: calls } where
  policy_eq := h.policy_eq
  counter := by
    have hcounter := h.counter
    rw [List.map_cons, List.sum_cons] at hcounter ⊢
    rwa [hdrift]
  budget := h.budget
  perBucket := h.perBucket
  binSizes := h.binSizes
  agrees := by
    intro d hd
    rcases mem_cons.1 hd with rfl | hd
    · exact hagrees (h.agrees c mem_cons_self)
    · exact h.agrees d (mem_cons_of_mem _ hd)
  ownedSizes := h.ownedSizes
  ids := by
    have hnodup := h.ids
    rw [allIds_cons] at hnodup ⊢
    rwa [hids]
  fresh := by
    have hfresh := h.fresh
    rw [allIds_cons] at hfresh ⊢
    rwa [hids]

theorem Inv.finish (h : Inv policy { s with calls := c :: s.calls }) (hdrift : c.drift = 0) :
    Inv policy s where
  policy_eq := h.policy_eq
  counter := by
    have hcounter := h.counter
    rwa [List.map_cons, List.sum_cons, hdrift, zero_add] at hcounter
  budget := h.budget
  perBucket := h.perBucket
  binSizes := h.binSizes
  agrees := fun d hd => h.agrees d (mem_cons_of_mem _ hd)
  ownedSizes := h.ownedSizes
  ids := (h.held_of_le (allIds_le_cons c s) (Nat.le_refl _)).1
  fresh := (h.held_of_le (allIds_le_cons c s) (Nat.le_refl _)).2

theorem Inv.start (h : Inv policy s) (hdrift : c.drift = 0) (hids : c.ids = [])
    (hagrees : c.Agrees policy) : Inv policy { s with calls := c :: s.calls } where
  policy_eq := h.policy_eq
  counter := by
    rw [List.map_cons, List.sum_cons, hdrift, zero_add]
    exact h.counter
  budget := h.budget
  perBucket := h.perBucket
  binSizes := h.binSizes
  agrees := by
    intro d hd
    rcases mem_cons.1 hd with rfl | hd
    · exact hagrees
    · exact h.agrees d hd
  ownedSizes := h.ownedSizes
  ids := by
    rw [allIds_cons, hids]
    simpa using h.ids
  fresh := by
    rw [allIds_cons, hids]
    simpa using h.fresh

theorem Inv.lock (h : Inv policy s) (b : Bool) : Inv policy { s with binsLocked := b } :=
  ⟨h.policy_eq, h.counter, h.budget, h.perBucket, h.binSizes, h.agrees, h.ownedSizes, h.ids,
    h.fresh⟩

variable {size : UInt64} {buf : Buffer} {bin : List Buffer} {bucket : UInt64}

theorem Inv.hit (h : Inv policy { s with calls := .acquire size :: s.calls })
    (hbin : binOf s.bins (bucketOf size) = buf :: bin) : Inv policy
      { s with
        bins := setBin s.bins (bucketOf size) bin
        binsLocked := true
        calls := .acquireHit size (bucketOf size) buf :: s.calls } := by
  have hsize : size.toNat ≤ 2 ^ 63 := h.agrees _ mem_cons_self
  have hentry : (bucketOf size, buf :: bin) ∈ s.bins := by
    rw [← hbin]
    exact binOf_mem (by rw [hbin]; exact cons_ne_nil _ _)
  have hbytes : buf.bytes = bucketOf size := h.binSizes _ hentry buf mem_cons_self
  have hpooled : pooled (setBin s.bins (bucketOf size) bin) + (bucketOf size).toNat =
      pooled s.bins := by
    have htotal := total_setBin bytesWeight_nil s.bins (bucketOf size) bin
    rw [hbin, ← pooled_eq, ← pooled_eq, bytesWeight_cons] at htotal
    omega
  have hids : total idsWeight
      (setBin s.bins (bucketOf size) bin) + {buf.id} =
      total idsWeight s.bins := by
    have htotal := total_setBin idsWeight_nil s.bins (bucketOf size) bin
    rw [hbin, idsWeight_cons, ← add_assoc] at htotal
    exact add_right_cancel htotal
  have hall : allIds
      { s with
        bins := setBin s.bins (bucketOf size) bin
        calls := .acquireHit size (bucketOf size) buf :: s.calls } =
      allIds { s with calls := .acquire size :: s.calls } := by
    simp only [allIds, List.map_cons, List.sum_cons, Call.ids, coe_nil, zero_add, coe_singleton]
    rw [← hids]
    abel
  have hsub : ∀ e ∈ setBin s.bins (bucketOf size) bin, e ∈ s.bins ∨
      ∃ old ∈ s.bins, old.1 = e.1 ∧ e.2.length ≤ old.2.length ∧ e.2 ⊆ old.2 := by
    intro e he
    rcases mem_setBin he with he | rfl
    · exact Or.inl he
    · exact Or.inr ⟨_, hentry, rfl, Nat.le_succ _, subset_cons_self _ _⟩
  obtain ⟨hper, hsizes⟩ := h.bins_of_subset hsub
  refine ⟨h.policy_eq, ?_, ?_, hper, hsizes, ?_, h.ownedSizes, ?_, ?_⟩
  · have hcounter := h.counter
    rw [List.map_cons, List.sum_cons, show (Call.acquire size).drift = 0 from rfl, zero_add]
      at hcounter
    have hmoved : (pooled (setBin s.bins (bucketOf size) bin) : Int) =
        pooled s.bins + -((bucketOf size).toNat : Int) := by
      omega
    exact counter_moved hcounter hmoved
  · have hbudget := h.budget
    change pooled s.bins ≤ _ at hbudget
    change pooled (setBin s.bins (bucketOf size) bin) ≤ _
    omega
  · intro d hd
    rcases mem_cons.1 hd with rfl | hd
    · exact ⟨hsize, rfl, hbytes⟩
    · exact h.agrees d (mem_cons_of_mem _ hd)
  · exact (h.held_of_le hall.le (Nat.le_refl _)).1
  · exact (h.held_of_le hall.le (Nat.le_refl _)).2

theorem Inv.handOut (h : Inv policy { s with calls := .acquireHit size bucket buf :: s.calls }) :
    Inv policy
      { s with
        bytesPooled := s.bytesPooled - bucket
        binsLocked := false
        owned := (buf, size) :: s.owned } := by
  obtain ⟨hsize, hbucket, hbytes⟩ := h.agrees _ mem_cons_self
  have hall : allIds
      { s with
        owned := (buf, size) :: s.owned } =
      allIds { s with calls := .acquireHit size bucket buf :: s.calls } := by
    simp only [allIds, List.map_cons, List.sum_cons, Call.ids, ← cons_coe, ← singleton_add]
    abel
  refine ⟨h.policy_eq, ?_, h.budget, h.perBucket, h.binSizes,
    fun d hd => h.agrees d (mem_cons_of_mem _ hd), ?_, ?_, ?_⟩
  · have hcounter := h.counter
    exact counter_sub hcounter
  · intro o ho
    rcases mem_cons.1 ho with rfl | ho
    · exact ⟨hsize, hbytes.trans hbucket⟩
    · exact h.ownedSizes o ho
  · exact (h.held_of_le hall.le (Nat.le_refl _)).1
  · exact (h.held_of_le hall.le (Nat.le_refl _)).2

theorem Inv.create (h : Inv policy { s with calls := .acquireMiss size bucket :: s.calls }) :
    Inv policy
      { s with
        owned := ({ id := s.created, bytes := bucket }, size) :: s.owned
        created := s.created + 1 } := by
  obtain ⟨hsize, hbucket⟩ := h.agrees _ mem_cons_self
  have hrest : Inv policy s := h.finish rfl
  have hall : allIds
      { s with
        owned := ({ id := s.created, bytes := bucket }, size) :: s.owned
        created := s.created + 1 } = s.created ::ₘ allIds s := by
    simp only [allIds, List.map_cons, ← cons_coe, ← singleton_add]
    abel
  refine ⟨hrest.policy_eq, hrest.counter, hrest.budget, hrest.perBucket, hrest.binSizes,
    hrest.agrees, ?_, ?_, ?_⟩
  · intro o ho
    rcases mem_cons.1 ho with rfl | ho
    · exact ⟨hsize, hbucket⟩
    · exact hrest.ownedSizes o ho
  · rw [hall, Multiset.nodup_cons]
    refine ⟨?_, hrest.ids⟩
    intro hmem
    exact lt_irrefl _ (hrest.fresh _ hmem)
  · rw [hall]
    intro id hid
    rcases mem_cons.1 hid with rfl | hid
    · exact Nat.lt_succ_self _
    · exact (hrest.fresh id hid).trans (Nat.lt_succ_self _)

theorem Inv.push {cur : UInt64} {seen : PoolPolicy}
    (h : Inv policy { s with calls := .releaseCounter bucket buf seen cur :: s.calls })
    (hkept : rejects seen (binOf s.bins bucket).length cur bucket = false)
    (hfits : pooled s.bins + bucket.toNat ≤ policy.maxBytes.toNat) : Inv policy
      { s with
        bins := setBin s.bins bucket (buf :: binOf s.bins bucket)
        binsLocked := true
        calls := .releasePushed bucket :: s.calls } := by
  obtain ⟨hbytes, hseen⟩ := h.agrees _ mem_cons_self
  subst hseen
  have hpooled : pooled (setBin s.bins bucket (buf :: binOf s.bins bucket)) =
      pooled s.bins + bucket.toNat := by
    have htotal := total_setBin bytesWeight_nil s.bins bucket (buf :: binOf s.bins bucket)
    rw [← pooled_eq, ← pooled_eq, bytesWeight_cons] at htotal
    omega
  have hids : total idsWeight
      (setBin s.bins bucket (buf :: binOf s.bins bucket)) =
      total idsWeight s.bins + {buf.id} := by
    have htotal := total_setBin idsWeight_nil s.bins bucket (buf :: binOf s.bins bucket)
    rw [idsWeight_cons, ← add_assoc] at htotal
    exact add_right_cancel htotal
  have hall : allIds
      { s with
        bins := setBin s.bins bucket (buf :: binOf s.bins bucket)
        calls := .releasePushed bucket :: s.calls } =
      allIds { s with calls := .releaseCounter bucket buf seen cur :: s.calls } := by
    simp only [allIds, List.map_cons, List.sum_cons, Call.ids, coe_nil, zero_add, coe_singleton]
    rw [hids]
    abel
  have hold : ∀ b ∈ binOf s.bins bucket, b.bytes = bucket := by
    intro b hb
    exact h.binSizes _ (binOf_mem (ne_nil_of_mem hb)) b hb
  refine ⟨h.policy_eq, ?_, ?_, ?_, ?_, ?_, h.ownedSizes, ?_, ?_⟩
  · have hcounter := h.counter
    rw [List.map_cons, List.sum_cons,
      show (Call.releaseCounter bucket buf seen cur).drift = 0 from rfl, zero_add] at hcounter
    have hmoved : (pooled (setBin s.bins bucket (buf :: binOf s.bins bucket)) : Int) =
        pooled s.bins + bucket.toNat := by
      omega
    exact counter_moved hcounter hmoved
  · change pooled (setBin s.bins bucket (buf :: binOf s.bins bucket)) ≤ _
    rwa [hpooled]
  · intro e he
    rcases mem_setBin he with he | rfl
    · exact h.perBucket e he
    · exact not_rejects hkept
  · intro e he b hb
    rcases mem_setBin he with he | rfl
    · exact h.binSizes e he b hb
    · rcases mem_cons.1 hb with rfl | hb
      · exact hbytes
      · exact hold b hb
  · intro d hd
    rcases mem_cons.1 hd with rfl | hd
    · trivial
    · exact h.agrees d (mem_cons_of_mem _ hd)
  · exact (h.held_of_le hall.le (Nat.le_refl _)).1
  · exact (h.held_of_le hall.le (Nat.le_refl _)).2

theorem Inv.raise (h : Inv policy { s with calls := .releasePushed bucket :: s.calls }) :
    Inv policy { s with bytesPooled := s.bytesPooled + bucket, binsLocked := false } := by
  obtain ⟨hids, hfresh⟩ := h.held_of_le (allIds_le_cons _ s) (Nat.le_refl s.created)
  refine ⟨h.policy_eq, ?_, h.budget, h.perBucket, h.binSizes,
    fun d hd => h.agrees d (mem_cons_of_mem _ hd), h.ownedSizes, hids, hfresh⟩
  have hcounter := h.counter
  exact counter_add hcounter

/-- A bin is set to what it was, or made where there was none. -/
theorem Inv.touch (h : Inv policy s) (bucket : UInt64) :
    Inv policy { s with bins := setBin s.bins bucket (binOf s.bins bucket) } := by
  have hpooled : pooled (setBin s.bins bucket (binOf s.bins bucket)) = pooled s.bins :=
    Nat.add_right_cancel (total_setBin bytesWeight_nil s.bins bucket (binOf s.bins bucket))
  have hids : total idsWeight
      (setBin s.bins bucket (binOf s.bins bucket)) =
      total idsWeight s.bins :=
    add_right_cancel (total_setBin idsWeight_nil s.bins bucket (binOf s.bins bucket))
  have hall : allIds { s with bins := setBin s.bins bucket (binOf s.bins bucket) } = allIds s := by
    simp only [allIds, hids]
  have hentry : ∀ e ∈ setBin s.bins bucket (binOf s.bins bucket), e ∈ s.bins ∨ e.2 = [] := by
    intro e he
    rcases mem_setBin he with he | rfl
    · exact Or.inl he
    · by_cases hnil : binOf s.bins bucket = []
      · exact Or.inr hnil
      · exact Or.inl (binOf_mem hnil)
  refine ⟨h.policy_eq, ?_, ?_, ?_, ?_, h.agrees, h.ownedSizes, ?_, ?_⟩
  · change _ ≡ ((pooled (setBin s.bins bucket (binOf s.bins bucket)) : Nat) : Int) [ZMOD 2 ^ 64]
    rw [hpooled]
    exact h.counter
  · change pooled (setBin s.bins bucket (binOf s.bins bucket)) ≤ _
    rw [hpooled]
    exact h.budget
  · intro e he
    rcases hentry e he with he | hnil
    · exact h.perBucket e he
    · rw [hnil]
      exact Nat.zero_le _
  · intro e he buf hbuf
    rcases hentry e he with he | hnil
    · exact h.binSizes e he buf hbuf
    · rw [hnil] at hbuf
      cases hbuf
  · exact (h.held_of_le hall.le (Nat.le_refl _)).1
  · exact (h.held_of_le hall.le (Nat.le_refl _)).2

theorem Inv.clear {i : Nat} (h : Inv policy s) (hi : s.bins[i]? = some (bucket, bin)) : Inv policy
      { s with
        bytesPooled := s.bytesPooled - bucket * UInt64.ofNat bin.length
        bins := s.bins.set i (bucket, []) } := by
  have hentry : (bucket, bin) ∈ s.bins := mem_of_getElem? hi
  have hpooled : pooled (s.bins.set i (bucket, [])) + bucket.toNat * bin.length = pooled s.bins :=
    total_clear bytesWeight_nil hi
  have hids := total_clear idsWeight_nil hi
  have hmem : ∀ e ∈ s.bins.set i (bucket, []), e ∈ s.bins ∨ e = (bucket, []) :=
    fun e he => mem_or_eq_of_mem_set he
  have hle : allIds
      { s with
        bins := s.bins.set i (bucket, []) } ≤ allIds s := by
    simp only [allIds]
    rw [← hids]
    exact add_le_add_left (add_le_add_left (le_add_right _ _) _) _
  have hbudget := h.budget
  have hsub : ∀ e ∈ s.bins.set i (bucket, []), e ∈ s.bins ∨
      ∃ old ∈ s.bins, old.1 = e.1 ∧ e.2.length ≤ old.2.length ∧ e.2 ⊆ old.2 := by
    intro e he
    rcases hmem e he with he | rfl
    · exact Or.inl he
    · exact Or.inr ⟨_, hentry, rfl, Nat.zero_le _, nil_subset _⟩
  obtain ⟨hper, hsizes⟩ := h.bins_of_subset hsub
  refine ⟨h.policy_eq, ?_, ?_, hper, hsizes, h.agrees, h.ownedSizes, ?_, ?_⟩
  · have hcounter := h.counter
    have hweight : (bucket * UInt64.ofNat bin.length).toNat = bucket.toNat * bin.length := by
      have hmax := policy.maxBytes.toNat_lt
      have hsmall : bucket.toNat * bin.length < 2 ^ 64 := by omega
      rw [UInt64.toNat_mul, UInt64.toNat_ofNat', Nat.mul_mod_mod, Nat.mod_eq_of_lt hsmall]
    have hmoved : (pooled (s.bins.set i (bucket, [])) : Int) =
        pooled s.bins + -((bucket.toNat * bin.length : Nat) : Int) := by
      omega
    refine counter_sub ?_
    rw [hweight]
    exact counter_moved hcounter hmoved
  · change pooled (s.bins.set i (bucket, [])) ≤ _
    omega
  · exact (h.held_of_le hle (Nat.le_refl _)).1
  · exact (h.held_of_le hle (Nat.le_refl _)).2

theorem Inv.advance (h : Inv policy { s with calls := c :: s.calls })
    (hfits : ∀ bucket buf seen cur, c = .releaseCounter bucket buf seen cur →
      rejects seen (binOf s.bins bucket).length cur bucket = false →
        pooled s.bins + bucket.toNat ≤ policy.maxBytes.toNat)
    (hstep : c.advance s = some s') : Inv policy s' := by
  cases c with
  | acquire size =>
    simp only [Call.advance] at hstep
    split_ifs at hstep
    cases hbin : binOf s.bins (bucketOf size) with
    | nil =>
      rw [hbin] at hstep
      cases hstep
      exact h.replace rfl rfl fun hsize => ⟨hsize, rfl⟩
    | cons buf bin =>
      rw [hbin] at hstep
      cases hstep
      exact h.hit hbin
  | acquireHit size bucket buf =>
    cases hstep
    exact h.handOut
  | acquireMiss size bucket =>
    cases hstep
    exact h.create
  | release bucket buf =>
    cases hstep
    exact h.replace rfl rfl fun hbytes => ⟨hbytes, h.policy_eq⟩
  | releasePolicy bucket buf seen =>
    cases hstep
    exact h.replace rfl rfl id
  | releaseCounter bucket buf seen cur =>
    simp only [Call.advance] at hstep
    split_ifs at hstep with _ hrejects
    · cases hstep
      exact Inv.touch (h.finish rfl) bucket
    · cases hstep
      rw [Bool.not_eq_true] at hrejects
      exact h.push hrejects (hfits bucket buf seen cur rfl hrejects)
  | releasePushed bucket =>
    cases hstep
    exact h.raise
  | setPolicy seen => exact absurd (h.agrees _ mem_cons_self) id
  | evictAll =>
    simp only [Call.advance] at hstep
    split_ifs at hstep
    cases hstep
    have hstart : Inv policy { s with calls := .evicting 0 :: s.calls } :=
      h.replace rfl rfl fun _ => trivial
    exact hstart.lock true
  | evicting cleared =>
    simp only [Call.advance] at hstep
    cases hi : s.bins[cleared]? with
    | none =>
      rw [hi] at hstep
      cases hstep
      exact (h.finish rfl).lock false
    | some e =>
      obtain ⟨bucket, bin⟩ := e
      rw [hi] at hstep
      cases hstep
      exact ((h.finish rfl).clear hi).start rfl rfl trivial

theorem Inv.giveBack (h : Inv policy s) (hmem : (buf, size) ∈ s.owned) : Inv policy
      { s with
        owned := s.owned.erase (buf, size)
        calls := .release (bucketOf size) buf :: s.calls } := by
  have hperm := (perm_cons_erase hmem).map fun o => o.1.id
  have hall : allIds
      { s with
        owned := s.owned.erase (buf, size)
        calls := .release (bucketOf size) buf :: s.calls } = allIds s := by
    have howned : ((s.owned.map fun o => o.1.id : List Nat) : Multiset Nat) =
        {buf.id} + (((s.owned.erase (buf, size)).map fun o => o.1.id : List Nat) :
          Multiset Nat) := by
      rw [coe_eq_coe.2 hperm, List.map_cons, ← cons_coe, ← singleton_add]
    simp only [allIds, List.map_cons, List.sum_cons, Call.ids, coe_singleton]
    rw [howned]
    abel
  refine ⟨h.policy_eq, ?_, h.budget, h.perBucket, h.binSizes, ?_, ?_, ?_, ?_⟩
  · rw [List.map_cons, List.sum_cons, show (Call.release (bucketOf size) buf).drift = 0 from rfl,
      zero_add]
    exact h.counter
  · intro d hd
    rcases mem_cons.1 hd with rfl | hd
    · exact (h.ownedSizes _ hmem).2
    · exact h.agrees d hd
  · exact fun o ho => h.ownedSizes o (mem_of_mem_erase ho)
  · exact (h.held_of_le hall.le (Nat.le_refl _)).1
  · exact (h.held_of_le hall.le (Nat.le_refl _)).2

theorem Inv.step {a : Action} (h : Inv policy s) (hkeeps : keepsPolicy a = true)
    (hfits : fits s a = true) (hstep : step s a = some s') : Inv policy s' := by
  cases a with
  | acquire size =>
    have hsize : size.toNat ≤ 2 ^ 63 := of_decide_eq_true hfits
    cases hstep
    exact h.start rfl rfl hsize
  | release size buf =>
    simp only [Wgpu.step] at hstep
    split_ifs at hstep with hmem
    cases hstep
    exact h.giveBack hmem
  | setPolicy seen => cases hkeeps
  | evictAll =>
    cases hstep
    exact h.start rfl rfl trivial
  | run i =>
    simp only [Wgpu.step] at hstep
    cases hi : s.calls[i]? with
    | none =>
      rw [hi] at hstep
      cases hstep
    | some call =>
      rw [hi] at hstep
      obtain ⟨hlt, rfl⟩ := List.getElem?_eq_some_iff.1 hi
      have hperm : s.calls.Perm (s.calls[i] :: s.calls.eraseIdx i) :=
        (getElem_cons_eraseIdx_perm hlt).symm
      refine @Inv.advance policy { s with calls := s.calls.eraseIdx i } s' s.calls[i]
        (h.perm hperm) ?_ hstep
      intro bucket buf seen cur hcall hkept
      rw [fits, hi, hcall] at hfits
      simp only [hkept, Bool.false_or, decide_eq_true_eq] at hfits
      rwa [h.policy_eq] at hfits

end Advance

theorem Inv.steps (as : List Action) :
    ∀ {s s' : Pool}, Inv policy s → (∀ a ∈ as, keepsPolicy a = true) → allFit s as = true →
      steps s as = some s' → Inv policy s' := by
  induction as with
  | nil =>
    intro s s' h _ _ hrun
    cases hrun
    exact h
  | cons a as ih =>
    intro s s' h hkeeps hfit hrun
    obtain ⟨s₁, hstep, hrest⟩ := Option.bind_eq_some_iff.1 hrun
    rw [allFit, hstep, Bool.and_eq_true] at hfit
    refine ih (h.step (hkeeps a mem_cons_self) hfit.1 hstep)
      (fun b hb => hkeeps b (mem_cons_of_mem a hb)) hfit.2 hrest

theorem Inv.sound (h : Inv policy s) : PoolSound s := by
  have hcounter : s.calls = [] → s.bytesPooled.toNat = pooled s.bins := by
    intro hcalls
    have hmod := h.counter
    have hbudget := h.budget
    have hmax := policy.maxBytes.toNat_lt
    have hlt := s.bytesPooled.toNat_lt
    rw [hcalls, map_nil, sum_nil, add_zero] at hmod
    unfold Int.ModEq at hmod
    omega
  refine ⟨hcounter, ?_, ?_, ?_, ?_⟩
  · intro hcalls
    rw [UInt64.le_iff_toNat_le, hcounter hcalls, h.policy_eq]
    exact h.budget
  · intro _ e he
    rw [h.policy_eq]
    exact h.perBucket e he
  · exact coe_nodup.1 (nodup_of_le (le_add_left _ _) h.ids)
  · intro o ho
    obtain ⟨hsize, hbytes⟩ := h.ownedSizes o ho
    rw [hbytes]
    exact le_bucketOf hsize

/-- In every run in which no push overshoots and every request fits a power of two, the pool keeps
its budget, whatever the interleaving. -/
theorem pool_sound {policy : PoolPolicy} {as : List Action} {s : Pool}
    (hkeeps : ∀ a ∈ as, keepsPolicy a = true) (hfit : allFit (Pool.new policy) as = true)
    (hrun : steps (Pool.new policy) as = some s) : PoolSound s :=
  (Inv.steps as (inv_new policy) hkeeps hfit hrun).sound

/-! ## Two releases -/

section Releases

/-- A budget of one small bucket. -/
def smallPolicy : PoolPolicy where
  maxBytes := 64
  maxPerBucket := 32

/-- Two calls of each kind in progress at once; the second release reads the counter after the
first has raised it. -/
def interleavedReleases : List Action :=
  [.acquire 10, .acquire 20, .run 1, .run 1, .run 0, .run 0, .release 10 ⟨1, 64⟩,
    .release 20 ⟨0, 64⟩, .run 0, .run 1, .run 0, .run 0, .run 0, .run 0, .run 0]

theorem pool_sound_releases :
    ∃ s, steps (Pool.new smallPolicy) interleavedReleases = some s ∧ s.bytesPooled = 64 ∧
      PoolSound s :=
  ⟨_, rfl, rfl, @pool_sound smallPolicy interleavedReleases _ (by decide) (by decide) rfl⟩

/-- Both releases read the counter before either of them pushes. -/
def racingReleases : List Action :=
  [.acquire 64, .run 0, .run 0, .acquire 64, .run 0, .run 0, .release 64 ⟨0, 64⟩,
    .release 64 ⟨1, 64⟩, .run 0, .run 0, .run 1, .run 0, .run 0, .run 0, .run 0, .run 0]

/-- The budget is overshot with no call in progress. -/
theorem pool_race_overshoots :
    (∀ a ∈ racingReleases, keepsPolicy a = true) ∧
      ¬ ∀ s, steps (Pool.new smallPolicy) racingReleases = some s → PoolSound s := by
  refine ⟨by decide, fun hsound => ?_⟩
  have hend : (steps (Pool.new smallPolicy) racingReleases).map
      (fun s => (s.calls, s.bytesPooled, s.policy.maxBytes)) = some ([], 128, 64) := rfl
  obtain ⟨s, hrun, hs⟩ := Option.map_eq_some_iff.1 hend
  simp only [Prod.mk.injEq] at hs
  obtain ⟨hcalls, hbytes, hmax⟩ := hs
  have hbudget := (hsound s hrun).budget hcalls
  rw [hbytes, hmax] at hbudget
  exact absurd hbudget (by decide)

end Releases

end Wgpu
end Rustorch
