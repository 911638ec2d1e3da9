import Rustorch.Lib.LittleEndian
import Rustorch.Lib.Machine

/-!
# Programs that read a byte string

A reader is a tree of requests: take the next bytes, reserve memory, return or fail.  `run` is
what a machine does with it, `exact` is the same reading in exact arithmetic with memory for
everything, and `demands` lists the sizes the reading asks for.  A machine panics exactly when it
cannot meet one of them.
-/

inductive Reads (ε α : Type)
  | done (a : α)
  | fail (e : ε)
  | take (n : UInt64) (next : List UInt8 → Reads ε α)
  | alloc (size : Nat) (next : Unit → Reads ε α)

/-- A size the input makes the reader act on. -/
inductive Demand
  | take (pos n : Nat)
  | alloc (size : Nat)
  deriving DecidableEq, Repr

/-- The end of a read is a machine word; a block of memory is granted. -/
def Demand.Met (memory : Nat) : Demand → Prop
  | .take pos n => pos + n < u64Size
  | .alloc size => grants memory size

instance (memory : Nat) : DecidablePred (Demand.Met memory)
  | .take pos n => inferInstanceAs (Decidable (pos + n < u64Size))
  | .alloc size => inferInstanceAs (Decidable (grants memory size))

namespace Reads

open List Outcome Machine

variable {ε α β : Type}

def bind : Reads ε α → (α → Reads ε β) → Reads ε β
  | .done a, f => f a
  | .fail e, _ => .fail e
  | .take n next, f => .take n (fun bs => (next bs).bind f)
  | .alloc size next, f => .alloc size (fun u => (next u).bind f)

instance : Monad (Reads ε) where
  pure := .done
  bind := Reads.bind

/-- `?` on a result. -/
def ofExcept : Except ε α → Reads ε α
  | .ok a => .done a
  | .error e => .fail e

/-- The next `n` bytes. -/
def bytes (n : UInt64) : Reads ε (List UInt8) :=
  .take n .done

/-- `with_capacity` for `size` bytes in all. -/
def reserve (size : Nat) : Reads ε Unit :=
  .alloc size .done

/-- `for _ in 0..n { v.push(elem?) }` -/
def times (elem : Reads ε α) : Nat → Reads ε (List α)
  | 0 => pure []
  | n + 1 => do
    let a ← elem
    let rest ← times elem n
    return a :: rest

/-- `from_le_bytes` of the next `n` bytes. -/
def littleEndian (n : UInt64) : Reads ε Nat := do
  let bs ← bytes n
  return LittleEndian.ofBytes bs

/-! ## Interpretations -/

section Run

variable (cut : Nat → Nat → ε) (buf : List UInt8)

/-- The check before a read: `pos + n` against the length. -/
def need (m : Machine) (pos n : Nat) : Outcome ε Unit := do
  let stop ← m.add pos n
  if stop > buf.length then
    .err (cut n (buf.length - pos))
  else
    return ()

/-- The bytes of a read and the position after it. -/
def fetch (m : Machine) (pos n : Nat) : Outcome ε (List UInt8 × Nat) := do
  need cut buf m pos n
  let stop ← m.add pos n
  let bs ← slice buf pos stop
  let pos' ← m.add pos n
  return (bs, pos')

def run (m : Machine) : Reads ε α → Nat → Outcome ε (α × Nat)
  | .done a, pos => .ok (a, pos)
  | .fail e, _ => .err e
  | .take n next, pos => do
    let (bs, pos') ← fetch cut buf m pos n.toNat
    run m (next bs) pos'
  | .alloc size next, pos => do
    m.alloc size
    run m (next ()) pos

def exact : Reads ε α → Nat → Except ε (α × Nat)
  | .done a, pos => .ok (a, pos)
  | .fail e, _ => .error e
  | .take n next, pos =>
    if pos + n.toNat ≤ buf.length then
      exact (next ((buf.drop pos).take n.toNat)) (pos + n.toNat)
    else
      .error (cut n.toNat (buf.length - pos))
  | .alloc _ next, pos => exact (next ()) pos

def demands : Reads ε α → Nat → List Demand
  | .done _, _ => []
  | .fail _, _ => []
  | .take n next, pos =>
    .take pos n.toNat ::
      if pos + n.toNat ≤ buf.length then
        demands (next ((buf.drop pos).take n.toNat)) (pos + n.toNat)
      else
        []
  | .alloc size next, pos => .alloc size :: demands (next ()) pos

/-! ## The machine against exact arithmetic -/

variable {cut buf} {m : Machine} {pos n : Nat}

theorem fetch_of_met : pos + n < u64Size →
    fetch cut buf m pos n =
      if pos + n ≤ buf.length then
        .ok ((buf.drop pos).take n, pos + n)
      else
        .err (cut n (buf.length - pos)) := by
  intro h
  unfold fetch need
  simp only [add_of_lt h, ok_bind]
  by_cases hlen : pos + n ≤ buf.length
  · have hslice : (slice buf pos (pos + n) : Outcome ε (List UInt8))
        = .ok ((buf.drop pos).take n) := by
      simpa using slice_of_le (ε := ε) (Nat.le_add_right pos n) hlen
    simp [hlen, Nat.not_lt.2 hlen, hslice]
  · simp [hlen, Nat.lt_of_not_le hlen]

/-- An end that is no machine word passes a wrapped check, and then the slice starts after it. -/
theorem fetch_of_not_met : pos < u64Size → n < u64Size → pos ≤ buf.length →
    ¬ pos + n < u64Size → fetch cut buf m pos n = .panic := by
  intro hpos hn hle h
  unfold fetch need add
  cases hb : m.build with
  | debug =>
    have hadd : (m.u64 (pos + n) : Outcome ε Nat) = .panic := by
      simp [u64, h, hb]
    simp [hadd]
  | release =>
    have hadd : (m.u64 (pos + n) : Outcome ε Nat) = .ok ((pos + n) % u64Size) := by
      simp [u64, h, hb]
    have hmod : (pos + n) % u64Size = pos + n - u64Size := by
      rw [Nat.mod_eq_sub_mod (by omega), Nat.mod_eq_of_lt (by omega)]
    have hpass : ¬ (pos + n) % u64Size > buf.length := by omega
    have hslice :
        (slice buf pos ((pos + n) % u64Size) : Outcome ε (List UInt8)) = .panic := by
      apply if_neg
      omega
    simp [hadd, hpass, hslice]

variable {x : Reads ε α}

/-- Reading ends inside the buffer. -/
theorem exact_le {a : α} {pos' : Nat} :
    pos ≤ buf.length → exact cut buf x pos = .ok (a, pos') → pos' ≤ buf.length := by
  intro hpos h
  induction x generalizing pos with
  | done b =>
    cases h
    exact hpos
  | fail e => cases h
  | take n next ih =>
    unfold exact at h
    split at h
    · next hlen => exact ih _ hlen h
    · cases h
  | alloc size next ih => exact ih () hpos h

theorem run_of_met : (∀ d ∈ demands buf x pos, d.Met m.memory) →
    run cut buf m x pos = Outcome.ofExcept (exact cut buf x pos) := by
  intro h
  induction x generalizing pos with
  | done a => rfl
  | fail e => rfl
  | take n next ih =>
    have hread : pos + n.toNat < u64Size := h _ mem_cons_self
    rw [run, fetch_of_met hread, exact]
    by_cases hlen : pos + n.toNat ≤ buf.length
    · simp only [if_pos hlen, ok_bind]
      apply ih
      intro d hd
      apply h
      simp [demands, hlen, hd]
    · simp [hlen]
  | alloc size next ih =>
    have hsize : grants m.memory size := h _ mem_cons_self
    rw [run, alloc_of_grants hsize, ok_bind, exact]
    exact ih () (fun d hd => h d (mem_cons_of_mem _ hd))

theorem run_of_not_met : buf.length ≤ isizeMax → pos ≤ buf.length →
    (∃ d ∈ demands buf x pos, ¬ d.Met m.memory) → run cut buf m x pos = .panic := by
  intro hbuf hpos h
  have hword : isizeMax < u64Size := by decide
  induction x generalizing pos with
  | done a => simp [demands] at h
  | fail e => simp [demands] at h
  | take n next ih =>
    rw [run]
    by_cases hread : pos + n.toNat < u64Size
    · rw [fetch_of_met hread]
      rcases h with ⟨d, hd, hmet⟩
      by_cases hlen : pos + n.toNat ≤ buf.length
      · simp only [if_pos hlen, ok_bind]
        apply ih _ hlen
        refine ⟨d, ?_, hmet⟩
        -- the read itself is met, so the demand is one of the rest
        rcases mem_cons.1 hd with rfl | hrest
        · exact absurd hread hmet
        · simpa [hlen] using hrest
      · rcases mem_cons.1 hd with rfl | hrest
        · exact absurd hread hmet
        · simp [hlen] at hrest
    · rw [fetch_of_not_met (by omega) n.toNat_lt hpos hread]
      rfl
  | alloc size next ih =>
    rw [run]
    by_cases hsize : grants m.memory size
    · rw [alloc_of_grants hsize, ok_bind]
      rcases h with ⟨d, hd, hmet⟩
      apply ih () hpos
      refine ⟨d, ?_, hmet⟩
      rcases mem_cons.1 hd with rfl | hrest
      · exact absurd hsize hmet
      · exact hrest
    · rw [alloc_of_not_grants hsize]
      rfl

end Run

end Reads
