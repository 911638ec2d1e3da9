import Mathlib.Data.Finset.Card
import Mathlib.Data.List.DropRight

/-!
# Keeping the latest names

A keeper writes named things one after another and keeps a queue of the names; when the queue
outgrows its bound the name at its front is dropped and the thing of that name is removed.  The
queue is a window of the log of all names written.  A name may be written again, and the queue
does not know.

- `put`      : one write
- `Sound`    : what the queue names is kept, and of all names written the latest are kept
- `Retains`  : the queue is the window, and no name repeats in it once the bound was passed

A write into a full queue is sound exactly when neither the queue nor the new name repeats a name.
-/

namespace Retention

open List

/-! ## Windows -/

section Windows

variable {α : Type*} {k : Nat} {log queue : List α}

theorem length_rtake : (log.rtake k).length = min k log.length := by
  rw [rtake, length_drop]
  omega

theorem rtake_of_length_le : log.length ≤ k → log.rtake k = log := by
  intro h
  rw [rtake, Nat.sub_eq_zero_of_le h, drop_zero]

theorem rtake_append (h : queue.length = k) : (log ++ queue).rtake k = queue := by
  rw [rtake, length_append, h, Nat.add_sub_cancel, drop_left]

/-- The names before a window and the window. -/
theorem exists_append_rtake (k : Nat) (log : List α) : ∃ front, log = front ++ log.rtake k :=
  ⟨log.rdrop k, (take_append_drop _ _).symm⟩

theorem rtake_subset : log.rtake k ⊆ log :=
  (drop_suffix _ _).subset

theorem mem_rtake_concat {a : α} : 0 < k → a ∈ (log ++ [a]).rtake k := by
  intro hk
  obtain ⟨k, rfl⟩ := Nat.exists_eq_succ_of_ne_zero (Nat.ne_of_gt hk)
  rw [rtake_concat_succ]
  exact mem_append_right _ (mem_singleton_self a)

end Windows

/-! ## The keeper -/

variable {α : Type*} [DecidableEq α]

/-- Drop names from the front until the queue is within its bound. -/
def trim (k : Nat) : List α → Finset α → List α × Finset α
  | [], kept => ([], kept)
  | a :: queue, kept =>
    if k < queue.length + 1 then
      trim k queue (kept.erase a)
    else
      (a :: queue, kept)

def put (k : Nat) (queue : List α) (kept : Finset α) (a : α) : List α × Finset α :=
  trim k (queue ++ [a]) (insert a kept)

/-- Nothing that the queue names is missing, and of the names in the log exactly the `k` latest
distinct ones are there. -/
structure Sound (k : Nat) (log queue : List α) (kept : Finset α) : Prop where
  queued : ∀ a ∈ queue, a ∈ kept
  latest : ∀ a ∈ log, a ∈ kept ↔ a ∈ log.dedup.rtake k

structure Retains (k : Nat) (log queue : List α) (kept : Finset α) : Prop where
  window : queue = log.rtake k
  mem_iff : ∀ a ∈ log, a ∈ kept ↔ a ∈ queue
  nodup : k < log.length → queue.Nodup

variable {k : Nat} {log queue rest : List α} {kept : Finset α} {a b : α}

/-! ## One write -/

theorem trim_of_le : queue.length ≤ k → trim k queue kept = (queue, kept) := by
  intro h
  cases queue with
  | nil => rfl
  | cons a queue =>
    rw [length_cons] at h
    rw [trim, if_neg (Nat.not_lt.2 h)]

theorem put_of_lt : queue.length < k → put k queue kept a = (queue ++ [a], insert a kept) := by
  intro h
  exact trim_of_le (by rw [length_append]; exact h)

theorem put_of_full : rest.length + 1 = k →
    put k (b :: rest) kept a = (rest ++ [a], (insert a kept).erase b) := by
  intro h
  have hlen : (rest ++ [a]).length = k := by
    rw [length_append, length_singleton, h]
  rw [put, cons_append, trim, if_pos (by omega)]
  exact trim_of_le hlen.le

/-! ## The window is sound -/

theorem Retains.sound : Retains k log queue kept → Sound k log queue kept := by
  intro h
  have hlatest : ∀ a, a ∈ queue ↔ a ∈ log.dedup.rtake k := by
    intro a
    rcases Nat.lt_or_ge k log.length with hlt | hle
    · -- The window has `k` distinct names, so the deduplicated log ends with it.
      have hlen : queue.length = k := by
        rw [h.window, length_rtake]
        omega
      obtain ⟨front, hfront⟩ := exists_append_rtake k log
      obtain ⟨front', hfront'⟩ := suffix_union_right front queue
      rw [hfront, ← h.window, dedup_append, (h.nodup hlt).dedup, ← hfront', rtake_append hlen]
    · have hdedup : log.dedup.length ≤ k := (dedup_sublist log).length_le.trans hle
      rw [rtake_of_length_le hdedup, mem_dedup, h.window, rtake_of_length_le hle]
  refine ⟨?_, ?_⟩
  · intro a ha
    exact (h.mem_iff a (rtake_subset (h.window ▸ ha))).2 ha
  · intro a ha
    rw [h.mem_iff a ha, hlatest a]

theorem Sound.card : Sound k log queue kept →
    (kept ∩ log.toFinset).card = min k log.toFinset.card := by
  intro h
  have heq : kept ∩ log.toFinset = (log.dedup.rtake k).toFinset := by
    ext a
    rw [Finset.mem_inter, mem_toFinset, mem_toFinset]
    constructor
    · rintro ⟨hkept, hlog⟩
      exact (h.latest a hlog).1 hkept
    · intro hmem
      have hlog := mem_dedup.1 (rtake_subset hmem)
      exact ⟨(h.latest a hlog).2 hmem, hlog⟩
  have hnodup : (log.dedup.rtake k).Nodup :=
    (nodup_dedup log).sublist (drop_sublist _ _)
  rw [heq, toFinset_card_of_nodup hnodup, length_rtake, card_toFinset]

/-! ## What a write keeps -/

section Write

variable (h : Retains k log queue kept)

include h

omit [DecidableEq α] in
theorem Retains.exists_front : 0 < k → k ≤ queue.length →
    ∃ b rest front, queue = b :: rest ∧ rest.length + 1 = k ∧ log = front ++ b :: rest := by
  intro hk hfull
  obtain ⟨front, hfront⟩ := exists_append_rtake k log
  rw [← h.window] at hfront
  have hlen : queue.length ≤ k := by
    rw [h.window, length_rtake]
    exact Nat.min_le_left _ _
  cases queue with
  | nil => exact absurd hfull (Nat.not_le.2 hk)
  | cons b rest => exact ⟨b, rest, front, rfl, hlen.antisymm hfull, hfront⟩

theorem Retains.put : 0 < k →
    (k ≤ queue.length → (a :: queue).Nodup) →
      Retains k (log ++ [a]) (put k queue kept a).1 (put k queue kept a).2 := by
  intro hk hnew
  rcases Nat.lt_or_ge queue.length k with hlt | hfull
  · have hlog : log.length < k := by
      rw [h.window, length_rtake] at hlt
      omega
    -- nothing was dropped yet, so the queue is the whole log
    have hqueue : queue = log := h.window.trans (rtake_of_length_le hlog.le)
    have hlen : (log ++ [a]).length ≤ k := by
      rw [length_append]
      exact hlog
    rw [put_of_lt hlt, hqueue]
    refine ⟨(rtake_of_length_le hlen).symm, ?_, fun hgt => absurd hgt (Nat.not_lt.2 hlen)⟩
    intro c hc
    rw [Finset.mem_insert, mem_append, mem_singleton, or_comm]
    refine or_congr_left' fun hca => ?_
    have hlogged : c ∈ log := (mem_append.1 hc).resolve_right (by simpa using hca)
    rw [h.mem_iff c hlogged, hqueue]
  · obtain ⟨b, rest, front, rfl, hlen, hfront⟩ := h.exists_front hk hfull
    obtain ⟨hanew, hbnew⟩ := nodup_cons.1 (hnew hfull)
    obtain ⟨hbrest, hrest⟩ := nodup_cons.1 hbnew
    -- the queue is full: its front `b` leaves, and by freshness it is named nowhere else
    have hab : a ≠ b := fun heq => hanew (heq ▸ mem_cons_self)
    rw [put_of_full hlen]
    refine ⟨?_, ?_, ?_⟩
    · have hlast : (rest ++ [a]).length = k := by
        rw [length_append, length_singleton, hlen]
      have hlog : log ++ [a] = (front ++ [b]) ++ (rest ++ [a]) := by
        simp [hfront]
      rw [hlog, rtake_append hlast]
    · intro c hc
      rw [Finset.mem_erase, Finset.mem_insert, mem_append, mem_singleton]
      rcases mem_append.1 hc with hclog | hca
      · have hckept := h.mem_iff c hclog
        rw [mem_cons] at hckept
        constructor
        · rintro ⟨hcb, hca | hkept⟩
          · exact .inr hca
          · exact .inl ((hckept.1 hkept).resolve_left hcb)
        · rintro (hcrest | rfl)
          · exact ⟨fun heq => hbrest (heq ▸ hcrest), .inr (hckept.2 (.inr hcrest))⟩
          · exact ⟨hab, .inl rfl⟩
      · cases mem_singleton.1 hca
        exact iff_of_true ⟨hab, .inl rfl⟩ (.inr rfl)
    · intro _
      refine hrest.append (nodup_singleton a) ?_
      intro c hcrest hca
      cases mem_singleton.1 hca
      exact hanew (mem_cons_of_mem _ hcrest)

omit h in
/-- A write into a full queue that repeats a name loses something: what the queue names, or one of
the latest. -/
theorem Retains.nodup_of_sound (h : Retains k log (b :: rest) kept) : rest.length + 1 = k →
    Sound k (log ++ [a]) (rest ++ [a]) ((insert a kept).erase b) → (a :: b :: rest).Nodup := by
  intro hlen hsound
  have hblog : b ∈ log := rtake_subset (h.window ▸ mem_cons_self)
  have hb : b ∉ rest ++ [a] := fun hmem => (Finset.mem_erase.1 (hsound.queued b hmem)).1 rfl
  have hsub : (insert a kept).erase b ∩ (log ++ [a]).toFinset ⊆ (rest ++ [a]).toFinset := by
    intro c hc
    obtain ⟨hkept, hclog⟩ := Finset.mem_inter.1 hc
    obtain ⟨hcb, hkept⟩ := Finset.mem_erase.1 hkept
    rw [mem_toFinset, mem_append, mem_singleton] at hclog ⊢
    rcases hclog with hclog | hca
    · rcases Finset.mem_insert.1 hkept with hca | hkept
      · exact .inr hca
      · exact .inl ((mem_cons.1 ((h.mem_iff c hclog).1 hkept)).resolve_left hcb)
    · exact .inr hca
  have hmore : insert b (rest ++ [a]).toFinset ⊆ (log ++ [a]).toFinset := by
    intro c hc
    rw [Finset.mem_insert, mem_toFinset, mem_append, mem_singleton] at hc
    rw [mem_toFinset, mem_append, mem_singleton]
    rcases hc with rfl | hcrest | hca
    · exact .inl hblog
    · exact .inl (rtake_subset (h.window ▸ mem_cons_of_mem _ hcrest))
    · exact .inr hca
  -- The log has a name more than the queue, so that `k` names are kept, all of them in the queue.
  have hcard : (rest ++ [a]).length ≤ (rest ++ [a]).toFinset.card := by
    have hkept := hsound.card ▸ Finset.card_le_card hsub
    have hall := Finset.card_le_card hmore
    rw [Finset.card_insert_of_notMem (by rwa [mem_toFinset])] at hall
    rw [length_append, length_singleton]
    omega
  have hnodup : (rest ++ [a]).Nodup := by
    rw [← dedup_eq_self]
    refine (dedup_sublist _).eq_of_length_le ?_
    rwa [← card_toFinset]
  have hperm : (a :: b :: rest).Perm (b :: (rest ++ [a])) :=
    (Perm.swap b a rest).trans ((perm_append_singleton a rest).symm.cons b)
  exact hperm.nodup_iff.2 (nodup_cons.2 ⟨hb, hnodup⟩)

theorem Retains.sound_put_iff : 0 < k →
    (Sound k (log ++ [a]) (Retention.put k queue kept a).1 (Retention.put k queue kept a).2 ↔
      (k ≤ queue.length → (a :: queue).Nodup)) := by
  intro hk
  constructor
  · intro hsound hfull
    obtain ⟨b, rest, front, rfl, hlen, hfront⟩ := h.exists_front hk hfull
    rw [put_of_full hlen] at hsound
    exact h.nodup_of_sound hlen hsound
  · intro hnew
    exact (h.put hk hnew).sound

end Write

end Retention
