import Rustorch.Lib.Slots
import Rustorch.Rpc.Client
import Mathlib.Tactic.Abel

/-!
# Where the events of a client are

Whatever the interleaving, an event is in one place only: received, in a channel, in the buffer, in
the hands of a reconnect or of the producer, evicted from the buffer, or thrown away by a reconnect
whose session was closed (`conserves_run`).  So no event is received twice.

The events arrive in order, and none is thrown away, in the runs where no event overtakes another
one on its way into a channel and no reconnect sends on a closed session (`delivered_run`).
-/

namespace Rustorch
namespace Rpc

open Runs Slots List Multiset Client

variable {E : Type}

/-! ## Places -/

def Channel.entered (ch : Channel E) : List (Numbered E) :=
  ch.received ++ ch.queued

/-- The drained events that a reconnect still has to send. -/
def Reconnect.held : Reconnect E → List (Numbered E)
  | .drained evs => evs
  | .flushing _ rest => rest
  | _ => []

/-- The event of the call in progress, as long as it is in no other place. -/
def SendEvent.held : SendEvent E → List (Numbered E)
  | .sending _ ev => [ev]
  | .failed ev => [ev]
  | _ => []

namespace Client

/-- The events that entered a channel, session by session. -/
def entered (c : Client E) : List (Numbered E) :=
  c.channels.flatMap Channel.entered

/-- The events received, session by session. -/
def received (c : Client E) : List (Numbered E) :=
  c.channels.flatMap Channel.received

/-- The events in the channels whose receiver is there. -/
def live (c : Client E) : List (Numbered E) :=
  c.channels.flatMap fun ch => if ch.isOpen then ch.queued else []

def flying (c : Client E) : List (Numbered E) :=
  c.reconnects.flatMap Reconnect.held

def held (c : Client E) : List (Numbered E) :=
  c.producer.held

/-- No reconnect is in progress. -/
def Quiet (c : Client E) : Prop :=
  ∀ r ∈ c.reconnects, r = .done

end Client

/-- What a client should do: no event is received twice; while no reconnect is in progress, every
event is received, in a live channel, in the buffer, counted as dropped, or the one of the call in
progress; and the events are received in the order they were sent. -/
structure Delivered (c : Client E) : Prop where
  once : c.received.Nodup
  kept : c.Quiet → ∃ evicted : List (Numbered E), evicted.length = c.buffer.dropped ∧
    c.sent.Perm (c.received ++ c.live ++ c.buffer.queue ++ c.held ++ evicted)
  ordered : c.received.Pairwise fun e e' => e.seq < e'.seq

/-! ## Conservation -/

/-- Events, whatever their order. -/
abbrev Bag (E : Type) : Type :=
  Multiset (Numbered E)

/-- Every event sent is in one place, given those thrown away. -/
structure Conserves (c : Client E) (thrown : List (Numbered E)) : Prop where
  room : 1 ≤ c.buffer.cap
  numbers : c.sent.map Numbered.seq = List.range c.sent.length
  closed : ∀ ch ∈ c.channels, ch.isOpen = false → ch.queued = []
  places : ∃ evicted : List (Numbered E), evicted.length = c.buffer.dropped ∧
    (c.sent : Multiset (Numbered E)) =
      (c.entered : Multiset (Numbered E)) + c.buffer.queue + c.flying + c.held + evicted + thrown

section Conservation

variable {c : Client E} {thrown : List (Numbered E)}

theorem sendOn_sent {channels channels' : List (Channel E)} {tx : Nat} {ev : Numbered E} :
    sendOn channels tx ev = .sent channels' →
      ∃ ch, channels[tx]? = some ch ∧ ch.isOpen = true ∧
        channels' = channels.set tx { ch with queued := ch.queued ++ [ev] } := by
  intro h
  unfold sendOn at h
  split at h
  · rename_i ch hch
    split at h
    · rename_i hopen
      split at h
      · cases h
        exact ⟨ch, hch, hopen, rfl⟩
      · cases h
    · cases h
  · cases h

theorem entered_sent {channels channels' : List (Channel E)} {tx : Nat} {ev : Numbered E} :
    sendOn channels tx ev = .sent channels' →
      ((channels'.flatMap Channel.entered : List _) : Bag E) =
        (channels.flatMap Channel.entered : List (Numbered E)) + {ev} := by
  intro h
  rcases sendOn_sent h with ⟨ch, hch, _, rfl⟩
  have hset := coe_flatMap_set (f := Channel.entered) (b := { ch with queued := ch.queued ++ [ev] })
    channels tx hch
  have hnew : (({ ch with queued := ch.queued ++ [ev] } : Channel E).entered :
      Bag E) = {ev} + ch.entered := by
    rw [Channel.entered, Channel.entered, ← append_assoc, ← coe_add, add_comm]
    rfl
  rw [hnew, ← add_assoc] at hset
  exact add_right_cancel hset

theorem closed_sent {channels channels' : List (Channel E)} {tx : Nat} {ev : Numbered E} :
    sendOn channels tx ev = .sent channels' →
      (∀ ch ∈ channels, ch.isOpen = false → ch.queued = []) →
        ∀ ch ∈ channels', ch.isOpen = false → ch.queued = [] := by
  intro h hclosed ch' hch' hshut
  rcases sendOn_sent h with ⟨ch, hch, hopen, rfl⟩
  rcases mem_or_eq_of_mem_set hch' with hold | rfl
  · exact hclosed ch' hold hshut
  · rw [hopen] at hshut
    cases hshut

/-- The places of the events that were neither evicted nor thrown away. -/
def Client.places (c : Client E) : Bag E :=
  (c.entered : Bag E) + c.buffer.queue + c.flying + c.held

/-- A step that moves events between places, or throws some away. -/
theorem Conserves.move {c' : Client E} {more : List (Numbered E)} (h : Conserves c thrown) :
    c'.buffer.cap = c.buffer.cap → c'.buffer.dropped = c.buffer.dropped → c'.sent = c.sent →
      (∀ ch ∈ c'.channels, ch.isOpen = false → ch.queued = []) →
        c'.places + (more : Bag E) = c.places → Conserves c' (thrown ++ more) := by
  intro hcap hdropped hsent hclosed hplaces
  rcases h.places with ⟨evicted, hlen, hall⟩
  refine ⟨hcap ▸ h.room, hsent ▸ h.numbers, hclosed, evicted, hdropped ▸ hlen, ?_⟩
  have hsum : (c.sent : Bag E) = c.places + evicted + thrown := hall
  have hgoal : (c'.sent : Bag E) = c'.places + evicted +
        ((thrown ++ more : List _) : Bag E) := by
    rw [hsent, hsum, ← hplaces, ← coe_add]
    abel
  exact hgoal

/-- A step of one reconnect moves events between the places and its hands. -/
theorem Conserves.reconnect {c' : Client E} {more : List (Numbered E)} {t : Nat}
    {r r' : Reconnect E} (h : Conserves c thrown) :
    c.reconnects[t]? = some r → c'.reconnects = c.reconnects.set t r' →
      c'.buffer.cap = c.buffer.cap → c'.buffer.dropped = c.buffer.dropped → c'.sent = c.sent →
        (∀ ch ∈ c'.channels, ch.isOpen = false → ch.queued = []) →
          (c'.entered : Bag E) + c'.buffer.queue + r'.held + c'.held + more =
              (c.entered : Bag E) + c.buffer.queue + r.held + c.held →
            Conserves c' (thrown ++ more) := by
  intro hr hset hcap hdropped hsent hclosed hmoves
  refine h.move hcap hdropped hsent hclosed ?_
  have hflying : (c'.flying : Bag E) + r.held = c.flying + r'.held := by
    rw [flying, hset]
    exact coe_flatMap_set c.reconnects t hr
  refine @add_right_cancel _ _ _ _ (r.held : Bag E) _ ?_
  calc
    c'.places + more + r.held =
        (c'.entered : Bag E) + c'.buffer.queue + c'.held + more +
          (c'.flying + r.held) := by
      rw [Client.places]
      abel
    _ = (c'.entered : Bag E) + c'.buffer.queue + r'.held + c'.held + more +
          c.flying := by
      rw [hflying]
      abel
    _ = c.places + r.held := by
      rw [hmoves, Client.places]
      abel

theorem conserves_reconnect (t : Nat) :
    Conserves c thrown →
      Conserves (reconnectStep c t).1 (thrown ++ (reconnectStep c t).2) := by
  intro h
  unfold reconnectStep
  cases hr : c.reconnects[t]? with
  | none => exact h.move rfl rfl rfl h.closed (add_zero _)
  | some r =>
    cases r with
    | start =>
      have hentered : (c.channels ++ [Channel.new]).flatMap Channel.entered = c.entered := by
        rw [flatMap_append]
        exact append_nil _
      refine h.reconnect hr rfl rfl rfl rfl ?_ ?_
      · intro ch hch hshut
        rcases mem_append.1 hch with hch | hch
        · exact h.closed ch hch hshut
        · rw [List.mem_singleton.1 hch]
          rfl
      · rw [← hentered]
        exact add_zero _
    | registered tx => exact h.reconnect hr rfl rfl rfl rfl h.closed (add_zero _)
    | connected =>
      -- the buffer moves into the hands of the reconnect
      refine h.reconnect hr rfl rfl rfl rfl h.closed ?_
      have hmoves : (c.entered : Bag E) + (0 : Bag E) +
          c.buffer.queue + c.held + 0 = c.entered + c.buffer.queue + 0 + c.held := by
        abel
      exact hmoves
    | drained evs =>
      cases htx : c.eventsTx with
      | some tx => exact h.reconnect hr rfl rfl rfl rfl h.closed (add_zero _)
      | none =>
        refine h.reconnect hr rfl rfl rfl rfl h.closed ?_
        have hmoves : (c.entered : Bag E) + c.buffer.queue + 0 + c.held + evs =
            c.entered + c.buffer.queue + evs + c.held := by
          abel
        exact hmoves
    | flushing tx rest =>
      cases rest with
      | nil => exact h.reconnect hr rfl rfl rfl rfl h.closed (add_zero _)
      | cons ev rest =>
        have hcons : ((ev :: rest : List _) : Bag E) =
            ([ev] : List (Numbered E)) + rest := (coe_add [ev] rest).symm
        cases hsend : sendOn c.channels tx ev with
        | full =>
          simp only [hsend]
          exact h.move rfl rfl rfl h.closed (add_zero _)
        | sent channels =>
          simp only [hsend]
          refine h.reconnect hr rfl rfl rfl rfl (closed_sent hsend h.closed) ?_
          have hmoves : ((channels.flatMap Channel.entered : List (Numbered E)) :
              Bag E) + c.buffer.queue + rest + c.held + 0 =
                c.entered + c.buffer.queue + (ev :: rest : List (Numbered E)) + c.held := by
            rw [entered_sent hsend, ← cons_coe, ← singleton_add]
            change (c.entered : Bag E) + {ev} + _ + _ + _ + 0 = _
            abel
          exact hmoves
        | closed =>
          simp only [hsend]
          refine h.reconnect hr rfl rfl rfl rfl h.closed ?_
          have hmoves : (c.entered : Bag E) + c.buffer.queue + rest + c.held +
              ([ev] : List (Numbered E)) =
                c.entered + c.buffer.queue + (ev :: rest : List (Numbered E)) + c.held := by
            rw [hcons]
            abel
          exact hmoves
    | done => exact h.move rfl rfl rfl h.closed (add_zero _)

/-- A full buffer evicts its oldest event, and counts it. -/
theorem push_cases (b : EventBuffer E) (ev : Numbered E) :
    1 ≤ b.cap →
      (∃ old rest, b.queue = old :: rest ∧
        b.push ev = { b with queue := rest ++ [ev], dropped := b.dropped + 1 }) ∨
      b.push ev = { b with queue := b.queue ++ [ev] } := by
  intro hcap
  unfold EventBuffer.push
  split
  · rename_i hfull
    left
    cases hqueue : b.queue with
    | nil =>
      rw [hqueue, length_nil] at hfull
      omega
    | cons old rest => exact ⟨old, rest, rfl, rfl⟩
  · right
    rfl

theorem conserves_push {ev : Numbered E} :
    c.producer = .failed ev → Conserves c thrown →
      Conserves { c with buffer := c.buffer.push ev, producer := .buffered } thrown := by
  intro hproducer h
  have hheld : c.held = [ev] := by
    rw [held, hproducer]
    rfl
  rcases h.places with ⟨evicted, hlen, hplaces⟩
  rw [hheld] at hplaces
  rcases push_cases c.buffer ev h.room with ⟨old, rest, hqueue, hpush⟩ | hpush
  · have hcons : ((old :: rest : List _) : Bag E) =
        ([old] : List (Numbered E)) + rest := (coe_add [old] rest).symm
    rw [hpush]
    refine ⟨h.room, h.numbers, h.closed, old :: evicted, ?_, ?_⟩
    · rw [length_cons, hlen]
    · have hall : (c.sent : Bag E) = (c.entered : Bag E) +
          ((rest ++ [ev] : List _) : Bag E) + c.flying + 0 +
            ((old :: evicted : List _) : Bag E) + thrown := by
        have hevicted : ((old :: evicted : List _) : Bag E) =
            ([old] : List (Numbered E)) + evicted := (coe_add [old] evicted).symm
        rw [hplaces, hqueue, hcons, hevicted, ← coe_add]
        abel
      exact hall
  · rw [hpush]
    refine ⟨h.room, h.numbers, h.closed, evicted, hlen, ?_⟩
    have hall : (c.sent : Bag E) = (c.entered : Bag E) +
        ((c.buffer.queue ++ [ev] : List _) : Bag E) + c.flying + 0 +
          evicted + thrown := by
      rw [hplaces, ← coe_add]
      abel
    exact hall

theorem conserves_send {ev : E} {producer : SendEvent E} :
    c.producer = .idle → producer.held = [{ seq := c.sent.length, ev := ev }] →
      Conserves c thrown →
        Conserves { c with sent := c.sent ++ [{ seq := c.sent.length, ev := ev }],
                           producer := producer } thrown := by
  intro hidle hnew h
  have hheld : c.held = [] := by
    rw [held, hidle]
    rfl
  rcases h.places with ⟨evicted, hlen, hplaces⟩
  rw [hheld] at hplaces
  refine ⟨h.room, ?_, h.closed, evicted, hlen, ?_⟩
  · rw [map_append, h.numbers, length_append, List.map_singleton, length_singleton, List.range_succ]
  · have hall : ((c.sent ++ [{ seq := c.sent.length, ev := ev }] : List (Numbered E)) :
        Bag E) = (c.entered : Bag E) + c.buffer.queue + c.flying +
          producer.held + evicted + thrown := by
      rw [← coe_add, hplaces, hnew, coe_nil]
      abel
    exact hall

/-- A receiver that takes an event, or is dropped, leaves the entered events where they are. -/
theorem conserves_setChannel {k : Nat} {ch ch' : Channel E} :
    c.channels[k]? = some ch → ch'.entered = ch.entered →
      (ch'.isOpen = false → ch'.queued = []) → Conserves c thrown →
        Conserves { c with channels := c.channels.set k ch' } thrown := by
  intro hch hentered hshut h
  have hsame : (c.channels.set k ch').flatMap Channel.entered = c.entered :=
    flatMap_set_of_eq c.channels k hch hentered
  have hmove := @Conserves.move E c thrown { c with channels := c.channels.set k ch' } [] h rfl rfl
    rfl ?_ ?_
  · rwa [append_nil] at hmove
  · intro other hmem hother
    rcases mem_or_eq_of_mem_set hmem with hold | rfl
    · exact h.closed other hold hother
    · exact hshut hother
  · have hplaces : (((c.channels.set k ch').flatMap Channel.entered : List (Numbered E)) :
        Bag E) + c.buffer.queue + c.flying + c.held + 0 = c.places := by
      rw [hsame]
      exact add_zero _
    exact hplaces

theorem flying_start (c : Client E) :
    (c.reconnects ++ [Reconnect.start]).flatMap Reconnect.held = c.flying := by
  rw [flatMap_append]
  exact append_nil _

theorem conserves_step (c : Client E) (thrown : List (Numbered E)) (a : Act E) :
    Conserves c thrown → Conserves (step c a) (thrown ++ lost c a) := by
  intro h
  have hstay : Conserves c (thrown ++ []) := by
    rwa [append_nil]
  cases a with
  | send ev =>
    cases hproducer : c.producer with
    | idle =>
      cases htx : c.eventsTx with
      | some tx =>
        -- the event is on its way to the channel of the moment
        have hsend := @conserves_send E c thrown ev
          (.sending tx { seq := c.sent.length, ev := ev }) hproducer rfl h
        simp only [step, lost, next, hproducer, htx, append_nil]
        rwa [← htx]
      | none =>
        -- there is no channel, so the event fails at once
        have hsend := @conserves_send E c thrown ev
          (.failed { seq := c.sent.length, ev := ev }) hproducer rfl h
        simp only [step, lost, next, hproducer, htx, append_nil]
        rwa [← htx]
    | _ =>
      simp only [step, lost, next, hproducer]
      exact hstay
  | deliver =>
    cases hproducer : c.producer with
    | sending tx ev =>
      -- the event leaves the hands of the producer: into the channel, or to the failure path
      have hheld : c.held = [ev] := by
        rw [held, hproducer]
        rfl
      simp only [step, lost, next, hproducer]
      cases hsend : sendOn c.channels tx ev with
      | full => exact hstay
      | sent channels =>
        refine h.move rfl rfl rfl (closed_sent hsend h.closed) ?_
        have hplaces : ((channels.flatMap Channel.entered : List (Numbered E)) :
            Bag E) + c.buffer.queue + c.flying + 0 + 0 = c.places := by
          rw [entered_sent hsend, Client.places, hheld, coe_singleton]
          change (c.entered : Bag E) + {ev} + _ + _ + 0 + 0 = _
          abel
        exact hplaces
      | closed =>
        refine h.move rfl rfl rfl h.closed ?_
        have hplaces : (c.entered : Bag E) + c.buffer.queue + c.flying +
            ([ev] : List (Numbered E)) + 0 = c.places := by
          rw [Client.places, hheld, add_zero]
        exact hplaces
    | _ =>
      simp only [step, lost, next, hproducer]
      exact hstay
  | push =>
    cases hproducer : c.producer with
    | failed ev =>
      simp only [step, lost, next, hproducer, append_nil]
      exact conserves_push hproducer h
    | _ =>
      simp only [step, lost, next, hproducer]
      exact hstay
  | spawn =>
    cases hproducer : c.producer with
    | buffered =>
      simp only [step, lost, next, hproducer]
      -- the event is in the buffer by now, and a new reconnect holds nothing
      have hheld : c.held = [] := by
        rw [held, hproducer]
        rfl
      refine h.move rfl rfl rfl h.closed ?_
      have hplaces : (c.entered : Bag E) + c.buffer.queue +
          (((c.reconnects ++ [Reconnect.start]).flatMap Reconnect.held : List (Numbered E)) :
            Bag E) + 0 + 0 = c.places := by
        rw [flying_start, Client.places, hheld]
        exact add_zero _
      exact hplaces
    | _ =>
      simp only [step, lost, next, hproducer]
      exact hstay
  | heartbeat =>
    cases htx : c.eventsTx with
    | some tx =>
      simp only [step, lost, next, htx]
      exact hstay
    | none =>
      simp only [step, lost, next, htx]
      refine h.move rfl rfl rfl h.closed ?_
      have hplaces : (c.entered : Bag E) + c.buffer.queue +
          (((c.reconnects ++ [Reconnect.start]).flatMap Reconnect.held : List (Numbered E)) :
            Bag E) + c.held + 0 = c.places := by
        rw [flying_start, Client.places, add_zero]
      exact hplaces
  | reconnect t => exact conserves_reconnect t h
  | receive k =>
    cases hch : c.channels[k]? with
    | none =>
      simp only [step, lost, next, hch]
      exact hstay
    | some ch =>
      cases hqueued : ch.queued with
      | nil =>
        simp only [step, lost, next, hch, hqueued]
        exact hstay
      | cons ev queued =>
        simp only [step, lost, next, hch, hqueued]
        split
        · rename_i hopen
          rw [append_nil]
          -- receiving moves an event from the queue to what was received, in one channel
          refine conserves_setChannel hch ?_ ?_ h
          · simp [Channel.entered, hqueued]
          · intro hshut
            rw [hopen] at hshut
            cases hshut
        · exact hstay
  | close k =>
    cases hch : c.channels[k]? with
    | none =>
      simp only [step, lost, next, hch]
      exact hstay
    | some ch =>
      simp only [step, lost, next, hch]
      split
      · rename_i hempty
        rw [append_nil]
        exact conserves_setChannel hch rfl (fun _ => hempty) h
      · exact hstay

theorem conserves_registered {bufferSize : Nat} :
    1 ≤ bufferSize → Conserves (registered bufferSize : Client E) [] := by
  intro hcap
  refine ⟨hcap, rfl, ?_, [], rfl, rfl⟩
  intro ch hch hshut
  rw [List.mem_singleton.1 hch] at hshut
  cases hshut

theorem conserves_run {bufferSize : Nat} (acts : List (Act E)) :
    1 ≤ bufferSize →
      Conserves (run step (registered bufferSize) acts)
        (outputs step lost (registered bufferSize) acts) := by
  intro hcap
  have hstep : ∀ (c : Client E) (thrown : List (Numbered E)) (a : Act E), True →
      Conserves c thrown → Conserves (step c a) (thrown ++ lost c a) :=
    fun c thrown a _ => conserves_step c thrown a
  exact invariant_outputs Conserves hstep along_true (conserves_registered hcap)

/-! ## At most once -/

theorem Conserves.nodup (h : Conserves c thrown) : c.sent.Nodup := by
  have hseq : (c.sent.map Numbered.seq).Nodup := by
    rw [h.numbers]
    exact nodup_range
  exact hseq.of_map _

theorem received_sublist_entered (c : Client E) : c.received.Sublist c.entered := by
  unfold received entered
  induction c.channels with
  | nil => exact Sublist.refl _
  | cons ch channels ih =>
    exact (sublist_append_left ch.received ch.queued).append ih

theorem Conserves.places_nodup (h : Conserves c thrown) :
    (c.entered ++ c.buffer.queue ++ c.flying ++ c.held).Nodup := by
  rcases h.places with ⟨evicted, _, hplaces⟩
  have hperm : c.sent.Perm
      (c.entered ++ c.buffer.queue ++ c.flying ++ c.held ++ evicted ++ thrown) := by
    refine coe_eq_coe.1 ?_
    rw [hplaces]
    simp only [coe_add]
  have hnodup := hperm.nodup_iff.1 h.nodup
  rw [append_assoc] at hnodup
  exact (nodup_append.1 hnodup).1

theorem Conserves.received_nodup (h : Conserves c thrown) : c.received.Nodup := by
  have hentered : c.entered.Nodup := by
    have hplaces := h.places_nodup
    rw [append_assoc, append_assoc] at hplaces
    exact (nodup_append.1 hplaces).1
  exact hentered.sublist (received_sublist_entered c)

end Conservation

/-! ## Order -/

/-- No event has entered a newer session. -/
def Client.Newest (c : Client E) (tx : Nat) : Prop :=
  ∀ j ch, tx < j → c.channels[j]? = some ch → ch.entered = []

/-- The condition on a step.  When a channel takes an event of the producer, the buffer is empty and
no reconnect has events to send; when it takes one from a reconnect, no other reconnect has an
earlier one; and in both cases no event has entered a newer session.  No reconnect sends on a closed
session. -/
def Kept (c : Client E) : Act E → Prop
  | .deliver =>
    match c.producer with
    | .sending tx ev => ∀ channels, sendOn c.channels tx ev = .sent channels →
        c.buffer.queue = [] ∧ c.flying = [] ∧ c.Newest tx
    | _ => True
  | .reconnect t =>
    match c.reconnects[t]? with
    | some (.flushing tx (ev :: _)) =>
      sendOn c.channels tx ev ≠ .closed ∧
        ∀ channels, sendOn c.channels tx ev = .sent channels → c.Newest tx ∧
          ∀ j r, j ≠ t → c.reconnects[j]? = some r → ∀ w ∈ r.held, ev.seq < w.seq
    | _ => True
  | _ => True

def Increasing (evs : List (Numbered E)) : Prop :=
  evs.Pairwise fun e e' => e.seq < e'.seq

/-- The events lie in the order they were sent: those in channels before those in the hands of
reconnects, these before those in the buffer, and these before the one of the call in progress. -/
structure Ordered (c : Client E) : Prop where
  connected : c.eventsTx ≠ none
  entered : Increasing c.entered
  first : ∀ e ∈ c.entered, ∀ w, w ∈ c.buffer.queue ∨ w ∈ c.flying ∨ w ∈ c.held → e.seq < w.seq
  buffer : Increasing c.buffer.queue
  flying : ∀ r ∈ c.reconnects, Increasing r.held
  behind : ∀ w ∈ c.flying, ∀ b, b ∈ c.buffer.queue ∨ b ∈ c.held → w.seq < b.seq
  last : ∀ b ∈ c.buffer.queue, ∀ w ∈ c.held, b.seq < w.seq

section Order

variable {c : Client E}

/-- A step after which the places outside the channels hold fewer events. -/
theorem Ordered.shrink {c' : Client E} (h : Ordered c) :
    c'.eventsTx ≠ none → c'.entered = c.entered → c'.buffer.queue = c.buffer.queue →
      (∀ w ∈ c'.flying, w ∈ c.flying) → (∀ r ∈ c'.reconnects, Increasing r.held) →
        (∀ w ∈ c'.held, w ∈ c.held) → Ordered c' := by
  intro hconnected hentered hbuffer hflying hincreasing hheld
  refine ⟨hconnected, hentered ▸ h.entered, ?_, hbuffer ▸ h.buffer, hincreasing, ?_, ?_⟩
  · intro e he w hw
    rw [hentered] at he
    rw [hbuffer] at hw
    exact h.first e he w (hw.imp_right (Or.imp (hflying w) (hheld w)))
  · intro w hw b hb
    rw [hbuffer] at hb
    exact h.behind w (hflying w hw) b (hb.imp_right (hheld b))
  · intro b hb w hw
    rw [hbuffer] at hb
    exact h.last b hb w (hheld w hw)

theorem Ordered.reconnect {t : Nat} {r r' : Reconnect E} (h : Ordered c) :
    c.reconnects[t]? = some r → r'.held.Sublist r.held →
      (∀ w ∈ (c.setReconnect t r').flying, w ∈ c.flying) ∧
        ∀ x ∈ (c.setReconnect t r').reconnects, Increasing x.held := by
  intro hr hsub
  constructor
  · intro w hw
    rcases mem_flatMap_set hw with hw | ⟨j, x, _, hx, hw⟩
    · exact mem_flatMap_of_getElem? hr (hsub.subset hw)
    · exact mem_flatMap_of_getElem? hx hw
  · intro x hx
    rcases mem_or_eq_of_mem_set hx with hold | rfl
    · exact h.flying x hold
    · exact (h.flying r (mem_of_getElem? hr)).sublist hsub

theorem entered_newest {tx : Nat} {ev : Numbered E} {channels : List (Channel E)} :
    sendOn c.channels tx ev = .sent channels → c.Newest tx →
      channels.flatMap Channel.entered = c.entered ++ [ev] := by
  intro hsend hnewest
  rcases sendOn_sent hsend with ⟨ch, hch, _, rfl⟩
  refine flatMap_set_last c.channels tx hch ?_ hnewest
  rw [Channel.entered, Channel.entered, append_assoc]

/-- An event may enter when it is later than those that entered before it. -/
theorem increasing_concat {evs : List (Numbered E)} {ev : Numbered E} :
    Increasing evs → (∀ e ∈ evs, e.seq < ev.seq) → Increasing (evs ++ [ev]) := by
  intro h hlt
  refine pairwise_append.2 ⟨h, pairwise_singleton _ _, ?_⟩
  intro e he w hw
  rw [List.mem_singleton.1 hw]
  exact hlt e he

/-- The events in any place have numbers below that of the next call. -/
theorem Conserves.seq_lt {thrown : List (Numbered E)} (h : Conserves c thrown) {w : Numbered E} :
    w ∈ c.entered ∨ w ∈ c.buffer.queue ∨ w ∈ c.flying → w.seq < c.sent.length := by
  intro hw
  rcases h.places with ⟨evicted, _, hplaces⟩
  have hmem : w ∈ c.sent := by
    rw [← mem_coe, hplaces]
    rcases hw with hw | hw | hw <;> simp [hw]
  have hseq := mem_map_of_mem (f := Numbered.seq) hmem
  rw [h.numbers] at hseq
  exact List.mem_range.1 hseq

theorem ordered_send {thrown : List (Numbered E)} {ev : E} {producer : SendEvent E} :
    producer.held = [{ seq := c.sent.length, ev := ev }] → Conserves c thrown → Ordered c →
      Ordered { c with sent := c.sent ++ [{ seq := c.sent.length, ev := ev }],
                       producer := producer } := by
  intro hnew hconserves h
  -- the new event is later than those in any place
  have hlast : ∀ w : Numbered E, w ∈ c.entered ∨ w ∈ c.buffer.queue ∨ w ∈ c.flying →
      ∀ b ∈ producer.held, w.seq < b.seq := by
    intro w hw b hb
    rw [hnew, List.mem_singleton] at hb
    rw [hb]
    exact hconserves.seq_lt hw
  refine ⟨h.connected, h.entered, ?_, h.buffer, h.flying, ?_, ?_⟩
  · rintro e he w (hw | hw | hw)
    · exact h.first e he w (.inl hw)
    · exact h.first e he w (.inr (.inl hw))
    · exact hlast e (.inl he) w hw
  · rintro w hw b (hb | hb)
    · exact h.behind w hw b (.inl hb)
    · exact hlast w (.inr (.inr hw)) b hb
  · intro b hb w hw
    exact hlast b (.inr (.inl hb)) w hw

/-- The producer's event enters a channel while nothing else is on its way. -/
theorem ordered_deliver {tx : Nat} {ev : Numbered E} {channels : List (Channel E)} :
    c.producer = .sending tx ev → sendOn c.channels tx ev = .sent channels →
      c.buffer.queue = [] → c.flying = [] → c.Newest tx → Ordered c →
        Ordered { c with channels := channels, producer := .idle } := by
  intro hproducer hsend hbuffer hflying hnewest h
  have hheld : ev ∈ c.held := by
    rw [held, hproducer]
    exact List.mem_singleton_self ev
  refine ⟨h.connected, ?_, ?_, h.buffer, h.flying, ?_, ?_⟩
  · have hentered := entered_newest hsend hnewest
    have hincreasing : Increasing (c.entered ++ [ev]) :=
      increasing_concat h.entered fun e he => h.first e he ev (.inr (.inr hheld))
    exact (congrArg Increasing hentered).mpr hincreasing
  · rintro e _ w (hw | hw | hw)
    · rw [hbuffer] at hw
      cases hw
    · have hw' : w ∈ c.flying := hw
      rw [hflying] at hw'
      cases hw'
    · cases hw
  · intro w hw
    have hw' : w ∈ c.flying := hw
    rw [hflying] at hw'
    cases hw'
  · intro b _ w hw
    cases hw

/-- The event of the call in progress goes behind those in the buffer. -/
theorem ordered_push {ev : Numbered E} :
    c.producer = .failed ev → 1 ≤ c.buffer.cap → Ordered c →
      Ordered { c with buffer := c.buffer.push ev, producer := .buffered } := by
  intro hproducer hcap h
  have hheld : ev ∈ c.held := by
    rw [held, hproducer]
    exact List.mem_singleton_self ev
  -- what is in the buffer now was there or is the event
  have hqueue : ∃ kept : List (Numbered E), kept.Sublist c.buffer.queue ∧
      (c.buffer.push ev).queue = kept ++ [ev] := by
    rcases push_cases c.buffer ev hcap with ⟨old, rest, hold, hpush⟩ | hpush
    · refine ⟨rest, ?_, by rw [hpush]⟩
      rw [hold]
      exact sublist_cons_self old rest
    · exact ⟨c.buffer.queue, Sublist.refl _, by rw [hpush]⟩
  rcases hqueue with ⟨kept, hsub, hqueue⟩
  have hmem : ∀ w ∈ (c.buffer.push ev).queue, w ∈ c.buffer.queue ∨ w ∈ c.held := by
    intro w hw
    rw [hqueue] at hw
    rcases mem_append.1 hw with hw | hw
    · exact .inl (hsub.subset hw)
    · rw [List.mem_singleton.1 hw]
      exact .inr hheld
  refine ⟨h.connected, h.entered, ?_, ?_, h.flying, ?_, ?_⟩
  · rintro e he w (hw | hw | hw)
    · rcases hmem w hw with hw | hw
      · exact h.first e he w (.inl hw)
      · exact h.first e he w (.inr (.inr hw))
    · exact h.first e he w (.inr (.inl hw))
    · cases hw
  · have hincreasing : Increasing (kept ++ [ev]) :=
      increasing_concat (h.buffer.sublist hsub) fun b hb => h.last b (hsub.subset hb) ev hheld
    exact hqueue ▸ hincreasing
  · rintro w hw b (hb | hb)
    · exact h.behind w hw b (hmem b hb)
    · cases hb
  · intro b _ w hw
    cases hw

theorem ordered_drain {t : Nat} {r : Reconnect E} :
    c.reconnects[t]? = some r → r.held = [] → Ordered c →
      Ordered (({ c with buffer := c.buffer.drain.2 } : Client E).setReconnect t
        (.drained c.buffer.queue)) := by
  intro hr hnone h
  have hflying : ∀ w ∈ (c.setReconnect t (.drained c.buffer.queue)).flying,
      w ∈ c.buffer.queue ∨ w ∈ c.flying := by
    intro w hw
    rcases mem_flatMap_set hw with hw | ⟨j, x, _, hx, hw⟩
    · exact .inl hw
    · exact .inr (mem_flatMap_of_getElem? hx hw)
  refine ⟨h.connected, h.entered, ?_, Pairwise.nil, ?_, ?_, ?_⟩
  · rintro e he w (hw | hw | hw)
    · cases hw
    · rcases hflying w hw with hw | hw
      · exact h.first e he w (.inl hw)
      · exact h.first e he w (.inr (.inl hw))
    · exact h.first e he w (.inr (.inr hw))
  · intro x hx
    rcases mem_or_eq_of_mem_set hx with hold | rfl
    · exact h.flying x hold
    · exact h.buffer
  · rintro w hw b (hb | hb)
    · cases hb
    · rcases hflying w hw with hw | hw
      · exact h.last w hw b hb
      · exact h.behind w hw b (.inr hb)
  · intro b hb
    cases hb

/-- A reconnect's first event enters a channel while no other reconnect has an earlier one. -/
theorem ordered_flush {t tx : Nat} {ev : Numbered E} {rest : List (Numbered E)}
    {channels : List (Channel E)} :
    c.reconnects[t]? = some (.flushing tx (ev :: rest)) →
      sendOn c.channels tx ev = .sent channels → c.Newest tx →
        (∀ j r, j ≠ t → c.reconnects[j]? = some r → ∀ w ∈ r.held, ev.seq < w.seq) →
          Ordered c →
            Ordered (({ c with channels := channels } : Client E).setReconnect t
              (.flushing tx rest)) := by
  intro hr hsend hnewest hothers h
  have hev : ev ∈ c.flying := mem_flatMap_of_getElem? hr mem_cons_self
  have hheld := pairwise_cons.1 (h.flying _ (mem_of_getElem? hr))
  have hsmaller := @Ordered.reconnect E c t _ (.flushing tx rest) h hr (sublist_cons_self ev rest)
  have hflying : ∀ w ∈ (c.setReconnect t (.flushing tx rest)).flying, ev.seq < w.seq := by
    intro w hw
    rcases mem_flatMap_set hw with hw | ⟨j, x, hj, hx, hw⟩
    · exact hheld.1 w hw
    · exact hothers j x hj hx w hw
  have hentered : (({ c with channels := channels } : Client E).setReconnect t
      (.flushing tx rest)).entered = c.entered ++ [ev] := entered_newest hsend hnewest
  refine ⟨h.connected, ?_, ?_, h.buffer, hsmaller.2, ?_, h.last⟩
  · rw [hentered]
    exact increasing_concat h.entered fun e he => h.first e he ev (.inr (.inl hev))
  · intro e he w hw
    rw [hentered] at he
    rcases mem_append.1 he with he | he
    · exact h.first e he w (hw.imp_right (Or.imp_left (hsmaller.1 w)))
    · rw [List.mem_singleton.1 he]
      rcases hw with hw | hw | hw
      · exact h.behind ev hev w (.inl hw)
      · exact hflying w hw
      · exact h.behind ev hev w (.inr hw)
  · intro w hw
    exact h.behind w (hsmaller.1 w hw)

theorem ordered_setChannel {k : Nat} {ch ch' : Channel E} :
    c.channels[k]? = some ch → ch'.entered = ch.entered → Ordered c →
      Ordered { c with channels := c.channels.set k ch' } := by
  intro hch hentered h
  have hsame : (c.channels.set k ch').flatMap Channel.entered = c.entered :=
    flatMap_set_of_eq c.channels k hch hentered
  exact h.shrink h.connected hsame rfl (fun _ hw => hw) h.flying (fun _ hw => hw)

theorem ordered_reconnect (t : Nat) :
    Kept c (.reconnect t) → Ordered c →
      Ordered (reconnectStep c t).1 ∧ (reconnectStep c t).2 = [] := by
  intro hkept h
  unfold reconnectStep
  cases hr : c.reconnects[t]? with
  | none => exact ⟨h, rfl⟩
  | some r =>
    cases r with
    | start =>
      -- a new channel has received nothing
      have hsmaller := @Ordered.reconnect E c t _ (.registered c.channels.length) h hr
        (Sublist.refl [])
      have hentered : (c.channels ++ [Channel.new]).flatMap Channel.entered = c.entered := by
        rw [flatMap_append]
        exact append_nil _
      exact ⟨h.shrink h.connected hentered rfl hsmaller.1 hsmaller.2 (fun _ hw => hw), rfl⟩
    | registered tx =>
      have hsmaller := @Ordered.reconnect E c t _ .connected h hr (Sublist.refl [])
      have hconnected : some tx ≠ none := Option.some_ne_none tx
      exact ⟨h.shrink hconnected rfl rfl hsmaller.1 hsmaller.2 (fun _ hw => hw), rfl⟩
    | connected => exact ⟨ordered_drain hr rfl h, rfl⟩
    | drained evs =>
      cases htx : c.eventsTx with
      | none => exact absurd htx h.connected
      | some tx =>
        have hsmaller := @Ordered.reconnect E c t _ (.flushing tx evs) h hr
          (Sublist.refl evs)
        exact ⟨h.shrink h.connected rfl rfl hsmaller.1 hsmaller.2 (fun _ hw => hw), rfl⟩
    | flushing tx rest =>
      cases rest with
      | nil =>
        have hsmaller := @Ordered.reconnect E c t _ .done h hr (Sublist.refl [])
        exact ⟨h.shrink h.connected rfl rfl hsmaller.1 hsmaller.2 (fun _ hw => hw), rfl⟩
      | cons ev rest =>
        simp only [Kept, hr] at hkept
        cases hsend : sendOn c.channels tx ev with
        -- a flush into a closed channel would throw the event away
        | closed => exact absurd hsend hkept.1
        | full =>
          simp only [hsend]
          exact ⟨h, trivial⟩
        | sent channels =>
          -- the event that is flushed is the oldest one outside the channels
          have hturn := hkept.2 channels hsend
          simp only [hsend]
          exact ⟨ordered_flush hr hsend hturn.1 hturn.2 h, trivial⟩
    | done => exact ⟨h, rfl⟩

theorem ordered_step {thrown : List (Numbered E)} (a : Act E) :
    Kept c a → Conserves c thrown → Ordered c → Ordered (step c a) ∧ lost c a = [] := by
  intro hkept hconserves h
  cases a with
  | send ev =>
    cases hproducer : c.producer with
    | idle =>
      cases htx : c.eventsTx with
      -- a kept run never loses its channel
      | none => exact absurd htx h.connected
      | some tx =>
        have hsend := @ordered_send E c thrown ev
          (.sending tx { seq := c.sent.length, ev := ev }) rfl hconserves h
        simp only [step, lost, next, hproducer, htx]
        exact ⟨by rwa [← htx], trivial⟩
    | _ =>
      simp only [step, lost, next, hproducer]
      exact ⟨h, trivial⟩
  | deliver =>
    cases hproducer : c.producer with
    | sending tx ev =>
      simp only [Kept, hproducer] at hkept
      simp only [step, lost, next, hproducer]
      cases hsend : sendOn c.channels tx ev with
      | full => exact ⟨h, rfl⟩
      | sent channels =>
        -- entering a channel keeps the order only if nothing older waits elsewhere
        rcases hkept channels hsend with ⟨hbuffer, hflying, hnewest⟩
        exact ⟨ordered_deliver hproducer hsend hbuffer hflying hnewest h, rfl⟩
      | closed =>
        refine ⟨h.shrink h.connected rfl rfl (fun _ hw => hw) h.flying ?_, rfl⟩
        -- a failed send leaves the event where it was, in the hands of the producer
        intro w hw
        rw [held, hproducer]
        exact hw
    | _ =>
      simp only [step, lost, next, hproducer]
      exact ⟨h, trivial⟩
  | push =>
    cases hproducer : c.producer with
    | failed ev =>
      simp only [step, lost, next, hproducer]
      exact ⟨ordered_push hproducer hconserves.room h, trivial⟩
    | _ =>
      simp only [step, lost, next, hproducer]
      exact ⟨h, trivial⟩
  | spawn =>
    cases hproducer : c.producer with
    | buffered =>
      simp only [step, lost, next, hproducer]
      refine ⟨h.shrink h.connected rfl rfl ?_ ?_ ?_, trivial⟩
      · intro w hw
        rw [← flying_start c]
        exact hw
      · intro r hr
        rcases mem_append.1 hr with hr | hr
        · exact h.flying r hr
        · rw [List.mem_singleton.1 hr]
          exact Pairwise.nil
      · intro w hw
        cases hw
    | _ =>
      simp only [step, lost, next, hproducer]
      exact ⟨h, trivial⟩
  | heartbeat =>
    cases htx : c.eventsTx with
    | none => exact absurd htx h.connected
    | some tx =>
      simp only [step, lost, next, htx]
      exact ⟨h, trivial⟩
  | reconnect t => exact ordered_reconnect t hkept h
  | receive k =>
    cases hch : c.channels[k]? with
    | none =>
      simp only [step, lost, next, hch]
      exact ⟨h, trivial⟩
    | some ch =>
      cases hqueued : ch.queued with
      | nil =>
        simp only [step, lost, next, hch, hqueued]
        exact ⟨h, trivial⟩
      | cons ev queued =>
        simp only [step, lost, next, hch, hqueued]
        split
        · refine ⟨ordered_setChannel hch ?_ h, rfl⟩
          simp [Channel.entered, hqueued]
        · exact ⟨h, rfl⟩
  | close k =>
    cases hch : c.channels[k]? with
    | none =>
      simp only [step, lost, next, hch]
      exact ⟨h, trivial⟩
    | some ch =>
      simp only [step, lost, next, hch]
      split
      · exact ⟨ordered_setChannel hch rfl h, rfl⟩
      · exact ⟨h, rfl⟩

end Order

/-! ## Delivery -/

theorem entered_eq (channels : List (Channel E)) :
    (∀ ch ∈ channels, ch.isOpen = false → ch.queued = []) →
      ((channels.flatMap Channel.entered : List _) : Bag E) =
        ((channels.flatMap Channel.received : List _) : Bag E) +
          ((channels.flatMap fun ch => if ch.isOpen then ch.queued else [] :
            List _) : Bag E) := by
  induction channels with
  | nil =>
    intro _
    rfl
  | cons ch channels ih =>
    intro hclosed
    have hqueued : (if ch.isOpen then ch.queued else []) = ch.queued := by
      cases hopen : ch.isOpen with
      | true => rfl
      | false => exact (hclosed ch mem_cons_self hopen).symm
    have hrest := ih fun other hother => hclosed other (mem_cons_of_mem ch hother)
    simp only [flatMap_cons, hqueued, Channel.entered, ← coe_add, hrest]
    abel

theorem delivered_of_ordered {c : Client E} :
    Conserves c [] → Ordered c → Delivered c := by
  intro hconserves h
  refine ⟨hconserves.received_nodup, ?_, ?_⟩
  · intro hquiet
    rcases hconserves.places with ⟨evicted, hlen, hplaces⟩
    refine ⟨evicted, hlen, ?_⟩
    have hflying : c.flying = [] := by
      rw [flying, flatMap_eq_nil_iff]
      intro r hr
      rw [hquiet r hr]
      rfl
    have hentered : (c.entered : Bag E) = (c.received ++ c.live : List _) :=
      entered_eq c.channels hconserves.closed
    refine coe_eq_coe.1 ?_
    rw [hplaces, hflying, hentered]
    simp only [coe_add, append_nil]
  · exact h.entered.sublist (received_sublist_entered c)

theorem ordered_registered {bufferSize : Nat} :
    Ordered (registered bufferSize : Client E) := by
  refine ⟨Option.some_ne_none 0, Pairwise.nil, ?_, Pairwise.nil, ?_, ?_, ?_⟩
  · intro e he
    cases he
  · intro r hr
    cases hr
  · intro w hw
    cases hw
  · intro b hb
    cases hb

/-- No run receives an event twice.  A run whose steps all meet the condition also loses none, and
receives them in order. -/
theorem delivered_run {bufferSize : Nat} (acts : List (Act E)) :
    1 ≤ bufferSize →
      (run step (registered bufferSize) acts).received.Nodup ∧
      (Along step Kept (registered bufferSize) acts →
        Delivered (run step (registered bufferSize) acts)) := by
  intro hcap
  refine ⟨(conserves_run acts hcap).received_nodup, ?_⟩
  intro halong
  have hstep : ∀ (c : Client E) (a : Act E), Kept c a → (Conserves c [] ∧ Ordered c) →
      Conserves (step c a) [] ∧ Ordered (step c a) := by
    rintro c a hkept ⟨hconserves, h⟩
    rcases ordered_step a hkept hconserves h with ⟨hordered, hlost⟩
    have hnext := conserves_step c [] a hconserves
    rw [hlost] at hnext
    exact ⟨hnext, hordered⟩
  have hrun := invariant (fun c : Client E => Conserves c [] ∧ Ordered c) hstep halong
    ⟨conserves_registered hcap, ordered_registered⟩
  exact delivered_of_ordered hrun.1 hrun.2

/-- The session is closed, the event is buffered, and the reconnect flushes it before the next
event is sent. -/
def flushedFirst : List (Act Nat) :=
  [.send 10, .close 0, .deliver, .push, .spawn, .reconnect 0, .reconnect 0, .reconnect 0,
    .reconnect 0, .reconnect 0, .reconnect 0, .send 11, .deliver, .receive 1, .receive 1]

theorem delivered_flushedFirst :
    Delivered (run step (registered 1) flushedFirst) ∧
      (run step (registered 1) flushedFirst).received.map Numbered.ev = [10, 11] := by
  refine ⟨(delivered_run flushedFirst (Nat.le_refl 1)).2 ?_, by decide⟩
  refine ⟨trivial, trivial, ?_, trivial, trivial, trivial, trivial, trivial, trivial, ⟨?_, ?_⟩,
    trivial, trivial, ?_, trivial, trivial, trivial⟩
  · intro channels hsend
    have hclosed : SendResult.closed = SendResult.sent channels := hsend
    cases hclosed
  · intro hsend
    have hsent : SendResult.sent _ = SendResult.closed := hsend
    cases hsent
  · intro channels _
    refine ⟨?_, ?_⟩
    · intro j ch hj hch
      have hnewer : 1 < j := hj
      have hlt : j < 2 := (List.getElem?_eq_some_iff.1 hch).1
      omega
    · intro j r hj hr
      have hlt : j < 1 := (List.getElem?_eq_some_iff.1 hr).1
      omega
  · intro channels _
    refine ⟨rfl, rfl, ?_⟩
    intro j ch hj hch
    have hnewer : 1 < j := hj
    have hlt : j < 2 := (List.getElem?_eq_some_iff.1 hch).1
    omega

/-- The next event is sent on the new session before the reconnect has drained the buffer. -/
def overtaken : List (Act Nat) :=
  [.send 10, .close 0, .deliver, .push, .spawn, .reconnect 0, .reconnect 0, .send 11, .deliver,
    .reconnect 0, .reconnect 0, .reconnect 0, .receive 1, .receive 1]

theorem overtaken_not_delivered :
    (run step (registered 1) overtaken).received.map Numbered.ev = [11, 10] ∧
      ¬ Delivered (run step (registered 1) overtaken) := by
  refine ⟨by decide, ?_⟩
  intro h
  have hordered := h.ordered
  revert hordered
  decide

/-- A session that is closed while its reconnect drains the buffer: the event is in no place, and
not counted. -/
example :
    let c := run step (registered 1) ([.send 10, .close 0, .deliver, .push, .spawn,
      .reconnect 0, .reconnect 0, .reconnect 0, .reconnect 0, .close 1, .reconnect 0,
      .reconnect 0] : List (Act Nat))
    c.received ++ c.live ++ c.buffer.queue ++ c.flying ++ c.held = [] ∧ c.buffer.dropped = 0 ∧
      c.sent.length = 1 := by
  decide

end Rpc
end Rustorch
