import Mathlib.Algebra.Group.Nat.Defs
import Mathlib.Data.List.Range
import Rustorch.Lib.Lossy
import Rustorch.Lib.Runs

/-!
# The event hub

Each topic has a counter, a ring of recent events and a broadcast channel.  `publish` and
`subscribe` hold the lock of the hub; a subscriber first gets the events of the ring that it missed
and then reads the channel.  The channel delivers what was sent after the subscription in order, or
reports that the reader lagged.

An overflow of the counter is a panic; it poisons the lock.
-/

namespace Rustorch
namespace Console
namespace Sse

/-! ## Topics -/

/-- Nanoseconds of a monotonic clock. -/
abbrev Instant : Type := Int

structure HubEvent (V : Type) where
  id : Nat
  kind : String
  payload : V
  deriving DecidableEq

/-- The channel is held as the list of what was sent on it. -/
structure Topic (V : Type) where
  tx : List (HubEvent V)
  nextId : Nat
  ring : List (Instant × HubEvent V)

def ringCapacity : Nat := 4096

/-- 30 seconds. -/
def ringRetention : Int := 30 * 1000000000

namespace Topic

variable {V : Type}

def new : Topic V where
  tx := []
  nextId := 1
  ring := []

/-- The second loop of `evict_old`. -/
def popExcess {α : Type} : List α → List α
  | [] => []
  | entry :: ring =>
    if ringCapacity < ring.length + 1 then
      popExcess ring
    else
      entry :: ring

/-- Old entries leave at the head, and then what exceeds the capacity. -/
def evictOld (now : Instant) (t : Topic V) : Topic V :=
  let cutoff := now - ringRetention
  { t with ring := popExcess (t.ring.dropWhile fun entry => entry.1 < cutoff) }

@[simp] theorem evictOld_tx (now : Instant) (t : Topic V) : (t.evictOld now).tx = t.tx := rfl

@[simp] theorem evictOld_nextId (now : Instant) (t : Topic V) :
    (t.evictOld now).nextId = t.nextId := rfl

end Topic

/-! ## The hub -/

structure Hub (V : Type) where
  topics : String → Option (Topic V)
  poisoned : Bool

/-- A receiver starts behind what was sent before it. -/
structure Subscription (V : Type) where
  replay : List (HubEvent V)
  rx : Nat

namespace Hub

variable {V : Type}

def new : Hub V where
  topics := fun _ => none
  poisoned := false

/-- `entry(topic).or_insert_with(Topic::new)`. -/
def entry (h : Hub V) (topic : String) : Topic V :=
  (h.topics topic).getD Topic.new

def set (h : Hub V) (topic : String) (t : Topic V) : Hub V :=
  { h with topics := Function.update h.topics topic (some t) }

/-- `none` is a panic: the lock is poisoned. -/
def subscribe (h : Hub V) (topic : String) (lastId : Option Nat) (now : Instant) :
    Option (Subscription V) × Hub V :=
  if h.poisoned then
    (none, h)
  else
    let t := (h.entry topic).evictOld now
    let replay :=
      match lastId with
      | some after => (t.ring.filter fun entry => after < entry.2.id).map Prod.snd
      | none => []
    (some { replay := replay, rx := t.tx.length }, h.set topic t)

/-- `pushed` and `now` are the two readings of the clock; a value that does not serialize is
dropped. -/
def publish (h : Hub V) (topic kind : String) (value : Option V) (pushed now : Instant) :
    Option Nat × Hub V :=
  match value with
  | none => (some 0, h)
  | some payload =>
    if h.poisoned then
      (none, h)
    else
      let t := h.entry topic
      let id := t.nextId
      if id + 1 < 2 ^ 64 then
        let ev : HubEvent V := { id := id, kind := kind, payload := payload }
        let t := { t with nextId := id + 1, ring := t.ring ++ [(pushed, ev)] }
        let t := t.evictOld now
        (some id, h.set topic { t with tx := t.tx ++ [ev] })
      else
        (none, { h.set topic t with poisoned := true })

end Hub

/-! ## The response -/

structure SseEvent where
  id : Option String
  event : Option String
  data : Option String
  deriving DecidableEq

/-- An event of the response; `none` is a lag, and `encode` is the JSON text of a payload. -/
def sseEvent {V : Type} (encode : V → Option String) : Option (HubEvent V) → SseEvent
  | some ev =>
    match encode ev.payload with
    | some data => { id := some (toString ev.id), event := some ev.kind, data := some data }
    | none => { id := none, event := none, data := some "\x7b\x7d" }
  | none => { id := none, event := some "lag", data := some "\x7b\x7d" }

/-- `replay` first, then what the channel delivered. -/
def sseResponse {V : Type} (encode : V → Option String) (replay : List (HubEvent V))
    (live : List (Option (HubEvent V))) : List SseEvent :=
  (replay.map some ++ live).map (sseEvent encode)

/-! ## Runs -/

/-- A subscriber: its subscription, when it was made, and what the channel gave it since. -/
structure Client (V : Type) where
  topic : String
  lastId : Option Nat
  since : Instant
  sub : Subscription V
  next : Nat
  live : List (Option (HubEvent V))

structure System (V : Type) where
  hub : Hub V
  clients : List (Client V)
  clock : Instant

def System.init {V : Type} (start : Instant) : System V where
  hub := Hub.new
  clients := []
  clock := start

inductive HubCall (V : Type)
  | publish (topic kind : String) (value : Option V) (pushed now : Instant)
  | subscribe (topic : String) (lastId : Option Nat) (now : Instant)
  | recv (client : Nat)
  | lag (client missed : Nat)

/-- An event that was published: its topic, the reading of the clock, and the event. -/
structure Published (V : Type) where
  topic : String
  pushed : Instant
  event : HubEvent V

section Step

variable {V : Type}

/-- The next item of the channel, if one was sent. -/
def Client.recv (c : Client V) (t : Topic V) : Client V :=
  match t.tx[c.next]? with
  | some ev => { c with next := c.next + 1, live := c.live ++ [some ev] }
  | none => c

/-- The channel skips `missed` items and reports it. -/
def Client.lag (c : Client V) (t : Topic V) (missed : Nat) : Client V :=
  if 0 < missed ∧ c.next + missed ≤ t.tx.length then
    { c with next := c.next + missed, live := c.live ++ [none] }
  else
    c

def System.modifyClient (s : System V) (i : Nat) (f : Client V → Client V) : System V :=
  { s with clients := s.clients.modify i f }

def step (s : System V) : HubCall V → System V
  | .publish topic kind value pushed now =>
    { s with hub := (s.hub.publish topic kind value pushed now).2, clock := now }
  | .subscribe topic lastId now =>
    match s.hub.subscribe topic lastId now with
    | (some sub, hub) =>
      { hub := hub
        clients := s.clients ++ [{ topic := topic, lastId := lastId, since := now, sub := sub,
                                   next := sub.rx, live := [] }]
        clock := now }
    | (none, hub) => { s with hub := hub, clock := now }
  | .recv i => s.modifyClient i fun c => c.recv (s.hub.entry c.topic)
  | .lag i missed => s.modifyClient i fun c => c.lag (s.hub.entry c.topic) missed

/-- What a call publishes: the event under the id that it returns. -/
def published (s : System V) : HubCall V → List (Published V)
  | .publish topic kind (some payload) pushed now =>
    match (s.hub.publish topic kind (some payload) pushed now).1 with
    | some id => [{ topic := topic, pushed := pushed,
                    event := { id := id, kind := kind, payload := payload } }]
    | none => []
  | _ => []

/-- Time does not decrease. -/
def Timely (s : System V) : HubCall V → Prop
  | .publish _ _ _ pushed now => s.clock ≤ pushed ∧ pushed ≤ now
  | .subscribe _ _ now => s.clock ≤ now
  | _ => True

/-- The events published on a topic, with the readings of the clock. -/
def logOf (topic : String) (log : List (Published V)) : List (Instant × HubEvent V) :=
  log.filterMap fun p => if p.topic = topic then some (p.pushed, p.event) else none

end Step

end Sse
end Console
end Rustorch

/-!
# Resuming a stream of events

Over any run of the hub, the ids of a topic count from 1, its ring is the end of what was
published, and a subscriber that resumes after an id gets every later event that was retained when
it subscribed and then what the channel delivers, each once and in order (`hub_resumes`).
-/

namespace Rustorch
namespace Console
namespace Sse

open Lossy Runs List

variable {V : Type}

/-! ## Eviction -/

/-- The entries of a log that eviction may have dropped: those before position `d`, each too old or
followed by `ringCapacity` others. -/
def Evictable (log : List (Instant × HubEvent V)) (now : Instant) (d : Nat) : Prop :=
  ∀ i entry, i < d → log[i]? = some entry →
    entry.1 < now - ringRetention ∨ i + ringCapacity < log.length

theorem Evictable.mono {log more : List (Instant × HubEvent V)} {now now' : Instant} {d : Nat} :
    d ≤ log.length → now ≤ now' → Evictable log now d → Evictable (log ++ more) now' d := by
  intro hd hnow h i entry hi hentry
  rw [getElem?_append_left (lt_of_lt_of_le hi hd)] at hentry
  rw [length_append]
  rcases h i entry hi hentry with hold | hmany
  · exact .inl (Int.lt_of_lt_of_le hold (Int.sub_le_sub_right hnow ringRetention))
  · exact .inr (lt_of_lt_of_le hmany (Nat.le_add_right _ _))

theorem dropWhile_eq_drop {α : Type} (l : List α) (p : α → Bool) :
    ∃ n, l.dropWhile p = l.drop n ∧
      n ≤ l.length ∧ ∀ i a, i < n → l[i]? = some a → p a = true := by
  induction l with
  | nil =>
    refine ⟨0, rfl, le_rfl, ?_⟩
    intro i a hi
    cases hi
  | cons b l ih =>
    by_cases hb : p b = true
    · rcases ih with ⟨n, hdrop, hle, hmet⟩
      refine ⟨n + 1, ?_, Nat.succ_le_succ hle, ?_⟩
      · rw [dropWhile_cons_of_pos hb, hdrop, drop_succ_cons]
      · intro i a hi ha
        cases i with
        | zero =>
          cases ha
          exact hb
        | succ i => exact hmet i a (Nat.lt_of_succ_lt_succ hi) ha
    · refine ⟨0, dropWhile_cons_of_neg hb, Nat.zero_le _, ?_⟩
      intro i a hi
      cases hi

theorem popExcess_eq_drop {α : Type} (l : List α) :
    Topic.popExcess l = l.drop (l.length - ringCapacity) := by
  induction l with
  | nil => exact drop_nil.symm
  | cons a l ih =>
    rw [Topic.popExcess, length_cons]
    split
    · rename_i h
      have hlen : l.length + 1 - ringCapacity = l.length - ringCapacity + 1 := by omega
      rw [ih, hlen, drop_succ_cons]
    · rename_i h
      have hlen : l.length + 1 - ringCapacity = 0 := by omega
      rw [hlen, drop_zero]

theorem evictOld_spec {t : Topic V} {log : List (Instant × HubEvent V)} {now : Instant} {d : Nat} :
    d ≤ log.length → t.ring = log.drop d → Evictable log now d →
      ∃ d', d' ≤ log.length ∧ (t.evictOld now).ring = log.drop d' ∧ Evictable log now d' ∧
        (t.evictOld now).ring.length ≤ ringCapacity := by
  intro hd hring h
  obtain ⟨n, hwhile, hfirst⟩ := dropWhile_eq_drop t.ring
    fun entry => decide (entry.1 < now - ringRetention)
  have hring' : (t.evictOld now).ring =
      (t.ring.drop n).drop ((t.ring.drop n).length - ringCapacity) := by
    rw [← hwhile, ← popExcess_eq_drop]
    rfl
  have hn : n ≤ t.ring.length := hfirst.1
  have hlog : t.ring.drop n = log.drop (d + n) := by
    rw [hring, drop_drop]
  rw [hlog, length_drop, drop_drop] at hring'
  rw [hring, length_drop] at hn
  rw [hring] at hfirst
  refine ⟨d + n + (log.length - (d + n) - ringCapacity), ?_, hring', ?_, ?_⟩
  · omega
  · intro i entry hi hentry
    rcases lt_or_ge i d with hid | hid
    · exact h i entry hid hentry
    rcases lt_or_ge i (d + n) with hin | hin
    · -- an old entry at the head of the ring
      left
      have hat : (log.drop d)[i - d]? = some entry := by
        rw [getElem?_drop, Nat.add_sub_cancel' hid]
        exact hentry
      simpa using hfirst.2 (i - d) entry (by omega) hat
    · right
      omega
  · rw [hring', length_drop]
    omega

/-! ## Topics -/

/-- What a run keeps of a topic, for the log of its events. -/
structure TopicKeeps (log : List (Instant × HubEvent V)) (clock : Instant) (t : Topic V) : Prop where
  ids : log.map (fun entry => entry.2.id) = range' 1 log.length
  nextId : t.nextId = log.length + 1
  sent : t.tx = log.map Prod.snd
  ring : ∃ d, d ≤ log.length ∧ t.ring = log.drop d ∧ Evictable log clock d
  bounded : t.ring.length ≤ ringCapacity

theorem TopicKeeps.new (clock : Instant) : TopicKeeps [] clock (Topic.new : Topic V) := by
  refine ⟨rfl, rfl, rfl, ⟨0, le_rfl, rfl, ?_⟩, Nat.zero_le _⟩
  intro i entry hi
  cases hi

section Topics

variable {log : List (Instant × HubEvent V)} {clock now : Instant} {t : Topic V}

theorem TopicKeeps.later : clock ≤ now → TopicKeeps log clock t → TopicKeeps log now t := by
  intro hnow h
  rcases h.ring with ⟨d, hd, hring, hevict⟩
  refine ⟨h.ids, h.nextId, h.sent, ⟨d, hd, hring, ?_⟩, h.bounded⟩
  have hmono := @Evictable.mono V log [] clock now d hd hnow hevict
  rwa [append_nil] at hmono

theorem TopicKeeps.evictOld :
    clock ≤ now → TopicKeeps log clock t → TopicKeeps log now (t.evictOld now) := by
  intro hnow h
  rcases (h.later hnow).ring with ⟨d, hd, hring, hevict⟩
  rcases evictOld_spec hd hring hevict with ⟨d', hd', hring', hevict', hbounded⟩
  refine ⟨h.ids, ?_, ?_, ⟨d', hd', hring', hevict'⟩, hbounded⟩
  · rw [Topic.evictOld_nextId]
    exact h.nextId
  · rw [Topic.evictOld_tx]
    exact h.sent

/-- The topic after an event under the next id. -/
def Topic.append (t : Topic V) (ev : HubEvent V) (pushed now : Instant) : Topic V :=
  let t' := { t with nextId := t.nextId + 1, ring := t.ring ++ [(pushed, ev)] }.evictOld now
  { t' with tx := t'.tx ++ [ev] }

theorem TopicKeeps.append {ev : HubEvent V} {pushed : Instant} :
    clock ≤ now → ev.id = t.nextId → TopicKeeps log clock t →
      TopicKeeps (log ++ [(pushed, ev)]) now (t.append ev pushed now) := by
  intro hnow hid h
  rcases h.ring with ⟨d, hd, hring, hevict⟩
  have hd₁ : d ≤ (log ++ [(pushed, ev)]).length := by
    rw [length_append]
    exact Nat.le_add_right_of_le hd
  have hring₁ : t.ring ++ [(pushed, ev)] = (log ++ [(pushed, ev)]).drop d := by
    rw [drop_append_of_le_length hd, hring]
  have hspec := @evictOld_spec V { t with nextId := t.nextId + 1, ring := t.ring ++ [(pushed, ev)] }
    _ now d hd₁ hring₁ (hevict.mono hd hnow)
  rcases hspec with ⟨d', hd', hring', hevict', hbounded⟩
  refine ⟨?_, ?_, ?_, ⟨d', hd', hring', hevict'⟩, hbounded⟩
  · rw [map_append, h.ids, length_append, map_singleton, length_singleton,
      range'_concat, hid, h.nextId, Nat.one_mul, Nat.add_comm 1]
  · rw [length_append]
    exact congrArg (fun n => n + 1) h.nextId
  · rw [map_append]
    exact congrArg (fun sent => sent ++ [ev]) h.sent

end Topics

/-! ## Subscribers -/

/-- What a run keeps of a subscriber, for the log of its topic. -/
structure ClientKeeps (log : List (Instant × HubEvent V)) (c : Client V) : Prop where
  start : c.sub.rx ≤ c.next
  next : c.next ≤ log.length
  live : Delivers (((log.map Prod.snd).take c.next).drop c.sub.rx) c.live
  replay : ∀ after, c.lastId = some after →
    ∃ d, Evictable (log.take c.sub.rx) c.since d ∧
      c.sub.replay = (((log.take c.sub.rx).drop d).filter fun entry => after < entry.2.id).map
        Prod.snd

section Clients

variable {log : List (Instant × HubEvent V)} {c : Client V}

theorem ClientKeeps.mono (more : List (Instant × HubEvent V)) :
    ClientKeeps log c → ClientKeeps (log ++ more) c := by
  intro h
  have hnext : c.next ≤ (log.map Prod.snd).length := by
    rw [length_map]
    exact h.next
  refine ⟨h.start, ?_, ?_, ?_⟩
  · rw [length_append]
    exact Nat.le_add_right_of_le h.next
  · rw [map_append, take_append_of_le_length hnext]
    exact h.live
  · rw [take_append_of_le_length (h.start.trans h.next)]
    exact h.replay

theorem ClientKeeps.recv {t : Topic V} :
    t.tx = log.map Prod.snd → ClientKeeps log c → ClientKeeps log (c.recv t) := by
  intro hsent h
  unfold Client.recv
  split
  · rename_i ev hev
    rw [hsent] at hev
    have hlt : c.next < (log.map Prod.snd).length := (List.getElem?_eq_some_iff.1 hev).1
    have htake : (log.map Prod.snd).take (c.next + 1) = (log.map Prod.snd).take c.next ++ [ev] := by
      rw [take_add_one, hev]
      rfl
    refine ⟨h.start.trans (Nat.le_succ _), ?_, ?_, h.replay⟩
    · rw [length_map] at hlt
      exact hlt
    · have hlen : c.sub.rx ≤ ((log.map Prod.snd).take c.next).length := by
        rw [length_take_of_le (le_of_lt hlt)]
        exact h.start
      rw [htake, drop_append_of_le_length hlen]
      exact h.live.item ev
  · exact h

theorem ClientKeeps.lag {t : Topic V} {missed : Nat} :
    t.tx = log.map Prod.snd → ClientKeeps log c → ClientKeeps log (c.lag t missed) := by
  intro hsent h
  unfold Client.lag
  split
  · rename_i hlag
    rw [hsent] at hlag
    have hnext : c.next ≤ (log.map Prod.snd).length := by omega
    refine ⟨h.start.trans (Nat.le_add_right _ _), ?_, ?_, h.replay⟩
    · rw [length_map] at hlag
      exact hlag.2
    · have hlen : c.sub.rx ≤ ((log.map Prod.snd).take c.next).length := by
        rw [length_take_of_le hnext]
        exact h.start
      rw [take_add, drop_append_of_le_length hlen]
      refine h.live.marker ?_
      intro hnil
      have hzero := congrArg length hnil
      simp only [length_take, length_drop, length_nil] at hzero
      omega
  · exact h

/-- A new subscriber has the ring of its topic to replay. -/
theorem ClientKeeps.subscribe {t : Topic V} {topic : String} {lastId : Option Nat} {now : Instant} :
    TopicKeeps log now t →
      ClientKeeps log
        { topic := topic, lastId := lastId, since := now, next := t.tx.length, live := []
          sub :=
            { rx := t.tx.length
              replay :=
                match lastId with
                | some after => (t.ring.filter fun entry => after < entry.2.id).map Prod.snd
                | none => [] } } := by
  intro h
  have hlen : t.tx.length = log.length := by
    rw [h.sent, length_map]
  refine ⟨le_rfl, hlen.le, ?_, ?_⟩
  · have hdrop : ((log.map Prod.snd).take t.tx.length).drop t.tx.length = [] := by
      rw [drop_eq_nil_iff, length_take]
      exact Nat.min_le_left _ _
    rw [hdrop]
    exact .nil
  · intro after hlast
    rcases h.ring with ⟨d, _, hring, hevict⟩
    have hall : log.take t.tx.length = log := by
      rw [hlen, take_length]
    cases hlast
    refine ⟨d, ?_, ?_⟩
    · rw [hall]
      exact hevict
    · rw [hall, ← hring]

end Clients

/-! ## Runs -/

/-- What a run keeps, for the events published so far. -/
structure Keeps (s : System V) (log : List (Published V)) : Prop where
  topics : ∀ topic, TopicKeeps (logOf topic log) s.clock (s.hub.entry topic)
  clients : ∀ c ∈ s.clients, ClientKeeps (logOf c.topic log) c

theorem logOf_append (topic : String) (log more : List (Published V)) :
    logOf topic (log ++ more) = logOf topic log ++ logOf topic more :=
  filterMap_append

@[simp] theorem entry_set_self (h : Hub V) (topic : String) (t : Topic V) :
    (h.set topic t).entry topic = t := by
  simp [Hub.entry, Hub.set]

theorem entry_set_of_ne (h : Hub V) {topic other : String} (t : Topic V) :
    other ≠ topic → (h.set topic t).entry other = h.entry other := by
  intro hne
  simp [Hub.entry, Hub.set, hne]

theorem publish_cases (s : System V) (topic kind : String) (value : Option V)
    (pushed now : Instant) :
    (∃ payload, ∃ ev : HubEvent V, ev.id = (s.hub.entry topic).nextId ∧ value = some payload ∧
        (s.hub.publish topic kind value pushed now).2 =
          s.hub.set topic ((s.hub.entry topic).append ev pushed now) ∧
        published s (.publish topic kind value pushed now) =
          [{ topic := topic, pushed := pushed, event := ev }]) ∨
      ((∀ other, (s.hub.publish topic kind value pushed now).2.entry other = s.hub.entry other) ∧
        published s (.publish topic kind value pushed now) = []) := by
  cases value with
  | none =>
    right
    exact ⟨fun _ => rfl, rfl⟩
  | some payload =>
    cases hp : s.hub.poisoned with
    | true =>
      right
      constructor
      · intro other
        simp only [Hub.publish, hp, if_true]
      · simp only [published, Hub.publish, hp, if_true]
    | false =>
      by_cases hid : (s.hub.entry topic).nextId + 1 < 2 ^ 64
      · left
        refine ⟨payload, { id := (s.hub.entry topic).nextId, kind := kind, payload := payload },
          rfl, rfl, ?_, ?_⟩
        · simp only [Hub.publish, hp, Bool.false_eq_true, if_false, if_pos hid, Topic.append]
        · simp only [published, Hub.publish, hp, Bool.false_eq_true, if_false, if_pos hid]
      · right
        constructor
        · intro other
          simp only [Hub.publish, hp, Bool.false_eq_true, if_false, if_neg hid]
          -- the entry that was looked up is written back
          by_cases hother : other = topic
          · rw [hother]
            exact entry_set_self s.hub topic _
          · exact entry_set_of_ne s.hub _ hother
        · simp only [published, Hub.publish, hp, Bool.false_eq_true, if_false, if_neg hid]

theorem keeps_publish {s : System V} {log : List (Published V)} {topic kind : String}
    {value : Option V} {pushed now : Instant} :
    s.clock ≤ now → Keeps s log →
      Keeps (step s (.publish topic kind value pushed now))
        (log ++ published s (.publish topic kind value pushed now)) := by
  intro hnow h
  refine ⟨?_, ?_⟩
  · intro other
    have hold := h.topics other
    rcases publish_cases s topic kind value pushed now with
      ⟨payload, ev, hid, _, hhub, hpub⟩ | ⟨hhub, hpub⟩
    · rw [hpub, logOf_append]
      simp only [step, hhub]
      by_cases hother : other = topic
      · rw [hother, entry_set_self]
        have hlog : logOf topic [({ topic := topic, pushed := pushed, event := ev } :
            Published V)] = [(pushed, ev)] := by
          simp [logOf]
        rw [hlog]
        exact (h.topics topic).append hnow hid
      · have hlog : logOf other [({ topic := topic, pushed := pushed, event := ev } :
            Published V)] = [] := by
          simp [logOf, Ne.symm hother]
        rw [hlog, append_nil, entry_set_of_ne s.hub _ hother]
        exact hold.later hnow
    · rw [hpub, append_nil]
      simp only [step, hhub]
      exact hold.later hnow
  · intro c hc
    rw [logOf_append]
    exact (h.clients c hc).mono _

theorem keeps_subscribe {s : System V} {log : List (Published V)} {topic : String}
    {lastId : Option Nat} {now : Instant} :
    s.clock ≤ now → Keeps s log → Keeps (step s (.subscribe topic lastId now)) log := by
  intro hnow h
  cases hp : s.hub.poisoned with
  | true =>
    simp only [step, Hub.subscribe, hp, if_true]
    exact ⟨fun other => (h.topics other).later hnow, h.clients⟩
  | false =>
    have hnew := (h.topics topic).evictOld hnow
    simp only [step, Hub.subscribe, hp, Bool.false_eq_true, if_false]
    refine ⟨?_, ?_⟩
    · intro other
      by_cases hother : other = topic
      · rw [hother, entry_set_self]
        exact hnew
      · rw [entry_set_of_ne s.hub _ hother]
        exact (h.topics other).later hnow
    · intro c hc
      rcases mem_append.1 hc with hc | hc
      · exact h.clients c hc
      · rw [mem_singleton.1 hc]
        exact ClientKeeps.subscribe hnew

theorem keeps_modifyClient {s : System V} {log : List (Published V)} {i : Nat}
    {f : Client V → Client V} :
    (∀ c, (f c).topic = c.topic) →
      (∀ c, ClientKeeps (logOf c.topic log) c → ClientKeeps (logOf c.topic log) (f c)) →
        Keeps s log → Keeps (s.modifyClient i f) log := by
  intro htopic hf h
  refine ⟨h.topics, ?_⟩
  intro c hc
  rcases mem_iff_getElem?.1 hc with ⟨j, hj⟩
  rw [System.modifyClient, getElem?_modify] at hj
  cases hold : s.clients[j]? with
  | none =>
    rw [hold] at hj
    split at hj <;> cases hj
  | some old =>
    have hkeep := h.clients old (mem_of_getElem? hold)
    rw [hold] at hj
    split at hj
    · cases hj
      rw [htopic]
      exact hf old hkeep
    · cases hj
      exact hkeep

theorem keeps_step (s : System V) (log : List (Published V)) (e : HubCall V) :
    Timely s e → Keeps s log → Keeps (step s e) (log ++ published s e) := by
  intro htime h
  cases e with
  | publish topic kind value pushed now => exact keeps_publish (Int.le_trans htime.1 htime.2) h
  | subscribe topic lastId now =>
    have hkeeps := @keeps_subscribe V s log topic lastId now htime h
    simpa only [published, append_nil] using hkeeps
  | recv i =>
    have hkeeps : Keeps (step s (.recv i)) log := by
      refine keeps_modifyClient ?_ ?_ h
      · intro c
        unfold Client.recv
        split <;> rfl
      · intro c hc
        exact hc.recv (h.topics c.topic).sent
    simpa only [published, append_nil] using hkeeps
  | lag i missed =>
    have hkeeps : Keeps (step s (.lag i missed)) log := by
      refine keeps_modifyClient ?_ ?_ h
      · intro c
        unfold Client.lag
        split <;> rfl
      · intro c hc
        exact hc.lag (h.topics c.topic).sent
    simpa only [published, append_nil] using hkeeps

theorem keeps_init (start : Instant) : Keeps (System.init start : System V) [] := by
  refine ⟨?_, ?_⟩
  · intro topic
    exact TopicKeeps.new start
  · intro c hc
    cases hc

/-! ## What a subscriber gets -/

/-- What a subscriber that resumes after an id should have, for the log of its topic: its events
are in order, each once; the replayed ones are later than the id and include every event after it
that was retained at the subscription; and the channel gave it the events sent since, or markers in
place of some. -/
structure Resumes (log : List (Instant × HubEvent V)) (c : Client V) (after : Nat) : Prop where
  increasing : (c.sub.replay ++ items c.live).Pairwise fun e e' => e.id < e'.id
  beyond : ∀ e ∈ c.sub.replay, after < e.id
  retained : ∀ i entry, i < c.sub.rx → log[i]? = some entry → after < entry.2.id →
    c.since - ringRetention ≤ entry.1 → c.sub.rx ≤ i + ringCapacity → entry.2 ∈ c.sub.replay
  live : c.sub.rx ≤ c.next ∧ c.next ≤ log.length ∧
    Delivers (((log.map Prod.snd).take c.next).drop c.sub.rx) c.live

theorem TopicKeeps.pairwise {log : List (Instant × HubEvent V)} {clock : Instant} {t : Topic V} :
    TopicKeeps log clock t → (log.map Prod.snd).Pairwise fun e e' => e.id < e'.id := by
  intro h
  have hids : ((log.map Prod.snd).map HubEvent.id).Pairwise (fun a b => a < b) := by
    rw [map_map]
    exact h.ids ▸ pairwise_lt_range'
  exact pairwise_map.1 hids

theorem resumes_of_keeps {log : List (Instant × HubEvent V)} {clock : Instant} {t : Topic V}
    {c : Client V} {after : Nat} :
    TopicKeeps log clock t → ClientKeeps log c → c.lastId = some after → Resumes log c after := by
  intro ht hc hlast
  rcases hc.replay after hlast with ⟨d, hevict, hreplay⟩
  refine ⟨?_, ?_, ?_, hc.start, hc.next, hc.live⟩
  · -- the replayed events come before the channel's, both as in the log
    have hbefore : c.sub.replay.Sublist ((log.map Prod.snd).take c.sub.rx) := by
      rw [hreplay, ← map_take]
      exact (filter_sublist.trans (drop_sublist _ _)).map _
    have hall : ((log.map Prod.snd).take c.next).take c.sub.rx ++
        ((log.map Prod.snd).take c.next).drop c.sub.rx = (log.map Prod.snd).take c.next :=
      take_append_drop _ _
    rw [take_take, Nat.min_eq_left hc.start] at hall
    have hsub := hbefore.append hc.live.sublist
    rw [hall] at hsub
    exact ht.pairwise.sublist (hsub.trans (take_sublist _ _))
  · intro e he
    rw [hreplay] at he
    rcases mem_map.1 he with ⟨entry, hentry, rfl⟩
    simpa using (mem_filter.1 hentry).2
  · intro i entry hi hentry hafter hyoung hfew
    have hat : (log.take c.sub.rx)[i]? = some entry := by
      rw [getElem?_take_of_lt hi]
      exact hentry
    have hlen : (log.take c.sub.rx).length = c.sub.rx :=
      length_take_of_le (hc.start.trans hc.next)
    -- a retained entry was not dropped
    have hd : d ≤ i := by
      by_contra hlt
      rcases hevict i entry (by omega) hat with hold | hmany
      · exact absurd hold (Int.not_lt.2 hyoung)
      · omega
    have hmem : entry ∈ (log.take c.sub.rx).drop d := by
      have hdrop : ((log.take c.sub.rx).drop d)[i - d]? = some entry := by
        rw [getElem?_drop, Nat.add_sub_cancel' hd]
        exact hat
      exact mem_of_getElem? hdrop
    rw [hreplay]
    exact mem_map_of_mem (mem_filter.2 ⟨hmem, by simpa using hafter⟩)

theorem sseResponse_ids {encode : V → Option String} (replay : List (HubEvent V))
    (live : List (Option (HubEvent V))) :
    (∀ v, (encode v).isSome = true) →
      (sseResponse encode replay live).filterMap SseEvent.id =
        (replay ++ items live).map fun e => toString e.id := by
  intro hencode
  have hone : ∀ item, (sseEvent encode item).id = item.map fun e => toString e.id := by
    intro item
    cases item with
    | none => rfl
    | some e =>
      rcases Option.isSome_iff_exists.1 (hencode e.payload) with ⟨data, hdata⟩
      simp [sseEvent, hdata]
  have hitems : replay ++ items live = (replay.map some ++ live).filterMap id := by
    simp [items]
  rw [sseResponse, filterMap_map, hitems, map_filterMap]
  exact filterMap_congr fun item _ => hone item

/-- In every run whose clock does not go back, on every topic the ids count from 1 and the ring is
the end of what was published, at most `ringCapacity` events long; and every subscriber that gave a
last id resumes after it. -/
theorem hub_resumes (start : Instant) (calls : List (HubCall V)) :
    Along step Timely (System.init start) calls →
      (∀ topic,
        (logOf topic (outputs step published (System.init start) calls)).map
            (fun entry => entry.2.id) =
          range' 1 (logOf topic (outputs step published (System.init start) calls)).length ∧
        ((run step (System.init start) calls).hub.entry topic).ring <:+
          logOf topic (outputs step published (System.init start) calls) ∧
        ((run step (System.init start) calls).hub.entry topic).ring.length ≤ ringCapacity) ∧
      ∀ c ∈ (run step (System.init start) calls).clients, ∀ after, c.lastId = some after →
        Resumes (logOf c.topic (outputs step published (System.init start) calls)) c after ∧
        ∀ encode : V → Option String, (∀ v, (encode v).isSome = true) →
          (sseResponse encode c.sub.replay c.live).filterMap SseEvent.id =
            (c.sub.replay ++ items c.live).map fun e => toString e.id := by
  intro htime
  have hkeeps := invariant_outputs Keeps keeps_step htime (keeps_init start)
  refine ⟨?_, ?_⟩
  · intro topic
    have ht := hkeeps.topics topic
    rcases ht.ring with ⟨d, _, hring, _⟩
    refine ⟨ht.ids, ?_, ht.bounded⟩
    rw [hring]
    exact drop_suffix d _
  · intro c hc after hlast
    refine ⟨resumes_of_keeps (hkeeps.topics c.topic) (hkeeps.clients c hc) hlast, ?_⟩
    intro encode hencode
    exact sseResponse_ids c.sub.replay c.live hencode

/-- Two events, a subscriber that saw the first, and a third event that the channel delivers. -/
def resumeAfterOne : List (HubCall Unit) :=
  [.publish "t" "evt" (some ()) 0 0, .publish "t" "evt" (some ()) 1 1, .subscribe "t" (some 1) 2,
    .publish "t" "evt" (some ()) 3 3, .recv 0]

theorem hub_resumes_after_one :
    ∃ c ∈ (run step (System.init 0) resumeAfterOne).clients,
      (c.sub.replay ++ items c.live).map HubEvent.id = [2, 3] ∧
        Resumes (logOf c.topic (outputs step published (System.init 0) resumeAfterOne)) c 1 := by
  have htime : Along step Timely (System.init 0) resumeAfterOne :=
    ⟨⟨by decide, by decide⟩, ⟨by decide, by decide⟩, (by decide : (1 : Int) ≤ 2),
      ⟨by decide, by decide⟩, trivial, trivial⟩
  have hresumes := (hub_resumes 0 resumeAfterOne htime).2
  refine ⟨_, mem_cons_self, by decide, (hresumes _ mem_cons_self 1 rfl).1⟩

end Sse
end Console
end Rustorch
