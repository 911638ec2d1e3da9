import Rustorch.Lib.Runs

/-!
# The runner's client

`send_event` pushes an event through the current session, or into a bounded buffer when the session
is closed; then a background task registers a new session and flushes the buffer onto it.  The
session sender and the buffer have a lock each, so the producer, the background tasks and the
receivers interleave between the lock sections and the channel sends.

The client is registered once, before the runs that are considered.
-/

namespace Rustorch
namespace Rpc

/-! ## State -/

/-- An event with the number of the `send_event` call that it was given to. -/
structure Numbered (E : Type) where
  seq : Nat
  ev : E
  deriving DecidableEq

/-- The channel of a session, and what its receiver got so far. -/
structure Channel (E : Type) where
  queued : List (Numbered E)
  received : List (Numbered E)
  isOpen : Bool

def channelCapacity : Nat := 256

def Channel.new {E : Type} : Channel E where
  queued := []
  received := []
  isOpen := true

structure EventBuffer (E : Type) where
  queue : List (Numbered E)
  cap : Nat
  dropped : Nat

namespace EventBuffer

variable {E : Type}

def new (cap : Nat) : EventBuffer E where
  queue := []
  cap := cap
  dropped := 0

def push (b : EventBuffer E) (ev : Numbered E) : EventBuffer E :=
  if b.cap ≤ b.queue.length then
    { b with queue := b.queue.tail ++ [ev], dropped := b.dropped + 1 }
  else
    { b with queue := b.queue ++ [ev] }

def drain (b : EventBuffer E) : List (Numbered E) × EventBuffer E :=
  (b.queue, { b with queue := [] })

end EventBuffer

/-- Where the producer stands: between calls, with a clone of the sender, with an event that could
not be sent, or with its event in the buffer. -/
inductive SendEvent (E : Type)
  | idle
  | sending (tx : Nat) (ev : Numbered E)
  | failed (ev : Numbered E)
  | buffered

/-- Where a `try_reconnect` stands. -/
inductive Reconnect (E : Type)
  | start
  | registered (tx : Nat)
  | connected
  | drained (evs : List (Numbered E))
  | flushing (tx : Nat) (rest : List (Numbered E))
  | done

/-- A sender is the index of its channel; `sent` lists the events given to `send_event`. -/
structure Client (E : Type) where
  eventsTx : Option Nat
  channels : List (Channel E)
  buffer : EventBuffer E
  sent : List (Numbered E)
  producer : SendEvent E
  reconnects : List (Reconnect E)

/-- The client after `register`. -/
def Client.registered {E : Type} (bufferSize : Nat) : Client E where
  eventsTx := some 0
  channels := [Channel.new]
  buffer := EventBuffer.new bufferSize
  sent := []
  producer := .idle
  reconnects := []

/-! ## Steps -/

/-- The producer starts a call, sends, buffers and returns; the heartbeat ticks; a `try_reconnect`
goes on; a receiver takes an event or, when it has none, is dropped. -/
inductive Act (E : Type)
  | send (ev : E)
  | deliver
  | push
  | spawn
  | heartbeat
  | reconnect (task : Nat)
  | receive (session : Nat)
  | close (session : Nat)

section Step

variable {E : Type}

/-- `tx.send`: the channel takes the event, waits for room, or is closed. -/
inductive SendResult (E : Type)
  | sent (channels : List (Channel E))
  | full
  | closed

def sendOn (channels : List (Channel E)) (tx : Nat) (ev : Numbered E) : SendResult E :=
  match channels[tx]? with
  | some c =>
    if c.isOpen then
      if c.queued.length < channelCapacity then
        .sent (channels.set tx { c with queued := c.queued ++ [ev] })
      else
        .full
    else
      .closed
  | none => .full

def Client.setReconnect (c : Client E) (task : Nat) (r : Reconnect E) : Client E :=
  { c with reconnects := c.reconnects.set task r }

/-- The next lock section or send of a `try_reconnect`, and the event that it throws away. -/
def reconnectStep (c : Client E) (task : Nat) : Client E × List (Numbered E) :=
  match c.reconnects[task]? with
  | some .start =>
    -- `registry.register` opens a new session
    (({ c with channels := c.channels ++ [Channel.new] } : Client E).setReconnect task
      (.registered c.channels.length), [])
  | some (.registered tx) =>
    (({ c with eventsTx := some tx } : Client E).setReconnect task .connected, [])
  | some .connected =>
    (({ c with buffer := c.buffer.drain.2 } : Client E).setReconnect task
      (.drained c.buffer.drain.1), [])
  | some (.drained evs) =>
    match c.eventsTx with
    | some tx => (c.setReconnect task (.flushing tx evs), [])
    | none => (c.setReconnect task .done, evs)
  | some (.flushing _ []) => (c.setReconnect task .done, [])
  | some (.flushing tx (ev :: rest)) =>
    match sendOn c.channels tx ev with
    | .sent channels =>
      (({ c with channels := channels } : Client E).setReconnect task (.flushing tx rest), [])
    | .full => (c, [])
    -- `let _ = tx.send(ev).await`
    | .closed => (c.setReconnect task (.flushing tx rest), [ev])
  | some .done => (c, [])
  | none => (c, [])

/-- A step, and the events that it throws away. -/
def next (c : Client E) : Act E → Client E × List (Numbered E)
  | .send ev =>
    match c.producer with
    | .idle =>
      let ev : Numbered E := { seq := c.sent.length, ev := ev }
      let producer :=
        match c.eventsTx with
        | some tx => SendEvent.sending tx ev
        | none => SendEvent.failed ev
      ({ c with sent := c.sent ++ [ev], producer := producer }, [])
    | _ => (c, [])
  | .deliver =>
    match c.producer with
    | .sending tx ev =>
      match sendOn c.channels tx ev with
      | .sent channels => ({ c with channels := channels, producer := .idle }, [])
      | .full => (c, [])
      | .closed => ({ c with producer := .failed ev }, [])
    | _ => (c, [])
  | .push =>
    match c.producer with
    | .failed ev => ({ c with buffer := c.buffer.push ev, producer := .buffered }, [])
    | _ => (c, [])
  | .spawn =>
    match c.producer with
    | .buffered => ({ c with reconnects := c.reconnects ++ [.start], producer := .idle }, [])
    | _ => (c, [])
  | .heartbeat =>
    match c.eventsTx with
    | none => ({ c with reconnects := c.reconnects ++ [.start] }, [])
    | some _ => (c, [])
  | .reconnect task => reconnectStep c task
  | .receive k =>
    match c.channels[k]? with
    | some ch =>
      match ch.queued with
      | ev :: queued =>
        if ch.isOpen then
          ({ c with channels := c.channels.set k
                      { ch with queued := queued, received := ch.received ++ [ev] } }, [])
        else
          (c, [])
      | [] => (c, [])
    | none => (c, [])
  | .close k =>
    match c.channels[k]? with
    | some ch =>
      if ch.queued = [] then
        ({ c with channels := c.channels.set k { ch with isOpen := false } }, [])
      else
        (c, [])
    | none => (c, [])

def step (c : Client E) (a : Act E) : Client E :=
  (next c a).1

/-- The events that a step throws away without counting them. -/
def lost (c : Client E) (a : Act E) : List (Numbered E) :=
  (next c a).2

end Step

end Rpc
end Rustorch
