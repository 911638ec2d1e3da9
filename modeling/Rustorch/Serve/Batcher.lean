import Mathlib.Algebra.Group.Nat.Defs
import Rustorch.Lib.Runs

/-!
# The dynamic batcher

`predict` puts a request on a bounded queue and waits for its reply.  One task takes requests off
the queue, collects a batch until it is full or its deadline has passed, runs the inference
function, and sends the outputs back by position.

The callers, the task and the clock take their steps in any order.
-/

namespace Rustorch
namespace Serve

/-! ## Types -/

structure BatchConfig where
  maxBatch : Nat
  /-- In nanoseconds. -/
  maxWait : Nat
  queueDepth : Nat
  deriving DecidableEq, Repr

inductive BatcherError
  | overloaded
  | shutdown
  deriving DecidableEq, Repr

/-- A request on the queue; `reply` is the number of the call that waits for it. -/
structure Request (V : Type) where
  input : V
  reply : Nat
  deriving DecidableEq

/-- The channel of one reply, as the sender left it. -/
inductive Oneshot (V : Type)
  | empty
  | value (v : V)
  | dropped
  deriving DecidableEq

inductive CallState (V : Type)
  | waiting
  | cancelled
  | ok (v : V)
  | err (e : BatcherError)
  deriving DecidableEq

/-- A call of `predict` on a handle. -/
structure Call (V : Type) where
  handle : Nat
  reply : Oneshot V
  state : CallState V

/-- Where the batching task stands. -/
inductive Task (V : Type)
  | idle
  | collecting (batch : List (Request V)) (deadline : Nat)
  | inferring (batch : List (Request V))
  | replying (outputs : List V) (i : Nat) (rest : List (Request V))
  | ended

/-- `handles` says of every handle made so far whether it is alive. -/
structure Server (V : Type) where
  now : Nat
  handles : List Bool
  queue : List (Request V)
  calls : List (Call V)
  task : Task V

/-- An instant counts its seconds in an `i64`; a sum past the last one is a panic. -/
def instantLimit : Nat := 2 ^ 63 * 1000000000

/-- The most slots a channel can have; `mpsc::channel` panics on more, and on none. -/
def maxPermits : Nat := 2 ^ 61 - 1

def spawn {V : Type} (cfg : BatchConfig) : Option (Server V) :=
  if 0 < cfg.queueDepth ∧ cfg.queueDepth ≤ maxPermits then
    some { now := 0, handles := [true], queue := [], calls := [], task := .idle }
  else
    none

/-! ## Steps -/

/-- Handles are cloned and dropped, calls are made, given up and polled, time passes, and the task
goes on: it polls the queue, closes a batch, gets what the inference function returned (`none` for
a panic), or sends a reply. -/
inductive Event (V : Type)
  | clone (handle : Nat)
  | dropHandle (handle : Nat)
  | predict (handle : Nat) (input : V)
  | cancel (call : Nat)
  | poll (call : Nat)
  | tick (nanos : Nat)
  | recv
  | close
  | inferred (result : Option (List V))
  | reply

/-- What a step shows: a request entered the queue, a batch went to the inference function, the
outputs came back, a reply was sent. -/
inductive Obs (V : Type)
  | accepted (r : Request V)
  | batch (rs : List (Request V))
  | outputs (vs : List V)
  | answered (call : Nat) (v : V)
  deriving DecidableEq

section Step

variable {V : Type}

def Server.alive (s : Server V) (handle : Nat) : Bool :=
  s.handles[handle]? == some true

/-- No sender is left. -/
def Server.closed (s : Server V) : Bool :=
  s.handles.all fun h => !h

/-- A call that is given up drops its receiver. -/
def Call.cancel (c : Call V) : Call V :=
  match c.state with
  | .waiting => { c with state := .cancelled }
  | _ => c

/-- `reply_rx.await`. -/
def Call.poll (c : Call V) : Call V :=
  match c.state, c.reply with
  | .waiting, .value v => { c with state := .ok v }
  | .waiting, .dropped => { c with state := .err .shutdown }
  | _, _ => c

/-- `reply.send`, which fails when the receiver is gone. -/
def Call.send (v : V) (c : Call V) : Call V :=
  match c.state with
  | .cancelled => c
  | _ => { c with reply := .value v }

/-- The sender of the reply is dropped. -/
def Call.dropReply (c : Call V) : Call V :=
  match c.reply with
  | .empty => { c with reply := .dropped }
  | _ => c

/-- The requests are dropped with their reply senders. -/
def dropRequests (calls : List (Call V)) (rs : List (Request V)) : List (Call V) :=
  rs.foldl (fun calls r => calls.modify r.reply Call.dropReply) calls

/-- `predict` up to its `await`. -/
def predict (cfg : BatchConfig) (s : Server V) (handle : Nat) (input : V) :
    Server V × List (Obs V) :=
  let fail (e : BatcherError) : Server V × List (Obs V) :=
    ({ s with calls := s.calls ++ [{ handle := handle, reply := .dropped, state := .err e }] }, [])
  match s.task with
  | .ended => fail .shutdown
  | _ =>
    if cfg.queueDepth ≤ s.queue.length then
      fail .overloaded
    else
      let r : Request V := { input := input, reply := s.calls.length }
      ({ s with
          queue := s.queue ++ [r]
          calls := s.calls ++ [{ handle := handle, reply := .empty, state := .waiting }] },
        [.accepted r])

/-- The task polls the queue. -/
def recv (cfg : BatchConfig) (s : Server V) : Server V :=
  match s.task with
  | .idle =>
    match s.queue with
    | first :: queue =>
      if s.now + cfg.maxWait < instantLimit then
        { s with queue := queue, task := .collecting [first] (s.now + cfg.maxWait) }
      else
        -- the panic drops the request and the receiver with its queue
        { s with queue := [], calls := dropRequests s.calls s.queue, task := .ended }
    | [] => if s.closed then { s with task := .ended } else s
  | .collecting batch deadline =>
    if batch.length < cfg.maxBatch then
      match s.queue with
      | next :: queue => { s with queue := queue, task := .collecting (batch ++ [next]) deadline }
      | [] =>
        if s.closed then
          { s with calls := dropRequests s.calls batch, task := .ended }
        else
          s
    else
      s
  | _ => s

/-- The collecting loop ends: the batch is full, or its deadline has passed. -/
def close (cfg : BatchConfig) (s : Server V) : Server V × List (Obs V) :=
  match s.task with
  | .collecting batch deadline =>
    if cfg.maxBatch ≤ batch.length ∨ deadline ≤ s.now then
      ({ s with task := .inferring batch }, [.batch batch])
    else
      (s, [])
  | _ => (s, [])

/-- The inference function returned, or panicked. -/
def inferred (s : Server V) (result : Option (List V)) : Server V × List (Obs V) :=
  match s.task with
  | .inferring batch =>
    ({ s with task := .replying (result.getD []) 0 batch }, [.outputs (result.getD [])])
  | _ => (s, [])

/-- One turn of the loop that replies; `null` pads the outputs. -/
def reply (null : V) (s : Server V) : Server V × List (Obs V) :=
  match s.task with
  | .replying outputs i (r :: rest) =>
    let out := outputs[i]?.getD null
    ({ s with
        calls := s.calls.modify r.reply (Call.send out)
        task := .replying outputs (i + 1) rest },
      [.answered r.reply out])
  | .replying _ _ [] => ({ s with task := .idle }, [])
  | _ => (s, [])

/-- A step, and what it shows.  Only a live handle can be cloned or called. -/
def next (cfg : BatchConfig) (null : V) (s : Server V) : Event V → Server V × List (Obs V)
  | .clone h => if s.alive h then ({ s with handles := s.handles ++ [true] }, []) else (s, [])
  | .dropHandle h => ({ s with handles := s.handles.set h false }, [])
  | .predict h input => if s.alive h then predict cfg s h input else (s, [])
  | .cancel c => ({ s with calls := s.calls.modify c Call.cancel }, [])
  | .poll c => ({ s with calls := s.calls.modify c Call.poll }, [])
  | .tick nanos => ({ s with now := s.now + nanos }, [])
  | .recv => (recv cfg s, [])
  | .close => close cfg s
  | .inferred result => inferred s result
  | .reply => reply null s

def step (cfg : BatchConfig) (null : V) (s : Server V) (e : Event V) : Server V :=
  (next cfg null s e).1

def shown (cfg : BatchConfig) (null : V) (s : Server V) (e : Event V) : List (Obs V) :=
  (next cfg null s e).2

end Step

/-! ## Histories -/

section History

variable {V : Type}

/-- The requests that entered the queue, in order. -/
def accepted (obs : List (Obs V)) : List (Request V) :=
  obs.filterMap fun o => match o with | .accepted r => some r | _ => none

/-- The batches that went to the inference function, in order. -/
def batches (obs : List (Obs V)) : List (List (Request V)) :=
  obs.filterMap fun o => match o with | .batch rs => some rs | _ => none

/-- The outputs that came back, in order. -/
def results (obs : List (Obs V)) : List (List V) :=
  obs.filterMap fun o => match o with | .outputs vs => some vs | _ => none

/-- The replies that were sent, in order. -/
def answers (obs : List (Obs V)) : List (Nat × V) :=
  obs.filterMap fun o => match o with | .answered c v => some (c, v) | _ => none

/-- The replies due from position `i` of a batch on. -/
def dueFrom (null : V) (outputs : List V) (i : Nat) (batch : List (Request V)) : List (Nat × V) :=
  batch.mapIdx fun j r => (r.reply, outputs[i + j]?.getD null)

/-- The replies due for the batches whose outputs are known. -/
def due (null : V) (bs : List (List (Request V))) (os : List (List V)) : List (Nat × V) :=
  (List.zipWith (fun batch outputs => dueFrom null outputs 0 batch) bs os).flatten

/-- The requests of the batch that is being collected. -/
def Server.collected (s : Server V) : List (Request V) :=
  match s.task with
  | .collecting batch _ => batch
  | _ => []

/-- The replies that the loop still has to send. -/
def Server.owed (null : V) (s : Server V) : List (Nat × V) :=
  match s.task with
  | .replying outputs i rest => dueFrom null outputs i rest
  | _ => []

/-- What the batcher should have done: the accepted requests are those of the batches, of the batch
being collected and of the queue, in this order and each once; batches have their size; the replies
sent are the ones due, up to those the loop still has to send; they reach the calls that were not
given up; a call returns only what was sent to it; and none is told of a shutdown while its handle
is alive. -/
structure Serves (cfg : BatchConfig) (null : V) (s : Server V) (obs : List (Obs V)) : Prop where
  placed : accepted obs = (batches obs).flatten ++ s.collected ++ s.queue
  distinct : ((accepted obs).map Request.reply).Nodup
  sizes : ∀ b ∈ batches obs, 1 ≤ b.length ∧ b.length ≤ max 1 cfg.maxBatch
  answered : answers obs ++ s.owed null = due null (batches obs) (results obs)
  aligned : (results obs).length ≤ (batches obs).length ∧
    (batches obs).length ≤ (results obs).length + 1
  delivered : ∀ c v, (c, v) ∈ answers obs → ∃ call : Call V, s.calls[c]? = some call ∧
    (call.state ≠ .cancelled → call.reply = .value v)
  returned : ∀ (c : Nat) (call : Call V) (v : V), s.calls[c]? = some call → call.state = .ok v →
    (c, v) ∈ answers obs
  shutdown : ∀ (c : Nat) (call : Call V), s.calls[c]? = some call → call.state = .err .shutdown →
    s.alive call.handle = false

end History

end Serve
end Rustorch
