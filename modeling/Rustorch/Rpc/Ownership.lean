import Rustorch.Lib.Runs
import Rustorch.Lib.Separated

/-!
# Which runner a command reaches

`registry.rs` maps runner ids to runs and command channels; `client.rs` registers a run and, in
`try_reconnect`, registers it again under a fresh id.  Looking a run up takes the first entry of
the run in the iteration order of a hash map, which is arbitrary.  Each call is one step.
-/

namespace Rustorch
namespace Rpc

/-! ## The registry -/

/-- The receiver of a session, seen from the senders. -/
structure CommandChannel (C : Type) where
  queued : List C
  isOpen : Bool

def commandCapacity : Nat := 64

/-- `commandsTx` is the number of the channel. -/
structure RunnerEntry where
  runId : String
  commandsTx : Nat
  deriving DecidableEq, Repr

structure RunnerSession where
  runnerId : String
  runId : String
  commandsRx : Nat
  deriving DecidableEq, Repr

inductive RegistryError
  | notFound (runnerId : String)
  | disconnected (runnerId : String)
  deriving DecidableEq, Repr

/-- What a client remembers of its registration. -/
structure RunnerClient where
  runnerId : Option String
  registerRequest : Option String
  deriving DecidableEq, Repr

/-- The registry, its clients, the channels of all sessions and the number of ids drawn. -/
structure Console (C : Type) where
  entries : List (String × RunnerEntry)
  clients : Nat → RunnerClient
  channels : List (CommandChannel C)
  issued : Nat

/-- `Ulid::new`, which never returns an id twice. -/
structure Ulids where
  id : Nat → String
  injective : Function.Injective id

/-- The order in which a hash map is visited. -/
structure Iteration (α : Type) where
  order : List α → List α
  perm : ∀ xs, (order xs).Perm xs

variable {C : Type}

def Console.new : Console C where
  entries := []
  clients := fun _ => { runnerId := none, registerRequest := none }
  channels := []
  issued := 0

namespace Registry

/-- `insert` of a hash map. -/
def insert (entries : List (String × RunnerEntry)) (id : String) (e : RunnerEntry) :
    List (String × RunnerEntry) :=
  (id, e) :: entries.filter (fun x => x.1 ≠ id)

/-- A second id is drawn for the session token. -/
def register (ulids : Ulids) (s : Console C) (runId : String) : Console C × RunnerSession :=
  let runnerId := ulids.id s.issued
  let commands := s.channels.length
  ({ s with
      entries := insert s.entries runnerId { runId, commandsTx := commands }
      channels := s.channels ++ [{ queued := [], isOpen := true }]
      issued := s.issued + 2 },
    { runnerId, runId, commandsRx := commands })

def runnerForRun (it : Iteration (String × RunnerEntry)) (s : Console C) (runId : String) :
    Option String :=
  ((it.order s.entries).find? (fun x => x.2.runId = runId)).map Prod.fst

def forget (s : Console C) (runnerId : String) : Console C :=
  { s with entries := s.entries.filter (fun x => x.1 ≠ runnerId) }

/-- What `tx.send` comes to: the channel takes the command, the sender waits for room, or the
receiver is gone. -/
inductive Delivery (C : Type)
  | queued (channels : List (CommandChannel C))
  | waits
  | gone

def sendOn (s : Console C) (tx : Nat) (cmd : C) : Delivery C :=
  match s.channels[tx]? with
  | some ch =>
    if ch.isOpen then
      if ch.queued.length < commandCapacity then
        .queued (s.channels.set tx { ch with queued := ch.queued ++ [cmd] })
      else
        .waits
    else
      .gone
  | none => .gone

/-- What `send_command` returns; `none` is a send that waits. -/
def Delivery.result (runnerId : String) :
    Delivery C → Except RegistryError (Option (List (CommandChannel C)))
  | .queued channels => .ok (some channels)
  | .waits => .ok none
  | .gone => .error (.disconnected runnerId)

def sendCommand (s : Console C) (runnerId : String) (cmd : C) :
    Except RegistryError (Option (List (CommandChannel C))) :=
  match s.entries.lookup runnerId with
  | some e => (sendOn s e.commandsTx cmd).result runnerId
  | none => .error (.notFound runnerId)

end Registry

/-! ## Calls -/

/-- Dropping a session closes its channel. -/
def dropSession (s : Console C) (rx : Nat) : Console C :=
  { s with channels := s.channels.modify rx (fun ch => { ch with isOpen := false }) }

def setClient (s : Console C) (client : Nat) (c : RunnerClient) : Console C :=
  { s with clients := Function.update s.clients client c }

namespace RunnerClient

def register (ulids : Ulids) (s : Console C) (client : Nat) (runId : String) :
    Console C × RunnerSession :=
  let (s, session) := Registry.register ulids s runId
  (setClient s client { runnerId := some session.runnerId, registerRequest := some runId },
    session)

/-- The session is dropped when the call returns. -/
def tryReconnect (ulids : Ulids) (s : Console C) (client : Nat) :
    Console C × Option RunnerSession :=
  match (s.clients client).registerRequest with
  | none => (s, none)
  | some runId =>
    let (s, session) := Registry.register ulids s runId
    let s := setClient s client
      { runnerId := some session.runnerId, registerRequest := some runId }
    (dropSession s session.commandsRx, some session)

end RunnerClient

inductive Call
  | register (client : Nat) (runId : String)
  | tryReconnect (client : Nat)
  | forget (runnerId : String)
  | dropSession (rx : Nat)
  deriving DecidableEq, Repr

namespace Call

/-- The console after a call, and the session that it opened. -/
def next (ulids : Ulids) (s : Console C) : Call → Console C × Option RunnerSession
  | .register client runId =>
    let (s, session) := RunnerClient.register ulids s client runId
    (s, some session)
  | .tryReconnect client => RunnerClient.tryReconnect ulids s client
  | .forget runnerId => (Registry.forget s runnerId, none)
  | .dropSession rx => (Rpc.dropSession s rx, none)

def step (ulids : Ulids) (s : Console C) (call : Call) : Console C :=
  (next ulids s call).1

/-- The session that a call opens. -/
def opened (ulids : Ulids) (s : Console C) (call : Call) : List RunnerSession :=
  (next ulids s call).2.toList

/-- The run that a call registers. -/
def registers (s : Console C) : Call → Option String
  | .register _ runId => some runId
  | .tryReconnect client => (s.clients client).registerRequest
  | _ => none

end Call

end Rpc
end Rustorch

/-!
# When a lookup finds the owner of a run

Registering a run again leaves its earlier entries in the registry, and a reconnect drops the
session that it opens.  A lookup finds the runner registered last, with a receiver that is there,
after every call of a history and in every iteration order, exactly when every call is orderly.
-/

namespace Rustorch
namespace Rpc

variable {C : Type}

/-! ## Owners -/

/-- The session opened last for a run. -/
def lastSession (sessions : List RunnerSession) (runId : String) : Option RunnerSession :=
  (sessions.filter (fun session => session.runId = runId)).getLast?

/-- The receiver of the channel is there. -/
def Live (s : Console C) (tx : Nat) : Prop :=
  ∃ ch, s.channels[tx]? = some ch ∧ ch.isOpen = true

/-- In whatever order the map is visited, a run is looked up as the runner of the session opened
last for it, this session is live, and commands to that runner go to its channel. -/
def Owned (s : Console C) (sessions : List RunnerSession) : Prop :=
  ∀ it runId runnerId, Registry.runnerForRun it s runId = some runnerId →
    ∃ session, lastSession sessions runId = some session ∧ session.runnerId = runnerId ∧
      Live s session.commandsRx ∧ ∀ cmd, Registry.sendCommand s runnerId cmd =
        (Registry.sendOn s session.commandsRx cmd).result runnerId

/-- What a call must not find: an entry of the run that it registers, a client that a reconnect
registers again, or an entry of the session that it drops. -/
structure Orderly (s : Console C) (call : Call) : Prop where
  vacant : ∀ runId, call.registers s = some runId → ∀ x ∈ s.entries, x.2.runId ≠ runId
  unregistered : ∀ client, call = .tryReconnect client →
    (s.clients client).registerRequest = none
  forgotten : ∀ rx, call = .dropSession rx → ∀ x ∈ s.entries, x.2.commandsTx ≠ rx

/-- The session that an entry belongs to. -/
def sessionOf (x : String × RunnerEntry) : RunnerSession where
  runnerId := x.1
  runId := x.2.runId
  commandsRx := x.2.commandsTx

/-- Every entry is the one of the session opened last for its run, and this session is live. -/
structure Current (ulids : Ulids) (s : Console C) (sessions : List RunnerSession) : Prop where
  keys : (s.entries.map Prod.fst).Nodup
  drawn : ∀ x ∈ s.entries, ∃ n < s.issued, x.1 = ulids.id n
  last : ∀ x ∈ s.entries, lastSession sessions x.2.runId = some (sessionOf x)
  live : ∀ x ∈ s.entries, Live s x.2.commandsTx

/-! ## Calls -/

section Calls

variable {ulids : Ulids} {s : Console C} {sessions : List RunnerSession} {call : Call}

/-- The entry of a new session. -/
def newEntry (ulids : Ulids) (s : Console C) (runId : String) : String × RunnerEntry :=
  (ulids.id s.issued, { runId, commandsTx := s.channels.length })

/-- A call registers a run and opens a session, whose receiver a reconnect drops; or it adds no
entry, and closes the channel of the session that it drops. -/
theorem step_cases (ulids : Ulids) (s : Console C) (call : Call) :
    (∃ runId isOpen, call.registers s = some runId ∧
        (call.step ulids s).entries = Registry.insert s.entries (newEntry ulids s runId).1
          (newEntry ulids s runId).2 ∧
        (call.step ulids s).channels = s.channels ++ [{ queued := [], isOpen }] ∧
        (isOpen = false ↔ ∃ client, call = .tryReconnect client) ∧
        (call.step ulids s).issued = s.issued + 2 ∧
        call.opened ulids s = [sessionOf (newEntry ulids s runId)]) ∨
      (call.registers s = none ∧ (call.step ulids s).entries.Sublist s.entries ∧
        (∀ tx, call ≠ .dropSession tx → (call.step ulids s).channels[tx]? = s.channels[tx]?) ∧
        (call.step ulids s).issued = s.issued ∧ call.opened ulids s = []) := by
  cases call with
  | register client runId => exact .inl ⟨runId, true, rfl, rfl, rfl, by simp, rfl, rfl⟩
  | tryReconnect client =>
    simp only [Call.registers, Call.step, Call.opened, Call.next, RunnerClient.tryReconnect]
    cases hreq : (s.clients client).registerRequest with
    | none => exact .inr ⟨rfl, .refl _, fun _ _ => rfl, rfl, rfl⟩
    | some runId =>
      refine .inl ⟨runId, false, rfl, rfl, ?_, by simp, rfl, rfl⟩
      -- the new channel is the last one
      change (s.channels ++ [CommandChannel.mk [] true]).modify s.channels.length _ = _
      rw [List.modify_eq_set_getElem?]
      simp
  | forget runnerId => exact .inr ⟨rfl, List.filter_sublist, fun _ _ => rfl, rfl, rfl⟩
  | dropSession rx =>
    refine .inr ⟨rfl, .refl _, ?_, rfl, rfl⟩
    intro tx htx
    exact List.getElem?_modify_ne _ _ fun heq => htx (by rw [heq])

variable {entries : List (String × RunnerEntry)} {runId : String} {x : String × RunnerEntry}

theorem insert_fresh {id : String} {e : RunnerEntry} :
    (∀ x ∈ entries, x.1 ≠ id) → Registry.insert entries id e = (id, e) :: entries := by
  intro h
  rw [Registry.insert, List.filter_eq_self.2]
  intro x hx
  simpa using h x hx

theorem Current.fresh (h : Current ulids s sessions) :
    ∀ x ∈ s.entries, x.1 ≠ ulids.id s.issued := by
  intro x hx heq
  obtain ⟨n, hn, hid⟩ := h.drawn x hx
  exact Nat.ne_of_lt hn (ulids.injective (hid.symm.trans heq))

theorem Current.entries_of_register (h : Current ulids s sessions) :
    (call.step ulids s).entries = Registry.insert s.entries (newEntry ulids s runId).1
        (newEntry ulids s runId).2 →
      (call.step ulids s).entries = newEntry ulids s runId :: s.entries := by
  intro hentries
  rw [hentries]
  exact insert_fresh h.fresh

theorem lastSession_concat {session : RunnerSession} : lastSession (sessions ++ [session]) runId =
      if session.runId = runId then some session else lastSession sessions runId := by
  rw [lastSession, List.filter_append]
  split
  · next heq => simp [heq]
  · next hne => simp [hne, lastSession]

theorem Live.of_channels {t : Console C} {tx : Nat} (h : Live s tx) :
    t.channels[tx]? = s.channels[tx]? → Live t tx := by
  intro heq
  obtain ⟨ch, hch, hopen⟩ := h
  exact ⟨ch, heq.trans hch, hopen⟩

theorem Live.append {t : Console C} {tx : Nat} {ch : CommandChannel C} (h : Live s tx) :
    t.channels = s.channels ++ [ch] → Live t tx := by
  intro heq
  obtain ⟨ch', hch, hopen⟩ := h
  refine ⟨ch', ?_, hopen⟩
  rw [heq, List.getElem?_append_left (List.getElem?_eq_some_iff.1 hch).1, hch]

/-- The session that a call opens is live unless the call is a reconnect. -/
theorem live_newEntry_iff {isOpen : Bool} (runId : String)
    (h : (call.step ulids s).channels = s.channels ++ [{ queued := [], isOpen }]) :
    Live (call.step ulids s) (newEntry ulids s runId).2.commandsTx ↔ isOpen = true := by
  rw [Live, h, newEntry, List.getElem?_concat_length]
  simp

theorem Current.step (h : Current ulids s sessions) : Orderly s call →
    Current ulids (call.step ulids s) (sessions ++ call.opened ulids s) := by
  intro horderly
  rcases step_cases ulids s call with
    ⟨runId, isOpen, hreg, hentries, hchannels, hopen, hissued, hopened⟩ |
    ⟨-, hsub, hchannels, hissued, hopened⟩
  · have hcons := h.entries_of_register hentries
    have htrue : isOpen = true := by
      by_contra hfalse
      obtain ⟨client, rfl⟩ := hopen.1 (Bool.not_eq_true _ ▸ hfalse)
      have hnone := horderly.unregistered client rfl
      rw [Call.registers, hnone] at hreg
      cases hreg
    refine ⟨?_, ?_, ?_, ?_⟩
    · rw [hcons, List.map_cons, List.nodup_cons]
      refine ⟨?_, h.keys⟩
      intro hmem
      obtain ⟨x, hx, heq⟩ := List.mem_map.1 hmem
      exact h.fresh x hx heq
    · intro x hx
      rw [hcons] at hx
      rw [hissued]
      rcases List.mem_cons.1 hx with rfl | hold
      · exact ⟨s.issued, Nat.lt_add_of_pos_right Nat.two_pos, rfl⟩
      · obtain ⟨n, hn, hid⟩ := h.drawn x hold
        exact ⟨n, Nat.lt_add_right 2 hn, hid⟩
    · intro x hx
      rw [hcons] at hx
      rw [hopened, lastSession_concat]
      rcases List.mem_cons.1 hx with rfl | hold
      · exact if_pos rfl
      · rw [if_neg (fun heq => horderly.vacant runId hreg x hold heq.symm)]
        exact h.last x hold
    · intro x hx
      rw [hcons] at hx
      rcases List.mem_cons.1 hx with rfl | hold
      · exact (live_newEntry_iff _ hchannels).2 htrue
      · exact (h.live x hold).append hchannels
  · rw [hopened, List.append_nil]
    refine ⟨h.keys.sublist (hsub.map _), ?_, ?_, ?_⟩
    · intro x hx
      rw [hissued]
      exact h.drawn x (hsub.subset hx)
    · intro x hx
      exact h.last x (hsub.subset hx)
    · intro x hx
      refine (h.live x (hsub.subset hx)).of_channels (hchannels _ ?_)
      intro hdrop
      exact horderly.forgotten _ hdrop x (hsub.subset hx) rfl

/-! ## Lookups -/

theorem exists_iteration : x ∈ s.entries →
    ∃ it, Registry.runnerForRun it s x.2.runId = some x.1 := by
  intro hx
  let it : Iteration (String × RunnerEntry) :=
    { order := fun xs => if x ∈ xs then x :: xs.erase x else xs
      perm := by
        intro xs
        split
        · next hmem => exact (List.perm_cons_erase hmem).symm
        · exact .refl _ }
  refine ⟨it, ?_⟩
  have horder : it.order s.entries = x :: s.entries.erase x := if_pos hx
  rw [Registry.runnerForRun, horder, List.find?_cons_of_pos (by simp)]
  rfl

theorem mem_of_runnerForRun {it : Iteration (String × RunnerEntry)} {runnerId : String} :
    Registry.runnerForRun it s runId = some runnerId →
      ∃ x ∈ s.entries, x.2.runId = runId ∧ x.1 = runnerId := by
  intro h
  obtain ⟨x, hx, rfl⟩ := Option.map_eq_some_iff.1 h
  refine ⟨x, (it.perm _).mem_iff.1 (List.mem_of_find?_eq_some hx), ?_, rfl⟩
  simpa using List.find?_some hx

/-- With keys apart, an entry is found under its key. -/
theorem lookup_of_mem :
    (entries.map Prod.fst).Nodup → x ∈ entries → entries.lookup x.1 = some x.2 := by
  induction entries with
  | nil => exact fun _ h => nomatch h
  | cons y entries ih =>
    intro hkeys hx
    obtain ⟨hy, hrest⟩ := List.nodup_cons.1 hkeys
    rcases List.mem_cons.1 hx with rfl | hmem
    · exact List.lookup_cons_self
    · have hne : (x.1 == y.1) = false :=
        beq_eq_false_iff_ne.2 fun heq => hy (heq ▸ List.mem_map_of_mem hmem)
      rw [List.lookup_cons, hne]
      exact ih hrest hmem

theorem Current.owned (h : Current ulids s sessions) : Owned s sessions := by
  intro it runId runnerId hlookup
  obtain ⟨x, hx, rfl, rfl⟩ := mem_of_runnerForRun hlookup
  refine ⟨sessionOf x, h.last x hx, rfl, h.live x hx, ?_⟩
  intro cmd
  rw [Registry.sendCommand, lookup_of_mem h.keys hx]
  rfl

/-- Every entry of a console that is owned has the live session opened last. -/
theorem Owned.of_mem (h : Owned s sessions) : x ∈ s.entries →
    ∃ session, lastSession sessions x.2.runId = some session ∧ session.runnerId = x.1 ∧
      Live s session.commandsRx := by
  intro hx
  obtain ⟨it, hit⟩ := exists_iteration hx
  obtain ⟨session, hlast, hid, hlive, -⟩ := h it x.2.runId x.1 hit
  exact ⟨session, hlast, hid, hlive⟩

theorem owned_step_iff (h : Current ulids s sessions) :
    Owned (call.step ulids s) (sessions ++ call.opened ulids s) ↔ Orderly s call := by
  constructor
  · intro howned
    rcases step_cases ulids s call with
      ⟨runId, isOpen, hreg, hentries, hchannels, hopen, -, hopened⟩ | ⟨hreg, -, -, -, hopened⟩
    · have hcons := h.entries_of_register hentries
      refine ⟨?_, ?_, ?_⟩
      · intro runId' hreg' x hx heq
        cases hreg.symm.trans hreg'
        -- The old entry is still there, and some order visits it first.
        have hmem : x ∈ (call.step ulids s).entries := by
          rw [hcons]
          exact List.mem_cons_of_mem _ hx
        obtain ⟨session, hlast, hid, -⟩ := howned.of_mem hmem
        have hsame : (sessionOf (newEntry ulids s runId)).runId = x.2.runId := heq.symm
        rw [hopened, lastSession_concat, if_pos hsame] at hlast
        cases hlast
        exact h.fresh x hx hid.symm
      · intro client hcall
        -- The session of the new entry is gone.
        have hmem : newEntry ulids s runId ∈ (call.step ulids s).entries := by
          rw [hcons]
          exact List.mem_cons_self
        obtain ⟨session, hlast, -, hlive⟩ := howned.of_mem hmem
        rw [hopened, lastSession_concat] at hlast
        cases (if_pos rfl).symm.trans hlast
        have htrue := (live_newEntry_iff runId hchannels).1 hlive
        rw [hopen.2 ⟨client, hcall⟩] at htrue
        cases htrue
      · rintro rx rfl
        cases hreg
    · refine ⟨?_, ?_, ?_⟩
      · intro runId hreg'
        rw [hreg] at hreg'
        cases hreg'
      · rintro client rfl
        exact hreg
      · rintro rx rfl x hx rfl
        obtain ⟨session, hlast, -, ch, hch, hopen⟩ := howned.of_mem hx
        rw [hopened, List.append_nil, h.last x hx] at hlast
        cases hlast
        change (s.channels.modify x.2.commandsTx _)[x.2.commandsTx]? = some ch at hch
        rw [List.getElem?_modify_eq] at hch
        obtain ⟨_, -, rfl⟩ := Option.map_eq_some_iff.1 hch
        cases hopen
  · intro horderly
    exact (h.step horderly).owned

theorem current_new : Current ulids (Console.new : Console C) [] :=
  ⟨.nil, nofun, nofun, nofun⟩

end Calls

/-! ## Histories -/

/-- Lookups find the owner, with a live session, after every call of a history exactly when every
call is orderly. -/
theorem owned_throughout_iff (ulids : Ulids) (calls : List Call) :
    Runs.Throughout (Call.step ulids) (Call.opened ulids)
        (fun s sessions call =>
          Owned (call.step ulids s) (sessions ++ call.opened ulids s))
        (Console.new : Console C) [] calls ↔
      Runs.Along (Call.step ulids) Orderly (Console.new : Console C) calls := by
  refine Runs.throughout_iff_along (Current ulids) ?_ ?_ current_new
  · intro s sessions call horderly h
    exact h.step horderly
  · intro s sessions call h
    exact owned_step_iff h

/-- Ids in decimal. -/
def numbered : Ulids where
  id := fun n => toString n
  injective := fun _ _ h => Separated.toString_inj h

/-- The map visited from its oldest entry on. -/
def oldestFirst : Iteration (String × RunnerEntry) where
  order := List.reverse
  perm := List.reverse_perm

def reconnected : List Call :=
  [.register 0 "run-b", .tryReconnect 0]

/-- After a reconnect the lookup may find the runner that was registered before it. -/
theorem reconnected_not_owned :
    Registry.runnerForRun oldestFirst
        (Runs.run (Call.step numbered) (Console.new : Console Unit) reconnected) "run-b" =
      some "0" ∧
    ((Runs.run (Call.step numbered) (Console.new : Console Unit) reconnected).clients 0).runnerId =
      some "2" ∧
    ¬ Runs.Throughout (Call.step numbered) (Call.opened numbered)
        (fun s sessions call =>
          Owned (call.step numbered s) (sessions ++ call.opened numbered s))
        (Console.new : Console Unit) [] reconnected := by
  have hlookup : Registry.runnerForRun oldestFirst
      (Runs.run (Call.step numbered) (Console.new : Console Unit) reconnected) "run-b" = some "0" :=
    rfl
  refine ⟨hlookup, rfl, ?_⟩
  rintro ⟨-, howned, -⟩
  obtain ⟨session, hlast, hid, -⟩ := howned oldestFirst "run-b" "0" hlookup
  cases hlast
  exact absurd hid (by decide)

end Rpc
end Rustorch
