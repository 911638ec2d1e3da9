import Rustorch.Console.Lifecycle

/-!
# The events of a run

`trigger` writes the status, reads the row back and publishes `runs.changed`.  Here the `SELECT`,
the `UPDATE`, the `SELECT` that reads back and the publication are four steps, and requests
interleave between any two.  An event carries a status that the run had; the last one carries the
status of the row unless the last request between its `UPDATE` and its publication read the row
before another `UPDATE`, or failed to read it (`events_converge_iff`).
-/

namespace Rustorch
namespace Console

open List Runs

/-- Where a request stands. -/
inductive Stage (T : Type)
  | check
  | write
  | readBack
  | publish (updated : Run T)
  | done (response : Except ApiError (Run T))

structure Caller (T : Type) where
  handler : Handler
  stage : Stage T

/-- The database, what the hub published under `runs.changed`, and the requests about one run. -/
structure Board (T : Type) where
  db : List RunRow
  published : List (String × RunStatus)
  callers : List (Caller T)

section Code

variable {T : Type} (clock : Clock T) (id : String)

/-- A statement that fails answers its request with the error. -/
def query {α : Type} (dbError : Option String) (result : Except ApiError α) : Except ApiError α :=
  match dbError with
  | some m => .error (.db m)
  | none => result

/-- The guard of `trigger`. -/
def checkedStage (handler : Handler) : Except ApiError (Run T) → Stage T
  | .error e => .done (.error e)
  | .ok current =>
    if current.status ∈ handler.allowedFrom then
      .write
    else
      .done (.error (.conflict
        ("cannot transition " ++ current.status.debug ++ " → " ++ handler.next.debug)))

def Board.advance (s : Board T) (i : Nat) (r : Caller T) (stage : Stage T) : Board T :=
  { s with callers := s.callers.set i { r with stage } }

/-- The next step of a request. -/
def Board.execute (s : Board T) (e : Event T) (r : Caller T) : Board T :=
  match r.stage with
  | .check =>
    s.advance e.request r (checkedStage r.handler (query e.dbError (getRun clock s.db id)))
  | .write =>
    match e.dbError with
    | some m => s.advance e.request r (.done (.error (.db m)))
    | none =>
      let s' := { s with db := updateRunStatus clock s.db id r.handler.next e.now }
      -- the row is gone since the check
      if rowsAffected s.db id = 0 then
        s'.advance e.request r (.done (.error (.notFound ("run " ++ id))))
      else
        s'.advance e.request r .readBack
  | .readBack =>
    match query e.dbError (getRun clock s.db id) with
    | .ok updated => s.advance e.request r (.publish updated)
    | .error err => s.advance e.request r (.done (.error err))
  | .publish updated =>
    -- the hub is told what was read back, not what is stored by now
    let s' := { s with published := s.published ++ [(updated.id, updated.status)] }
    s'.advance e.request r (.done (.ok updated))
  | .done _ => s

def Board.step (s : Board T) (e : Event T) : Board T :=
  match s.callers[e.request]? with
  | none => s
  | some r => s.execute clock id e r

end Code

/-! ## The statements of the lifecycle

`step` takes the read-back and its publication at once; on the board they are two steps. -/

section Statements

variable {T : Type} {clock : Clock T} {id : String}

def Phase.stage : Phase T → Stage T
  | .check => .check
  | .write => .write
  | .readBack => .readBack
  | .done response => .done response

def Server.board (s : Server T) : Board T where
  db := s.db
  published := s.published
  callers := s.requests.map fun r => ⟨r.handler, r.phase.stage⟩

/-- The steps on the board that one event of the server stands for. -/
def Server.parts (s : Server T) (e : Event T) : List (Event T) :=
  match s.requests[e.request]? with
  | some ⟨_, .readBack⟩ => [e, e]
  | _ => [e]

theorem checkedStage_eq (handler : Handler) : ∀ result : Except ApiError (Run T),
    checkedStage handler result = (afterCheck handler result).stage
  | .error _ => rfl
  | .ok current => by
    unfold checkedStage afterCheck
    dsimp only
    split <;> rfl

theorem board_eq (s : Server T) (i : Nat) (r : Request T) (db : List RunRow)
    (published : List (String × RunStatus)) :
    Server.board ⟨db, published, s.requests.set i r⟩ =
      ⟨db, published, s.board.callers.set i ⟨r.handler, r.phase.stage⟩⟩ := by
  rw [Server.board, Server.board, map_set]

theorem board_step (s : Server T) (e : Event T) :
    (step clock id s e).board = run (Board.step clock id) s.board (s.parts e) := by
  cases hr : s.requests[e.request]? with
  | none =>
    have hnone : s.board.callers[e.request]? = none := by rw [Server.board, getElem?_map, hr]; rfl
    simp only [step, Server.parts, hr, run_cons, run_nil, Board.step, hnone]
  | some r =>
    obtain ⟨handler, phase⟩ := r
    have hcaller : s.board.callers[e.request]? = some ⟨handler, phase.stage⟩ := by
      rw [Server.board, getElem?_map, hr]
      rfl
    obtain ⟨hi, hself⟩ := List.getElem?_eq_some_iff.1 hcaller
    have hdb : s.board.db = s.db := rfl
    have hnext : s.board.step clock id e = s.board.execute clock id e ⟨handler, phase.stage⟩ := by
      rw [Board.step, hcaller]
    simp only [step, hr, Server.parts]
    cases phase with
    | check =>
      rw [run_cons, hnext, run_nil, Board.execute, Phase.stage]
      cases e.dbError <;>
        simp only [abort, execute, board_eq, nextPhase, checkedStage_eq, query] <;> rfl
    | write =>
      rw [run_cons, hnext, run_nil, Board.execute, Phase.stage]
      cases e.dbError with
      | some m =>
        simp only [abort, board_eq]
        rfl
      | none =>
        simp only [execute, board_eq, nextPhase, hdb]
        split <;> rfl
    | readBack =>
      -- the answered request ignores the second event; the one that read its row publishes it
      rw [run_cons, hnext, run_cons, run_nil, Board.execute, Phase.stage]
      cases e.dbError with
      | some m =>
        simp only [abort, board_eq, query, Board.advance, Board.step, getElem?_set_self hi,
          Board.execute]
        rfl
      | none =>
        simp only [execute, board_eq, nextPhase, query, hdb]
        cases hget : getRun clock s.db id <;>
          simp only [Board.advance, Board.step, getElem?_set_self hi, Board.execute, set_set] <;>
            rfl
    | done response =>
      rw [run_cons, hnext, run_nil, Board.execute, Phase.stage]
      cases e.dbError with
      | some m => rfl
      | none =>
        simp only [execute, board_eq, nextPhase]
        rw [← hself, set_getElem_self]
        rfl

theorem board_run (s : Server T) (es : List (Event T)) : ∃ fine : List (Event T),
    (run (step clock id) s es).board = run (Board.step clock id) s.board fine := by
  induction es generalizing s with
  | nil => exact ⟨[], rfl⟩
  | cons e es ih =>
    obtain ⟨fine, hfine⟩ := ih (step clock id s e)
    refine ⟨s.parts e ++ fine, ?_⟩
    rw [run_cons, hfine, run_append, board_step]

end Statements

/-! ## What the stream is for -/

section Meaning

variable {T : Type} (clock : Clock T) (id : String)

def lastStatus (published : List (String × RunStatus)) : Option RunStatus :=
  ((published.filter fun ev => ev.1 == id).getLast?).map Prod.snd

/-- The last event of the run carries its stored status. -/
def Converged (s : Board T) : Prop :=
  ∀ st, lastStatus id s.published = some st → statusText s.db id = some st.asStr

/-- Between its first statement and its answer. -/
def Stage.inFlight : Stage T → Prop
  | .check | .done _ => False
  | .write | .readBack | .publish _ => True

/-- Between its `UPDATE` and its publication. -/
def Stage.pending : Stage T → Prop
  | .check | .write | .done _ => False
  | .readBack | .publish _ => True

theorem Stage.pending.inFlight {stage : Stage T} (h : stage.pending) : stage.inFlight := by
  cases stage with
  | check => exact h
  | write => exact absurd h not_false
  | readBack => trivial
  | publish updated => trivial
  | done response => exact h

def NoneInFlight (s : Board T) : Prop :=
  ∀ r ∈ s.callers, ¬ r.stage.inFlight

def NonePending (s : Board T) : Prop :=
  ∀ r ∈ s.callers, ¬ r.stage.pending

/-- No request has begun, and the last event of the run is right. -/
structure Fresh (s : Board T) : Prop where
  stages : ∀ r ∈ s.callers, r.stage = .check
  converged : Converged id s

/-- Another request is pending. -/
def OtherPending (s : Board T) (i : Nat) : Prop :=
  ∃ (j : Nat) (r : Caller T), j ≠ i ∧ s.callers[j]? = some r ∧ r.stage.pending

/-- The last pending request publishes the stored status, or reads the row back where there is
nothing to publish. -/
def InOrder (s : Board T) (e : Event T) : Prop :=
  ∀ r, s.callers[e.request]? = some r → ¬ OtherPending s e.request →
    match r.stage with
    | .publish updated => statusText s.db id = some updated.status.asStr
    | .readBack => (query e.dbError (getRun clock s.db id)).isOk = true ∨ Converged id s
    | _ => True

/-- The event that a step publishes. -/
def publishes (s : Board T) (e : Event T) : Option (String × RunStatus) :=
  match s.callers[e.request]? with
  | some ⟨_, .publish updated⟩ => some (updated.id, updated.status)
  | _ => none

/-- Each event's status was stored when its request read the row back. -/
def StatusHeld (s : Board T) (es : List (Event T)) : Prop :=
  ∀ before e after, es = before ++ e :: after → ∀ ev,
    publishes (run (Board.step clock id) s before) e = some ev →
      ∃ first read rest, before = first ++ read :: rest ∧ read.request = e.request ∧ ev.1 = id ∧
        statusText (run (Board.step clock id) s first).db id = some ev.2.asStr

end Meaning

/-! ## The row and the log -/

section Row

variable {T : Type} {clock : Clock T} {id : String} {db : List RunRow}

theorem query_eq_ok {α : Type} {dbError : Option String} {result : Except ApiError α} {a : α}
    (h : query dbError result = .ok a) : result = .ok a := by
  cases dbError with
  | none => exact h
  | some m => cases h

theorem updateRunStatus_of_none {status : RunStatus} {now : T} (h : rowsAffected db id = 0) :
    updateRunStatus clock db id status now = db := by
  have hnone : ∀ r ∈ db, ¬ (r.id == id) = true := by
    have hnil := length_eq_zero_iff.1 h
    simpa [filter_eq_nil_iff] using hnil
  conv_rhs => rw [← map_id db]
  exact map_congr_left fun r hr => if_neg (hnone r hr)

theorem lastStatus_concat (published : List (String × RunStatus)) (status : RunStatus) :
    lastStatus id (published ++ [(id, status)]) = some status := by
  simp [lastStatus, filter_append]

end Row

/-! ## One step -/

section Step

variable {T : Type} {clock : Clock T} {id : String} {s : Board T} {i : Nat} {r : Caller T}

/-- Some request is pending. -/
def AnyPending (s : Board T) : Prop :=
  ∃ (j : Nat) (r : Caller T), s.callers[j]? = some r ∧ r.stage.pending

theorem nonePending_iff : NonePending s ↔ ¬ AnyPending s := by
  constructor
  · rintro h ⟨j, r, hr, hpending⟩
    exact h r (mem_of_getElem? hr) hpending
  · intro h r hr hpending
    obtain ⟨j, hj⟩ := mem_iff_getElem?.1 hr
    exact h ⟨j, r, hj, hpending⟩

theorem anyPending_iff (hr : s.callers[i]? = some r) :
    AnyPending s ↔ OtherPending s i ∨ r.stage.pending := by
  constructor
  · rintro ⟨j, r', hr', hpending⟩
    by_cases hj : j = i
    · subst hj
      rw [hr] at hr'
      cases hr'
      exact .inr hpending
    · exact .inl ⟨j, r', hj, hr', hpending⟩
  · rintro (⟨j, r', _, hr', hpending⟩ | hpending)
    · exact ⟨j, r', hr', hpending⟩
    · exact ⟨i, r, hr, hpending⟩

variable {s' : Board T} {e : Event T}

/-- The other requests stand where they stood. -/
theorem anyPending_set {stage : Stage T} (hr : s.callers[i]? = some r)
    (hset : s'.callers = s.callers.set i { r with stage }) :
    AnyPending s' ↔ OtherPending s i ∨ stage.pending := by
  have hi : i < s.callers.length := (List.getElem?_eq_some_iff.1 hr).1
  -- the request that moved is where its step left it
  have hself : s'.callers[i]? = some { r with stage } := by
    rw [hset, getElem?_set_self hi]
  have hother : OtherPending s' i ↔ OtherPending s i := by
    refine exists_congr fun j => exists_congr fun r' => and_congr_right fun hj => ?_
    rw [hset, getElem?_set_ne (Ne.symm hj)]
  rw [anyPending_iff hself, hother]

/-- What every step keeps: the stream is right or will be written to, and a request publishes what
it read of its run. -/
structure Tracked (id : String) (s : Board T) : Prop where
  stream : Converged id s ∨ AnyPending s
  carried : ∀ r ∈ s.callers, ∀ updated, r.stage = .publish updated → updated.id = id

theorem converged_of_eq (h : Converged id s) (hpublished : s'.published = s.published)
    (hstored : statusText s'.db id = statusText s.db id) : Converged id s' := by
  intro st hst
  rw [hpublished] at hst
  rw [hstored]
  exact h st hst

/-- The state after the step of the request `r`, and where it stands then. -/
inductive Stepped (clock : Clock T) (id : String) (s : Board T) (e : Event T) (r : Caller T) :
    Board T → Stage T → Prop
  | waits {s' : Board T} {stage : Stage T} (hdb : s'.db = s.db)
      (hpublished : s'.published = s.published)
      (hbefore : ¬ r.stage.pending) (hafter : ¬ stage.pending) : Stepped clock id s e r s' stage
  | updates {s' : Board T} (hpublished : s'.published = s.published)
      (hstage : r.stage = .write) : Stepped clock id s e r s' .readBack
  | reads {s' : Board T} {updated : Run T} (hdb : s'.db = s.db)
      (hpublished : s'.published = s.published) (hstage : r.stage = .readBack)
      (hquery : query e.dbError (getRun clock s.db id) = .ok updated) :
      Stepped clock id s e r s' (.publish updated)
  | fails {s' : Board T} {err : ApiError} (hdb : s'.db = s.db)
      (hpublished : s'.published = s.published) (hstage : r.stage = .readBack)
      (hquery : query e.dbError (getRun clock s.db id) = .error err) :
      Stepped clock id s e r s' (.done (.error err))
  | publishes {s' : Board T} {updated : Run T} (hdb : s'.db = s.db)
      (hpublished : s'.published = s.published ++ [(updated.id, updated.status)])
      (hstage : r.stage = .publish updated) : Stepped clock id s e r s' (.done (.ok updated))

theorem checkedStage_not_pending (handler : Handler) (result : Except ApiError (Run T)) :
    ¬ (checkedStage handler result).pending := by
  unfold checkedStage
  split
  · exact not_false
  · split
    · exact not_false
    · exact not_false

variable (clock id) in
theorem stepped (hr : s.callers[e.request]? = some r) :
    ∃ stage, (s.step clock id e).callers = s.callers.set e.request { r with stage } ∧
      Stepped clock id s e r (s.step clock id e) stage := by
  have hstep : s.step clock id e = s.execute clock id e r := by
    rw [Board.step, hr]
  rw [hstep]
  obtain ⟨handler, stage⟩ := r
  cases stage with
  | check =>
    exact ⟨_, rfl, .waits rfl rfl not_false (checkedStage_not_pending _ _)⟩
  | write =>
    unfold Board.execute
    cases hdb : e.dbError with
    | some m => exact ⟨_, rfl, .waits rfl rfl not_false not_false⟩
    | none =>
      by_cases hrows : rowsAffected s.db id = 0
      · simp only [hrows, if_true]
        exact ⟨_, rfl, .waits (updateRunStatus_of_none hrows) rfl not_false not_false⟩
      · simp only [hrows, if_false]
        exact ⟨_, rfl, .updates rfl rfl⟩
  | readBack =>
    unfold Board.execute
    cases hquery : query e.dbError (getRun clock s.db id) with
    | ok updated => exact ⟨_, rfl, .reads rfl rfl rfl hquery⟩
    | error err => exact ⟨_, rfl, .fails rfl rfl rfl hquery⟩
  | publish updated => exact ⟨_, rfl, .publishes rfl rfl rfl⟩
  | done response =>
    -- an answered request stays where it is
    refine ⟨.done response, ?_, .waits rfl rfl not_false not_false⟩
    change s.callers = s.callers.set e.request ⟨handler, .done response⟩
    obtain ⟨hi, hself⟩ := List.getElem?_eq_some_iff.1 hr
    rw [← hself, set_getElem_self]

theorem step_of_none (hr : s.callers[e.request]? = none) : s.step clock id e = s := by
  rw [Board.step, hr]

theorem tracked_step (hguard : InOrder clock id s e) (hs : Tracked id s) :
    Tracked id (s.step clock id e) := by
  cases hr : s.callers[e.request]? with
  | none => rwa [step_of_none hr]
  | some r =>
    obtain ⟨stage, hcallers, hstepped⟩ := stepped clock id hr
    have hbefore := anyPending_iff hr
    have hafter := anyPending_set hr hcallers
    refine ⟨?_, fun r' hr' updated hstage => ?_⟩
    -- another pending request will still publish; else this one decides
    · by_cases hother : OtherPending s e.request
      · exact .inr (hafter.2 (.inl hother))
      · have hguard' := hguard r hr hother
        rw [hafter]
        cases hstepped with
        | waits hdb hpublished hnot _ =>
          have hconv : Converged id s := hs.stream.resolve_right fun hany =>
            (hbefore.1 hany).elim hother hnot
          exact .inl (converged_of_eq hconv hpublished (by rw [hdb]))
        | updates => exact .inr (.inr trivial)
        | reads => exact .inr (.inr trivial)
        -- the last pending request gives up, so the stream has to be right already
        | fails hdb hpublished hstage hquery =>
          rw [hstage] at hguard'
          have hconv : Converged id s := hguard'.resolve_left fun hok => by
            rw [hquery] at hok
            cases hok
          exact .inl (converged_of_eq hconv hpublished (by rw [hdb]))
        -- the last pending request publishes, and by the guard what it carries is stored
        | @publishes updated hdb hpublished hstage =>
          rw [hstage] at hguard'
          have hid := hs.carried r (mem_of_getElem? hr) updated hstage
          refine .inl fun st hst => ?_
          rw [hpublished, hid, lastStatus_concat, Option.some.injEq] at hst
          rw [hdb, ← hst]
          exact hguard'
    · rw [hcallers] at hr'
      rcases mem_or_eq_of_mem_set hr' with hold | rfl
      · exact hs.carried r' hold updated hstage
      · cases hstepped with
        | waits _ _ _ hnot =>
          cases (show stage = .publish updated from hstage)
          exact absurd trivial hnot
        | reads _ _ _ hquery =>
          cases hstage
          exact id_of_getRun (query_eq_ok hquery)
        | updates => cases hstage
        | fails => cases hstage
        | publishes => cases hstage

/-- A step out of order leaves a wrong last event, and nothing under way to correct it. -/
theorem inOrder_of_good (hs : Tracked id s)
    (hgood : NonePending (s.step clock id e) → Converged id (s.step clock id e)) :
    InOrder clock id s e := by
  intro r hr hother
  obtain ⟨stage, hcallers, hstepped⟩ := stepped clock id hr
  have hafter := anyPending_set hr hcallers
  rw [nonePending_iff, hafter] at hgood
  cases hstepped with
  | waits _ _ hnot _ =>
    split
    · next hstage => exact absurd (hstage ▸ trivial) hnot
    · next hstage => exact absurd (hstage ▸ trivial) hnot
    · trivial
  | updates _ hstage =>
    rw [hstage]
    trivial
  | reads _ _ hstage hquery =>
    rw [hstage]
    exact .inl (by rw [hquery]; rfl)
  | fails hdb hpublished hstage hquery =>
    rw [hstage]
    have hconv := hgood (not_or.2 ⟨hother, not_false⟩)
    exact .inr (converged_of_eq hconv hpublished.symm (by rw [hdb]))
  | @publishes updated hdb hpublished hstage =>
    rw [hstage]
    have hconv := hgood (not_or.2 ⟨hother, not_false⟩)
    have hid := hs.carried r (mem_of_getElem? hr) updated hstage
    have hlast := hconv updated.status (by rw [hpublished, hid, lastStatus_concat])
    rwa [hdb] at hlast

end Step

/-! ## Whole runs -/

section Whole

variable {T : Type} {clock : Clock T} {id : String} {s : Board T}

theorem read_before_publish (hs : Fresh id s) (before : List (Event T)) :
    ∀ (i : Nat) (r : Caller T) (updated : Run T),
      (run (Board.step clock id) s before).callers[i]? = some r →
      r.stage = .publish updated →
        ∃ first read rest, before = first ++ read :: rest ∧ read.request = i ∧ updated.id = id ∧
          statusText (run (Board.step clock id) s first).db id = some updated.status.asStr := by
  induction before using reverseRecOn with
  | nil =>
    intro i r updated hr hstage
    have hcheck := hs.stages r (mem_of_getElem? hr)
    rw [hstage] at hcheck
    cases hcheck
  | append_singleton before e ih =>
    intro i r updated hr hstage
    -- a request that stood before its publication already
    have hold : (run (Board.step clock id) s before).callers[i]? = some r →
        ∃ first read rest, before ++ [e] = first ++ read :: rest ∧ read.request = i ∧
          updated.id = id ∧ statusText (run (Board.step clock id) s first).db id =
            some updated.status.asStr := by
      intro hr'
      obtain ⟨first, read, rest, rfl, hrequest, hid, hstored⟩ := ih i r updated hr' hstage
      exact ⟨first, read, rest ++ [e], by simp, hrequest, hid, hstored⟩
    rw [run_append, run_cons, run_nil] at hr
    cases hcaller : (run (Board.step clock id) s before).callers[e.request]? with
    | none =>
      rw [step_of_none hcaller] at hr
      exact hold hr
    | some r₀ =>
      obtain ⟨stage, hcallers, hstepped⟩ := stepped clock id hcaller
      rw [hcallers] at hr
      by_cases hi : e.request = i
      · subst hi
        rw [List.getElem?_set_self (List.getElem?_eq_some_iff.1 hcaller).1] at hr
        cases hr
        cases (show stage = .publish updated from hstage)
        -- only the read-back leads to a publication; this step is it
        cases hstepped with
        | waits _ _ _ hnot => exact absurd trivial hnot
        | reads _ _ _ hquery =>
          have hrow := query_eq_ok hquery
          exact ⟨before, e, [], rfl, rfl, id_of_getRun hrow, statusText_of_getRun hrow⟩
      · rw [getElem?_set_ne hi] at hr
        exact hold hr

theorem statusHeld (hs : Fresh id s) (es : List (Event T)) : StatusHeld clock id s es := by
  intro before e after _ ev hpublishes
  unfold publishes at hpublishes
  split at hpublishes
  · next handler updated hcaller =>
      cases hpublishes
      obtain ⟨first, read, rest, hbefore, hrequest, hid, hstored⟩ :=
        read_before_publish hs before _ _ updated hcaller rfl
      exact ⟨first, read, rest, hbefore, hrequest, hid, hstored⟩
  · cases hpublishes

theorem tracked_of_fresh (hs : Fresh id s) : Tracked id s where
  stream := .inl hs.converged
  carried := by
    intro r hr updated hstage
    rw [hs.stages r hr] at hstage
    cases hstage

/-- In a run in order, the last event is right whenever no request is in flight; the steps are in
order if and only if it is right whenever none is pending.  Each event carries a status that was
stored while its request ran, in order or not. -/
theorem events_converge_iff (hs : Fresh id s) (es : List (Event T)) :
    (Along (Board.step clock id) (InOrder clock id) s es →
      ∀ before after, es = before ++ after →
        NoneInFlight (run (Board.step clock id) s before) →
          Converged id (run (Board.step clock id) s before)) ∧
    (Along (Board.step clock id) (InOrder clock id) s es ↔
      ∀ before after, es = before ++ after →
        NonePending (run (Board.step clock id) s before) →
          Converged id (run (Board.step clock id) s before)) ∧
    StatusHeld clock id s es := by
  have hiff : (∀ before after, es = before ++ after →
      NonePending (run (Board.step clock id) s before) →
        Converged id (run (Board.step clock id) s before)) ↔
      Along (Board.step clock id) (InOrder clock id) s es :=
    forall_reached_iff (Tracked id)
      (fun s hs hnone => hs.stream.resolve_right (nonePending_iff.1 hnone))
      (fun s e => tracked_step) (fun s e => inOrder_of_good) (tracked_of_fresh hs)
  refine ⟨fun halong before after hes hquiet => ?_, hiff.symm, statusHeld hs es⟩
  exact hiff.2 halong before after hes fun r hr hpending => hquiet r hr (hpending.inFlight)

end Whole

/-! ### A pause that is announced late -/

/-- A `pause` and a `stop` arrive while the run is running. -/
def pauseThenStop : Board Unit where
  db := [runningRow]
  published := [("r", .running)]
  callers := [⟨.pause, .check⟩, ⟨.stop, .check⟩]

theorem pauseThenStop_fresh : Fresh "r" pauseThenStop where
  stages := by
    intro r hr
    simp only [pauseThenStop, mem_cons, not_mem_nil, or_false] at hr
    rcases hr with rfl | rfl
    · rfl
    · rfl
  converged := by
    intro st hst
    cases hst
    rfl

/-- The `stop` runs from start to end between the read-back and the publication of the `pause`. -/
theorem late_pause_diverges :
    ¬ ∀ (s : Board Unit) (es : List (Event Unit)), Fresh "r" s →
      NoneInFlight (run (Board.step stoppedClock "r") s es) →
        Converged "r" (run (Board.step stoppedClock "r") s es) := by
  intro hall
  have hconv := hall pauseThenStop (order [0, 0, 0, 1, 1, 1, 1, 0]) pauseThenStop_fresh (by
    intro r hr
    have hcallers : r ∈ [(⟨.pause, .done (getRun stoppedClock
        (updateRunStatus stoppedClock [runningRow] "r" .paused ()) "r")⟩ : Caller Unit),
        ⟨.stop, .done (getRun stoppedClock
          (updateRunStatus stoppedClock [runningRow] "r" .cancelled ()) "r")⟩] := hr
    simp only [mem_cons, not_mem_nil, or_false] at hcallers
    rcases hcallers with rfl | rfl
    · exact not_false
    · exact not_false)
  have hstored := hconv .paused (by decide)
  exact absurd hstored (by decide)

/-- Whatever is announced in that run was stored. -/
theorem late_pause_held :
    StatusHeld stoppedClock "r" pauseThenStop (order [0, 0, 0, 1, 1, 1, 1, 0]) :=
  (events_converge_iff pauseThenStop_fresh (order [0, 0, 0, 1, 1, 1, 1, 0])).2.2

end Console
end Rustorch
