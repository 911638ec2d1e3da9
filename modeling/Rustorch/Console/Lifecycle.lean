import Mathlib.Data.List.Chain
import Rustorch.Console.Runs

/-!
# The lifecycle of a run under concurrent requests

`trigger` checks the status in one statement and writes the new one in another, and the `UPDATE`
does not look at the status again.  A schedule keeps to the lifecycle exactly when every `UPDATE`
still finds a status that its handler allows (`lifecycle_iff`).
-/

namespace Rustorch
namespace Console

open Runs List

variable {T : Type} {clock : Clock T} {id : String}

/-! ## The stored status -/

/-- The `status` column of the run. -/
def statusText (db : List RunRow) (id : String) : Option String :=
  (db.find? fun r => r.id == id).map RunRow.status

variable {db : List RunRow} {status : RunStatus} {s : Server T} {a b : Option String}

theorem find?_updateRunStatus {other : String} {now : T} :
    (updateRunStatus clock db id status now).find? (fun r => r.id == other) =
      (db.find? fun r => r.id == other).map fun r =>
        if r.id == id then { r with status := status.asStr, updatedAt := clock.toRfc3339 now }
        else r := by
  rw [updateRunStatus, find?_map]
  congr 2
  funext r
  by_cases h : r.id = id <;> simp [h]

theorem statusText_updateRunStatus {now : T} :
    statusText (updateRunStatus clock db id status now) id =
      (statusText db id).map fun _ => status.asStr := by
  rw [statusText, find?_updateRunStatus, statusText]
  cases h : db.find? fun r => r.id == id with
  | none => rfl
  | some r =>
    have hid : r.id = id := by simpa using find?_some h
    simp [hid]

theorem rowsAffected_eq_zero : rowsAffected db id = 0 ↔ statusText db id = none := by
  simp [rowsAffected, statusText, filter_eq_nil_iff]

theorem tryFrom_ok {r : RunRow} {run : Run T} :
    Run.tryFrom clock r = .ok run → run.id = r.id ∧ r.status = run.status.asStr := by
  intro h
  unfold Run.tryFrom at h
  cases hstatus : RunStatus.fromStr r.status with
  | error e => simp [hstatus, bind, Except.bind] at h
  | ok status =>
    cases hcreated : parseTs clock r.createdAt with
    | error e => simp [hstatus, hcreated, bind, Except.bind] at h
    | ok created =>
      cases hupdated : parseTs clock r.updatedAt with
      | error e => simp [hstatus, hcreated, hupdated, bind, Except.bind] at h
      | ok updated =>
        simp only [hstatus, hcreated, hupdated, bind, Except.bind, pure, Except.pure,
          Except.ok.injEq] at h
        rw [← h]
        exact ⟨rfl, RunStatus.asStr_of_fromStr hstatus⟩

theorem getRun_ok {run : Run T} : getRun clock db id = .ok run →
    ∃ r, db.find? (fun r => r.id == id) = some r ∧ run.id = r.id ∧
      r.status = run.status.asStr := by
  intro h
  unfold getRun at h
  cases hrow : db.find? fun r => r.id == id with
  | none => simp [hrow] at h
  | some r =>
    rw [hrow] at h
    exact ⟨r, rfl, tryFrom_ok h⟩

theorem statusText_of_getRun {current : Run T} :
    getRun clock db id = .ok current → statusText db id = some current.status.asStr := by
  intro h
  obtain ⟨r, hrow, _, hstatus⟩ := getRun_ok h
  rw [statusText, hrow, Option.map_some, hstatus]

theorem id_of_getRun {run : Run T} : getRun clock db id = .ok run → run.id = id := by
  intro h
  obtain ⟨r, hrow, hid, _⟩ := getRun_ok h
  exact hid.trans (by simpa using find?_some hrow)

theorem getRun_ne_conflict {m : String} : getRun clock db id ≠ .error (.conflict m) := by
  intro h
  unfold getRun at h
  split at h
  · cases h
  · next r _ =>
      simp only [Run.tryFrom] at h
      cases hstatus : RunStatus.fromStr r.status with
      | error e =>
        rw [hstatus] at h
        unfold RunStatus.fromStr at hstatus
        split at hstatus <;> cases hstatus
        cases h
      | ok status =>
        have hts : ∀ text, parseTs clock text ≠ .error (.conflict m) := by
          intro text hparse
          cases htext : clock.parseFromRfc3339 text <;>
            simp [parseTs, htext, Except.mapError] at hparse
        cases hcreated : parseTs clock r.createdAt with
        | error e => simp_all [bind, Except.bind]
        | ok created =>
          cases hupdated : parseTs clock r.updatedAt with
          | error e => simp_all [bind, Except.bind]
          | ok updated => simp [hstatus, hcreated, hupdated, bind, Except.bind, pure,
              Except.pure] at h

/-! ## What the lifecycle allows -/

inductive Transition : RunStatus → RunStatus → Prop
  | start : Transition .queued .running
  | pause : Transition .running .paused
  | resume : Transition .paused .running
  | cancelQueued : Transition .queued .cancelled
  | cancelRunning : Transition .running .cancelled
  | cancelPaused : Transition .paused .cancelled

def RunStatus.Terminal (s : RunStatus) : Prop :=
  s = .completed ∨ s = .failed ∨ s = .cancelled

theorem Transition.not_terminal {s t : RunStatus} : Transition s t → ¬ s.Terminal := by
  intro h
  cases h <;> simp [RunStatus.Terminal]

theorem Handler.transition {h : Handler} {s : RunStatus} :
    s ∈ h.allowedFrom → Transition s h.next := by
  intro hs
  cases h <;> simp only [allowedFrom, mem_cons, not_mem_nil, or_false] at hs
  · rcases hs with rfl | rfl
    · exact .start
    · exact .resume
  · rw [hs]
    exact .pause
  · rw [hs]
    exact .resume
  · rcases hs with rfl | rfl | rfl
    · exact .cancelQueued
    · exact .cancelRunning
    · exact .cancelPaused

/-- `start` may leave `queued` for `running`, `resume` may not; else a handler allows what the
lifecycle does. -/
theorem Handler.mem_allowedFrom {h : Handler} {s : RunStatus} :
    Transition s h.next → ¬ (h = .resume ∧ s = .queued) → s ∈ h.allowedFrom := by
  intro htrans hne
  cases h with
  | start => cases htrans <;> simp [allowedFrom]
  | pause => cases htrans; simp [allowedFrom]
  | resume => cases htrans <;> simp_all [allowedFrom]
  | stop => cases htrans <;> simp [allowedFrom]

/-- The column moves along a transition. -/
def Moves (before after : Option String) : Prop :=
  ∃ s t : RunStatus, before = some s.asStr ∧ after = some t.asStr ∧ Transition s t

/-! ## What is written -/

/-- An `UPDATE` that found its row. -/
structure Write where
  request : Nat
  before : Option String
  after : Option String
  deriving DecidableEq, Repr

def writes (clock : Clock T) (id : String) (s : Server T) (e : Event T) : List Write :=
  match s.requests[e.request]?, e.dbError with
  | some { handler := _, phase := .write }, none =>
    if rowsAffected s.db id = 0 then
      []
    else
      [{ request := e.request
         before := statusText s.db id
         after := statusText (step clock id s e).db id }]
  | _, _ => []

/-- The `UPDATE`s of a schedule, in order. -/
def history (clock : Clock T) (id : String) (s₀ : Server T) (es : List (Event T)) : List Write :=
  outputs (step clock id) (writes clock id) s₀ es

/-- The statuses stored for the run, in order. -/
def stored (clock : Clock T) (id : String) (s₀ : Server T) (es : List (Event T)) :
    List (Option String) :=
  statusText s₀.db id :: (history clock id s₀ es).map Write.after

def writesOf (i : Nat) (ws : List Write) : List Write :=
  ws.filter fun w => w.request == i

/-- How a request's phase moves on without an `UPDATE`. -/
inductive Quiet (clock : Clock T) (id : String) (db : List RunRow) (h : Handler) :
    Phase T → Phase T → Prop
  | checked : Quiet clock id db h .check (afterCheck h (getRun clock db id))
  | missed : statusText db id = none →
      Quiet clock id db h .write (.done (.error (.notFound ("run " ++ id))))
  | answered : Quiet clock id db h .readBack (.done (getRun clock db id))
  | idle (response : Except ApiError (Run T)) :
      Quiet clock id db h (.done response) (.done response)
  | failed (p : Phase T) (m : String) : Quiet clock id db h p (.done (.error (.db m)))

theorem set_getElem?_self {requests : List (Request T)} {i : Nat} {r : Request T} :
    requests[i]? = some r → requests.set i r = requests := by
  intro h
  obtain ⟨hi, rfl⟩ := List.getElem?_eq_some_iff.1 h
  exact set_getElem_self hi

theorem writes_update {e : Event T} {r : Request T} {text : String} :
    s.requests[e.request]? = some r → r.phase = .write → e.dbError = none →
      statusText s.db id = some text →
        writes clock id s e = [⟨e.request, some text, some r.handler.next.asStr⟩] := by
  intro hreq hphase herr htext
  rcases r with ⟨h, phase⟩
  cases hphase
  have hrows : rowsAffected s.db id ≠ 0 := by
    rw [Ne, rowsAffected_eq_zero, htext]
    simp
  simp [writes, hreq, herr, hrows, htext, step, execute, statusText_updateRunStatus]

/-- All that a step can do: nothing, move one request on without an `UPDATE`, or run an `UPDATE`
that finds its row. -/
theorem step_cases (s : Server T) (e : Event T) :
    (step clock id s e = s ∧ writes clock id s e = []) ∨
    (∃ r p, s.requests[e.request]? = some r ∧ Quiet clock id s.db r.handler r.phase p ∧
      (step clock id s e).requests = s.requests.set e.request { r with phase := p } ∧
      statusText (step clock id s e).db id = statusText s.db id ∧ writes clock id s e = []) ∨
    (∃ r text, s.requests[e.request]? = some r ∧ r.phase = .write ∧ e.dbError = none ∧
      statusText s.db id = some text ∧
      (step clock id s e).requests = s.requests.set e.request { r with phase := .readBack } ∧
      statusText (step clock id s e).db id = some r.handler.next.asStr ∧
      writes clock id s e = [⟨e.request, some text, some r.handler.next.asStr⟩]) := by
  cases hreq : s.requests[e.request]? with
  | none =>
    simp [step, writes, hreq]
  | some r =>
    rcases r with ⟨h, phase⟩
    right
    cases herr : e.dbError with
    | some m =>
      left
      -- a failing statement ends the request, unless it has answered already
      cases phase with
      | done response =>
        refine ⟨_, _, rfl, .idle response, ?_, ?_, ?_⟩
        · simp [step, hreq, herr, abort, set_getElem?_self hreq]
        · simp [step, hreq, herr, abort]
        · simp [writes, hreq, herr]
      | _ =>
        refine ⟨_, _, rfl, .failed _ m, ?_, ?_, ?_⟩
        · simp [step, hreq, herr, abort]
        · simp [step, hreq, herr, abort]
        · simp [writes, hreq, herr]
    | none =>
      cases phase with
      | check =>
        left
        refine ⟨_, _, rfl, .checked, ?_, ?_, ?_⟩
        · simp [step, hreq, herr, execute, nextPhase]
        · simp [step, hreq, herr, execute]
        · simp [writes, hreq, herr]
      | write =>
        cases htext : statusText s.db id with
        | none =>
          -- no row has this id, so the `UPDATE` touches nothing
          have hrows := rowsAffected_eq_zero.2 htext
          left
          refine ⟨_, _, rfl, .missed htext, ?_, ?_, ?_⟩
          · simp [step, hreq, herr, execute, nextPhase, hrows]
          · simp [step, hreq, herr, execute, statusText_updateRunStatus, htext]
          · simp [writes, hreq, herr, hrows]
        | some text =>
          -- the `UPDATE` finds the row, whatever status it has by now
          have hrows : rowsAffected s.db id ≠ 0 := by
            rw [Ne, rowsAffected_eq_zero, htext]
            simp
          have hafter : statusText (step clock id s e).db id = some h.next.asStr := by
            simp [step, hreq, herr, execute, statusText_updateRunStatus, htext]
          right
          refine ⟨_, text, rfl, rfl, rfl, rfl, ?_, hafter, writes_update hreq rfl herr htext⟩
          simp [step, hreq, herr, execute, nextPhase, hrows]
      | readBack =>
        left
        refine ⟨_, _, rfl, .answered, ?_, ?_, ?_⟩
        · simp [step, hreq, herr, execute, nextPhase]
        · simp [step, hreq, herr, execute]
        · simp [writes, hreq, herr]
      | done response =>
        left
        refine ⟨_, _, rfl, .idle response, ?_, ?_, ?_⟩
        · simp [step, hreq, herr, execute, nextPhase, set_getElem?_self hreq]
        · simp [step, hreq, herr, execute]
        · simp [writes, hreq, herr]

/-! ## Every run, raced or not -/

/-- What the writes of a request say about its phase. -/
def Settled : Phase T → List Write → Prop
  | .check, ws => ws = []
  | .write, ws => ws = []
  | .readBack, ws => ∃ w, ws = [w]
  | .done (.ok _), ws => ∃ w, ws = [w]
  | .done (.error (.conflict _)), ws => ws = []
  | .done (.error _), _ => True

variable {ws : List Write}

theorem Quiet.settled {h : Handler} {p q : Phase T} :
    Quiet clock id db h p q → Settled p ws → Settled q ws := by
  intro hquiet hws
  cases hquiet with
  | checked =>
    cases hget : getRun clock db id with
    | error err =>
      cases err with
      | conflict m => exact hws
      | _ => trivial
    | ok current =>
      by_cases hmem : current.status ∈ h.allowedFrom
      · simpa [afterCheck, hmem, Settled] using hws
      · simpa [afterCheck, hmem, Settled] using hws
  | missed _ => trivial
  | answered =>
    cases hget : getRun clock db id with
    | error err =>
      cases err with
      | conflict m => exact absurd hget getRun_ne_conflict
      | _ => trivial
    | ok current => exact hws
  | idle response => exact hws
  | failed p m => trivial

/-- The invariant of every run: writes link up with the stored status, and each request has
written as its phase says. -/
structure Consistent (id : String) (s₀ : Server T) (s : Server T) (ws : List Write) : Prop where
  last : (statusText s₀.db id :: ws.map Write.after).getLast? = some (statusText s.db id)
  settled : ∀ i r, s.requests[i]? = some r → Settled r.phase (writesOf i ws)

theorem writesOf_append_self {i : Nat} :
    writesOf i (ws ++ [⟨i, a, b⟩]) = writesOf i ws ++ [⟨i, a, b⟩] := by
  simp [writesOf]

theorem writesOf_append_other {i j : Nat} :
    i ≠ j → writesOf j (ws ++ [⟨i, a, b⟩]) = writesOf j ws := by
  intro h
  simp [writesOf, h]

theorem consistent_step {s₀ : Server T} {e : Event T} :
    Consistent id s₀ s ws → Consistent id s₀ (step clock id s e) (ws ++ writes clock id s e) := by
  intro h
  rcases @step_cases _ clock id s e with ⟨hs, hw⟩ |
    ⟨r, p, hreq, hquiet, hset, htext, hw⟩ | ⟨r, text, hreq, hphase, _, _, hset, htext, hw⟩
  · rw [hs, hw, append_nil]
    exact h
  · rw [hw, append_nil]
    refine ⟨by rw [htext]; exact h.last, ?_⟩
    intro i q hq
    rw [hset, getElem?_set] at hq
    split at hq
    · next hi =>
        subst hi
        have hlt := (List.getElem?_eq_some_iff.1 hreq).1
        rw [if_pos hlt] at hq
        cases hq
        exact hquiet.settled (h.settled _ r hreq)
    · exact h.settled i q hq
  · rw [hw]
    refine ⟨?_, ?_⟩
    · rw [map_append, ← cons_append, htext]
      exact getLast?_concat
    intro i q hq
    rw [hset, getElem?_set] at hq
    split at hq
    · next hi =>
        subst hi
        have hlt := (List.getElem?_eq_some_iff.1 hreq).1
        rw [if_pos hlt] at hq
        cases hq
        have hnone := h.settled _ r hreq
        rw [hphase] at hnone
        rw [writesOf_append_self, hnone]
        exact ⟨_, rfl⟩
    · next hi =>
        rw [writesOf_append_other hi]
        exact h.settled i q hq

theorem consistent_run {s₀ : Server T} {es : List (Event T)} :
    (∀ r ∈ s₀.requests, r.phase = .check) →
      Consistent id s₀ (run (step clock id) s₀ es) (history clock id s₀ es) := by
  intro hfresh
  have hstart : Consistent id s₀ s₀ [] := by
    refine ⟨rfl, ?_⟩
    intro i r hr
    rw [hfresh r (mem_of_getElem? hr)]
    rfl
  have hrun := invariant_outputs (Consistent id s₀) (fun _ _ e _ h => consistent_step h)
    (@along_true _ _ (step clock id) s₀ es) hstart
  simpa [history] using hrun

/-- A request that passed its check found its row, and `resume` did not find `queued`: no handler
writes that status. -/
def Checked (id : String) (s : Server T) : Prop :=
  ∀ (i : Nat) (r : Request T), s.requests[i]? = some r → r.phase = .write →
    ∃ text, statusText s.db id = some text ∧
      (r.handler = .resume → text ≠ RunStatus.queued.asStr)

theorem Handler.next_ne_queued (h : Handler) : h.next.asStr ≠ RunStatus.queued.asStr := by
  cases h <;> decide

theorem Quiet.checked_write {h : Handler} {p : Phase T} :
    Quiet clock id db h p .write → ∃ text, statusText db id = some text ∧
      (h = .resume → text ≠ RunStatus.queued.asStr) := by
  intro hquiet
  generalize hq : (Phase.write : Phase T) = q at hquiet
  cases hquiet with
  | checked =>
    cases hget : getRun clock db id with
    | error err => simp [hget, afterCheck] at hq
    | ok current =>
      by_cases hmem : current.status ∈ h.allowedFrom
      · refine ⟨_, statusText_of_getRun hget, ?_⟩
        intro hh
        subst hh
        have hpaused : current.status = .paused := by simpa [Handler.allowedFrom] using hmem
        rw [hpaused]
        decide
      · simp [hget, afterCheck, hmem] at hq
  | _ => cases hq

theorem checked_step {e : Event T} : Checked id s → Checked id (step clock id s e) := by
  intro h i q hq hphase
  rcases @step_cases _ clock id s e with ⟨hs, _⟩ |
    ⟨r, p, hreq, hquiet, hset, htext, _⟩ | ⟨r, text, hreq, _, _, _, hset, htext, _⟩
  · rw [hs] at hq ⊢
    exact h i q hq hphase
  · rw [htext]
    rw [hset, getElem?_set] at hq
    split at hq
    · split at hq
      · cases hq
        have hwrite : p = .write := hphase
        rw [hwrite] at hquiet
        exact hquiet.checked_write
      · cases hq
    · exact h i q hq hphase
  · -- Whoever waits for its `UPDATE` now finds the status just written.
    exact ⟨_, htext, fun _ => r.handler.next_ne_queued⟩

theorem checked_run {s₀ : Server T} {es : List (Event T)} :
    (∀ r ∈ s₀.requests, r.phase = .check) → Checked id (run (step clock id) s₀ es) := by
  intro hfresh
  refine invariant (Checked id) (fun _ _ _ h => checked_step h) along_true ?_
  intro i r hr hphase
  rw [hfresh r (mem_of_getElem? hr)] at hphase
  cases hphase

/-! ## Runs that keep to the lifecycle -/

/-- An `UPDATE` finds a status that its handler allows: no other `UPDATE` has moved the run away
since the check. -/
def StillAllowed (id : String) (s : Server T) (e : Event T) : Prop :=
  ∀ r, s.requests[e.request]? = some r → r.phase = .write → e.dbError = none →
    ∃ status ∈ r.handler.allowedFrom, statusText s.db id = some status.asStr

/-- What the lifecycle promises of a schedule. -/
structure Lifecycle (clock : Clock T) (id : String) (s₀ : Server T) (es : List (Event T)) :
    Prop where
  moves : (stored clock id s₀ es).IsChain Moves
  final : ∀ before after, es = before ++ after → ∀ status : RunStatus, status.Terminal →
    statusText (run (step clock id) s₀ before).db id = some status.asStr →
      statusText (run (step clock id) s₀ es).db id = some status.asStr
  ok : ∀ i r updated, (run (step clock id) s₀ es).requests[i]? = some r →
    r.phase = .done (.ok updated) →
      ∃ w, writesOf i (history clock id s₀ es) = [w] ∧ Moves w.before w.after
  conflict : ∀ i r m, (run (step clock id) s₀ es).requests[i]? = some r →
    r.phase = .done (.error (.conflict m)) → writesOf i (history clock id s₀ es) = []

theorem asStr_injective {s t : RunStatus} : s.asStr = t.asStr → s = t := by
  intro h
  have hparse := congrArg RunStatus.fromStr h
  simpa using hparse

theorem Moves.not_terminal {after : Option String} :
    Moves (some status.asStr) after → ¬ status.Terminal := by
  rintro ⟨s, t, hs, _, htrans⟩
  rw [asStr_injective (Option.some.inj hs)]
  exact htrans.not_terminal

theorem writes_moves {e : Event T} : StillAllowed id s e → ∀ w ∈ writes clock id s e,
      w.before = statusText s.db id ∧ w.after = statusText (step clock id s e).db id ∧
        Moves w.before w.after := by
  intro hallowed w hw
  rcases @step_cases _ clock id s e with ⟨_, hnil⟩ |
    ⟨_, _, _, _, _, _, hnil⟩ | ⟨r, text, hreq, hphase, herr, htext, _, hafter, hwrites⟩
  · simp [hnil] at hw
  · simp [hnil] at hw
  · obtain ⟨status, hmem, hstatus⟩ := hallowed r hreq hphase herr
    rw [hwrites, mem_singleton] at hw
    subst hw
    refine ⟨htext.symm, hafter.symm, status, r.handler.next, ?_, rfl, Handler.transition hmem⟩
    rw [← hstatus, htext]

theorem stored_append {s₀ : Server T} {before after : List (Event T)} :
    stored clock id s₀ (before ++ after) =
      stored clock id s₀ before ++
        (outputs (step clock id) (writes clock id) (run (step clock id) s₀ before) after).map
          Write.after := by
  simp [stored, history, outputs_append]

theorem terminal_step {e : Event T} :
    StillAllowed id s e → status.Terminal → statusText s.db id = some status.asStr →
      statusText (step clock id s e).db id = some status.asStr := by
  intro hallowed hterminal htext
  rcases @step_cases _ clock id s e with ⟨hs, _⟩ |
    ⟨_, _, _, _, _, hsame, _⟩ | ⟨r, text, _, _, _, _, _, _, hwrites⟩
  · rw [hs, htext]
  · rw [hsame, htext]
  · have hmove := @writes_moves _ clock _ _ _ hallowed _ (by rw [hwrites]; exact mem_singleton.2 rfl)
    rw [hmove.1, htext] at hmove
    exact absurd hterminal hmove.2.2.not_terminal

theorem history_moves {s₀ : Server T} {es : List (Event T)} :
    Along (step clock id) (StillAllowed id) s₀ es →
      ∀ w ∈ history clock id s₀ es, Moves w.before w.after := by
  intro halong
  refine invariant_outputs (fun _ acc => ∀ w : Write, w ∈ acc → Moves w.before w.after) ?_ halong
    (forall_mem_nil _)
  intro s acc e hallowed hacc w hw
  rcases mem_append.1 hw with hold | hnew
  · exact hacc w hold
  · exact (writes_moves hallowed w hnew).2.2

/-- The statuses stored so far move along transitions, and the last one is the column's. -/
def Chained (id : String) (s₀ s : Server T) (ws : List Write) : Prop :=
  (statusText s₀.db id :: ws.map Write.after).IsChain Moves ∧
    (statusText s₀.db id :: ws.map Write.after).getLast? = some (statusText s.db id)

theorem chained_step {s₀ : Server T} {e : Event T} : StillAllowed id s e → Chained id s₀ s ws →
      Chained id s₀ (step clock id s e) (ws ++ writes clock id s e) := by
  rintro hallowed ⟨hchain, hlast⟩
  rcases @step_cases _ clock id s e with ⟨hs, hw⟩ |
    ⟨_, _, _, _, _, hsame, hw⟩ | ⟨r, text, _, _, _, _, _, hafter, hw⟩
  · rw [hs, hw, append_nil]
    exact ⟨hchain, hlast⟩
  · rw [Chained, hw, hsame, append_nil]
    exact ⟨hchain, hlast⟩
  · have hmove := @writes_moves _ clock _ _ _ hallowed _
      (by rw [hw]; exact mem_singleton.2 rfl)
    rw [Chained, hw, map_append, ← cons_append, hafter]
    refine ⟨isChain_append.2 ⟨hchain, isChain_singleton _, ?_⟩, getLast?_concat⟩
    intro x hx y hy
    rw [hlast, Option.mem_some_iff] at hx
    simp only [map_cons, map_nil, head?_cons, Option.mem_some_iff] at hy
    rw [← hx, ← hy, ← hmove.1]
    exact hmove.2.2

theorem stored_isChain {s₀ : Server T} {es : List (Event T)} :
    Along (step clock id) (StillAllowed id) s₀ es → (stored clock id s₀ es).IsChain Moves := by
  intro halong
  have hstart : Chained id s₀ s₀ [] := ⟨isChain_singleton _, rfl⟩
  exact (invariant_outputs (Chained id s₀) (fun _ _ e hallowed h => chained_step hallowed h)
    halong hstart).1

theorem lifecycle_of_stillAllowed {s₀ : Server T} {es : List (Event T)} :
    (∀ r ∈ s₀.requests, r.phase = .check) → Along (step clock id) (StillAllowed id) s₀ es →
      Lifecycle clock id s₀ es := by
  intro hfresh halong
  have hcons := @consistent_run _ clock id _ es hfresh
  refine ⟨stored_isChain halong, ?_, ?_, ?_⟩
  · intro before after heq status hterminal htext
    rw [heq, along_append] at halong
    rw [heq, run_append]
    exact invariant (fun s => statusText s.db id = some status.asStr)
      (fun _ _ hallowed h => terminal_step hallowed hterminal h) halong.2 htext
  · intro i r updated hr hphase
    have hsettled := hcons.settled i r hr
    rw [hphase] at hsettled
    obtain ⟨w, hw⟩ := hsettled
    refine ⟨w, hw, history_moves halong w ?_⟩
    have hmem : w ∈ writesOf i (history clock id s₀ es) := by
      rw [hw]
      exact mem_singleton.2 rfl
    exact mem_of_mem_filter hmem
  · intro i r m hr hphase
    have hsettled := hcons.settled i r hr
    rw [hphase] at hsettled
    exact hsettled

/-- A schedule of requests on one run keeps to the lifecycle exactly when each `UPDATE` still finds
a status that its handler allows. -/
theorem lifecycle_iff {s₀ : Server T} {es : List (Event T)} :
    (∀ r ∈ s₀.requests, r.phase = .check) →
      (Lifecycle clock id s₀ es ↔ Along (step clock id) (StillAllowed id) s₀ es) := by
  intro hfresh
  refine ⟨?_, lifecycle_of_stillAllowed hfresh⟩
  intro hlife
  rw [along_iff]
  intro before e after heq r hreq hphase herr
  have hcons := @consistent_run _ clock id _ before hfresh
  obtain ⟨text, htext, hresume⟩ := @checked_run _ clock id _ before hfresh _ r hreq hphase
  -- The status before the `UPDATE` and the one it writes are neighbours in the stored sequence.
  have hmove : Moves (some text) (some r.handler.next.asStr) := by
    have hchain := hlife.moves
    rw [heq, stored_append, outputs, writes_update hreq hphase herr htext] at hchain
    refine (isChain_append.1 hchain).2.2 _ ?_ _ rfl
    rw [stored, hcons.last, htext]
    rfl
  obtain ⟨status, next, hstatus, hnext, htrans⟩ := hmove
  rw [← asStr_injective (Option.some.inj hnext)] at htrans
  refine ⟨status, Handler.mem_allowedFrom htrans ?_, by rw [htext, hstatus]⟩
  rintro ⟨hh, rfl⟩
  exact hresume hh (Option.some.inj hstatus)

/-! ### Two requests on a running run -/

/-- A clock that never moves. -/
def stoppedClock : Clock Unit where
  toRfc3339 := fun _ => "2024-01-01T00:00:00+00:00"
  parseFromRfc3339 := fun _ => .ok ()

def runningRow : RunRow where
  id := "r"
  status := "running"
  title := none
  cfgJson := "\x7b\x7d"
  sweepId := none
  createdAt := "2024-01-01T00:00:00+00:00"
  updatedAt := "2024-01-01T00:00:00+00:00"

/-- A `stop` and a `pause` arrive while the run is running. -/
def stopAndPause : Server Unit where
  db := [runningRow]
  published := []
  requests := [⟨.stop, .check⟩, ⟨.pause, .check⟩]

theorem stopAndPause_fresh : ∀ r ∈ stopAndPause.requests, r.phase = .check := by
  intro r hr
  simp only [stopAndPause, mem_cons, not_mem_nil, or_false] at hr
  rcases hr with rfl | rfl <;> rfl

def order (requests : List Nat) : List (Event Unit) :=
  requests.map fun i => { request := i, now := (), dbError := none }

/-- One request after the other: the second one is refused. -/
theorem stop_then_pause :
    Lifecycle stoppedClock "r" stopAndPause (order [0, 0, 0, 1]) := by
  refine (lifecycle_iff stopAndPause_fresh).2 ?_
  refine ⟨?_, ?_, ?_, ?_, trivial⟩ <;> intro r hr hphase _
  · cases hr
    cases hphase
  · cases hr
    exact ⟨.running, by decide, rfl⟩
  · cases hr
    cases hphase
  · cases hr
    cases hphase

/-- Both checks run before both `UPDATE`s: the cancelled run is paused. -/
theorem stop_races_pause :
    (∀ r ∈ stopAndPause.requests, r.phase = .check) ∧
      ¬ Lifecycle stoppedClock "r" stopAndPause (order [0, 1, 0, 1, 0, 1]) := by
  refine ⟨stopAndPause_fresh, ?_⟩
  intro h
  have hchain : [some "running", some RunStatus.cancelled.asStr, some "paused"].IsChain Moves :=
    h.moves
  have hmove : Moves (some RunStatus.cancelled.asStr) (some "paused") := by
    simpa using hchain.tail
  exact hmove.not_terminal (Or.inr (Or.inr rfl))

end Console
end Rustorch
