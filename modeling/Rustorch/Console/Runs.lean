import Rustorch.Lib.Runs

/-!
# The lifecycle requests of a run

`POST /runs/{id}/start`, `/pause`, `/resume` and `/stop` all go through `trigger`, which reads the
row, checks its status and writes the new one.  The three statements of a request are separate SQL
statements, so requests in flight interleave between them.
-/

namespace Rustorch
namespace Console

inductive ApiError
  | notFound (m : String)
  | invalidArg (m : String)
  | conflict (m : String)
  | internal (m : String)
  | db (m : String)
  deriving DecidableEq, Repr

inductive RunStatus
  | queued
  | running
  | paused
  | completed
  | failed
  | cancelled
  deriving DecidableEq, Repr

namespace RunStatus

def asStr : RunStatus → String
  | queued => "queued"
  | running => "running"
  | paused => "paused"
  | completed => "completed"
  | failed => "failed"
  | cancelled => "cancelled"

def fromStr (s : String) : Except ApiError RunStatus :=
  match s with
  | "queued" => .ok queued
  | "running" => .ok running
  | "paused" => .ok paused
  | "completed" => .ok completed
  | "failed" => .ok failed
  | "cancelled" => .ok cancelled
  | other => .error (.invalidArg ("unknown status: " ++ other))

/-- The derived `Debug` text. -/
def debug : RunStatus → String
  | queued => "Queued"
  | running => "Running"
  | paused => "Paused"
  | completed => "Completed"
  | failed => "Failed"
  | cancelled => "Cancelled"

@[simp] theorem fromStr_asStr (s : RunStatus) : fromStr s.asStr = .ok s := by
  cases s <;> rfl

theorem asStr_of_fromStr {text : String} {s : RunStatus} :
    fromStr text = .ok s → text = s.asStr := by
  intro h
  unfold fromStr at h
  split at h <;> cases h <;> rfl

end RunStatus

/-- `chrono`: a time prints as text, a text may parse back. -/
structure Clock (T : Type) where
  toRfc3339 : T → String
  parseFromRfc3339 : String → Except String T

/-- A row of the table `runs`. -/
structure RunRow where
  id : String
  status : String
  title : Option String
  cfgJson : String
  sweepId : Option String
  createdAt : String
  updatedAt : String
  deriving DecidableEq, Repr

structure Run (T : Type) where
  id : String
  status : RunStatus
  title : Option String
  cfgJson : String
  sweepId : Option String
  createdAt : T
  updatedAt : T
  deriving DecidableEq, Repr

section Db

variable {T : Type} (clock : Clock T)

def parseTs (s : String) : Except ApiError T :=
  (clock.parseFromRfc3339 s).mapError fun e => .internal ("ts parse: " ++ e)

def Run.tryFrom (r : RunRow) : Except ApiError (Run T) := do
  let status ← RunStatus.fromStr r.status
  let createdAt ← parseTs clock r.createdAt
  let updatedAt ← parseTs clock r.updatedAt
  return {
    id := r.id
    status := status
    title := r.title
    cfgJson := r.cfgJson
    sweepId := r.sweepId
    createdAt := createdAt
    updatedAt := updatedAt }

def getRun (db : List RunRow) (id : String) : Except ApiError (Run T) :=
  match db.find? (fun r => r.id == id) with
  | none => .error (.notFound ("run " ++ id))
  | some r => Run.tryFrom clock r

/-- `UPDATE runs SET status = ?, updated_at = ? WHERE id = ?`. -/
def updateRunStatus (db : List RunRow) (id : String) (status : RunStatus) (now : T) :
    List RunRow :=
  db.map fun r =>
    if r.id == id then { r with status := status.asStr, updatedAt := clock.toRfc3339 now } else r

def rowsAffected (db : List RunRow) (id : String) : Nat :=
  (db.filter fun r => r.id == id).length

end Db

/-! ## Requests in flight -/

/-- The four handlers. -/
inductive Handler
  | start
  | pause
  | resume
  | stop
  deriving DecidableEq, Repr

namespace Handler

/-- The status that the handler passes to `trigger`. -/
def next : Handler → RunStatus
  | start => .running
  | pause => .paused
  | resume => .running
  | stop => .cancelled

def allowedFrom : Handler → List RunStatus
  | start => [.queued, .paused]
  | pause => [.running]
  | resume => [.paused]
  | stop => [.queued, .running, .paused]

end Handler

/-- Where a request stands: before its `SELECT`, with its check passed and the `UPDATE` to come,
before the `SELECT` that reads the row back, or answered. -/
inductive Phase (T : Type)
  | check
  | write
  | readBack
  | done (response : Except ApiError (Run T))

structure Request (T : Type) where
  handler : Handler
  phase : Phase T

/-- The database, the published events and the requests in flight, all about one run. -/
structure Server (T : Type) where
  db : List RunRow
  published : List (String × RunStatus)
  requests : List (Request T)

/-- One request executes its next statement.  `now` is the clock's reading at an `UPDATE`; a
statement that fails with `dbError` changes nothing. -/
structure Event (T : Type) where
  request : Nat
  now : T
  dbError : Option String

section Trigger

variable {T : Type} (clock : Clock T) (id : String)

/-- `trigger` up to the `UPDATE`. -/
def afterCheck (handler : Handler) : Except ApiError (Run T) → Phase T
  | .error e => .done (.error e)
  | .ok current =>
    if current.status ∈ handler.allowedFrom then
      .write
    else
      .done (.error (.conflict
        ("cannot transition " ++ current.status.debug ++ " → " ++ handler.next.debug)))

/-- The phase that a statement leaves its request in. -/
def nextPhase (db : List RunRow) (r : Request T) : Phase T :=
  match r.phase with
  | .check => afterCheck r.handler (getRun clock db id)
  | .write => if rowsAffected db id = 0 then .done (.error (.notFound ("run " ++ id))) else .readBack
  | .readBack => .done (getRun clock db id)
  | .done response => .done response

/-- The next statement of a request, without a database error. -/
def execute (s : Server T) (i : Nat) (r : Request T) (now : T) : Server T where
  db :=
    match r.phase with
    | .write => updateRunStatus clock s.db id r.handler.next now
    | _ => s.db
  published :=
    match r.phase, getRun clock s.db id with
    | .readBack, .ok updated => s.published ++ [(updated.id, updated.status)]
    | _, _ => s.published
  requests := s.requests.set i { r with phase := nextPhase clock id s.db r }

/-- A failed statement ends its request; an answered request has no statement left. -/
def abort (s : Server T) (i : Nat) (r : Request T) (m : String) : Server T :=
  match r.phase with
  | .done _ => s
  | _ => { s with requests := s.requests.set i { r with phase := .done (.error (.db m)) } }

def step (s : Server T) (e : Event T) : Server T :=
  match s.requests[e.request]? with
  | none => s
  | some r =>
    match e.dbError with
    | some m => abort s e.request r m
    | none => execute clock id s e.request r e.now

end Trigger

end Console
end Rustorch
