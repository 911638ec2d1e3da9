import Mathlib.Data.List.Rotate
import Rustorch.Console.Runs
import Rustorch.Sweep.Spec

/-!
# Sweeps in the database

`POST /sweeps` plans the trials, answers with them and stores what it planned from, as JSON text.
`GET /sweeps/{id}` plans again.  The two plans have the same trials exactly when the order of the
combinations does not depend on the clock, or does not matter (`replans_iff`).

`serde_json`, the generator, the clock and the ids come from outside.  `ApiError::Json` answers as
`InvalidArg` does.  The fields of the configurations that planning does not read are left out.
-/

namespace Rustorch
namespace Console

open Sweep List Option Runs
open Outcome (bind_eq_ok mapErr ofExcept ofExcept_ok ok_bind pure_eq)

structure AxisInput (N : Type) where
  name : String
  values : Json N

structure CreateSweepBody (N : Type) where
  strategy : String
  config : Json N
  axes : List (AxisInput N)
  baseCfg : Json N

structure SweepResponse (N T : Type) where
  id : String
  strategy : String
  status : String
  trials : List (Trial N)
  createdAt : T

/-- A row of the table `sweeps`. -/
structure SweepRow where
  id : String
  strategy : String
  status : String
  specJson : String
  baseCfgJson : String
  createdAt : String
  updatedAt : String
  deriving DecidableEq, Repr

/-- `serde_json`: values as text and back, and the typed readings of a value. -/
structure Serde (N : Type) where
  toText : Json N → String
  fromText : String → Except String (Json N)
  randomConfig : Json N → Except String RandomConfig
  ashaConfig : Json N → Except String AshaConfig
  bayesConfig : Json N → Except String BayesConfig
  axisInputs : Json N → Except String (List (AxisInput N))

/-- What a request is served with: the environment of the planner, a fresh id and the time. -/
structure Moment (N T : Type) where
  env : Env N
  newId : String
  now : T

section Code

variable {N T : Type} (mach : Machine) (serde : Serde N) (clock : Clock T)

def sweepErrorText : SweepError → String
  | .axisNotArray text => "axis `" ++ text ++ "` must be a JSON array"
  | .emptyAxes => "sweep must have at least one axis"
  | .baseCfgNotObject => "base cfg must be a JSON object"

/-- `value.get(key)` -/
def Json.get (key : String) : Json N → Option (Json N)
  | .object entries => (entries.find? fun e => e.1 == key).map Prod.snd
  | _ => none

/-- The strategy of a request. -/
def requestedStrategy (name : String) (config : Json N) : Except ApiError Strategy :=
  match name with
  | "grid" => .ok .grid
  | "random" =>
    match serde.randomConfig config with
    | .ok cfg => .ok (.random { trials := cfg.trials, seed := cfg.seed })
    | .error e => .error (.invalidArg ("random config: " ++ e))
  | "asha" =>
    match serde.ashaConfig config with
    | .ok cfg => .ok (.asha cfg)
    | .error e => .error (.invalidArg ("asha config: " ++ e))
  | "bayes" =>
    match serde.bayesConfig config with
    | .ok cfg => .ok (.bayes cfg)
    | .error e => .error (.invalidArg ("bayes config: " ++ e))
  | other => .error (.invalidArg ("unknown strategy: " ++ other))

/-- The strategy of a row, with defaults where its configuration is not read. -/
def persistedStrategy (name : String) (config : Json N) : Except ApiError Strategy :=
  match name with
  | "grid" => .ok .grid
  | "random" =>
    -- `unwrap_or`: a configuration that is not read loses its seed
    let cfg := (serde.randomConfig config).toOption.getD { trials := 1, seed := none }
    .ok (.random { trials := cfg.trials, seed := cfg.seed })
  | "asha" =>
    .ok (.asha ((serde.ashaConfig config).toOption.getD
      { eta := 3, minResource := 1, maxResource := 27 }))
  | "bayes" =>
    .ok (.bayes ((serde.bayesConfig config).toOption.getD { trials := 30, seed := none }))
  | _ => .error (.internal "bad persisted strategy")

/-- The loop of `builder.add`, with the error of the handler. -/
def addAxes (wrap : String → ApiError) (label : String) (spec : SweepSpec N)
    (axes : List (AxisInput N)) : Except ApiError (SweepSpec N) :=
  axes.foldlM
    (fun spec axis => (spec.add axis.name axis.values).mapError fun e =>
      wrap (label ++ axis.name ++ ": " ++ sweepErrorText e))
    spec

def axesJson (axes : List (AxisInput N)) : Json N :=
  .array (axes.map fun a => .object [("name", .string a.name), ("values", a.values)])

/-- What is stored of a request; the keys are in order. -/
def specJson (strategyName : String) (body : CreateSweepBody N) : Json N :=
  .object [("axes", axesJson body.axes), ("config", body.config),
    ("strategy", .string strategyName)]

/-- The specification that a request is planned from. -/
def requestedSpec (body : CreateSweepBody N) : Except ApiError (SweepSpec N) := do
  let strategy ← requestedStrategy serde body.strategy.toLower body.config
  addAxes .invalidArg "axis " { strategy, axes := [] } body.axes

/-- The trials of a request. -/
def requestedTrials (env : Env N) (body : CreateSweepBody N) :
    Outcome ApiError (List (Trial N)) := do
  let spec ← ofExcept (requestedSpec serde body)
  mapErr (fun e => .invalidArg ("plan: " ++ sweepErrorText e))
    (spec.plan mach env body.baseCfg)

/-- `POST /sweeps`.  The id is a primary key. -/
def createSweep (at' : Moment N T) (db : List SweepRow) (body : CreateSweepBody N) :
    Outcome ApiError (SweepResponse N T × List SweepRow) := do
  let strategyName := body.strategy.toLower
  let trials ← requestedTrials mach serde at'.env body
  if db.any fun r => r.id == at'.newId then
    .err (.db "UNIQUE constraint failed: sweeps.id")
  else
    let row : SweepRow := {
      id := at'.newId
      strategy := strategyName
      status := "pending"
      specJson := serde.toText (specJson strategyName body)
      baseCfgJson := serde.toText body.baseCfg
      createdAt := clock.toRfc3339 at'.now
      updatedAt := clock.toRfc3339 at'.now }
    let response : SweepResponse N T := {
      id := at'.newId
      strategy := strategyName
      status := "pending"
      trials
      createdAt := at'.now }
    -- the trials are answered and not stored
    return (response, db ++ [row])

/-- The request that a row is read back as. -/
def persistedBody (row : SweepRow) : Except ApiError (CreateSweepBody N) := do
  let parsed ← (serde.fromText row.specJson).mapError .invalidArg
  let baseCfg ← (serde.fromText row.baseCfgJson).mapError .invalidArg
  return {
    strategy := row.strategy
    config := (Json.get "config" parsed).getD (.object [])
    axes := ((Json.get "axes" parsed).bind fun v => (serde.axisInputs v).toOption).getD []
    baseCfg }

/-- `GET /sweeps/{id}`. -/
def getSweep (at' : Moment N T) (db : List SweepRow) (id : String) :
    Outcome ApiError (SweepResponse N T) :=
  match db.find? fun r => r.id == id with
  | none => .err (.notFound ("sweep " ++ id))
  | some row => do
    let body ← ofExcept (persistedBody serde row)
    -- the seed of a request without one was not stored, so the clock gives another
    let strategy ← ofExcept (persistedStrategy serde row.strategy body.config)
    let spec ← ofExcept
      (addAxes .internal "replan axis " { strategy, axes := [] } body.axes)
    let trials ← mapErr (fun e => .internal ("replan: " ++ sweepErrorText e))
      (spec.plan mach at'.env body.baseCfg)
    return {
      id
      strategy := row.strategy
      status := row.status
      trials
      createdAt := (clock.parseFromRfc3339 row.createdAt).toOption.getD at'.now }

/-- `UPDATE sweeps SET status = 'cancelled', .. WHERE id = ? AND status != 'completed'` -/
def cancelSweep (at' : Moment N T) (db : List SweepRow) (id : String) : List SweepRow :=
  db.map fun r =>
    if r.id == id && r.status != "completed" then
      { r with status := "cancelled", updatedAt := clock.toRfc3339 at'.now }
    else
      r

/-- The requests about sweeps. -/
inductive SweepCall (N : Type)
  | create (body : CreateSweepBody N)
  | list
  | getOne (id : String)
  | cancel (id : String)

/-- The database after a request. -/
def sweepStep (db : List SweepRow) (call : SweepCall N × Moment N T) : List SweepRow :=
  match call.1 with
  | .create body =>
    match createSweep mach serde clock call.2 db body with
    | .ok (_, db') => db'
    | _ => db
  | .list | .getOne _ => db
  | .cancel id => cancelSweep clock call.2 db id

end Code

/-! ## Replanning -/

section Meaning

variable {N T : Type}

/-- What a client reads of a trial besides its id. -/
def content (t : Trial N) : Json N × Json N × Option UInt32 :=
  (t.cfg, t.axes, t.rungBudget)

/-- A generator: what it makes of a list depends on the seed only. -/
abbrev Generator (N : Type) : Type := UInt64 → Shuffle (List (Json N))

def Moment.uses (at' : Moment N T) (rng : Generator N) : Prop :=
  at'.env.stdRng = rng

/-- Whatever the generator, each sweep that the request made is read back with the trials that were
announced, at any later time. -/
def Replans (mach : Machine) (serde : Serde N) (clock : Clock T) (body : CreateSweepBody N) :
    Prop :=
  ∀ (rng : Generator N) (posted got : Moment N T), posted.uses rng → got.uses rng →
    ∀ db response db', createSweep mach serde clock posted db body = .ok (response, db') →
      ∀ calls : List (SweepCall N × Moment N T), ∃ response',
        getSweep mach serde clock got (run (sweepStep mach serde clock) db' calls)
          response.id = .ok response' ∧
        response'.trials.map content = response.trials.map content

/-- `serde_json` gives back what a request stores. -/
structure RoundTrips (serde : Serde N) (body : CreateSweepBody N) : Prop where
  spec : serde.fromText (serde.toText (specJson body.strategy.toLower body)) =
    .ok (specJson body.strategy.toLower body)
  base : serde.fromText (serde.toText body.baseCfg) = .ok body.baseCfg
  axes : serde.axisInputs (axesJson body.axes) = .ok body.axes

/-- The number of trials and the seed of the strategies that draw. -/
def draws : Strategy → Option RandomConfig
  | .random cfg => some cfg
  | .bayes cfg => some { trials := cfg.trials, seed := cfg.seed }
  | .grid | .asha _ => none

/-- No trial is drawn, or all combinations make the same one. -/
def OrderFree (mach : Machine) (spec : SweepSpec N) (base : Json N) (trials : Nat) : Prop :=
  (∀ size, cartesianSize mach spec.axes = .ok size → min trials size = 0) ∨
    ∀ combo ∈ cartesian spec.axes, ∀ combo' ∈ cartesian spec.axes,
      content (makeTrial "" base spec.axes combo none) =
        content (makeTrial "" base spec.axes combo' none)

/-- A strategy that draws has a seed, or its order does not matter. -/
def Seeded (mach : Machine) (serde : Serde N) (body : CreateSweepBody N) : Prop :=
  ∀ spec cfg, requestedSpec serde body = .ok spec → draws spec.strategy = some cfg →
    cfg.seed = none → OrderFree mach spec body.baseCfg cfg.trials

end Meaning

/-! ## The plans at two moments -/

section Plans

variable {N : Type} {mach : Machine} {env env' : Env N} {axes : List (Axis N)} {base : Json N}

/-- The content of a trial of a combination. -/
def comboContent (base : Json N) (axes : List (Axis N)) (combo : List (Json N)) :
    Json N × Json N × Option UInt32 :=
  content (makeTrial "" base axes combo none)

theorem content_makeTrial (id id' : String) (combo : List (Json N)) (b : Option UInt32) :
    content (makeTrial id base axes combo b) = content (makeTrial id' base axes combo b) := by
  cases base with
  | object entries => rfl
  | _ => rfl

theorem map_content_mapIdx (ids ids' : Nat → String) (combos : List (List (Json N)))
    (b : Option UInt32) :
    (combos.mapIdx fun i combo => makeTrial (ids i) base axes combo b).map content =
      (combos.mapIdx fun i combo => makeTrial (ids' i) base axes combo b).map content := by
  refine ext_getElem (by simp) ?_
  intro l hl hl'
  simp only [getElem_map, getElem_mapIdx]
  exact content_makeTrial _ _ _ _

theorem map_content_combos (ids : Nat → String) (combos : List (List (Json N))) :
    (combos.mapIdx fun i combo => makeTrial (ids i) base axes combo none).map content =
      combos.map (comboContent base axes) := by
  rw [map_content_mapIdx ids fun _ => ""]
  refine ext_getElem (by simp) ?_
  intro l hl hl'
  simp only [getElem_map, getElem_mapIdx]
  rfl

theorem map_content_rungs (eta : UInt32) (bs : List UInt32) :
    ∀ (survivors : List (List (Json N))) (out out' : List (Trial N)),
      out.map content = out'.map content →
        (rungs env eta base axes bs survivors out).map content =
          (rungs env' eta base axes bs survivors out').map content := by
  induction bs with
  | nil => exact fun _ _ _ h => h
  | cons budget rest ih =>
    intro survivors out out' h
    have hnext : (out ++ survivors.mapIdx fun i combo =>
          makeTrial (env.ulid (out.length + i)) base axes combo (some budget)).map content =
        (out' ++ survivors.mapIdx fun i combo =>
          makeTrial (env'.ulid (out'.length + i)) base axes combo (some budget)).map content := by
      rw [map_append, map_append, h]
      exact congrArg _ (map_content_mapIdx (fun i => env.ulid (out.length + i))
        (fun i => env'.ulid (out'.length + i)) survivors (some budget))
    rw [rungs, rungs]
    split
    · exact hnext
    · exact ih _ _ _ hnext

/-- The combinations that a drawing strategy takes at a moment. -/
def drawn (env : Env N) (cfg : RandomConfig) (axes : List (Axis N)) (size : Nat) :
    List (List (Json N)) :=
  ((env.stdRng (cfg.seed.getD env.nanos)).run (cartesian axes)).take (min cfg.trials size)

variable {cfg : RandomConfig} {spec : SweepSpec N} {trials : List (Trial N)}

theorem planRandom_eq {size : Nat} (hsize : cartesianSize mach axes = .ok size) :
    planRandom mach env cfg axes base =
      .ok ((drawn env cfg axes size).mapIdx fun i combo =>
        makeTrial (env.ulid i) base axes combo none) := by
  unfold planRandom drawn
  rw [hsize, ok_bind]
  cases cfg.seed with
  | none => rfl
  | some seed => rfl

theorem checks_of_plan (hplan : spec.plan mach env base = .ok trials) :
    base.isObject = true ∧ ¬ spec.axes.isEmpty = true := by
  unfold SweepSpec.plan at hplan
  split at hplan
  · cases hplan
  · next hobject =>
      split at hplan
      · cases hplan
      · next hempty => exact ⟨Bool.not_eq_false _ ▸ by simpa using hobject, hempty⟩

theorem plan_eq_planRandom (hdraws : draws spec.strategy = some cfg)
    (hobject : base.isObject = true) (hempty : ¬ spec.axes.isEmpty = true) (env : Env N) :
    spec.plan mach env base = planRandom mach env cfg spec.axes base := by
  unfold SweepSpec.plan
  rw [if_neg (not_not.2 hobject), if_neg hempty]
  cases hstrategy : spec.strategy with
  | grid =>
    rw [hstrategy] at hdraws
    cases hdraws
  | asha cfg =>
    rw [hstrategy] at hdraws
    cases hdraws
  | random cfg =>
    rw [hstrategy] at hdraws
    cases hdraws
    rfl
  | bayes cfg =>
    rw [hstrategy] at hdraws
    cases hdraws
    rfl

theorem plan_of_draws (hdraws : draws spec.strategy = some cfg)
    (hplan : spec.plan mach env base = .ok trials) :
    ∃ size, cartesianSize mach spec.axes = .ok size ∧
      ∀ env' : Env N, ∃ trials', spec.plan mach env' base = .ok trials' ∧
        trials'.map content = (drawn env' cfg spec.axes size).map (comboContent base spec.axes) := by
  obtain ⟨hobject, hempty⟩ := checks_of_plan hplan
  rw [plan_eq_planRandom hdraws hobject hempty] at hplan
  obtain ⟨size, hsize, _⟩ := bind_eq_ok.1 hplan
  refine ⟨size, hsize, fun env' => ⟨_, ?_, map_content_combos env'.ulid _⟩⟩
  rw [plan_eq_planRandom hdraws hobject hempty, planRandom_eq hsize]

theorem planAsha_content {cfg : AshaConfig} (h : planAsha env cfg axes base = .ok trials)
    (env' : Env N) : ∃ trials', planAsha env' cfg axes base = .ok trials' ∧
      trials'.map content = trials.map content := by
  unfold planAsha at h ⊢
  split at h
  · cases h
  · next heta =>
      split at h
      · cases h
      · next hmin =>
          cases h
          rw [dif_neg heta, dif_neg hmin]
          exact ⟨_, rfl, map_content_rungs cfg.eta _ _ [] [] rfl⟩

/-- The other strategies look neither at the generator nor at the clock. -/
theorem plan_of_not_draws (hdraws : draws spec.strategy = none)
    (hplan : spec.plan mach env base = .ok trials) (env' : Env N) :
    ∃ trials', spec.plan mach env' base = .ok trials' ∧
      trials'.map content = trials.map content := by
  obtain ⟨hobject, hempty⟩ := checks_of_plan hplan
  unfold SweepSpec.plan at hplan ⊢
  rw [if_neg (not_not.2 hobject), if_neg hempty] at hplan ⊢
  cases hstrategy : spec.strategy with
  | grid =>
    rw [hstrategy] at hplan
    cases hplan
    exact ⟨_, rfl, map_content_mapIdx env'.ulid env.ulid _ none⟩
  | asha cfg =>
    rw [hstrategy] at hplan
    cases hasha : planAsha env cfg spec.axes base with
    | error err =>
      simp only [hasha, Outcome.ofExcept_error] at hplan
      cases hplan
    | ok planned =>
      simp only [hasha, ofExcept_ok] at hplan
      cases hplan
      obtain ⟨trials', htrials', hcontent⟩ := planAsha_content hasha env'
      exact ⟨trials', by simp only [htrials', ofExcept_ok], hcontent⟩
  | random cfg =>
    rw [hstrategy] at hdraws
    cases hdraws
  | bayes cfg =>
    rw [hstrategy] at hdraws
    cases hdraws

end Plans

/-! ## The row -/

section Row

variable {N T : Type} {mach : Machine} {serde : Serde N} {clock : Clock T}
  {body : CreateSweepBody N}

theorem addAxes_ok {wrap wrap' : String → ApiError} {label label' : String}
    (axes : List (AxisInput N)) : ∀ {spec spec' : SweepSpec N},
      addAxes wrap label spec axes = .ok spec' → addAxes wrap' label' spec axes = .ok spec' := by
  induction axes with
  | nil => exact fun h => h
  | cons axis axes ih =>
    intro spec spec' h
    unfold addAxes at h ⊢
    rw [foldlM_cons] at h ⊢
    cases hadd : spec.add axis.name axis.values with
    | error err =>
      rw [hadd] at h
      cases h
    | ok next =>
      rw [hadd] at h
      exact ih h

/-- Where the configuration was read once, the defaults are not used. -/
theorem persistedStrategy_ok {name : String} {config : Json N} {strategy : Strategy}
    (h : requestedStrategy serde name config = .ok strategy) :
    persistedStrategy serde name config = .ok strategy := by
  unfold requestedStrategy at h
  unfold persistedStrategy
  split at h
  · exact h
  · split at h
    · next cfg hcfg =>
        cases h
        simp [hcfg, Except.toOption]
    · cases h
  · split at h
    · next cfg hcfg =>
        cases h
        simp [hcfg, Except.toOption]
    · cases h
  · split at h
    · next cfg hcfg =>
        cases h
        simp [hcfg, Except.toOption]
    · cases h
  · cases h

variable {trials : List (Trial N)} {db : List SweepRow} {id : String}

theorem requestedTrials_eq_ok {env : Env N} : requestedTrials mach serde env body = .ok trials ↔
      ∃ spec, requestedSpec serde body = .ok spec ∧ spec.plan mach env body.baseCfg = .ok trials := by
  unfold requestedTrials
  cases hspec : requestedSpec serde body with
  | error err => simp
  | ok spec => simp [Outcome.mapErr_eq_ok]

/-- The columns that a sweep is planned from. -/
def Stored (serde : Serde N) (body : CreateSweepBody N) (id : String) (db : List SweepRow) : Prop :=
  ∃ row, db.find? (fun r => r.id == id) = some row ∧ row.strategy = body.strategy.toLower ∧
    row.specJson = serde.toText (specJson body.strategy.toLower body) ∧
    row.baseCfgJson = serde.toText body.baseCfg

theorem createSweep_ok {at' : Moment N T} {db' : List SweepRow} {response : SweepResponse N T}
    (h : createSweep mach serde clock at' db body = .ok (response, db')) :
    requestedTrials mach serde at'.env body = .ok response.trials ∧
      Stored serde body response.id db' := by
  obtain ⟨trials, htrials, hrest⟩ := bind_eq_ok.1 h
  split at hrest
  · cases hrest
  · next hfresh =>
      cases hrest
      have hnone : db.find? (fun r => r.id == at'.newId) = none := by
        simpa [find?_eq_none] using hfresh
      refine ⟨htrials, ?_⟩
      unfold Stored
      rw [find?_append, hnone, none_or, find?_singleton, beq_self_eq_true, if_pos rfl]
      exact ⟨_, rfl, rfl, rfl, rfl⟩

variable (clock) in
theorem find?_cancelSweep (at' : Moment N T) (db : List SweepRow) (id other : String) :
    (cancelSweep clock at' db other).find? (fun r => r.id == id) =
      (db.find? fun r => r.id == id).map fun r =>
        if r.id == other && r.status != "completed" then
          { r with status := "cancelled", updatedAt := clock.toRfc3339 at'.now }
        else
          r := by
  rw [cancelSweep, find?_map]
  congr 2
  funext r
  rw [Function.comp_apply]
  split
  · rfl
  · rfl

theorem stored_step (call : SweepCall N × Moment N T) {serde' : Serde N}
    (h : Stored serde body id db) : Stored serde body id (sweepStep mach serde' clock db call) := by
  obtain ⟨row, hrow, hcolumns⟩ := h
  obtain ⟨call, at'⟩ := call
  cases call with
  | list => exact ⟨row, hrow, hcolumns⟩
  | getOne other => exact ⟨row, hrow, hcolumns⟩
  | create other =>
    unfold sweepStep
    simp only
    cases hcreate : createSweep mach serde' clock at' db other with
    | err err => exact ⟨row, hrow, hcolumns⟩
    | panic => exact ⟨row, hrow, hcolumns⟩
    | ok made =>
      obtain ⟨trials, _, hrest⟩ := bind_eq_ok.1 hcreate
      split at hrest
      · cases hrest
      · cases hrest
        exact ⟨row, by rw [find?_append, hrow, some_or], hcolumns⟩
  | cancel other =>
    have hfind := find?_cancelSweep clock at' db id other
    rw [hrow, map_some] at hfind
    refine ⟨_, hfind, ?_⟩
    split
    · exact hcolumns
    · exact hcolumns

theorem stored_run (calls : List (SweepCall N × Moment N T)) (h : Stored serde body id db) :
    Stored serde body id (run (sweepStep mach serde clock) db calls) :=
  invariant (Stored serde body id) (fun _ call _ => stored_step call) along_true h

variable (clock) in
theorem getSweep_of_stored {got : Moment N T} {spec : SweepSpec N} (htrips : RoundTrips serde body)
    (hstored : Stored serde body id db) (hspec : requestedSpec serde body = .ok spec)
    (hplan : spec.plan mach got.env body.baseCfg = .ok trials) :
    ∃ response, getSweep mach serde clock got db id = .ok response ∧ response.trials = trials := by
  obtain ⟨row, hrow, hname, hspecJson, hbase⟩ := hstored
  have hconfig : Json.get "config" (specJson body.strategy.toLower body) = some body.config := rfl
  have haxes : Json.get "axes" (specJson body.strategy.toLower body) =
      some (axesJson body.axes) := rfl
  have hbody : persistedBody serde row = .ok { body with strategy := body.strategy.toLower } := by
    unfold persistedBody
    rw [hspecJson, hbase, htrips.spec, htrips.base, hname]
    simp only [Except.mapError, bind, Except.bind, pure, Except.pure, hconfig, haxes,
      getD_some, bind_some, htrips.axes, Except.toOption]
  unfold requestedSpec at hspec
  cases hstrategy : requestedStrategy serde body.strategy.toLower body.config with
  | error err =>
    rw [hstrategy] at hspec
    cases hspec
  | ok strategy =>
    rw [hstrategy] at hspec
    have hadd : addAxes .internal "replan axis " { strategy, axes := [] } body.axes = .ok spec :=
      addAxes_ok body.axes hspec
    unfold getSweep
    rw [hrow]
    simp only [hbody, hname, persistedStrategy_ok hstrategy, hadd, hplan, ofExcept_ok,
      ok_bind, mapErr, pure_eq]
    exact ⟨_, rfl, rfl⟩

end Row

/-! ## The order of the combinations -/

section Order

variable {N T : Type} {mach : Machine} {serde : Serde N} {clock : Clock T}
  {body : CreateSweepBody N} {axes : List (Axis N)} {base : Json N}

theorem map_eq_of_constant {α β : Type} {f : α → β} {all xs ys : List α}
    (hf : ∀ a ∈ all, ∀ b ∈ all, f a = f b) (hxs : ∀ a ∈ xs, a ∈ all) (hys : ∀ a ∈ ys, a ∈ all)
    (hlength : xs.length = ys.length) : xs.map f = ys.map f := by
  refine ext_getElem (by simpa using hlength) ?_
  intro l hl hl'
  rw [getElem_map, getElem_map]
  exact hf _ (hxs _ (getElem_mem _)) _ (hys _ (getElem_mem _))

variable {env : Env N} {cfg : RandomConfig} {size : Nat}

theorem mem_of_mem_drawn {combo : List (Json N)} (h : combo ∈ drawn env cfg axes size) :
    combo ∈ cartesian axes :=
  ((env.stdRng (cfg.seed.getD env.nanos)).perm _).mem_iff.1 (mem_of_mem_take h)

theorem length_drawn (env : Env N) (cfg : RandomConfig) (size : Nat) :
    (drawn env cfg axes size).length = min (min cfg.trials size) (cartesian axes).length := by
  rw [drawn, length_take, ((env.stdRng (cfg.seed.getD env.nanos)).perm _).length_eq]

theorem map_drawn_eq {env' : Env N} {spec : SweepSpec N} (hrng : env.stdRng = env'.stdRng)
    (hsize : cartesianSize mach spec.axes = .ok size)
    (hfree : cfg.seed = none → OrderFree mach spec base cfg.trials) :
    (drawn env cfg spec.axes size).map (comboContent base spec.axes) =
      (drawn env' cfg spec.axes size).map (comboContent base spec.axes) := by
  cases hseed : cfg.seed with
  | some seed => rw [drawn, drawn, hrng, hseed, getD_some, getD_some]
  | none =>
    -- without a seed the two orders differ, and only the freedom of order helps
    rcases hfree hseed with hzero | hconstant
    · rw [drawn, drawn, hzero size hsize, take_zero, take_zero]
    · exact map_eq_of_constant hconstant (fun _ => mem_of_mem_drawn) (fun _ => mem_of_mem_drawn)
        ((length_drawn env cfg size).trans (length_drawn env' cfg size).symm)

theorem replans_of_seeded (htrips : RoundTrips serde body) (hseeded : Seeded mach serde body) :
    Replans mach serde clock body := by
  intro rng posted got hposted hgot db response db' hcreate calls
  obtain ⟨htrials, hstored⟩ := createSweep_ok hcreate
  obtain ⟨spec, hspec, hplan⟩ := requestedTrials_eq_ok.1 htrials
  have hread : ∀ trials, spec.plan mach got.env body.baseCfg = .ok trials →
      ∃ response', getSweep mach serde clock got (run (sweepStep mach serde clock) db' calls)
        response.id = .ok response' ∧ response'.trials = trials :=
    fun trials => getSweep_of_stored clock htrips (stored_run calls hstored) hspec
  cases hdraws : draws spec.strategy with
  | none =>
    obtain ⟨trials, hreplan, hcontent⟩ := plan_of_not_draws hdraws hplan got.env
    obtain ⟨response', hget, rfl⟩ := hread trials hreplan
    exact ⟨response', hget, hcontent⟩
  | some cfg =>
    obtain ⟨size, hsize, hdrawn⟩ := plan_of_draws hdraws hplan
    obtain ⟨announced, hannounced, hcontent⟩ := hdrawn posted.env
    rw [hplan] at hannounced
    cases hannounced
    obtain ⟨trials, hreplan, hcontent'⟩ := hdrawn got.env
    obtain ⟨response', hget, rfl⟩ := hread trials hreplan
    refine ⟨response', hget, ?_⟩
    rw [hcontent, hcontent']
    exact map_drawn_eq (hgot.trans hposted.symm) hsize (hseeded spec cfg hspec hdraws)

theorem getElem?_drawn_zero (axes : List (Axis N)) (htake : min cfg.trials size ≠ 0) :
    (drawn env cfg axes size)[0]? =
      ((env.stdRng (cfg.seed.getD env.nanos)).run (cartesian axes))[0]? := by
  rw [drawn, getElem?_take, if_pos (Nat.pos_of_ne_zero htake)]

/-- A generator that leaves the list alone for seed 0 and rotates it for any other. -/
def rotating (k : Nat) : Generator N :=
  fun seed => if seed = 0 then ⟨id, List.Perm.refl⟩ else ⟨(·.rotate k), fun xs => xs.rotate_perm k⟩

variable (clock) in
theorem createSweep_of_trials (at' : Moment N T) {trials : List (Trial N)}
    (h : requestedTrials mach serde at'.env body = .ok trials) :
    ∃ response db', createSweep mach serde clock at' [] body = .ok (response, db') ∧
      response.trials = trials := by
  unfold createSweep
  simp only [h, ok_bind, any_nil, Bool.false_eq_true, if_false, pure_eq]
  exact ⟨_, _, rfl, rfl⟩

theorem seeded_of_replans (at₀ : Moment N T) {trials₀ : List (Trial N)}
    (haccepted : requestedTrials mach serde at₀.env body = .ok trials₀)
    (htrips : RoundTrips serde body) (hreplans : Replans mach serde clock body) :
    Seeded mach serde body := by
  intro spec cfg hspec hdraws hseed
  obtain ⟨spec', hspec', hplan₀⟩ := requestedTrials_eq_ok.1 haccepted
  rw [hspec] at hspec'
  cases hspec'
  obtain ⟨size, hsize, hdrawn⟩ := plan_of_draws hdraws hplan₀
  -- the generator that rotates by `k` brings any combination to the front
  by_contra hfree
  obtain ⟨hsome, hdiffer⟩ := not_or.1 hfree
  have htake : min cfg.trials size ≠ 0 := by
    intro hzero
    exact hsome fun size' hsize' => by
      rw [hsize] at hsize'
      cases hsize'
      exact hzero
  refine hdiffer ?_
  -- each combination may come first, so it makes the trial that the first one makes
  have hfirst : ∀ combo ∈ cartesian spec.axes, ∀ first, (cartesian spec.axes)[0]? = some first →
      comboContent body.baseCfg spec.axes combo = comboContent body.baseCfg spec.axes first := by
    intro combo hcombo first hhead
    obtain ⟨k, hk⟩ := mem_iff_getElem?.1 hcombo
    -- announced under seed 0, planned again under seed 1, where `combo` comes first
    let posted : Moment N T :=
      ⟨{ stdRng := rotating k, nanos := 0, ulid := at₀.env.ulid }, "", at₀.now⟩
    let got : Moment N T :=
      ⟨{ stdRng := rotating k, nanos := 1, ulid := at₀.env.ulid }, "", at₀.now⟩
    obtain ⟨announced, hplan, hannounced⟩ := hdrawn posted.env
    obtain ⟨trials, hreplan, htrials⟩ := hdrawn got.env
    obtain ⟨response, db', hcreate, rfl⟩ := createSweep_of_trials clock posted
      (requestedTrials_eq_ok.2 ⟨spec, hspec, hplan⟩)
    obtain ⟨response', hget, hsame⟩ :=
      hreplans (rotating k) posted got rfl rfl [] response db' hcreate []
    obtain ⟨read, hread, rfl⟩ := getSweep_of_stored clock htrips
      (createSweep_ok hcreate).2 hspec hreplan
    rw [run_nil, hread] at hget
    cases hget
    rw [hannounced, htrials] at hsame
    have hheads := congrArg (fun contents => contents[0]?) hsame
    simp only [getElem?_map, getElem?_drawn_zero _ htake, hseed, getD_none] at hheads
    have hgot : ((rotating k 1).run (cartesian spec.axes))[0]? = some combo := by
      have hlength := (List.getElem?_eq_some_iff.1 hk).1
      change ((cartesian spec.axes).rotate k)[0]? = some combo
      rw [getElem?_rotate (Nat.lt_of_le_of_lt (Nat.zero_le k) hlength), Nat.zero_add,
        Nat.mod_eq_of_lt hlength, hk]
    have hposted : ((rotating k 0).run (cartesian spec.axes))[0]? = some first := hhead
    rw [hgot, hposted] at hheads
    exact some.inj hheads
  intro combo hcombo combo' hcombo'
  obtain ⟨first, hhead⟩ : ∃ first, (cartesian spec.axes)[0]? = some first := by
    cases hall : cartesian spec.axes with
    | nil =>
      rw [hall] at hcombo
      exact absurd hcombo not_mem_nil
    | cons first rest => exact ⟨first, rfl⟩
  exact (hfirst combo hcombo first hhead).trans (hfirst combo' hcombo' first hhead).symm

/-- A request that is accepted is read back as it was announced, whatever the generator, if and
only if its strategy draws nothing, has a seed, or makes the same trials in any order. -/
theorem replans_iff (mach : Machine) (serde : Serde N) (clock : Clock T)
    (body : CreateSweepBody N) (htrips : RoundTrips serde body)
    (haccepted : ∃ (at₀ : Moment N T) (trials : List (Trial N)),
      requestedTrials mach serde at₀.env body = .ok trials) :
    Replans mach serde clock body ↔ Seeded mach serde body := by
  obtain ⟨at₀, trials, haccepted⟩ := haccepted
  exact ⟨seeded_of_replans at₀ haccepted htrips, replans_of_seeded htrips⟩

end Order

/-! ### Two sweeps over two rates -/

def gridBody : CreateSweepBody Nat where
  strategy := "Grid"
  config := .null
  axes := [⟨"lr", .array [.number 1, .number 2]⟩]
  baseCfg := .object []

/-- No seed is given. -/
def randomBody : CreateSweepBody Nat where
  strategy := "random"
  config := .object [("trials", .number 2)]
  axes := [⟨"lr", .array [.number 1, .number 2]⟩]
  baseCfg := .object []

def gridText : String :=
  "\x7b\"axes\":[\x7b\"name\":\"lr\",\"values\":[1,2]\x7d],\"config\":null," ++
    "\"strategy\":\"grid\"\x7d"

def randomText : String :=
  "\x7b\"axes\":[\x7b\"name\":\"lr\",\"values\":[1,2]\x7d],\"config\":\x7b\"trials\":2\x7d," ++
    "\"strategy\":\"random\"\x7d"

def readAxis : Json Nat → Except String (AxisInput Nat)
  | .object [("name", .string name), ("values", values)] => .ok ⟨name, values⟩
  | _ => .error "expected an axis"

/-- `serde_json` on the values and texts of the two requests. -/
def ratesSerde : Serde Nat where
  toText := fun v =>
    match v with
    | .object [_, _, ("strategy", .string "grid")] => gridText
    | .object [_, _, ("strategy", .string "random")] => randomText
    | _ => "\x7b\x7d"
  fromText := fun t =>
    if t = gridText then .ok (specJson "grid" gridBody)
    else if t = randomText then .ok (specJson "random" randomBody)
    else .ok (.object [])
  randomConfig := fun v =>
    match v with
    | .object [("trials", .number n)] => .ok { trials := n, seed := none }
    | _ => .error "missing field trials"
  ashaConfig := fun _ => .error "missing field eta"
  bayesConfig := fun _ => .error "missing field init_trials"
  axisInputs := fun v =>
    match v with
    | .array axes => axes.mapM readAxis
    | _ => .error "expected a sequence"

def frozenClock : Clock Unit where
  toRfc3339 := fun _ => "2024-01-01T00:00:00+00:00"
  parseFromRfc3339 := fun _ => .ok ()

theorem toLower_grid : gridBody.strategy.toLower = "grid" := by
  decide +kernel

theorem toLower_random : randomBody.strategy.toLower = "random" := by
  decide +kernel

theorem roundTrips_grid : RoundTrips ratesSerde gridBody where
  spec := by
    rw [toLower_grid]
    rfl
  base := rfl
  axes := rfl

theorem roundTrips_random : RoundTrips ratesSerde randomBody where
  spec := by
    rw [toLower_random]
    rfl
  base := rfl
  axes := rfl

theorem requestedSpec_grid : requestedSpec ratesSerde gridBody = .ok ⟨.grid, [lrAxis]⟩ := by
  rw [requestedSpec, toLower_grid]
  rfl

theorem requestedSpec_random : requestedSpec ratesSerde randomBody =
    .ok ⟨.random { trials := 2, seed := none }, [lrAxis]⟩ := by
  rw [requestedSpec, toLower_random]
  rfl

theorem accepted_grid : requestedTrials ⟨.release, 0⟩ ratesSerde plainEnv gridBody =
    .ok (planGrid plainEnv [lrAxis] (.object [])) :=
  requestedTrials_eq_ok.2 ⟨_, requestedSpec_grid, rfl⟩

theorem accepted_random : requestedTrials ⟨.release, 0⟩ ratesSerde plainEnv randomBody =
    .ok (planGrid plainEnv [lrAxis] (.object [])) :=
  requestedTrials_eq_ok.2 ⟨_, requestedSpec_random, rfl⟩

theorem replans_iff_grid : Replans ⟨.release, 0⟩ ratesSerde frozenClock gridBody := by
  refine (replans_iff ⟨.release, 0⟩ ratesSerde frozenClock gridBody roundTrips_grid
    ⟨⟨plainEnv, "s", ()⟩, _, accepted_grid⟩).2 ?_
  intro spec cfg hspec hdraws
  rw [requestedSpec_grid] at hspec
  cases hspec
  cases hdraws

/-- Without a seed the two rates come in the order of the moment. -/
theorem not_replans_random :
    RoundTrips ratesSerde randomBody ∧
      ¬ Replans ⟨.release, 0⟩ ratesSerde frozenClock randomBody := by
  refine ⟨roundTrips_random, fun hreplans => ?_⟩
  have hseeded := seeded_of_replans ⟨plainEnv, "s", ()⟩ accepted_random roundTrips_random hreplans
  rcases hseeded _ _ requestedSpec_random rfl rfl with hnone | hsame
  · exact absurd (hnone 2 rfl) (by decide)
  · have hfirst : [.number 1] ∈ cartesian [lrAxis] := mem_cons_self
    have hsecond : [.number 2] ∈ cartesian [lrAxis] := mem_cons_of_mem _ mem_cons_self
    have heq := congrArg (fun c => c.2.1) (hsame _ hfirst _ hsecond)
    cases heq

end Console
end Rustorch
