import Mathlib.Data.String.Basic
import Rustorch.Lib.Choices
import Rustorch.Lib.Machine
import Rustorch.Lib.Overlay

/-!
# Sweep specifications and their plans

`spec.rs`: a strategy and a list of axes resolve into a flat list of trials, each the base
configuration overlaid with one combination of axis values.  The generator of random numbers, the
clock and the ids of trials come from outside.  Memory suffices for the combinations, so that a
capacity is only a hint.
-/

namespace Rustorch
namespace Sweep

/-! ## Data -/

/-- `serde_json::Value`, over numbers told apart by their equality.  An object is in key order. -/
inductive Json (N : Type)
  | null
  | bool (b : Bool)
  | number (n : N)
  | string (s : String)
  | array (values : List (Json N))
  | object (entries : List (String × Json N))

structure RandomConfig where
  trials : Nat
  seed : Option UInt64
  deriving DecidableEq, Repr

structure AshaConfig where
  eta : UInt32
  minResource : UInt32
  maxResource : UInt32
  deriving DecidableEq, Repr

structure BayesConfig where
  trials : Nat
  seed : Option UInt64
  deriving DecidableEq, Repr

inductive Strategy
  | grid
  | random (cfg : RandomConfig)
  | asha (cfg : AshaConfig)
  | bayes (cfg : BayesConfig)
  deriving DecidableEq, Repr

inductive SweepError
  | axisNotArray (text : String)
  | emptyAxes
  | baseCfgNotObject
  deriving DecidableEq, Repr

variable {N : Type}

structure Axis (N : Type) where
  name : String
  values : List (Json N)

structure SweepSpec (N : Type) where
  strategy : Strategy
  axes : List (Axis N)

structure Trial (N : Type) where
  id : String
  cfg : Json N
  axes : Json N
  rungBudget : Option UInt32

/-- `shuffle` puts the combinations in some other order. -/
structure Shuffle (α : Type) where
  run : List α → List α
  perm : ∀ xs, (run xs).Perm xs

/-- What planning asks for: the generator of a seed, the time in nanoseconds and the id that the
`n`-th trial is given. -/
structure Env (N : Type) where
  stdRng : UInt64 → Shuffle (List (Json N))
  nanos : UInt64
  ulid : Nat → String

/-- No shuffling, and the trials are numbered. -/
def plainEnv : Env N where
  stdRng := fun _ => ⟨id, fun _ => .refl _⟩
  nanos := 0
  ulid := fun n => toString n

/-- Two rates. -/
def lrAxis : Axis Nat where
  name := "lr"
  values := [.number 1, .number 2]

/-! ## The builder -/

/-- `add`: another axis, of the values of a JSON array. -/
def SweepSpec.add (spec : SweepSpec N) (name : String) (values : Json N) :
    Except SweepError (SweepSpec N) :=
  match values with
  | .array arr => .ok { spec with axes := spec.axes ++ [{ name, values := arr }] }
  | _ => .error (.axisNotArray name)

/-! ## Combinations -/

def cartesian (axes : List (Axis N)) : List (List (Json N)) :=
  axes.foldl
    (fun out a => out.flatMap (fun row => a.values.map (fun v => row ++ [v])))
    [[]]

theorem cartesian_eq (axes : List (Axis N)) :
    cartesian axes = Choices.all (axes.map Axis.values) := by
  rw [Choices.all, List.foldl_map]
  rfl

theorem length_cartesian (axes : List (Axis N)) :
    (cartesian axes).length = (axes.map (fun a => a.values.length)).prod := by
  rw [cartesian_eq, Choices.length_all, List.map_map]
  rfl

def cartesianSize (m : Machine) (axes : List (Axis N)) : Outcome SweepError Nat :=
  m.product (axes.map (fun a => a.values.length))

/-- The values of a combination under the names of their axes. -/
def assignments (axes : List (Axis N)) (combo : List (Json N)) : List (String × Json N) :=
  (axes.map Axis.name).zip combo

def makeTrial (id : String) (base : Json N) (axes : List (Axis N)) (combo : List (Json N))
    (rungBudget : Option UInt32) : Trial N :=
  match base with
  | .object entries =>
    { id
      cfg := .object (Overlay.overlay entries (assignments axes combo))
      axes := .object (Overlay.overlay [] (assignments axes combo))
      rungBudget }
  | base => { id, cfg := base, axes := .object [], rungBudget }

/-! ## Grid and random plans -/

def planGrid (env : Env N) (axes : List (Axis N)) (base : Json N) : List (Trial N) :=
  (cartesian axes).mapIdx (fun i combo => makeTrial (env.ulid i) base axes combo none)

def planRandom (m : Machine) (env : Env N) (cfg : RandomConfig) (axes : List (Axis N))
    (base : Json N) : Outcome SweepError (List (Trial N)) := do
  let max ← cartesianSize m axes
  let take := min cfg.trials max
  let seed :=
    match cfg.seed with
    | some s => s
    | none => env.nanos
  let combos := (env.stdRng seed).run (cartesian axes)
  return (combos.take take).mapIdx (fun i combo => makeTrial (env.ulid i) base axes combo none)

/-! ## ASHA plans -/

def u32Max : Nat := 2 ^ 32 - 1

def saturatingMul (x y : UInt32) : UInt32 :=
  if x.toNat * y.toNat ≤ u32Max then x * y else UInt32.ofNat u32Max

theorem toNat_saturatingMul (x y : UInt32) :
    (saturatingMul x y).toNat = min (x.toNat * y.toNat) u32Max := by
  rw [saturatingMul]
  split
  · next h =>
      have hlt : x.toNat * y.toNat < 2 ^ 32 := Nat.lt_of_le_of_lt h (by decide)
      rw [UInt32.toNat_mul, Nat.mod_eq_of_lt hlt, Nat.min_eq_left h]
  · next h =>
      rw [Nat.min_eq_right (Nat.le_of_not_le h)]
      rfl

theorem toNat_le_u32Max (x : UInt32) : x.toNat ≤ u32Max :=
  Nat.le_sub_one_of_lt x.toNat_lt

variable {b eta : UInt32}

theorem le_saturatingMul : 2 ≤ eta.toNat → b.toNat ≤ (saturatingMul b eta).toNat := by
  intro heta
  rw [toNat_saturatingMul, Nat.le_min]
  exact ⟨Nat.le_mul_of_pos_right _ (Nat.lt_of_lt_of_le Nat.two_pos heta), toNat_le_u32Max b⟩

theorem lt_saturatingMul (heta : 2 ≤ eta.toNat) :
    saturatingMul b eta ≠ b → b.toNat < (saturatingMul b eta).toNat := by
  intro hne
  refine Nat.lt_of_le_of_ne (le_saturatingMul heta) ?_
  intro heq
  exact hne (UInt32.toNat_inj.1 heq.symm)

/-- The loop that collects the budgets.  It ends because a next budget that is another one is
greater. -/
def budgets (eta max b : UInt32) (heta : 2 ≤ eta.toNat) (hb : 0 < b.toNat) : List UInt32 :=
  if b ≤ max then
    let next := saturatingMul b eta
    if _hne : next = b then
      [b]
    else
      b :: budgets eta max next heta (Nat.lt_of_lt_of_le hb (le_saturatingMul heta))
  else
    []
termination_by 2 ^ 32 - b.toNat
decreasing_by
  exact Nat.sub_lt_sub_left b.toNat_lt (lt_saturatingMul heta _hne)

theorem two_le_of_not_lt : ¬ eta < 2 → 2 ≤ eta.toNat := by
  intro h
  exact Nat.le_of_not_lt fun hlt => h (UInt32.lt_iff_toNat_lt.2 hlt)

theorem pos_of_ne_zero : b ≠ 0 → 0 < b.toNat := by
  intro h
  refine Nat.pos_of_ne_zero fun hzero => h ?_
  exact UInt32.toNat_inj.1 hzero

/-- The loop over the rungs. -/
def rungs (env : Env N) (eta : UInt32) (base : Json N) (axes : List (Axis N)) :
    List UInt32 → List (List (Json N)) → List (Trial N) → List (Trial N)
  | [], _, out => out
  | budget :: rest, survivors, out =>
    let out := out ++ survivors.mapIdx
      (fun i combo => makeTrial (env.ulid (out.length + i)) base axes combo (some budget))
    let keep := survivors.length / eta.toNat
    if keep = 0 ∨ rest = [] then
      out
    else
      rungs env eta base axes rest (survivors.take keep) out

def planAsha (env : Env N) (cfg : AshaConfig) (axes : List (Axis N)) (base : Json N) :
    Except SweepError (List (Trial N)) :=
  if heta : cfg.eta < 2 then
    .error (.axisNotArray s!"asha.eta must be ≥ 2, got {cfg.eta.toNat}")
  else if hmin : cfg.minResource = 0 ∨ cfg.maxResource < cfg.minResource then
    .error (.axisNotArray
      s!"asha resources invalid: min={cfg.minResource.toNat} max={cfg.maxResource.toNat}")
  else
    let bs := budgets cfg.eta cfg.maxResource cfg.minResource (two_le_of_not_lt heta)
      (pos_of_ne_zero (not_or.1 hmin).1)
    .ok (rungs env cfg.eta base axes bs (cartesian axes) [])

/-! ## Planning -/

def Json.isObject : Json N → Bool
  | .object _ => true
  | _ => false

def SweepSpec.plan (m : Machine) (env : Env N) (spec : SweepSpec N) (base : Json N) :
    Outcome SweepError (List (Trial N)) :=
  if ¬ base.isObject then
    .err .baseCfgNotObject
  else if spec.axes.isEmpty then
    .err .emptyAxes
  else
    match spec.strategy with
    | .grid => .ok (planGrid env spec.axes base)
    | .random cfg => planRandom m env cfg spec.axes base
    | .asha cfg => Outcome.ofExcept (planAsha env cfg spec.axes base)
    | .bayes cfg => planRandom m env { trials := cfg.trials, seed := cfg.seed } spec.axes base

end Sweep
end Rustorch
