import Rustorch.Lib.Retention
import Rustorch.Lib.Runs
import Rustorch.Lib.Separated
import Rustorch.Serde.Safetensors

/-!
# Checkpoints of a training loop

`checkpoint.rs`: `step` saves when the cadence and the on-improve gate let it, then rotates the
files it wrote.  The history and the directory are two views of one set, related by file names
made of the epoch and the step.  Writing and removing a file succeed; the metrics are of any type
with a decidable `<`, as the comparisons of `f32` are no order.
-/

namespace Rustorch
namespace Serde

open List

/-! ## Configuration and state -/

/-- Durations and instants are counted in nanoseconds. -/
inductive Cadence
  | epochs (n : Nat)
  | steps (n : Nat)
  | wallClock (d : Nat)
  deriving DecidableEq, Repr

inductive Direction
  | maximize
  | minimize
  deriving DecidableEq, Repr

/-- A file of a directory. -/
structure PathBuf where
  dir : String
  file : String
  deriving DecidableEq, Repr

structure Checkpoint (F : Type) where
  saveDir : String
  cadence : Cadence
  keep : Nat
  onImprove : Option (String × Direction)
  lastSavedEpoch : Option Nat
  lastSavedStep : Option Nat
  lastSavedAt : Option Nat
  bestMetric : Option F
  history : List PathBuf

/-- The arguments of `step`, with what the clock says at the check and after the write. -/
structure Call (F : Type) where
  epoch : Nat
  step : Nat
  metrics : Std.HashMap String F
  checkedAt : Nat
  savedAt : Nat

/-- The helper and the files that exist. -/
structure State (F : Type) where
  ckpt : Checkpoint F
  disk : Finset PathBuf

def ckptPath (saveDir : String) (epoch step : Nat) : PathBuf where
  dir := saveDir
  file := s!"ckpt_epoch{epoch}_step{step}.safetensors"

namespace Checkpoint

variable {F : Type}

def new (saveDir : String) : Checkpoint F where
  saveDir := saveDir
  cadence := .epochs 1
  keep := 0
  onImprove := none
  lastSavedEpoch := none
  lastSavedStep := none
  lastSavedAt := none
  bestMetric := none
  history := []

/-- What a chain of `every`, `keep`, `on_improve` and `on_improve_direction` makes of it. -/
def configured (saveDir : String) (cadence : Cadence) (keep : Nat)
    (onImprove : Option (String × Direction)) : Checkpoint F :=
  { new saveDir with cadence, keep, onImprove }

/-! ## Deciding -/

def cadenceOk (m : Machine) (c : Checkpoint F) (call : Call F) : Outcome SafetensorsError Bool :=
  match c.cadence with
  | .epochs n =>
    match c.lastSavedEpoch with
    | some prev => do
      let due ← m.add prev n
      return decide (due ≤ call.epoch)
    | none => .ok true
  | .steps n =>
    match c.lastSavedStep with
    | some prev => do
      let due ← m.add prev n
      return decide (due ≤ call.step)
    | none => .ok true
  | .wallClock d =>
    match c.lastSavedAt with
    | some prev => .ok (decide (d ≤ call.checkedAt - prev))
    | none => .ok true

variable [LT F] [DecidableLT F]

def isBetter (dir : Direction) (v best : F) : Bool :=
  match dir with
  | .maximize => decide (best < v)
  | .minimize => decide (v < best)

/-- The on-improve gate; a missing metric saves. -/
def improveOk (c : Checkpoint F) (call : Call F) : Bool :=
  match c.onImprove with
  | some (metric, dir) =>
    match call.metrics[metric]? with
    | some v =>
      match c.bestMetric with
      | some best => isBetter dir v best
      | none => true
    | none => true
  | none => true

def shouldSave (m : Machine) (c : Checkpoint F) (call : Call F) :
    Outcome SafetensorsError Bool := do
  let cadenceOk ← c.cadenceOk m call
  if cadenceOk then return c.improveOk call else return false

/-! ## Saving -/

def bestAfter (c : Checkpoint F) (call : Call F) : Option F :=
  match c.onImprove with
  | some (metric, dir) =>
    match call.metrics[metric]? with
    | some v =>
      let newBest :=
        match c.bestMetric with
        | none => true
        | some b => isBetter dir v b
      if newBest then some v else c.bestMetric
    | none => c.bestMetric
  | none => c.bestMetric

/-- The tracking state after a write. -/
def track (c : Checkpoint F) (call : Call F) : Checkpoint F :=
  { c with
    lastSavedEpoch := some call.epoch
    lastSavedStep := some call.step
    lastSavedAt := some call.savedAt
    bestMetric := c.bestAfter call }

/-- Keep the last `keep` files, all of them for 0. -/
def rotate (keep : Nat) (history : List PathBuf) (disk : Finset PathBuf) :
    List PathBuf × Finset PathBuf :=
  if keep > 0 then Retention.trim keep history disk else (history, disk)

end Checkpoint

section Step

variable {F : Type} [LT F] [DecidableLT F]

def step (m : Machine) (s : State F) (call : Call F) :
    Outcome SafetensorsError (State F × Option PathBuf) := do
  let save ← s.ckpt.shouldSave m call
  if save then
    let path := ckptPath s.ckpt.saveDir call.epoch call.step
    let disk := insert path s.disk
    let ckpt := s.ckpt.track call
    let (history, disk) := Checkpoint.rotate ckpt.keep (ckpt.history ++ [path]) disk
    return ({ ckpt := { ckpt with history }, disk }, some path)
  else
    return (s, none)

/-- The state after a call; one that panics leaves it. -/
def after (m : Machine) (s : State F) (call : Call F) : State F :=
  match step m s call with
  | .ok (s', _) => s'
  | _ => s

/-- The path that a call returns. -/
def returned (m : Machine) (s : State F) (call : Call F) : Option PathBuf :=
  match step m s call with
  | .ok (_, path) => path
  | _ => none

def saved (m : Machine) (s : State F) (call : Call F) : List PathBuf :=
  (returned m s call).toList

end Step

/-! ## Live checkpoints -/

/-- What rotation promises after a call that returned `path`, `saves` being all paths saved up to
it: the history and the returned path exist, and of the saved files the `keep` latest. -/
structure Live {F : Type} (s : State F) (saves : List PathBuf) (path : Option PathBuf) : Prop where
  history : ∀ p ∈ s.ckpt.history, p ∈ s.disk
  returned : ∀ p, path = some p → p ∈ s.disk
  latest : 0 < s.ckpt.keep → ∀ p ∈ saves, p ∈ s.disk ↔ p ∈ saves.dedup.rtake s.ckpt.keep
  card : 0 < s.ckpt.keep →
    (s.disk ∩ saves.toFinset).card = min s.ckpt.keep saves.toFinset.card

/-- A call that saves while the history is full finds no name twice: neither in the history nor
the new one in it. -/
def Unrepeated {F : Type} [LT F] [DecidableLT F] (m : Machine) (s : State F) (call : Call F) : Prop :=
  s.ckpt.shouldSave m call = .ok true → 0 < s.ckpt.keep → s.ckpt.keep ≤ s.ckpt.history.length →
    (ckptPath s.ckpt.saveDir call.epoch call.step :: s.ckpt.history).Nodup

section Runs

variable {F : Type} [LT F] [DecidableLT F] {m : Machine} {s : State F} {call : Call F}

/-- The state after a save. -/
def saveState (s : State F) (call : Call F) : State F :=
  let path := ckptPath s.ckpt.saveDir call.epoch call.step
  let rotated := Checkpoint.rotate s.ckpt.keep (s.ckpt.history ++ [path]) (insert path s.disk)
  { ckpt := { s.ckpt.track call with history := rotated.1 }, disk := rotated.2 }

theorem after_cases (m : Machine) (s : State F) (call : Call F) :
    (s.ckpt.shouldSave m call = .ok true ∧ after m s call = saveState s call ∧
        returned m s call = some (ckptPath s.ckpt.saveDir call.epoch call.step)) ∨
      (s.ckpt.shouldSave m call ≠ .ok true ∧ after m s call = s ∧ returned m s call = none) := by
  unfold after returned step
  cases hsave : s.ckpt.shouldSave m call with
  | ok save =>
    cases save with
    | true => exact .inl ⟨rfl, rfl, rfl⟩
    | false => exact .inr ⟨by simp, rfl, rfl⟩
  | err e => exact .inr ⟨by simp, rfl, rfl⟩
  | panic => exact .inr ⟨by simp, rfl, rfl⟩

theorem saveState_of_pos (call : Call F) (h : 0 < s.ckpt.keep) :
    ((saveState s call).ckpt.history, (saveState s call).disk) =
      Retention.put s.ckpt.keep s.ckpt.history s.disk
        (ckptPath s.ckpt.saveDir call.epoch call.step) := by
  simp only [saveState, Checkpoint.rotate, if_pos h]
  rfl

theorem saveState_of_zero (call : Call F) (h : ¬ 0 < s.ckpt.keep) :
    (saveState s call).ckpt.history =
        s.ckpt.history ++ [ckptPath s.ckpt.saveDir call.epoch call.step] ∧
      (saveState s call).disk = insert (ckptPath s.ckpt.saveDir call.epoch call.step) s.disk := by
  rw [saveState, Checkpoint.rotate, if_neg h]
  exact ⟨rfl, rfl⟩

/-- The history and the directory agree. -/
structure Rotated (s : State F) (saves : List PathBuf) : Prop where
  history : ∀ p ∈ s.ckpt.history, p ∈ s.disk
  retains : 0 < s.ckpt.keep → Retention.Retains s.ckpt.keep saves s.ckpt.history s.disk

variable {saves : List PathBuf}

section

variable (h : Rotated s saves)

include h

omit [LT F] [DecidableLT F] in
theorem Rotated.live {path : Option PathBuf} (hpath : ∀ p, path = some p → p ∈ s.disk) :
    Live s saves path where
  history := h.history
  returned := hpath
  latest := fun hk => (h.retains hk).sound.latest
  card := fun hk => (h.retains hk).sound.card

theorem Rotated.saveState :
    (0 < s.ckpt.keep → s.ckpt.keep ≤ s.ckpt.history.length →
        (ckptPath s.ckpt.saveDir call.epoch call.step :: s.ckpt.history).Nodup) →
      Rotated (saveState s call) (saves ++ [ckptPath s.ckpt.saveDir call.epoch call.step]) := by
  intro hnew
  by_cases hk : 0 < s.ckpt.keep
  · have hput := Prod.ext_iff.1 (saveState_of_pos call hk)
    have hretains := (h.retains hk).put hk (hnew hk)
    rw [← hput.1, ← hput.2] at hretains
    exact ⟨hretains.sound.queued, fun _ => hretains⟩
  · obtain ⟨hhistory, hdisk⟩ := saveState_of_zero call hk
    refine ⟨?_, fun hpos => absurd hpos hk⟩
    intro p hp
    rw [hhistory, mem_append, mem_singleton] at hp
    rw [hdisk, Finset.mem_insert]
    exact hp.symm.imp_right (h.history p)

omit h in
theorem Rotated.path_mem (h : Rotated (Serde.saveState s call)
    (saves ++ [ckptPath s.ckpt.saveDir call.epoch call.step])) :
    ckptPath s.ckpt.saveDir call.epoch call.step ∈ (Serde.saveState s call).disk := by
  by_cases hk : 0 < s.ckpt.keep
  · apply h.history
    rw [(h.retains hk).window]
    exact Retention.mem_rtake_concat hk
  · rw [(saveState_of_zero call hk).2]
    exact Finset.mem_insert_self _ _

/-- A live write repeats no name in a full history. -/
theorem nodup_of_live (hk : 0 < s.ckpt.keep)
    (hlive : Live (saveState s call) (saves ++ [ckptPath s.ckpt.saveDir call.epoch call.step])
      (some (ckptPath s.ckpt.saveDir call.epoch call.step))) :
    s.ckpt.keep ≤ s.ckpt.history.length →
      (ckptPath s.ckpt.saveDir call.epoch call.step :: s.ckpt.history).Nodup := by
  have hput := Prod.ext_iff.1 (saveState_of_pos call hk)
  rw [← (h.retains hk).sound_put_iff hk, ← hput.1, ← hput.2]
  exact ⟨hlive.history, hlive.latest hk⟩

/-! ## One call -/

theorem Rotated.after : Unrepeated m s call →
    Rotated (after m s call) (saves ++ saved m s call) := by
  intro hnew
  rcases after_cases m s call with ⟨hsave, hafter, hpath⟩ | ⟨hsave, hafter, hpath⟩
  · rw [saved, hafter, hpath]
    exact h.saveState (hnew hsave)
  · rw [saved, hafter, hpath, Option.toList_none, append_nil]
    exact h

theorem live_after_iff :
    Live (after m s call) (saves ++ saved m s call) (returned m s call) ↔ Unrepeated m s call := by
  rw [saved]
  rcases after_cases m s call with ⟨hsave, hafter, hpath⟩ | ⟨hsave, hafter, hpath⟩
  · rw [hafter, hpath, Option.toList_some]
    constructor
    · intro hlive _ hk
      exact nodup_of_live h hk hlive
    · intro hnew
      have hnext := h.saveState (hnew hsave)
      apply hnext.live
      rintro p ⟨⟩
      exact hnext.path_mem
  · rw [hafter, hpath, Option.toList_none, append_nil]
    exact iff_of_true (h.live nofun) (fun hsave' => absurd hsave' hsave)

/-! ## Runs -/

end

/-- The state before the first call. -/
def start (saveDir : String) (cadence : Cadence) (keep : Nat)
    (onImprove : Option (String × Direction)) (disk : Finset PathBuf) : State F where
  ckpt := Checkpoint.configured saveDir cadence keep onImprove
  disk := disk

omit [LT F] [DecidableLT F] in
theorem rotated_start {saveDir : String} {cadence : Cadence} {keep : Nat}
    {onImprove : Option (String × Direction)} {disk : Finset PathBuf} :
    Rotated (start (F := F) saveDir cadence keep onImprove disk) [] where
  history := nofun
  retains := fun _ => ⟨(rtake_nil _).symm, nofun, fun _ => nodup_nil⟩

/-- Checkpoints are live after every call of a run exactly when no save into a full history finds
or makes a repeated name. -/
theorem live_throughout_iff (m : Machine) (saveDir : String) (cadence : Cadence) (keep : Nat)
    (onImprove : Option (String × Direction)) (disk : Finset PathBuf) (calls : List (Call F)) :
    Runs.Throughout (after m) (saved m)
        (fun s saves call => Live (after m s call) (saves ++ saved m s call) (returned m s call))
        (start saveDir cadence keep onImprove disk) [] calls ↔
      Runs.Along (after m) (Unrepeated m) (start saveDir cadence keep onImprove disk) calls := by
  refine Runs.throughout_iff_along Rotated ?_ ?_ rotated_start
  · intro s saves call hnew h
    exact h.after hnew
  · intro s saves call h
    exact live_after_iff h

/-- A cadence of 0 epochs saves twice under one name and unlinks what it has just written. -/
theorem repeated_epoch_not_live :
    let s := start (F := Float32) "runs" (.epochs 0) 1 none ∅
    let call : Call Float32 :=
      { epoch := 0, step := 0, metrics := ∅, checkedAt := 0, savedAt := 0 }
    let next := after ⟨.release, 0⟩ s call
    returned ⟨.release, 0⟩ next call = some (ckptPath "runs" 0 0) ∧
      ckptPath "runs" 0 0 ∉ (after ⟨.release, 0⟩ next call).disk ∧
        ¬ Runs.Throughout (after ⟨.release, 0⟩) (saved ⟨.release, 0⟩)
            (fun s saves call => Live (after ⟨.release, 0⟩ s call)
              (saves ++ saved ⟨.release, 0⟩ s call) (returned ⟨.release, 0⟩ s call))
            s [] [call, call] := by
  intro s call next
  have hreturned : returned ⟨.release, 0⟩ next call = some (ckptPath "runs" 0 0) := rfl
  have hgone : ckptPath "runs" 0 0 ∉ (after ⟨.release, 0⟩ next call).disk := by decide
  refine ⟨hreturned, hgone, ?_⟩
  rintro ⟨-, hlive, -⟩
  exact hgone (hlive.returned _ hreturned)

end Runs

end Serde
end Rustorch
