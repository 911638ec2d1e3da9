import Rustorch.Lib.Machine

/-!
# The autoscale controller

`autoscale.rs`: each snapshot of the load gives a decision, which is applied to the worker count
before the next snapshot.  An `Instant` is a number of nanoseconds, read once for each snapshot;
`none` is an arithmetic overflow of a `u32`.  Latencies are only compared, so they have any type
with an order.

- `Timer`     : what `idle_since` says about the snapshots so far
- `Safe`      : bounds, and the reasons for every decision
-/

namespace Rustorch
namespace Serve

open List

variable {F : Type}

structure LoadSnapshot (F : Type) where
  p99LatencyMs : F
  queueDepth : Nat
  gpuUtil : Nat

structure AutoscaleTarget (F : Type) where
  p99TargetMs : F
  queueThreshold : Nat
  idleWindow : Nat
  minWorkers : Nat
  maxWorkers : Nat
  step : Nat

inductive ScaleDecision
  | hold
  | scaleUp (delta : Nat)
  | scaleDown (delta : Nat)
  deriving DecidableEq, Repr

structure AutoscaleController (F : Type) where
  target : AutoscaleTarget F
  currentWorkers : Nat
  lastScale : Option Nat
  idleSince : Option Nat

/-- A `u32` sum. -/
def addU32 (a b : Nat) : Option Nat :=
  if a + b < u32Size then some (a + b) else none

/-- A `u32` difference. -/
def subU32 (a b : Nat) : Option Nat :=
  if b ≤ a then some (a - b) else none

namespace AutoscaleController

def new (target : AutoscaleTarget F) (initialWorkers : Nat) : AutoscaleController F where
  target := target
  currentWorkers := min (max initialWorkers target.minWorkers) target.maxWorkers
  lastScale := none
  idleSince := none

def tryScaleUp (c : AutoscaleController F) (now : Nat) :
    Option (AutoscaleController F × ScaleDecision) :=
  if c.currentWorkers ≥ c.target.maxWorkers then
    some (c, .hold)
  else
    (subU32 c.target.maxWorkers c.currentWorkers).map fun room =>
      ({ c with lastScale := some now }, .scaleUp (min c.target.step room))

def tryScaleDown (c : AutoscaleController F) (now : Nat) :
    Option (AutoscaleController F × ScaleDecision) :=
  if c.currentWorkers ≤ c.target.minWorkers then
    some (c, .hold)
  else
    (subU32 c.currentWorkers c.target.minWorkers).map fun room =>
      ({ c with lastScale := some now }, .scaleDown (min c.target.step room))

/-- The idle timer starts again after a scale-down. -/
def resetTimer (now : Nat) : AutoscaleController F × ScaleDecision →
    AutoscaleController F × ScaleDecision
  | (c, .scaleDown delta) => ({ c with idleSince := some now }, .scaleDown delta)
  | (c, dec) => (c, dec)

variable [LT F] [DecidableLT F]

def breach (target : AutoscaleTarget F) (snap : LoadSnapshot F) : Bool :=
  target.p99TargetMs < snap.p99LatencyMs ∨ target.queueThreshold ≤ snap.queueDepth

def idleNow (snap : LoadSnapshot F) : Bool :=
  snap.gpuUtil < 5 ∧ snap.queueDepth = 0

def tick (c : AutoscaleController F) (now : Nat) (snap : LoadSnapshot F) :
    Option (AutoscaleController F × ScaleDecision) :=
  if breach c.target snap then
    tryScaleUp { c with idleSince := none } now
  else if idleNow snap then
    let started := c.idleSince.getD now
    let c := { c with idleSince := some started }
    if now - started ≥ c.target.idleWindow then
      (c.tryScaleDown now).map (resetTimer now)
    else
      some (c, .hold)
  else
    some ({ c with idleSince := none }, .hold)

omit [LT F] [DecidableLT F] in
def applyDecision (c : AutoscaleController F) : ScaleDecision → Option (AutoscaleController F)
  | .scaleUp delta =>
    (addU32 c.currentWorkers delta).map fun workers =>
      { c with currentWorkers := min workers c.target.maxWorkers }
  | .scaleDown delta =>
    some { c with currentWorkers := max (c.currentWorkers - delta) c.target.minWorkers }
  | .hold => some c

/-! ## Runs -/

/-- A snapshot with its time, the decision it led to, and the workers after that. -/
structure Record (F : Type) where
  time : Nat
  snap : LoadSnapshot F
  decision : ScaleDecision
  workers : Nat

/-- One snapshot: the decision is applied at once. -/
def advance (c : AutoscaleController F) (now : Nat) (snap : LoadSnapshot F) :
    Option (AutoscaleController F × Record F) := do
  let (c, dec) ← c.tick now snap
  let c ← c.applyDecision dec
  return (c, { time := now, snap := snap, decision := dec, workers := c.currentWorkers })

def observe (c : AutoscaleController F) :
    List (Nat × LoadSnapshot F) → Option (AutoscaleController F × List (Record F))
  | [] => some (c, [])
  | (now, snap) :: snaps => do
    let (c, r) ← c.advance now snap
    let (c, log) ← c.observe snaps
    return (c, r :: log)

/-- From some snapshot at least a window ago up to the last one, all were idle. -/
def IdleFor (target : AutoscaleTarget F) (log : List (Record F)) (now : Nat) : Prop :=
  ∃ earlier first span, log = earlier ++ first :: span ∧ first.time + target.idleWindow ≤ now ∧
    ∀ x ∈ first :: span, idleNow x.snap = true ∧ breach target x.snap = false

/-- What is promised of the last record of a log, given the records before it. -/
structure Justified (target : AutoscaleTarget F) (log : List (Record F)) (r : Record F) : Prop where
  bounded : target.minWorkers ≤ r.workers ∧ r.workers ≤ target.maxWorkers
  up : ∀ delta, r.decision = .scaleUp delta → breach target r.snap = true
  down : ∀ delta, r.decision = .scaleDown delta → IdleFor target (log ++ [r]) r.time
  spaced : ∀ delta, r.decision = .scaleDown delta →
    ∀ x ∈ log, x.decision ≠ .hold → x.time + target.idleWindow ≤ r.time

/-- Every record of the log is justified by those before it. -/
def Safe (target : AutoscaleTarget F) (log : List (Record F)) : Prop :=
  ∀ before r after, log = before ++ r :: after → Justified target before r

/-! ## What one tick can do -/

section Tick

variable {c c' : AutoscaleController F} {now : Nat} {snap : LoadSnapshot F} {dec : ScaleDecision}

omit [LT F] [DecidableLT F] in
theorem subU32_of_lt {a b : Nat} (h : b < a) : subU32 a b = some (a - b) :=
  if_pos h.le

/-- The ways a tick can go; none of them overflows. -/
theorem tick_cases (c : AutoscaleController F) (now : Nat) (snap : LoadSnapshot F) :
    (breach c.target snap = true ∧ c.currentWorkers < c.target.maxWorkers ∧
      c.tick now snap = some ({ c with idleSince := none, lastScale := some now },
        .scaleUp (min c.target.step (c.target.maxWorkers - c.currentWorkers)))) ∨
    (breach c.target snap = false ∧ idleNow snap = true ∧
      c.target.idleWindow ≤ now - c.idleSince.getD now ∧
      c.target.minWorkers < c.currentWorkers ∧
      c.tick now snap = some ({ c with idleSince := some now, lastScale := some now },
        .scaleDown (min c.target.step (c.currentWorkers - c.target.minWorkers)))) ∨
    (∃ idleSince, c.tick now snap = some ({ c with idleSince := idleSince }, .hold) ∧
      (idleSince = none ∨ (breach c.target snap = false ∧ idleNow snap = true ∧
        idleSince = some (c.idleSince.getD now)))) := by
  unfold tick
  cases hbreach : breach c.target snap with
  | true =>
    unfold tryScaleUp
    by_cases hfull : c.currentWorkers ≥ c.target.maxWorkers
    · rw [if_pos hfull]
      exact Or.inr (Or.inr ⟨none, rfl, Or.inl rfl⟩)
    · rw [if_neg hfull]
      simp only [subU32_of_lt (Nat.lt_of_not_le hfull)]
      exact Or.inl ⟨trivial, Nat.lt_of_not_le hfull, rfl⟩
  | false =>
    cases hidle : idleNow snap with
    | false => exact Or.inr (Or.inr ⟨none, rfl, Or.inl rfl⟩)
    | true =>
      simp only
      by_cases hwindow : now - c.idleSince.getD now ≥ c.target.idleWindow
      · rw [if_pos hwindow]
        unfold tryScaleDown
        by_cases hleast : c.currentWorkers ≤ c.target.minWorkers
        · rw [if_pos hleast]
          exact Or.inr (Or.inr ⟨_, rfl, Or.inr ⟨trivial, trivial, rfl⟩⟩)
        · rw [if_neg hleast]
          -- The two guards make both subtractions of the source safe.
          have hlt := Nat.lt_of_not_le hleast
          simp only [subU32_of_lt hlt]
          exact Or.inr (Or.inl ⟨trivial, trivial, hwindow, hlt, rfl⟩)
      · rw [if_neg hwindow]
        exact Or.inr (Or.inr ⟨_, rfl, Or.inr ⟨trivial, trivial, rfl⟩⟩)

end Tick

/-! ## The timer -/

/-- The timer stands for a stretch of idle snapshots that reaches to the end of the log, and no
decision was taken after its start. -/
structure Timer (target : AutoscaleTarget F) (log : List (Record F)) (started : Nat) : Prop where
  stretch : ∃ earlier first span, log = earlier ++ first :: span ∧ first.time = started ∧
    ∀ x ∈ first :: span, idleNow x.snap = true ∧ breach target x.snap = false
  decisions : ∀ x ∈ log, x.decision ≠ .hold → x.time ≤ started

section Timer

variable {target : AutoscaleTarget F} {log : List (Record F)} {r : Record F} {started : Nat}

variable (h : Timer target log started)

include h

theorem Timer.le {now : Nat} (hlog : ∀ x ∈ log, x.time ≤ now) :
    started ≤ now := by
  obtain ⟨earlier, first, span, rfl, rfl, _⟩ := h.stretch
  exact hlog first (mem_append_right _ mem_cons_self)

omit h in
theorem Timer.start (hidle : idleNow r.snap = true ∧ breach target r.snap = false)
    (hlog : ∀ x ∈ log, x.time ≤ r.time) : Timer target (log ++ [r]) r.time where
  stretch := ⟨log, r, [], rfl, rfl, fun x hx => by rwa [mem_singleton.1 hx]⟩
  decisions x hx _ := by
    rcases mem_append.1 hx with hx | hx
    · exact hlog x hx
    · rw [mem_singleton.1 hx]

theorem Timer.extend (hidle : idleNow r.snap = true ∧ breach target r.snap = false)
    (hhold : r.decision = .hold) :
    Timer target (log ++ [r]) started where
  stretch := by
    obtain ⟨earlier, first, span, rfl, hfirst, hall⟩ := h.stretch
    refine ⟨earlier, first, span ++ [r], by simp, hfirst, ?_⟩
    intro x hx
    rcases mem_append.1 (show x ∈ (first :: span) ++ [r] by simpa using hx) with hx | hx
    · exact hall x hx
    · rwa [mem_singleton.1 hx]
  decisions x hx hne := by
    rcases mem_append.1 hx with hx | hx
    · exact h.decisions x hx hne
    · rw [mem_singleton.1 hx] at hne
      exact absurd hhold hne

theorem Timer.idleFor (hidle : idleNow r.snap = true ∧ breach target r.snap = false)
    (hwindow : started + target.idleWindow ≤ r.time) : IdleFor target (log ++ [r]) r.time := by
  obtain ⟨earlier, first, span, rfl, rfl, hall⟩ := h.stretch
  refine ⟨earlier, first, span ++ [r], by simp, hwindow, ?_⟩
  intro x hx
  rcases mem_append.1 (show x ∈ (first :: span) ++ [r] by simpa using hx) with hx | hx
  · exact hall x hx
  · rwa [mem_singleton.1 hx]

end Timer

/-! ## Runs stay safe -/

/-- The controller after the snapshots of a log. -/
structure Follows (target : AutoscaleTarget F) (log : List (Record F))
    (c : AutoscaleController F) : Prop where
  aim : c.target = target
  bounded : target.minWorkers ≤ c.currentWorkers ∧ c.currentWorkers ≤ target.maxWorkers
  timer : ∀ started, c.idleSince = some started → Timer target log started
  safe : Safe target log

variable {target : AutoscaleTarget F}

theorem safe_append {log : List (Record F)} {r : Record F} (h : Safe target log)
    (hr : Justified target log r) : Safe target (log ++ [r]) := by
  intro before x after heq
  rcases eq_nil_or_concat after with rfl | ⟨after', y, rfl⟩
  · obtain ⟨rfl, hx⟩ := append_inj' heq rfl
    cases hx
    exact hr
  · have hsplit : log ++ [r] = (before ++ x :: after') ++ [y] := by simpa using heq
    obtain ⟨hlog, _⟩ := append_inj' hsplit rfl
    exact h before x after' hlog

section Step

variable {target : AutoscaleTarget F} {log : List (Record F)} {c : AutoscaleController F}
variable {now : Nat} {snap : LoadSnapshot F}

variable (h : Follows target log c)

include h

theorem Follows.scaleUp (hmax : target.maxWorkers < u32Size)
    (hbreach : breach target snap = true) (hroom : c.currentWorkers < target.maxWorkers)
    (htick : c.tick now snap = some ({ c with idleSince := none, lastScale := some now },
      .scaleUp (min target.step (target.maxWorkers - c.currentWorkers)))) :
    ∃ c' r, c.advance now snap = some (c', r) ∧ r.time = now ∧ r.snap = snap ∧
      Follows target (log ++ [r]) c' := by
  let delta := min target.step (target.maxWorkers - c.currentWorkers)
  have hmin := h.bounded.1
  have hfits : addU32 c.currentWorkers delta = some (c.currentWorkers + delta) :=
    if_pos (by omega)
  let c' : AutoscaleController F := { c with
    idleSince := none, lastScale := some now,
    currentWorkers := min (c.currentWorkers + delta) c.target.maxWorkers }
  let r : Record F :=
    { time := now, snap := snap, decision := .scaleUp delta, workers := c'.currentWorkers }
  have hbounded : target.minWorkers ≤ c'.currentWorkers ∧
      c'.currentWorkers ≤ target.maxWorkers := by
    change target.minWorkers ≤ min (c.currentWorkers + delta) c.target.maxWorkers ∧
      min (c.currentWorkers + delta) c.target.maxWorkers ≤ target.maxWorkers
    rw [h.aim]
    omega
  refine ⟨c', r, ?_, rfl, rfl, ?_⟩
  · unfold advance
    rw [htick]
    change (Option.bind ((addU32 c.currentWorkers delta).map _) _) = _
    rw [hfits]
    rfl
  · refine ⟨h.aim, hbounded, ?_, safe_append h.safe ⟨hbounded, fun _ _ => hbreach, ?_, ?_⟩⟩
    · intro started hstarted
      cases hstarted
    · intro d hd
      cases hd
    · intro d hd
      cases hd

theorem Follows.scaleDown (hlog : ∀ x ∈ log, x.time ≤ now)
    (hidle : idleNow snap = true ∧ breach target snap = false)
    (hwindow : target.idleWindow ≤ now - c.idleSince.getD now)
    (hroom : target.minWorkers < c.currentWorkers)
    (htick : c.tick now snap = some ({ c with idleSince := some now, lastScale := some now },
      .scaleDown (min target.step (c.currentWorkers - target.minWorkers)))) :
    ∃ c' r, c.advance now snap = some (c', r) ∧ r.time = now ∧ r.snap = snap ∧
      Follows target (log ++ [r]) c' := by
  let delta := min target.step (c.currentWorkers - target.minWorkers)
  have hmax := h.bounded.2
  let c' : AutoscaleController F := { c with
    idleSince := some now, lastScale := some now,
    currentWorkers := max (c.currentWorkers - delta) c.target.minWorkers }
  let r : Record F :=
    { time := now, snap := snap, decision := .scaleDown delta, workers := c'.currentWorkers }
  have hbounded : target.minWorkers ≤ c'.currentWorkers ∧
      c'.currentWorkers ≤ target.maxWorkers := by
    change target.minWorkers ≤ max (c.currentWorkers - delta) c.target.minWorkers ∧
      max (c.currentWorkers - delta) c.target.minWorkers ≤ target.maxWorkers
    rw [h.aim]
    omega
  have hstart : Timer target (log ++ [r]) now := Timer.start hidle hlog
  -- the stretch starts with the timer, or with this snapshot
  have hdown : IdleFor target (log ++ [r]) now ∧
      ∀ x ∈ log, x.decision ≠ .hold → x.time + target.idleWindow ≤ now := by
    cases hsince : c.idleSince with
    | none =>
      rw [hsince, Option.getD_none, Nat.sub_self] at hwindow
      refine ⟨⟨log, r, [], rfl, ?_, ?_⟩, ?_⟩
      · change now + _ ≤ now
        omega
      · exact fun x hx => by rwa [mem_singleton.1 hx]
      · intro x hx _
        have hle := hlog x hx
        omega
    | some started =>
      rw [hsince, Option.getD_some] at hwindow
      have htimer := h.timer started hsince
      have hle := htimer.le hlog
      refine ⟨htimer.idleFor hidle (by change _ ≤ now; omega), ?_⟩
      intro x hx hne
      have hx := htimer.decisions x hx hne
      omega
  refine ⟨c', r, ?_, rfl, rfl, ?_⟩
  · unfold advance
    rw [htick]
    rfl
  · refine ⟨h.aim, hbounded, ?_, safe_append h.safe ⟨hbounded, ?_, ?_, ?_⟩⟩
    · intro started hstarted
      cases hstarted
      exact hstart
    · intro d hd
      cases hd
    · exact fun _ _ => hdown.1
    · exact fun _ _ => hdown.2

theorem Follows.hold (hlog : ∀ x ∈ log, x.time ≤ now)
    {idleSince : Option Nat}
    (htick : c.tick now snap = some ({ c with idleSince := idleSince }, .hold))
    (hsince : idleSince = none ∨ (breach target snap = false ∧ idleNow snap = true ∧
      idleSince = some (c.idleSince.getD now))) :
    ∃ c' r, c.advance now snap = some (c', r) ∧ r.time = now ∧ r.snap = snap ∧
      Follows target (log ++ [r]) c' := by
  let r : Record F :=
    { time := now, snap := snap, decision := .hold, workers := c.currentWorkers }
  refine ⟨{ c with idleSince := idleSince }, r, ?_, rfl, rfl, ?_⟩
  · unfold advance
    rw [htick]
    rfl
  · refine ⟨h.aim, h.bounded, ?_, safe_append h.safe ⟨h.bounded, ?_, ?_, ?_⟩⟩
    · intro started hstarted
      rcases hsince with hnone | ⟨hbreach, hidle, hsome⟩
      · rw [hnone] at hstarted
        cases hstarted
      · rw [hsome] at hstarted
        cases hstarted
        cases hold : c.idleSince with
        | none => exact Timer.start ⟨hidle, hbreach⟩ hlog
        | some started => exact (h.timer started hold).extend ⟨hidle, hbreach⟩ rfl
    · intro d hd
      cases hd
    · intro d hd
      cases hd
    · intro d hd
      cases hd

theorem Follows.advance (snap : LoadSnapshot F) (hmax : target.maxWorkers < u32Size)
    (hlog : ∀ x ∈ log, x.time ≤ now) :
    ∃ c' r, c.advance now snap = some (c', r) ∧ r.time = now ∧ r.snap = snap ∧
      Follows target (log ++ [r]) c' := by
  have haim := h.aim
  subst haim
  rcases tick_cases c now snap with ⟨hbreach, hroom, htick⟩ | ⟨hbreach, hidle, hwindow, hroom, htick⟩ |
    ⟨idleSince, htick, hsince⟩
  · exact h.scaleUp hmax hbreach hroom htick
  · exact h.scaleDown hlog ⟨hidle, hbreach⟩ hwindow hroom htick
  · exact h.hold hlog htick hsince

end Step

theorem Follows.observe (hmax : target.maxWorkers < u32Size) (snaps : List (Nat × LoadSnapshot F)) :
    ∀ (log : List (Record F)) (c : AutoscaleController F), Follows target log c →
      (∀ x ∈ log, ∀ p ∈ snaps, x.time ≤ p.1) → (snaps.map Prod.fst).Pairwise (· ≤ ·) →
        ∃ c' rest, c.observe snaps = some (c', rest) ∧
          rest.map (fun r => (r.time, r.snap)) = snaps ∧ Follows target (log ++ rest) c' := by
  induction snaps with
  | nil => exact fun log c h _ _ => ⟨c, [], rfl, rfl, by rwa [append_nil]⟩
  | cons p snaps ih =>
    intro log c h hlog hsorted
    obtain ⟨now, snap⟩ := p
    rw [map_cons, pairwise_cons] at hsorted
    obtain ⟨c', r, hadvance, rfl, rfl, h'⟩ :=
      h.advance snap hmax (fun x hx => hlog x hx _ mem_cons_self)
    have hlog' : ∀ x ∈ log ++ [r], ∀ p ∈ snaps, x.time ≤ p.1 := by
      intro x hx p hp
      rcases mem_append.1 hx with hx | hx
      · exact hlog x hx p (mem_cons_of_mem _ hp)
      · rw [mem_singleton.1 hx]
        exact hsorted.1 p.1 (mem_map_of_mem hp)
    obtain ⟨c'', rest, hobserve, hmap, h''⟩ := ih _ c' h' hlog' hsorted.2
    refine ⟨c'', r :: rest, ?_, ?_, ?_⟩
    · unfold AutoscaleController.observe
      rw [hadvance]
      change (c'.observe snaps).bind _ = _
      rw [hobserve]
      rfl
    · rw [map_cons, hmap]
    · rwa [append_assoc] at h''

theorem follows_new (hmin : target.minWorkers ≤ target.maxWorkers) (initialWorkers : Nat) :
    Follows target [] (new target initialWorkers) where
  aim := rfl
  bounded := by
    unfold new
    simp only
    omega
  timer started hstarted := by cases hstarted
  safe before r after heq := by
    cases before with
    | nil => cases heq
    | cons x before => cases heq

/-- For every target, every initial count and every sequence of snapshots in time order. -/
theorem observe_safe (target : AutoscaleTarget F) (initialWorkers : Nat)
    (snaps : List (Nat × LoadSnapshot F)) (hmin : target.minWorkers ≤ target.maxWorkers)
    (hmax : target.maxWorkers < u32Size) (hsorted : (snaps.map Prod.fst).Pairwise (· ≤ ·)) :
    (target.minWorkers ≤ (new target initialWorkers).currentWorkers ∧
      (new target initialWorkers).currentWorkers ≤ target.maxWorkers) ∧
    ∃ c log, (new target initialWorkers).observe snaps = some (c, log) ∧
      log.map (fun r => (r.time, r.snap)) = snaps ∧ Safe target log := by
  have hnew := follows_new hmin initialWorkers
  refine ⟨hnew.bounded, ?_⟩
  obtain ⟨c, log, hobserve, hmap, h⟩ := Follows.observe hmax snaps [] _ hnew
    (fun x hx => by cases hx) hsorted
  exact ⟨c, log, hobserve, hmap, h.safe⟩

/-- Two workers at most; the second goes up with the queue and down after a minute of idling. -/
def pairTarget : AutoscaleTarget Nat where
  p99TargetMs := 100
  queueThreshold := 64
  idleWindow := 60
  minWorkers := 1
  maxWorkers := 2
  step := 1

theorem observe_safe_pair : ∃ c log, (new pairTarget 1).observe
    [(0, { p99LatencyMs := 10, queueDepth := 100, gpuUtil := 90 }),
      (10, { p99LatencyMs := 10, queueDepth := 0, gpuUtil := 0 }),
      (70, { p99LatencyMs := 10, queueDepth := 0, gpuUtil := 0 })] = some (c, log) ∧
    log.map Record.decision = [.scaleUp 1, .hold, .scaleDown 1] ∧ Safe pairTarget log := by
  obtain ⟨_, c, log, hobserve, _, hsafe⟩ := observe_safe pairTarget 1
    [(0, { p99LatencyMs := 10, queueDepth := 100, gpuUtil := 90 }),
      (10, { p99LatencyMs := 10, queueDepth := 0, gpuUtil := 0 }),
      (70, { p99LatencyMs := 10, queueDepth := 0, gpuUtil := 0 })]
    (by decide) (by decide) (by decide)
  refine ⟨c, log, hobserve, ?_, hsafe⟩
  have hlog := congrArg (Option.map (fun x => x.2.map Record.decision)) hobserve
  exact (Option.some.inj hlog).symm

end AutoscaleController
end Serve
end Rustorch
