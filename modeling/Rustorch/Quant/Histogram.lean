import Mathlib.Data.List.ReduceOption
import Rustorch.Lib.Filling
import Rustorch.Lib.Machine
import Rustorch.Lib.Tally
import Rustorch.Quant.Calibration

/-!
# The histogram observer

`HistogramObserver` counts values in bins over a range that grows with the largest magnitude.  The
counts of earlier batches stay in the bins of the range that they were counted over.  So the
counts are those of the final range exactly when no value changes its bin, and the range that
`freeze` takes covers its share of the values exactly when the bins around the middle one do not
promise more than half a bin too much (`calibrated_iff_same_bins`).

Floats are an exact field.  A float that is NaN or infinite is `none`.
-/

namespace Rustorch
namespace Quant

open List Outcome Machine

attribute [local instance] Rounding.two_atLeastTwo

local instance ten_atLeastTwo : Nat.AtLeastTwo 10 := ⟨by decide⟩

inductive ObserverError
  | shapeMismatch (expected got : Nat)
  | empty
  deriving DecidableEq, Repr

structure HistogramObserver (F : Type) where
  bins : Nat
  amax : F
  counts : List Nat
  seen : Nat
  nanCount : Nat
  deriving DecidableEq, Repr

open HistogramObserver

section Code

variable {F : Type} [Field F] [LinearOrder F]

/-- The bin of a value over `[-amax, amax]`. -/
def binIdx [FloorRing F] (bins : Nat) (amax x : F) : Nat :=
  let normalised := (x + amax) / (2 * amax)
  -- the cast of a negative float to `usize` is 0, as is its floor in the naturals
  min ⌊normalised * bins⌋₊ (bins - 1)

/-- `count.saturating_add(1)` -/
def saturatingSucc (count : Nat) : Nat :=
  min (count + 1) (u64Size - 1)

/-- The fold of the magnitudes of the finite values. -/
def newAmax (amax : F) (values : List (Option F)) : F :=
  (values.reduceOption).foldl (fun acc x => max acc |x|) amax

namespace HistogramObserver

def new (bins : Nat) (amaxInit : F) : HistogramObserver F where
  bins := max bins 2
  amax := max amaxInit (1 / 10 ^ 9)
  counts := List.replicate (max bins 2) 0
  seen := 0
  nanCount := 0

def grow (h : HistogramObserver F) (values : List (Option F)) : HistogramObserver F :=
  if newAmax h.amax values > h.amax then { h with amax := newAmax h.amax values } else h

variable [FloorRing F]

/-- The body of the loop of `update`. -/
def record {ε : Type} (mach : Machine) (h : HistogramObserver F) :
    Option F → Outcome ε (HistogramObserver F)
  | some x => do
    let i := binIdx h.bins h.amax x
    let count ← Outcome.expect h.counts[i]?
    let seen ← mach.add h.seen 1
    return { h with counts := h.counts.set i (saturatingSucc count), seen }
  | none => do
    let nanCount ← mach.add h.nanCount 1
    return { h with nanCount }

def update {ε : Type} (mach : Machine) (h : HistogramObserver F) (values : List (Option F)) :
    Outcome ε (HistogramObserver F) :=
  -- the counts of earlier batches are not moved to the bins of the new range
  values.foldlM (record mach) (h.grow values)

/-- One observer over successive batches. -/
def observe {ε : Type} (mach : Machine) (bins : Nat) (amaxInit : F)
    (batches : List (List (Option F))) : Outcome ε (HistogramObserver F) :=
  batches.foldlM (update mach) (new bins amaxInit)

omit [FloorRing F] [Field F] [LinearOrder F] in
/-- `counts[lo..=hi].iter().sum()` -/
def covered {ε : Type} (mach : Machine) (h : HistogramObserver F) (r : Nat) : Outcome ε Nat := do
  let centre := h.bins / 2
  let lo := centre - r
  let hi := min (centre + r) (h.bins - 1)
  let window ← Outcome.expect (Filling.slice h.counts lo (hi + 1))
  window.foldlM (mach.add) 0

omit [FloorRing F] [Field F] [LinearOrder F] in
/-- The loop over the radii; it breaks at the first that covers the target. -/
def chosenRadius {ε : Type} (mach : Machine) (h : HistogramObserver F) (target : Nat) :
    List Nat → Outcome ε Nat
  | [] => .ok (h.bins / 2)
  | r :: radii => do
    let mass ← h.covered mach r
    if mass ≥ target then return r else h.chosenRadius mach target radii

omit [FloorRing F] in
/-- The target is `seen * 0.999`, rounded down. -/
def freeze (mach : Machine) (h : HistogramObserver F) : Outcome ObserverError (QParams F) :=
  if h.seen = 0 then
    .err .empty
  else do
    let target := h.seen * 999 / 1000
    let radius ← h.chosenRadius mach target (List.range (h.bins / 2 + 1))
    let binWidth := 2 * h.amax / h.bins
    let amaxChosen := (radius + 1 / 2) * binWidth
    match QParams.fromMinMax (-amaxChosen) amaxChosen with
    | some qp => return qp
    | none => .err .empty

end HistogramObserver

end Code

/-! ## What the observer is for -/

section Meaning

variable {F : Type} [Field F] [LinearOrder F]

def grown (amax : F) (xs : List F) : F :=
  xs.foldl (fun acc x => max acc |x|) amax

/-- The largest of the initial range, `1e-9` and the magnitudes. -/
def spanned (amaxInit : F) (xs : List F) : F :=
  grown (max amaxInit (1 / 10 ^ 9)) xs

/-- The share of the values that the frozen range owes. -/
def share (xs : List F) : Nat :=
  xs.length * 999 / 1000

variable [FloorRing F]

/-- The state speaks of the values only: of their number, the largest magnitude and their bins over
the final range; and the frozen range covers its share. -/
structure HistogramObserver.Describes (mach : Machine) (bins : Nat) (amaxInit : F) (xs : List F)
    (h : HistogramObserver F) : Prop where
  amax : h.amax = spanned amaxInit xs
  counts : h.counts =
    Tally.tally (max bins 2) (xs.map (binIdx (max bins 2) (spanned amaxInit xs)))
  seen : h.seen = xs.length
  covers : xs ≠ [] → ∃ qp, h.freeze mach = .ok qp ∧
    share xs ≤ xs.countP fun x => decide (|x| ≤ 127 * qp.scale)

/-- The run over the batches ends, and its state describes the values. -/
def Calibrated (mach : Machine) (bins : Nat) (amaxInit : F) (batches : List (List F)) : Prop :=
  ∃ h : HistogramObserver F,
    (observe mach bins amaxInit (batches.map fun batch => batch.map some) :
      Outcome ObserverError (HistogramObserver F)) = .ok h ∧
    h.Describes mach bins amaxInit batches.flatten

omit [FloorRing F] in
/-- The values, each with the range that its batch is counted over. -/
def readings : F → List (List F) → List (F × F)
  | _, [] => []
  | amax, batch :: batches =>
    batch.map (fun x => (x, grown amax batch)) ++ readings (grown amax batch) batches

/-- No value changes its bin when the range grows to the final one. -/
def SameBins (bins : Nat) (amaxInit : F) (batches : List (List F)) : Prop :=
  ∀ v ∈ readings (max amaxInit (1 / 10 ^ 9)) batches,
    binIdx (max bins 2) v.2 v.1 =
      binIdx (max bins 2) (spanned amaxInit batches.flatten) v.1

/-- The bin is at most `r` bins away from the middle one. -/
def Near (bins r i : Nat) : Prop :=
  bins / 2 - r ≤ i ∧ i ≤ bins / 2 + r

instance (bins r i : Nat) : Decidable (Near bins r i) :=
  inferInstanceAs (Decidable (_ ∧ _))

/-- Where the bins around the middle one hold the share, so do the values of magnitude up to that
many and a half bins. -/
def RadiiReach (bins : Nat) (amaxInit : F) (xs : List F) : Prop :=
  let b := max bins 2
  let amax := spanned amaxInit xs
  ∀ r ≤ b / 2, (share xs ≤ xs.countP fun x => decide (Near b r (binIdx b amax x))) →
    share xs ≤ xs.countP fun x => decide (|x| ≤ (r + 1 / 2) * (2 * amax / b))

end Meaning

/-! ## Bins -/

section Bins

variable {F : Type} [Field F] [LinearOrder F] [FloorRing F] {b : Nat} {a a' x : F}

theorem binIdx_lt (hb : 0 < b) : binIdx b a x < b :=
  Nat.lt_of_le_of_lt (Nat.min_le_right _ _) (Nat.sub_lt hb Nat.zero_lt_one)

theorem position_eq (ha : 0 < a) : (x + a) / (2 * a) * b = (b : F) / 2 + x * b / (2 * a) := by
  field_simp
  ring

variable [IsStrictOrderedRing F]

theorem floor_half (b : Nat) : ⌊(b : F) / 2⌋₊ = b / 2 := by
  have hlo : ((2 * (b / 2) : ℕ) : F) ≤ b := Nat.cast_le.2 (by omega)
  have hhi : (b : F) < ((2 * (b / 2) + 2 : ℕ) : F) := Nat.cast_lt.2 (by omega)
  push_cast at hlo hhi
  exact (Nat.floor_eq_iff (by positivity)).2 ⟨by linarith, by linarith⟩

/-- A value that is not negative lies in the middle bin or above it; a growing range moves it
down. -/
theorem binIdx_of_nonneg (hb : 2 ≤ b) (ha : 0 < a) (haa' : a ≤ a') (hx : 0 ≤ x) :
    b / 2 ≤ binIdx b a' x ∧ binIdx b a' x ≤ binIdx b a x := by
  have ha' : 0 < a' := ha.trans_le haa'
  unfold binIdx
  simp only [position_eq ha, position_eq ha']
  have hmid : b / 2 ≤ ⌊(b : F) / 2 + x * b / (2 * a')⌋₊ := by
    rw [← floor_half (F := F)]
    exact Nat.floor_mono (le_add_of_nonneg_right (by positivity))
  have hdown : ⌊(b : F) / 2 + x * b / (2 * a')⌋₊ ≤ ⌊(b : F) / 2 + x * b / (2 * a)⌋₊ :=
    Nat.floor_mono (by gcongr)
  -- the middle bin is at most the last one, where the index is clamped
  exact ⟨le_min hmid (by omega), min_le_min hdown le_rfl⟩

/-- A negative value lies in the middle bin or below it; a growing range moves it up. -/
theorem binIdx_of_neg (ha : 0 < a) (haa' : a ≤ a') (hx : x < 0) :
    binIdx b a x ≤ binIdx b a' x ∧ binIdx b a' x ≤ b / 2 := by
  have ha' : 0 < a' := ha.trans_le haa'
  have hb' : (0 : F) ≤ b := Nat.cast_nonneg b
  unfold binIdx
  simp only [position_eq ha, position_eq ha']
  have hnum : x * b ≤ 0 := mul_nonpos_of_nonpos_of_nonneg hx.le hb'
  have hup : x * b / (2 * a) ≤ x * b / (2 * a') :=
    (div_le_div_iff₀ (by linarith) (by linarith)).2
      (mul_le_mul_of_nonpos_left (by linarith) hnum)
  have hneg : x * b / (2 * a') ≤ 0 := div_nonpos_of_nonpos_of_nonneg hnum (by linarith)
  refine ⟨min_le_min (Nat.floor_mono (by linarith)) le_rfl, ?_⟩
  refine (Nat.min_le_left _ _).trans ?_
  rw [← floor_half (F := F)]
  exact Nat.floor_mono (by linarith)

/-- How far a bin is from the middle one. -/
def offset (b i : Nat) : Nat :=
  (i - b / 2) + (b / 2 - i)

theorem offset_binIdx (hb : 2 ≤ b) (ha : 0 < a) (haa' : a ≤ a') :
    offset b (binIdx b a' x) ≤ offset b (binIdx b a x) ∧
      (offset b (binIdx b a' x) = offset b (binIdx b a x) → binIdx b a' x = binIdx b a x) := by
  unfold offset
  -- each side of zero moves towards the middle bin and never across it
  rcases lt_or_ge x 0 with hx | hx
  · obtain ⟨hup, hmid⟩ := binIdx_of_neg (b := b) ha haa' hx
    omega
  · obtain ⟨hmid, hdown⟩ := binIdx_of_nonneg hb ha haa' hx
    omega

end Bins

/-! ## The range -/

section Range

variable {F : Type} [Field F] [LinearOrder F] {a : F}

theorem le_grown (xs : List F) : ∀ a : F, a ≤ grown a xs := by
  induction xs with
  | nil => exact le_refl
  | cons x xs ih => exact fun a => (le_max_left a |x|).trans (ih _)

theorem abs_le_grown {x : F} (xs : List F) : ∀ a : F, x ∈ xs → |x| ≤ grown a xs := by
  induction xs with
  | nil => exact fun _ hx => absurd hx not_mem_nil
  | cons y xs ih =>
    intro a hx
    rcases mem_cons.1 hx with rfl | hx
    · exact (le_max_right a |x|).trans (le_grown xs _)
    · exact ih _ hx

theorem grown_append (xs ys : List F) : grown a (xs ++ ys) = grown (grown a xs) ys :=
  foldl_append

theorem grown_perm {xs ys : List F} (h : xs.Perm ys) : grown a xs = grown a ys :=
  h.foldl_eq' (fun x _ y _ z => by rw [max_assoc, max_assoc, max_comm |x| |y|]) a

theorem spanned_perm {amaxInit : F} {xs ys : List F} (h : xs.Perm ys) :
    spanned amaxInit xs = spanned amaxInit ys :=
  grown_perm h

theorem map_fst_readings (batches : List (List F)) :
    ∀ a : F, (readings a batches).map Prod.fst = batches.flatten := by
  induction batches with
  | nil => exact fun _ => rfl
  | cons batch batches ih =>
    intro a
    simp [readings, ih, Function.comp_def]

/-- A value is counted over a range that lies between the first and the last. -/
theorem readings_mem {v : F × F} (batches : List (List F)) : ∀ a : F, v ∈ readings a batches →
    a ≤ v.2 ∧ v.2 ≤ grown a batches.flatten := by
  induction batches with
  | nil => exact fun _ hv => absurd hv not_mem_nil
  | cons batch batches ih =>
    intro a hv
    rw [flatten_cons, grown_append]
    rcases mem_append.1 hv with hv | hv
    · obtain ⟨x, _, rfl⟩ := mem_map.1 hv
      exact ⟨le_grown batch a, le_grown _ _⟩
    · obtain ⟨hlo, hhi⟩ := ih _ hv
      exact ⟨(le_grown batch a).trans hlo, hhi⟩

variable [IsStrictOrderedRing F]

theorem spanned_pos (amaxInit : F) (xs : List F) : 0 < spanned amaxInit xs := by
  have hfloor : (0 : F) < 1 / 10 ^ 9 := by positivity
  exact hfloor.trans_le ((le_max_right amaxInit _).trans (le_grown xs _))

end Range

/-! ## Runs -/

section Run

variable {F : Type} [Field F] [LinearOrder F] {ε : Type} {mach : Machine} {b : Nat} {a : F}
  {keys : List Nat} {h : HistogramObserver F}

/-- The state after `keys` were counted. -/
structure Recorded (b : Nat) (a : F) (keys : List Nat) (h : HistogramObserver F) : Prop where
  bins : h.bins = b
  amax : h.amax = a
  counts : h.counts = Tally.tally b keys
  seen : h.seen = keys.length
  nanCount : h.nanCount = 0

theorem recorded_new (bins : Nat) (amaxInit : F) :
    Recorded (max bins 2) (max amaxInit (1 / 10 ^ 9)) []
      (new bins amaxInit) :=
  ⟨rfl, rfl, (Tally.tally_nil _).symm, rfl, rfl⟩

theorem recorded_grow (hrec : Recorded b a keys h) (batch : List F) :
    Recorded b (grown a batch) keys (h.grow (batch.map some)) := by
  have hfold : newAmax h.amax (batch.map some) = grown a batch := by
    unfold newAmax grown
    rw [hrec.amax]
    congr 1
    induction batch with
    | nil => rfl
    | cons x batch ih => rw [map_cons, reduceOption_cons_of_some, ih]
  -- where the range does not grow, the fold returned the range that there was
  unfold grow
  rw [hfold, hrec.amax]
  split
  · exact ⟨hrec.bins, rfl, hrec.counts, hrec.seen, hrec.nanCount⟩
  · next hle =>
      have hsame : grown a batch = a := le_antisymm (not_lt.1 hle) (le_grown batch a)
      rw [hsame]
      exact hrec

variable [FloorRing F]

theorem record_some (hb : 0 < b) (hrec : Recorded b a keys h) (hsize : keys.length + 1 < u64Size)
    (x : F) : ∃ h', (h.record mach (some x) : Outcome ε (HistogramObserver F)) = .ok h' ∧
      Recorded b a (keys ++ [binIdx b a x]) h' := by
  have hcount : h.counts[binIdx b a x]? = some (keys.count (binIdx b a x)) :=
    hrec.counts ▸ Tally.getElem?_tally (binIdx_lt hb)
  have hle : keys.count (binIdx b a x) ≤ keys.length := count_le_length
  -- the counter of a bin stays below that of the values, so it does not saturate
  have hroom : saturatingSucc (keys.count (binIdx b a x)) = keys.count (binIdx b a x) + 1 :=
    Nat.min_eq_left (by omega)
  have hseen : (mach.add h.seen 1 : Outcome ε Nat) = .ok (keys.length + 1) := by
    rw [hrec.seen]
    exact add_of_lt hsize
  refine ⟨{ h with counts := h.counts.set (binIdx b a x) (keys.count (binIdx b a x) + 1),
                   seen := keys.length + 1 }, ?_, hrec.bins, hrec.amax, ?_, ?_, hrec.nanCount⟩
  · unfold record
    simp only [hrec.bins, hrec.amax, hcount, hseen, hroom, expect_some, ok_bind, pure_eq]
  · rw [Tally.tally_concat, hrec.counts]
  · rw [length_append, length_singleton]

theorem record_values (hb : 0 < b) (xs : List F) : ∀ {keys h}, Recorded b a keys h →
    keys.length + xs.length < u64Size →
    ∃ h', ((xs.map some).foldlM (record mach) h :
        Outcome ε (HistogramObserver F)) = .ok h' ∧
      Recorded b a (keys ++ xs.map (binIdx b a)) h' := by
  induction xs with
  | nil =>
    intro keys h hrec _
    exact ⟨h, rfl, by simpa using hrec⟩
  | cons x xs ih =>
    intro keys h hrec hsize
    rw [length_cons] at hsize
    obtain ⟨h₁, hstep, hrec₁⟩ := @record_some F _ _ ε mach b a _ _ _ hb hrec (by omega) x
    obtain ⟨h', hrun, hrec'⟩ := ih hrec₁ (by rw [length_append, length_singleton]; omega)
    refine ⟨h', ?_, by simpa using hrec'⟩
    rw [map_cons, foldlM_cons, hstep, ok_bind, hrun]

theorem observe_batches (hb : 0 < b) (batches : List (List F)) : ∀ {a keys h},
    Recorded b a keys h → keys.length + batches.flatten.length < u64Size →
    ∃ h', ((batches.map fun batch => batch.map some).foldlM (update mach) h :
        Outcome ε (HistogramObserver F)) = .ok h' ∧
      Recorded b (grown a batches.flatten)
        (keys ++ (readings a batches).map fun v => binIdx b v.2 v.1) h' := by
  induction batches with
  | nil =>
    intro a keys h hrec _
    exact ⟨h, rfl, by simpa [readings, grown] using hrec⟩
  | cons batch batches ih =>
    intro a keys h hrec hsize
    rw [flatten_cons, length_append] at hsize
    obtain ⟨h₁, hstep, hrec₁⟩ := @record_values F _ _ ε mach b _ _ hb batch _ _
      (recorded_grow hrec batch) (by omega)
    obtain ⟨h', hrun, hrec'⟩ := ih hrec₁
      (by rw [length_append, length_map]; omega)
    refine ⟨h', ?_, ?_⟩
    · rw [map_cons, foldlM_cons, update, hstep, ok_bind, hrun]
    · rw [flatten_cons, grown_append]
      simpa [readings, Function.comp_def] using hrec'

variable (mach) in
theorem observe_spec (bins : Nat) (amaxInit : F) (batches : List (List F))
    (hsize : batches.flatten.length < u64Size) :
    ∃ h', (observe mach bins amaxInit (batches.map fun batch => batch.map some) :
        Outcome ε (HistogramObserver F)) = .ok h' ∧
      Recorded (max bins 2) (spanned amaxInit batches.flatten)
        ((readings (max amaxInit (1 / 10 ^ 9)) batches).map fun v =>
          binIdx (max bins 2) v.2 v.1) h' := by
  have hb : 0 < max bins 2 := Nat.lt_of_lt_of_le Nat.zero_lt_two (Nat.le_max_right _ _)
  exact observe_batches hb batches (recorded_new bins amaxInit) (by simpa using hsize)

end Run

/-! ## The counter of the values -/

section Counter

variable {F : Type} [Field F] [LinearOrder F] [FloorRing F] {ε : Type} {mach : Machine}
  {h h' : HistogramObserver F}

theorem seen_lt_of_record (value : Option F)
    (hrun : (h.record mach value : Outcome ε (HistogramObserver F)) = .ok h')
    (hlt : h.seen < u64Size) : h'.seen < u64Size := by
  cases value with
  | none =>
    obtain ⟨nanCount, _, hrest⟩ := bind_eq_ok.1 hrun
    cases hrest
    exact hlt
  | some x =>
    obtain ⟨count, _, hrest⟩ := bind_eq_ok.1 hrun
    obtain ⟨seen, hseen, hrest⟩ := bind_eq_ok.1 hrest
    cases hrest
    exact lt_of_add_eq_ok hseen

theorem seen_lt_of_observe {bins : Nat} {amaxInit : F} {batches : List (List (Option F))}
    (hrun : (observe mach bins amaxInit batches :
      Outcome ε (HistogramObserver F)) = .ok h) : h.seen < u64Size := by
  have hzero : (0 : Nat) < u64Size := by decide
  refine foldlM_keeps (fun h => h.seen < u64Size) ?_ batches hrun hzero
  intro s batch s' hupdate hlt
  refine foldlM_keeps (fun h => h.seen < u64Size) (fun s a s' => seen_lt_of_record a) batch
    hupdate ?_
  unfold grow
  split
  · exact hlt
  · exact hlt

end Counter

/-! ## Freezing -/

section Freeze

variable {F : Type} [Field F] [LinearOrder F] {mach : Machine} {b : Nat} {a : F}
  {keys : List Nat} {h : HistogramObserver F}

variable {ε : Type}

theorem foldlM_add (xs : List Nat) : ∀ acc : Nat, acc + xs.sum < u64Size →
    (xs.foldlM mach.add acc : Outcome ε Nat) = .ok (acc + xs.sum) := by
  induction xs with
  | nil => exact fun _ _ => rfl
  | cons x xs ih =>
    intro acc hsum
    rw [sum_cons] at hsum ⊢
    rw [foldlM_cons, add_of_lt (by omega), ok_bind, ih _ (by omega), Nat.add_assoc]

/-- The number of keys near the middle bin. -/
def mass (b : Nat) (keys : List Nat) (r : Nat) : Nat :=
  keys.countP fun i => decide (Near b r i)

omit [Field F] [LinearOrder F] in
theorem covered_eq (hb : 0 < b) (hrec : Recorded b a keys h) (hkeys : ∀ i ∈ keys, i < b)
    (hsize : keys.length < u64Size) {r : Nat} (hr : r ≤ b / 2) :
    (h.covered mach r : Outcome ε Nat) = .ok (mass b keys r) := by
  have hlo : b / 2 - r ≤ min (b / 2 + r) (b - 1) + 1 := by
    have hmin : b / 2 - r ≤ min (b / 2 + r) (b - 1) := Nat.le_min.2 (by omega)
    omega
  have hhi : min (b / 2 + r) (b - 1) + 1 ≤ b := by
    have hmin : min (b / 2 + r) (b - 1) ≤ b - 1 := Nat.min_le_right _ _
    omega
  have hslice : Filling.slice h.counts (b / 2 - r) (min (b / 2 + r) (b - 1) + 1) =
      some (((Tally.tally b keys).drop (b / 2 - r)).take
        (min (b / 2 + r) (b - 1) + 1 - (b / 2 - r))) := by
    rw [hrec.counts, Filling.slice, if_pos ⟨hlo, by simpa using hhi⟩]
  have hsum := @Tally.sum_window b keys (b / 2 - r)
    (min (b / 2 + r) (b - 1) + 1 - (b / 2 - r)) (by omega)
  -- the clamp at the last bin takes no key away, as no key lies beyond it
  have hmass : (keys.countP fun i => decide (b / 2 - r ≤ i ∧
      i < b / 2 - r + (min (b / 2 + r) (b - 1) + 1 - (b / 2 - r)))) = mass b keys r := by
    refine countP_congr fun i hi => ?_
    have hlt := hkeys i hi
    have hmin : i ≤ min (b / 2 + r) (b - 1) ↔ i ≤ b / 2 + r ∧ i ≤ b - 1 := Nat.le_min
    simp only [decide_eq_true_eq]
    unfold Near
    generalize min (b / 2 + r) (b - 1) = hi at hlo hmin ⊢
    omega
  have hle : mass b keys r ≤ keys.length := countP_le_length
  unfold covered
  simp only [hrec.bins, hslice, expect_some, ok_bind]
  rw [foldlM_add _ 0 (by omega), hsum, hmass, Nat.zero_add]

omit [Field F] [LinearOrder F] in
theorem chosenRadius_spec (hcovered : ∀ r ≤ b / 2,
    (h.covered mach r : Outcome ε Nat) = .ok (mass b keys r)) (target : Nat) :
    ∀ radii : List Nat, radii.Pairwise (· < ·) → (∀ r ∈ radii, r ≤ b / 2) →
      (∃ r ∈ radii, target ≤ mass b keys r) →
      ∃ r ∈ radii, (h.chosenRadius mach target radii : Outcome ε Nat) = .ok r ∧
        target ≤ mass b keys r ∧ ∀ r' ∈ radii, target ≤ mass b keys r' → r ≤ r' := by
  intro radii
  induction radii with
  | nil => exact fun _ _ hex => absurd hex (by simp)
  | cons r radii ih =>
    intro hsorted hmem hex
    obtain ⟨hr, hradii⟩ := forall_mem_cons.1 hmem
    obtain ⟨hfirst, hsorted⟩ := pairwise_cons.1 hsorted
    rw [chosenRadius, hcovered r hr, ok_bind]
    -- the radii ascend, so the first that holds the target is the least
    by_cases hstop : target ≤ mass b keys r
    · refine ⟨r, mem_cons_self, if_pos hstop, hstop, ?_⟩
      intro r' hr' _
      rcases mem_cons.1 hr' with rfl | hr'
      · exact le_refl _
      · exact (hfirst r' hr').le
    · have hlater : ∃ r ∈ radii, target ≤ mass b keys r := by
        obtain ⟨r', hr', hmass⟩ := hex
        rcases mem_cons.1 hr' with rfl | hr'
        · exact absurd hmass hstop
        · exact ⟨r', hr', hmass⟩
      obtain ⟨r', hr', hrun, hmass, hleast⟩ := ih hsorted hradii hlater
      refine ⟨r', mem_cons_of_mem _ hr', (if_neg hstop).trans hrun, hmass, ?_⟩
      intro l hl hl'
      rcases mem_cons.1 hl with rfl | hl
      · exact absurd hl' hstop
      · exact hleast l hl hl'

theorem fromMinMax_symmetric [IsStrictOrderedRing F] {x : F} (hx : 0 < x) :
    QParams.fromMinMax (-x) x = some ⟨x / 127, 0⟩ := by
  have hlt : ¬ -x ≥ x := by linarith
  unfold QParams.fromMinMax
  rw [if_neg hlt]
  simp only [abs_neg, abs_of_pos hx, max_self]
  rw [if_neg hx.ne']

variable (mach) in
/-- The frozen scale comes from the least radius whose bins hold the share. -/
theorem freeze_spec [IsStrictOrderedRing F] (hb : 0 < b) (ha : 0 < a) (hrec : Recorded b a keys h)
    (hkeys : ∀ i ∈ keys, i < b) (hsize : keys.length < u64Size) (hne : keys ≠ []) :
    ∃ r ≤ b / 2, keys.length * 999 / 1000 ≤ mass b keys r ∧
      (∀ r' ≤ b / 2, keys.length * 999 / 1000 ≤ mass b keys r' → r ≤ r') ∧
      h.freeze mach = .ok ⟨(r + 1 / 2) * (2 * a / b) / 127, 0⟩ := by
  have hseen : h.seen ≠ 0 := by
    rw [hrec.seen]
    exact fun hzero => hne (length_eq_zero_iff.1 hzero)
  -- the largest radius holds every key, so the loop stops at a radius
  have hall : mass b keys (b / 2) = keys.length := by
    refine countP_eq_length.2 fun i hi => decide_eq_true ?_
    have hlt := hkeys i hi
    unfold Near
    omega
  have hcovered : ∀ r ≤ b / 2,
      (h.covered mach r : Outcome ObserverError Nat) = .ok (mass b keys r) :=
    fun r hr => covered_eq hb hrec hkeys hsize hr
  have hspec := chosenRadius_spec hcovered (keys.length * 999 / 1000)
    (range (b / 2 + 1)) pairwise_lt_range (fun r hr => Nat.le_of_lt_succ (mem_range.1 hr))
    ⟨b / 2, mem_range.2 (Nat.lt_succ_self _), by rw [hall]; omega⟩
  obtain ⟨r, hr, hrun, hmass, hleast⟩ := hspec
  refine ⟨r, Nat.le_of_lt_succ (mem_range.1 hr), hmass, ?_, ?_⟩
  · intro r' hr'
    exact hleast r' (mem_range.2 (Nat.lt_succ_of_le hr'))
  · have hbF : (0 : F) < b := Nat.cast_pos.2 hb
    have hpos : (0 : F) < (r + 1 / 2) * (2 * a / b) := by positivity
    unfold freeze
    rw [if_neg hseen]
    simp only [hrec.seen, hrec.bins, hrec.amax, hrun, ok_bind, fromMinMax_symmetric hpos, pure_eq]

end Freeze

/-! ## When the state describes the values -/

section Described

variable {F : Type} [Field F] [LinearOrder F] [FloorRing F] [IsStrictOrderedRing F]
  {mach : Machine} {bins : Nat} {amaxInit : F}

theorem two_le_bins (bins : Nat) : 2 ≤ max bins 2 :=
  Nat.le_max_right _ _

/-- Equal tallies leave no value in another bin: a growing range only moves values towards the
middle. -/
theorem sameBins_iff (bins : Nat) (amaxInit : F) (batches : List (List F)) :
    Tally.tally (max bins 2) ((readings (max amaxInit (1 / 10 ^ 9)) batches).map fun v =>
        binIdx (max bins 2) v.2 v.1) =
      Tally.tally (max bins 2)
        (batches.flatten.map (binIdx (max bins 2) (spanned amaxInit batches.flatten))) ↔
    SameBins bins amaxInit batches := by
  have hb := two_le_bins bins
  have hpos : (0 : F) < max amaxInit (1 / 10 ^ 9) := lt_max_of_lt_right (by positivity)
  have hvalues : batches.flatten.map (binIdx (max bins 2) (spanned amaxInit batches.flatten)) =
      (readings (max amaxInit (1 / 10 ^ 9)) batches).map fun v =>
        binIdx (max bins 2) (spanned amaxInit batches.flatten) v.1 := by
    rw [← map_fst_readings batches (max amaxInit (1 / 10 ^ 9)), map_map]
    rfl
  rw [hvalues]
  have hmove : ∀ v ∈ readings (max amaxInit (1 / 10 ^ 9)) batches,
      offset (max bins 2) (binIdx (max bins 2) (spanned amaxInit batches.flatten) v.1) ≤
          offset (max bins 2) (binIdx (max bins 2) v.2 v.1) ∧
        (offset (max bins 2) (binIdx (max bins 2) (spanned amaxInit batches.flatten) v.1) =
            offset (max bins 2) (binIdx (max bins 2) v.2 v.1) →
          binIdx (max bins 2) (spanned amaxInit batches.flatten) v.1 =
            binIdx (max bins 2) v.2 v.1) := by
    intro v hv
    obtain ⟨hlo, hhi⟩ := readings_mem batches _ hv
    exact offset_binIdx hb (hpos.trans_le hlo) hhi
  constructor
  · intro htally v hv
    -- the distance from the middle only falls, and equal tallies keep its sum
    exact (Tally.agree_of_tally_eq (offset (max bins 2))
      (fun v _ => binIdx_lt (by omega)) (fun v _ => binIdx_lt (by omega))
      (fun v hv => (hmove v hv).1) (fun v hv => (hmove v hv).2) htally v hv).symm
  · intro hsame
    exact congrArg _ (map_congr_left hsame)

variable {batches : List (List F)} {h : HistogramObserver F} {b : Nat}

omit [IsStrictOrderedRing F] in
/-- Where no value changes its bin, the run ends as if all had been counted over the final
range. -/
theorem Recorded.final (hrec : Recorded (max bins 2) (spanned amaxInit batches.flatten)
      ((readings (max amaxInit (1 / 10 ^ 9)) batches).map fun v =>
        binIdx (max bins 2) v.2 v.1) h) (hsame : SameBins bins amaxInit batches) :
    Recorded (max bins 2) (spanned amaxInit batches.flatten)
      (batches.flatten.map (binIdx (max bins 2) (spanned amaxInit batches.flatten))) h := by
  have hkeys : (readings (max amaxInit (1 / 10 ^ 9)) batches).map (fun v =>
      binIdx (max bins 2) v.2 v.1) =
      batches.flatten.map (binIdx (max bins 2) (spanned amaxInit batches.flatten)) := by
    rw [map_congr_left hsame, ← map_fst_readings batches (max amaxInit (1 / 10 ^ 9)), map_map]
    rfl
  exact hkeys ▸ hrec

/-- The share that the frozen range covers, where the counts are those of the final range. -/
theorem share_covered_iff {xs : List F} (hrec : Recorded (max bins 2) (spanned amaxInit xs)
      (xs.map (binIdx (max bins 2) (spanned amaxInit xs))) h) (hsize : xs.length < u64Size) :
    (xs ≠ [] → ∃ qp, h.freeze mach = .ok qp ∧
        share xs ≤ xs.countP fun x => decide (|x| ≤ 127 * qp.scale)) ↔
      RadiiReach bins amaxInit xs := by
  have hb : 0 < max bins 2 := Nat.lt_of_lt_of_le Nat.zero_lt_two (two_le_bins bins)
  have hpos := spanned_pos amaxInit xs
  have hmass : ∀ r, mass (max bins 2)
      (xs.map (binIdx (max bins 2) (spanned amaxInit xs))) r =
        xs.countP fun x => decide (Near (max bins 2) r
          (binIdx (max bins 2) (spanned amaxInit xs) x)) := by
    intro r
    rw [mass, countP_map]
    rfl
  rcases eq_nil_or_concat xs with hnil | hcons
  · subst hnil
    exact ⟨fun _ r _ _ => by simp [share], fun _ hne => absurd rfl hne⟩
  · have hne : xs ≠ [] := by
      obtain ⟨ys, y, rfl⟩ := hcons
      simp
    obtain ⟨r, hr, hshare, hleast, hfreeze⟩ := freeze_spec mach hb hpos hrec
      (forall_mem_map.2 fun _ _ => binIdx_lt hb) (by simpa using hsize) (by simpa using hne)
    rw [length_map] at hshare hleast
    simp only [hmass] at hshare hleast
    have hscale : ∀ x : F, x = 127 * (x / 127) := by
      intro x
      ring
    constructor
    · intro hcovers r' hr' hnear
      obtain ⟨qp, hqp, hcount⟩ := hcovers hne
      rw [hfreeze] at hqp
      cases hqp
      simp only [← hscale] at hcount
      refine hcount.trans (countP_mono_left fun x _ hx => ?_)
      -- the frozen radius is the least, so it reaches no further than `r'`
      have hrr' : (r : F) ≤ r' := Nat.cast_le.2 (hleast r' hr' hnear)
      have hwidth : (0 : F) ≤ 2 * spanned amaxInit xs / (max bins 2 : Nat) := by positivity
      simp only [decide_eq_true_eq] at hx ⊢
      exact hx.trans (mul_le_mul_of_nonneg_right (by linarith) hwidth)
    · intro hreach _
      refine ⟨_, hfreeze, ?_⟩
      simp only [← hscale]
      exact hreach r hr hshare

theorem Calibrated.sameBins (h : Calibrated mach bins amaxInit batches) :
    batches.flatten.length < u64Size ∧ SameBins bins amaxInit batches := by
  obtain ⟨h, hrun, hdesc⟩ := h
  have hsize : batches.flatten.length < u64Size := hdesc.seen ▸ seen_lt_of_observe hrun
  obtain ⟨h', hrun', hrec⟩ := observe_spec (ε := ObserverError) mach bins amaxInit
    batches hsize
  rw [hrun] at hrun'
  cases hrun'
  exact ⟨hsize, (sameBins_iff bins amaxInit batches).1 (hrec.counts.symm.trans hdesc.counts)⟩

variable (mach) in
omit [IsStrictOrderedRing F] in
/-- The state that the values of the batches leave, whatever the batches are. -/
theorem observe_final (hsize : batches.flatten.length < u64Size)
    (hsame : SameBins bins amaxInit batches) :
    ∃ h, (observe mach bins amaxInit (batches.map fun batch => batch.map some) :
        Outcome ObserverError (HistogramObserver F)) = .ok h ∧
      Recorded (max bins 2) (spanned amaxInit batches.flatten)
        (batches.flatten.map (binIdx (max bins 2) (spanned amaxInit batches.flatten))) h := by
  obtain ⟨h, hrun, hrec⟩ := observe_spec (ε := ObserverError) mach bins amaxInit batches
    hsize
  exact ⟨h, hrun, hrec.final hsame⟩

omit [Field F] [LinearOrder F] [FloorRing F] [IsStrictOrderedRing F] in
theorem Recorded.eq_of_perm {a : F} {keys keys' : List Nat} {h' : HistogramObserver F}
    (hrec : Recorded b a keys h) (hrec' : Recorded b a keys' h') (hperm : keys.Perm keys') :
    h = h' := by
  obtain ⟨bins, amax, counts, seen, nanCount⟩ := h
  obtain ⟨bins', amax', counts', seen', nanCount'⟩ := h'
  have hcounts : counts = counts' :=
    hrec.counts.trans ((Tally.tally_perm hperm).trans hrec'.counts.symm)
  have hseen : seen = seen' := hrec.seen.trans (hperm.length_eq.trans hrec'.seen.symm)
  rw [show bins = bins' from hrec.bins.trans hrec'.bins.symm,
    show amax = amax' from hrec.amax.trans hrec'.amax.symm, hcounts, hseen,
    show nanCount = nanCount' from hrec.nanCount.trans hrec'.nanCount.symm]

theorem position_mem {a x : F} (hb : 0 < b) (ha : 0 < a) (hx : |x| ≤ a) :
    (binIdx b a x : F) ≤ (x + a) / (2 * a) * b ∧ (x + a) / (2 * a) * b ≤ binIdx b a x + 1 := by
  obtain ⟨hlo, hhi⟩ := abs_le.1 hx
  have hbF : (0 : F) ≤ b := Nat.cast_nonneg b
  have hnonneg : 0 ≤ (x + a) / (2 * a) * b :=
    mul_nonneg (div_nonneg (by linarith) (by linarith)) hbF
  have hle : (x + a) / (2 * a) * b ≤ b := by
    refine mul_le_of_le_one_left hbF ((div_le_one (by linarith)).2 (by linarith))
  have hfloor := Nat.floor_le hnonneg
  have hceil := Nat.lt_floor_add_one ((x + a) / (2 * a) * b)
  unfold binIdx
  rcases Nat.le_total ⌊(x + a) / (2 * a) * b⌋₊ (b - 1) with hmin | hmin
  · rw [Nat.min_eq_left hmin]
    exact ⟨hfloor, hceil.le⟩
  · rw [Nat.min_eq_right hmin]
    have hcast : ((b - 1 : ℕ) : F) + 1 = b := by exact_mod_cast Nat.sub_add_cancel hb
    -- the last bin also holds the value at the end of the range
    have hlast : ((b - 1 : ℕ) : F) ≤ (⌊(x + a) / (2 * a) * b⌋₊ : ℕ) := Nat.cast_le.2 hmin
    exact ⟨hlast.trans hfloor, hcast ▸ hle⟩

theorem abs_le_of_near {r : Nat} {a x : F} (hodd : b % 2 = 1) (ha : 0 < a) (hx : |x| ≤ a)
    (hr : r ≤ b / 2) (hnear : Near b r (binIdx b a x)) : |x| ≤ (r + 1 / 2) * (2 * a / b) := by
  have hb : 0 < b := by omega
  obtain ⟨hlo, hhi⟩ := position_mem hb ha hx
  obtain ⟨hnear₁, hnear₂⟩ := hnear
  have hmid : (b : F) = 2 * (b / 2 : ℕ) + 1 := by exact_mod_cast (by omega : b = 2 * (b / 2) + 1)
  have hbelow : ((b / 2 : ℕ) : F) ≤ binIdx b a x + r := by exact_mod_cast (by omega)
  have habove : (binIdx b a x : F) ≤ (b / 2 : ℕ) + r := by exact_mod_cast hnear₂
  have hvalue : x = ((x + a) / (2 * a) * b - b / 2) * (2 * a / b) := by
    field_simp
    ring
  have hwidth : 0 ≤ 2 * a / b := by positivity
  -- the middle bin is centred at `b / 2` in the field, half a bin above its index
  have hposition : |(x + a) / (2 * a) * b - b / 2| ≤ r + 1 / 2 :=
    abs_le.2 ⟨by linarith, by linarith⟩
  calc |x| = |(x + a) / (2 * a) * b - b / 2| * (2 * a / b) := by
        rw [← abs_of_nonneg hwidth, ← abs_mul, ← hvalue]
    _ ≤ (r + 1 / 2) * (2 * a / b) := mul_le_mul_of_nonneg_right hposition hwidth

/-- With an odd number of bins the middle one is centred on zero, and nothing is promised too
much. -/
theorem radiiReach_of_odd (hodd : max bins 2 % 2 = 1) (xs : List F) :
    RadiiReach bins amaxInit xs := by
  intro r hr hshare
  refine hshare.trans (countP_mono_left fun x hx hnear => ?_)
  have hpos := spanned_pos amaxInit xs
  have habs : |x| ≤ spanned amaxInit xs := abs_le_grown xs _ hx
  simp only [decide_eq_true_eq] at hnear ⊢
  exact abs_le_of_near hodd hpos habs hr hnear

/-- The run describes its values if and only if they are fewer than `2^64`, none changes its bin
when the range grows, and the bins near the middle reach no further than the values.  Two such runs
over the same values, in any order and batches, end in one state. -/
theorem calibrated_iff_same_bins (mach : Machine) (bins : Nat) (amaxInit : F) :
    (∀ batches : List (List F), Calibrated mach bins amaxInit batches ↔
      batches.flatten.length < u64Size ∧ SameBins bins amaxInit batches ∧
        RadiiReach bins amaxInit batches.flatten) ∧
    ∀ batches batches' : List (List F), batches.flatten.Perm batches'.flatten →
      Calibrated mach bins amaxInit batches → Calibrated mach bins amaxInit batches' →
        ∃ h, (observe mach bins amaxInit
              (batches.map fun batch => batch.map some) :
            Outcome ObserverError (HistogramObserver F)) = .ok h ∧
          (observe mach bins amaxInit (batches'.map fun batch => batch.map some) :
            Outcome ObserverError (HistogramObserver F)) = .ok h := by
  constructor
  · intro batches
    constructor
    · intro hcal
      obtain ⟨hsize, hsame⟩ := hcal.sameBins
      obtain ⟨h, hrun, hdesc⟩ := hcal
      obtain ⟨h', hrun', hrec⟩ := observe_final mach hsize hsame
      rw [hrun] at hrun'
      cases hrun'
      exact ⟨hsize, hsame, (share_covered_iff hrec hsize).1 hdesc.covers⟩
    · rintro ⟨hsize, hsame, hreach⟩
      obtain ⟨h, hrun, hrec⟩ := observe_final mach hsize hsame
      refine ⟨h, hrun, hrec.amax, hrec.counts, ?_, (share_covered_iff hrec hsize).2 hreach⟩
      rw [hrec.seen, length_map]
  · intro batches batches' hperm hcal hcal'
    obtain ⟨h, hrun, hrec⟩ := observe_final mach hcal.sameBins.1 hcal.sameBins.2
    obtain ⟨h', hrun', hrec'⟩ := observe_final mach hcal'.sameBins.1 hcal'.sameBins.2
    rw [← spanned_perm hperm] at hrec'
    have hsame : h = h' := hrec.eq_of_perm hrec' (hperm.map _)
    exact ⟨h, hrun, hsame ▸ hrun'⟩

end Described

/-- The values 1 and then 2 in eight bins: 1 stays in the last bin. -/
theorem not_calibrated_growing :
    ¬ Calibrated ⟨.release, 0⟩ 8 (1 : ℚ) [[1], [2]] := by
  intro hcal
  have hsame := hcal.sameBins.2 (1, 1) (by decide +kernel)
  exact absurd hsame (by decide +kernel)

/-- Two batches within the initial range, in three bins. -/
theorem calibrated_iff_same_bins_halves :
    Calibrated ⟨.release, 0⟩ 3 (1 : ℚ) [[1 / 2], [-1 / 2, 1 / 4]] := by
  refine ((calibrated_iff_same_bins ⟨.release, 0⟩ 3 (1 : ℚ)).1 _).2 ⟨by decide, ?_, ?_⟩
  · unfold SameBins
    decide +kernel
  · exact radiiReach_of_odd (by decide) _

end Quant
end Rustorch
