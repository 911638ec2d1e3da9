import Rustorch.Lib.LoopNest

/-!
# Filling a buffer in parts

A buffer is filled cell by cell, in any order; `Filled v n p xs` says which of its cells already hold
their values.  A write adds one cell, a loop over consecutive cells adds a run of them.  A slice of
a buffer that is read is `Filled` everywhere.
-/

namespace Filling

open List LoopNest Rows

variable {α σ : Type}

/-- `&xs[lo..hi]` -/
def slice (xs : List α) (lo hi : Nat) : Option (List α) :=
  if lo ≤ hi ∧ hi ≤ xs.length then
    some ((xs.drop lo).take (hi - lo))
  else
    none

/-- Of `n` cells, those that `p` names hold the values of `v`. -/
def Filled (v : Nat → α) (n : Nat) (p : Nat → Prop) (xs : List α) : Prop :=
  xs.length = n ∧ ∀ i < n, p i → xs[i]? = some (v i)

section

variable {v : Nat → α} {n : Nat} {p q : Nat → Prop} {xs : List α}

theorem Filled.mono : Filled v n p xs → (∀ i < n, q i → p i) → Filled v n q xs := by
  intro hfilled hqp
  refine ⟨hfilled.1, ?_⟩
  intro i hi hq
  exact hfilled.2 i hi (hqp i hi hq)

theorem filled_none : xs.length = n → Filled v n (fun i => i < 0) xs := by
  intro hlen
  refine ⟨hlen, ?_⟩
  intro i _ hi
  exact absurd hi (Nat.not_lt_zero i)

theorem filled_getD (xs : List α) (a : α) :
    Filled (fun i => xs.getD i a) xs.length (fun _ => True) xs := by
  refine ⟨rfl, ?_⟩
  intro i hi _
  have hval : xs.getD i a = xs[i] := getD_eq_getElem _ _ hi
  rw [getElem?_eq_getElem hi, ← hval]

theorem Filled.read {i : Nat} : Filled v n (fun _ => True) xs → i < n → xs[i]? = some (v i) := by
  intro hfilled hi
  exact hfilled.2 i hi trivial

theorem Filled.slice {lo hi : Nat} : Filled v n (fun _ => True) xs → lo ≤ hi → hi ≤ n →
    ∃ ys, slice xs lo hi = some ys ∧ Filled (fun i => v (lo + i)) (hi - lo) (fun _ => True) ys := by
  intro hfilled hlo hhi
  refine ⟨(xs.drop lo).take (hi - lo), ?_, ?_, ?_⟩
  · rw [Filling.slice, if_pos ⟨hlo, by rw [hfilled.1]; exact hhi⟩]
  · rw [length_take, length_drop, hfilled.1]
    omega
  · intro i hi' _
    rw [getElem?_take_of_lt hi', getElem?_drop]
    exact hfilled.read (by omega)

theorem slice_length {lo hi : Nat} : lo ≤ hi → hi ≤ xs.length →
    ∃ ys, slice xs lo hi = some ys ∧ ys.length = hi - lo := by
  intro hlo hhi
  refine ⟨(xs.drop lo).take (hi - lo), if_pos ⟨hlo, hhi⟩, ?_⟩
  rw [length_take, length_drop]
  omega

theorem Filled.put {i : Nat} {a : α} : Filled v n p xs → i < n → v i = a →
    ∃ ys, LoopNest.put xs i a = some ys ∧ Filled v n (fun j => p j ∨ j = i) ys := by
  intro hfilled hi ha
  refine ⟨xs.set i a, ?_, ?_, ?_⟩
  · rw [LoopNest.put, if_pos (by rw [hfilled.1]; exact hi)]
  · rw [length_set, hfilled.1]
  · intro j hj hpj
    by_cases hji : j = i
    · rw [hji, getElem?_set_self (by rw [hfilled.1]; exact hi), ha]
    · rw [getElem?_set_ne (Ne.symm hji)]
      exact hfilled.2 j hj (hpj.resolve_right hji)

theorem Filled.writeAt {base m : Nat} {ys : List α} : Filled v n (fun i => i < base) xs →
    Filled (fun j => v (base + j)) m (fun _ => True) ys → base + m ≤ n →
      Filled v n (fun i => i < base + m) (writeAt base ys xs) := by
  intro hxs hys hfit
  have hroom : base + ys.length ≤ xs.length := by
    rw [hxs.1, hys.1]
    exact hfit
  refine ⟨(length_writeAt hroom).trans hxs.1, ?_⟩
  intro i hi hlt
  rw [Rows.getElem?_writeAt hroom]
  split_ifs with hin
  · rw [hys.read (by omega), Nat.add_sub_cancel' hin.1]
  · refine hxs.2 i hi ?_
    rw [hys.1] at hin
    omega

theorem Filled.eq_map : Filled v n (fun _ => True) xs → xs = (range n).map v := by
  intro hfilled
  apply ext_getElem?
  intro i
  by_cases hi : i < n
  · rw [hfilled.read hi, getElem?_map, getElem?_range hi, Option.map_some]
  · rw [getElem?_eq_none (by rw [hfilled.1]; omega), getElem?_eq_none (by simpa using hi)]

end

/-! ## Loops -/

variable {n : Nat} {body : σ → Nat → Option σ} {v : Nat → α} {out : List α}

/-- The rule for a counting loop. -/
theorem foldlM_range (P : Nat → σ → Prop) {s : σ} : P 0 s →
    (∀ i < n, ∀ s, P i s → ∃ s', body s i = some s' ∧ P (i + 1) s') →
      ∃ s', (range n).foldlM body s = some s' ∧ P n s' := by
  intro hs
  induction n with
  | zero =>
    intro _
    exact ⟨s, rfl, hs⟩
  | succ n ih =>
    intro hstep
    obtain ⟨s', hrun, hs'⟩ := ih (fun i hi => hstep i (Nat.lt_succ_of_lt hi))
    obtain ⟨s'', hbody, hs''⟩ := hstep n (Nat.lt_succ_self n) s' hs'
    refine ⟨s'', ?_, hs''⟩
    rw [range_succ, foldlM_append, hrun]
    simpa using hbody

/-- The same rule, when more follows. -/
theorem foldlM_range_bind {τ : Type} (P : Nat → σ → Prop) {s : σ} {next : σ → Option τ}
    {Q : τ → Prop} : P 0 s →
      (∀ i < n, ∀ s, P i s → ∃ s', body s i = some s' ∧ P (i + 1) s') →
        (∀ s, P n s → ∃ t, next s = some t ∧ Q t) →
          ∃ t, ((range n).foldlM body s).bind next = some t ∧ Q t := by
  intro hs hstep hnext
  obtain ⟨s', hrun, hs'⟩ := foldlM_range P hs hstep
  obtain ⟨t, ht, hQ⟩ := hnext s' hs'
  refine ⟨t, ?_, hQ⟩
  rw [hrun, Option.bind_some, ht]

theorem fill_row {base m : Nat} {body : List α → Nat → Option (List α)} :
    Filled v n (fun i => i < base) out → base + m ≤ n →
      (∀ k < m, ∀ out, body out k = put out (base + k) (v (base + k))) →
        ∃ out', (range m).foldlM body out = some out' ∧
          Filled v n (fun i => i < base + m) out' := by
  intro hout hfit hbody
  refine foldlM_range (fun k out => Filled v n (fun i => i < base + k) out) hout ?_
  intro k hk out hk'
  obtain ⟨out', hput, hfilled⟩ := hk'.put (show base + k < n by omega) rfl
  refine ⟨out', (hbody k hk out).trans hput, hfilled.mono ?_⟩
  intro i _ hi
  omega

theorem fill_row_bind {base m : Nat} {body : List α → Nat → Option (List α)}
    {next : List α → Option σ} {Q : σ → Prop} : Filled v n (fun i => i < base) out → base + m ≤ n →
      (∀ k < m, ∀ out, body out k = put out (base + k) (v (base + k))) →
        (∀ out, Filled v n (fun i => i < base + m) out → ∃ s, next out = some s ∧ Q s) →
          ∃ s, ((range m).foldlM body out).bind next = some s ∧ Q s := by
  intro hout hfit hbody hnext
  obtain ⟨out', hrun, hfilled⟩ := fill_row hout hfit hbody
  obtain ⟨s, hs, hQ⟩ := hnext out' hfilled
  refine ⟨s, ?_, hQ⟩
  rw [hrun, Option.bind_some, hs]

theorem fill_rows {w : Nat} {f : Nat → List α} {block : Nat → List α → Option (List α)}
    {xs : List α} : xs.length = n * w → (∀ i < n, (f i).length = w) →
      (∀ i < n, ∀ out, out.length = w → block i out = some (f i)) →
        (range n).foldlM (fun xs i => do
          let out ← slice xs (i * w) ((i + 1) * w)
          let out ← block i out
          some (writeAt (i * w) out xs)) xs = some ((range n).flatMap f) := by
  intro hlen hf hblock
  have hrows : ∀ i ≤ n, ((range i).flatMap f).length = i * w := by
    intro i hi
    exact length_flatMap_range fun j hj => hf j (by omega)
  -- After `i` rows, the values of these rows stand at the start of the buffer.
  have hloop : ∃ ys, (range n).foldlM (fun xs i => do
      let out ← slice xs (i * w) ((i + 1) * w)
      let out ← block i out
      some (writeAt (i * w) out xs)) xs = some ys ∧
        ys = writeAt 0 ((range n).flatMap f) xs := by
    refine foldlM_range (fun i ys => ys = writeAt 0 ((range i).flatMap f) xs)
      (by simp [writeAt_nil]) ?_
    intro i hi ys hys
    have hfit : (i + 1) * w ≤ n * w := Nat.mul_le_mul_right w hi
    have hle : i * w ≤ (i + 1) * w := Nat.mul_le_mul_right w (Nat.le_succ i)
    have hylen : ys.length = n * w := by
      rw [hys, length_writeAt (by rw [hrows i (by omega)]; omega), hlen]
    have hslice : slice ys (i * w) ((i + 1) * w) = some (row w i ys) := by
      rw [slice, if_pos ⟨hle, by omega⟩, row, ← Nat.sub_mul, Nat.add_sub_cancel_left, Nat.one_mul]
    have hout := hblock i hi (row w i ys) (length_row (by omega))
    have hjoin := @writeAt_writeAt _ xs 0 ((range i).flatMap f) (f i) (Nat.zero_le _)
    rw [Nat.zero_add, hrows i (by omega), ← hys] at hjoin
    refine ⟨writeAt (i * w) (f i) ys, ?_, ?_⟩
    · simp only [hslice, hout, Option.bind_eq_bind, Option.bind_some]
    · rw [hjoin, range_succ, flatMap_append, flatMap_singleton]
  obtain ⟨ys, hrun, hys⟩ := hloop
  rw [hrun, hys, writeAt_zero (by rw [hrows n le_rfl, hlen])]

end Filling

/-!
# Loops that write a matrix in place

`cells` writes one cell after another, from what the buffer holds at that moment; `rows` replaces
one row after another.  `mix v u k` are the values of a buffer whose first `k` cells are written.
-/

namespace GridLoop

variable {α : Type}

/-- `for i in 0..m { for j in 0..n { buf[i * n + j] = value(buf, i, j) } }` -/
def cells (m n : Nat) (value : List α → Nat → Nat → Option α) (buf : List α) : Option (List α) :=
  (List.range m).foldlM
    (fun buf i => (List.range n).foldlM
      (fun buf j => (value buf i j).bind (LoopNest.put buf (i * n + j)))
      buf)
    buf

/-- `for i in 0..m { step(&mut buf[i * n..i * n + n]) }` -/
def rows (m n : Nat) (step : List α → List α) (buf : List α) : Option (List α) :=
  (List.range m).foldlM
    (fun buf i => (Filling.slice buf (i * n) (i * n + n)).map
      fun row => Rows.writeAt (i * n) (step row) buf)
    buf

def mix (v u : Nat → α) (k l : Nat) : α :=
  if l < k then v l else u l

variable {m n : Nat} {u v : Nat → α}

theorem map_mix_zero (size : Nat) :
    (List.range size).map (mix v u 0) = (List.range size).map u :=
  List.map_congr_left fun _ _ => if_neg (Nat.not_lt_zero _)

theorem map_mix_full (size : Nat) :
    (List.range size).map (mix v u size) = (List.range size).map v :=
  List.map_congr_left fun _ hl => if_pos (List.mem_range.1 hl)

/-- Writing the next cell. -/
theorem put_mix {size k : Nat} (hk : k < size) :
    LoopNest.put ((List.range size).map (mix v u k)) k (v k) =
      some ((List.range size).map (mix v u (k + 1))) := by
  rw [LoopNest.put, if_pos (by simpa using hk)]
  refine congrArg some (List.ext_getElem (by simp) ?_)
  intro l hl _
  by_cases hkl : k = l
  · subst hkl
    simp [mix]
  · have hiff : l < k + 1 ↔ l < k := by omega
    simp [hkl, mix, hiff]

/-- Each cell is computed while the cells behind it hold what they held at the start. -/
theorem cells_eq {value : List α → Nat → Nat → Option α}
    (hvalue : ∀ i < m, ∀ j < n,
      value ((List.range (m * n)).map (mix v u (i * n + j))) i j = some (v (i * n + j))) :
    cells m n value ((List.range (m * n)).map u) = some ((List.range (m * n)).map v) := by
  have hloop := @Filling.foldlM_range (List α) m
    (fun buf i => (List.range n).foldlM
      (fun buf j => (value buf i j).bind (LoopNest.put buf (i * n + j))) buf)
    (fun i buf => buf = (List.range (m * n)).map (mix v u (i * n)))
    ((List.range (m * n)).map u) (by rw [Nat.zero_mul, map_mix_zero]) (by
      rintro i hi buf rfl
      have hrow := @Filling.foldlM_range (List α) n
        (fun buf j => (value buf i j).bind (LoopNest.put buf (i * n + j)))
        (fun j buf => buf = (List.range (m * n)).map (mix v u (i * n + j)))
        ((List.range (m * n)).map (mix v u (i * n))) rfl (by
          rintro j hj buf rfl
          refine ⟨_, ?_, rfl⟩
          rw [hvalue i hi j hj, Option.bind_some]
          exact put_mix (Rows.cell_lt hi hj))
      obtain ⟨buf, hrun, rfl⟩ := hrow
      exact ⟨_, hrun, by rw [Nat.succ_mul]⟩)
  obtain ⟨buf, hrun, rfl⟩ := hloop
  rw [map_mix_full] at hrun
  exact hrun

theorem writeAt_mix {i : Nat} (hi : i < m) :
    Rows.writeAt (i * n) ((List.range n).map fun j => v (i * n + j))
        ((List.range (m * n)).map (mix v u (i * n))) =
      (List.range (m * n)).map (mix v u ((i + 1) * n)) := by
  have hfit : i * n + n ≤ m * n := by
    rw [← Nat.succ_mul]
    exact Nat.mul_le_mul_right n hi
  refine List.ext_getElem? fun l => ?_
  rw [Rows.getElem?_writeAt (by simpa using hfit), List.length_map, List.length_range]
  have hnext : (i + 1) * n = i * n + n := Nat.succ_mul i n
  split
  · next hl =>
      have hoff : l - i * n < n := by omega
      have hback : i * n + (l - i * n) = l := by omega
      have hlt : l < m * n := by omega
      simp [hoff, hlt, mix, hnext, hl.2, hback]
  · next hl =>
      have hiff : l < i * n + n ↔ l < i * n := by omega
      by_cases hlt : l < m * n
      · simp [hlt, mix, hnext, hiff]
      · simp [hlt]

theorem rows_eq {step : List α → List α}
    (hstep : ∀ i < m, step ((List.range n).map fun j => u (i * n + j)) =
      (List.range n).map fun j => v (i * n + j)) :
    rows m n step ((List.range (m * n)).map u) = some ((List.range (m * n)).map v) := by
  have hloop := @Filling.foldlM_range (List α) m
    (fun buf i => (Filling.slice buf (i * n) (i * n + n)).map
      fun row => Rows.writeAt (i * n) (step row) buf)
    (fun i buf => buf = (List.range (m * n)).map (mix v u (i * n)))
    ((List.range (m * n)).map u) (by rw [Nat.zero_mul, map_mix_zero]) (by
      rintro i hi buf rfl
      refine ⟨_, ?_, rfl⟩
      have hfit : i * n + n ≤ m * n := by
        rw [← Nat.succ_mul]
        exact Nat.mul_le_mul_right n hi
      have hrow : Filling.slice ((List.range (m * n)).map (mix v u (i * n))) (i * n) (i * n + n) =
          some (Rows.row n i ((List.range (m * n)).map (mix v u (i * n)))) := by
        rw [Filling.slice, if_pos ⟨Nat.le_add_right _ _, by simpa using hfit⟩, Rows.row,
          Nat.add_sub_cancel_left]
      have hold : (List.range n).map (fun j => mix v u (i * n) (i * n + j)) =
          (List.range n).map fun j => u (i * n + j) :=
        List.map_congr_left fun j _ => if_neg (by omega)
      rw [hrow, Option.map_some, Rows.row_map_range _ hi, hold, hstep i hi, writeAt_mix hi])
  obtain ⟨buf, hrun, rfl⟩ := hloop
  rw [map_mix_full] at hrun
  exact hrun

end GridLoop
