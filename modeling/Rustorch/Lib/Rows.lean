import Mathlib.Data.List.Basic
import Mathlib.Tactic.Ring

/-!
# Rows of a flat buffer

A buffer that holds rows of one width, one after another.  `writeAt` overwrites a run of cells;
written at a row boundary with whole rows, it replaces these rows and keeps the others.
-/

namespace Rows

open List
open Nat (lt_succ_of_lt mul_le_mul_right succ_mul)

variable {α ι : Type}

def row (w r : Nat) (xs : List α) : List α :=
  (xs.drop (r * w)).take w

/-- Overwrite the cells from `off` on. -/
def writeAt (off : Nat) (ys xs : List α) : List α :=
  xs.take off ++ ys ++ xs.drop (off + ys.length)

variable {w r n i : Nat} {xs : List α} {off : Nat} {ys : List α}

theorem cell_lt : r < n → i < w → r * w + i < n * w := by
  intro hr hi
  calc
    r * w + i < r * w + w := Nat.add_lt_add_left hi _
    _ = (r + 1) * w := (succ_mul r w).symm
    _ ≤ n * w := mul_le_mul_right w hr

theorem cell_div (hi : i < w) : (r * w + i) / w = r := by
  have hw : 0 < w := Nat.zero_lt_of_lt hi
  rw [Nat.mul_comm, Nat.mul_add_div hw, Nat.div_eq_of_lt hi, Nat.add_zero]

theorem cell_mod (hi : i < w) : (r * w + i) % w = i := by
  rw [Nat.mul_add_mod', Nat.mod_eq_of_lt hi]

theorem cell_inj {r' i' : Nat} : i < w → i' < w → r * w + i = r' * w + i' → r = r' ∧ i = i' := by
  intro hi hi' h
  have hdiv := congrArg (· / w) h
  simp only [cell_div hi, cell_div hi'] at hdiv
  subst hdiv
  exact ⟨rfl, Nat.add_left_cancel h⟩

theorem length_row : (r + 1) * w ≤ xs.length → (row w r xs).length = w := by
  intro h
  have hsplit : (r + 1) * w = r * w + w := by ring
  simp only [row, length_take, length_drop]
  omega

theorem getElem?_row (w r : Nat) (xs : List α) (i : Nat) :
    (row w r xs)[i]? = if i < w then xs[r * w + i]? else none := by
  simp only [row, getElem?_take, getElem?_drop]

theorem row_map_range (f : Nat → α) :
    r < n → row w r ((range (n * w)).map f) = (range w).map (fun i => f (r * w + i)) := by
  intro hr
  apply ext_getElem?
  intro i
  rw [getElem?_row, getElem?_map, getElem?_map]
  by_cases hi : i < w
  · have hlt : r * w + i < n * w := cell_lt hr hi
    rw [if_pos hi, getElem?_range hlt, getElem?_range hi]
    rfl
  · rw [if_neg hi, getElem?_eq_none (by simpa using hi)]
    rfl

theorem eq_of_rows {f : Nat → α} (hlen : xs.length = n * w)
    (h : ∀ r < n, row w r xs = (range w).map fun i => f (r * w + i)) :
    xs = (range (n * w)).map f := by
  apply ext_getElem?
  intro i
  by_cases hi : i < n * w
  · have hw : 0 < w := Nat.pos_of_ne_zero (by rintro rfl; simp at hi)
    have hmod : i % w < w := Nat.mod_lt _ hw
    have hrow := congrArg (fun ys => ys[i % w]?)
      (h (i / w) (Nat.div_lt_of_lt_mul (by rwa [Nat.mul_comm])))
    simp only [getElem?_row, if_pos hmod, Nat.div_add_mod', getElem?_map,
      getElem?_range hmod, Option.map_some] at hrow
    rw [hrow, getElem?_map, getElem?_range hi, Option.map_some]
  · rw [getElem?_eq_none (by omega), getElem?_eq_none (by simpa using hi)]

theorem length_writeAt : off + ys.length ≤ xs.length → (writeAt off ys xs).length = xs.length := by
  intro h
  simp only [writeAt, length_append, length_take, length_drop]
  omega

theorem getElem?_writeAt (h : off + ys.length ≤ xs.length) (i : Nat) :
    (writeAt off ys xs)[i]? = if off ≤ i ∧ i < off + ys.length then ys[i - off]? else xs[i]? := by
  have hoff : (xs.take off).length = off := by
    rw [length_take]
    omega
  rw [writeAt, append_assoc]
  by_cases hlow : i < off
  · rw [getElem?_append_left (by omega), getElem?_take, if_pos hlow, if_neg (by omega)]
  · rw [getElem?_append_right (by omega), hoff]
    by_cases hhigh : i < off + ys.length
    · rw [getElem?_append_left (by omega), if_pos ⟨by omega, hhigh⟩]
    · rw [getElem?_append_right (by omega), getElem?_drop, if_neg (by omega)]
      congr 1
      omega

theorem cell_in_rows {start m : Nat} :
    i < w → (start * w ≤ r * w + i ∧ r * w + i < start * w + m * w ↔ start ≤ r ∧ r < start + m) := by
  intro hi
  rw [← Nat.add_mul]
  constructor
  · rintro ⟨hlow, hhigh⟩
    constructor
    · by_contra hlt
      have hmul : (r + 1) * w ≤ start * w := mul_le_mul_right w (by omega)
      rw [Nat.add_mul] at hmul
      omega
    · by_contra hge
      have hmul : (start + m) * w ≤ r * w := mul_le_mul_right w (by omega)
      omega
  · rintro ⟨hlow, hhigh⟩
    have hmul₁ : start * w ≤ r * w := mul_le_mul_right w hlow
    have hmul₂ : (r + 1) * w ≤ (start + m) * w := mul_le_mul_right w hhigh
    rw [Nat.add_mul r] at hmul₂
    omega

theorem row_writeAt {start m : Nat} : ys.length = m * w → (start + m) * w ≤ xs.length → ∀ r : Nat,
      row w r (writeAt (start * w) ys xs) =
        if start ≤ r ∧ r < start + m then row w (r - start) ys else row w r xs := by
  intro hys hxs r
  have hfit : start * w + ys.length ≤ xs.length := by
    rw [hys, ← Nat.add_mul]
    exact hxs
  apply ext_getElem?
  intro i
  rw [getElem?_row, apply_ite (fun zs : List α => zs[i]?), getElem?_row, getElem?_row]
  by_cases hi : i < w
  · simp only [if_pos hi]
    rw [getElem?_writeAt hfit, hys]
    by_cases hr : start ≤ r ∧ r < start + m
    · rw [if_pos ((cell_in_rows hi).2 hr), if_pos hr]
      obtain ⟨d, rfl⟩ := Nat.exists_eq_add_of_le hr.1
      congr 1
      rw [Nat.add_sub_cancel_left, Nat.add_mul]
      omega
    · rw [if_neg (fun h => hr ((cell_in_rows hi).1 h)), if_neg hr]
  · simp only [if_neg hi, ite_self]

theorem row_writeAt_one : ys.length = w → (r + 1) * w ≤ xs.length → ∀ r' : Nat,
      row w r' (writeAt (r * w) ys xs) = if r' = r then ys else row w r' xs := by
  intro hys hxs r'
  rw [row_writeAt (by rw [hys, Nat.one_mul]) hxs r']
  by_cases heq : r' = r
  · rw [if_pos heq, if_pos (by omega), heq, Nat.sub_self, row, Nat.zero_mul, drop_zero, ← hys,
      take_length]
  · rw [if_neg heq, if_neg (by omega)]

theorem map_row_flatten {rs : List (List α)} :
    (∀ r ∈ rs, r.length = w) → (range rs.length).map (fun i => row w i rs.flatten) = rs := by
  induction rs with
  | nil =>
    intro _
    rfl
  | cons r rs ih =>
    intro h
    have hr := h r mem_cons_self
    have htail := ih (fun x hx => h x (mem_cons_of_mem r hx))
    rw [length_cons, range_succ_eq_map, map_cons, map_map]
    refine congrArg₂ cons ?_ ?_
    · rw [row, Nat.zero_mul, drop_zero, flatten_cons, ← hr, take_left]
    · calc
        (range rs.length).map ((fun i => row w i (r :: rs).flatten) ∘ Nat.succ)
            = (range rs.length).map (fun i => row w i rs.flatten) := by
              refine map_congr_left ?_
              intro i _
              have hshift : (i + 1) * w = r.length + i * w := by
                rw [hr, succ_mul, Nat.add_comm]
              simp only [Function.comp_apply, row, flatten_cons, Nat.succ_eq_add_one, hshift,
                drop_append, drop_eq_nil_of_le (Nat.le_add_right r.length _)]
              simp
        _ = rs := htail

/-! ## Several writes -/

/-- Write one block of rows for each index, in order. -/
def writeBlocks (w : Nat) (start : ι → Nat) (block : ι → List α) (is : List ι) (xs : List α) :
    List α :=
  is.foldl (fun buf i => writeAt (start i * w) (block i) buf) xs

/-- Every block is `m` rows and fits into a buffer of `n` cells. -/
def Fits (w m n : Nat) (start : ι → Nat) (block : ι → List α) (is : List ι) : Prop :=
  ∀ i ∈ is, (block i).length = m * w ∧ (start i + m) * w ≤ n

variable {w m : Nat} {start : ι → Nat} {block : ι → List α}

variable {is : List ι}

theorem length_writeBlocks : ∀ {xs : List α}, Fits w m xs.length start block is →
      (writeBlocks w start block is xs).length = xs.length := by
  induction is with
  | nil =>
    intro xs _
    rfl
  | cons i is ih =>
    intro xs hfits
    obtain ⟨hlen, hfit⟩ := hfits i (mem_cons_self ..)
    have hwrite : (writeAt (start i * w) (block i) xs).length = xs.length :=
      length_writeAt (by rw [hlen, ← Nat.add_mul]; exact hfit)
    rw [writeBlocks, foldl_cons, ← writeBlocks, ih, hwrite]
    intro j hj
    rw [hwrite]
    exact hfits j (mem_cons_of_mem i hj)

theorem row_writeBlocks_other : ∀ {xs : List α}, Fits w m xs.length start block is →
      (∀ i ∈ is, ¬ (start i ≤ r ∧ r < start i + m)) →
        row w r (writeBlocks w start block is xs) = row w r xs := by
  induction is with
  | nil =>
    intro xs _ _
    rfl
  | cons i is ih =>
    intro xs hfits hout
    obtain ⟨hlen, hfit⟩ := hfits i (mem_cons_self ..)
    have hwrite : (writeAt (start i * w) (block i) xs).length = xs.length :=
      length_writeAt (by rw [hlen, ← Nat.add_mul]; exact hfit)
    rw [writeBlocks, foldl_cons, ← writeBlocks, ih, row_writeAt hlen hfit,
      if_neg (hout i (mem_cons_self ..))]
    · intro j hj
      rw [hwrite]
      exact hfits j (mem_cons_of_mem i hj)
    · intro j hj
      exact hout j (mem_cons_of_mem i hj)

theorem row_writeBlocks : ∀ {xs : List α}, Fits w m xs.length start block is →
      is.Pairwise (fun i j => start i + m ≤ start j ∨ start j + m ≤ start i) →
        ∀ i ∈ is, start i ≤ r → r < start i + m →
          row w r (writeBlocks w start block is xs) = row w (r - start i) (block i) := by
  induction is with
  | nil =>
    intro xs _ _ i hi
    cases hi
  | cons j is ih =>
    intro xs hfits hpair i hi hlow hhigh
    rw [pairwise_cons] at hpair
    obtain ⟨hlen, hfit⟩ := hfits j (mem_cons_self ..)
    have hwrite : (writeAt (start j * w) (block j) xs).length = xs.length :=
      length_writeAt (by rw [hlen, ← Nat.add_mul]; exact hfit)
    have hrest : Fits w m (writeAt (start j * w) (block j) xs).length start block is := by
      intro k hk
      rw [hwrite]
      exact hfits k (mem_cons_of_mem j hk)
    rw [writeBlocks, foldl_cons, ← writeBlocks]
    rcases mem_cons.1 hi with rfl | hi
    · -- the later blocks lie elsewhere
      rw [row_writeBlocks_other hrest, row_writeAt hlen hfit, if_pos ⟨hlow, hhigh⟩]
      intro k hk hin
      rcases hpair.1 k hk with h | h <;> omega
    · exact ih hrest hpair.2 i hi hlow hhigh

/-! ## Whole rows, one after another -/

theorem writeAt_nil (off : Nat) (xs : List α) : writeAt off [] xs = xs := by
  simp [writeAt]

theorem writeAt_zero : ys.length = xs.length → writeAt 0 ys xs = ys := by
  intro h
  simp [writeAt, h]

theorem writeAt_writeAt {zs : List α} : off ≤ xs.length →
    writeAt (off + ys.length) zs (writeAt off ys xs) = writeAt off (ys ++ zs) xs := by
  intro hoff
  have hpre : (xs.take off ++ ys).length = off + ys.length := by
    rw [length_append, length_take, Nat.min_eq_left hoff]
  have hdrop : (xs.take off ++ ys ++ xs.drop (off + ys.length)).drop
      (off + ys.length + zs.length) = xs.drop (off + (ys ++ zs).length) := by
    rw [← hpre, drop_append, hpre, drop_eq_nil_of_le (by omega), nil_append,
      Nat.add_sub_cancel_left, drop_drop, length_append, Nat.add_assoc]
  rw [writeAt, writeAt, hdrop, ← hpre, take_left, writeAt, append_assoc (xs.take off)]

theorem drop_writeAt : off + ys.length ≤ xs.length →
    (writeAt off ys xs).drop (off + ys.length) = xs.drop (off + ys.length) := by
  intro h
  have hpre : (xs.take off ++ ys).length = off + ys.length := by
    rw [length_append, length_take, Nat.min_eq_left (by omega)]
  rw [writeAt, ← hpre, drop_left]

theorem writeAt_writeAt_self {zs : List α} : ys.length = zs.length →
    off + ys.length ≤ xs.length → writeAt off zs (writeAt off ys xs) = writeAt off zs xs := by
  intro hlen h
  have htake : (writeAt off ys xs).take off = xs.take off := by
    rw [writeAt, append_assoc]
    exact take_left' (by rw [length_take, Nat.min_eq_left (by omega)])
  rw [writeAt, htake, ← hlen, drop_writeAt h, hlen, ← writeAt]

section Consecutive

variable {w n : Nat} {f : Nat → List α}

theorem length_flatMap_range : (∀ i < n, (f i).length = w) →
    ((range n).flatMap f).length = n * w := by
  induction n with
  | zero => simp
  | succ n ih =>
    intro h
    rw [range_succ, flatMap_append, length_append, flatMap_singleton,
      ih (fun i hi => h i (lt_succ_of_lt hi)), h n (Nat.lt_succ_self n), succ_mul]

theorem row_flatMap_range : (∀ i < n, (f i).length = w) → ∀ i < n,
    row w i ((range n).flatMap f) = f i := by
  induction n with
  | zero =>
    intro _ i hi
    cases hi
  | succ n ih =>
    intro h i hi
    have hlen := length_flatMap_range (fun i hi => h i (lt_succ_of_lt hi))
    rw [range_succ, flatMap_append, flatMap_singleton, row]
    by_cases hin : i < n
    · have hle : i * w + w ≤ n * w := by
        rw [← succ_mul]
        exact mul_le_mul_right w hin
      rw [drop_append_of_le_length (by omega), take_append_of_le_length
        (by rw [length_drop, hlen]; omega)]
      exact ih (fun i hi => h i (lt_succ_of_lt hi)) i hin
    · have heq : i = n := by omega
      rw [heq, ← hlen, drop_left, ← h n (Nat.lt_succ_self n), take_length]

variable {base : Nat} {step : List α → Nat → List α}

/-- A loop that writes row after row from a base on.  A turn finds the rows that are not yet written
as they were. -/
theorem foldl_eq_writeAt_fresh :
    (∀ i < n, (f i).length = w) → ∀ xs : List α, base + n * w ≤ xs.length →
      (∀ i < n, ∀ buf : List α, buf.length = xs.length →
        buf.drop (base + i * w) = xs.drop (base + i * w) →
          step buf i = writeAt (base + i * w) (f i) buf) →
      (range n).foldl step xs = writeAt base ((range n).flatMap f) xs := by
  induction n with
  | zero =>
    intro _ xs _ _
    simp [writeAt_nil]
  | succ n ih =>
    intro h xs hfit hstep
    have hrest : ∀ i < n, (f i).length = w := fun i hi => h i (lt_succ_of_lt hi)
    have hlen := length_flatMap_range hrest
    rw [succ_mul] at hfit
    have hwrite : base + ((range n).flatMap f).length ≤ xs.length := by omega
    have hbuf : (writeAt base ((range n).flatMap f) xs).length = xs.length :=
      length_writeAt hwrite
    have hfresh := drop_writeAt hwrite
    rw [hlen] at hfresh
    rw [range_succ, foldl_append,
      ih hrest xs (by omega) (fun i hi => hstep i (lt_succ_of_lt hi)), foldl_cons,
      foldl_nil, hstep n (Nat.lt_succ_self n) _ hbuf hfresh, flatMap_append,
      flatMap_singleton, ← writeAt_writeAt (by omega), hlen]

theorem foldl_eq_writeAt : (∀ i < n, (f i).length = w) → ∀ xs : List α, base + n * w ≤ xs.length →
      (∀ i < n, ∀ buf : List α, buf.length = xs.length →
        step buf i = writeAt (base + i * w) (f i) buf) →
      (range n).foldl step xs = writeAt base ((range n).flatMap f) xs := by
  intro h xs hfit hstep
  exact foldl_eq_writeAt_fresh h xs hfit fun i hi buf hbuf _ => hstep i hi buf hbuf

theorem flatMap_range_add (f : Nat → List α) (m n : Nat) :
    (range (m + n)).flatMap f = (range m).flatMap f ++ (range n).flatMap fun i => f (m + i) := by
  rw [range_add, flatMap_append, flatMap_map]

theorem flatMap_range_mul (f : Nat → List α) (m n : Nat) :
    (range (m * n)).flatMap f =
      (range m).flatMap fun b => (range n).flatMap fun i => f (b * n + i) := by
  induction m with
  | zero => simp
  | succ m ih =>
    rw [succ_mul, flatMap_range_add, ih, range_succ, flatMap_append, flatMap_singleton]

/-- The nested loops over rows in groups of `n`. -/
theorem foldl_range_mul {σ : Type} (step : σ → Nat → σ) (m n : Nat) (st : σ) :
    (range (m * n)).foldl step st =
      (range m).foldl (fun st b => (range n).foldl (fun st i => step st (b * n + i)) st)
        st := by
  induction m with
  | zero => simp
  | succ m ih =>
    rw [succ_mul, range_add, foldl_append, ih, range_succ, foldl_append,
      foldl_cons, foldl_nil, foldl_map]

/-- Buffers put together from rows of one width are equal only if all rows are. -/
theorem flatMap_range_inj {g : Nat → List α} : (∀ i < n, (f i).length = w) →
    (∀ i < n, (g i).length = w) → (range n).flatMap f = (range n).flatMap g →
      ∀ i < n, f i = g i := by
  intro hf hg heq i hi
  rw [← row_flatMap_range hf i hi, heq, row_flatMap_range hg i hi]

end Consecutive

/-! ## Loops over the rows -/

theorem foldl_rows {σ β : Type} (step : σ → Nat → σ) (view : Nat → σ → β) (update : Nat → β → β)
    (Inv : σ → Prop) (hinv : ∀ st, ∀ r < n, Inv st → Inv (step st r))
    (hown : ∀ st, ∀ r < n, Inv st → view r (step st r) = update r (view r st))
    (hother : ∀ st, ∀ r < n, ∀ r', r' ≠ r → Inv st → view r' (step st r) = view r' st) :
    ∀ m ≤ n, ∀ st, Inv st → Inv ((range m).foldl step st) ∧
      ∀ r, view r ((range m).foldl step st) =
        if r < m then update r (view r st) else view r st := by
  intro m
  induction m with
  | zero =>
    intro _ st hst
    exact ⟨hst, fun r => (if_neg (Nat.not_lt_zero r)).symm⟩
  | succ m ih =>
    intro hm st hst
    obtain ⟨hmid, hview⟩ := ih (Nat.le_of_succ_le hm) st hst
    rw [range_succ, foldl_append, foldl_cons, foldl_nil]
    refine ⟨hinv _ m hm hmid, ?_⟩
    intro r
    by_cases heq : r = m
    · rw [heq, hown _ m hm hmid, hview m, if_neg (Nat.lt_irrefl m), if_pos (Nat.lt_succ_self m)]
    · rw [hother _ m hm r heq hmid, hview r]
      by_cases hlt : r < m
      · rw [if_pos hlt, if_pos (lt_succ_of_lt hlt)]
      · rw [if_neg hlt, if_neg (by omega)]

end Rows
