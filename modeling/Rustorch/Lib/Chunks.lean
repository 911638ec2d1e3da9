import Rustorch.Lib.Traversal

/-!
# Chunks of a list

`chunks c xs` cuts a list into consecutive runs of `c` elements; the last run may be shorter.  A
function that works element by element gives the same list when it runs over the chunks.
-/

namespace Chunks

open List

variable {α β γ : Type}

def chunks (c : Nat) (xs : List α) : List (List α) :=
  if c = 0 ∨ xs = [] then
    []
  else
    xs.take c :: chunks c (xs.drop c)
termination_by xs.length
decreasing_by
  have hpos : 0 < xs.length := length_pos_iff.2 (by tauto)
  simp only [length_drop]
  omega

@[simp] theorem chunks_nil (c : Nat) : chunks c ([] : List α) = [] := by
  rw [chunks]
  simp

variable {c : Nat} {xs : List α} {k : Nat} {chunk : List α}

theorem chunks_of_ne_nil : 0 < c → xs ≠ [] → chunks c xs = xs.take c :: chunks c (xs.drop c) := by
  intro hc hxs
  rw [chunks]
  have hnot : ¬ (c = 0 ∨ xs = []) := by
    rintro (h | h)
    · omega
    · exact hxs h
  simp [hnot]

section

variable (hc : 0 < c)

include hc

theorem flatten_chunks (xs : List α) : (chunks c xs).flatten = xs := by
  induction hn : xs.length using Nat.strongRecOn generalizing xs with
  | ind n ih =>
    by_cases hxs : xs = []
    · simp [hxs]
    · have hpos : 0 < xs.length := length_pos_iff.2 hxs
      have hrest := ih (xs.drop c).length (by rw [length_drop]; omega) (xs.drop c) rfl
      rw [chunks_of_ne_nil hc hxs, flatten_cons, hrest, take_append_drop]

theorem flatten_zipWith_chunks (f : α → β → γ) (xs : List α) :
    ∀ ys : List β, xs.length = ys.length →
      (zipWith (zipWith f) (chunks c xs) (chunks c ys)).flatten = zipWith f xs ys := by
  induction hn : xs.length using Nat.strongRecOn generalizing xs with
  | ind n ih =>
    intro ys hlen
    by_cases hxs : xs = []
    · simp [hxs]
    · have hpos : 0 < xs.length := length_pos_iff.2 hxs
      have hys : ys ≠ [] := by
        rintro rfl
        simp at hlen
        omega
      have hrest := ih (xs.drop c).length (by rw [length_drop]; omega) (xs.drop c) rfl
        (ys.drop c) (by simp only [length_drop]; omega)
      rw [chunks_of_ne_nil hc hxs, chunks_of_ne_nil hc hys, zipWith_cons_cons, flatten_cons, hrest]
      calc
        zipWith f (xs.take c) (ys.take c) ++ zipWith f (xs.drop c) (ys.drop c)
            = zipWith f (xs.take c ++ xs.drop c) (ys.take c ++ ys.drop c) := by
              rw [zipWith_append]
              simp only [length_take]
              omega
        _ = zipWith f xs ys := by
              rw [take_append_drop, take_append_drop]

theorem chunks_append (k : Nat) :
    ∀ xs ys : List α, xs.length = k * c → chunks c (xs ++ ys) = chunks c xs ++ chunks c ys := by
  induction k with
  | zero =>
    intro xs ys hlen
    have hnil : xs = [] := length_eq_zero_iff.1 (by simpa using hlen)
    simp [hnil]
  | succ k ih =>
    intro xs ys hlen
    rw [Nat.succ_mul] at hlen
    have hxs : xs ≠ [] := length_pos_iff.1 (by omega)
    have hxys : xs ++ ys ≠ [] := fun h => hxs (append_eq_nil_iff.1 h).1
    rw [chunks_of_ne_nil hc hxys, chunks_of_ne_nil hc hxs,
      take_append_of_le_length (by omega), drop_append_of_le_length (by omega),
      ih (xs.drop c) ys (by rw [length_drop]; omega), cons_append]

theorem flatMap_chunks_chunks (hk : 0 < k) (xs : List α) :
    (chunks (c * k) xs).flatMap (chunks c) = chunks c xs := by
  induction hn : xs.length using Nat.strongRecOn generalizing xs with
  | ind n ih =>
    have hck : 0 < c * k := Nat.mul_pos hc hk
    by_cases hxs : xs = []
    · simp [hxs]
    · have hpos : 0 < xs.length := length_pos_iff.2 hxs
      have hrest := ih (xs.drop (c * k)).length (by rw [length_drop]; omega)
        (xs.drop (c * k)) rfl
      rw [chunks_of_ne_nil hck hxs, flatMap_cons, hrest]
      by_cases hle : c * k ≤ xs.length
      · have hlen : (xs.take (c * k)).length = k * c := by
          rw [length_take, Nat.min_eq_left hle, Nat.mul_comm]
        rw [← chunks_append hc k _ _ hlen, take_append_drop]
      · have hlen : xs.length ≤ c * k := by omega
        rw [drop_of_length_le hlen, take_of_length_le hlen, chunks_nil, append_nil]

theorem mapM_chunks_chunks (hk : 0 < k) {row : List α → Option (List β)} {out : List α → List β}
    (hrow : ∀ r ∈ chunks c xs, row r = some (out r)) :
    ((chunks (c * k) xs).mapM fun chunk => ((chunks c chunk).mapM row).map flatten).map
      flatten = some ((chunks c xs).map out).flatten := by
  have hinner : ∀ chunk ∈ chunks (c * k) xs, ((chunks c chunk).mapM row).map flatten =
      some ((chunks c chunk).map out).flatten := by
    intro chunk hchunk
    have hrows : ∀ r ∈ chunks c chunk, row r = some (out r) := by
      intro r hr
      refine hrow r ?_
      rw [← flatMap_chunks_chunks hc hk]
      exact mem_flatMap.2 ⟨chunk, hchunk, hr⟩
    rw [Traversal.mapM_eq_map hrows, Option.map_some]
  rw [Traversal.mapM_eq_map hinner, Option.map_some, ← flatMap_chunks_chunks hc hk xs, flatMap,
    map_flatten, flatten_flatten, map_map, map_map]
  rfl

theorem chunks_map_range (m : Nat) :
    ∀ f : Nat → α, chunks c ((range (m * c)).map f) =
      (range m).map (fun i => (range c).map (fun j => f (i * c + j))) := by
  induction m with
  | zero =>
    intro f
    simp
  | succ m ih =>
    intro f
    have hfirst : (range ((m + 1) * c)).map f =
        (range c).map f ++ (range (m * c)).map (fun i => f (c + i)) := by
      rw [Nat.succ_mul, Nat.add_comm (m * c) c, range_add, map_append, map_map]
      rfl
    have hrow : chunks c ((range c).map f) = [(range c).map f] := by
      have hne : (range c).map f ≠ [] := length_pos_iff.1 (by simpa using hc)
      rw [chunks_of_ne_nil hc hne, take_of_length_le (by simp),
        drop_of_length_le (by simp), chunks_nil]
    rw [hfirst, chunks_append hc 1 _ _ (by simp), hrow, ih, range_succ_eq_map,
      map_cons, map_map, singleton_append]
    refine congrArg₂ cons ?_ ?_
    · simp
    · refine map_congr_left ?_
      intro i _
      refine map_congr_left ?_
      intro j _
      have hindex : c + (i * c + j) = i.succ * c + j := by
        rw [Nat.succ_mul]
        omega
      rw [hindex]

theorem chunks_induction {P : List α → Prop} (nil : P [])
    (last : ∀ xs, 0 < xs.length → xs.length ≤ c → P xs)
    (step : ∀ xs ys, xs.length = c → 0 < ys.length → P ys → P (xs ++ ys)) : ∀ xs, P xs := by
  intro xs
  induction hn : xs.length using Nat.strongRecOn generalizing xs with
  | ind n ih =>
    rcases Nat.eq_zero_or_pos xs.length with h0 | hpos
    · rw [length_eq_zero_iff.1 h0]
      exact nil
    · by_cases hle : xs.length ≤ c
      · exact last xs hpos hle
      · have hrest := ih (xs.drop c).length (by rw [length_drop]; omega) (xs.drop c) rfl
        rw [← take_append_drop c xs]
        refine step _ _ ?_ ?_ hrest
        · rw [length_take]
          omega
        · rw [length_drop]
          omega

end

theorem chunks_of_length_le : 0 < xs.length → xs.length ≤ c → chunks c xs = [xs] := by
  intro hpos hle
  rw [chunks_of_ne_nil (by omega) (length_pos_iff.1 hpos), take_of_length_le hle,
    drop_of_length_le hle, chunks_nil]

variable (hc : 0 < c)

include hc

theorem chunks_append_of_length (ys : List α) :
    xs.length = c → chunks c (xs ++ ys) = xs :: chunks c ys := by
  intro hlen
  have hne : xs ++ ys ≠ [] := length_pos_iff.1 (by rw [length_append]; omega)
  rw [chunks_of_ne_nil hc hne, take_left' hlen, drop_left' hlen]

theorem length_chunks (xs : List α) :
    (chunks c xs).length = xs.length / c + if 0 < xs.length % c then 1 else 0 := by
  induction xs using chunks_induction hc with
  | nil => simp
  | last xs hpos hle =>
    rw [chunks_of_length_le hpos hle, length_singleton]
    rcases Nat.lt_or_eq_of_le hle with hlt | heq
    · rw [Nat.div_eq_of_lt hlt, Nat.mod_eq_of_lt hlt, if_pos hpos]
    · rw [heq, Nat.div_self hc, Nat.mod_self]
      rfl
  | step xs ys hlen _ ih =>
    rw [chunks_append_of_length hc ys hlen, length_cons, ih, length_append, hlen,
      Nat.add_div_left _ hc, Nat.add_mod_left]
    omega

theorem length_of_getElem?_chunks (xs : List α) :
    ∀ (i : Nat) (chunk : List α), (chunks c xs)[i]? = some chunk →
      chunk.length = c ∨ (i + 1 = (chunks c xs).length ∧ 0 < chunk.length ∧ chunk.length ≤ c) := by
  induction xs using chunks_induction hc with
  | nil =>
    intro i chunk h
    simp at h
  | last xs hpos hle =>
    intro i chunk h
    rw [chunks_of_length_le hpos hle] at h ⊢
    obtain ⟨hi, rfl⟩ := List.getElem?_eq_some_iff.1 h
    rw [length_singleton, Nat.lt_one_iff] at hi
    subst hi
    exact Or.inr ⟨rfl, hpos, hle⟩
  | step xs ys hlen _ ih =>
    intro i chunk h
    rw [chunks_append_of_length hc ys hlen] at h ⊢
    cases i with
    | zero =>
      left
      rw [← hlen, ← Option.some.inj h]
    | succ i =>
      rcases ih i chunk (by simpa using h) with hfull | ⟨hlast, hsize⟩
      · exact Or.inl hfull
      · exact Or.inr ⟨by rw [length_cons, hlast], hsize⟩

theorem ne_nil_of_mem_chunks : chunk ∈ chunks c xs → chunk ≠ [] := by
  intro hmem
  obtain ⟨i, hi⟩ := mem_iff_getElem?.1 hmem
  rw [← length_pos_iff]
  rcases length_of_getElem?_chunks hc xs i chunk hi with h | h <;> omega

/-- Stopping at the first short chunk leaves the full ones, the chunks of a leading part. -/
theorem takeWhile_chunks (xs : List α) :
    (chunks c xs).takeWhile (fun chunk => !decide (chunk.length < c)) =
      chunks c (xs.take (xs.length / c * c)) := by
  induction xs using chunks_induction hc with
  | nil => simp
  | last xs hpos hle =>
    rw [chunks_of_length_le hpos hle]
    rcases Nat.lt_or_eq_of_le hle with hlt | heq
    · simp [hlt, Nat.div_eq_of_lt hlt]
    · have hall : xs.take (xs.length / c * c) = xs := by
        rw [heq, Nat.div_self hc, Nat.one_mul, ← heq, take_length]
      rw [hall, chunks_of_length_le hpos hle]
      simp [heq]
  | step xs ys hlen _ ih =>
    have hcut : (xs ++ ys).take ((xs ++ ys).length / c * c) =
        xs ++ ys.take (ys.length / c * c) := by
      rw [length_append, hlen, Nat.add_div_left _ hc, Nat.succ_mul, Nat.add_comm _ c, ← hlen,
        take_length_add_append]
    rw [chunks_append_of_length hc ys hlen, hcut, chunks_append_of_length hc _ hlen,
      takeWhile_cons, ih]
    simp [hlen]

theorem length_of_mem_chunks :
    xs.length = k * c → chunk ∈ chunks c xs → chunk.length = c := by
  induction k generalizing xs with
  | zero =>
    intro hlen hmem
    have hnil : xs = [] := length_eq_zero_iff.1 (by simpa using hlen)
    simp [hnil] at hmem
  | succ k ih =>
    intro hlen hmem
    rw [Nat.succ_mul] at hlen
    have htake : (xs.take c).length = c := by
      rw [length_take]
      omega
    rw [← take_append_drop c xs, chunks_append_of_length hc _ htake] at hmem
    rcases mem_cons.1 hmem with rfl | hmem
    · exact htake
    · exact ih (by rw [length_drop]; omega) hmem

/-- A loop over the numbered blocks of a buffer of `n` blocks. -/
theorem flatten_map_zipIdx_chunks {n : Nat} (hlen : xs.length = n * c) {f : List α × Nat → List β}
    {g : Nat → List β} (hf : ∀ chunk i, chunk.length = c → i < n → f (chunk, i) = g i) :
    ((chunks c xs).zipIdx.map f).flatten = (range n).flatMap g := by
  have hcount : (chunks c xs).length = n := by
    rw [length_chunks hc, hlen, Nat.mul_div_cancel _ hc, Nat.mul_mod_left]
    rfl
  have hmap := congrArg (map g) (zipIdx_map_snd 0 (chunks c xs))
  rw [map_map, hcount, ← range_eq_range'] at hmap
  rw [flatMap_def, ← hmap]
  congr 1
  apply map_congr_left
  rintro ⟨chunk, i⟩ hmem
  exact hf chunk i (length_of_mem_chunks hc hlen (fst_mem_of_mem_zipIdx hmem))
    (hcount ▸ snd_lt_of_mem_zipIdx hmem)

end Chunks
