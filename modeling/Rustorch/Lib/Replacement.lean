import Mathlib.Data.List.Perm.Basic
import Mathlib.Data.List.Nodup

/-!
# Replacement of patterns in a text

A text is read as pieces: characters, and holes that stand for patterns.  A text in which a set of
the holes is filled is replaced pattern by pattern as long as the patterns that it holds are those
of its open holes.
-/

namespace Rustorch
namespace Replacement

open List

variable {α : Type} [DecidableEq α]

/-! ## One pattern -/

/-- The matches of `pat` from left to right, where `skip` characters are left of the last one. -/
def replaceFrom (pat val : List α) : Nat → List α → List α
  | _, [] => []
  | skip + 1, _ :: cs => replaceFrom pat val skip cs
  | 0, c :: cs =>
    if pat <+: c :: cs then
      val ++ replaceFrom pat val (pat.length - 1) cs
    else
      c :: replaceFrom pat val 0 cs

/-- Every match of `pat`, replaced by `val`. -/
def replaceAll (pat val text : List α) : List α :=
  replaceFrom pat val 0 text

theorem replaceFrom_skip (pat val u t : List α) :
    replaceFrom pat val u.length (u ++ t) = replaceAll pat val t := by
  induction u with
  | nil => rfl
  | cons c u ih => exact ih

theorem replaceAll_match {pat : List α} (hpat : pat ≠ []) (val t : List α) :
    replaceAll pat val (pat ++ t) = val ++ replaceAll pat val t := by
  cases pat with
  | nil => exact absurd rfl hpat
  | cons p ps =>
    have hfront : p :: ps <+: p :: (ps ++ t) := ⟨t, rfl⟩
    rw [replaceAll, cons_append, replaceFrom, if_pos hfront, length_cons,
      Nat.add_sub_cancel, replaceFrom_skip]

theorem replaceAll_append {pat : List α} (val u t : List α)
    (h : ∀ pre c post, u = pre ++ c :: post → ¬ pat <+: c :: post ++ t) :
    replaceAll pat val (u ++ t) = u ++ replaceAll pat val t := by
  induction u with
  | nil => rfl
  | cons c u ih =>
    have hhead : ¬ pat <+: c :: (u ++ t) := h [] c u rfl
    rw [replaceAll, cons_append, replaceFrom, if_neg hhead]
    refine congrArg (c :: ·) (ih ?_)
    rintro pre d post rfl
    exact h (c :: pre) d post rfl

/-! ## Pieces of a text -/

section Pieces

variable {κ : Type} [DecidableEq κ]

/-- A character, or a hole that stands for the pattern of a key. -/
inductive Piece (α κ : Type) where
  | char : α → Piece α κ
  | hole : κ → Piece α κ

/-- A piece, where the holes of the keys `done` are filled. -/
def Piece.render (pattern value : κ → List α) (done : List κ) : Piece α κ → List α
  | .char c => [c]
  | .hole k => if k ∈ done then value k else pattern k

def render (pattern value : κ → List α) (done : List κ) (pieces : List (Piece α κ)) : List α :=
  pieces.flatMap (Piece.render pattern value done)

/-- Every place of the text that holds the pattern of `k` is a hole of it. -/
def OnlyHoles (pattern value : κ → List α) (done : List κ) (k : κ)
    (pieces : List (Piece α κ)) : Prop :=
  ∀ pre post, render pattern value done pieces = pre ++ (pattern k ++ post) →
    ∃ before after, pieces = before ++ .hole k :: after ∧ pre = render pattern value done before ∧
      post = render pattern value done after

variable {pattern value : κ → List α} {done : List κ} {k : κ} {p : Piece α κ}
  {pieces : List (Piece α κ)}

omit [DecidableEq α] in
theorem render_cons : render pattern value done (p :: pieces) =
    p.render pattern value done ++ render pattern value done pieces := rfl

omit [DecidableEq α] in
/-- The places of the rest of a text are places of the text. -/
theorem OnlyHoles.tail (hpat : pattern k ≠ []) (hk : k ∉ done)
    (h : OnlyHoles pattern value done k (p :: pieces)) : OnlyHoles pattern value done k pieces := by
  intro pre post hplace
  have hwhole : render pattern value done (p :: pieces) =
      (p.render pattern value done ++ pre) ++ (pattern k ++ post) := by
    rw [render_cons, hplace, append_assoc]
  obtain ⟨before, after, hsplit, hpre, hpost⟩ := h _ _ hwhole
  cases before with
  | nil =>
    obtain ⟨rfl, rfl⟩ := cons.inj hsplit
    -- The place would be in front of the hole that it begins with.
    have hempty : pattern k ++ pre = [] := by
      simpa [Piece.render, hk, render] using hpre
    exact absurd (append_eq_nil_iff.1 hempty).1 hpat
  | cons q before =>
    obtain ⟨rfl, rfl⟩ := cons.inj hsplit
    refine ⟨before, after, rfl, ?_, hpost⟩
    exact append_cancel_left hpre

theorem replaceAll_piece (h : OnlyHoles pattern value done k (p :: pieces))
    (hp : p ≠ .hole k) (val : List α) :
    replaceAll (pattern k) val (render pattern value done (p :: pieces)) =
      p.render pattern value done ++
        replaceAll (pattern k) val (render pattern value done pieces) := by
  rw [render_cons]
  refine replaceAll_append val _ _ fun pre c post hpiece hprefix => ?_
  obtain ⟨rest, hrest⟩ := hprefix
  have hwhole : render pattern value done (p :: pieces) = pre ++ (pattern k ++ rest) := by
    rw [render_cons, hpiece, hrest, append_assoc]
  obtain ⟨before, after, hsplit, hpre, _⟩ := h _ _ hwhole
  cases before with
  | nil => exact hp (cons.inj hsplit).1
  | cons q before =>
    obtain ⟨rfl, rfl⟩ := cons.inj hsplit
    have hlen := congrArg length hpre
    rw [render_cons, hpiece, length_append, length_append, length_cons] at hlen
    omega

theorem replaceAll_render (hpat : pattern k ≠ []) (hk : k ∉ done) :
    ∀ {pieces : List (Piece α κ)}, OnlyHoles pattern value done k pieces →
      replaceAll (pattern k) (value k) (render pattern value done pieces) =
        render pattern value (k :: done) pieces
  | [], _ => rfl
  | p :: pieces, h => by
    have ih := replaceAll_render hpat hk (h.tail hpat hk)
    by_cases hp : p = .hole k
    · subst hp
      have hopen : (Piece.hole k : Piece α κ).render pattern value done = pattern k := if_neg hk
      have hfilled : (Piece.hole k : Piece α κ).render pattern value (k :: done) = value k :=
        if_pos mem_cons_self
      rw [render_cons, hopen, replaceAll_match hpat, ih, render_cons, hfilled]
    · have hsame : p.render pattern value (k :: done) = p.render pattern value done := by
        cases p with
        | char c => rfl
        | hole j =>
          have hne : j ≠ k := fun hjk => hp (congrArg Piece.hole hjk)
          simp [Piece.render, hne]
      rw [replaceAll_piece h hp, ih, render_cons, hsame]

omit [DecidableEq α] in
theorem render_congr {done' : List κ} (h : ∀ k, k ∈ done ↔ k ∈ done') :
    render pattern value done pieces = render pattern value done' pieces := by
  have hpieces : Piece.render pattern value done = Piece.render pattern value done' := by
    funext p
    cases p with
    | char c => rfl
    | hole k => simp [Piece.render, h k]
  rw [render, render, hpieces]

theorem foldl_replaceAll (hpat : ∀ k, pattern k ≠ []) (keys : List κ)
    (hholes : ∀ done k, done ⊆ keys → k ∈ keys → k ∉ done → OnlyHoles pattern value done k pieces) :
    ∀ (todo done : List κ), todo ⊆ keys → done ⊆ keys → todo.Nodup → (∀ k ∈ todo, k ∉ done) →
      todo.foldl (fun text k => replaceAll (pattern k) (value k) text)
        (render pattern value done pieces) = render pattern value (todo.reverse ++ done) pieces
  | [], _, _, _, _, _ => rfl
  | k :: todo, done, htodo, hdone, hnodup, hfresh => by
    obtain ⟨hk, htodo⟩ := cons_subset.1 htodo
    have hk' := hfresh k mem_cons_self
    obtain ⟨hnot, hnodup⟩ := nodup_cons.1 hnodup
    rw [foldl_cons, replaceAll_render (hpat k) hk' (hholes done k hdone hk hk'),
      foldl_replaceAll hpat keys hholes todo (k :: done) htodo (cons_subset.2 ⟨hk, hdone⟩)
        hnodup ?_]
    · simp
    · intro j hj
      rw [mem_cons, not_or]
      exact ⟨fun hjk => hnot (hjk ▸ hj), hfresh j (mem_cons_of_mem _ hj)⟩

end Pieces

end Replacement
end Rustorch
