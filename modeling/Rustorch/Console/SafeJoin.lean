import Rustorch.Console.Runs
import Rustorch.Lib.Lexical

/-!
# The path sandbox of the file handlers

`safe_join` joins a request path to the workspace root, normalises both lexically and accepts when
the second normal form is a component prefix of the first.  Normalisation drops a `..` that has
nothing to pop.  For a root that starts with `/` this is what the file system does at `/`; for a
relative root it is not, since the current directory has a parent.

`safeJoin_sandboxed_iff` : the check is right from every current directory exactly if the root is
absolute, or the paths meet a condition on how far they climb above the current directory.
-/

namespace Rustorch
namespace Console

open Lexical List

/-! ## Paths -/

/-- A path as the operating system holds it. -/
abbrev OsBytes : Type := List UInt8

def sep : UInt8 := 47

def dot : UInt8 := 46

/-- A file name: not empty, neither `.` nor `..`, and without a separator. -/
def IsName (s : OsBytes) : Prop :=
  s ≠ [] ∧ s ≠ [dot] ∧ s ≠ [dot, dot] ∧ sep ∉ s

instance (s : OsBytes) : Decidable (IsName s) :=
  inferInstanceAs (Decidable (_ ∧ _ ∧ _ ∧ _))

abbrev Name : Type := { s : OsBytes // IsName s }

instance : Nonempty Name :=
  ⟨⟨[97], by decide⟩⟩

inductive Component
  | rootDir
  | curDir
  | parentDir
  | normal (name : Name)
  deriving DecidableEq

/-- A path buffer, held as its components. -/
abbrev PathBuf : Type := List Component

def isAbsolute (p : OsBytes) : Bool :=
  p.head? == some sep

/-- What lies between two separators; `.` and nothing are dropped. -/
def component (s : OsBytes) : Option Component :=
  if s = [dot, dot] then
    some .parentDir
  else if h : IsName s then
    some (.normal ⟨s, h⟩)
  else
    none

/-- `Path::components`; a `.` is a component only at the start of a relative path. -/
def components (p : OsBytes) : List Component :=
  let body := (p.splitOn sep).filterMap component
  if isAbsolute p then
    .rootDir :: body
  else if (p.splitOn sep).head? = some [dot] then
    .curDir :: body
  else
    body

/-- `Path::join`; an absolute path replaces the one it is joined to. -/
def join (p q : OsBytes) : OsBytes :=
  if isAbsolute q then
    q
  else if p = [] ∨ p.getLast? = some sep then
    p ++ q
  else
    p ++ sep :: q

namespace PathBuf

/-- `PathBuf::push` of a single component. -/
def push (out : PathBuf) : Component → PathBuf
  | .rootDir => [.rootDir]
  | c => out ++ [c]

/-- `PathBuf::pop`; the root and the empty path have no parent. -/
def pop (out : PathBuf) : PathBuf :=
  match out.getLast? with
  | some .rootDir => out
  | _ => out.dropLast

/-- `Path::starts_with`, by whole components. -/
def startsWith (p base : PathBuf) : Bool :=
  base.isPrefixOf p

end PathBuf

/-! ## The check -/

def normalizeStep (out : PathBuf) : Component → PathBuf
  | .rootDir => out.push .rootDir
  | .curDir => out
  | .parentDir => out.pop
  | .normal s => out.push (.normal s)

def normalize (p : OsBytes) : PathBuf :=
  (components p).foldl normalizeStep []

/-- The bytes of a request path. -/
def bytes (s : String) : OsBytes :=
  s.toUTF8.toList

def safeJoin (root : OsBytes) (rel : String) : Except ApiError PathBuf :=
  let candidate := join root (bytes rel)
  let abs := normalize candidate
  let canonRoot := normalize root
  if abs.startsWith canonRoot then
    .ok abs
  else
    .error (.invalidArg s!"path escapes workspace: {rel}")

/-! ## What a path resolves to -/

def locateStep (dir : List Name) : Component → List Name
  | .rootDir => []
  | .curDir => dir
  | .parentDir => dir.dropLast
  | .normal s => dir ++ [s]

/-- The location of a path, as the names below `/`, from a current directory. -/
def locate (dir : List Name) (p : PathBuf) : List Name :=
  p.foldl locateStep dir

/-- An accepted path should resolve to what the joined path resolves to, at or below the root; the
location of a rejected one should not be at or below the root. -/
def Sandboxed (dir : List Name) (root : OsBytes) (rel : String) :
    Except ApiError PathBuf → Prop
  | .ok p =>
    locate dir p = locate dir (components (join root (bytes rel))) ∧
      locate dir (components root) <+: locate dir (components (join root (bytes rel)))
  | .error _ =>
    ¬ locate dir (components root) <+: locate dir (components (join root (bytes rel)))

/-! ## Paths as moves -/

def toMove : Component → Option (Move Name)
  | .rootDir => none
  | .curDir => none
  | .parentDir => some .up
  | .normal s => some (.down s)

/-- The moves of a path, a leading separator aside. -/
def moves (p : OsBytes) : List (Move Name) :=
  ((p.splitOn sep).filterMap component).filterMap toMove

theorem moves_append_sep (p q : OsBytes) : moves (p ++ sep :: q) = moves p ++ moves q := by
  rw [moves, splitOn_append_cons_of_beq p q (beq_self_eq_true sep), filterMap_append,
    filterMap_append]
  rfl

theorem moves_nil : moves [] = [] := by
  decide

variable {p q : OsBytes}

theorem moves_join : isAbsolute q = false → moves (join p q) = moves p ++ moves q := by
  intro hq
  unfold join
  rw [if_neg (by simp [hq])]
  split
  · rename_i h
    rcases eq_nil_or_concat' p with rfl | ⟨p', b, rfl⟩
    · rw [nil_append, moves_nil, nil_append]
    · have hb : b = sep := by
        simpa using h
      -- a trailing separator adds no move
      have htrail : moves (p' ++ [sep]) = moves p' := by
        rw [moves_append_sep, moves_nil, append_nil]
      rw [hb, htrail, append_assoc, singleton_append, moves_append_sep]
  · exact moves_append_sep p q

theorem isAbsolute_join : isAbsolute q = false → isAbsolute (join p q) = isAbsolute p := by
  intro hq
  unfold join
  rw [if_neg (by simp [hq])]
  cases p with
  | nil => simpa using hq.trans (by decide : false = isAbsolute [])
  | cons b p =>
    split <;> rfl

theorem join_of_isAbsolute : isAbsolute q = true → join p q = q := by
  intro hq
  rw [join, if_pos hq]

/-! ## Folds over components -/

theorem component_ne_rootDir {s : OsBytes} : component s ≠ some .rootDir := by
  unfold component
  split
  · simp
  · split <;> simp

theorem rootDir_not_mem_body (p : OsBytes) :
    Component.rootDir ∉ (p.splitOn sep).filterMap component := by
  intro h
  rcases mem_filterMap.1 h with ⟨s, _, hs⟩
  exact component_ne_rootDir hs

theorem foldl_locateStep (cs : List Component) :
    ∀ dir : List Name, Component.rootDir ∉ cs →
      cs.foldl locateStep dir = walk dir (cs.filterMap toMove) := by
  induction cs with
  | nil =>
    intro dir _
    rfl
  | cons c cs ih =>
    intro dir hroot
    rcases not_or.1 (mt mem_cons.2 hroot) with ⟨hc, hcs⟩
    cases c with
    | rootDir => exact absurd rfl hc
    | curDir => exact ih dir hcs
    | parentDir => exact ih dir.dropLast hcs
    | normal s => exact ih (dir ++ [s]) hcs

theorem locate_components (dir : List Name) (p : OsBytes) :
    locate dir (components p) = walk (if isAbsolute p then [] else dir) (moves p) := by
  have hbody := fun d => foldl_locateStep ((p.splitOn sep).filterMap component) d
    (rootDir_not_mem_body p)
  unfold components
  cases isAbsolute p with
  | true => exact hbody []
  | false =>
    rw [if_neg Bool.false_ne_true]
    split <;> exact hbody dir

/-- The part of a path buffer that no `..` pops: nothing, or the root. -/
def base (absolute : Bool) : PathBuf :=
  if absolute then [.rootDir] else []

theorem pop_base (a : Bool) : (base a).pop = base a := by
  cases a <;> rfl

theorem pop_append_normal (out : PathBuf) (s : Name) : PathBuf.pop (out ++ [.normal s]) = out := by
  simp [PathBuf.pop]

theorem foldl_normalizeStep (a : Bool) (cs : List Component) :
    ∀ names : List Name, Component.rootDir ∉ cs →
      cs.foldl normalizeStep (base a ++ names.map .normal) =
        base a ++ (walk names (cs.filterMap toMove)).map .normal := by
  induction cs with
  | nil =>
    intro names _
    rfl
  | cons c cs ih =>
    intro names hroot
    rcases not_or.1 (mt mem_cons.2 hroot) with ⟨hc, hcs⟩
    cases c with
    | rootDir => exact absurd rfl hc
    | curDir => exact ih names hcs
    | parentDir =>
      have hpop : PathBuf.pop (base a ++ names.map .normal) =
          base a ++ names.dropLast.map .normal := by
        rcases eq_nil_or_concat' names with rfl | ⟨names', s, rfl⟩
        · simpa using pop_base a
        · rw [map_append, ← append_assoc, dropLast_concat]
          exact pop_append_normal _ s
      have h := ih names.dropLast hcs
      rw [← hpop] at h
      exact h
    | normal s =>
      have h := ih (names ++ [s]) hcs
      rw [map_append, ← append_assoc] at h
      exact h

/-- The normal form of a path: the root if it is absolute, and the names it descends by. -/
theorem normalize_eq (p : OsBytes) :
    normalize p = base (isAbsolute p) ++ (net (moves p)).map .normal := by
  have hbody := fun a => foldl_normalizeStep a ((p.splitOn sep).filterMap component) []
    (rootDir_not_mem_body p)
  unfold normalize components
  cases isAbsolute p with
  | true => exact hbody true
  | false =>
    rw [if_neg Bool.false_ne_true]
    split <;> exact hbody false

theorem locate_normalize (dir : List Name) (p : OsBytes) :
    locate dir (normalize p) = (if isAbsolute p then [] else dir) ++ net (moves p) := by
  have hnames : ∀ (names : List Name) (d : List Name),
      (names.map Component.normal).foldl locateStep d = d ++ names := by
    intro names
    induction names with
    | nil => simp
    | cons s names ih =>
      intro d
      rw [map_cons, foldl_cons, ih]
      simp [locateStep]
  rw [normalize_eq, locate, foldl_append, hnames]
  cases isAbsolute p <;> rfl

/-! ## When the check is right -/

/-- The names of the normal form. -/
def names (p : OsBytes) : List Name :=
  net (moves p)

/-- Where the check cannot go wrong.  An absolute root is safe.  Under a relative root, an absolute
request must not contain the names of the root, since the current directory may be what precedes
them; and a relative request that climbs above the current directory must not meet the names of the
root at any level that it climbs more than the root does. -/
def Confined (root rel : OsBytes) : Prop :=
  isAbsolute root = true ∨
    if isAbsolute rel then
      ¬ names root <:+: names rel
    else
      climb (moves (join root rel)) = 0 ∨
        ∀ j ≤ climb (moves (join root rel)) - climb (moves root),
          ¬ names root <+: (names (join root rel)).drop j

theorem normal_injective : Function.Injective Component.normal := by
  intro s s' h
  cases h
  rfl

/-- A root with no names is a prefix of everything, and others only of paths of their own kind. -/
theorem startsWith_normalize {root cand : OsBytes} :
    (isAbsolute root = true → isAbsolute cand = true) →
      ((normalize cand).startsWith (normalize root) = true ↔
        if isAbsolute root = isAbsolute cand then
          names root <+: names cand
        else
          names root = []) := by
  intro habs
  rw [PathBuf.startsWith, isPrefixOf_iff_prefix, normalize_eq, normalize_eq]
  cases hr : isAbsolute root with
  | true =>
    rw [habs hr, if_pos rfl]
    exact (prefix_append_right_inj _).trans (prefix_map_iff_of_injective normal_injective)
  | false =>
    cases hc : isAbsolute cand with
    | false =>
      exact prefix_map_iff_of_injective normal_injective
    | true =>
      -- the first component of the candidate is the root, which is no name
      cases hn : net (moves root) with
      | nil => simp [names, hn, base]
      | cons s rest => simp [names, hn, base]

/-- A path resolves to the names it descends by, below what it leaves of the current directory. -/
theorem locate_eq (dir : List Name) (p : OsBytes) :
    locate dir (components p) =
      if isAbsolute p then names p else dir.rdrop (climb (moves p)) ++ names p := by
  rw [locate_components]
  cases isAbsolute p with
  | true => rfl
  | false => exact walk_eq dir (moves p)

section Check

variable {dir : List Name} {root : OsBytes} {rel : String}

theorem sandboxed_of_accept :
    (normalize (join root (bytes rel))).startsWith (normalize root) = true →
      (Sandboxed dir root rel (safeJoin root rel) ↔
        locate dir (normalize (join root (bytes rel))) =
            locate dir (components (join root (bytes rel))) ∧
          locate dir (components root) <+: locate dir (components (join root (bytes rel)))) := by
  intro h
  rw [safeJoin, if_pos h]
  rfl

theorem sandboxed_of_reject :
    ¬ (normalize (join root (bytes rel))).startsWith (normalize root) = true →
      (Sandboxed dir root rel (safeJoin root rel) ↔
        ¬ locate dir (components root) <+: locate dir (components (join root (bytes rel)))) := by
  intro h
  rw [safeJoin, if_neg h]
  rfl

theorem isAbsolute_candidate (root : OsBytes) (q : OsBytes) :
    isAbsolute (join root q) = (isAbsolute root || isAbsolute q) := by
  cases hq : isAbsolute q with
  | true => rw [join_of_isAbsolute hq, hq, Bool.or_true]
  | false => rw [isAbsolute_join hq, Bool.or_false]

/-- Under an absolute root, every path resolves to its normal form. -/
theorem sandboxed_of_absolute_root (rel : String) :
    isAbsolute root = true → Sandboxed dir root rel (safeJoin root rel) := by
  intro hr
  have hc : isAbsolute (join root (bytes rel)) = true := by
    rw [isAbsolute_candidate, hr, Bool.true_or]
  have hstarts := @startsWith_normalize root (join root (bytes rel)) (fun _ => hc)
  rw [hr, hc, if_pos rfl] at hstarts
  by_cases haccept : (normalize (join root (bytes rel))).startsWith (normalize root) = true
  · rw [sandboxed_of_accept haccept, locate_normalize, locate_eq, locate_eq, hr, hc]
    exact ⟨rfl, hstarts.1 haccept⟩
  · rw [sandboxed_of_reject haccept, locate_eq, locate_eq, hr, hc]
    exact mt hstarts.2 haccept

/-- Under a relative root, an absolute request is accepted only if the root has no names; then it
resolves to a place that some current directories do not lead to. -/
theorem sandboxed_iff_of_absolute_request :
    isAbsolute root = false → isAbsolute (bytes rel) = true →
      ((∀ dir, Sandboxed dir root rel (safeJoin root rel)) ↔
        ¬ names root <:+: names (bytes rel)) := by
  intro hr hq
  have hjoin : join root (bytes rel) = bytes rel := join_of_isAbsolute hq
  have hstarts := @startsWith_normalize root (bytes rel) (by simp [hr])
  rw [hr, hq, if_neg Bool.false_ne_true] at hstarts
  by_cases haccept : (normalize (bytes rel)).startsWith (normalize root) = true
  · have hnames := hstarts.1 haccept
    refine iff_of_false ?_ ?_
    · intro hall
      -- a current directory with more names than the request
      rcases exists_rdrop (replicate ((names (bytes rel)).length + 1)
        (Classical.arbitrary Name)) (climb (moves root)) with ⟨dir, _, hdir⟩
      have hbelow := ((sandboxed_of_accept (hjoin.symm ▸ haccept)).1 (hall dir)).2
      rw [hjoin, locate_eq, locate_eq, hr, hq, hnames] at hbelow
      have hlen : (dir.rdrop (climb (moves root))).length ≤ (names (bytes rel)).length := by
        simpa using hbelow.length_le
      rw [hdir, length_replicate] at hlen
      omega
    · rw [hnames]
      exact not_not.2 nil_infix
  · rw [← forall_not_below_fixed_iff]
    refine forall_congr' ?_
    intro dir
    rw [sandboxed_of_reject (hjoin.symm ▸ haccept), hjoin, locate_eq, locate_eq, hr, hq]
    rfl

/-- Under a relative root, a relative request is right if it never climbs above the current
directory; if it does, it is right only if it is rejected, and rejected rightly. -/
theorem sandboxed_iff_of_relative :
    isAbsolute root = false → isAbsolute (bytes rel) = false →
      ((∀ dir, Sandboxed dir root rel (safeJoin root rel)) ↔
        climb (moves (join root (bytes rel))) = 0 ∨
          ∀ j ≤ climb (moves (join root (bytes rel))) - climb (moves root),
            ¬ names root <+: (names (join root (bytes rel))).drop j) := by
  intro hr hq
  have hc : isAbsolute (join root (bytes rel)) = false := by
    rw [isAbsolute_candidate, hr, hq, Bool.or_false]
  have hle : climb (moves root) ≤ climb (moves (join root (bytes rel))) := by
    rw [moves_join hq]
    exact climb_le_append _ _
  have hstarts := @startsWith_normalize root (join root (bytes rel)) (by simp [hr])
  rw [hr, hc, if_pos rfl] at hstarts
  by_cases haccept : (normalize (join root (bytes rel))).startsWith (normalize root) = true
  · have hprefix := hstarts.1 haccept
    constructor
    · intro hall
      -- dropping a `..` is right only when there is none to drop
      have heq := ((sandboxed_of_accept haccept).1 (hall [Classical.arbitrary Name])).1
      rw [locate_normalize, locate_eq, hc] at heq
      have hlen := congrArg length heq
      simp [rdrop, names] at hlen
      exact .inl (by omega)
    · rintro (h0 | hnone)
      · intro dir
        have hroot0 : climb (moves root) = 0 := by omega
        rw [sandboxed_of_accept haccept, locate_normalize, locate_eq, locate_eq, hr, hc, h0, hroot0]
        simp only [rdrop_zero]
        exact ⟨rfl, (prefix_append_right_inj _).2 hprefix⟩
      · exact absurd hprefix (hnone 0 (Nat.zero_le _))
  · have hnone := mt hstarts.2 haccept
    have hreject : (∀ dir, Sandboxed dir root rel (safeJoin root rel)) ↔
        ∀ dir : List Name, ¬ dir.rdrop (climb (moves root)) ++ names root <+:
          dir.rdrop (climb (moves (join root (bytes rel)))) ++ names (join root (bytes rel)) := by
      refine forall_congr' ?_
      intro dir
      rw [sandboxed_of_reject haccept, locate_eq, locate_eq, hr, hc]
      rfl
    rw [hreject, forall_not_below_iff hle]
    constructor
    · exact .inr
    · rintro (h0 | hall)
      · intro j hj
        have hj0 : j = 0 := by omega
        rw [hj0]
        exact hnone
      · exact hall

end Check

/-- From every current directory, an accepted path resolves to what the joined path resolves to, at
or below the root, and a rejected one does not, exactly if the paths are confined. -/
theorem safeJoin_sandboxed_iff (root : OsBytes) (rel : String) :
    (∀ dir, Sandboxed dir root rel (safeJoin root rel)) ↔ Confined root (bytes rel) := by
  unfold Confined
  cases hr : isAbsolute root with
  | true => exact iff_of_true (fun dir => sandboxed_of_absolute_root rel hr) (.inl rfl)
  | false =>
    cases hq : isAbsolute (bytes rel) with
    | true =>
      rw [sandboxed_iff_of_absolute_request hr hq]
      simp
    | false =>
      rw [sandboxed_iff_of_relative hr hq]
      simp

/-- Under the root `.`, the request `/etc` is accepted; from the current directory `/w` it is not
below the root. -/
theorem safeJoin_dot_etc :
    safeJoin [dot] "/etc" = .ok [.rootDir, .normal ⟨[101, 116, 99], by decide⟩] ∧
      ¬ Sandboxed [⟨[119], by decide⟩] [dot] "/etc" (safeJoin [dot] "/etc") := by
  have haccept : (normalize (join [dot] (bytes "/etc"))).startsWith (normalize [dot]) = true := by
    decide +kernel
  refine ⟨by decide +kernel, ?_⟩
  rw [sandboxed_of_accept haccept]
  decide +kernel

end Console
end Rustorch
