import Rustorch.Lib.Replacement

/-!
# Preprocessing of shaders

`expand_includes` replaces the lines that begin with `#include` by the expansion of the fragments
they name, to a depth of 32.  `expand_macros` replaces the placeholders of the keys of a hash map one
key after the other, in the order in which the map is iterated.

A line that includes an empty fragment puts a newline of its own where nothing stands in front of
it, and a value can complete a placeholder of a key that comes later.
-/

namespace Rustorch
namespace Wgpu

open Replacement List Prod

abbrev Text := List Char

/-! ## The preprocessor -/

section Model

inductive PreprocessError where
  | includeNotFound : Text → PreprocessError
  | includeDepthExceeded : PreprocessError
  deriving DecidableEq

def maxIncludeDepth : Nat := 32

/-- `char::is_whitespace`. -/
def isWhitespace (c : Char) : Bool :=
  let n := c.toNat
  (9 ≤ n ∧ n ≤ 13) ∨ n = 0x20 ∨ n = 0x85 ∨ n = 0xa0 ∨ n = 0x1680 ∨ (0x2000 ≤ n ∧ n ≤ 0x200a) ∨
    n = 0x2028 ∨ n = 0x2029 ∨ n = 0x202f ∨ n = 0x205f ∨ n = 0x3000

def trimStart (s : Text) : Text :=
  s.dropWhile isWhitespace

def trim (s : Text) : Text :=
  ((trimStart s).reverse.dropWhile isWhitespace).reverse

/-- A carriage return in front of a newline is not part of the line. -/
def stripReturn (line : Text) : Text :=
  if line.getLast? = some '\r' then line.dropLast else line

/-- `str::lines`, where `line` is what has been read of the first one. -/
def linesFrom (line : Text) : Text → List Text
  | [] => if line = [] then [] else [line]
  | c :: cs => if c = '\n' then stripReturn line :: linesFrom [] cs else linesFrom (line ++ [c]) cs

def lines (source : Text) : List Text :=
  linesFrom [] source

/-- `str::strip_prefix`. -/
def stripPrefix (pre s : Text) : Option Text :=
  if pre <+: s then some (s.drop pre.length) else none

/-- What follows `#include` on a line that begins with it. -/
def includeArg (line : Text) : Option Text :=
  stripPrefix "#include".toList (trimStart line)

def parseIncludeArg (rest : Text) : Except PreprocessError Text :=
  let trimmed := trimStart rest
  let malformed : PreprocessError :=
    .includeNotFound ("<malformed: ".toList ++ trim trimmed ++ ">".toList)
  match stripPrefix ['"'] trimmed with
  | none => .error malformed
  | some stripped =>
    if '"' ∈ stripped then .ok (stripped.takeWhile (· ≠ '"')) else .error malformed

/-- `fragments.get(name).ok_or_else(..)`. -/
def getFragment (fragments : Text → Option Text) (name : Text) : Except PreprocessError Text :=
  match fragments name with
  | some body => .ok body
  | none => .error (.includeNotFound name)

/-- The body of the loop over the lines; `expand` is the expansion one level below. -/
def expandLine (fragments : Text → Option Text) (expand : Text → Except PreprocessError Text)
    (out line : Text) : Except PreprocessError Text :=
  match includeArg line with
  | none => .ok (out ++ line ++ ['\n'])
  | some rest => do
    let name ← parseIncludeArg rest
    let body ← getFragment fragments name
    let inner ← expand body
    let out := out ++ inner
    pure (if out.getLast? = some '\n' then out else out ++ ['\n'])

/-- `expand_inner`, where `levels` counts down to 0 at a depth of `MAX_INCLUDE_DEPTH + 1`. -/
def expandInner (fragments : Text → Option Text) : Nat → Text → Except PreprocessError Text
  | 0, _ => .error .includeDepthExceeded
  | levels + 1, source =>
    (lines source).foldlM (expandLine fragments (expandInner fragments levels)) []

def expandIncludes (source : Text) (fragments : Text → Option Text) :
    Except PreprocessError Text :=
  expandInner fragments (maxIncludeDepth + 1) source

/-- `format!("{{{{{}}}}}", key)`. -/
def placeholder (key : Text) : Text :=
  ['{', '{'] ++ key ++ ['}', '}']

/-- The loop over the entries of `vars`, in the order in which they are listed. -/
def expandMacros (source : Text) (vars : List (Text × Text)) : Text :=
  vars.foldl (fun out kv => replaceAll (placeholder kv.1) kv.2 out) source

end Model

/-! ## Lines -/

section Lines

theorem not_mem_stripReturn {line : Text} (h : '\n' ∉ line) : '\n' ∉ stripReturn line := by
  rw [stripReturn]
  split_ifs
  · exact fun hmem => h (dropLast_subset _ hmem)
  · exact h

theorem not_mem_of_mem_linesFrom (source : Text) :
    ∀ line : Text, '\n' ∉ line → ∀ l ∈ linesFrom line source, '\n' ∉ l := by
  induction source with
  | nil =>
    intro line hline l hl
    rw [linesFrom] at hl
    split_ifs at hl
    · cases hl
    · rwa [mem_singleton.1 hl]
  | cons c cs ih =>
    intro line hline l hl
    rw [linesFrom] at hl
    split_ifs at hl with hc
    · rcases mem_cons.1 hl with rfl | hl
      · exact not_mem_stripReturn hline
      · exact ih [] (by simp) l hl
    · refine ih (line ++ [c]) ?_ l hl
      rw [mem_append, mem_singleton, not_or]
      exact ⟨hline, fun h => hc h.symm⟩

theorem linesFrom_ne_nil (source : Text) :
    ∀ line : Text, line ≠ [] → linesFrom line source ≠ [] := by
  induction source with
  | nil =>
    intro line hline
    rw [linesFrom, if_neg hline]
    simp
  | cons c cs ih =>
    intro line _
    rw [linesFrom]
    split_ifs
    · simp
    · exact ih _ (by simp)

theorem lines_eq_nil {source : Text} : lines source = [] ↔ source = [] := by
  constructor
  · intro h
    cases source with
    | nil => rfl
    | cons c cs =>
      rw [lines, linesFrom] at h
      split_ifs at h
      exact absurd h (linesFrom_ne_nil cs _ (by simp))
  · rintro rfl
    rfl

/-- Lines, each terminated by a newline. -/
def terminated (ls : List Text) : Text :=
  ls.flatMap (· ++ ['\n'])

end Lines

/-! ## What a source includes -/

section Includes

variable {fragments : Text → Option Text} {s t body line out : Text} {ls : List Text} {n : Nat}

/-- A well-formed line that names a fragment of the table. -/
def IncludesLine (fragments : Text → Option Text) (line body : Text) : Prop :=
  ∃ rest name, includeArg line = some rest ∧ parseIncludeArg rest = .ok name ∧
    fragments name = some body

/-- `t` is reached from `s` along a chain of `n` includes. -/
inductive Reaches (fragments : Text → Option Text) : Text → Nat → Text → Prop where
  | self (s : Text) : Reaches fragments s 0 s
  | step {s body t line : Text} {n : Nat} : line ∈ lines s → IncludesLine fragments line body →
      Reaches fragments body n t → Reaches fragments s (n + 1) t

/-- Every include line of the text is well formed and names a fragment of the table. -/
def WellFormed (fragments : Text → Option Text) (t : Text) : Prop :=
  ∀ line ∈ lines t, (includeArg line).isSome → ∃ body, IncludesLine fragments line body

/-- The texts that are reached are well formed, along chains of less than `levels`. -/
def Resolves (fragments : Text → Option Text) (levels : Nat) (s : Text) : Prop :=
  ∀ n t, Reaches fragments s n t → n < levels ∧ WellFormed fragments t

/-- The full expansion of a list of lines: the lines, with the expansion of the fragment in the place
of a line that includes it. -/
inductive Expansion (fragments : Text → Option Text) : List Text → List Text → Prop where
  | nil : Expansion fragments [] []
  | line {l : Text} {ls out : List Text} : includeArg l = none → Expansion fragments ls out →
      Expansion fragments (l :: ls) (l :: out)
  | fragment {l body : Text} {ls inner out : List Text} : IncludesLine fragments l body →
      Expansion fragments (lines body) inner → Expansion fragments ls out →
      Expansion fragments (l :: ls) (inner ++ out)

/-- The first line of the text includes an empty fragment. -/
def OpensEmpty (fragments : Text → Option Text) (ls : List Text) : Prop :=
  ∃ l rest, ls = l :: rest ∧ IncludesLine fragments l []

/-- A text that is reached from `s` begins with an empty fragment. -/
def ReachesEmpty (fragments : Text → Option Text) (s : Text) : Prop :=
  ∃ n t, Reaches fragments s n t ∧ OpensEmpty fragments (lines t)

theorem IncludesLine.unique {body' : Text} (h : IncludesLine fragments line body)
    (h' : IncludesLine fragments line body') : body = body' := by
  obtain ⟨rest, name, harg, hname, hbody⟩ := h
  obtain ⟨rest', name', harg', hname', hbody'⟩ := h'
  cases harg.symm.trans harg'
  cases hname.symm.trans hname'
  exact Option.some_inj.1 (hbody.symm.trans hbody')

theorem Expansion.lines_of {outs : List Text} (h : Expansion fragments ls outs)
    (hls : ∀ l ∈ ls, '\n' ∉ l) : ∀ l ∈ outs, includeArg l = none ∧ '\n' ∉ l := by
  induction h with
  | nil => simp
  | @line l ls out hl _ ih =>
    intro m hm
    rcases mem_cons.1 hm with rfl | hm
    · exact ⟨hl, hls _ mem_cons_self⟩
    · exact ih (fun l hl => hls l (mem_cons_of_mem _ hl)) m hm
  | @fragment l body ls inner out _ _ _ ihInner ih =>
    intro m hm
    rcases mem_append.1 hm with hm | hm
    · exact ihInner (not_mem_of_mem_linesFrom body [] (by simp)) m hm
    · exact ih (fun l hl => hls l (mem_cons_of_mem _ hl)) m hm

theorem reachesEmpty_iff : ReachesEmpty fragments s ↔ OpensEmpty fragments (lines s) ∨
    ∃ line ∈ lines s, ∃ body, IncludesLine fragments line body ∧ ReachesEmpty fragments body := by
  constructor
  · rintro ⟨n, t, hreach, hempty⟩
    cases hreach with
    | self => exact Or.inl hempty
    | @step _ body _ line n hline hincludes hrest =>
      exact Or.inr ⟨line, hline, body, hincludes, n, t, hrest, hempty⟩
  · rintro (hempty | ⟨line, hline, body, hincludes, n, t, hreach, hempty⟩)
    · exact ⟨0, s, .self s, hempty⟩
    · exact ⟨n + 1, t, .step hline hincludes hreach, hempty⟩

end Includes

/-! ## The loop over the lines -/

section Loop

variable {fragments : Text → Option Text} {expand : Text → Except PreprocessError Text}
  {s line acc out : Text} {ls : List Text} {levels : Nat}

theorem expandLine_none (h : includeArg line = none) :
    expandLine fragments expand acc line = .ok (acc ++ line ++ ['\n']) := by
  rw [expandLine, h]

variable {body : Text} {extra : Prop} {text : Text} {outs inners : List Text} {inner : Text}

theorem expandLine_includes (h : IncludesLine fragments line body) :
    expandLine fragments expand acc line = (expand body).map fun inner =>
      if (acc ++ inner).getLast? = some '\n' then acc ++ inner else acc ++ inner ++ ['\n'] := by
  obtain ⟨rest, name, harg, hname, hbody⟩ := h
  rw [expandLine, harg]
  simp only [hname, getFragment, hbody, bind, Except.bind]
  cases expand body <;> rfl

theorem expandLine_eq_ok (h : expandLine fragments expand acc line = .ok out) :
    includeArg line = none ∨
      ∃ body inner, IncludesLine fragments line body ∧ expand body = .ok inner := by
  cases harg : includeArg line with
  | none => exact Or.inl rfl
  | some rest =>
    rw [expandLine, harg] at h
    cases hname : parseIncludeArg rest with
    | error e =>
      simp only [hname, bind, Except.bind] at h
      cases h
    | ok name =>
      cases hbody : fragments name with
      | none =>
        simp only [hname, getFragment, hbody, bind, Except.bind] at h
        cases h
      | some body =>
        cases hinner : expand body with
        | error e =>
          simp only [hname, getFragment, hbody, hinner, bind, Except.bind] at h
          cases h
        | ok inner => exact Or.inr ⟨body, inner, ⟨rest, name, harg, hname, hbody⟩, hinner⟩

theorem foldlM_expandLine_ok : (∃ out, ls.foldlM (expandLine fragments expand) acc = .ok out) ↔
    ∀ line ∈ ls, includeArg line = none ∨
      ∃ body inner, IncludesLine fragments line body ∧ expand body = .ok inner := by
  induction ls generalizing acc with
  | nil => exact ⟨fun _ line h => absurd h not_mem_nil, fun _ => ⟨acc, rfl⟩⟩
  | cons line ls ih =>
    rw [foldlM_cons, forall_mem_cons]
    constructor
    · rintro ⟨out, hout⟩
      cases hline : expandLine fragments expand acc line with
      | error e =>
        rw [hline] at hout
        cases hout
      | ok acc' =>
        rw [hline] at hout
        exact ⟨expandLine_eq_ok hline, ih.1 ⟨out, hout⟩⟩
    · rintro ⟨hline, hls⟩
      rcases hline with hnone | ⟨body, inner, hincludes, hinner⟩
      · rw [expandLine_none hnone]
        exact ih.2 hls
      · rw [expandLine_includes hincludes, hinner]
        exact ih.2 hls

/-- The expansion returns exactly if everything that is reached is well formed, in time. -/
theorem expandInner_ok_iff :
    ∀ {levels : Nat} {s : Text}, (∃ out, expandInner fragments levels s = .ok out) ↔
      Resolves fragments levels s
  | 0, s => by
    constructor
    · rintro ⟨out, hout⟩
      cases hout
    · intro h
      exact absurd (h 0 s (.self s)).1 (Nat.lt_irrefl 0)
  | levels + 1, s => by
    rw [expandInner, foldlM_expandLine_ok]
    constructor
    · intro h n t hreach
      cases hreach with
      | self =>
        refine ⟨Nat.succ_pos _, fun line hline hsome => ?_⟩
        rcases h line hline with hnone | ⟨body, _, hincludes, _⟩
        · rw [hnone] at hsome
          cases hsome
        · exact ⟨body, hincludes⟩
      | @step _ body _ line n hline hincludes hrest =>
        rcases h line hline with hnone | ⟨body', inner, hincludes', hinner⟩
        · obtain ⟨rest, _, harg, _⟩ := hincludes
          cases hnone.symm.trans harg
        · cases hincludes.unique hincludes'
          obtain ⟨hlt, hwell⟩ := expandInner_ok_iff.1 ⟨inner, hinner⟩ n t hrest
          exact ⟨Nat.succ_lt_succ hlt, hwell⟩
    · intro h line hline
      cases harg : includeArg line with
      | none => exact Or.inl rfl
      | some rest =>
        obtain ⟨body, hincludes⟩ := (h 0 s (.self s)).2 line hline (by rw [harg]; rfl)
        have hbody : Resolves fragments levels body := by
          intro n t hreach
          obtain ⟨hlt, hwell⟩ := h (n + 1) t (.step hline hincludes hreach)
          exact ⟨Nat.lt_of_succ_lt_succ hlt, hwell⟩
        obtain ⟨inner, hinner⟩ := expandInner_ok_iff.2 hbody
        exact Or.inr ⟨body, inner, hincludes, hinner⟩

/-- Empty, or ended by a newline. -/
def Ended (out : Text) : Prop :=
  out = [] ∨ out.getLast? = some '\n'

/-- `out` is `text`, or longer than it where `extra` holds. -/
structure Exceeds (extra : Prop) (text out : Text) : Prop where
  longer : extra → text.length < out.length
  same : ¬ extra → out = text

theorem Exceeds.le (h : Exceeds extra text out) : text.length ≤ out.length := by
  by_cases hextra : extra
  · exact Nat.le_of_lt (h.longer hextra)
  · exact Nat.le_of_eq (congrArg length (h.same hextra).symm)

theorem Exceeds.eq_iff (h : Exceeds extra text out) : out = text ↔ ¬ extra := by
  constructor
  · rintro rfl hextra
    exact Nat.lt_irrefl _ (h.longer hextra)
  · exact h.same

theorem terminated_append (ls ls' : List Text) :
    terminated (ls ++ ls') = terminated ls ++ terminated ls' :=
  flatMap_append

/-- A line of `ls` includes a text from which an empty opening is reached. -/
def LinesReachEmpty (fragments : Text → Option Text) (ls : List Text) : Prop :=
  ∃ line ∈ ls, ∃ body, IncludesLine fragments line body ∧ ReachesEmpty fragments body

theorem linesReachEmpty_cons : LinesReachEmpty fragments (line :: ls) ↔
    (∃ body, IncludesLine fragments line body ∧ ReachesEmpty fragments body) ∨
      LinesReachEmpty fragments ls := by
  simp only [LinesReachEmpty, mem_cons, or_and_right, exists_or, exists_eq_left]

/-- What a text expands to. -/
structure ExpandsTo (fragments : Text → Option Text) (body inner : Text) (outs : List Text) :
    Prop where
  expansion : Expansion fragments (lines body) outs
  ended : Ended inner
  empty : inner = [] ↔ body = []
  exceeds : Exceeds (ReachesEmpty fragments body) (terminated outs) inner

/-- The loop over `ls` takes the text `acc` to `out`: the lines of the expansion are put behind it,
with more where a fragment that is reached begins with an empty one, or the first line includes the
empty fragment and nothing stands in front of it. -/
structure Continues (fragments : Text → Option Text) (acc : Text) (ls : List Text) (out : Text)
    (outs : List Text) : Prop where
  expansion : Expansion fragments ls outs
  ended : Ended out
  empty : out = [] ↔ acc = [] ∧ ls = []
  exceeds : Exceeds ((acc = [] ∧ OpensEmpty fragments ls) ∨ LinesReachEmpty fragments ls)
    (acc ++ terminated outs) out

theorem Continues.nil (hacc : Ended acc) : Continues fragments acc [] acc [] where
  expansion := .nil
  ended := hacc
  empty := by simp
  exceeds := by
    constructor
    · rintro (⟨_, _, _, hcons, _⟩ | ⟨_, hmem, _⟩)
      · cases hcons
      · cases hmem
    · intro _
      exact (append_nil _).symm

theorem Continues.copied (hnone : includeArg line = none)
    (h : Continues fragments (acc ++ line ++ ['\n']) ls out outs) :
    Continues fragments acc (line :: ls) out (line :: outs) := by
  have hnot : ∀ body, ¬ IncludesLine fragments line body := by
    rintro body ⟨rest, _, harg, _⟩
    cases hnone.symm.trans harg
  have hterm : acc ++ terminated (line :: outs) = acc ++ line ++ ['\n'] ++ terminated outs := by
    simp [terminated]
  refine ⟨.line hnone h.expansion, h.ended, by simp [h.empty], ?_, ?_⟩
  · rintro (⟨_, l, rest, hcons, hopens⟩ | hreach)
    · cases hcons
      exact absurd hopens (hnot [])
    · rw [hterm]
      rcases linesReachEmpty_cons.1 hreach with ⟨body, hincludes, _⟩ | hrest
      · exact absurd hincludes (hnot body)
      · exact h.exceeds.longer (Or.inr hrest)
  · intro hextra
    rw [hterm]
    refine h.exceeds.same ?_
    rintro (⟨hnil, _⟩ | hrest)
    · simp at hnil
    · exact hextra (Or.inr (linesReachEmpty_cons.2 (Or.inr hrest)))

/-- The empty fragment with nothing in front of it: the newline that is added stands in no line of the
expansion. -/
theorem Continues.included_empty (hincludes : IncludesLine fragments line [])
    (hbody : ExpandsTo fragments [] [] inners) (h : Continues fragments ['\n'] ls out outs) :
    Continues fragments [] (line :: ls) out (inners ++ outs) := by
  have hinners : terminated inners = [] :=
    eq_nil_of_length_eq_zero (Nat.le_zero.1 hbody.exceeds.le)
  have hopens : OpensEmpty fragments (line :: ls) := ⟨line, ls, rfl, hincludes⟩
  refine ⟨.fragment hincludes hbody.expansion h.expansion, h.ended, by simp [h.empty], ?_, ?_⟩
  · intro _
    have hle := h.exceeds.le
    rw [terminated_append, hinners]
    simp only [nil_append, length_append, length_cons, length_nil] at hle ⊢
    omega
  · intro hextra
    exact absurd (Or.inl ⟨rfl, hopens⟩) hextra

theorem Continues.included (hincludes : IncludesLine fragments line body)
    (hbody : ExpandsTo fragments body inner inners) (hnil : acc ++ inner ≠ [])
    (h : Continues fragments (acc ++ inner) ls out outs) :
    Continues fragments acc (line :: ls) out (inners ++ outs) := by
  refine ⟨.fragment hincludes hbody.expansion h.expansion, h.ended, ?_, ?_, ?_⟩
  · rw [h.empty]
    exact ⟨fun h => absurd h.1 hnil, fun h => by cases h.2⟩
  · have hle := h.exceeds.le
    have hleInner := hbody.exceeds.le
    rw [terminated_append]
    simp only [length_append] at hle ⊢
    rintro (⟨rfl, l, rest, hcons, hopens⟩ | hreach)
    · cases hcons
      cases hincludes.unique hopens
      exact absurd (hbody.empty.2 rfl) hnil
    · rcases linesReachEmpty_cons.1 hreach with ⟨body', hincludes', hreach⟩ | hrest
      · cases hincludes.unique hincludes'
        have hlt := hbody.exceeds.longer hreach
        omega
      · have hlt := h.exceeds.longer (Or.inr hrest)
        simp only [length_append] at hlt
        omega
  · intro hextra
    have hsame := h.exceeds.same (by
      rintro (⟨h, _⟩ | hrest)
      · exact hnil h
      · exact hextra (Or.inr (linesReachEmpty_cons.2 (Or.inr hrest))))
    have hsameInner := hbody.exceeds.same fun hreach =>
      hextra (Or.inr (linesReachEmpty_cons.2 (Or.inl ⟨body, hincludes, hreach⟩)))
    rw [hsame, terminated_append, hsameInner, append_assoc]

/-- The text behind which a fragment was put ends in a newline, if both did and one is not empty. -/
theorem Ended.getLast?_append (hacc : Ended acc) (hinner : Ended inner) (hnil : acc ++ inner ≠ []) :
    (acc ++ inner).getLast? = some '\n' := by
  rcases hinner with rfl | hlast
  · rcases hacc with rfl | hlast
    · exact absurd rfl hnil
    · rwa [append_nil]
  · rw [List.getLast?_append, hlast]
    rfl

theorem foldlM_expandLine_lines
    (hexpand : ∀ body inner, expand body = .ok inner → ∃ outs, ExpandsTo fragments body inner outs) :
    ∀ {ls : List Text} {acc : Text}, Ended acc →
      ls.foldlM (expandLine fragments expand) acc = .ok out →
      ∃ outs, Continues fragments acc ls out outs
  | [], acc, hacc, h => by
    cases h
    exact ⟨[], .nil hacc⟩
  | line :: ls, acc, hacc, h => by
    rw [List.foldlM_cons] at h
    cases hline : expandLine fragments expand acc line with
    | error e =>
      rw [hline] at h
      cases h
    | ok acc' =>
      rw [hline] at h
      rcases expandLine_eq_ok hline with hnone | ⟨body, inner, hincludes, hinner⟩
      · cases (expandLine_none hnone).symm.trans hline
        obtain ⟨outs, hrest⟩ := foldlM_expandLine_lines hexpand (Or.inr (by simp)) h
        exact ⟨line :: outs, hrest.copied hnone⟩
      · obtain ⟨inners, hbody⟩ := hexpand body inner hinner
        rw [expandLine_includes hincludes, hinner, Except.map] at hline
        have hline := Except.ok.inj hline
        by_cases hnil : acc ++ inner = []
        · -- the empty text does not end in a newline, so the body puts one there
          obtain ⟨rfl, rfl⟩ := append_eq_nil_iff.1 hnil
          subst hline
          have hempty := hbody.empty.1 rfl
          subst hempty
          obtain ⟨outs, hrest⟩ := foldlM_expandLine_lines hexpand (Or.inr rfl) h
          exact ⟨inners ++ outs, hrest.included_empty hincludes hbody⟩
        · have hends := hacc.getLast?_append hbody.ended hnil
          rw [if_pos hends] at hline
          subst hline
          obtain ⟨outs, hrest⟩ := foldlM_expandLine_lines hexpand (Or.inr hends) h
          exact ⟨inners ++ outs, hrest.included hincludes hbody hnil⟩

theorem expandInner_lines : ∀ {levels : Nat} {s out : Text},
    expandInner fragments levels s = .ok out → ∃ outs, ExpandsTo fragments s out outs
  | 0, _, _, h => by cases h
  | levels + 1, s, out, h => by
    obtain ⟨outs, hlines⟩ :=
      foldlM_expandLine_lines (fun _ _ => expandInner_lines) (Or.inl rfl) h
    refine ⟨outs, hlines.expansion, hlines.ended, ?_, ?_⟩
    · rw [hlines.empty, lines_eq_nil]
      exact and_iff_right rfl
    · have hreach : ReachesEmpty fragments s ↔
          (([] : Text) = [] ∧ OpensEmpty fragments (lines s)) ∨
            LinesReachEmpty fragments (lines s) := by
        rw [reachesEmpty_iff, and_iff_right rfl]
        rfl
      have hexceeds := hlines.exceeds
      rw [nil_append] at hexceeds
      exact ⟨fun h => hexceeds.longer (hreach.1 h), fun h => hexceeds.same (mt hreach.2 h)⟩

end Loop

/-! ## Preprocessing -/

section Preprocess

theorem placeholder_ne_nil (key : Text) : placeholder key ≠ [] := by
  simp [placeholder]

/-- The value that the table holds for a key. -/
def valueOf (vars : List (Text × Text)) (key : Text) : Text :=
  ((vars.find? fun kv => kv.1 = key).map snd).getD []

/-- The source, where the placeholders of the keys `done` are replaced. -/
def filled (vars : List (Text × Text)) (done : List Text) (pieces : List (Piece Char Text)) : Text :=
  render placeholder (valueOf vars) done pieces

/-- However many of the keys have been replaced, the placeholders of the other ones that the text
holds are those of the source. -/
def PlaceholdersKept (vars : List (Text × Text)) (pieces : List (Piece Char Text)) : Prop :=
  ∀ done key, done ⊆ vars.map fst → key ∈ vars.map fst → key ∉ done →
    OnlyHoles placeholder (valueOf vars) done key pieces

theorem valueOf_of_mem {vars : List (Text × Text)} (hkeys : (vars.map fst).Nodup)
    {kv : Text × Text} (h : kv ∈ vars) : valueOf vars kv.1 = kv.2 := by
  induction vars with
  | nil => cases h
  | cons head vars ih =>
    rw [map_cons, nodup_cons] at hkeys
    rcases mem_cons.1 h with rfl | h
    · simp [valueOf]
    · have hne : head.1 ≠ kv.1 := fun heq => hkeys.1 (heq ▸ mem_map_of_mem h)
      rw [← ih hkeys.2 h]
      simp [valueOf, hne]

theorem expandMacros_filled {vars order : List (Text × Text)} {pieces : List (Piece Char Text)}
    (hkeys : (vars.map fst).Nodup) (horder : order.Perm vars)
    (hkept : PlaceholdersKept vars pieces) :
    expandMacros (filled vars [] pieces) order = filled vars (vars.map fst) pieces := by
  have hperm : (order.map fst).Perm (vars.map fst) := horder.map _
  have hfold : ∀ (todo : List (Text × Text)) (text : Text), todo ⊆ vars →
      todo.foldl (fun out kv => replaceAll (placeholder kv.1) kv.2 out) text =
        (todo.map fst).foldl
          (fun out key => replaceAll (placeholder key) (valueOf vars key) out) text := by
    intro todo
    induction todo with
    | nil => exact fun _ _ => rfl
    | cons kv todo ih =>
      intro text hsub
      obtain ⟨hkv, hsub⟩ := cons_subset.1 hsub
      rw [foldl_cons, ih _ hsub, map_cons, foldl_cons, valueOf_of_mem hkeys hkv]
  calc
    expandMacros (filled vars [] pieces) order =
        (order.map fst).foldl
          (fun out key => replaceAll (placeholder key) (valueOf vars key) out)
          (render placeholder (valueOf vars) [] pieces) := hfold _ _ horder.subset
    _ = render placeholder (valueOf vars) ((order.map fst).reverse ++ []) pieces :=
        foldl_replaceAll placeholder_ne_nil (vars.map fst) hkept _ [] hperm.subset
          (nil_subset _) (hperm.nodup_iff.2 hkeys) fun _ _ => not_mem_nil
    _ = filled vars (vars.map fst) pieces := by
        refine render_congr fun key => ?_
        rw [append_nil, mem_reverse, hperm.mem_iff]

/-- The expansion of the macros does not depend on the order of the table, and fills every
placeholder, if no value completes a placeholder; that of the includes returns exactly if every
include line that is reached is well formed and no chain is longer than 32, and returns the lines of
the full expansion exactly if no text that is reached begins with an empty fragment. -/
theorem preprocess_holds_when {vars : List (Text × Text)} {pieces : List (Piece Char Text)}
    {fragments : Text → Option Text} {source : Text} (hkeys : (vars.map fst).Nodup)
    (hkept : PlaceholdersKept vars pieces) :
    (∀ order, order.Perm vars →
      expandMacros (filled vars [] pieces) order = filled vars (vars.map fst) pieces) ∧
    ((∃ out, expandIncludes source fragments = .ok out) ↔
      ∀ n t, Reaches fragments source n t → n ≤ maxIncludeDepth ∧ WellFormed fragments t) ∧
    ∀ out, expandIncludes source fragments = .ok out → ∃ outs,
      Expansion fragments (lines source) outs ∧
      (∀ line ∈ outs, includeArg line = none ∧ '\n' ∉ line) ∧
      (out = terminated outs ↔ ¬ ReachesEmpty fragments source) := by
  refine ⟨fun order horder => expandMacros_filled hkeys horder hkept, ?_, fun out hout => ?_⟩
  · rw [expandIncludes, expandInner_ok_iff]
    simp only [Resolves, Nat.lt_succ_iff]
  · obtain ⟨outs, houts⟩ := expandInner_lines hout
    exact ⟨outs, houts.expansion,
      houts.expansion.lines_of (not_mem_of_mem_linesFrom source [] (by simp)),
      houts.exceeds.eq_iff⟩

def twoKeys : List (Text × Text) :=
  [(['A'], ['1']), (['B'], ['2'])]

/-- The placeholders of both keys with a plus between them. -/
def sumPieces : List (Piece Char Text) :=
  [.hole ['A'], .char '+', .hole ['B']]

/-- A fragment that includes another one. -/
def nested (name : Text) : Option Text :=
  if name = "outer".toList then some "a\n#include \"inner\"".toList
  else if name = "inner".toList then some "b".toList
  else none

/-- A pattern that begins at one place only splits the text there. -/
theorem eq_of_starts {t pat pre post : Text} (n : Nat)
    (h : ∀ i < t.length + 1, pat <+: t.drop i → i = n) (heq : t = pre ++ pat ++ post) :
    pre = t.take n ∧ post = t.drop (n + pat.length) := by
  obtain rfl : pre.length = n := by
    refine h _ ?_ ?_
    · rw [heq, append_assoc, length_append]
      omega
    · rw [heq, append_assoc, drop_left]
      exact prefix_append _ _
  rw [heq]
  constructor
  · rw [append_assoc, take_left]
  · rw [← length_append, drop_left]

theorem placeholdersKept_twoKeys : PlaceholdersKept twoKeys sumPieces := by
  intro done key _ hkey hnot pre post hplace
  have hA : Piece.render placeholder (valueOf twoKeys) done (.hole ['A']) =
      if ['A'] ∈ done then ['1'] else placeholder ['A'] := by
    rw [Piece.render, (by decide : valueOf twoKeys ['A'] = ['1'])]
    congr
  have hB : Piece.render placeholder (valueOf twoKeys) done (.hole ['B']) =
      if ['B'] ∈ done then ['2'] else placeholder ['B'] := by
    rw [Piece.render, (by decide : valueOf twoKeys ['B'] = ['2'])]
    congr
  have htext : (if ['A'] ∈ done then ['1'] else placeholder ['A']) ++
      '+' :: ((if ['B'] ∈ done then ['2'] else placeholder ['B']) ++ []) =
        pre ++ placeholder key ++ post := by
    rw [append_assoc, ← hA, ← hB]
    exact hplace
  rcases mem_pair.1 hkey with rfl | rfl
  · rw [if_neg hnot] at htext
    obtain ⟨hpre, hpost⟩ := eq_of_starts 0 (by split_ifs <;> decide) htext
    refine ⟨[], [.char '+', .hole ['B']], rfl, hpre, hpost.trans ?_⟩
    rw [← hB]
    rfl
  · rw [if_neg hnot] at htext
    refine ⟨[.hole ['A'], .char '+'], [], rfl, ?_⟩
    rw [render_cons, hA]
    by_cases hmem : ['A'] ∈ done
    · rw [if_pos hmem] at htext ⊢
      exact eq_of_starts 2 (by decide) htext
    · rw [if_neg hmem] at htext ⊢
      exact eq_of_starts 6 (by decide) htext

/-- Two keys in both orders, and an include in an included fragment. -/
theorem preprocess_twoKeys :
    (∀ order, order.Perm twoKeys →
      expandMacros "\x7b\x7bA\x7d\x7d+\x7b\x7bB\x7d\x7d".toList order = "1+2".toList) ∧
    expandIncludes "#include \"outer\"\nc".toList nested = .ok "a\nb\nc\n".toList ∧
    ∃ outs, Expansion nested (lines "#include \"outer\"\nc".toList) outs ∧
      (∀ line ∈ outs, includeArg line = none ∧ '\n' ∉ line) ∧
      ("a\nb\nc\n".toList = terminated outs ↔
        ¬ ReachesEmpty nested "#include \"outer\"\nc".toList) := by
  have hall := @preprocess_holds_when twoKeys sumPieces nested "#include \"outer\"\nc".toList
    (by decide) placeholdersKept_twoKeys
  have hincludes : expandIncludes "#include \"outer\"\nc".toList nested =
      .ok "a\nb\nc\n".toList := by decide
  exact ⟨hall.1, hincludes, hall.2.2 _ hincludes⟩

/-- A value that is a placeholder of its own: the order of the table decides. -/
theorem expandMacros_order_dependent :
    expandMacros "\x7b\x7bA\x7d\x7d".toList
        [("A".toList, "\x7b\x7bB\x7d\x7d".toList), ("B".toList, "x".toList)] ≠
      expandMacros "\x7b\x7bA\x7d\x7d".toList
        [("B".toList, "x".toList), ("A".toList, "\x7b\x7bB\x7d\x7d".toList)] := by
  decide

end Preprocess

end Wgpu
end Rustorch
