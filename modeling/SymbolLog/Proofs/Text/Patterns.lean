/-
Patterns, and which of their matches counts.

A pattern is what a search is often written as: marks, characters of a kind, repetitions of
them, and groups whose texts are kept. A pattern may match in many ways, and the rule that says
which of them counts has two halves. Of two matches, the one that starts further left counts. Of
two that start at the same place, the preferred one counts: a greedy repetition prefers to take
more and a lazy one less, and what comes first in a pattern has its preference met first.

That is what an engine with backtracking does when it tries one way after the other. No engine
is needed to say it. The ways in which a pattern matches at the start of a text are a list in
the order of preference (`attempts`), and the head of that list is the match that counts.

For a repetition this is a list of splits of the text, and most splits need no look. Where what
follows a greedy repetition fails behind the longest run, and then fails behind every shorter
one as well, the longest run alone decides (`findSome?_longest`).
-/
import SymbolLog.Proofs.Text.Marks
import SymbolLog.Proofs.Text.Runs

set_option autoImplicit false

namespace SymbolLog

/-- A pattern for the start of a text. -/
inductive Pattern where
  /-- These characters and no others. -/
  | mark (t : Text)
  /-- One character of a kind. -/
  | one (kind : Char → Bool)
  /-- Characters of a kind, as many as may be. -/
  | many (kind : Char → Bool)
  /-- Characters of a kind, as few as may be. -/
  | few (kind : Char → Bool)
  | followedBy (first second : Pattern)
  /-- A pattern whose text is kept. -/
  | group (inner : Pattern)

namespace Pattern

/-! ## Matches in the order of preference -/

/-- One way in which a pattern matches at the start of a text. -/
structure Attempt where
  taken : Text
  /-- The texts of the groups, in the order in which the groups begin. -/
  groups : List Text
  rest : Text

/-- A run of characters of a kind at the start of a text, and what is behind it: all such
runs, the shortest first. -/
def splits (kind : Char → Bool) : Text → List (Text × Text)
  | [] => [([], [])]
  | c :: t =>
    ([], c :: t) :: if kind c then (splits kind t).map fun s => (c :: s.1, s.2) else []

/-- The ways in which a pattern matches at the start of a text, those first that are
preferred. -/
def attempts : Pattern → Text → List Attempt
  | .mark m, t => (m.isPrefixOf? t).toList.map fun rest => ⟨m, [], rest⟩
  | .one _, [] => []
  | .one kind, c :: rest => if kind c then [⟨[c], [], rest⟩] else []
  | .many kind, t => (splits kind t).reverse.map fun s => ⟨s.1, [], s.2⟩
  | .few kind, t => (splits kind t).map fun s => ⟨s.1, [], s.2⟩
  | .followedBy p q, t =>
    (p.attempts t).flatMap fun a =>
      (q.attempts a.rest).map fun b => ⟨a.taken ++ b.taken, a.groups ++ b.groups, b.rest⟩
  | .group p, t => (p.attempts t).map fun a => ⟨a.taken, a.taken :: a.groups, a.rest⟩

/-- The groups of the match at the start of a text. -/
def here? (p : Pattern) (t : Text) : Option (List Text) := (p.attempts t).head?.map Attempt.groups

/-- The groups of the match that starts furthest left. -/
def search? (p : Pattern) (t : Text) : Option (List Text) := t.findFrom? p.here?

/-! ## Splits -/

section
variable {kind : Char → Bool} {t : Text}

/-- A run is empty or begins with the first character. -/
theorem mem_splits_cons {d : Char} {run rest : Text} :
    (run, rest) ∈ splits kind (d :: t) ↔
      run = [] ∧ rest = d :: t ∨
        kind d = true ∧ ∃ run', run = d :: run' ∧ (run', rest) ∈ splits kind t := by
  by_cases hd : kind d = true
  · simp only [splits, hd, if_true, List.mem_cons, List.mem_map, Prod.mk.injEq, true_and]
    apply or_congr_right
    constructor
    · rintro ⟨⟨run', rest'⟩, hmem, rfl, rfl⟩
      exact ⟨run', rfl, hmem⟩
    · rintro ⟨run', rfl, hmem⟩
      exact ⟨(run', rest), hmem, rfl, rfl⟩
  · simp [splits, hd]

/-- The splits of a text are its beginnings that are of the kind, each with what is behind it. -/
theorem mem_splits_iff {run rest : Text} :
    (run, rest) ∈ splits kind t ↔ run ++ rest = t ∧ ∀ c ∈ run, kind c = true := by
  induction t generalizing run with
  | nil =>
    simp only [splits, List.mem_singleton, Prod.mk.injEq, List.append_eq_nil_iff]
    constructor
    · rintro ⟨rfl, rfl⟩
      exact ⟨⟨rfl, rfl⟩, by simp⟩
    · intro h
      exact h.1
  | cons d t ih =>
    rw [mem_splits_cons]
    constructor
    · rintro (⟨rfl, rfl⟩ | ⟨hd, run', rfl, hmem⟩)
      · simp
      · obtain ⟨hsplit, hrun⟩ := ih.1 hmem
        simpa [hsplit, hd] using hrun
    · rintro ⟨hsplit, hrun⟩
      cases run with
      | nil => exact .inl ⟨rfl, hsplit⟩
      | cons c run =>
        simp only [List.cons_append, List.cons.injEq] at hsplit
        obtain ⟨rfl, hsplit⟩ := hsplit
        simp only [List.mem_cons, forall_eq_or_imp] at hrun
        exact .inr ⟨hrun.1, run, rfl, ih.2 ⟨hsplit, hrun.2⟩⟩

/-- The last split is the longest run. -/
theorem getLast?_splits (kind : Char → Bool) (t : Text) :
    (splits kind t).getLast? = some (t.takeWhile kind, t.dropWhile kind) := by
  induction t with
  | nil => simp [splits]
  | cons c t ih =>
    by_cases hc : kind c = true
    · have hmap : ((splits kind t).map fun s => (c :: s.1, s.2)).getLast?
          = some (c :: t.takeWhile kind, t.dropWhile kind) := by
        simp [List.getLast?_map, ih]
      simp only [splits, hc, if_true, List.takeWhile_cons, List.dropWhile_cons]
      rw [List.getLast?_cons, hmap, Option.getD_some]
    · simp [splits, hc]

/-- A run that is not the longest one is followed by one more character of its kind. -/
theorem eq_longest_or_continues {s : Text × Text} (hs : s ∈ splits kind t) :
    s = (t.takeWhile kind, t.dropWhile kind) ∨ ∃ c rest, s.2 = c :: rest ∧ kind c = true := by
  obtain ⟨run, rest⟩ := s
  obtain ⟨rfl, hrun⟩ := mem_splits_iff.1 hs
  by_cases hnext : ∀ c, rest.head? = some c → kind c = false
  · left
    have hspan := Text.span_append hrun hnext
    rw [List.span_eq_takeWhile_dropWhile] at hspan
    exact hspan.symm
  · right
    push Not at hnext
    obtain ⟨c, hhead, hc⟩ := hnext
    obtain ⟨rest', rfl⟩ := List.head?_eq_some_iff.1 hhead
    exact ⟨c, rest', rfl, by simpa using hc⟩

variable {β : Type} {k : Text × Text → Option β}

/-- If failing behind the longest run means failing behind every run, it alone decides. -/
theorem findSome?_longest
    (h : ∀ s ∈ splits kind t, k (t.takeWhile kind, t.dropWhile kind) = none → k s = none) :
    (splits kind t).reverse.findSome? k = k (t.takeWhile kind, t.dropWhile kind) := by
  obtain ⟨shorter, hsplits⟩ := List.getLast?_eq_some_iff.1 (getLast?_splits kind t)
  rw [hsplits] at h ⊢
  rw [List.reverse_append, List.reverse_singleton, List.singleton_append, List.findSome?_cons]
  -- The longest run is the last split, so reversed it is tried first; the others are shorter.
  cases hk : k (t.takeWhile kind, t.dropWhile kind) with
  | some b => simp
  | none =>
    simp only [List.findSome?_eq_none_iff, List.mem_reverse]
    intro s hs
    exact h s (List.mem_append_left _ hs) hk

/-- What cannot begin with a character of the kind fails behind every run but the longest. -/
theorem findSome?_longest_of_not
    (h : ∀ run c rest, kind c = true → k (run, c :: rest) = none) :
    (splits kind t).reverse.findSome? k = k (t.takeWhile kind, t.dropWhile kind) := by
  apply findSome?_longest
  intro s hs hlongest
  rcases eq_longest_or_continues hs with rfl | ⟨c, rest, hrest, hc⟩
  · exact hlongest
  · obtain ⟨run, rest'⟩ := s
    subst hrest
    exact h run c rest hc

end

/-! ## What a pattern finds at the start of a text -/

section
variable {kind : Char → Bool} {p q : Pattern} {t : Text}

/-- The first match of the second part that there is behind some match of the first counts. -/
theorem here?_followedBy :
    (p.followedBy q).here? t
      = (p.attempts t).findSome? fun a => (q.here? a.rest).map (a.groups ++ ·) := by
  unfold here?
  rw [attempts, List.head?_flatMap, List.map_findSome?]
  congr 1
  funext a
  simp [List.head?_map, Function.comp_def]

/-- A mark at the beginning of a pattern is taken off the text, and the rest of the pattern is
tried behind it. -/
theorem here?_mark {m : Text} :
    ((mark m).followedBy q).here? t = (m.isPrefixOf? t).bind q.here? := by
  rw [here?_followedBy, attempts]
  cases m.isPrefixOf? t with
  | none => rfl
  | some rest => simp

/-- A greedy repetition tries the longest run first. -/
theorem here?_many :
    ((many kind).followedBy q).here? t
      = (splits kind t).reverse.findSome? fun s => q.here? s.2 := by
  rw [here?_followedBy, attempts, List.findSome?_map]
  congr 1
  funext s
  simp

/-- A greedy repetition takes all it can, if what follows cannot begin with its kind. -/
theorem here?_many_of_not (h : ∀ c rest, kind c = true → q.here? (c :: rest) = none) :
    ((many kind).followedBy q).here? t = q.here? (t.dropWhile kind) := by
  rw [here?_many, findSome?_longest_of_not]
  intro run c rest hc
  exact h c rest hc

theorem here?_group_many : (group (many kind)).here? t = some [t.takeWhile kind] := by
  unfold here?
  simp only [attempts, List.map_map, List.head?_map, List.head?_reverse, getLast?_splits]
  rfl

/-- A lazy repetition tries the shortest run first, and keeps the one behind which the rest
matches. -/
theorem here?_group_few :
    ((group (few kind)).followedBy q).here? t
      = (splits kind t).findSome? fun s => (q.here? s.2).map (s.1 :: ·) := by
  rw [here?_followedBy]
  simp only [attempts, List.map_map, List.findSome?_map]
  rfl

/-- At least one character of a kind and as many as may be, if what follows cannot begin with
one more. -/
theorem here?_group_one_many (h : ∀ c rest, kind c = true → q.here? (c :: rest) = none) :
    ((group ((one kind).followedBy (many kind))).followedBy q).here? t
      = if t.takeWhile kind = [] then none
        else (q.here? (t.dropWhile kind)).map (t.takeWhile kind :: ·) := by
  rw [here?_followedBy]
  cases t with
  | nil => simp [attempts]
  | cons c t =>
    by_cases hc : kind c = true
    · -- The one character is taken, and the repetition behind it decides as if it stood alone.
      have hlongest : (splits kind t).reverse.findSome?
          (fun s => (q.here? s.2).map ((c :: s.1) :: ·))
          = (q.here? (t.dropWhile kind)).map ((c :: t.takeWhile kind) :: ·) := by
        rw [findSome?_longest_of_not]
        intro run d rest hd
        simp [h d rest hd]
      simp only [attempts, hc, if_true, List.flatMap_cons, List.flatMap_nil, List.append_nil,
        List.map_map, List.findSome?_map, List.takeWhile_cons, List.dropWhile_cons]
      exact hlongest
    · simp [attempts, hc]

end

end Pattern

end SymbolLog
