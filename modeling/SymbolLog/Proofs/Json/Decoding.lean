/-
What the strings of JSON spell.

A string holds characters and UTF-16 units, and a character beyond U+FFFF takes two units. So
there are strings that spell no text, those that hold one half of a pair without the other. What
a string spells is said here as a relation with one rule for each way in which a character can be
written, and what it cannot spell by pointing at the half that stands alone (`HasLone`). A string
does the one or the other (`exists_decodes_iff`), and the function that joins its pieces computes
the first (`textOf?_eq_some_iff`).

The halves are told apart from the left. Pieces that spell a text may be taken off the front of a
string without any effect on the rest, since no rule looks back.
-/
import SymbolLog.Json.Value
import SymbolLog.Proofs.Json.Quoted

set_option autoImplicit false

namespace SymbolLog.Json

/-! ## Texts that are spelled -/

/-- The first unit of a pair. -/
def IsFirstHalf (u : Nat) : Prop := 0xD800 ≤ u ∧ u ≤ 0xDBFF

/-- The second unit of a pair. -/
def IsSecondHalf (u : Nat) : Prop := 0xDC00 ≤ u ∧ u ≤ 0xDFFF

/-- The text that some pieces spell, character by character. -/
inductive Decodes : List Piece → Text → Prop where
  | nil : Decodes [] []
  | char {c : Char} {pieces : List Piece} {t : Text} (htail : Decodes pieces t) :
    Decodes (.char c :: pieces) (c :: t)
  /-- A unit that is no half of a pair. -/
  | unit {u : Nat} {pieces : List Piece} {t : Text} (hu : ¬ IsFirstHalf u ∧ ¬ IsSecondHalf u)
    (htail : Decodes pieces t) : Decodes (.unit u :: pieces) (Char.ofNat u :: t)
  /-- Two units, for a character beyond U+FFFF. -/
  | pair {u v : Nat} {pieces : List Piece} {t : Text} (hu : IsFirstHalf u) (hv : IsSecondHalf v)
    (htail : Decodes pieces t) :
    Decodes (.unit u :: .unit v :: pieces)
      (Char.ofNat (0x10000 + (u - 0xD800) * 0x400 + (v - 0xDC00)) :: t)

theorem isHighUnit_iff {u : Nat} : isHighUnit u = true ↔ IsFirstHalf u := by
  rw [isHighUnit, Bool.and_eq_true, decide_eq_true_eq, decide_eq_true_eq]
  rfl

theorem isLowUnit_iff {u : Nat} : isLowUnit u = true ↔ IsSecondHalf u := by
  rw [isLowUnit, Bool.and_eq_true, decide_eq_true_eq, decide_eq_true_eq]
  rfl

/-- A character in front makes a text of a text, and of nothing else. -/
theorem Joined.cons_eq_text_iff {c : Char} {joined : Joined} {t : Text} :
    joined.cons c = .text t ↔ ∃ tail, joined = .text tail ∧ t = c :: tail := by
  cases joined with
  | text tail => simp [Joined.cons, eq_comm]
  | unpaired => simp [Joined.cons]
  | lone => simp [Joined.cons]

/-- What pieces are joined to is what they decode to. The induction is on the joining, and its
cases are the rules. -/
theorem decodes_of_join {pieces : List Piece} {t : Text} (h : join pieces = .text t) :
    Decodes pieces t := by
  fun_induction join pieces generalizing t with
  | case1 =>
    cases h
    exact .nil
  | case2 c rest ih =>
    obtain ⟨tail, htail, rfl⟩ := Joined.cons_eq_text_iff.1 h
    exact .char (ih htail)
  | case3 => cases h
  | case4 => cases h
  | case5 u hu v rest hv ih =>
    obtain ⟨tail, htail, rfl⟩ := Joined.cons_eq_text_iff.1 h
    exact .pair (isHighUnit_iff.1 hu) (isLowUnit_iff.1 hv) (ih htail)
  | case6 => cases h
  | case7 => cases h
  | case8 u rest hhigh hlow ih =>
    obtain ⟨tail, htail, rfl⟩ := Joined.cons_eq_text_iff.1 h
    exact .unit ⟨mt isHighUnit_iff.2 hhigh, mt isLowUnit_iff.2 hlow⟩ (ih htail)

theorem Decodes.join_eq {pieces : List Piece} {t : Text} (h : Decodes pieces t) :
    join pieces = .text t := by
  induction h with
  | nil => rfl
  | char _ ih => rw [join, ih, Joined.cons]
  | unit hu _ ih =>
    have hhigh := Bool.eq_false_iff.2 (mt isHighUnit_iff.1 hu.1)
    have hlow := Bool.eq_false_iff.2 (mt isLowUnit_iff.1 hu.2)
    rw [join_unit hhigh hlow, ih, Joined.cons]
  | pair hu hv _ ih =>
    rw [join_pair (isHighUnit_iff.2 hu) (isLowUnit_iff.2 hv), ih, Joined.cons, pairChar]

theorem textOf?_eq_some_iff {pieces : List Piece} {t : Text} :
    textOf? pieces = some t ↔ Decodes pieces t := by
  rw [textOf?]
  constructor
  · intro h
    split at h
    next hjoin =>
      cases h
      exact decodes_of_join hjoin
    · cases h
  · intro h
    rw [h.join_eq]

/-! ## Halves that stand alone -/

/-- Behind pieces that spell a text comes the second half of a pair, or a first half without a
second. -/
def HasLone (pieces : List Piece) : Prop :=
  ∃ before u after t, pieces = before ++ .unit u :: after ∧ Decodes before t ∧
    (IsSecondHalf u ∨
      IsFirstHalf u ∧ ∀ v rest, after = .unit v :: rest → ¬ IsSecondHalf v)

/-- Behind a unit that begins no pair, the rest decodes by itself. -/
theorem Decodes.tail_of_unit {u : Nat} {rest : List Piece} {t : Text}
    (h : Decodes (.unit u :: rest) t) (hu : ¬ IsFirstHalf u) : ∃ s, Decodes rest s := by
  cases h with
  | unit _ htail => exact ⟨_, htail⟩
  | pair hfirst _ _ => exact absurd hfirst hu

/-- Behind the first half of a pair, the second half belongs to it. -/
theorem Decodes.tail_of_pair {u v : Nat} {rest : List Piece} {t : Text}
    (h : Decodes (.unit u :: .unit v :: rest) t) (hu : IsFirstHalf u) : ∃ s, Decodes rest s := by
  cases h with
  | unit hnot _ => exact absurd hu hnot.1
  | pair _ _ htail => exact ⟨_, htail⟩

/-- What spells a text may be taken off the front. -/
theorem Decodes.drop {front rest : List Piece} {s t : Text} (hfront : Decodes front s)
    (h : Decodes (front ++ rest) t) : ∃ u, Decodes rest u := by
  induction hfront generalizing t with
  | nil => exact ⟨t, h⟩
  | char _ ih =>
    cases h with
    | char htail => exact ih htail
  | unit hu _ ih =>
    obtain ⟨s, hs⟩ := h.tail_of_unit hu.1
    exact ih hs
  | pair hu _ _ ih =>
    obtain ⟨s, hs⟩ := h.tail_of_pair hu
    exact ih hs

/-- A half that stands alone stands alone behind other pieces, if these do not pair with what is
before it. -/
theorem HasLone.append {pieces : List Piece} (h : HasLone pieces) (front : List Piece)
    (hfront : ∀ {before : List Piece} {t : Text}, Decodes before t →
      ∃ s, Decodes (front ++ before) s) : HasLone (front ++ pieces) := by
  obtain ⟨before, u, after, t, rfl, hbefore, hlone⟩ := h
  obtain ⟨s, hs⟩ := hfront hbefore
  exact ⟨front ++ before, u, after, s, (List.append_assoc _ _ _).symm, hs, hlone⟩

/-- Pieces decode to a text or have a half that stands alone. -/
theorem decodes_or_hasLone (pieces : List Piece) : (∃ t, Decodes pieces t) ∨ HasLone pieces := by
  -- A half that stands alone at the start needs nothing before it.
  have hhere {u : Nat} {after : List Piece} (hlone : IsSecondHalf u ∨
      IsFirstHalf u ∧ ∀ v rest, after = .unit v :: rest → ¬ IsSecondHalf v) :
      HasLone (.unit u :: after) := ⟨[], u, after, [], rfl, .nil, hlone⟩
  fun_induction join pieces with
  | case1 => exact .inl ⟨[], .nil⟩
  | case2 c rest ih =>
    refine ih.imp ?_ ?_
    · rintro ⟨t, ht⟩
      exact ⟨_, ht.char⟩
    · intro hlone
      exact hlone.append [.char c] fun h => ⟨_, h.char⟩
  | case3 u hu => exact .inr (hhere (.inr ⟨isHighUnit_iff.1 hu, nofun⟩))
  | case4 u hu c rest => exact .inr (hhere (.inr ⟨isHighUnit_iff.1 hu, nofun⟩))
  | case5 u hu v rest hv ih =>
    have hfirst := isHighUnit_iff.1 hu
    have hsecond := isLowUnit_iff.1 hv
    refine ih.imp ?_ ?_
    · rintro ⟨t, ht⟩
      exact ⟨_, ht.pair hfirst hsecond⟩
    · intro hlone
      exact hlone.append [.unit u, .unit v] fun h => ⟨_, h.pair hfirst hsecond⟩
  | case6 u hu v rest hv =>
    refine .inr (hhere (.inr ⟨isHighUnit_iff.1 hu, ?_⟩))
    rintro _ _ ⟨⟩
    exact mt isLowUnit_iff.2 hv
  | case7 u rest hhigh hlow => exact .inr (hhere (.inl (isLowUnit_iff.1 hlow)))
  | case8 u rest hhigh hlow ih =>
    have hu : ¬ IsFirstHalf u ∧ ¬ IsSecondHalf u :=
      ⟨mt isHighUnit_iff.2 hhigh, mt isLowUnit_iff.2 hlow⟩
    refine ih.imp ?_ ?_
    · rintro ⟨t, ht⟩
      exact ⟨_, ht.unit hu⟩
    · intro hlone
      exact hlone.append [.unit u] fun h => ⟨_, h.unit hu⟩

/-- **A string spells a text or has half of a pair alone**, and never both. -/
theorem exists_decodes_iff {pieces : List Piece} :
    (∃ t, Decodes pieces t) ↔ ¬ HasLone pieces := by
  constructor
  · rintro ⟨t, ht⟩ ⟨before, u, after, s, rfl, hbefore, hlone⟩
    obtain ⟨rest, hrest⟩ := hbefore.drop ht
    cases hrest with
    | unit hu _ => exact hlone.elim hu.2 fun hfirst => hu.1 hfirst.1
    | @pair _ v _ _ hu hv _ =>
      rcases hlone with hsecond | ⟨-, hnone⟩
      · obtain ⟨hlow, -⟩ := hsecond
        obtain ⟨-, hhigh⟩ := hu
        omega
      · exact hnone v _ rfl hv
  · exact (decodes_or_hasLone pieces).resolve_right

/-- The two exclude each other, so a half that stands alone is the only thing that keeps pieces
from spelling a text. -/
theorem spellsText_iff_not_hasLone {pieces : List Piece} :
    spellsText pieces = true ↔ ¬ HasLone pieces := by
  rw [← exists_decodes_iff, spellsText, Option.isSome_iff_exists]
  exact exists_congr fun t => textOf?_eq_some_iff

/-! ## Members by their keys -/

/-- A value is the one of the last member with a key. -/
def IsLastValue (key : Text) (members : List Member) (v : Value) : Prop :=
  ∃ before k after, members = before ++ (k, v) :: after ∧ Decodes k key ∧
    ∀ other ∈ after, ¬ Decodes other.1 key

/-- The member that is looked up is the last with its key. -/
theorem lastMember?_eq_some_iff {key : Text} {members : List Member} {v : Value} :
    lastMember? key members = some v ↔ IsLastValue key members v := by
  rw [lastMember?, Option.map_eq_some_iff]
  constructor
  · rintro ⟨⟨k, v⟩, hfound, rfl⟩
    obtain ⟨hkey, after, before, hsplit, hafter⟩ := List.find?_eq_some_iff_append.1 hfound
    -- The search goes through the members from the end.
    have hmembers := congrArg List.reverse hsplit
    rw [List.reverse_reverse, List.reverse_append, List.reverse_cons, List.append_assoc,
      List.singleton_append] at hmembers
    refine ⟨before.reverse, k, after.reverse, hmembers, ?_, ?_⟩
    · simpa [textOf?_eq_some_iff] using hkey
    · intro other hother
      simpa [textOf?_eq_some_iff] using hafter other (List.mem_reverse.1 hother)
  · rintro ⟨before, k, after, rfl, hkey, hafter⟩
    refine ⟨(k, v), List.find?_eq_some_iff_append.2 ⟨?_, after.reverse, before.reverse, ?_, ?_⟩,
      rfl⟩
    · simpa [textOf?_eq_some_iff] using hkey
    · rw [List.reverse_append, List.reverse_cons, List.append_assoc, List.singleton_append]
    · intro other hother
      simpa [textOf?_eq_some_iff] using hafter other (List.mem_reverse.1 hother)

theorem lastMember?_eq_none_iff {key : Text} {members : List Member} :
    lastMember? key members = none ↔ ∀ member ∈ members, ¬ Decodes member.1 key := by
  rw [lastMember?, Option.map_eq_none_iff, List.find?_eq_none]
  simp [textOf?_eq_some_iff]

end SymbolLog.Json
