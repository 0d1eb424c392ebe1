/-
How deep a value nests, and which strings and numbers it holds.

The grammar takes the depth along as a bound and the reader counts it down, so neither says how
deep a value is. That is a number of the value alone. A text spells a value within some depth
exactly if it spells the value at all and the value nests no deeper (`spelled_iff`).

The other limits are on strings and numbers, wherever they stand in a value. All of them are
listed first (`Value.atoms`), keys included; then a limit is a condition on the members of a list,
and what is checked on a walk through the value is that condition (`isExact_iff`).
-/
import SymbolLog.Proofs.Json.Decoding
import SymbolLog.Proofs.Json.Grammar

set_option autoImplicit false

namespace SymbolLog.Json

/-! ## Nesting -/

mutual

/-- How many arrays and objects stand inside each other in a value, itself included. -/
def Value.nesting : Value → Nat
  | .null => 0
  | .bool _ => 0
  | .number _ => 0
  | .string _ => 0
  | .array elements => Value.nestingOfElements elements + 1
  | .object members => Value.nestingOfMembers members + 1

def Value.nestingOfElements : List Value → Nat
  | [] => 0
  | v :: rest => max v.nesting (Value.nestingOfElements rest)

def Value.nestingOfMembers : List (List Piece × Value) → Nat
  | [] => 0
  | (_, v) :: rest => max v.nesting (Value.nestingOfMembers rest)

end

/-- How deep a phrase is nested, whichever kind it is of. -/
def Phrase.nesting : Phrase → Nat
  | .value v => v.nesting
  | .elements vs => Value.nestingOfElements vs
  | .members ms => Value.nestingOfMembers ms

/-- A phrase that is spelled within a depth is not nested deeper, by induction on how it is
spelled: only an array and an object take a level. -/
theorem nesting_le_of_spelled {depth : Nat} {phrase : Phrase} {t : Text}
    (h : Spelled depth phrase t) : phrase.nesting ≤ depth := by
  induction h with
  | null => exact Nat.zero_le _
  | true => exact Nat.zero_le _
  | false => exact Nat.zero_le _
  | number _ => exact Nat.zero_le _
  | string _ => exact Nat.zero_le _
  | emptyArray _ => exact Nat.succ_le_succ (Nat.zero_le _)
  | array _ _ ih => exact Nat.succ_le_succ ih
  | emptyObject _ => exact Nat.succ_le_succ (Nat.zero_le _)
  | object _ _ ih => exact Nat.succ_le_succ ih
  | lastElement _ _ ih => exact Nat.max_le.2 ⟨ih, Nat.zero_le _⟩
  | element _ _ _ _ ih ihothers => exact Nat.max_le.2 ⟨ih, ihothers⟩
  | lastMember _ _ _ _ _ ih => exact Nat.max_le.2 ⟨ih, Nat.zero_le _⟩
  | member _ _ _ _ _ _ _ ih ihothers => exact Nat.max_le.2 ⟨ih, ihothers⟩

/-- What a text spells within some depth it spells within any that the value does not exceed. -/
theorem spelled_of_nesting_le {depth limit : Nat} {phrase : Phrase} {t : Text}
    (h : Spelled depth phrase t) (hlimit : phrase.nesting ≤ limit) : Spelled limit phrase t := by
  -- A container needs one level for itself, and there is one, for it is counted.
  have hlevel {n limit : Nat} (h : n + 1 ≤ limit) : ∃ less, limit = less + 1 ∧ n ≤ less :=
    ⟨limit - 1, by omega, by omega⟩
  induction h generalizing limit with
  | null => exact .null
  | true => exact .true
  | false => exact .false
  | number hn => exact .number hn
  | string ht => exact .string ht
  | emptyArray hw =>
    obtain ⟨less, rfl, -⟩ := hlevel hlimit
    exact .emptyArray hw
  | array hw _ ih =>
    obtain ⟨less, rfl, hless⟩ := hlevel hlimit
    exact .array hw (ih hless)
  | emptyObject hw =>
    obtain ⟨less, rfl, -⟩ := hlevel hlimit
    exact .emptyObject hw
  | object hw _ ih =>
    obtain ⟨less, rfl, hless⟩ := hlevel hlimit
    exact .object hw (ih hless)
  | lastElement _ hw ih => exact .lastElement (ih (Nat.max_le.1 hlimit).1) hw
  | element _ hw hw' _ ih ihothers =>
    obtain ⟨hfirst, hothers⟩ := Nat.max_le.1 hlimit
    exact .element (ih hfirst) hw hw' (ihothers hothers)
  | lastMember hkey hw₁ hw₂ _ hw ih =>
    exact .lastMember hkey hw₁ hw₂ (ih (Nat.max_le.1 hlimit).1) hw
  | member hkey hw₁ hw₂ _ hw hw' _ ih ihothers =>
    obtain ⟨hfirst, hothers⟩ := Nat.max_le.1 hlimit
    exact .member hkey hw₁ hw₂ (ih hfirst) hw hw' (ihothers hothers)

/-- A text spells a value, however deep the value nests. -/
def InGrammar (v : Value) (t : Text) : Prop := ∃ depth, Spelled depth (.value v) t

/-- **The depth of the grammar is a bound on the value.** -/
theorem spelled_iff {depth : Nat} {v : Value} {t : Text} :
    Spelled depth (.value v) t ↔ InGrammar v t ∧ v.nesting ≤ depth := by
  constructor
  · intro h
    exact ⟨⟨depth, h⟩, nesting_le_of_spelled h⟩
  · rintro ⟨⟨depth', h⟩, hdepth⟩
    exact spelled_of_nesting_le h hdepth

/-! ## Strings and numbers -/

/-- What a value is made of besides brackets and names. -/
inductive Atom where
  | string (pieces : List Piece)
  | number (n : Number)

mutual

/-- The strings and numbers of a value from left to right, keys included. -/
def Value.atoms : Value → List Atom
  | .null => []
  | .bool _ => []
  | .number n => [.number n]
  | .string pieces => [.string pieces]
  | .array elements => Value.atomsOfElements elements
  | .object members => Value.atomsOfMembers members

def Value.atomsOfElements : List Value → List Atom
  | [] => []
  | v :: rest => v.atoms ++ Value.atomsOfElements rest

/-- The atoms of some members. A key is one, and counts like any string. -/
def Value.atomsOfMembers : List (List Piece × Value) → List Atom
  | [] => []
  | (key, v) :: rest => .string key :: (v.atoms ++ Value.atomsOfMembers rest)

end

theorem mem_atomsOfMembers {key : List Piece} {v : Value} {members : List Member} {a : Atom}
    (hmember : (key, v) ∈ members) (ha : a ∈ v.atoms) : a ∈ Value.atomsOfMembers members := by
  induction members with
  | nil => cases hmember
  | cons first rest ih =>
    rw [Value.atomsOfMembers]
    cases hmember with
    | head => exact List.mem_cons_of_mem _ (List.mem_append_left _ ha)
    | tail _ hrest => exact List.mem_cons_of_mem _ (List.mem_append_right _ (ih hrest))

/-- The limits that strings and numbers have, apart from the grammar. -/
def Atom.WithinLimits : Atom → Prop
  | .string pieces => ¬ HasLone pieces
  | .number n => n.inRange = true

mutual

/-- A value is exact if and only if all its strings and numbers are within their limits. The
recursion is on values, elements and members together, as that of their definition. -/
theorem isExact_iff_atoms : ∀ v : Value, v.isExact = true ↔ ∀ a ∈ v.atoms, a.WithinLimits
  | .null => by simp [Value.isExact, Value.atoms]
  | .bool _ => by simp [Value.isExact, Value.atoms]
  | .number n => by simp [Value.isExact, Value.atoms, Atom.WithinLimits]
  | .string pieces => by
    simp [Value.isExact, Value.atoms, Atom.WithinLimits, spellsText_iff_not_hasLone]
  | .array elements => by
    rw [Value.isExact, Value.atoms]
    exact areExact_iff_atoms elements
  | .object members => by
    rw [Value.isExact, Value.atoms]
    exact membersAreExact_iff_atoms members

theorem areExact_iff_atoms : ∀ values : List Value,
    Value.areExact values = true ↔ ∀ a ∈ Value.atomsOfElements values, a.WithinLimits
  | [] => by simp [Value.areExact, Value.atomsOfElements]
  | v :: rest => by
    rw [Value.areExact, Value.atomsOfElements, Bool.and_eq_true, isExact_iff_atoms v,
      areExact_iff_atoms rest, List.forall_mem_append]

theorem membersAreExact_iff_atoms : ∀ members : List (List Piece × Value),
    Value.membersAreExact members = true ↔
      ∀ a ∈ Value.atomsOfMembers members, a.WithinLimits
  | [] => by simp [Value.membersAreExact, Value.atomsOfMembers]
  | (key, v) :: rest => by
    rw [Value.membersAreExact, Value.atomsOfMembers, Bool.and_eq_true, Bool.and_eq_true,
      spellsText_iff_not_hasLone, isExact_iff_atoms v, membersAreExact_iff_atoms rest,
      List.forall_mem_cons, List.forall_mem_append, and_assoc]
    rfl

end

/-- **A value is exact if no string in it has half of a pair alone and no number in it is out of
range**, keys included. -/
theorem isExact_iff {v : Value} :
    v.isExact = true ↔ (∀ pieces, .string pieces ∈ v.atoms → ¬ HasLone pieces) ∧
      ∀ n, .number n ∈ v.atoms → n.inRange = true := by
  rw [isExact_iff_atoms]
  constructor
  · intro h
    exact ⟨fun pieces hmem => h _ hmem, fun n hmem => h _ hmem⟩
  · rintro ⟨hstrings, hnumbers⟩ (pieces | n) hmem
    · exact hstrings pieces hmem
    · exact hnumbers n hmem

end SymbolLog.Json
