/-
Where a mark stands in a text.

Breaking a text on a mark finds its first occurrence, the one that no other starts before
(`breakOn?_eq_some_iff`). When texts are put together, an
occurrence may also lie across the seam, and whether one can is a matter of the mark:
the text behind the seam would have to begin with a character of the mark that is not
the first. The marks of this library are chosen well in that regard. Their first
character does not come again in them, so no mark begins within another, and none of
the blanks that may stand around a name is a character of the mark behind it. With
that no occurrence is found too early (`breakOn?_first`).
-/
import SymbolLog.Text.Basic

set_option autoImplicit false

namespace SymbolLog.Text

/-- A mark: its first character does not come again. -/
def IsMark (mark : Text) : Prop := ∃ m rest, mark = m :: rest ∧ m ∉ rest

variable {mark t u v : Text}

/-! ## The first place at which something is found -/

/-- What is found at the first place of a text at which anything is found. -/
def findFrom? {β : Type} (find? : Text → Option β) : Text → Option β
  | [] => find? []
  | c :: t => (find? (c :: t)).or (findFrom? find? t)

section
variable {β : Type} {find? : Text → Option β}

/-- Nothing is found if and only if there is nothing at any place, the end included. -/
theorem findFrom?_eq_none_iff :
    findFrom? find? t = none ↔ ∀ before rest, t = before ++ rest → find? rest = none := by
  induction t with
  | nil =>
    constructor
    · intro h before rest ht
      obtain ⟨-, rfl⟩ := List.append_eq_nil_iff.1 ht.symm
      exact h
    · intro h
      exact h [] [] rfl
  | cons c t ih =>
    rw [findFrom?, Option.or_eq_none_iff, ih]
    constructor
    · rintro ⟨hhere, hlater⟩ before rest ht
      cases before with
      | nil => rwa [← List.nil_append rest, ← ht]
      | cons d before =>
        simp only [List.cons_append, List.cons.injEq] at ht
        exact hlater before rest ht.2
    · intro h
      refine ⟨h [] _ rfl, ?_⟩
      intro before rest ht
      exact h (c :: before) rest (by rw [ht, List.cons_append])

/-- What is found is found at a place, and at none before it. -/
theorem findFrom?_eq_some_iff {b : β} :
    findFrom? find? t = some b ↔
      ∃ before rest, t = before ++ rest ∧ find? rest = some b ∧
        ∀ before' rest', t = before' ++ rest' → (find? rest').isSome = true →
          before.length ≤ before'.length := by
  induction t with
  | nil =>
    constructor
    · intro h
      exact ⟨[], [], rfl, h, fun _ _ _ _ => Nat.zero_le _⟩
    · rintro ⟨before, rest, ht, h, -⟩
      obtain ⟨-, rfl⟩ := List.append_eq_nil_iff.1 ht.symm
      exact h
  | cons c t ih =>
    rw [findFrom?]
    cases hhere : find? (c :: t) with
    | some a =>
      rw [Option.some_or]
      constructor
      · intro h
        exact ⟨[], c :: t, rfl, hhere.trans h, fun _ _ _ _ => Nat.zero_le _⟩
      · rintro ⟨before, rest, ht, hrest, hfirst⟩
        have hle := hfirst [] (c :: t) rfl (by rw [hhere]; rfl)
        obtain rfl : before = [] := List.eq_nil_of_length_eq_zero (by simpa using hle)
        rw [List.nil_append] at ht
        rw [← hhere, ht, hrest]
    | none =>
      rw [Option.none_or, ih]
      constructor
      · rintro ⟨before, rest, rfl, hrest, hfirst⟩
        refine ⟨c :: before, rest, rfl, hrest, ?_⟩
        intro before' rest' ht hsome
        cases before' with
        | nil =>
          rw [List.nil_append] at ht
          rw [← ht, hhere] at hsome
          cases hsome
        | cons d before' =>
          simp only [List.cons_append, List.cons.injEq] at ht
          have hle := hfirst before' rest' ht.2 hsome
          simp only [List.length_cons]
          omega
      · rintro ⟨before, rest, ht, hrest, hfirst⟩
        -- What is found is not at this place, so the text in front of it is not empty.
        cases before with
        | nil =>
          rw [List.nil_append] at ht
          rw [← ht, hhere] at hrest
          cases hrest
        | cons d before =>
          simp only [List.cons_append, List.cons.injEq] at ht
          refine ⟨before, rest, ht.2, hrest, ?_⟩
          intro before' rest' ht' hsome
          have hle := hfirst (c :: before') rest' (by rw [ht', List.cons_append]) hsome
          simp only [List.length_cons] at hle
          omega

/-- Whatever is made of what is found may as well be made of it where it is found. -/
theorem map_findFrom? {γ : Type} (g : β → γ) :
    (findFrom? find? t).map g = findFrom? (fun t => (find? t).map g) t := by
  induction t with
  | nil => rfl
  | cons c t ih =>
    rw [findFrom?, findFrom?, ← ih]
    cases find? (c :: t) with
    | some b => rfl
    | none => rfl

end

/-! ## At the start -/

theorem isPrefixOf?_append (mark rest : Text) : mark.isPrefixOf? (mark ++ rest) = some rest := by
  induction mark with
  | nil => rfl
  | cons m mark ih =>
    show (if m == m then mark.isPrefixOf? (mark ++ rest) else none) = some rest
    rw [if_pos (beq_self_eq_true m)]
    exact ih

theorem isPrefixOf?_eq_none_iff : mark.isPrefixOf? t = none ↔ ¬ mark <+: t := by
  constructor
  · rintro h ⟨rest, rfl⟩
    rw [isPrefixOf?_append] at h
    cases h
  · intro h
    cases hstart : mark.isPrefixOf? t with
    | none => rfl
    | some rest => exact absurd ⟨rest, (eq_append_of_isPrefixOf? hstart).symm⟩ h

/-- Behind the start of a mark that is none, only a character of its rest continues it. -/
theorem not_prefix_append (hu : u ≠ []) (h : ¬ mark <+: u)
    (hv : ∀ x, v.head? = some x → x ∉ mark.tail) : ¬ mark <+: u ++ v := by
  rintro ⟨rest, hrest⟩
  obtain ⟨extra, hover, -⟩ | ⟨extra, hover, hrest'⟩ := List.append_eq_append_iff.1 hrest
  · exact h ⟨extra, hover.symm⟩
  · cases extra with
    | nil =>
      rw [List.append_nil] at hover
      exact h ⟨[], by rw [hover, List.append_nil]⟩
    | cons x extra =>
      -- The mark lies across the seam.
      obtain ⟨c, u, rfl⟩ := List.exists_cons_of_ne_nil hu
      refine hv x (by rw [hrest']; rfl) ?_
      rw [hover, List.cons_append, List.tail_cons]
      exact List.mem_append_right _ List.mem_cons_self

/-! ## Anywhere -/

theorem breakOn?_cons_skip {c : Char} (h : ¬ mark <+: c :: t) :
    breakOn? mark (c :: t) = (breakOn? mark t).map fun (before, after) => (c :: before, after) := by
  rw [breakOn?.eq_def, isPrefixOf?_eq_none_iff.2 h]

theorem breakOn?_of_prefix {rest : Text} : breakOn? mark (mark ++ rest) = some ([], rest) := by
  rw [breakOn?.eq_def, isPrefixOf?_append]

theorem breakOn?_eq_none_iff : breakOn? mark t = none ↔ ¬ mark <:+: t := by
  induction t with
  | nil =>
    rw [breakOn?.eq_def, List.infix_nil]
    cases hstart : mark.isPrefixOf? [] with
    | none =>
      rw [isPrefixOf?_eq_none_iff, List.prefix_nil] at hstart
      exact ⟨fun _ => hstart, fun _ => rfl⟩
    | some rest =>
      have hnil := eq_append_of_isPrefixOf? hstart
      have hmark : mark = [] := (List.append_eq_nil_iff.1 hnil.symm).1
      refine ⟨fun h => ?_, fun h => absurd hmark h⟩
      cases h
  | cons c t ih =>
    rw [List.infix_cons_iff]
    -- Either the mark stands here, or the search goes on with the rest.
    by_cases hstart : mark <+: c :: t
    · obtain ⟨rest, hrest⟩ := hstart
      rw [← hrest, breakOn?_of_prefix]
      refine ⟨fun h => ?_, fun h => absurd (.inl ⟨rest, rfl⟩) h⟩
      cases h
    · rw [breakOn?_cons_skip hstart, Option.map_eq_none_iff, ih]
      exact ⟨fun h => fun hor => hor.elim hstart h, fun h hoccurs => h (.inr hoccurs)⟩

theorem contains_iff : contains t mark = true ↔ mark <:+: t := by
  rw [contains]
  cases hbreak : breakOn? mark t with
  | none =>
    refine ⟨fun h => ?_, fun h => absurd h (breakOn?_eq_none_iff.1 hbreak)⟩
    cases h
  | some parts =>
    obtain ⟨before, after⟩ := parts
    exact ⟨fun _ => ⟨before, after, (eq_append_of_breakOn? hbreak).symm⟩, fun _ => rfl⟩

/-- In front of the occurrence that is found there is no other one. -/
theorem not_infix_before {before after : Text} (hmark : mark ≠ [])
    (h : breakOn? mark t = some (before, after)) : ¬ mark <:+: before := by
  induction t generalizing before with
  | nil =>
    rw [(List.append_eq_nil_iff.1 (List.append_eq_nil_iff.1 (eq_append_of_breakOn? h).symm).1).1,
      List.infix_nil]
    exact hmark
  | cons c t ih =>
    by_cases hstart : mark <+: c :: t
    · obtain ⟨rest, hrest⟩ := hstart
      rw [← hrest, breakOn?_of_prefix] at h
      cases h
      rw [List.infix_nil]
      exact hmark
    · rw [breakOn?_cons_skip hstart] at h
      obtain ⟨⟨before', after'⟩, hbreak, heq⟩ := Option.map_eq_some_iff.1 h
      cases heq
      rw [List.infix_cons_iff]
      rintro (⟨rest, hrest⟩ | hoccurs)
      · -- An occurrence at the start of `before` is one at the start of the whole.
        refine hstart ⟨rest ++ mark ++ after, ?_⟩
        rw [eq_append_of_breakOn? hbreak, ← List.cons_append, ← List.cons_append, ← hrest]
        simp only [List.append_assoc]
      · exact ih hbreak hoccurs

/-- Breaking a text and looking for the first place that begins with the mark come to the same. -/
theorem map_snd_breakOn? : (breakOn? mark t).map Prod.snd = findFrom? mark.isPrefixOf? t := by
  induction t with
  | nil =>
    rw [breakOn?.eq_def, findFrom?]
    cases mark.isPrefixOf? [] with
    | none => rfl
    | some rest => rfl
  | cons c t ih =>
    by_cases hstart : mark <+: c :: t
    · obtain ⟨rest, hrest⟩ := hstart
      rw [← hrest, breakOn?_of_prefix, hrest, findFrom?, ← hrest, isPrefixOf?_append]
      rfl
    · rw [breakOn?_cons_skip hstart, findFrom?, isPrefixOf?_eq_none_iff.2 hstart, Option.none_or,
        ← ih, Option.map_map]
      rfl

/-- No occurrence starts before the one that is found. -/
theorem length_le_of_breakOn? {before after u v : Text} (h : breakOn? mark t = some (before, after))
    (ht : t = u ++ mark ++ v) : before.length ≤ u.length := by
  have hfound : (breakOn? mark t).map Prod.snd = findFrom? mark.isPrefixOf? t := map_snd_breakOn?
  rw [h] at hfound
  obtain ⟨b, rest, hsplit, hrest, hfirst⟩ := findFrom?_eq_some_iff.1 hfound.symm
  -- The place at which the mark is found is the one in front of which the text is broken.
  have hb : b ++ (mark ++ after) = before ++ (mark ++ after) := by
    calc b ++ (mark ++ after) = t := by rw [hsplit, eq_append_of_isPrefixOf? hrest]
      _ = before ++ (mark ++ after) := by rw [eq_append_of_breakOn? h, List.append_assoc]
  obtain rfl : b = before := List.append_cancel_right hb
  apply hfirst u (mark ++ v)
  · rw [ht, List.append_assoc]
  · rw [isPrefixOf?_append]
    rfl

/-- Breaking a text finds the occurrence that no other one starts before. -/
theorem breakOn?_eq_some_iff {before after : Text} :
    breakOn? mark t = some (before, after) ↔
      t = before ++ mark ++ after ∧ ∀ u v, t = u ++ mark ++ v → before.length ≤ u.length := by
  constructor
  · intro h
    exact ⟨eq_append_of_breakOn? h, fun _ _ => length_le_of_breakOn? h⟩
  · rintro ⟨ht, hfirst⟩
    cases hbreak : breakOn? mark t with
    | none => exact absurd ⟨before, after, ht.symm⟩ (breakOn?_eq_none_iff.1 hbreak)
    | some parts =>
      -- Two first occurrences are at the same place.
      obtain ⟨b, a⟩ := parts
      have hb := eq_append_of_breakOn? hbreak
      have hle := length_le_of_breakOn? hbreak ht
      have hge := hfirst b a hb
      rw [ht, List.append_assoc, List.append_assoc] at hb
      obtain ⟨rfl, hrest⟩ := List.append_inj hb (by omega)
      obtain ⟨-, rfl⟩ := List.append_inj hrest rfl
      rfl

/-! ## Across a seam -/

/-- No occurrence begins in front with a character that the mark does not have. -/
theorem breakOn?_append_of_not_mem (hmark : mark ≠ []) {w : Text} (hw : ∀ c ∈ w, c ∉ mark)
    (t : Text) :
    breakOn? mark (w ++ t) = (breakOn? mark t).map fun (before, after) => (w ++ before, after) := by
  induction w with
  | nil => simp
  | cons c w ih =>
    have hstart : ¬ mark <+: c :: (w ++ t) := by
      rintro ⟨rest, hrest⟩
      obtain ⟨m, ms, rfl⟩ := List.exists_cons_of_ne_nil hmark
      obtain ⟨rfl, -⟩ := List.cons.inj hrest
      exact hw m List.mem_cons_self List.mem_cons_self
    have hrest := ih fun d hd => hw d (List.mem_cons_of_mem c hd)
    rw [List.cons_append, breakOn?_cons_skip hstart, hrest, Option.map_map]
    rfl

/-- Where no occurrence lies across the seam, the first one behind it is the first. -/
theorem breakOn?_append (h : ¬ mark <:+: u) (hv : ∀ x, v.head? = some x → x ∉ mark.tail) :
    breakOn? mark (u ++ v) = (breakOn? mark v).map fun (before, after) => (u ++ before, after) := by
  induction u with
  | nil =>
    rw [List.nil_append]
    cases breakOn? mark v with
    | none => rfl
    | some parts => rfl
  | cons c u ih =>
    rw [List.infix_cons_iff, not_or] at h
    have hstart : ¬ mark <+: c :: (u ++ v) :=
      not_prefix_append (List.cons_ne_nil c u) h.1 hv
    rw [List.cons_append, breakOn?_cons_skip hstart, ih h.2, Option.map_map]
    rfl

/-- Putting texts together brings no mark about, unless it could lie across the seam. -/
theorem not_infix_append (hu : ¬ mark <:+: u) (hv : ¬ mark <:+: v)
    (hseam : ∀ x, v.head? = some x → x ∉ mark.tail) : ¬ mark <:+: u ++ v := by
  rw [← breakOn?_eq_none_iff] at hv ⊢
  rw [breakOn?_append hu hseam, hv]
  rfl

/-- A text is broken where its first mark was put. -/
theorem breakOn?_first (hmark : IsMark mark) {p : Text} (h : ¬ mark <:+: p) (rest : Text) :
    breakOn? mark (p ++ (mark ++ rest)) = some (p, rest) := by
  have hseam : ∀ x, (mark ++ rest).head? = some x → x ∉ mark.tail := by
    obtain ⟨m, ms, rfl, hm⟩ := hmark
    intro x hx
    obtain rfl : m = x := Option.some.inj hx
    exact hm
  rw [breakOn?_append h hseam, breakOn?_of_prefix]
  show some (p ++ [], rest) = _
  rw [List.append_nil]

/-- Characters that are none of its own do not bring a mark about. -/
theorem not_infix_of_forall_not_mem (hmark : mark ≠ []) (h : ∀ c ∈ u, c ∉ mark) :
    ¬ mark <:+: u := by
  intro hoccurs
  obtain ⟨m, rest, rfl⟩ := List.exists_cons_of_ne_nil hmark
  exact h m (hoccurs.subset List.mem_cons_self) List.mem_cons_self

theorem not_infix_padded {w w' : Text} (hmark : mark ≠ []) (hw : ∀ c ∈ w, c ∉ mark)
    (h : ¬ mark <:+: u) (hw' : ∀ c ∈ w', c ∉ mark) : ¬ mark <:+: w ++ u ++ w' := by
  have hseam : ∀ x, w'.head? = some x → x ∉ mark.tail := by
    intro x hx htail
    exact hw' x (List.mem_of_mem_head? hx) (List.mem_of_mem_tail htail)
  refine not_infix_append ?_ (not_infix_of_forall_not_mem hmark hw') hseam
  rw [← breakOn?_eq_none_iff] at h ⊢
  rw [breakOn?_append_of_not_mem hmark hw, h]
  rfl

end SymbolLog.Text
