/-
A log that was written is read back.

A log is written line by line. Some lines carry a symbol, in either packing, and the
others are noise; each line is ended in one of three ways, chosen anew for every line,
and what follows the last end may be one more line. Reading such a log finds the
symbols that were carried, all of them, in their order and nothing else.

Line ends need some care. A carriage return before a line feed that ends an empty line
is read as one end of both, so the lines that are read are not always those that were
written. The line that is lost is empty, though, and carries nothing, which is why the
law is about what the lines carry (`symbols_end`).
-/
import SymbolLog.Proofs.Finding
import SymbolLog.Proofs.Log.Survey
import SymbolLog.Proofs.Symbol.Pattern
import Mathlib

set_option autoImplicit false

namespace SymbolLog

/-! ## What a line carries -/

/-- What a line carries: nothing, or a canonical symbol, announced by the line itself or by
the message of an envelope. -/
inductive Carries : Text → Option Symbol → Prop where
  /-- Nothing is found in the line. -/
  | noise {line : Text} (hline : line.OneLine) (h : (Finding.ofLine line).symbol? = none) :
    Carries line none
  /-- The line announces the symbol, and does not begin like an object. -/
  | raw {p line : Text} {s : Symbol} (hline : line.OneLine) (hs : s.IsCanonical)
    (h : s.Announces p line) (hfirst : p.trimStart.head? ≠ some '\x7b') : Carries line (some s)
  /-- The line is an envelope, as `Entry.ofLine_eq_envelope_iff` says of objects, and its
  message announces the symbol. -/
  | envelope {p message line : Text} {s : Symbol} (hline : line.OneLine) (hs : s.IsCanonical)
    (h : s.Announces p message) (hmessage : Entry.ofLine line = .envelope message) :
    Carries line (some s)

theorem Carries.oneLine {line : Text} {carried : Option Symbol} (h : Carries line carried) :
    line.OneLine := by
  cases h with
  | noise hline _ => exact hline
  | raw hline _ _ _ => exact hline
  | envelope hline _ _ _ => exact hline

/-- A line yields what it carries. -/
theorem Carries.symbol?_ofLine {line : Text} {carried : Option Symbol} (h : Carries line carried) :
    (Finding.ofLine line).symbol? = carried := by
  cases h with
  | noise _ h => exact h
  | @raw p line s hline hs h hfirst =>
    have htrim := h.trim hs.description_trimmed
    have hblank : ¬ line.AllBlank := by
      rw [← Text.trim_eq_nil_iff]
      exact htrim.infix_idMark.ne_nil (List.cons_ne_nil _ _)
    -- A raw line must not begin like an object, or it might be read as one.
    have hhead : line.trim.head? ≠ some '\x7b' := by
      obtain ⟨-, w₁, w₂, w₃, w₄, w₅, -, -, -, -, -, ht⟩ := htrim
      rw [ht, List.head?_append]
      cases hp : p.trimStart.head? with
      | none =>
        intro hbrace
        cases hbrace
      | some c =>
        rw [hp] at hfirst
        exact hfirst
    rw [Finding.ofLine_of_not_blank hblank,
      Entry.ofLine_eq_raw_of_first (Text.isTrimmed_trim line) hhead]
    exact Finding.symbol?_ofEntry hs htrim
  | @envelope p message line s hline hs h hmessage =>
    rw [Finding.ofLine_of_envelope (Entry.ofLine_trim_of_envelope hmessage)]
    exact Finding.symbol?_ofEntry hs h

/-! ## Line ends -/

inductive LineEnd where
  | feed
  | returnFeed
  | return
  deriving DecidableEq

def LineEnd.text : LineEnd → Text
  | .feed => ['\n']
  | .returnFeed => ['\r', '\n']
  | .return => ['\r']

namespace Text

/-- An empty line more or less makes no difference to what is found. -/
theorem symbols_feed (rest : Text) : symbols ('\n' :: rest) = symbols rest := by
  rw [symbols, lines_feed]
  rfl

/-- A line end ends a line, and what is found behind it is what is found in the rest. -/
theorem symbols_end (lineEnd : LineEnd) {line : Text} (h : line.OneLine) (rest : Text) :
    symbols (line ++ (lineEnd.text ++ rest))
      = (Finding.ofLine line).symbol?.toList ++ symbols rest := by
  have hends : ∃ others, lines (lineEnd.text ++ rest) = [] :: others ∧
      (others.filterMap fun line => (Finding.ofLine line).symbol?) = symbols rest := by
    cases lineEnd with
    | feed => exact ⟨_, lines_feed rest, rfl⟩
    | returnFeed => exact ⟨_, lines_returnFeed rest, rfl⟩
    | «return» =>
      by_cases hfeed : rest.head? = some '\n'
      · -- The line feed that ends an empty line belongs to the carriage return now.
        cases rest with
        | nil => cases hfeed
        | cons c rest =>
          obtain rfl : c = '\n' := Option.some.inj hfeed
          exact ⟨_, lines_returnFeed rest, (symbols_feed rest).symm⟩
      · exact ⟨_, lines_return hfeed, rfl⟩
  obtain ⟨others, hlines, hothers⟩ := hends
  rw [symbols, lines_append h hlines, List.append_nil, List.filterMap_cons, ← hothers]
  cases (Finding.ofLine line).symbol? with
  | none => rfl
  | some s => rfl

/-- A last line that nothing ends yields its symbol, also if it is empty and no line at all. -/
theorem symbols_oneLine {line : Text} (h : line.OneLine) :
    symbols line = (Finding.ofLine line).symbol?.toList := by
  by_cases hne : line = []
  · rw [hne]
    rfl
  · rw [symbols, lines_oneLine h hne, List.filterMap_cons]
    cases (Finding.ofLine line).symbol? with
    | none => rfl
    | some s => rfl

end Text

/-! ## Whole logs -/

/-- A line of a log that is written: what stands in it, what it carries, how it ends. -/
structure WrittenLine where
  text : Text
  carried : Option Symbol
  lineEnd : LineEnd

/-- The text of a log: some lines with their ends, and a last line without one. Where the
last line is empty, all lines of the log are ended. -/
def writtenLog (lines : List WrittenLine) (last : Text) : Text :=
  (lines.flatMap fun line => line.text ++ line.lineEnd.text) ++ last

/-- **A log yields what its lines carry**, in their order, however they are ended. -/
theorem symbols_writtenLog {lines : List WrittenLine} {last : Text} {lastCarried : Option Symbol}
    (hlines : ∀ line ∈ lines, Carries line.text line.carried) (hlast : Carries last lastCarried) :
    (writtenLog lines last).symbols = lines.filterMap (·.carried) ++ lastCarried.toList := by
  induction lines with
  | nil =>
    show Text.symbols last = _
    rw [Text.symbols_oneLine hlast.oneLine, hlast.symbol?_ofLine]
    rfl
  | cons line lines ih =>
    have hline := hlines line List.mem_cons_self
    -- The first line is put in front of a log that has been read already.
    have hcons : writtenLog (line :: lines) last
        = line.text ++ (line.lineEnd.text ++ writtenLog lines last) := by
      simp only [writtenLog, List.flatMap_cons, List.append_assoc]
    rw [hcons, Text.symbols_end line.lineEnd hline.oneLine, hline.symbol?_ofLine,
      ih fun other hother => hlines other (List.mem_cons_of_mem line hother), List.filterMap_cons]
    cases line.carried with
    | none => rfl
    | some s => rfl

/-- A log that was written is read back by every collection: it does not fail, and exactly
the symbols that its lines carry are added, in their order, to those collected before; as
many are counted, and the catalogue is that of all of them. -/
theorem absorb_writtenLog (c : Collection) {lines : List WrittenLine} {last : Text}
    {lastCarried : Option Symbol} (hlines : ∀ line ∈ lines, Carries line.text line.carried)
    (hlast : Carries last lastCarried) :
    let carried := lines.filterMap (·.carried) ++ lastCarried.toList
    let absorbed := c.absorb (.ofSource (.ofBytes (Utf8.encode (writtenLog lines last))))
    absorbed.2 = none ∧ absorbed.1.symbols = c.symbols ++ carried ∧
      absorbed.1.tally.matched = c.tally.matched + carried.length ∧
      absorbed.1.close.symbols = catalogue (c.symbols ++ carried) := by
  intro carried absorbed
  have hsurvey := Survey.ofReader_encode (writtenLog lines last)
  have hfound : (Survey.mk (Survey.findingsFrom 0 (writtenLog lines last).lines) none).symbols
      = carried := by
    rw [Survey.symbols_findingsFrom]
    exact symbols_writtenLog hlines hlast
  -- The log spells a text, so absorbing it is adding what is found in its lines.
  have habsorbed : absorbed
      = (c.add ⟨Survey.findingsFrom 0 (writtenLog lines last).lines, none⟩, none) := by
    show (c.add (Survey.ofReader _), (Survey.ofReader _).fault.map _) = _
    rw [hsurvey]
    rfl
  have hsymbols : absorbed.1.symbols = c.symbols ++ carried := by
    rw [habsorbed, ← hfound]
    rfl
  refine ⟨?_, hsymbols, ?_, ?_⟩
  · rw [habsorbed]
  · rw [habsorbed, ← hfound]
    exact Collection.matched_add _ _
  · rw [← hsymbols]
    rfl

def bareSymbol : Symbol := ⟨"7".toList, "a".toList, []⟩

/-- A symbol whose name looks like a mark. -/
def markedSymbol : Symbol := ⟨"07".toList, "Name: b".toList, "c, d".toList⟩

theorem isCanonical_bareSymbol : bareSymbol.IsCanonical :=
  ⟨nofun, List.all_eq_true.1 rfl, ⟨by rintro c ⟨⟩; rfl, by rintro c ⟨⟩; rfl⟩, by decide,
    Text.breakOn?_eq_none_iff.1 rfl, ⟨nofun, nofun⟩, nofun⟩

theorem isCanonical_markedSymbol : markedSymbol.IsCanonical :=
  ⟨nofun, List.all_eq_true.1 rfl, ⟨by rintro c ⟨⟩; rfl, by rintro c ⟨⟩; rfl⟩, by decide,
    Text.breakOn?_eq_none_iff.1 rfl, ⟨by rintro c ⟨⟩; rfl, by rintro c ⟨⟩; rfl⟩, by decide⟩

/-- An envelope that carries a symbol whose name begins like a mark. -/
def markedEnvelope : Text :=
  "\x7b\"message\":\"x Symbol ID: 07 Name:\\nName: b Desc: c, d\"\x7d".toList

/-- Noise, a raw line without any blanks, and an envelope that is not ended. -/
theorem absorb_writtenLog_threeLines :
    (Collection.empty.absorb (.ofSource (.ofBytes (Utf8.encode (writtenLog
        [⟨"Symbol ID: none".toList, none, .return⟩,
          ⟨"Symbol ID:7Name:aDesc:".toList, some bareSymbol, .returnFeed⟩]
        markedEnvelope))))).1.symbols
      = [bareSymbol, markedSymbol] := by
  have hnoise : Carries "Symbol ID: none".toList none := .noise ⟨by decide, by decide⟩ (by cbv)
  have hbare : Symbol.Announces [] "Symbol ID:7Name:aDesc:".toList bareSymbol := by
    refine ⟨Text.breakOn?_eq_none_iff.1 rfl, [], [], [], [], [], ?_, ?_, ?_, ?_, ?_, rfl⟩
    all_goals exact List.forall_mem_nil _
  have hmarked : Symbol.Announces "x ".toList
      "x Symbol ID: 07 Name:\nName: b Desc: c, d".toList markedSymbol := by
    refine ⟨Text.breakOn?_eq_none_iff.1 rfl, [' '], [' '], ['\n'], [' '], [' '],
      ?_, ?_, ?_, ?_, ?_, rfl⟩
    all_goals exact List.all_eq_true.1 rfl
  have hraw : Carries "Symbol ID:7Name:aDesc:".toList (some bareSymbol) :=
    .raw ⟨by decide, by decide⟩ isCanonical_bareSymbol hbare (by decide)
  have henvelope : Carries markedEnvelope (some markedSymbol) :=
    .envelope ⟨by decide, by decide⟩ isCanonical_markedSymbol hmarked (by cbv)
  refine (absorb_writtenLog .empty ?_ henvelope).2.1
  intro line hline
  rw [List.mem_cons, List.mem_singleton] at hline
  obtain rfl | rfl := hline
  · exact hnoise
  · exact hraw

end SymbolLog
