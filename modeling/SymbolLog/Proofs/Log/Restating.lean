/-
What was extracted is extracted again.

A symbol that is found is canonical, and a canonical symbol is found in the plainest text that
announces it, with one blank around each field (`Symbol.announcement`). An envelope carries
that text through a log whatever the fields hold, because JSON escapes the characters that a
line cannot have. So the symbols that came of a log can be written as a log again, and what
comes of that are the same symbols in the same order: no id is repeated among them, so nothing
is discarded, and they are sorted already.

Nothing depends on how the envelopes are spelled or how their lines are ended. A log restates
some symbols if its lines are envelopes with their announcements (`Restates`), and the plain
way to write one only shows that there always is such a log.
-/
import SymbolLog.Proofs.Collection.Intakes
import SymbolLog.Proofs.Symbol.Catalogue
import Mathlib

set_option autoImplicit false

namespace SymbolLog

open Json (Spelled Value AllSpace)

/-! ## Announcements -/

namespace Symbol

/-- The plainest text that announces a symbol. -/
def announcement (s : Symbol) : Text :=
  "Symbol ID: ".toList ++ (s.id ++ (" Name: ".toList ++ (s.name
    ++ (" Desc: ".toList ++ s.description))))

theorem announces_announcement (s : Symbol) : s.Announces [] s.announcement := by
  have hmark : ¬ idMark <:+: [] := Text.breakOn?_eq_none_iff.1 rfl
  have hblank : Text.AllBlank [' '] := List.all_eq_true.1 rfl
  refine ⟨hmark, [' '], [' '], [' '], [' '], [' '], hblank, hblank, hblank, hblank, hblank, ?_⟩
  simp only [List.append_assoc]
  rfl

theorem ofText?_announcement {s : Symbol} (hs : s.IsCanonical) :
    ofText? s.announcement = some s :=
  ofText?_of_announces hs s.announces_announcement

end Symbol

/-! ## Envelopes -/

/-- A text as it is written between quotes is the text of a string that spells it. -/
theorem Json.exists_content (t : Text) :
    ∃ pieces, Content pieces (t.flatMap writtenChar) ∧ textOf? pieces = some t := by
  obtain ⟨pieces, hjoin, hscan⟩ := scan_written t []
  obtain ⟨used, hused, ht⟩ := scan_sound hscan
  have hsame : t.flatMap writtenChar = used := List.append_cancel_right ht
  refine ⟨pieces, hsame ▸ hused, ?_⟩
  rw [textOf?, hjoin]

namespace Entry

/-- An envelope with a message and nothing else. -/
def envelopeLine (message : Text) : Text :=
  '\x7b' :: ((Json.quoted messageKey).flatten
    ++ ':' :: ((Json.quoted message).flatten ++ ['\x7d']))

/-- An object with a message is an envelope with that message, whatever is in it. -/
theorem ofLine_envelopeLine (message : Text) :
    ofLine (envelopeLine message) = .envelope message := by
  obtain ⟨key, hkey, hkeyText⟩ := Json.exists_content messageKey
  obtain ⟨pieces, hpieces, htext⟩ := Json.exists_content message
  have hspace : AllSpace [] := nofun
  have hobject : Spelled depthLimit (.value (.object [(key, .string pieces)])) _ :=
    .object hspace (.lastMember hkey hspace hspace (.string hpieces) hspace)
  apply ofLine_eq_envelope_iff.2
  refine ⟨[(key, .string pieces)], ⟨[], _, [], hspace, hspace, hobject, ?_⟩, ?_, ?_⟩
  · simp [envelopeLine, Json.flatten_quoted]
  · simp [Value.isExact, Value.membersAreExact, Json.spellsText, hkeyText, htext]
  · simp [messageOf, Json.lastMember?, hkeyText, Value.text?, htext]

/-- Nothing but printable characters is written around a message or in it. -/
theorem isPrintable_of_mem_envelopeLine {message : Text} {c : Char}
    (h : c ∈ envelopeLine message) : Json.isPrintable c = true := by
  simp only [envelopeLine, List.mem_cons, List.mem_append, List.not_mem_nil, or_false] at h
  rcases h with rfl | hkey | rfl | hmessage | rfl
  · rfl
  · exact Json.isPrintable_of_mem_quoted hkey
  · rfl
  · exact Json.isPrintable_of_mem_quoted hmessage
  · rfl

theorem oneLine_envelopeLine (message : Text) : (envelopeLine message).OneLine := by
  constructor
  · intro h
    exact absurd (isPrintable_of_mem_envelopeLine h) (by decide)
  · intro h
    exact absurd (isPrintable_of_mem_envelopeLine h) (by decide)

end Entry

/-! ## Logs -/

/-- The lines of a log are envelopes with the announcements of some symbols. -/
def Restates (log : Text) (symbols : List Symbol) : Prop :=
  List.Forall₂ (fun line s => Entry.ofLine line.trim = .envelope s.announcement) log.lines symbols

/-- Some symbols as a log. -/
def restatement (symbols : List Symbol) : Text :=
  Text.ended (symbols.map fun s => Entry.envelopeLine s.announcement)

theorem restates_restatement (symbols : List Symbol) : Restates (restatement symbols) symbols := by
  have hlines : (restatement symbols).lines
      = symbols.map fun s => Entry.envelopeLine s.announcement := by
    apply Text.lines_ended
    intro line hline
    obtain ⟨s, -, rfl⟩ := List.mem_map.1 hline
    exact Entry.oneLine_envelopeLine s.announcement
  rw [Restates, hlines, List.forall₂_map_left_iff, List.forall₂_same]
  intro s _
  exact Entry.ofLine_trim_of_envelope (Entry.ofLine_envelopeLine s.announcement)

/-- Lines that announce some symbols, one each, yield these. -/
theorem symbols_of_announcements {lines : List Text} {symbols : List Symbol}
    (hcanonical : ∀ s ∈ symbols, s.IsCanonical)
    (h : List.Forall₂ (fun line s => Entry.ofLine line.trim = .envelope s.announcement)
      lines symbols) :
    lines.filterMap (fun line => (Finding.ofLine line).symbol?) = symbols := by
  induction h with
  | nil => rfl
  | @cons line s lines symbols hline _ ih =>
    obtain ⟨hs, hsymbols⟩ := List.forall_mem_cons.1 hcanonical
    have hfound : (Finding.ofLine line).symbol? = some s := by
      rw [Finding.ofLine_of_envelope hline]
      exact Finding.symbol?_ofEntry hs s.announces_announcement
    rw [List.filterMap_cons, hfound]
    exact congrArg (s :: ·) (ih hsymbols)

namespace Collection

/-- **Results are a fixed point of extraction.** A symbol that is found in any text is
canonical and is found again in its announcement. So for the symbols that come of a log, there
is a log that restates them, and of every log that does, in a new collection and without a
failure, come the same symbols in the same order, none of them discarded. -/
theorem close_restated :
    (∀ (t : Text) (s : Symbol), Symbol.ofText? t = some s →
      s.IsCanonical ∧ Symbol.ofText? s.announcement = some s) ∧
      ∀ r : Reader,
        let found := (empty.absorb r).1.close.symbols
        Restates (restatement found) found ∧
          ∀ log : Text, Restates log found →
            let again := empty.absorb (.ofSource (.ofBytes (Utf8.encode log)))
            again.2 = none ∧ again.1.close.symbols = found ∧
              again.1.close.tally.discarded = 0 := by
  refine ⟨?_, ?_⟩
  · intro t s h
    have hs := Symbol.isCanonical_of_ofText? h
    exact ⟨hs, Symbol.ofText?_announcement hs⟩
  · intro r found
    -- Everything in a catalogue was found in some line.
    have hcanonical : ∀ s ∈ found, s.IsCanonical := by
      intro s hs
      have hseen := (keptFrom_catalogue _).mem s hs
      rw [absorb_eq] at hseen
      exact isCanonical_of_mem_addLines (List.forall_mem_nil _) _ s hseen
    refine ⟨restates_restatement found, ?_⟩
    intro log hlog again
    have hagain : again = (empty.addLines log.lines, none) := absorb_encode empty log
    have hsymbols : again.1.symbols = found := by
      rw [hagain, symbols_addLines, symbols_of_announcements hcanonical hlog]
      rfl
    -- A catalogue is its own catalogue.
    have hclose : again.1.close.symbols = found := by
      show catalogue again.1.symbols = found
      rw [hsymbols]
      exact catalogue_catalogue _
    refine ⟨by rw [hagain], hclose, ?_⟩
    show again.1.symbols.length - again.1.close.symbols.length = 0
    rw [hclose, hsymbols, Nat.sub_self]

/-- A message whose description has a carriage return in it. -/
def returnMessage : Text := "Symbol ID:007 Name:\nName: c\u0085d Desc: e\rf".toList

/-- A symbol with whatever a canonical one may hold: leading zeros, a mark that is no mark there,
blanks and a carriage return within. -/
def returnSymbol : Symbol := ⟨"007".toList, "Name: c\u0085d".toList, "e\rf".toList⟩

/-- Two spellings of an id, one of them announced twice. -/
def spellingsLog : Text :=
  "Symbol ID: 7 Name: a Desc: b\n".toList ++ Entry.envelopeLine returnMessage
    ++ "\nSymbol ID:7Name:gDesc:".toList

/-- A log of such a symbol, of another one, and of their repetitions. -/
theorem close_restated_spellingsLog :
    let found := (empty.absorb (.ofSource (.ofBytes (Utf8.encode spellingsLog)))).1.close.symbols
    Symbol.ofText? returnSymbol.announcement = some returnSymbol ∧
      found = [⟨"7".toList, "g".toList, []⟩, returnSymbol] ∧
      (empty.absorb (.ofSource (.ofBytes (Utf8.encode (restatement found))))).1.close.symbols
        = found := by
  intro found
  have hmessage : Symbol.ofText? returnMessage = some returnSymbol := by decide +kernel
  have hrestates := (close_restated.2 (.ofSource (.ofBytes (Utf8.encode spellingsLog)))).1
  refine ⟨(close_restated.1 _ _ hmessage).2, ?_, ((close_restated.2 _).2 _ hrestates).2.1⟩
  show (empty.absorb (.ofSource (.ofBytes (Utf8.encode spellingsLog)))).1.close.symbols = _
  cbv

end Collection

end SymbolLog
