/-
What a line yields, and that it does not depend on the packing.

A line is blank, or it is looked into as an envelope or as it stands, and whatever symbol is
found in it is canonical. That a raw line and an envelope with the same text yield the same
takes an argument, because they are not prepared alike.

The text of a raw line is the line without the blanks around it; the text of an envelope is
its message as it was decoded, with all its blanks and with line feeds that no raw line can
have. What a text yields depends on two things, whether the id mark occurs in it and which
symbol is found in it, and neither changes when the text is trimmed. So the packing can be
told from a finding and nothing else of it depends on the packing.

A blank text is the exception. A raw line of blanks is blank and is never looked into, while
an envelope with a blank message is no blank line. It is a line without the mark.
-/
import SymbolLog.Finding
import SymbolLog.Proofs.Entry
import SymbolLog.Proofs.Symbol.Padding

set_option autoImplicit false

namespace SymbolLog

/-- The mark begins and ends with no blank, so trimming neither takes it away nor brings it about.
-/
theorem contains_trim_idMark (t : Text) : t.trim.contains idMark = t.contains idMark := by
  rw [Bool.eq_iff_iff, Text.contains_iff, Text.contains_iff]
  exact Text.infix_trim_iff (List.cons_ne_nil _ _) isTrimmed_idMark t

/-- The mark is looked for first, and no symbol is lost to that. -/
theorem contains_idMark_of_ofText? {t : Text} (h : (Symbol.ofText? t).isSome = true) :
    t.contains idMark = true := by
  obtain ⟨s, hs⟩ := Option.isSome_iff_exists.1 h
  exact Text.contains_iff.2 (Symbol.infix_idMark_of_ofText? hs)

namespace Finding

/-! ## What is found in a line -/

/-- Only a line is blank, never an entry. -/
theorem ofEntry_ne_blank (entry : Entry) : ofEntry entry ≠ .blank := by
  unfold ofEntry
  split
  · split
    · nofun
    · nofun
  · nofun

theorem ofLine_of_blank {line : Text} (h : line.AllBlank) : ofLine line = .blank := by
  unfold ofLine
  rw [Text.trim_eq_nil_iff.2 h]
  rfl

/-- A line that is not blank yields what its entry yields, without the blanks around it. -/
theorem ofLine_of_not_blank {line : Text} (h : ¬ line.AllBlank) :
    ofLine line = ofEntry (Entry.ofLine line.trim) := by
  have hne : ¬ line.trim.isEmpty = true := by
    rw [List.isEmpty_iff, Text.trim_eq_nil_iff]
    exact h
  exact if_neg hne

theorem ofLine_of_envelope {line message : Text} (h : Entry.ofLine line.trim = .envelope message) :
    ofLine line = ofEntry (.envelope message) := by
  have hline : ¬ line.AllBlank := by
    intro hblank
    rw [Text.trim_eq_nil_iff.2 hblank] at h
    cases h
  rw [ofLine_of_not_blank hline, h]

theorem ofLine_of_raw {line : Text} (hline : ¬ line.AllBlank)
    (h : ∀ message, Entry.ofLine line.trim ≠ .envelope message) :
    ofLine line = ofEntry (.raw line.trim) := by
  rw [ofLine_of_not_blank hline, Entry.ofLine_eq_raw h]

theorem symbol?_ofEntry {p : Text} {entry : Entry} {s : Symbol} (hs : s.IsCanonical)
    (h : s.Announces p entry.text) : (ofEntry entry).symbol? = some s := by
  rw [ofEntry, if_pos (Text.contains_iff.2 h.infix_idMark), Symbol.ofText?_of_announces hs h]
  rfl

/-- Whatever a line yields is canonical. -/
theorem isCanonical_of_ofLine {line : Text} {s : Symbol} (h : (ofLine line).symbol? = some s) :
    s.IsCanonical := by
  rw [ofLine] at h
  split at h
  · cases h
  · rw [ofEntry] at h
    split at h
    · split at h
      next hfound =>
        cases h
        exact Symbol.isCanonical_of_ofText? hfound
      · cases h
    · cases h

/-! ## The two packings -/

/-- The same finding in a line that is packed like this. -/
def repack (packing : Packing) : Finding → Finding
  | .blank => .blank
  | .unmarked _ => .unmarked packing
  | .unmatched _ => .unmatched packing
  | .symbol _ s => .symbol packing s

/-- Entries whose texts differ in the blanks around them yield the same. -/
theorem ofEntry_eq_repack {entry other : Entry} (h : other.text.trim = entry.text.trim) :
    ofEntry entry = (ofEntry other).repack entry.packing := by
  have hmark : other.text.contains idMark = entry.text.contains idMark := by
    rw [← contains_trim_idMark, h, contains_trim_idMark]
  have hfound : Symbol.ofText? other.text = Symbol.ofText? entry.text := by
    rw [← Symbol.ofText?_trim, h, Symbol.ofText?_trim]
  unfold ofEntry
  rw [hmark, hfound]
  -- The mark is looked for and then the pattern, and for both the blanks around the text make no
  -- difference.
  by_cases hmarked : entry.text.contains idMark = true
  · rw [if_pos hmarked, if_pos hmarked]
    rcases Symbol.ofText? entry.text with _ | s
    · rfl
    · rfl
  · rw [if_neg hmarked, if_neg hmarked]
    rfl

/-- **Raw lines and envelopes agree.** A text that is not blank and is no envelope itself
yields as a line what it yields as the message of an envelope, the packing apart; a blank
text is a blank line, and as a message it is a text without the mark. Which lines are
envelopes is said in `Entry.ofLine_eq_envelope_iff`. Trimming, which is done to raw lines
alone, changes neither whether the mark occurs in a text nor what is found in it, and where
something is found the mark occurs. -/
theorem packings_agree :
    (∀ text line : Text, ¬ text.AllBlank →
      (∀ message, Entry.ofLine text.trim ≠ .envelope message) →
      Entry.ofLine line.trim = .envelope text →
        ofLine text ≠ .blank ∧ ofLine line = (ofLine text).repack .envelope ∧
          ofLine text = (ofLine line).repack .raw) ∧
      (∀ text line : Text, text.AllBlank → Entry.ofLine line.trim = .envelope text →
        ofLine text = .blank ∧ ofLine line = .unmarked .envelope) ∧
      ∀ text : Text,
        text.trim.contains idMark = text.contains idMark ∧
          Symbol.ofText? text.trim = Symbol.ofText? text ∧
          ((Symbol.ofText? text).isSome = true → text.contains idMark = true) := by
  refine ⟨?_, ?_, ?_⟩
  · intro text line htext hraw hline
    have htrim : text.trim.trim = text.trim := Text.trim_of_isTrimmed (Text.isTrimmed_trim text)
    rw [ofLine_of_raw htext hraw, ofLine_of_envelope hline]
    exact ⟨ofEntry_ne_blank _, ofEntry_eq_repack htrim, ofEntry_eq_repack htrim.symm⟩
  · intro text line htext hline
    refine ⟨ofLine_of_blank htext, ?_⟩
    have hmark : ¬ text.contains idMark = true := by
      rw [← contains_trim_idMark, Text.trim_eq_nil_iff.2 htext]
      decide
    rw [ofLine_of_envelope hline]
    exact if_neg hmark
  · intro text
    exact ⟨contains_trim_idMark text, Symbol.ofText?_trim text, contains_idMark_of_ofText?⟩

/-- A message with line feeds and carriage returns, within its fields and around them. -/
def paddedMessage : Text := "\nSymbol ID:\n07Name:\u0085a Name: Desc:\r\n\nc\rd\n\u3000".toList

/-- An envelope whose message is that text, spelled with escapes and blanks around it. -/
def paddedEnvelope : Text :=
  "\t\x7b\"message\":\"\\nSymbol ID:\\n07Name:\\u0085a Name: ".toList
    ++ "Desc:\\r\\n\\nc\\rd\\n\\u3000\"\x7d".toList

/-- A text with blanks and line feeds in odd places yields the same in either packing. -/
theorem packings_agree_paddedMessage :
    ofLine paddedEnvelope = (ofLine paddedMessage).repack .envelope ∧
      ofLine " \n".toList = .blank ∧
      ofLine "\x7b\"message\":\" \\n\"\x7d".toList = .unmarked .envelope := by
  have hraw : Entry.ofLine paddedMessage.trim = .raw paddedMessage.trim :=
    Entry.ofLine_eq_raw_of_first (Text.isTrimmed_trim _) (by decide)
  have hline : Entry.ofLine paddedEnvelope.trim = .envelope paddedMessage :=
    Entry.ofLine_trim_of_envelope (by decide +kernel)
  have hblank : Entry.ofLine (Text.trim "\x7b\"message\":\" \\n\"\x7d".toList)
      = .envelope " \n".toList := by decide +kernel
  have hnot : ¬ Text.AllBlank paddedMessage := by
    intro hall
    have hmark := hall 'S' (by decide)
    revert hmark
    decide
  refine ⟨(packings_agree.1 _ _ hnot ?_ hline).2.1,
    packings_agree.2.1 _ _ (List.all_eq_true.1 rfl) hblank⟩
  intro message
  rw [hraw]
  nofun

end Finding

end SymbolLog
