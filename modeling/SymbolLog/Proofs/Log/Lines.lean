/-
A log that spells a text is read as the lines of that text.

A log without failures is a list of bytes. It is cut at line feeds, and each chunk
is decoded and split at carriage returns on its own. The byte of a line feed is
part of no other character, so cutting the bytes and cutting the text come to the
same (`cutAfter_encode`); the same holds for the carriage return that is dropped
from a chunk. What is left is a statement about texts alone, that cutting and
splitting give the lines of `Text.lines` (`lines_eq_flatMap`). Together they say
what a reader makes of the bytes of a text (`readings_encode`).

Bytes that spell no text have a first chunk that spells none, for chunks that
spell texts can be put together again (`encode_or_malformed`). Nothing that
comes after it has any influence on the fault that is reported.
-/
import SymbolLog.Proofs.Log.Chunks
import SymbolLog.Proofs.Text.Utf8
import SymbolLog.Proofs.Text.Lines

set_option autoImplicit false

namespace SymbolLog

/-! ## Cutting a list -/

section
variable {α : Type} [DecidableEq α]

/-- The parts of a list that end at an element or at the end of the list, without that
element. -/
def cutAfter (x : α) : List α → List (List α)
  | [] => []
  | a :: l => if a = x then [] :: cutAfter x l else consFirst a (cutAfter x l)

/-- What has no separator belongs to the first part of what follows. -/
theorem cutAfter_append {x : α} {a : List α} (hx : x ∉ a) (ha : a ≠ []) (l : List α) :
    cutAfter x (a ++ l) = (a ++ (cutAfter x l).headD []) :: (cutAfter x l).tail := by
  induction a with
  | nil => exact absurd rfl ha
  | cons b a ih =>
    rw [List.mem_cons, not_or] at hx
    rw [List.cons_append, cutAfter, if_neg (Ne.symm hx.1)]
    by_cases hnil : a = []
    · rw [hnil]
      rfl
    · rw [ih hx.2 hnil]
      rfl

theorem cutAfter_append_cons {x : α} {a : List α} (hx : x ∉ a) (l : List α) :
    cutAfter x (a ++ x :: l) = a :: cutAfter x l := by
  have hend : cutAfter x (x :: l) = [] :: cutAfter x l := by rw [cutAfter, if_pos rfl]
  by_cases ha : a = []
  · rw [ha, List.nil_append, hend]
  · rw [cutAfter_append hx ha, hend, List.headD_cons, List.tail_cons, List.append_nil]

theorem cutAfter_of_not_mem {x : α} {a : List α} (hx : x ∉ a) (ha : a ≠ []) :
    cutAfter x a = [a] := by
  have h := cutAfter_append hx ha []
  rw [List.append_nil] at h
  rw [h, cutAfter, List.headD_nil, List.append_nil, List.tail_nil]

/-- Whatever holds of nothing, of a last part, and of a part in front of a list of which it holds,
holds of every list. So a log is gone through part by part and not byte by byte. -/
@[elab_as_elim]
theorem cut_induction (x : α) {motive : List α → Prop} (nil : motive [])
    (last : ∀ a, x ∉ a → a ≠ [] → motive a)
    (part : ∀ a l, x ∉ a → motive l → motive (a ++ x :: l)) (l : List α) : motive l := by
  induction hn : l.length using Nat.strongRecOn generalizing l with
  | _ n ih =>
    by_cases hmem : x ∈ l
    · obtain ⟨a, rest, rfl, ha⟩ := List.eq_append_cons_of_mem hmem
      rw [List.length_append, List.length_cons] at hn
      exact part a rest ha (ih rest.length (by omega) rest rfl)
    · by_cases hnil : l = []
      · rw [hnil]
        exact nil
      · exact last l hmem hnil

/-- One more element in front changes the first part and leaves the others, also across a seam. -/
theorem cutAfter_cons_append {x b : α} {a l : List α} {parts : List (List α)} (ha : a ≠ [])
    (h : cutAfter x (a ++ l) = cutAfter x a ++ parts) :
    cutAfter x (b :: a ++ l) = cutAfter x (b :: a) ++ parts := by
  rw [List.cons_append, cutAfter, cutAfter, h]
  split
  · rw [List.cons_append]
  · -- The element is put in front of a part of what follows, because that is not empty.
    cases a with
    | nil => exact absurd rfl ha
    | cons c a =>
      rw [cutAfter]
      split <;> rfl

/-- Behind an end, the parts are those of both sides. -/
theorem cutAfter_append_of_ended {x : α} {a : List α} (hlast : a = [] ∨ a.getLast? = some x)
    (l : List α) : cutAfter x (a ++ l) = cutAfter x a ++ cutAfter x l := by
  induction a with
  | nil => rfl
  | cons b a ih =>
    have hlast' := hlast.resolve_left (List.cons_ne_nil b a)
    cases a with
    | nil =>
      obtain rfl : b = x := Option.some.inj hlast'
      rw [List.cons_append, List.nil_append, cutAfter, if_pos rfl, cutAfter, if_pos rfl]
      rfl
    | cons c a =>
      rw [List.getLast?_cons_cons] at hlast'
      exact cutAfter_cons_append (List.cons_ne_nil c a) (ih (.inr hlast'))

/-- An end that is put between two sides makes no part of its own, if the first side is
neither empty nor ended. -/
theorem cutAfter_append_cons_of_not_ended {x : α} {a : List α} (ha : a ≠ [])
    (hlast : a.getLast? ≠ some x) (l : List α) :
    cutAfter x (a ++ x :: l) = cutAfter x a ++ cutAfter x l := by
  induction a with
  | nil => exact absurd rfl ha
  | cons b a ih =>
    cases a with
    | nil =>
      have hb : x ∉ [b] := fun h => hlast (congrArg some (List.mem_singleton.1 h).symm)
      rw [cutAfter_append_cons hb, cutAfter_of_not_mem hb ha, List.singleton_append]
    | cons c a =>
      rw [List.getLast?_cons_cons] at hlast
      exact cutAfter_cons_append (List.cons_ne_nil c a) (ih (List.cons_ne_nil c a) hlast)

/-- An end that is dropped is all that is lost. -/
theorem eq_or_append_of_dropLast (x : α) (l : List α) :
    let front := if l.getLast? = some x then l.dropLast else l
    l = front ∨ l = front ++ [x] := by
  intro front
  by_cases h : l.getLast? = some x
  · have hfront : front = l.dropLast := if_pos h
    obtain ⟨a, rfl⟩ := List.getLast?_eq_some_iff.1 h
    right
    rw [hfront, List.dropLast_concat]
  · exact .inl (if_neg h).symm

end

/-! ## Bytes and texts -/

theorem cut_ofBytes (bytes : Bytes) :
    Source.cut (Source.ofBytes bytes)
      = (cutAfter Source.lineFeed bytes).map fun chunk => ⟨chunk, none⟩ := by
  induction bytes with
  | nil => rfl
  | cons b bytes ih =>
    have hcons : Source.ofBytes (b :: bytes) = .byte b :: Source.ofBytes bytes := rfl
    rw [hcons, Source.cut, cutAfter, ih]
    by_cases hb : b = Source.lineFeed
    · rw [if_pos hb, if_pos hb]
      rfl
    · rw [if_neg hb, if_neg hb]
      cases cutAfter Source.lineFeed bytes <;> rfl

theorem readings_ofBytes (bytes : Bytes) :
    (Reader.ofSource (Source.ofBytes bytes)).readings
      = Reading.ofYields 0 ((cutAfter Source.lineFeed bytes).map fun chunk =>
          Source.Piece.yield ⟨chunk, none⟩) := by
  have hcut : (Source.ofBytes bytes).cut.map Source.Piece.yield
      = (cutAfter Source.lineFeed bytes).map fun chunk => Source.Piece.yield ⟨chunk, none⟩ := by
    rw [cut_ofBytes, List.map_map]
    rfl
  rw [Reader.readings_eq, ← hcut]
  rfl

/-- A character of ASCII is among the bytes of no other character. -/
theorem eq_of_mem_encodeChar {c x : Char} (hx : x.toNat < 0x80)
    (h : UInt8.ofNat x.toNat ∈ String.utf8EncodeChar c) : c = x := by
  have hcount := Utf8.count_encode hx [c]
  rw [Utf8.encode_singleton] at hcount
  have hpos : 0 < [c].count x := by
    rw [← hcount]
    exact List.count_pos_iff.2 h
  exact (List.mem_singleton.1 (List.count_pos_iff.1 hpos)).symm

/-- Cutting the bytes of a text and encoding the parts of the text come to the same, since no
other character has a line feed among its bytes. -/
theorem cutAfter_encode (t : Text) :
    cutAfter Source.lineFeed (Utf8.encode t) = (cutAfter '\n' t).map Utf8.encode := by
  induction t with
  | nil => rfl
  | cons c t ih =>
    by_cases hc : c = '\n'
    · have hfeed : String.utf8EncodeChar '\n' = [Source.lineFeed] := rfl
      rw [Utf8.encode_cons, hc, hfeed, List.cons_append, List.nil_append, cutAfter, if_pos rfl, ih,
        cutAfter, if_pos rfl]
      rfl
    · -- The bytes of any other character are kept together, in the first part.
      have hnot : Source.lineFeed ∉ String.utf8EncodeChar c := fun h =>
        hc (eq_of_mem_encodeChar (x := '\n') (by decide) h)
      rw [Utf8.encode_cons, cutAfter_append hnot String.utf8EncodeChar_ne_nil, ih, cutAfter,
        if_neg hc, consFirst, List.map_cons]
      cases cutAfter '\n' t with
      | nil =>
        show (String.utf8EncodeChar c ++ []) :: [] = [Utf8.encode [c]]
        rw [Utf8.encode_singleton, List.append_nil]
      | cons first rest =>
        show (String.utf8EncodeChar c ++ Utf8.encode first) :: rest.map Utf8.encode
          = Utf8.encode (c :: first) :: rest.map Utf8.encode
        rw [Utf8.encode_cons]

def Text.dropReturn (t : Text) : Text := if t.getLast? = some '\r' then t.dropLast else t

/-- The carriage return at the end of bytes is that of their text. -/
theorem dropFinalReturn_encode (t : Text) :
    dropFinalReturn (Utf8.encode t) = Utf8.encode t.dropReturn := by
  -- Both ends are looked at, so the text is taken apart at its end.
  obtain rfl | ⟨s, c, rfl⟩ := List.eq_nil_or_concat t
  · rfl
  rw [List.concat_eq_append]
  by_cases hc : c = '\r'
  · have hbytes : Utf8.encode (s ++ ['\r']) = Utf8.encode s ++ [Source.carriageReturn] :=
      Utf8.encode_append s ['\r']
    rw [hc, hbytes, dropFinalReturn, List.getLast?_concat, if_pos rfl, List.dropLast_concat,
      Text.dropReturn, List.getLast?_concat, if_pos rfl, List.dropLast_concat]
  · have hbytes : Utf8.encode (s ++ [c]) = Utf8.encode s ++ String.utf8EncodeChar c := by
      rw [Utf8.encode_append, Utf8.encode_singleton]
    have hnot : ¬ (Utf8.encode (s ++ [c])).getLast? = some Source.carriageReturn := by
      rw [hbytes, List.getLast?_append, List.getLast?_eq_some_getLast String.utf8EncodeChar_ne_nil,
        Option.some_or]
      intro h
      have hlast := List.getLast_mem (String.utf8EncodeChar_ne_nil (c := c))
      rw [Option.some.inj h] at hlast
      exact hc (eq_of_mem_encodeChar (x := '\r') (by decide) hlast)
    rw [dropFinalReturn, if_neg hnot, Text.dropReturn, List.getLast?_concat,
      if_neg fun h => hc (Option.some.inj h)]

def Text.chunkLines (t : Text) : List Text :=
  (splitAtReturns t.dropReturn).1 :: (splitAtReturns t.dropReturn).2

theorem yield_encode (t : Text) :
    Source.Piece.yield ⟨Utf8.encode t, none⟩ = .ok t.chunkLines := by
  show (chunkLines (Utf8.encode t)).map _ = _
  rw [chunkLines, dropFinalReturn_encode, Utf8.decode_encode]
  rfl

/-! ## The lines of a text -/

theorem dropReturn_cons_cons (c d : Char) (t : Text) :
    Text.dropReturn (c :: d :: t) = c :: Text.dropReturn (d :: t) := by
  rw [Text.dropReturn, Text.dropReturn, List.getLast?_cons_cons]
  split
  · rw [List.dropLast_cons_cons]
  · rfl

/-- A character that is no carriage return belongs to the first line of its chunk. -/
theorem chunkLines_cons {c : Char} (hc : c ≠ '\r') (t : Text) :
    Text.chunkLines (c :: t) = consFirst c t.chunkLines := by
  have hdrop : Text.dropReturn (c :: t) = c :: t.dropReturn := by
    cases t with
    | nil =>
      rw [Text.dropReturn, List.getLast?_singleton, if_neg fun h => hc (Option.some.inj h)]
      rfl
    | cons d t => exact dropReturn_cons_cons c d t
  have hsplit : splitAtReturns (c :: t.dropReturn)
      = (c :: (splitAtReturns t.dropReturn).1, (splitAtReturns t.dropReturn).2) := by
    simp only [splitAtReturns, hc, if_false]
  rw [Text.chunkLines, hdrop, hsplit]
  rfl

/-- A carriage return at the start of a chunk ends a line, unless it is the one at its
end. -/
theorem chunkLines_return (d : Char) (t : Text) :
    Text.chunkLines ('\r' :: d :: t) = [] :: Text.chunkLines (d :: t) := by
  rw [Text.chunkLines, dropReturn_cons_cons]
  rfl

/-- A character that is no line feed stays in the first chunk. -/
theorem flatMap_chunkLines_cons {c : Char} (hc : c ≠ '\n') (t : Text) :
    (cutAfter '\n' (c :: t)).flatMap Text.chunkLines
      = Text.chunkLines (c :: (cutAfter '\n' t).headD [])
          ++ (cutAfter '\n' t).tail.flatMap Text.chunkLines := by
  rw [cutAfter, if_neg hc, consFirst, List.flatMap_cons]

/-- **The lines of a text are those of its chunks.** -/
theorem lines_eq_flatMap (t : Text) :
    t.lines = (cutAfter '\n' t).flatMap Text.chunkLines := by
  fun_induction Text.lines t with
  | case1 => rfl
  | case2 t ih =>
    -- A carriage return before a line feed is the one that its chunk drops.
    rw [ih, cutAfter, if_neg (by decide), cutAfter, if_pos rfl]
    rfl
  | case3 c t hpair hc ih =>
    obtain rfl | rfl := hc
    · -- A carriage return before anything else, or at the end of the text, ends a line.
      rw [ih, flatMap_chunkLines_cons (by decide)]
      cases t with
      | nil => rfl
      | cons d t =>
        have hd : d ≠ '\n' := fun h => hpair t rfl (by rw [h])
        rw [cutAfter, if_neg hd, consFirst, List.headD_cons, List.tail_cons, List.flatMap_cons,
          chunkLines_return, List.cons_append]
    · rw [ih, cutAfter, if_pos rfl, List.flatMap_cons]
      rfl
  | case4 c t hpair hc ih =>
    rw [not_or] at hc
    rw [ih, flatMap_chunkLines_cons hc.2, chunkLines_cons hc.1]
    cases cutAfter '\n' t <;> rfl

/-! ## Reading a log that spells a text -/

theorem ofYields_map_ok (count : Nat) (chunks : List (List Text)) :
    Reading.ofYields count (chunks.map .ok) = Reading.ofLines count chunks.flatten := by
  induction chunks generalizing count with
  | nil => rfl
  | cons lines rest ih =>
    rw [List.map_cons, Reading.ofYields, ih, List.flatten_cons, Reading.ofLines_append]

/-- **The bytes of a text are read as its lines**, numbered from one and without a
fault. -/
theorem readings_encode (t : Text) :
    (Reader.ofSource (Source.ofBytes (Utf8.encode t))).readings = Reading.ofLines 0 t.lines := by
  have hyields : ((cutAfter '\n' t).map Utf8.encode).map (fun chunk =>
      Source.Piece.yield ⟨chunk, none⟩) = ((cutAfter '\n' t).map Text.chunkLines).map .ok := by
    rw [List.map_map, List.map_map]
    exact List.map_congr_left fun chunk _ => yield_encode chunk
  rw [readings_ofBytes, cutAfter_encode, hyields, ofYields_map_ok, lines_eq_flatMap,
    List.flatMap_def]

/-! ## Bytes that spell no text -/

/-- Bytes whose parts all spell a text spell one as a whole. -/
theorem exists_encode_of_cutAfter {bytes : Bytes}
    (h : ∀ chunk ∈ cutAfter Source.lineFeed bytes, ∃ t, chunk = Utf8.encode t) :
    ∃ t, bytes = Utf8.encode t := by
  induction bytes using cut_induction Source.lineFeed with
  | nil => exact ⟨[], rfl⟩
  | last a ha hne =>
    rw [cutAfter_of_not_mem ha hne] at h
    exact h a List.mem_cons_self
  | part a rest ha ih =>
    rw [cutAfter_append_cons ha] at h
    obtain ⟨s, hs⟩ := h a List.mem_cons_self
    obtain ⟨t, ht⟩ := ih fun chunk hchunk => h chunk (List.mem_cons_of_mem _ hchunk)
    refine ⟨s ++ '\n' :: t, ?_⟩
    rw [hs, ht, ← List.singleton_append, ← List.singleton_append (x := '\n'),
      Utf8.encode_append, Utf8.encode_append]
    rfl

/-- The bytes of a chunk are those that are decoded, with or without a carriage return
after them. -/
theorem eq_or_append_of_dropFinalReturn (bytes : Bytes) :
    bytes = dropFinalReturn bytes ∨ bytes = dropFinalReturn bytes ++ [Source.carriageReturn] :=
  eq_or_append_of_dropLast Source.carriageReturn bytes

/-- The carriage return that is dropped is a text by itself, so a chunk that is decoded without it
spells a text with it. -/
theorem exists_encode_of_decode {chunk : Bytes} {t : Text}
    (h : Utf8.decode (dropFinalReturn chunk) = .ok t) : ∃ s, chunk = Utf8.encode s := by
  have ht := Utf8.decode_eq_ok_iff.1 h
  obtain heq | heq := eq_or_append_of_dropFinalReturn chunk
  · exact ⟨t, heq.trans ht⟩
  · refine ⟨t ++ ['\r'], heq.trans ?_⟩
    rw [ht, Utf8.encode_append]
    rfl

/-- A log is malformed at a chunk that spells no text, if all chunks before it do. -/
structure MalformedAt (bytes : Bytes) (chunk : Bytes) (cause : Utf8.Malformed) : Prop where
  /-- The chunk is one of the log, and those before it spell texts. -/
  first : ∃ before after, cutAfter Source.lineFeed bytes = before ++ chunk :: after ∧
    ∀ other ∈ before, ∃ t, other = Utf8.encode t
  /-- The chunk spells none. -/
  refused : Utf8.decode (dropFinalReturn chunk) = .error cause

/-- Either every chunk spells a text, or there is a first one that does not. -/
theorem decoded_or_first_refused (chunks : List Bytes) :
    (∀ chunk ∈ chunks, ∃ t, chunk = Utf8.encode t) ∨
      ∃ before chunk after cause, chunks = before ++ chunk :: after ∧
        (∀ other ∈ before, ∃ t, other = Utf8.encode t) ∧
        Utf8.decode (dropFinalReturn chunk) = .error cause := by
  induction chunks with
  | nil => exact .inl (fun chunk h => absurd h List.not_mem_nil)
  | cons first rest ih =>
    cases hfirst : Utf8.decode (dropFinalReturn first) with
    | error cause =>
      exact .inr ⟨[], first, rest, cause, rfl, fun _ h => absurd h List.not_mem_nil, hfirst⟩
    | ok t =>
      have hspells := exists_encode_of_decode hfirst
      -- The chunk is in order, so it is for the others to be all in order or not.
      obtain hall | ⟨before, chunk, after, cause, heq, hbefore, hchunk⟩ := ih
      · exact .inl (List.forall_mem_cons.2 ⟨hspells, hall⟩)
      · refine .inr ⟨first :: before, chunk, after, cause, ?_, ?_, hchunk⟩
        · rw [heq, List.cons_append]
        · exact List.forall_mem_cons.2 ⟨hspells, hbefore⟩

/-- Bytes spell a text, or they are malformed at some chunk. -/
theorem encode_or_malformed (bytes : Bytes) :
    (∃ t, bytes = Utf8.encode t) ∨ ∃ chunk cause, MalformedAt bytes chunk cause := by
  obtain hall | ⟨before, chunk, after, cause, heq, hbefore, hchunk⟩ :=
    decoded_or_first_refused (cutAfter Source.lineFeed bytes)
  · exact .inl (exists_encode_of_cutAfter hall)
  · exact .inr ⟨chunk, cause, ⟨before, after, heq, hbefore⟩, hchunk⟩

theorem not_malformedAt_encode {t : Text} {chunk : Bytes} {cause : Utf8.Malformed} :
    ¬ MalformedAt (Utf8.encode t) chunk cause := by
  rintro ⟨⟨before, after, hcut, -⟩, hrefused⟩
  rw [cutAfter_encode] at hcut
  have hmem : chunk ∈ (cutAfter '\n' t).map Utf8.encode := by
    rw [hcut]
    exact List.mem_append_right _ List.mem_cons_self
  obtain ⟨s, -, rfl⟩ := List.mem_map.1 hmem
  rw [dropFinalReturn_encode, Utf8.decode_encode] at hrefused
  cases hrefused

end SymbolLog
