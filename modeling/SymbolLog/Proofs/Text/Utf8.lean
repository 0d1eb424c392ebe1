/-
Decoding is the inverse of encoding.

`Utf8.decode` is a machine that takes one byte at a time, and `Utf8.encode` is the
core library's encoding of one character after the other. The two are related
here: the machine accepts exactly the bytes of texts, and gives the text back
(`decode_eq_ok_iff`). So everything that is later said about bytes can be said
about the text they spell, and the machine is not opened again.

One direction is arithmetic. The bytes of a character carry its code point in
base 64, and the machine puts the digits together. The other direction has to
rule out what the machine must not accept, which is the business of the range of
the second byte: that range is what keeps a code point above the least one of its
length, out of the surrogates and below U+110000.
-/
import SymbolLog.Text.Utf8

set_option autoImplicit false

namespace SymbolLog.Utf8

theorem encode_cons (c : Char) (t : Text) :
    encode (c :: t) = String.utf8EncodeChar c ++ encode t := List.flatMap_cons

theorem flatten_map_encode (pieces : List Text) :
    (pieces.map encode).flatten = encode pieces.flatten := by
  induction pieces with
  | nil => rfl
  | cons piece rest ih =>
    rw [List.map_cons, List.flatten_cons, List.flatten_cons, encode_append, ih]

/-! ## The machine, one byte at a time -/

/-- The last byte of a character completes it, and the machine is between two characters again. -/
theorem decodeFrom_last {start seen bits : Nat} {next : ByteRange} {b : UInt8}
    (hnext : next.holds b = true) (index : Nat) (rest : Bytes) :
    decodeFrom (some ⟨start, seen, bits, next, 0⟩) index (b :: rest)
      = (Char.ofNat (bits * 64 + b.toNat % 64) :: ·) <$> decodeFrom none (index + 1) rest := by
  rw [decodeFrom, if_pos hnext]

/-- Within a character a byte adds six bits. Only the second one has a range of its own. -/
theorem decodeFrom_more {start seen bits further : Nat} {next : ByteRange} {b : UInt8}
    (hnext : next.holds b = true) (index : Nat) (rest : Bytes) :
    decodeFrom (some ⟨start, seen, bits, next, further + 1⟩) index (b :: rest)
      = decodeFrom (some ⟨start, seen + 1, bits * 64 + b.toNat % 64, continuation, further⟩)
          (index + 1) rest := by
  rw [decodeFrom, if_pos hnext]

/-- The first byte of a longer character gives its highest bits and the range of the second byte.
-/
theorem decodeFrom_lead {b : UInt8} {bits further : Nat} {second : ByteRange}
    (hb : ¬ b < 0x80) (hlead : lead? b = some ⟨bits, second, further⟩) (index : Nat)
    (rest : Bytes) :
    decodeFrom none index (b :: rest)
      = decodeFrom (some ⟨index, 1, bits, second, further⟩) (index + 1) rest := by
  rw [decodeFrom, if_neg hb, hlead]

theorem holds_iff (range : ByteRange) (b : UInt8) :
    range.holds b = true ↔ range.low.toNat ≤ b.toNat ∧ b.toNat ≤ range.high.toNat := by
  simp only [ByteRange.holds, Bool.and_eq_true, decide_eq_true_eq, UInt8.le_iff_toNat_le]

theorem continuation_holds_iff (b : UInt8) :
    continuation.holds b = true ↔ 0x80 ≤ b.toNat ∧ b.toNat ≤ 0xBF := holds_iff continuation b

/-! ## First bytes

Characters of two, three and four bytes are told apart by the range of their first
byte, and each first byte narrows the range of the second as far as it has to. -/

theorem lead?_two {b : UInt8} (hlow : 0xC2 ≤ b.toNat) (hhigh : b.toNat ≤ 0xDF) :
    lead? b = some ⟨b.toNat - 0xC0, continuation, 0⟩ := by
  rw [lead?, if_pos]
  rw [Bool.and_eq_true, decide_eq_true_eq, decide_eq_true_eq, UInt8.le_iff_toNat_le,
    UInt8.le_iff_toNat_le]
  exact ⟨hlow, hhigh⟩

/-- The first byte of a character of three bytes. After `E0` the second byte keeps
over-long forms out, after `ED` it keeps surrogates out. -/
theorem lead?_three {b : UInt8} (hlow : 0xE0 ≤ b.toNat) (hhigh : b.toNat ≤ 0xEF) :
    ∃ second, lead? b = some ⟨b.toNat - 0xE0, second, 1⟩ ∧
      ∀ x : UInt8, second.holds x = true ↔
        (0x80 ≤ x.toNat ∧ x.toNat ≤ 0xBF) ∧ (b.toNat = 0xE0 → 0xA0 ≤ x.toNat) ∧
          (b.toNat = 0xED → x.toNat ≤ 0x9F) := by
  have htwo : ¬ (0xC2 ≤ b && b ≤ 0xDF) = true := by
    simp only [Bool.and_eq_true, decide_eq_true_eq, UInt8.le_iff_toNat_le, UInt8.reduceToNat]
    omega
  rw [lead?, if_neg htwo]
  -- `E0` and `ED` narrow the range of the second byte, all others leave it as it is.
  by_cases hE0 : b = 0xE0
  · have hb : b.toNat = 0xE0 := by rw [hE0]; rfl
    rw [if_pos hE0]
    refine ⟨_, by rw [hb], fun x => ?_⟩
    rw [holds_iff]
    simp only [UInt8.reduceToNat]
    omega
  · rw [if_neg hE0]
    have hE0' : b.toNat ≠ 0xE0 := fun h => hE0 (UInt8.toNat_inj.1 h)
    by_cases hED : b = 0xED
    · have hb : b.toNat = 0xED := by rw [hED]; rfl
      rw [if_pos hED]
      refine ⟨_, by rw [hb], fun x => ?_⟩
      rw [holds_iff]
      simp only [UInt8.reduceToNat]
      omega
    · have hED' : b.toNat ≠ 0xED := fun h => hED (UInt8.toNat_inj.1 h)
      have hrange : (0xE1 ≤ b && b ≤ 0xEF) = true := by
        simp only [Bool.and_eq_true, decide_eq_true_eq, UInt8.le_iff_toNat_le, UInt8.reduceToNat]
        omega
      rw [if_neg hED, if_pos hrange]
      refine ⟨_, rfl, fun x => ?_⟩
      rw [holds_iff]
      simp only [continuation, UInt8.reduceToNat]
      omega

/-- The first byte of a character of four bytes. After `F0` the second byte keeps
over-long forms out, after `F4` it keeps the code point below U+110000. -/
theorem lead?_four {b : UInt8} (hlow : 0xF0 ≤ b.toNat) (hhigh : b.toNat ≤ 0xF4) :
    ∃ second, lead? b = some ⟨b.toNat - 0xF0, second, 2⟩ ∧
      ∀ x : UInt8, second.holds x = true ↔
        (0x80 ≤ x.toNat ∧ x.toNat ≤ 0xBF) ∧ (b.toNat = 0xF0 → 0x90 ≤ x.toNat) ∧
          (b.toNat = 0xF4 → x.toNat ≤ 0x8F) := by
  have htwo : ¬ (0xC2 ≤ b && b ≤ 0xDF) = true := by
    simp only [Bool.and_eq_true, decide_eq_true_eq, UInt8.le_iff_toNat_le, UInt8.reduceToNat]
    omega
  have hthree : ¬ (0xE1 ≤ b && b ≤ 0xEF) = true := by
    simp only [Bool.and_eq_true, decide_eq_true_eq, UInt8.le_iff_toNat_le, UInt8.reduceToNat]
    omega
  have hE0 : b ≠ 0xE0 := by
    rintro rfl
    simp only [UInt8.reduceToNat] at hlow
    omega
  have hED : b ≠ 0xED := by
    rintro rfl
    simp only [UInt8.reduceToNat] at hlow
    omega
  rw [lead?, if_neg htwo, if_neg hE0, if_neg hED, if_neg hthree]
  -- Here it is `F0` and `F4` that narrow it.
  by_cases hF0 : b = 0xF0
  · have hb : b.toNat = 0xF0 := by rw [hF0]; rfl
    rw [if_pos hF0]
    refine ⟨_, by rw [hb], fun x => ?_⟩
    rw [holds_iff]
    simp only [UInt8.reduceToNat]
    omega
  · rw [if_neg hF0]
    have hF0' : b.toNat ≠ 0xF0 := fun h => hF0 (UInt8.toNat_inj.1 h)
    by_cases hF4 : b = 0xF4
    · have hb : b.toNat = 0xF4 := by rw [hF4]; rfl
      rw [if_pos hF4]
      refine ⟨_, by rw [hb], fun x => ?_⟩
      rw [holds_iff]
      simp only [UInt8.reduceToNat]
      omega
    · have hF4' : b.toNat ≠ 0xF4 := fun h => hF4 (UInt8.toNat_inj.1 h)
      have hrange : (0xF1 ≤ b && b ≤ 0xF3) = true := by
        simp only [Bool.and_eq_true, decide_eq_true_eq, UInt8.le_iff_toNat_le, UInt8.reduceToNat]
        omega
      rw [if_neg hF4, if_pos hrange]
      refine ⟨_, rfl, fun x => ?_⟩
      rw [holds_iff]
      simp only [continuation, UInt8.reduceToNat]
      omega

/-- C0 and C1 begin no character, and nothing above F4 does. -/
theorem lead?_range {b : UInt8} {lead : Lead} (h : lead? b = some lead) :
    0xC2 ≤ b.toNat ∧ b.toNat ≤ 0xF4 := by
  unfold lead? at h
  -- Seven classes of first bytes, and every one of them is within the bounds.
  simp only [Bool.and_eq_true, decide_eq_true_eq, UInt8.le_iff_toNat_le, UInt8.reduceToNat] at h
  split at h
  · omega
  split at h
  · next heq => rw [heq]; decide
  split at h
  · next heq => rw [heq]; decide
  split at h
  · omega
  split at h
  · next heq => rw [heq]; decide
  split at h
  · next heq => rw [heq]; decide
  split at h
  · omega
  · exact absurd h (by simp)

/-! ## What has been encoded is decoded -/

/-- Code points are below the surrogates or above them, and below U+110000. -/
theorem toNat_valid (c : Char) :
    c.toNat < 0xD800 ∨ 0xDFFF < c.toNat ∧ c.toNat < 0x110000 := c.valid

theorem not_lt_of_le_toNat {b : UInt8} (h : 0x80 ≤ b.toNat) : ¬ b < 0x80 := by
  rw [UInt8.lt_iff_toNat_lt]
  exact Nat.not_lt.2 h

section
variable {b c d e : UInt8} (index : Nat) (rest : Bytes)

theorem decodeFrom_two (hb : 0xC2 ≤ b.toNat ∧ b.toNat ≤ 0xDF)
    (hc : 0x80 ≤ c.toNat ∧ c.toNat ≤ 0xBF) :
    decodeFrom none index (b :: c :: rest)
      = (Char.ofNat ((b.toNat - 0xC0) * 64 + c.toNat % 64) :: ·)
          <$> decodeFrom none (index + 2) rest := by
  rw [decodeFrom_lead (not_lt_of_le_toNat (by omega)) (lead?_two hb.1 hb.2),
    decodeFrom_last ((continuation_holds_iff c).2 hc)]

/-- In three bytes the range of the second keeps a character from being over-long (after E0) and
out of the surrogates (after ED). -/
theorem decodeFrom_three (hb : 0xE0 ≤ b.toNat ∧ b.toNat ≤ 0xEF)
    (hc : (0x80 ≤ c.toNat ∧ c.toNat ≤ 0xBF) ∧ (b.toNat = 0xE0 → 0xA0 ≤ c.toNat) ∧
      (b.toNat = 0xED → c.toNat ≤ 0x9F))
    (hd : 0x80 ≤ d.toNat ∧ d.toNat ≤ 0xBF) :
    decodeFrom none index (b :: c :: d :: rest)
      = (Char.ofNat (((b.toNat - 0xE0) * 64 + c.toNat % 64) * 64 + d.toNat % 64) :: ·)
          <$> decodeFrom none (index + 3) rest := by
  obtain ⟨second, hlead, hsecond⟩ := lead?_three hb.1 hb.2
  rw [decodeFrom_lead (not_lt_of_le_toNat (by omega)) hlead, decodeFrom_more ((hsecond c).2 hc),
    decodeFrom_last ((continuation_holds_iff d).2 hd)]

/-- In four bytes the range of the second keeps a character from being over-long (after F0) and
beyond the last code point (after F4). -/
theorem decodeFrom_four (hb : 0xF0 ≤ b.toNat ∧ b.toNat ≤ 0xF4)
    (hc : (0x80 ≤ c.toNat ∧ c.toNat ≤ 0xBF) ∧ (b.toNat = 0xF0 → 0x90 ≤ c.toNat) ∧
      (b.toNat = 0xF4 → c.toNat ≤ 0x8F))
    (hd : 0x80 ≤ d.toNat ∧ d.toNat ≤ 0xBF) (he : 0x80 ≤ e.toNat ∧ e.toNat ≤ 0xBF) :
    decodeFrom none index (b :: c :: d :: e :: rest)
      = (Char.ofNat ((((b.toNat - 0xF0) * 64 + c.toNat % 64) * 64 + d.toNat % 64) * 64
            + e.toNat % 64) :: ·)
          <$> decodeFrom none (index + 4) rest := by
  obtain ⟨second, hlead, hsecond⟩ := lead?_four hb.1 hb.2
  rw [decodeFrom_lead (not_lt_of_le_toNat (by omega)) hlead, decodeFrom_more ((hsecond c).2 hc),
    decodeFrom_more ((continuation_holds_iff d).2 hd),
    decodeFrom_last ((continuation_holds_iff e).2 he)]

end

/-- The machine takes the bytes of one character and puts its code point together from them. -/
theorem decodeFrom_encodeChar (c : Char) (index : Nat) (rest : Bytes) :
    decodeFrom none index (String.utf8EncodeChar c ++ rest)
      = (c :: ·) <$> decodeFrom none (index + (String.utf8EncodeChar c).length) rest := by
  have hvalid := toNat_valid c
  have hchar : ∀ n, n = c.toNat → Char.ofNat n = c := by
    intro n hn
    rw [hn, Char.ofNat_toNat]
  -- A byte that is built from a number below 256 has that number for its value.
  have hbyte : ∀ n, n < 256 → (UInt8.ofNat n).toNat = n := by
    intro n hn
    exact UInt8.toNat_ofNat_of_lt' hn
  unfold String.utf8EncodeChar
  simp only [Char.toNat_val]
  generalize hv : c.toNat = v at *
  -- The encoding tells the lengths apart by the code point. In every length the machine adds
  -- the bits up to `c.toNat`, and what the second byte must satisfy is what bounds it below.
  split
  · next h1 =>
    have hb : UInt8.ofNat v < 0x80 := by
      rw [UInt8.lt_iff_toNat_lt, hbyte v (by omega)]
      simp only [UInt8.reduceToNat]
      omega
    rw [List.cons_append, List.nil_append, decodeFrom, if_pos hb, hbyte v (by omega),
      hchar v rfl]
    rfl
  split
  · next h1 h2 =>
    have hb1 := hbyte (v / 64 % 0x20 + 0xC0) (by omega)
    have hb2 := hbyte (v % 0x40 + 0x80) (by omega)
    rw [List.cons_append, List.cons_append, List.nil_append, decodeFrom_two, hb1, hb2]
    · rw [hchar _ (by omega)]
      rfl
    all_goals omega
  split
  · next h1 h2 h3 =>
    have hb1 := hbyte (v / 4096 % 0x10 + 0xE0) (by omega)
    have hb2 := hbyte (v / 64 % 0x40 + 0x80) (by omega)
    have hb3 := hbyte (v % 0x40 + 0x80) (by omega)
    rw [List.cons_append, List.cons_append, List.cons_append, List.nil_append, decodeFrom_three,
      hb1, hb2, hb3]
    · rw [hchar _ (by omega)]
      rfl
    all_goals omega
  · next h1 h2 h3 =>
    have hb1 := hbyte (v / 262144 % 0x08 + 0xF0) (by omega)
    have hb2 := hbyte (v / 4096 % 0x40 + 0x80) (by omega)
    have hb3 := hbyte (v / 64 % 0x40 + 0x80) (by omega)
    have hb4 := hbyte (v % 0x40 + 0x80) (by omega)
    rw [List.cons_append, List.cons_append, List.cons_append, List.cons_append, List.nil_append,
      decodeFrom_four, hb1, hb2, hb3, hb4]
    · rw [hchar _ (by omega)]
      rfl
    all_goals omega

/-- The machine takes the bytes of a text for that text, from any place on. -/
theorem decodeFrom_encode (t : Text) (index : Nat) : decodeFrom none index (encode t) = .ok t := by
  induction t generalizing index with
  | nil => rfl
  | cons c t ih =>
    rw [encode_cons, decodeFrom_encodeChar, ih]
    rfl

theorem decode_encode (t : Text) : decode (encode t) = .ok t := decodeFrom_encode t 0

/-- Bytes spell one text at most. -/
theorem encode_injective {s t : Text} (h : encode s = encode t) : s = t := by
  have hs := decode_encode s
  rw [h, decode_encode] at hs
  exact (Except.ok.inj hs).symm

/-! ## What is decoded was encoded

The machine is run backwards: a state that comes to a text says which byte it has
taken and where it went on, and the bytes of a whole character are collected on the
way back to the state between two characters. -/

/-- A machine that waits for one more byte and comes to a text has been given that byte. -/
theorem exists_of_decodeFrom_last {start seen bits index : Nat} {next : ByteRange}
    {bytes : Bytes} {t : Text}
    (h : decodeFrom (some ⟨start, seen, bits, next, 0⟩) index bytes = .ok t) :
    ∃ b rest t', bytes = b :: rest ∧ next.holds b = true ∧
      t = Char.ofNat (bits * 64 + b.toNat % 64) :: t' ∧
      decodeFrom none (index + 1) rest = .ok t' := by
  cases bytes with
  | nil => simp [decodeFrom] at h
  | cons b rest =>
    by_cases hnext : next.holds b = true
    · rw [decodeFrom_last hnext] at h
      cases hrest : decodeFrom none (index + 1) rest with
      | error e => rw [hrest] at h; cases h
      | ok t' =>
        rw [hrest] at h
        exact ⟨b, rest, t', rfl, hnext, (Except.ok.inj h).symm, hrest⟩
    · rw [decodeFrom, if_neg hnext] at h
      exact absurd h (by simp)

/-- A machine that waits for more bytes and comes to a text has been given the next of them, and
has gone on within the character. -/
theorem exists_of_decodeFrom_more {start seen bits further index : Nat} {next : ByteRange}
    {bytes : Bytes} {t : Text}
    (h : decodeFrom (some ⟨start, seen, bits, next, further + 1⟩) index bytes = .ok t) :
    ∃ b rest, bytes = b :: rest ∧ next.holds b = true ∧
      decodeFrom (some ⟨start, seen + 1, bits * 64 + b.toNat % 64, continuation, further⟩)
        (index + 1) rest = .ok t := by
  cases bytes with
  | nil => simp [decodeFrom] at h
  | cons b rest =>
    by_cases hnext : next.holds b = true
    · rw [decodeFrom_more hnext] at h
      exact ⟨b, rest, rfl, hnext, h⟩
    · rw [decodeFrom, if_neg hnext] at h
      exact absurd h (by simp)

theorem toNat_ofNat_of_valid {n : Nat} (h : n < 0xD800 ∨ 0xDFFF < n ∧ n < 0x110000) :
    (Char.ofNat n).toNat = n := by
  have hn : n.isValidChar := h
  rw [Char.ofNat, dif_pos hn]
  rfl

theorem ofNat_eq_of_toNat {n : Nat} {b : UInt8} (h : n = b.toNat) : UInt8.ofNat n = b := by
  rw [h, UInt8.ofNat_toNat]

theorem encodeChar_two {b c : UInt8} (hb : 0xC2 ≤ b.toNat ∧ b.toNat ≤ 0xDF)
    (hc : 0x80 ≤ c.toNat ∧ c.toNat ≤ 0xBF) :
    String.utf8EncodeChar (Char.ofNat ((b.toNat - 0xC0) * 64 + c.toNat % 64)) = [b, c] := by
  unfold String.utf8EncodeChar
  simp only [Char.toNat_val]
  rw [toNat_ofNat_of_valid (by omega), if_neg (by omega), if_pos (by omega),
    ofNat_eq_of_toNat (b := b) (by omega), ofNat_eq_of_toNat (b := c) (by omega)]

/-- Three bytes that the machine accepts encode the character that it makes of them. That the
encoding has no fewer is due to the range of the second byte. -/
theorem encodeChar_three {b c d : UInt8} (hb : 0xE0 ≤ b.toNat ∧ b.toNat ≤ 0xEF)
    (hc : (0x80 ≤ c.toNat ∧ c.toNat ≤ 0xBF) ∧ (b.toNat = 0xE0 → 0xA0 ≤ c.toNat) ∧
      (b.toNat = 0xED → c.toNat ≤ 0x9F))
    (hd : 0x80 ≤ d.toNat ∧ d.toNat ≤ 0xBF) :
    String.utf8EncodeChar
        (Char.ofNat (((b.toNat - 0xE0) * 64 + c.toNat % 64) * 64 + d.toNat % 64))
      = [b, c, d] := by
  unfold String.utf8EncodeChar
  simp only [Char.toNat_val]
  rw [toNat_ofNat_of_valid (by omega), if_neg (by omega), if_neg (by omega), if_pos (by omega),
    ofNat_eq_of_toNat (b := b) (by omega), ofNat_eq_of_toNat (b := c) (by omega),
    ofNat_eq_of_toNat (b := d) (by omega)]

theorem encodeChar_four {b c d e : UInt8} (hb : 0xF0 ≤ b.toNat ∧ b.toNat ≤ 0xF4)
    (hc : (0x80 ≤ c.toNat ∧ c.toNat ≤ 0xBF) ∧ (b.toNat = 0xF0 → 0x90 ≤ c.toNat) ∧
      (b.toNat = 0xF4 → c.toNat ≤ 0x8F))
    (hd : 0x80 ≤ d.toNat ∧ d.toNat ≤ 0xBF) (he : 0x80 ≤ e.toNat ∧ e.toNat ≤ 0xBF) :
    String.utf8EncodeChar
        (Char.ofNat ((((b.toNat - 0xF0) * 64 + c.toNat % 64) * 64 + d.toNat % 64) * 64
          + e.toNat % 64))
      = [b, c, d, e] := by
  unfold String.utf8EncodeChar
  simp only [Char.toNat_val]
  rw [toNat_ofNat_of_valid (by omega), if_neg (by omega), if_neg (by omega), if_neg (by omega),
    ofNat_eq_of_toNat (b := b) (by omega), ofNat_eq_of_toNat (b := c) (by omega),
    ofNat_eq_of_toNat (b := d) (by omega), ofNat_eq_of_toNat (b := e) (by omega)]

/-- Between two characters, the machine has taken the bytes of one whole character. -/
theorem exists_of_decodeFrom_none {index : Nat} {b : UInt8} {rest : Bytes} {t : Text}
    (h : decodeFrom none index (b :: rest) = .ok t) :
    ∃ c t' bytes next, b :: rest = String.utf8EncodeChar c ++ bytes ∧ t = c :: t' ∧
      decodeFrom none next bytes = .ok t' := by
  have hcont : ∀ {x : UInt8}, continuation.holds x = true → 0x80 ≤ x.toNat ∧ x.toNat ≤ 0xBF := by
    intro x hx
    exact (continuation_holds_iff x).1 hx
  -- One byte, or else two to four by what the first byte says.
  by_cases hb : b < 0x80
  · rw [decodeFrom, if_pos hb] at h
    have hb' : b.toNat < 0x80 := UInt8.lt_iff_toNat_lt.1 hb
    cases hrest : decodeFrom none (index + 1) rest with
    | error e => rw [hrest] at h; cases h
    | ok t' =>
      rw [hrest] at h
      refine ⟨Char.ofNat b.toNat, t', rest, index + 1, ?_, (Except.ok.inj h).symm, hrest⟩
      unfold String.utf8EncodeChar
      simp only [Char.toNat_val]
      rw [toNat_ofNat_of_valid (by omega), if_pos (by omega), ofNat_eq_of_toNat rfl]
      rfl
  · cases hlead : lead? b with
    | none => rw [decodeFrom, if_neg hb, hlead] at h; exact absurd h (by simp)
    | some lead =>
      have hrange := lead?_range hlead
      by_cases htwo : b.toNat ≤ 0xDF
      · rw [decodeFrom_lead hb (lead?_two hrange.1 htwo)] at h
        obtain ⟨c, rest, t', rfl, hc, rfl, hrest⟩ := exists_of_decodeFrom_last h
        refine ⟨_, t', rest, _, ?_, rfl, hrest⟩
        rw [encodeChar_two ⟨hrange.1, htwo⟩ (hcont hc)]
        rfl
      by_cases hthree : b.toNat ≤ 0xEF
      · obtain ⟨second, hlead, hsecond⟩ := lead?_three (by omega) hthree
        rw [decodeFrom_lead hb hlead] at h
        obtain ⟨c, rest, rfl, hc, h⟩ := exists_of_decodeFrom_more h
        obtain ⟨d, rest, t', rfl, hd, rfl, hrest⟩ := exists_of_decodeFrom_last h
        refine ⟨_, t', rest, _, ?_, rfl, hrest⟩
        rw [encodeChar_three ⟨by omega, hthree⟩ ((hsecond c).1 hc) (hcont hd)]
        rfl
      · obtain ⟨second, hlead, hsecond⟩ := lead?_four (b := b) (by omega) hrange.2
        rw [decodeFrom_lead hb hlead] at h
        obtain ⟨c, rest, rfl, hc, h⟩ := exists_of_decodeFrom_more h
        obtain ⟨d, rest, rfl, hd, h⟩ := exists_of_decodeFrom_more h
        obtain ⟨e, rest, t', rfl, he, rfl, hrest⟩ := exists_of_decodeFrom_last h
        refine ⟨_, t', rest, _, ?_, rfl, hrest⟩
        rw [encodeChar_four ⟨by omega, hrange.2⟩ ((hsecond c).1 hc) (hcont hd) (hcont he)]
        rfl

theorem encode_of_decodeFrom {bytes : Bytes} {index : Nat} {t : Text}
    (h : decodeFrom none index bytes = .ok t) : encode t = bytes := by
  -- The text is the shorter of the two, so the induction is on it: each character accounts for
  -- some bytes.
  induction t generalizing bytes index with
  | nil =>
    cases bytes with
    | nil => rfl
    | cons b rest =>
      obtain ⟨c, t', -, -, -, heq, -⟩ := exists_of_decodeFrom_none h
      exact absurd heq (by simp)
  | cons c t ih =>
    cases bytes with
    | nil => simp [decodeFrom] at h
    | cons b rest =>
      obtain ⟨c', t', bytes, next, hbytes, heq, hrest⟩ := exists_of_decodeFrom_none h
      obtain ⟨rfl, rfl⟩ := List.cons.inj heq
      rw [hbytes, ← ih hrest, encode_cons]

/-- **Decoding is the inverse of encoding**: bytes are decoded exactly if they are the
bytes of a text, and then to that text. -/
theorem decode_eq_ok_iff {bytes : Bytes} {t : Text} : decode bytes = .ok t ↔ bytes = encode t := by
  constructor
  · intro h
    exact (encode_of_decodeFrom h).symm
  · rintro rfl
    exact decode_encode t

/-! ## ASCII

A byte below 80 stands for a character and is part of no other, so it can be looked
for in the bytes of a text before they are decoded. -/

theorem encode_singleton (c : Char) : encode [c] = String.utf8EncodeChar c := by
  rw [encode, List.flatMap_cons, List.flatMap_nil, List.append_nil]

theorem encodeChar_ascii {c : Char} (h : c.toNat < 0x80) :
    String.utf8EncodeChar c = [UInt8.ofNat c.toNat] := by
  unfold String.utf8EncodeChar
  simp only [Char.toNat_val]
  rw [if_pos (by omega)]

/-- No byte of any other character is below 80. -/
theorem le_of_mem_encodeChar {c : Char} {b : UInt8} (h : ¬ c.toNat < 0x80)
    (hb : b ∈ String.utf8EncodeChar c) : 0x80 ≤ b.toNat := by
  have hvalid := toNat_valid c
  have hbyte : ∀ n, n < 256 → (UInt8.ofNat n).toNat = n := fun n hn =>
    UInt8.toNat_ofNat_of_lt' hn
  unfold String.utf8EncodeChar at hb
  simp only [Char.toNat_val] at hb
  rw [if_neg (by omega)] at hb
  -- The marks that the encoding adds to the bits are C0, E0, F0 and 80.
  split at hb
  · simp only [List.mem_cons, List.not_mem_nil, or_false] at hb
    obtain rfl | rfl := hb
    all_goals rw [hbyte _ (by omega)]; omega
  split at hb
  · simp only [List.mem_cons, List.not_mem_nil, or_false] at hb
    obtain rfl | rfl | rfl := hb
    all_goals rw [hbyte _ (by omega)]; omega
  · simp only [List.mem_cons, List.not_mem_nil, or_false] at hb
    obtain rfl | rfl | rfl | rfl := hb
    all_goals rw [hbyte _ (by omega)]; omega

/-- A character of ASCII occurs among the bytes as often as in the text. -/
theorem count_encode {c : Char} (hc : c.toNat < 0x80) (t : Text) :
    (encode t).count (UInt8.ofNat c.toNat) = t.count c := by
  have hval : (UInt8.ofNat c.toNat).toNat = c.toNat :=
    UInt8.toNat_ofNat_of_lt' (Nat.lt_trans hc (by decide))
  induction t with
  | nil => rfl
  | cons d t ih =>
    rw [encode_cons, List.count_append, ih]
    by_cases hd : d.toNat < 0x80
    · rw [encodeChar_ascii hd, List.count_cons, List.count_nil, List.count_cons, Nat.add_comm]
      -- Both are one byte, and two bytes are equal only if the characters are.
      by_cases hcd : d = c
      · rw [hcd, beq_self_eq_true, beq_self_eq_true]
        simp only [if_true, Nat.zero_add]
      · have hne : UInt8.ofNat d.toNat ≠ UInt8.ofNat c.toNat := fun h => by
          have hdval : (UInt8.ofNat d.toNat).toNat = d.toNat :=
            UInt8.toNat_ofNat_of_lt' (Nat.lt_trans hd (by decide))
          rw [← UInt8.toNat_inj, hval, hdval] at h
          exact hcd (Char.toNat_inj.1 h)
        rw [beq_false_of_ne hcd, beq_false_of_ne hne]
        simp only [Bool.false_eq_true, if_false, Nat.zero_add]
    · -- The bytes of a longer character are not below 80, so none of them is counted.
      have hzero : (String.utf8EncodeChar d).count (UInt8.ofNat c.toNat) = 0 := by
        rw [List.count_eq_zero]
        intro hmem
        have hle := le_of_mem_encodeChar hd hmem
        omega
      have hne : d ≠ c := fun h => hd (h ▸ hc)
      rw [hzero, Nat.zero_add, List.count_cons_of_ne hne]

/-- The bytes of a text in ASCII are its characters. -/
theorem mem_encode_of_ascii {t : Text} (ht : ∀ c ∈ t, c.toNat < 0x80) {b : UInt8}
    (hb : b ∈ encode t) : ∃ c ∈ t, b = UInt8.ofNat c.toNat := by
  obtain ⟨c, hc, hbc⟩ := List.mem_flatMap.1 hb
  rw [encodeChar_ascii (ht c hc), List.mem_singleton] at hbc
  exact ⟨c, hc, hbc⟩

end SymbolLog.Utf8
