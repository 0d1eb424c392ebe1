/-
A listing is read back as the symbols it was written from.

The printer puts one member on each line and the reader takes members in any
order, so the argument follows the printer: what each of its functions writes is
first put as one text, and then the reader is run over that text, a member, an
object and the rest of the listing at a time. Two budgets of steps occur in the
reader. Both count things that take at least one character each, so the length of
the text is enough, and that is the only arithmetic here.

The shape of the output is a separate matter. Its characters are printable ASCII
and the line feeds that the layout puts in; the strings contribute none, so the
number of lines depends on the number of symbols alone.
-/
import SymbolLog.Listing.Reader
import SymbolLog.Log.Source
import SymbolLog.Proofs.Blocks
import SymbolLog.Proofs.Json.Quoted

set_option autoImplicit false

namespace SymbolLog.Listing

open Json (Defect skipSpace readText writtenChar)

/-! ## What is written, as texts -/

def stringText (t : Text) : Text := '"' :: (t.flatMap writtenChar ++ ['"'])

/-- A member of an object with the two characters between key and value. -/
def memberText (key value : Text) : Text := stringText key ++ ':' :: ' ' :: stringText value

def memberLead : Text := ['\n', ' ', ' ', ' ', ' ']

/-- The object of a symbol after its opening brace, with its closing brace. -/
def objectText (s : Symbol) : Text :=
  memberLead ++ (memberText "id".toList s.id ++ ',' :: memberLead ++ (memberText "name".toList s.name
    ++ ',' :: memberLead ++ (memberText "description".toList s.description
    ++ ['\n', ' ', ' ', '\x7d'])))

/-- The same after the blanks in front of the first member, with what follows the brace. -/
def membersText (s : Symbol) (rest : Text) : Text :=
  memberText "id".toList s.id ++ ',' :: (memberLead ++ (memberText "name".toList s.name
    ++ ',' :: (memberLead ++ (memberText "description".toList s.description
    ++ (['\n', ' ', ' ', '\x7d'] ++ rest)))))

/-- The symbols after the first and the closing bracket. -/
def othersText : List Symbol → Text
  | [] => ['\n', ']']
  | s :: rest => ',' :: '\n' :: ' ' :: ' ' :: '\x7b' :: (objectText s ++ othersText rest)

theorem objectText_append (s : Symbol) (rest : Text) :
    objectText s ++ rest = memberLead ++ membersText s rest := by
  simp only [objectText, membersText, List.append_assoc, List.cons_append]

theorem flatten_memberPieces (lead key : String) (value : Text) :
    (memberPieces lead key value).flatten
      = lead.toList ++ (memberLead ++ memberText key.toList value) := by
  simp only [memberPieces, List.flatten_append, List.flatten_cons, Json.flatten_quoted,
    memberText, stringText, memberLead, List.cons_append, List.append_assoc, List.nil_append]
  rfl

theorem flatten_symbolPieces (s : Symbol) : (symbolPieces s).flatten = '\x7b' :: objectText s := by
  simp only [symbolPieces, List.flatten_append, List.flatten_singleton, flatten_memberPieces,
    objectText, List.append_assoc]
  rfl

theorem flatten_otherPieces (symbols : List Symbol) :
    (otherPieces symbols).flatten = othersText symbols := by
  induction symbols with
  | nil => rfl
  | cons s rest ih =>
    simp only [otherPieces, List.flatten_append, List.flatten_cons, flatten_symbolPieces, ih,
      othersText, List.cons_append]
    rfl

/-- A listing that is not empty: a bracket, the first object, the others. -/
theorem print_cons (s : Symbol) (rest : List Symbol) :
    print (s :: rest)
      = '[' :: '\n' :: ' ' :: ' ' :: '\x7b' :: (objectText s ++ othersText rest) := by
  simp only [print, pieces, List.flatten_append, List.flatten_cons, flatten_symbolPieces,
    flatten_otherPieces, List.cons_append]
  rfl

/-! ## Reading it back -/

theorem readText_stringText (t rest : Text) :
    readText (t.flatMap writtenChar ++ ['"'] ++ rest) = .ok (t, rest) := by
  rw [List.append_assoc]
  exact Json.readText_written t rest

/-- A member whose key is a field that has not been read yet fills that field. -/
theorem readMember_memberText {fields : Fields} {key : Text} {field : Field}
    (hkey : Field.ofKey? key = some field) (hnew : fields.get? field = none)
    (value rest : Text) :
    readMember fields key (':' :: ' ' :: (stringText value ++ rest))
      = .ok (fields.set value field, rest) := by
  have hcolon : Json.readColon (':' :: ' ' :: (stringText value ++ rest))
      = .ok (stringText value ++ rest) := rfl
  have hstring : readString (stringText value ++ rest) = .ok (value, rest) := by
    rw [stringText, List.cons_append, readString, if_pos rfl]
    exact readText_stringText value rest
  simp only [readMember, hkey, hnew, hcolon]
  rw [if_neg (by decide)]
  show (readString (stringText value ++ rest) >>= _) = _
  rw [hstring]
  rfl

/-- A member that is followed by a comma is put among the fields, and reading goes on. -/
theorem readMembers_comma {fields : Fields} {key : Text} {field : Field}
    (hkey : Field.ofKey? key = some field) (hnew : fields.get? field = none)
    (steps : Nat) (value next : Text) :
    readMembers (steps + 1) fields (memberText key value ++ ',' :: next)
      = readMembers steps (fields.set value field) (skipSpace next) := by
  rw [memberText, stringText, List.append_assoc, List.cons_append, readMembers, if_pos rfl,
    readText_stringText]
  show (readMember fields key (':' :: ' ' :: (stringText value ++ ',' :: next)) >>= _) = _
  rw [readMember_memberText hkey hnew]
  rfl

/-- After the last member, the brace closes the symbol that the fields make up. -/
theorem readMembers_close {fields : Fields} {key value : Text} {field : Field} {s : Symbol}
    (hkey : Field.ofKey? key = some field) (hnew : fields.get? field = none)
    (hall : (fields.set value field).symbol? = some s) (steps : Nat) (rest : Text) :
    readMembers (steps + 1) fields
        (memberText key value ++ (['\n', ' ', ' ', '\x7d'] ++ rest))
      = .ok (s, rest) := by
  rw [memberText, stringText, List.append_assoc, List.cons_append, readMembers, if_pos rfl,
    readText_stringText]
  show (readMember fields key
      (':' :: ' ' :: (stringText value ++ (['\n', ' ', ' ', '\x7d'] ++ rest))) >>= _) = _
  have hskip : skipSpace (['\n', ' ', ' ', '\x7d'] ++ rest) = '\x7d' :: rest := rfl
  rw [readMember_memberText hkey hnew]
  simp only [bind, Except.bind, hskip, if_true, hall]

/-- Three members are three steps, each of which fills one more field. -/
theorem readMembers_membersText (s : Symbol) (rest : Text) (k : Nat) :
    readMembers (k + 3) Fields.empty (membersText s rest) = .ok (s, rest) :=
  calc readMembers (k + 3) Fields.empty (membersText s rest)
      = readMembers (k + 2) (Fields.empty.set s.id .id) _ :=
        readMembers_comma rfl rfl (k + 2) s.id _
    _ = readMembers (k + 1) ((Fields.empty.set s.id .id).set s.name .name) _ :=
        readMembers_comma rfl rfl (k + 1) s.name _
    _ = .ok (s, rest) := readMembers_close rfl rfl rfl k rest

/-- An object is read as the symbol for which it was written, whatever follows. -/
theorem readObject_objectText (s : Symbol) (rest : Text) :
    readObject (objectText s ++ rest) = .ok (s, rest) := by
  have hskip : skipSpace (memberLead ++ membersText s rest) = membersText s rest := rfl
  have hread : readObject (memberLead ++ membersText s rest)
      = readMembers ((membersText s rest).tail.length + 1) Fields.empty (membersText s rest) := by
    rw [readObject, hskip]
    rfl
  -- The reader is given a step for each character, and the keys alone are more than three.
  obtain ⟨k, hk⟩ : ∃ k, (membersText s rest).tail.length + 1 = k + 3 := by
    refine ⟨(membersText s rest).tail.length - 2, ?_⟩
    simp only [membersText, memberText, stringText, List.cons_append, List.tail_cons,
      List.length_append, List.length_cons]
    omega
  rw [objectText_append, hread, hk]
  exact readMembers_membersText s rest k

theorem readSymbol_objectText (s : Symbol) (rest : Text) :
    readSymbol ('\x7b' :: (objectText s ++ rest)) = .ok (s, rest) :=
  readObject_objectText s rest

/-- The symbols of a listing are read one after the other, if there are at least as
many steps as symbols. -/
theorem readSymbols_othersText (s : Symbol) (rest : List Symbol) {steps : Nat}
    (hsteps : rest.length < steps) :
    readSymbols steps ('\x7b' :: (objectText s ++ othersText rest)) = .ok (s :: rest, []) := by
  induction rest generalizing s steps with
  | nil =>
    obtain ⟨k, rfl⟩ : ∃ k, steps = k + 1 := ⟨steps - 1, by omega⟩
    rw [readSymbols, readSymbol_objectText]
    rfl
  | cons next rest ih =>
    rw [List.length_cons] at hsteps
    obtain ⟨k, rfl⟩ : ∃ k, steps = k + 1 := ⟨steps - 1, by omega⟩
    rw [readSymbols, readSymbol_objectText]
    show (readSymbols k ('\x7b' :: (objectText next ++ othersText rest)) >>= _) = _
    rw [ih next (by omega)]
    rfl

/-- There are no more objects than characters, so as many steps as characters are enough. -/
theorem length_le_length_othersText (symbols : List Symbol) :
    symbols.length ≤ (othersText symbols).length := by
  induction symbols with
  | nil => exact Nat.zero_le _
  | cons s rest ih =>
    rw [othersText, List.length_cons, List.length_cons, List.length_cons, List.length_cons,
      List.length_cons, List.length_cons, List.length_append]
    omega

/-- **What is printed is loaded**: the same symbols in the same order. -/
theorem load_print (symbols : List Symbol) : load (print symbols) = .ok symbols := by
  cases symbols with
  | nil => rfl
  | cons s rest =>
    -- The steps are the characters of the text, and every symbol takes one at least.
    have hlength := length_le_length_othersText rest
    have hbody : readBody ('\n' :: ' ' :: ' ' :: '\x7b' :: (objectText s ++ othersText rest))
        = readSymbols ((objectText s ++ othersText rest).length + 1)
            ('\x7b' :: (objectText s ++ othersText rest)) := rfl
    rw [print_cons]
    show (readBody ('\n' :: ' ' :: ' ' :: '\x7b' :: (objectText s ++ othersText rest)) >>= _) = _
    rw [hbody, readSymbols_othersText s rest (by rw [List.length_append]; omega)]
    rfl

/-! ## The characters of a listing -/

def isPlain (c : Char) : Bool := Json.isPrintable c || c = '\n'

theorem isPrintable_of_mem_stringText {c : Char} {t : Text} (h : c ∈ stringText t) :
    Json.isPrintable c = true := by
  rw [stringText, ← Json.flatten_quoted] at h
  exact Json.isPrintable_of_mem_quoted h

/-- A member is on one line, since all that is written in it is printable. -/
theorem isPrintable_of_mem_memberText {c : Char} {key value : Text}
    (h : c ∈ memberText key value) : Json.isPrintable c = true := by
  simp only [memberText, List.mem_append, List.mem_cons] at h
  obtain h | rfl | rfl | h := h
  · exact isPrintable_of_mem_stringText h
  · rfl
  · rfl
  · exact isPrintable_of_mem_stringText h

/-- An object has line feeds between its members and printable characters otherwise. -/
theorem isPlain_of_mem_objectText {c : Char} {s : Symbol} (h : c ∈ objectText s) :
    isPlain c = true := by
  have hlead : ∀ d ∈ memberLead, isPlain d = true := List.all_eq_true.1 rfl
  have hclose : ∀ d ∈ ['\n', ' ', ' ', '\x7d'], isPlain d = true := List.all_eq_true.1 rfl
  have hmember : ∀ {key value : Text}, c ∈ memberText key value → isPlain c = true :=
    fun hc => by rw [isPlain, isPrintable_of_mem_memberText hc, Bool.true_or]
  simp only [objectText, List.append_assoc, List.mem_append, List.cons_append, List.mem_cons] at h
  -- The object is taken apart in the order in which it is written.
  obtain h | h | rfl | h | h | rfl | h | h | h := h
  · exact hlead c h
  · exact hmember h
  · rfl
  · exact hlead c h
  · exact hmember h
  · rfl
  · exact hlead c h
  · exact hmember h
  · exact hclose c (by simpa only [List.mem_cons, List.not_mem_nil, or_false] using h)

theorem isPlain_of_mem_othersText {c : Char} {symbols : List Symbol}
    (h : c ∈ othersText symbols) : isPlain c = true := by
  induction symbols with
  | nil =>
    have hend : ∀ d ∈ othersText [], isPlain d = true := List.all_eq_true.1 rfl
    exact hend c h
  | cons s rest ih =>
    simp only [othersText, List.mem_cons, List.mem_append] at h
    obtain rfl | rfl | rfl | rfl | rfl | h | h := h
    · rfl
    · rfl
    · rfl
    · rfl
    · rfl
    · exact isPlain_of_mem_objectText h
    · exact ih h

theorem isPlain_of_mem_print {c : Char} {symbols : List Symbol} (h : c ∈ print symbols) :
    isPlain c = true := by
  cases symbols with
  | nil =>
    have hempty : ∀ d ∈ print [], isPlain d = true := List.all_eq_true.1 rfl
    exact hempty c h
  | cons s rest =>
    -- But for the bracket, a listing is what follows the comma of a longer one.
    have hothers : c = '[' ∨ c ∈ othersText (s :: rest) := by
      rw [print_cons, List.mem_cons] at h
      rw [othersText, List.mem_cons]
      exact h.imp_right Or.inr
    obtain rfl | h := hothers
    · rfl
    · exact isPlain_of_mem_othersText h

theorem count_memberText (key value : Text) : (memberText key value).count '\n' = 0 := by
  rw [List.count_eq_zero]
  intro h
  exact absurd (isPrintable_of_mem_memberText h) (by decide)

/-- An object takes four lines: one for each member and one for its closing brace. -/
theorem count_objectText (s : Symbol) : (objectText s).count '\n' = 4 := by
  simp only [objectText, memberLead, List.count_append, List.count_cons, count_memberText,
    List.count_nil]
  rfl

/-- Every further symbol adds the line on which it opens. -/
theorem count_othersText (symbols : List Symbol) :
    (othersText symbols).count '\n' = 5 * symbols.length + 1 := by
  induction symbols with
  | nil => rfl
  | cons s rest ih =>
    simp only [othersText, List.count_cons, List.count_append, count_objectText, ih,
      List.length_cons]
    simp only [show (' ' == '\n') = false from rfl, show (',' == '\n') = false from rfl,
      show ('\x7b' == '\n') = false from rfl, show ('\n' == '\n') = true from rfl]
    simp only [Bool.false_eq_true, if_false, if_true]
    omega

/-- Five lines for each symbol, and one for the opening bracket. -/
theorem count_print (symbols : List Symbol) :
    (print symbols).count '\n' = if symbols = [] then 0 else 5 * symbols.length + 1 := by
  cases symbols with
  | nil => rfl
  | cons s rest =>
    have hothers := count_othersText (s :: rest)
    rw [othersText, List.count_cons_of_ne (by decide)] at hothers
    rw [print_cons, List.count_cons_of_ne (by decide), hothers, if_neg (List.cons_ne_nil s rest)]

/-! ## The bytes of a listing -/

theorem byte_of_isPlain {c : Char} (h : isPlain c = true) :
    c.toNat < 0x80 ∧ (0x20 ≤ UInt8.ofNat c.toNat ∧ UInt8.ofNat c.toNat ≤ 0x7E ∨
      UInt8.ofNat c.toNat = Source.lineFeed) := by
  simp only [isPlain, Json.isPrintable, Bool.or_eq_true, Bool.and_eq_true, decide_eq_true_eq] at h
  obtain ⟨hlow, hhigh⟩ | rfl := h
  · have hlow' : 0x20 ≤ c.toNat := hlow
    have hhigh' : c.toNat ≤ 0x7E := hhigh
    have hval : (UInt8.ofNat c.toNat).toNat = c.toNat :=
      UInt8.toNat_ofNat_of_lt' (Nat.lt_of_le_of_lt hhigh' (by decide))
    refine ⟨by omega, .inl ⟨?_, ?_⟩⟩
    · rw [UInt8.le_iff_toNat_le, hval]
      exact hlow'
    · rw [UInt8.le_iff_toNat_le, hval]
      exact hhigh'
  · exact ⟨by decide, .inr rfl⟩

/-- **A listing loses nothing and is plain ASCII.** Whatever the fields of the symbols
hold, the bytes that are sent are printable or line feeds; how many line feeds there
are depends on the number of symbols alone; and reading the bytes gives the same
symbols in the same order. -/
theorem listing_lossless (symbols : List Symbol) (extra : Nat) (fault : Fault) :
    let bytes := Format.json.render symbols
    Format.json.send ⟨bytes.length + extra, fault⟩ symbols = (bytes, none) ∧
      (∀ b ∈ bytes, 0x20 ≤ b ∧ b ≤ 0x7E ∨ b = Source.lineFeed) ∧
      bytes.count Source.lineFeed = (if symbols = [] then 0 else 5 * symbols.length + 1) ∧
      ∃ t, Utf8.decode bytes = .ok t ∧ load t = .ok symbols := by
  have hascii : ∀ c ∈ print symbols, c.toNat < 0x80 := fun c hc =>
    (byte_of_isPlain (isPlain_of_mem_print hc)).1
  refine ⟨Format.send_of_le (Nat.le_add_right _ _), ?_, ?_, print symbols, ?_, load_print symbols⟩
  · intro b hb
    obtain ⟨c, hc, rfl⟩ := Utf8.mem_encode_of_ascii hascii hb
    exact (byte_of_isPlain (isPlain_of_mem_print hc)).2
  · rw [← count_print symbols]
    exact Utf8.count_encode (c := '\n') (by decide) (print symbols)
  · exact Utf8.decode_encode (print symbols)

end SymbolLog.Listing
