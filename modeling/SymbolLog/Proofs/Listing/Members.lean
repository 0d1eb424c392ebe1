/-
What the elements of a listing describe.

An element describes a symbol as three strings or as an object. Of an object only the members
count whose keys spell the name of a field, and each field has to have exactly one, with a string
that spells a text. So an object is told by three short lists, what its members say about each of
the fields (`told`); it describes a symbol if each of them holds one text, that of the symbol
(`told_eq_singleton_iff`).

The lists serve two ends. They do not change when members change places, when a string is spelled
in another way or when a member with another key is put in, so neither does the symbol
(`Reformats.describes_iff`). And they come apart at the first member: it is one that the fields
read so far can take in, and the rest completes what the fields are then (`completes_cons`). That
is the step of the reader.
-/
import Mathlib.Data.List.Forall2
import SymbolLog.Listing.Reader
import SymbolLog.Proofs.Json.Decoding

set_option autoImplicit false

namespace SymbolLog.Listing

open Json (Decodes Member Piece Value textOf? textOf?_eq_some_iff)

/-- A string spells one text at most. -/
theorem decodes_unique {pieces : List Piece} {t t' : Text} (h : Decodes pieces t)
    (h' : Decodes pieces t') : t = t' :=
  Option.some.inj ((textOf?_eq_some_iff.2 h).symm.trans (textOf?_eq_some_iff.2 h'))

/-- Characters that are written as they are spell themselves. -/
theorem decodes_chars (t : Text) : Decodes (t.map .char) t := by
  induction t with
  | nil => exact .nil
  | cons c t ih => exact .char ih

/-! ## Fields -/

/-- The key of a field. -/
def Field.key : Field → Text
  | .id => "id".toList
  | .name => "name".toList
  | .description => "description".toList

/-- What a symbol has in a field. -/
def Field.of (s : Symbol) : Field → Text
  | .id => s.id
  | .name => s.name
  | .description => s.description

/-- A key is that of a field if and only if it is the name of the field. -/
theorem Field.ofKey?_eq_some_iff {key : Text} {field : Field} :
    Field.ofKey? key = some field ↔ key = field.key := by
  constructor
  · intro h
    rw [Field.ofKey?] at h
    split at h
    next hkey =>
      cases h
      exact hkey
    split at h
    next hkey =>
      cases h
      exact hkey
    split at h
    next hkey =>
      cases h
      exact hkey
    · cases h
  · rintro rfl
    cases field with
    | id => rfl
    | name => rfl
    | description => rfl

theorem Field.key_injective {field field' : Field} (h : field.key = field'.key) :
    field = field' := by
  have hread := Field.ofKey?_eq_some_iff.2 h
  rw [Field.ofKey?_eq_some_iff.2 rfl] at hread
  exact Option.some.inj hread

namespace Fields

theorem get?_set (fields : Fields) (value : Text) (field : Field) :
    (fields.set value field).get? field = some value := by
  cases field with
  | id => rfl
  | name => rfl
  | description => rfl

theorem get?_set_of_ne (fields : Fields) (value : Text) {field other : Field} (h : other ≠ field) :
    (fields.set value field).get? other = fields.get? other := by
  cases field <;> cases other <;> first | rfl | exact absurd rfl h

theorem get?_empty (field : Field) : empty.get? field = none := by
  cases field with
  | id => rfl
  | name => rfl
  | description => rfl

theorem symbol?_eq_some_iff {fields : Fields} {s : Symbol} :
    fields.symbol? = some s ↔ ∀ field : Field, fields.get? field = some (field.of s) := by
  obtain ⟨id, name, description⟩ := fields
  constructor
  · intro h
    -- A field that is missing leaves no symbol, so all three are there.
    cases id with
    | none => cases h
    | some id =>
      cases name with
      | none => cases h
      | some name =>
        cases description with
        | none => cases h
        | some description =>
          cases h
          rintro (_ | _ | _)
          · rfl
          · rfl
          · rfl
  · intro h
    have hid : id = some s.id := h .id
    have hname : name = some s.name := h .name
    have hdescription : description = some s.description := h .description
    rw [hid, hname, hdescription]
    rfl

end Fields

/-! ## What an element describes -/

/-- A value is a string that spells a text. -/
def IsText (v : Value) (t : Text) : Prop := ∃ pieces, v = .string pieces ∧ Decodes pieces t

/-- The text of a value is the one that it spells, if it is a string that spells one. -/
theorem text?_eq_some_iff {v : Value} {t : Text} : v.text? = some t ↔ IsText v t := by
  constructor
  · intro h
    cases v with
    | string pieces => exact ⟨pieces, rfl, textOf?_eq_some_iff.1 h⟩
    | null => cases h
    | bool _ => cases h
    | number _ => cases h
    | array _ => cases h
    | object _ => cases h
  · rintro ⟨pieces, rfl, ht⟩
    exact textOf?_eq_some_iff.2 ht

/-- One of the members has a key, no other one has it, and its value spells a text. -/
def IsOnly (key : Text) (members : List Member) (text : Text) : Prop :=
  ∃ before k v after, members = before ++ (k, v) :: after ∧ Decodes k key ∧ IsText v text ∧
    ∀ other ∈ before ++ after, ¬ Decodes other.1 key

/-- An element describes a symbol: as the three texts in their order, or as an object in which
every key spells a text and each field has its only member. -/
inductive Describes : Value → Symbol → Prop where
  | triple {id name description : Value} {s : Symbol} (hid : IsText id s.id)
    (hname : IsText name s.name) (hdescription : IsText description s.description) :
    Describes (.array [id, name, description]) s
  | object {members : List Member} {s : Symbol}
    (hkeys : ∀ member ∈ members, ∃ key, Decodes member.1 key)
    (hfields : ∀ field : Field, IsOnly field.key members (field.of s)) :
    Describes (.object members) s

/-! ## What members tell -/

/-- What the members with the key of a field hold, in their order. -/
def told (members : List Member) (field : Field) : List (Option Text) :=
  (members.filter fun member => textOf? member.1 = some field.key).map fun member => member.2.text?

section
variable {key : List Piece} {v : Value} {members : List Member} {field : Field}

/-- A member with the key of a field tells of the field, even if it has no text to tell. -/
theorem told_cons_of_decodes (h : Decodes key field.key) :
    told ((key, v) :: members) field = v.text? :: told members field := by
  rw [told, List.filter_cons_of_pos (by simpa using textOf?_eq_some_iff.2 h), List.map_cons, told]

theorem told_cons_of_not_decodes (h : ¬ Decodes key field.key) :
    told ((key, v) :: members) field = told members field := by
  rw [told, List.filter_cons_of_neg (by simpa using mt textOf?_eq_some_iff.1 h), told]

theorem told_append (before after : List Member) (field : Field) :
    told (before ++ after) field = told before field ++ told after field := by
  rw [told, List.filter_append, List.map_append, told, told]

theorem told_eq_nil_iff : told members field = [] ↔ ∀ m ∈ members, ¬ Decodes m.1 field.key := by
  rw [told, List.map_eq_nil_iff, List.filter_eq_nil_iff]
  simp only [decide_eq_true_eq, textOf?_eq_some_iff]

/-- **A field is told once if it has its only member.** -/
theorem told_eq_singleton_iff {text : Text} :
    told members field = [some text] ↔ IsOnly field.key members text := by
  constructor
  · intro h
    obtain ⟨⟨k, v⟩, honly, hv⟩ := List.map_eq_singleton_iff.1 h
    -- The only member that is kept splits the list into what is left out before it and behind it.
    obtain ⟨before, after, rfl, hbefore, hk, hafter⟩ := List.filter_eq_cons_iff.1 honly
    rw [List.filter_eq_nil_iff] at hafter
    simp only [decide_eq_true_eq, textOf?_eq_some_iff] at hbefore hk hafter
    refine ⟨before, k, v, after, rfl, hk, text?_eq_some_iff.1 hv, ?_⟩
    exact List.forall_mem_append.2 ⟨hbefore, hafter⟩
  · rintro ⟨before, k, v, after, rfl, hk, hv, hothers⟩
    obtain ⟨hbefore, hafter⟩ := List.forall_mem_append.1 hothers
    rw [told_append, told_cons_of_decodes hk, told_eq_nil_iff.2 hbefore, told_eq_nil_iff.2 hafter,
      text?_eq_some_iff.2 hv, List.nil_append]

/-- An object describes a symbol if every field is told once, and with the text of the symbol. -/
theorem describes_object_iff {s : Symbol} :
    Describes (.object members) s ↔ (∀ member ∈ members, ∃ key, Decodes member.1 key) ∧
      ∀ field : Field, told members field = [some (field.of s)] := by
  constructor
  · rintro ⟨⟩
    next hkeys hfields => exact ⟨hkeys, fun field => told_eq_singleton_iff.2 (hfields field)⟩
  · rintro ⟨hkeys, htold⟩
    exact .object hkeys fun field => told_eq_singleton_iff.1 (htold field)

end

theorem describes_array_iff {values : List Value} {s : Symbol} :
    Describes (.array values) s ↔
      values.map Value.text? = [some s.id, some s.name, some s.description] := by
  constructor
  · rintro ⟨⟩
    next hid hname hdescription =>
      simp only [List.map_cons, List.map_nil, text?_eq_some_iff.2 hid, text?_eq_some_iff.2 hname,
        text?_eq_some_iff.2 hdescription]
  · intro h
    simp only [List.map_eq_cons_iff, List.map_eq_nil_iff, text?_eq_some_iff] at h
    obtain ⟨id, _, rfl, hid, name, _, rfl, hname, description, _, rfl, hdescription, rfl⟩ := h
    exact .triple hid hname hdescription

/-! ## The same symbol written in another way -/

/-- Two values are the same, or two spellings of one text. -/
def SameText (v v' : Value) : Prop := v = v' ∨ ∃ text, IsText v text ∧ IsText v' text

/-- Two spellings of one key, with the same text; what a member with another key than those of the
fields holds is free. -/
def SameMember (member member' : Member) : Prop :=
  ∃ key, Decodes member.1 key ∧ Decodes member'.1 key ∧
    (SameText member.2 member'.2 ∨ Field.ofKey? key = none)

/-- The members of an object in another order, in other spellings, with others put in or left
out. -/
inductive MembersReformat : List Member → List Member → Prop where
  | order {members members' : List Member} (h : members.Perm members') :
    MembersReformat members members'
  | spelling {members members' : List Member} (h : List.Forall₂ SameMember members members') :
    MembersReformat members members'
  | extra {key : List Piece} {k : Text} {v : Value} {members : List Member} (hkey : Decodes key k)
    (hother : Field.ofKey? k = none) : MembersReformat members ((key, v) :: members)
  | symm {members members' : List Member} (h : MembersReformat members members') :
    MembersReformat members' members
  | trans {members members' members'' : List Member} (h : MembersReformat members members')
    (h' : MembersReformat members' members'') : MembersReformat members members''

/-- An element and the same element written in another way. -/
inductive Reformats : Value → Value → Prop where
  | same (v : Value) : Reformats v v
  | array {values values' : List Value} (h : List.Forall₂ SameText values values') :
    Reformats (.array values) (.array values')
  | object {members members' : List Member} (h : MembersReformat members members') :
    Reformats (.object members) (.object members')

theorem SameText.text?_eq {v v' : Value} (h : SameText v v') : v.text? = v'.text? := by
  obtain rfl | ⟨text, hv, hv'⟩ := h
  · rfl
  · rw [text?_eq_some_iff.2 hv, text?_eq_some_iff.2 hv']

theorem not_decodes_of_ofKey? {key : List Piece} {k : Text} (hkey : Decodes key k)
    (hother : Field.ofKey? k = none) (field : Field) : ¬ Decodes key field.key := by
  intro h
  rw [Field.ofKey?_eq_some_iff.2 (decodes_unique hkey h)] at hother
  cases hother

/-- What is told does not depend on how the first member is spelled. -/
theorem SameMember.told_cons {member member' : Member} (h : SameMember member member')
    {members members' : List Member} {field : Field}
    (htail : told members field = told members' field) :
    told (member :: members) field = told (member' :: members') field := by
  obtain ⟨key, v⟩ := member
  obtain ⟨key', v'⟩ := member'
  obtain ⟨k, hkey, hkey', hv⟩ := h
  by_cases hfield : k = field.key
  · subst hfield
    -- The key is that of the field, so the text is the same.
    have hsame : SameText v v' := by
      refine hv.resolve_right fun hother => ?_
      rw [Field.ofKey?_eq_some_iff.2 rfl] at hother
      cases hother
    rw [told_cons_of_decodes hkey, told_cons_of_decodes hkey', hsame.text?_eq, htail]
  · -- Another key in one spelling is another key in any.
    have hnot {key : List Piece} (hkey : Decodes key k) : ¬ Decodes key field.key := fun h =>
      hfield (decodes_unique hkey h)
    rw [told_cons_of_not_decodes (hnot hkey), told_cons_of_not_decodes (hnot hkey'), htail]

theorem told_eq_of_spelling {members members' : List Member}
    (h : List.Forall₂ SameMember members members') (field : Field) :
    told members field = told members' field := by
  induction h with
  | nil => rfl
  | cons hmember _ ih => exact hmember.told_cons ih

theorem keys_iff_of_spelling {members members' : List Member}
    (h : List.Forall₂ SameMember members members') :
    (∀ member ∈ members, ∃ key, Decodes member.1 key) ↔
      ∀ member ∈ members', ∃ key, Decodes member.1 key := by
  induction h with
  | nil => exact Iff.rfl
  | cons hmember _ ih =>
    obtain ⟨key, hkey, hkey', -⟩ := hmember
    rw [List.forall_mem_cons, List.forall_mem_cons, ih]
    exact and_congr_left fun _ => ⟨fun _ => ⟨key, hkey'⟩, fun _ => ⟨key, hkey⟩⟩

/-- The members of an object written in another way tell as much, and either all keys spell texts
in both or in neither. -/
theorem MembersReformat.preserves {members members' : List Member}
    (h : MembersReformat members members') :
    ((∀ member ∈ members, ∃ key, Decodes member.1 key) ↔
        ∀ member ∈ members', ∃ key, Decodes member.1 key) ∧
      ∀ field : Field, (told members field).Perm (told members' field) := by
  induction h with
  | order h =>
    refine ⟨?_, fun field => (h.filter _).map _⟩
    simp only [h.mem_iff]
  | spelling h =>
    exact ⟨keys_iff_of_spelling h, fun field => .of_eq (told_eq_of_spelling h field)⟩
  | @extra key k v members hkey hother =>
    constructor
    · rw [List.forall_mem_cons]
      exact (and_iff_right ⟨k, hkey⟩).symm
    · intro field
      rw [told_cons_of_not_decodes (not_decodes_of_ofKey? hkey hother field)]
  | symm _ ih => exact ⟨ih.1.symm, fun field => (ih.2 field).symm⟩
  | trans _ _ ih ih' => exact ⟨ih.1.trans ih'.1, fun field => (ih.2 field).trans (ih'.2 field)⟩

/-- **How an element is written does not matter** for the symbol that it describes. -/
theorem Reformats.describes_iff {v v' : Value} (h : Reformats v v') (s : Symbol) :
    Describes v s ↔ Describes v' s := by
  cases h with
  | same => exact Iff.rfl
  | @array values values' h =>
    have htexts : values.map Value.text? = values'.map Value.text? := by
      induction h with
      | nil => rfl
      | cons hv _ ih => rw [List.map_cons, List.map_cons, hv.text?_eq, ih]
    rw [describes_array_iff, describes_array_iff, htexts]
  | @object members members' h =>
    obtain ⟨hkeys, htold⟩ := h.preserves
    -- Members that change places change the order of what is told, but one text has no order.
    have hsingle (field : Field) :
        told members field = [some (field.of s)] ↔ told members' field = [some (field.of s)] := by
      constructor
      · intro h
        exact List.perm_singleton.1 (h ▸ (htold field).symm)
      · intro h
        exact List.perm_singleton.1 (h ▸ htold field)
    rw [describes_object_iff, describes_object_iff, hkeys, forall_congr' hsingle]

/-! ## Objects that describe nothing -/

/-- What can be wrong with the members for a key: there is none, there are two, or one holds
something else than a string that spells a text. -/
inductive IsFlawed (key : Text) : List Member → Prop where
  | missing {members : List Member} (h : ∀ member ∈ members, ¬ Decodes member.1 key) :
    IsFlawed key members
  | repeated {before between after : List Member} {k k' : List Piece} {v v' : Value}
    (hk : Decodes k key) (hk' : Decodes k' key) :
    IsFlawed key (before ++ (k, v) :: (between ++ (k', v') :: after))
  | noText {members : List Member} {k : List Piece} {v : Value} (hmember : (k, v) ∈ members)
    (hk : Decodes k key) (hv : ∀ text, ¬ IsText v text) : IsFlawed key members

/-- **An object with a flaw in a field describes no symbol.** -/
theorem IsFlawed.not_describes {members : List Member} {field : Field}
    (h : IsFlawed field.key members) (s : Symbol) : ¬ Describes (.object members) s := by
  rw [describes_object_iff]
  rintro ⟨-, htold⟩
  have honly := htold field
  cases h with
  | missing h =>
    rw [told_eq_nil_iff.2 h] at honly
    cases honly
  | repeated hk hk' =>
    have hlength := congrArg List.length honly
    rw [told_append, told_cons_of_decodes hk, told_append, told_cons_of_decodes hk'] at hlength
    simp only [List.length_append, List.length_cons, List.length_nil] at hlength
    omega
  | @noText _ k v hmember hk hv =>
    have hmem : v.text? ∈ told members field := by
      refine List.mem_map.2 ⟨(k, v), List.mem_filter.2 ⟨hmember, ?_⟩, rfl⟩
      exact decide_eq_true (textOf?_eq_some_iff.2 hk)
    rw [honly, List.mem_singleton] at hmem
    exact hv _ (text?_eq_some_iff.1 hmem)

/-! ## Members taken one by one -/

/-- How a member is taken in: one with a field's key fills the field, which has to be empty, and
any other leaves the fields as they are. -/
inductive Takes (fields : Fields) (key : Text) (v : Value) : Fields → Prop where
  | other (hother : Field.ofKey? key = none) : Takes fields key v fields
  | field {field : Field} {text : Text} (hkey : Field.ofKey? key = some field)
    (hnew : fields.get? field = none) (htext : IsText v text) :
    Takes fields key v (fields.set text field)

/-- What is known of a field: the text that has been read, and what the members that are still to
come tell. -/
def known (fields : Fields) (members : List Member) (field : Field) : List (Option Text) :=
  (fields.get? field).toList.map some ++ told members field

/-- Fields that have been read and members that are still to come make up a symbol. -/
def Completes (fields : Fields) (members : List Member) (s : Symbol) : Prop :=
  (∀ member ∈ members, ∃ key, Decodes member.1 key) ∧
    ∀ field : Field, known fields members field = [some (field.of s)]

/-- At the start all is still to come, so the members have to describe the symbol by themselves.
-/
theorem completes_empty_iff {members : List Member} {s : Symbol} :
    Completes Fields.empty members s ↔ Describes (.object members) s := by
  simp only [Completes, known, Fields.get?_empty, Option.toList_none, List.map_nil,
    List.nil_append, describes_object_iff]

/-- At the end nothing is to come, so the fields have to be those of the symbol. -/
theorem completes_nil {fields : Fields} {s : Symbol} :
    Completes fields [] s ↔ fields.symbol? = some s := by
  rw [Fields.symbol?_eq_some_iff]
  constructor
  · rintro ⟨-, h⟩ field
    have hfield := h field
    rw [known] at hfield
    cases hget : fields.get? field with
    | none =>
      rw [hget] at hfield
      cases hfield
    | some text =>
      rw [hget] at hfield
      cases hfield
      rfl
  · intro h
    refine ⟨nofun, fun field => ?_⟩
    rw [known, h field]
    rfl

section
variable {fields fields' : Fields} {key : List Piece} {k : Text} {v : Value}
  {members : List Member} {s : Symbol}

/-- Taking a member in moves what it tells to what has been read. -/
theorem Takes.known_eq (h : Takes fields k v fields') (hkey : Decodes key k)
    (members : List Member) (field : Field) :
    known fields ((key, v) :: members) field = known fields' members field := by
  cases h with
  | other hother =>
    rw [known, told_cons_of_not_decodes (not_decodes_of_ofKey? hkey hother field), known]
  | @field filled text hfilled hnew htext =>
    obtain rfl := Field.ofKey?_eq_some_iff.1 hfilled
    rw [known, known]
    -- The text moves from the members to the fields, and the other fields are left as they are.
    by_cases hfield : field = filled
    · subst hfield
      rw [told_cons_of_decodes hkey, hnew, Fields.get?_set, text?_eq_some_iff.2 htext]
      rfl
    · have hnot : ¬ Decodes key field.key := fun h =>
        hfield (Field.key_injective (decodes_unique h hkey))
      rw [told_cons_of_not_decodes hnot, Fields.get?_set_of_ne _ _ hfield]

/-- A member that does not stand in the way of a symbol can be taken in. -/
theorem Completes.exists_takes (h : Completes fields ((key, v) :: members) s)
    (hkey : Decodes key k) : ∃ fields', Takes fields k v fields' := by
  cases hfield : Field.ofKey? k with
  | none => exact ⟨fields, .other hfield⟩
  | some field =>
    obtain rfl := Field.ofKey?_eq_some_iff.1 hfield
    have honly := h.2 field
    rw [known, told_cons_of_decodes hkey] at honly
    cases hnew : fields.get? field with
    | some text =>
      -- Then there would be two texts for the field, the one that has been read and this one.
      rw [hnew] at honly
      cases honly
    | none =>
      rw [hnew] at honly
      have htext : v.text? = some (field.of s) := (List.cons.inj honly).1
      exact ⟨_, .field hfield hnew (text?_eq_some_iff.1 htext)⟩

/-- **The step of a reader**: the first member is taken in, and the others complete what the fields
are then. -/
theorem completes_cons (hkey : Decodes key k) :
    Completes fields ((key, v) :: members) s ↔
      ∃ fields', Takes fields k v fields' ∧ Completes fields' members s := by
  constructor
  · intro h
    obtain ⟨fields', htakes⟩ := h.exists_takes hkey
    refine ⟨fields', htakes, fun member hmember => h.1 member (List.mem_cons_of_mem _ hmember), ?_⟩
    intro field
    rw [← htakes.known_eq hkey]
    exact h.2 field
  · rintro ⟨fields', htakes, hkeys, hknown⟩
    refine ⟨List.forall_mem_cons.2 ⟨⟨k, hkey⟩, hkeys⟩, fun field => ?_⟩
    rw [htakes.known_eq hkey]
    exact hknown field

end

end SymbolLog.Listing
