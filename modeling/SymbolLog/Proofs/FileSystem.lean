/-
Writing a file does not move any other.

Paths are resolved by walking through directories, and a walk asks nothing of the
places on its way but that they are directories. So whatever is resolved in one file
system is resolved, and to the same end, in every other one with the same directories
(`locate_congr`, `createAt_congr`). A file is only ever written where no directory
stands, so writing it leaves the directories as they are. Paths that are refused may be
refused for another reason afterwards, for instance because they now lead through a
file, and nothing is said about them but that they are still refused.

What is written is found again under the path that it was written to
(`contents?_of_createAt`), however the path is spelled.
-/
import SymbolLog.FileSystem
import SymbolLog.Proofs.Log.Chunks
import SymbolLog.Proofs.Steps

set_option autoImplicit false

namespace SymbolLog.FileSystem

/-! ## Paths in file systems with the same directories -/

/-- Two file systems differ in files at most: in which there are, and in what they hold. -/
structure SameButFiles (fs other : FileSystem) : Prop where
  directories : ∀ place, other.node place = some .directory ↔ fs.node place = some .directory
  working : other.working = fs.working
  sink : other.sink = fs.sink
  elapsed : other.elapsed = fs.elapsed

theorem SameButFiles.refl (fs : FileSystem) : SameButFiles fs fs :=
  ⟨fun _ => Iff.rfl, rfl, rfl, rfl⟩

theorem SameButFiles.trans {fs other last : FileSystem} (h : SameButFiles fs other)
    (hlast : SameButFiles other last) : SameButFiles fs last :=
  ⟨fun place => (hlast.directories place).trans (h.directories place),
    hlast.working.trans h.working, hlast.sink.trans h.sink, hlast.elapsed.trans h.elapsed⟩

/-- A file is written where no directory is, and leaves none. -/
theorem sameButFiles_set {fs : FileSystem} {at_ : Place} {contents : Bytes}
    (hfile : fs.node at_ ≠ some .directory) :
    SameButFiles fs (fs.set at_ (.file contents)) where
  directories := by
    intro place
    by_cases hplace : place = at_
    · rw [hplace, node_set_same]
      exact ⟨nofun, fun h => absurd h hfile⟩
    · rw [node_set_other fs _ hplace]
  working := rfl
  sink := rfl
  elapsed := rfl

/-- A name that is short enough and no dot name leads to a directory and to nothing else. -/
theorem enter_eq_ok_iff {fs : FileSystem} {place next : Place} {name : Text}
    (hself : name ≠ selfName) (hparent : name ≠ parentName)
    (hshort : ¬ nameLimit < Utf8.size name) :
    fs.enter place name = .ok next ↔
      fs.node (place.child name) = some .directory ∧ next = place.child name := by
  rw [enter, if_neg hself, if_neg hparent, if_neg hshort]
  rcases fs.node (place.child name) with _ | _ | contents
  · exact ⟨nofun, nofun⟩
  · exact ⟨fun h => ⟨rfl, (Except.ok.inj h).symm⟩, fun h => h.2 ▸ rfl⟩
  · exact ⟨nofun, nofun⟩

section
variable {fs other : FileSystem} (h : SameButFiles fs other)
include h

/-- A directory is entered by a name in one of them exactly if it is in the other. -/
theorem enter_congr {place next : Place} {name : Text} :
    other.enter place name = .ok next ↔ fs.enter place name = .ok next := by
  by_cases hself : name = selfName
  · unfold enter
    rw [if_pos hself, if_pos hself]
  by_cases hparent : name = parentName
  · unfold enter
    rw [if_neg hself, if_pos hparent, if_neg hself, if_pos hparent]
  by_cases hlong : nameLimit < Utf8.size name
  · unfold enter
    rw [if_neg hself, if_neg hparent, if_pos hlong, if_neg hself, if_neg hparent, if_pos hlong]
  · rw [enter_eq_ok_iff hself hparent hlong, enter_eq_ok_iff hself hparent hlong,
      h.directories]

/-- Walking takes the same way where the directories are the same. -/
theorem walk_congr {place last : Place} {names : List Text} :
    other.walk place names = .ok last ↔ fs.walk place names = .ok last := by
  induction names generalizing place with
  | nil => rfl
  | cons name names ih =>
    rw [walk, walk]
    apply bind_eq_ok_congr
    · intro next
      exact enter_congr h
    · intro next
      exact ih

theorem locate_congr {path : Text} {target : Target} :
    other.locate path = .ok target ↔ fs.locate path = .ok target := by
  unfold locate
  split
  · rfl
  split
  · rfl
  split
  · rfl
  dsimp only
  split
  · rfl
  next name _ =>
    -- The last name is not looked up here, so the walk is all that depends on the files.
    have hstart : other.startOf path = fs.startOf path := by rw [startOf, startOf, h.working]
    rw [hstart]
    apply bind_eq_ok_congr
    · intro parent
      exact walk_congr h
    · intro parent
      rfl

end

/-! ## Where a path creates a file -/

/-- A path creates a file if its last name is one, ends it, is short enough, and names no
directory. -/
theorem createAt_eq_ok_iff {fs : FileSystem} {path : String} {place : Place} :
    fs.createAt path = .ok place ↔
      ∃ parent name, fs.locate path.toList = .ok (.entry parent name false) ∧
        ¬ nameLimit < Utf8.size name ∧ place = parent.child name ∧
        fs.node place ≠ some .directory := by
  rw [createAt]
  -- All other ways through the definition end in a refusal.
  constructor
  · intro h
    cases hlocate : fs.locate path.toList with
    | error fault => rw [hlocate] at h; cases h
    | ok target =>
      rw [hlocate] at h
      cases target with
      | directory => cases h
      | entry parent name slash =>
        cases slash with
        | true => cases h
        | false =>
          by_cases hname : nameLimit < Utf8.size name
          · simp only [bind, Except.bind, hname, if_true] at h
            cases h
          · simp only [bind, Except.bind, hname, if_false, Bool.false_eq_true] at h
            cases hnode : fs.node (parent.child name) with
            | none =>
              rw [hnode] at h
              cases h
              exact ⟨parent, name, rfl, hname, rfl, by rw [hnode]; exact nofun⟩
            | some node =>
              rw [hnode] at h
              cases node with
              | directory => cases h
              | file other =>
                cases h
                exact ⟨parent, name, rfl, hname, rfl, by rw [hnode]; exact nofun⟩
  · rintro ⟨parent, name, hlocate, hname, rfl, hnode⟩
    rw [hlocate]
    simp only [bind, Except.bind, hname, if_false, Bool.false_eq_true]

/-- A file is created where no directory stands. -/
theorem node_ne_directory_of_createAt {fs : FileSystem} {path : String} {place : Place}
    (h : fs.createAt path = .ok place) : fs.node place ≠ some .directory := by
  obtain ⟨-, -, -, -, -, hnode⟩ := createAt_eq_ok_iff.1 h
  exact hnode

/-- A path creates its file at the same place. -/
theorem createAt_congr {fs other : FileSystem} (h : SameButFiles fs other) {place : Place}
    {path : String} : other.createAt path = .ok place ↔ fs.createAt path = .ok place := by
  rw [createAt_eq_ok_iff, createAt_eq_ok_iff]
  simp only [locate_congr h, ne_eq, h.directories place]

theorem createAt_set {fs : FileSystem} {at_ place : Place} {path : String} {contents : Bytes}
    (hfile : fs.node at_ ≠ some .directory) :
    (fs.set at_ (.file contents)).createAt path = .ok place ↔ fs.createAt path = .ok place :=
  createAt_congr (sameButFiles_set hfile)

/-! ## Writing blocks -/

/-- There is room for some bytes at a place. -/
def Fits (fs : FileSystem) (place : Place) (bytes : Bytes) : Prop :=
  ∀ sink, fs.sink place = some sink → bytes.length ≤ sink.room

/-- There is room for some bytes at a place, or a sink that takes only a part of them. -/
theorem fits_or_exists_sink (fs : FileSystem) (place : Place) (bytes : Bytes) :
    fs.Fits place bytes ∨ ∃ sink, fs.sink place = some sink ∧ sink.room < bytes.length := by
  cases hsink : fs.sink place with
  | none =>
    left
    intro sink h
    rw [hsink] at h
    cases h
  | some sink =>
    by_cases hroom : bytes.length ≤ sink.room
    · left
      intro other h
      rw [hsink] at h
      cases h
      exact hroom
    · exact .inr ⟨sink, rfl, Nat.lt_of_not_le hroom⟩

section
variable {fs : FileSystem} {place : Place} {contents : Bytes}

@[simp] theorem bytesAt_set (fs : FileSystem) (place : Place) (contents : Bytes) :
    (fs.set place (.file contents)).bytesAt place = contents := by
  rw [bytesAt, node_set_same]

/-- A block for which there is room is written. -/
theorem append_of_fits {block : Bytes} (h : fs.Fits place (contents ++ block)) :
    (fs.set place (.file contents)).append place block
      = (.ok (), fs.set place (.file (contents ++ block))) := by
  simp only [append, bytesAt_set, set_set, sink_set]
  cases hsink : fs.sink place with
  | none => rfl
  | some sink => exact if_pos (h sink hsink)

/-- One for which there is not room enough is cut off, and refused. -/
theorem append_of_lt {block : Bytes} {sink : Sink} (hsink : fs.sink place = some sink)
    (h : sink.room < (contents ++ block).length) :
    (fs.set place (.file contents)).append place block
      = (.error sink.fault, fs.set place (.file ((contents ++ block).take sink.room))) := by
  simp only [append, bytesAt_set, set_set, sink_set, hsink]
  exact if_neg (Nat.not_le.2 h)

/-- Blocks for which there is room are all written, one behind the other. -/
theorem appendAll_of_fits {blocks : List Bytes} (h : fs.Fits place (contents ++ blocks.flatten)) :
    store.appendAll place blocks (fs.set place (.file contents))
      = (.ok (), fs.set place (.file (contents ++ blocks.flatten))) := by
  induction blocks generalizing contents with
  | nil =>
    rw [List.flatten_nil, List.append_nil]
    rfl
  | cons block rest ih =>
    rw [List.flatten_cons, ← List.append_assoc] at h ⊢
    have hblock : fs.Fits place (contents ++ block) := by
      intro sink hsink
      have hall := h sink hsink
      rw [List.length_append] at hall
      omega
    rw [← ih h]
    simp only [Store.appendAll, store, bind, StateT.bind, append_of_fits hblock]

/-- Blocks for which there is not room enough are written up to where it ends, and the write that
comes to the end is refused. -/
theorem appendAll_of_lt {blocks : List Bytes} {sink : Sink} (hsink : fs.sink place = some sink)
    (hcontents : contents.length ≤ sink.room)
    (h : sink.room < (contents ++ blocks.flatten).length) :
    store.appendAll place blocks (fs.set place (.file contents))
      = (.error sink.fault,
          fs.set place (.file ((contents ++ blocks.flatten).take sink.room))) := by
  induction blocks generalizing contents with
  | nil =>
    rw [List.flatten_nil, List.append_nil] at h
    exact absurd h (Nat.not_lt.2 hcontents)
  | cons block rest ih =>
    rw [List.flatten_cons, ← List.append_assoc] at h ⊢
    by_cases hblock : (contents ++ block).length ≤ sink.room
    · have hfits : fs.Fits place (contents ++ block) := by
        intro other hother
        rw [hsink] at hother
        cases hother
        exact hblock
      rw [← ih hblock h]
      simp only [Store.appendAll, store, bind, StateT.bind, append_of_fits hfits]
    · -- Nothing is sent after the block that is refused.
      have hlt := Nat.lt_of_not_le hblock
      rw [List.take_append_of_le_length (Nat.le_of_lt hlt)]
      simp only [Store.appendAll, store, bind, StateT.bind, append_of_lt hsink hlt]
      rfl

end

/-! ## Contents -/

/-- A file is found by the path by which it was created. -/
theorem contents?_of_createAt {fs : FileSystem} {path : String} {place : Place}
    {contents : Bytes} (hplace : fs.createAt path = .ok place)
    (hnode : fs.node place = some (.file contents)) : fs.contents? path = some contents := by
  obtain ⟨parent, name, hlocate, -, rfl, -⟩ := createAt_eq_ok_iff.1 hplace
  rw [contents?, hlocate]
  simp only [hnode]

/-- Only a directory and a file can be opened. A file is the end of its path, and gives its
contents. -/
theorem openRead_eq_ok {fs : FileSystem} {path : String} {source : Source}
    (h : fs.openRead path = .ok source) :
    source = Source.ofDirectory ∨
      ∃ contents parent name, source = Source.ofBytes contents ∧
        fs.locate path.toList = .ok (.entry parent name false) ∧
        ¬ nameLimit < Utf8.size name ∧ fs.node (parent.child name) = some (.file contents) := by
  rw [openRead] at h
  cases hlocate : fs.locate path.toList with
  | error fault => rw [hlocate] at h; cases h
  | ok target =>
    rw [hlocate] at h
    cases target with
    | directory => cases h; exact .inl rfl
    | entry parent name slash =>
      by_cases hname : nameLimit < Utf8.size name
      · simp only [bind, Except.bind, hname, if_true] at h
        cases h
      · simp only [bind, Except.bind, hname, if_false] at h
        cases hnode : fs.node (parent.child name) with
        | none => rw [hnode] at h; cases h
        | some node =>
          rw [hnode] at h
          cases node with
          | directory => cases h; exact .inl rfl
          | file contents =>
            -- A slash behind a file asks for a directory.
            cases slash with
            | true => cases h
            | false =>
              cases h
              exact .inr ⟨contents, parent, name, rfl, rfl, hname, hnode⟩

/-- A path is opened as the contents of the file that stands at its end. -/
theorem openRead_eq_ofBytes_iff {fs : FileSystem} {path : String} {contents : Bytes} :
    fs.openRead path = .ok (.ofBytes contents) ↔
      ∃ parent name, fs.locate path.toList = .ok (.entry parent name false) ∧
        ¬ nameLimit < Utf8.size name ∧ fs.node (parent.child name) = some (.file contents) := by
  constructor
  · intro h
    obtain hdirectory | ⟨bytes, parent, name, hbytes, hfound⟩ := openRead_eq_ok h
    · exact absurd hdirectory Source.ofBytes_ne_ofDirectory
    · rw [Source.ofBytes_injective hbytes]
      exact ⟨parent, name, hfound⟩
  · rintro ⟨parent, name, hlocate, hname, hnode⟩
    rw [openRead, hlocate]
    simp only [bind, Except.bind, hname, if_false, hnode, Bool.false_eq_true]

theorem contents?_of_openRead {fs : FileSystem} {path : String} {bytes : Bytes}
    (h : fs.openRead path = .ok (.ofBytes bytes)) : fs.contents? path = some bytes := by
  obtain ⟨parent, name, hlocate, -, hnode⟩ := openRead_eq_ofBytes_iff.1 h
  rw [contents?, hlocate]
  simp only [hnode]

/-- A path names the file that stands at a place, if that is where it leads. -/
def Names (fs : FileSystem) (path : String) (place : Place) : Prop :=
  ∃ parent name contents, fs.locate path.toList = .ok (.entry parent name false) ∧
    place = parent.child name ∧ fs.node place = some (.file contents)

/-- A file that is opened in one of them opens in the other, unless it is another one. -/
theorem openRead_congr {fs other : FileSystem} (h : SameButFiles fs other) {path : String}
    {contents : Bytes} (hopen : fs.openRead path = .ok (.ofBytes contents))
    (hkept : ∀ place, fs.Names path place → other.node place = fs.node place) :
    other.openRead path = .ok (.ofBytes contents) := by
  obtain ⟨parent, name, hlocate, hname, hnode⟩ := openRead_eq_ofBytes_iff.1 hopen
  have hsame := hkept _ ⟨parent, name, contents, hlocate, rfl, hnode⟩
  exact openRead_eq_ofBytes_iff.2
    ⟨parent, name, (locate_congr h).2 hlocate, hname, hsame.trans hnode⟩

/-- A file that is created replaces the one that its path names, if there is one. -/
theorem names_of_createAt {fs : FileSystem} {path : String} {place : Place} {contents : Bytes}
    (hplace : fs.createAt path = .ok place) (hnode : fs.node place = some (.file contents)) :
    fs.Names path place := by
  obtain ⟨parent, name, hlocate, -, hchild, -⟩ := createAt_eq_ok_iff.1 hplace
  exact ⟨parent, name, contents, hlocate, hchild, hnode⟩

end SymbolLog.FileSystem
