/-
Files and directories as a value.

A file system says what stands at each place, and a place is the names that lead to
it from the root. A path that does not begin with a slash starts at the working
directory, whose place is known, so that one file may be meant by many paths, and a
path that leaves the root by a parent name stays there. There are no links and no
permissions, so a path is resolved by one walk over its names, and only two
questions are asked at its end: may the last name be opened, may it be created.

The order in which a path is refused is part of its meaning. A path as a whole is
looked at first; then its directories, from left to right; then the form of its
end; and the last name at the very end.

A file that may be created may still refuse what is written to it. How many bytes
it takes is known for each place. Room that several files share is not accounted
for: for the files of one extraction, each of which is written once and emptied
first, it comes to so many bytes for each of them all the same.
-/
import SymbolLog.Sink
import SymbolLog.Store

set_option autoImplicit false

namespace SymbolLog

/-! ## Places -/

/-- The names that lead somewhere from the root. -/
structure Place where
  names : List Text
  deriving DecidableEq

namespace Place

def root : Place := ⟨[]⟩

def child (place : Place) (name : Text) : Place := ⟨place.names ++ [name]⟩

/-- The directory above a place. The root is its own parent. -/
def parent (place : Place) : Place := ⟨place.names.dropLast⟩

end Place

/-- What stands at a place. -/
inductive Node where
  | directory
  | file (contents : Bytes)
  deriving DecidableEq

/-- A machine, as far as its files are concerned, and the time that it takes. -/
structure FileSystem where
  /-- What stands at each place but the root, which is a directory. -/
  node : Place → Option Node
  /-- The directory at which paths start that do not start at the root. -/
  working : Place
  /-- The sink that an empty file at a place is, if there is an end to what it takes. -/
  sink : Place → Option Sink
  /-- How long an input is worked on here, in nanoseconds. Nothing depends on it. -/
  elapsed : Nat

/-! ## Paths -/

/-- The end of a path, once the directories before it have been walked. -/
inductive Target where
  /-- The root, or a directory by way of a dot name. -/
  | directory
  /-- A name in a directory; `slash` says whether a slash follows it. -/
  | entry (parent : Place) (name : Text) (slash : Bool)

def selfName : Text := ['.']

def parentName : Text := ['.', '.']

/-- The most bytes that a name may have. -/
def nameLimit : Nat := 255

/-- The least number of bytes with which a path is too long. -/
def pathLimit : Nat := 4096

namespace FileSystem

/-- The file system with one node more or another. -/
def set (fs : FileSystem) (place : Place) (node : Node) : FileSystem :=
  { fs with node := fun other => if other = place then some node else fs.node other }

@[simp] theorem node_set_same (fs : FileSystem) (place : Place) (node : Node) :
    (fs.set place node).node place = some node := by
  simp [set]

theorem node_set_other (fs : FileSystem) {place other : Place} (node : Node)
    (h : other ≠ place) : (fs.set place node).node other = fs.node other := by
  simp [set, h]

/-- Nothing that is put anywhere makes room. -/
@[simp] theorem sink_set (fs : FileSystem) (place : Place) (node : Node) :
    (fs.set place node).sink = fs.sink := rfl

/-- Of two nodes that are put at one place, the second stays. -/
@[simp] theorem set_set (fs : FileSystem) (place : Place) (node other : Node) :
    (fs.set place node).set place other = fs.set place other := by
  rw [set, set, set]
  congr 1
  funext at_
  by_cases h : at_ = place
  · rw [if_pos h, if_pos h]
  · simp only [h, if_false]

/-- The directory that a name leads to from another. -/
def enter (fs : FileSystem) (place : Place) (name : Text) : Except Fault Place :=
  if name = selfName then .ok place
  else if name = parentName then .ok place.parent
  else if nameLimit < Utf8.size name then .error .nameTooLong
  else
    match fs.node (place.child name) with
    | none => .error .notFound
    | some (.file _) => .error .notDirectory
    | some .directory => .ok (place.child name)

/-- The directory that some names lead to, one after the other. -/
def walk (fs : FileSystem) (place : Place) : List Text → Except Fault Place
  | [] => .ok place
  | name :: rest => do
    let place ← fs.enter place name
    fs.walk place rest

/-- Where the names of a path start: at the root if it begins with a slash. -/
def startOf (fs : FileSystem) (path : Text) : Place :=
  if path.head? = some '/' then .root else fs.working

def locate (fs : FileSystem) (path : Text) : Except Fault Target :=
  if '\x00' ∈ path then .error .nulInPath
  else if path.isEmpty then .error .notFound
  else if pathLimit ≤ Utf8.size path then .error .nameTooLong
  else
    let segments := path.splitOn '/'
    let names := segments.filter (· ≠ [])
    match names.getLast? with
    | none => .ok .directory
    | some name => do
      let parent ← fs.walk (fs.startOf path) names.dropLast
      if name = selfName ∨ name = parentName then .ok .directory
      else .ok (.entry parent name (segments.getLast? = some []))

/-! ## Opening and creating -/

/-- Opens a file or a directory for reading. -/
def openRead (fs : FileSystem) (path : String) : Except Fault Source := do
  match ← fs.locate path.toList with
  | .directory => .ok .ofDirectory
  | .entry parent name slash =>
    if nameLimit < Utf8.size name then .error .nameTooLong
    else
      match fs.node (parent.child name) with
      | none => .error .notFound
      | some .directory => .ok .ofDirectory
      | some (.file contents) => if slash then .error .notDirectory else .ok (.ofBytes contents)

/-- The place at which a path creates a file, or replaces one. -/
def createAt (fs : FileSystem) (path : String) : Except Fault Place := do
  match ← fs.locate path.toList with
  | .directory => .error .isDirectory
  | .entry parent name slash =>
    -- A slash at the end asks for a directory, and a directory is no file to write.
    if slash then .error .isDirectory
    else if nameLimit < Utf8.size name then .error .nameTooLong
    else
      match fs.node (parent.child name) with
      | some .directory => .error .isDirectory
      | _ => .ok (parent.child name)

/-- Creates an empty file, or empties the one that is there. -/
def create (fs : FileSystem) (path : String) : Except Fault Place × FileSystem :=
  match fs.createAt path with
  | .error fault => (.error fault, fs)
  | .ok place => (.ok place, fs.set place (.file []))

/-- The bytes of the file at a place; there are none if there is no file. -/
def bytesAt (fs : FileSystem) (place : Place) : Bytes :=
  match fs.node place with
  | some (.file contents) => contents
  | _ => []

/-- Writes a block at the end of the file at a place, as much of it as there is room for. -/
def append (fs : FileSystem) (place : Place) (block : Bytes) : Except Fault Unit × FileSystem :=
  let contents := fs.bytesAt place ++ block
  match fs.sink place with
  | none => (.ok (), fs.set place (.file contents))
  | some sink =>
    if contents.length ≤ sink.room then (.ok (), fs.set place (.file contents))
    else (.error sink.fault, fs.set place (.file (contents.take sink.room)))

/-- The contents of the file that a path leads to. -/
def contents? (fs : FileSystem) (path : String) : Option Bytes :=
  match fs.locate path.toList with
  | .ok (.entry parent name false) =>
    match fs.node (parent.child name) with
    | some (.file contents) => some contents
    | _ => none
  | _ => none

def store : Store (StateM FileSystem) where
  File := Place
  openRead path := fun fs => (fs.openRead path, fs)
  create path := fun fs => fs.create path
  append place block := fun fs => fs.append place block
  elapsed := fun fs => (fs.elapsed, fs)

/-! ## Building -/

/-- The file system with a directory at a place and at all places on the way to it. -/
def addDirectory (fs : FileSystem) (place : Place) : FileSystem :=
  (List.range place.names.length).foldl
    (fun fs n => fs.set ⟨place.names.take (n + 1)⟩ .directory) fs

/-- The file system with a file at a place and directories on the way to it. -/
def addFile (fs : FileSystem) (place : Place) (contents : Bytes) : FileSystem :=
  (fs.addDirectory place.parent).set place (.file contents)

/-- The working directory of the file systems that are built here. -/
def home : Place := ⟨["work".toList]⟩

/-- The device that may be written to and never takes a byte. It stands here as a file, since
nothing is ever read from it. -/
def fullDevice : Place := ⟨["dev".toList, "full".toList]⟩

/-- The file system with an empty working directory, and with the device that is full. -/
def empty : FileSystem :=
  (FileSystem.mk (fun _ => none) home
    (fun place => if place = fullDevice then some ⟨0, .noSpace⟩ else none) 0).addDirectory home
    |>.addFile fullDevice []

/-- The place that a path without dot names means in that working directory. -/
def placeOf (path : String) : Place :=
  ⟨home.names ++ (path.toList.splitOn '/').filter (· ≠ [])⟩

end FileSystem

end SymbolLog
