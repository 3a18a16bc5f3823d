import Mx.Core.Strings

/-!
# The lock file

The table of `Lockfile`, the file that `WriteEnhanced` writes for it, and its two readers: `Read`
of mxpkg and `Lockfile::parse` of the compiler.
-/

namespace Mx.Pkg

open Strings

/-! ## The table -/

/-- `MaxLockDeps`. -/
def maxLockDeps : Nat := 64

/-- An entry of the lock table: `lDepNames` to `lDepURLs` at one index. -/
structure LockEntry where
  name : Text
  version : Text
  source : Text
  sha : Text
  path : Text
  url : Text
  deriving DecidableEq, Repr

/-- The sizes of the arrays of an entry. -/
structure LockEntry.Fits (e : LockEntry) : Prop where
  name : e.name.length < 64
  version : e.version.length < 32
  source : e.source.length < 16
  sha : e.sha.length < 65
  path : e.path.length < 512
  url : e.url.length < 512

/-- The variables of `Lockfile`. -/
structure LockTable where
  count : Nat
  entries : Nat → LockEntry

/-- The entries that are counted. -/
def LockTable.list (t : LockTable) : List LockEntry := (List.range t.count).map t.entries

/-- The entry at an index is changed. -/
def LockTable.modify (t : LockTable) (i : Nat) (f : LockEntry → LockEntry) : LockTable :=
  { t with entries := Function.update t.entries i (f (t.entries i)) }

/-- `GetDepLockName` and its siblings: the empty text beyond the count. -/
def LockTable.get (t : LockTable) (field : LockEntry → Text) (i : Nat) : Text :=
  if i < t.count then field (t.entries i) else []

/-- `SetDepEntry`. -/
def LockTable.setDepEntry (t : LockTable) (i : Nat) (name version source sha path : Text) :
    LockTable :=
  if i < maxLockDeps then
    t.modify i fun e => { e with
      name := assign 64 name
      version := assign 32 version
      source := assign 16 source
      sha := assign 65 sha
      path := assign 512 path }
  else t

/-- `SetLockDepCount`. -/
def LockTable.setLockDepCount (t : LockTable) (n : Nat) : LockTable :=
  if n ≤ maxLockDeps then { t with count := n } else t

/-- `SetDepURL`. -/
def LockTable.setDepURL (t : LockTable) (i : Nat) (url : Text) : LockTable :=
  if i < maxLockDeps then t.modify i fun e => { e with url := assign 512 url } else t

/-! ## Writing -/

/-- A line that starts with a literal. -/
def withPrefix (start : String) (val : Text) : Text := concat 512 (text start) val

/-- The line of a field, if it is not empty. -/
def fieldLine (start : String) (val : Text) : List Text :=
  if val.length > 0 then [withPrefix start val] else []

/-- The lines of an entry. -/
def entryLines (e : LockEntry) : List Text :=
  [[], concat 512 (withPrefix "[dep." e.name) (text "]")] ++
    (fieldLine "version=" e.version ++ fieldLine "source=" e.source ++ fieldLine "sha256=" e.sha ++
      fieldLine "path=" e.path ++ fieldLine "url=" e.url)

/-- The first lines, for the name and the version of the package. -/
def packageLines (name version : Text) : List Text :=
  [text "# m2.lock - generated by mxpkg resolve", [], text "[package]",
    withPrefix "name=" name, withPrefix "version=" version]

/-- `WriteEnhanced`. -/
def writeEnhanced (name version : Text) (t : LockTable) : Text :=
  unlines (packageLines name version ++ t.list.flatMap entryLines)

/-! ## Reading by mxpkg -/

/-- The sections that `Read` knows. -/
inductive LockSection where
  | none
  | dep
  | pkg
  | tc
  | other
  deriving DecidableEq, Repr

/-- The variables of `Read`. -/
structure LockReader where
  table : LockTable
  curDep : Option Nat
  curSection : LockSection

/-- A text occurs in a line. -/
def occurs (sub line : Text) : Bool := (pos sub line).any (· < line.length)

/-- The name in the header of an entry is stored, and the other fields are cleared. -/
def startEntry (line : Text) (e : LockEntry) : LockEntry where
  name := match pos (text ".") line with
    | some n => if n < line.length ∧ 0 < line.length - n - 2 then
        copy 64 line (n + 1) (line.length - n - 2) else e.name
    | none => e.name
  version := []
  source := []
  sha := []
  path := []
  url := []

/-- A value is stored under its key. -/
def setField (key value : Text) (e : LockEntry) : LockEntry :=
  if key = text "version" then { e with version := assign 32 value }
  else if key = text "source" then { e with source := assign 16 value }
  else if key = text "sha256" then { e with sha := assign 65 value }
  else if key = text "path" then { e with path := assign 512 value }
  else if key = text "url" then { e with url := assign 512 value }
  else e

/-- A header, in `Read`. -/
def readHeader (st : LockReader) (line : Text) : LockReader :=
  if occurs (text "dep.") line then
    if st.table.count < maxLockDeps then
      { table := { st.table with count := st.table.count + 1 }.modify st.table.count
          (startEntry line)
        curDep := some st.table.count
        curSection := .dep }
    else { st with curSection := .dep }
  else if occurs (text "package") line then { st with curSection := .pkg, curDep := none }
  else if occurs (text "toolchain") line then { st with curSection := .tc, curDep := none }
  else { st with curSection := .other, curDep := none }

/-- One line of `Read`. -/
def readLockLine (st : LockReader) (line : Text) : LockReader :=
  if line.length = 0 then st
  else if line.head? = some 35 then st
  else if line.head? = some 91 then readHeader st line
  else match pos (text "=") line with
    | none => st
    | some eqPos =>
      if eqPos < line.length then
        let key := copy 64 line 0 eqPos
        let vlen := line.length - eqPos - 1
        let value := if vlen > 0 then copy 256 line (eqPos + 1) vlen else []
        match st.curDep with
        | none => st
        | some i =>
          if st.curSection = .dep then { st with table := st.table.modify i (setField key value) }
          else st
      else st

/-- `Read`, over what the table held before. -/
def readLock (t : LockTable) (file : Text) : LockTable :=
  ((bufferLines 512 file).foldl readLockLine ⟨{ t with count := 0 }, none, .none⟩).table

/-! ## Reading by the compiler -/

/-- `LockDep`. -/
structure LockDep where
  name : Text
  version : Text
  source : Text
  sha256 : Text
  path : Text
  deriving DecidableEq, Repr

/-- The sections of `Lockfile::parse`. -/
inductive ParseSection where
  | none
  | package
  | dep
  | other
  deriving DecidableEq, Repr

/-- The variables of `Lockfile::parse`. -/
structure LockParser where
  packageName : Text
  packageVersion : Text
  deps : List LockDep
  curSection : ParseSection

/-- A value is stored under its key. -/
def LockDep.set (key val : Text) (d : LockDep) : LockDep :=
  if key = text "version" then { d with version := val }
  else if key = text "source" then { d with source := val }
  else if key = text "sha256" then { d with sha256 := val }
  else if key = text "path" then { d with path := val }
  else d

/-- A key and its value in the current section. -/
def LockParser.set (st : LockParser) (key val : Text) : LockParser :=
  match st.curSection with
  | .package =>
    if key = text "name" then { st with packageName := val }
    else if key = text "version" then { st with packageVersion := val }
    else st
  | .dep => { st with deps := st.deps.modifyLast (LockDep.set key val) }
  | _ => st

/-- A section header, without its brackets. -/
def LockParser.header (st : LockParser) (sec : Text) : LockParser :=
  if sec = text "package" then { st with curSection := .package }
  else if (text "dep.").isPrefixOf sec then
    { st with
      deps := st.deps ++ [⟨sec.drop (text "dep.").length, [], [], [], []⟩]
      curSection := .dep }
  else { st with curSection := .other }

/-- One line of `Lockfile::parse`. -/
def LockParser.line (st : LockParser) (line : Text) : LockParser :=
  let trimmed := trim line
  if trimmed = [] ∨ trimmed.head? = some 35 then st
  else if trimmed.head? = some 91 ∧ trimmed.getLast? = some 93 then
    st.header (trimmed.drop 1).dropLast
  else match pos (text "=") trimmed with
    | none => st
    | some eqPos => st.set (trim (trimmed.take eqPos)) (trim (trimmed.drop (eqPos + 1)))

/-- `Lockfile`. -/
structure Lockfile where
  packageName : Text
  packageVersion : Text
  deps : List LockDep
  deriving DecidableEq, Repr

/-- `Lockfile::parse`. -/
def parseLock (content : Text) : Option Lockfile :=
  let st := (lines content).foldl LockParser.line ⟨[], [], [], .none⟩
  if st.packageName = [] then none else some ⟨st.packageName, st.packageVersion, st.deps⟩

end Mx.Pkg
