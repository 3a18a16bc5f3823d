import Mx.Pkg.Lockfile

/-!
# Resolving dependencies

`Resolve` of mxpkg: the dependencies of the root manifest are resolved one after another, then the
manifests of the resolved packages are read for further dependencies, and the table of all of them
becomes the lock file. The registry and the file system are parameters.
-/

namespace Mx.Pkg

open Strings

/-! ## Manifests -/

/-- A dependency of a manifest: `mDepNames` to `mDepIsURL` at one index. For a dependency that is
not local, `path` is the version. -/
structure ManifestDep where
  name : Text
  path : Text
  isLocal : Bool
  isURL : Bool
  url : Text
  name_lt : name.length < 64
  path_lt : path.length < 256
  url_lt : url.length < 512

/-- `GetDepVersion`, into an array of 32 characters. -/
def ManifestDep.version (d : ManifestDep) : Text := if d.isLocal then [] else assign 32 d.path

/-- What `Resolve` calls. `none` is an exception, or a result other than 0. -/
structure World where
  isDir : Text → Bool
  fileExists : Text → Bool
  readManifest : Text → Option (List ManifestDep)
  lookup : Text → Text → Option Text
  lookupRange : Text → Text → Option (Text × Text)
  fetch : Text → Text → Option Text
  fetchRemote : Text → Text → Text → Option Text
  fetchLatest : Text → Text → Option (Text × Text)
  resolveRangeRemote : Text → Text → Text → Option (Text × Text)

/-- The arguments of `SetDepEntry`. -/
structure Resolved where
  name : Text
  version : Text
  source : Text
  sha : Text
  path : Text
  deriving DecidableEq, Repr

/-- `SetDepEntry` with what was resolved. -/
def LockTable.set (t : LockTable) (i : Nat) (r : Resolved) : LockTable :=
  t.setDepEntry i r.name r.version r.source r.sha r.path

/-- A version spec is a range. -/
def isRange (ver : Text) : Bool :=
  ver.head? = some 94 || ver.head? = some 126 || (text ">=").isPrefixOf ver

/-- The manifest in the directory of a package. -/
def manifestPath (path : Text) : Text := concat 512 path (text "/m2.toml")

/-! ## One dependency -/

section Resolve

variable (w : World) (registryUrl : Text)

/-- A version of a package is fetched from a remote registry. -/
def World.remote (url name ver source sha : Text) : Option Resolved :=
  (w.fetchRemote url name ver).map fun path => ⟨name, ver, source, sha, assign 512 path⟩

/-- A version of a package is fetched from the local registry. -/
def World.registry (name ver sha : Text) : Option Resolved :=
  (w.fetch name ver).map fun path => ⟨name, ver, text "registry", sha, assign 512 path⟩

/-- A dependency of the root manifest. -/
def resolveDirect (d : ManifestDep) : Option Resolved :=
  if d.isLocal then
    if w.isDir d.path = false then none
    else if w.fileExists (manifestPath d.path) = false then none
    else some ⟨d.name, [], text "local", [], d.path⟩
  else if d.isURL then
    if d.version.length = 0 then
      (w.fetchLatest d.url d.name).bind fun r =>
        w.remote d.url d.name (assign 32 r.1) (text "remote") (assign 65 r.2)
    else if isRange d.version then
      (w.resolveRangeRemote d.url d.name d.version).bind fun r =>
        w.remote d.url d.name (assign 32 r.1) (text "remote") (assign 65 r.2)
    else w.remote d.url d.name d.version (text "remote") []
  else if isRange d.version then
    match w.lookupRange d.name d.version with
    | none =>
      if registryUrl.length > 0 then
        (w.resolveRangeRemote registryUrl d.name d.version).bind fun r =>
          w.remote registryUrl d.name (assign 32 r.1) (text "registry") (assign 65 r.2)
      else none
    | some r => w.registry d.name (assign 32 r.1) (assign 65 r.2)
  else
    match w.lookup d.name d.version with
    | none =>
      if registryUrl.length > 0 then w.remote registryUrl d.name d.version (text "registry") []
      else none
    | some sha => w.registry d.name d.version (assign 65 sha)

/-- A dependency of a resolved package. An exception is the outer `none`; a warning, after which
the dependency is left out, is the inner one. -/
def resolveTransitive (d : ManifestDep) : Option (Option Resolved) :=
  if d.isLocal ∨ d.version.length = 0 then
    if registryUrl.length > 0 then
      match w.fetchLatest registryUrl d.name with
      | none => some none
      | some r =>
        (w.remote registryUrl d.name (assign 32 r.1) (text "registry") (assign 65 r.2)).map some
    else some none
  else if isRange d.version then
    match w.lookupRange d.name d.version with
    | none =>
      if registryUrl.length > 0 then
        match w.resolveRangeRemote registryUrl d.name d.version with
        | none => some none
        | some r =>
          (w.remote registryUrl d.name (assign 32 r.1) (text "registry") (assign 65 r.2)).map some
      else some none
    | some r => (w.registry d.name (assign 32 r.1) (assign 65 r.2)).map some
  else
    match w.lookup d.name d.version with
    | none =>
      if registryUrl.length > 0 then
        (w.remote registryUrl d.name d.version (text "registry") []).map some
      else some none
    | some sha => (w.registry d.name d.version (assign 65 sha)).map some

/-! ## The loops -/

/-- The loop over the dependencies of the root manifest, from an index on. -/
def directLoop : Nat → LockTable → List ManifestDep → Option LockTable
  | _, t, [] => some t
  | i, t, d :: ds =>
    (resolveDirect w registryUrl d).bind fun r =>
      directLoop (i + 1) ((if d.isURL && !d.isLocal then t.setDepURL i d.url else t).set i r) ds

/-- The name is that of one of so many entries. -/
def alreadyResolved (t : LockTable) (nd : Nat) (name : Text) : Bool :=
  (List.range nd).any fun k => t.get LockEntry.name k = name

/-- The loop over the dependencies of a resolved package. -/
def transitiveLoop : LockTable × Nat → List ManifestDep → Option (LockTable × Nat)
  | s, [] => some s
  | (t, nd), d :: ds =>
    if alreadyResolved t nd d.name then transitiveLoop (t, nd) ds
    else
      (resolveTransitive w registryUrl d).bind fun r =>
        match r with
        | none => transitiveLoop (t, nd) ds
        | some r => transitiveLoop (t.set nd r, nd + 1) ds

/-- One round of the breadth-first loop. -/
def bfsRound (idx : Nat) (s : LockTable × Nat) : Option (LockTable × Nat) :=
  if s.1.get LockEntry.source idx = text "local" then some s
  else
    let fetchPath := s.1.get LockEntry.path idx
    if fetchPath.length > 0 then
      (w.readManifest (manifestPath fetchPath)).bind fun ds => transitiveLoop w registryUrl s ds
    else some s

/-- Why there is no result: an exception, or too few rounds. -/
inductive Stuck where
  | raised
  | fuel
  deriving DecidableEq, Repr

/-- The breadth-first loop, with at most so many rounds. -/
def bfsLoop : Nat → Nat → LockTable × Nat → Except Stuck (LockTable × Nat)
  | 0, _, _ => .error .fuel
  | fuel + 1, idx, s =>
    if idx < s.2 then
      match bfsRound w registryUrl idx s with
      | none => .error .raised
      | some s' => bfsLoop fuel (idx + 1) s'
    else .ok s

/-- `Resolve`, over what the table held before: the table that is written to the lock file. -/
def resolve (fuel : Nat) (old : LockTable) (root : List ManifestDep) : Except Stuck LockTable :=
  match directLoop w registryUrl 0 (old.setLockDepCount root.length) root with
  | none => .error .raised
  | some t =>
    if root.length > 0 then
      match bfsLoop w registryUrl fuel 0 (t, root.length) with
      | .error e => .error e
      | .ok s => .ok (s.1.setLockDepCount s.2)
    else .ok t

end Resolve

end Mx.Pkg
