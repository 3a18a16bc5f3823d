import Mx.Pkg.Semver
import Mx.Pkg.Resolver

/-!
# Registries

The index of the local registry and the requests to a remote one: how `Lookup`, `LookupRange`,
`FetchLatest` and `ResolveRangeRemote` find a version of a package and its hash. The texts in the
replies of a remote registry are parameters.
-/

namespace Mx.Pkg

open Strings

/-! ## The local registry -/

/-- The index of the local registry: the names of the files in the directory of a package, and for
a published version the lines that were copied from its manifest, with its hash. -/
structure Index where
  files : Text → List Text
  published : Text → Text → Option (List Text × Text)

/-- The lines of the file that `Publish` writes for a version. -/
def publishedLines (p : List Text × Text) : List Text :=
  p.1 ++ [[], text "[registry]", concat 512 (text "sha256=") p.2, text "published=2026-02-18"]

/-- A line of the file is read for the hash. -/
def readSha (sha line : Text) : Text :=
  if pos (text "sha256=") line = some 0 ∧ line.length > 7 then
    copy 65 line 7 (line.length - 7)
  else sha

/-- `Lookup`. -/
def Index.lookup (x : Index) (name version : Text) : Option Text :=
  (x.published name version).bind fun p =>
    let sha := (publishedLines p).foldl readSha []
    if sha.length > 0 then some sha else none

/-- `StripToml`. -/
def stripToml (s : Text) : Text :=
  if s.length > 5 ∧ s.drop (s.length - 5) = text ".toml" then s.take (s.length - 5)
  else assign 64 s

/-- `LookupRange`. -/
def Index.lookupRange (x : Index) (name spec : Text) : Option (Text × Text) :=
  (bestVersion spec ((x.files name).map stripToml)).bind fun best =>
    (x.lookup name (assign 32 best.toString)).map fun sha => (assign 32 best.toString, sha)

/-! ## Remote registries -/

/-- The local registry and the remote ones, by their URLs: the strings of the array that is the
reply to a request for the versions of a package, the version and the hash in the reply to one for
the latest version, and the hashes in the index. -/
structure Registries where
  index : Index
  versions : Text → Text → List Text
  latest : Text → Text → Option (Text × Text)
  sha : Text → Text → Text → Option Text

variable (R : Registries)

/-- `FetchLatest`. -/
def Registries.fetchLatest (url name : Text) : Option (Text × Text) :=
  (R.latest url name).bind fun r =>
    if r.1.length = 0 then none else some (assign 32 r.1, assign 65 r.2)

/-- `ResolveRangeRemote`. -/
def Registries.resolveRangeRemote (url name spec : Text) : Option (Text × Text) :=
  if (R.versions url name).length = 0 then none
  else (bestVersion spec (R.versions url name)).map fun best =>
    (assign 32 best.toString,
      match R.latest url name with
      | none => []
      | some r => assign 65 r.2)

/-- The registries as a part of the world. -/
def Registries.world (w : World) : World :=
  { w with
    lookup := R.index.lookup
    lookupRange := R.index.lookupRange
    fetchLatest := R.fetchLatest
    resolveRangeRemote := R.resolveRangeRemote }

/-- The replies of remote registries agree with their indexes, and versions and hashes fit the
arrays that mxpkg has for them. -/
structure Registries.WellFormed : Prop where
  files : ∀ name, ∀ f ∈ R.index.files name, (stripToml f).length < 32
  published : ∀ name v p, R.index.published name v = some p → 0 < p.2.length ∧ p.2.length < 65
  versions : ∀ url name, ∀ v ∈ R.versions url name, v.length < 32
  latest : ∀ url name r, R.latest url name = some r → r.1.length < 32 ∧ r.2.length < 65 ∧
    (r.2 ≠ [] → R.sha url name r.1 = some r.2)

/-! ## What is found -/

section Lookup

variable {x : Index} {name version : Text}

/-- The hash is read from the line that `Publish` writes for it, the last one. -/
theorem foldl_readSha {p : List Text × Text} (h : 0 < p.2.length) (hlt : p.2.length < 65) :
    (publishedLines p).foldl readSha [] = p.2 := by
  have hline : concat 512 (text "sha256=") p.2 = text "sha256=" ++ p.2 := by
    apply concat_of_lt
    rw [List.length_append, show (text "sha256=").length = 7 from rfl]
    omega
  have hsha : ∀ sha, readSha sha (text "sha256=" ++ p.2) = p.2 := by
    intro sha
    have hlen : (text "sha256=" ++ p.2).length = 7 + p.2.length := List.length_append
    rw [readSha, if_pos ⟨pos_self_append _ _, by omega⟩, hlen, Nat.add_sub_cancel_left]
    exact copy_back hlt (text "sha256=") (le_refl _)
  have hlast : ∀ sha, readSha sha (text "published=2026-02-18") = sha := fun _ => rfl
  rw [publishedLines, hline, List.foldl_append]
  simp only [List.foldl_cons, List.foldl_nil, hsha, hlast]

theorem Index.lookup_eq (h : ∀ p, x.published name version = some p →
    0 < p.2.length ∧ p.2.length < 65) :
    x.lookup name version = (x.published name version).map Prod.snd := by
  rw [Index.lookup]
  cases hp : x.published name version with
  | none => rfl
  | some p =>
    obtain ⟨hpos, hlt⟩ := h p hp
    simp only [Option.bind_some, Option.map_some, foldl_readSha hpos hlt]
    exact if_pos hpos

end Lookup

section Best

variable {spec : Text} {names : List Text} {best : Version}

/-- The best version is printed without a cut, and read again from what is printed. -/
theorem bestVersion_printed (hnames : ∀ name ∈ names, name.length < 32)
    (h : bestVersion spec names = some best) :
    assign 32 best.toString = best.toString ∧ Version.parse best.toString = some best := by
  obtain ⟨-, name, hmem, hparse⟩ := bestVersion_spec h
  obtain ⟨hlen, hprint⟩ := Version.toString_length_le hparse
  have hname := hnames name hmem
  exact ⟨assign_of_lt (by omega), hprint⟩

end Best

end Mx.Pkg
