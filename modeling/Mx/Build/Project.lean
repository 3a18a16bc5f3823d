import Mx.Pkg.Manifest

/-!
# Building a project

`build_project`: the files that it stamps, the hash that it compares with the one of the last
build, and the options that the compiler gets if the two differ.
-/

namespace Mx.Build

open Strings Pkg

attribute [local instance] lawfulBEq_text

/-! ## Paths and files -/

/-- An absolute path, by its components. -/
abbrev Path : Type := List Text

/-- The components of a path that is given as a text. -/
def components (s : Text) : Path := (words (· = 47) s).filter (· ≠ text ".")

/-- `Path::join`. -/
def join (p : Path) (s : Text) : Path :=
  if s.head? = some 47 then components s else p ++ components s

/-- The text of components. -/
def relativeText (p : Path) : Text := List.intercalate (text "/") p

/-- `to_string_lossy`, of an absolute path. -/
def pathText (p : Path) : Text := text "/" ++ relativeText p

/-- `Path::extension`. -/
def extension (p : Path) : Option Text :=
  p.getLast?.bind fun name =>
    match name.splitOn 46 with
    | [] | [_] | [[], _] => none
    | parts => parts.getLast?

/-- A file: its bytes, and when it was modified. -/
structure File where
  content : Text
  mtime : UInt64
  deriving DecidableEq, Repr

/-- What a build sees of the file system and its environment: the directories are finitely many, and
none is its own subdirectory. -/
structure World where
  file : Path → Option File
  isDir : Path → Bool
  readDir : Path → List Path
  canonicalize : Path → Option Path
  currentExe : Option Path
  libDir : Option Path
  hostIsDarwin : Bool
  places : List Path
  canonicalize_mem : ∀ p q, canonicalize p = some q → q ∈ places
  isDir_mem : ∀ p, isDir p = true → p ∈ places
  depth : Path → Nat
  descends : ∀ d, ∀ p ∈ readDir d, isDir p = true → depth p < depth d

/-- `exists`. -/
def World.exists (w : World) (p : Path) : Bool := (w.file p).isSome || w.isDir p

/-- `read_to_string`. -/
def World.read (w : World) (p : Path) : Option Text := (w.file p).map File.content

/-! ## Stamps -/

/-- The offset of FNV-1a. -/
def fnvOffset : UInt64 := 0xcbf29ce484222325

/-- The prime of FNV-1a. -/
def fnvPrime : UInt64 := 0x100000001b3

/-- `fnv1a`. -/
def fnv1a (data : Text) : UInt64 :=
  data.foldl (fun hash b => (hash ^^^ b.toUInt64) * fnvPrime) fnvOffset

/-- `FileStamp`. -/
structure FileStamp where
  mtime : UInt64
  size : UInt64
  hash : UInt64
  deriving DecidableEq, Repr

/-- `FileStamp::from_path`, of a file that can be read. -/
def File.stamp (f : File) : FileStamp := ⟨f.mtime, f.content.length.toUInt64, fnv1a f.content⟩

/-- What a file is stamped as: its path below the root, or else its path. -/
inductive StampKey where
  | inRoot (rel : Path)
  | outside (p : Path)
  deriving DecidableEq, Repr

/-- `strip_prefix`, or the path itself. -/
def stampKey (root p : Path) : StampKey :=
  if root.isPrefixOf p then .inRoot (p.drop root.length) else .outside p

/-- The text that the keys are sorted by. -/
def StampKey.text : StampKey → Text
  | .inRoot rel => relativeText rel
  | .outside p => pathText p

/-- An entry of a map whose keys are sorted. -/
def insertSorted {α : Type} (key : StampKey) (x : α) : List (StampKey × α) → List (StampKey × α)
  | [] => [(key, x)]
  | e :: es =>
    if key = e.1 then (key, x) :: es
    else if key.text < e.1.text then (key, x) :: e :: es
    else e :: insertSorted key x es

/-- A file is stamped, if it can be read. -/
def stampFile (w : World) (root : Path) (stamps : List (StampKey × File)) (p : Path) :
    List (StampKey × File) :=
  match w.file p with
  | some f => insertSorted (stampKey root p) f stamps
  | none => stamps

/-- The loop that computes the combined hash. -/
def combine (stamps : List FileStamp) : UInt64 :=
  stamps.foldl (fun combined stamp =>
    let combined := (combined ^^^ stamp.hash) * fnvPrime
    let combined := (combined ^^^ stamp.mtime) * fnvPrime
    (combined ^^^ stamp.size) * fnvPrime) fnvOffset

/-! ## Configurations -/

/-- `BuildConfig`. -/
structure BuildConfig where
  root : Path
  manifest : Manifest
  includePaths : List Path
  cc : Text
  optLevel : Nat
  verbose : Bool
  features : List Text
  debug : Bool
  useLlvm : Bool
  sanitize : Bool
  targetTriple : Option Text

/-- `CompileOptions`, as far as `build_project` sets them. -/
structure CompileOptions where
  input : Path
  output : Path
  includePaths : List Path
  m2plus : Bool
  cc : Text
  optLevel : Nat
  verbose : Bool
  debug : Bool
  emitLlvm : Bool
  useLlvm : Bool
  sanitize : Bool
  targetTriple : Option Text
  projectPaths : List Path
  features : List Text
  extraCflags : List Text
  frameworks : List Text
  extraCFiles : List Path
  linkLibs : List Text
  linkPaths : List Text
  deriving DecidableEq, Repr

/-- An element is added to a list, unless it is there. -/
def push {α : Type} [DecidableEq α] (xs : List α) (x : α) : List α :=
  if x ∈ xs then xs else xs ++ [x]

/-- All elements of a list are added to another one. -/
def pushAll {α : Type} [DecidableEq α] (xs ys : List α) : List α := ys.foldl push xs

/-- All entries of a section are added to another one. -/
def mergeCc (cc other : CcSection) : CcSection where
  cflags := pushAll cc.cflags other.cflags
  ldflags := pushAll cc.ldflags other.ldflags
  libs := pushAll cc.libs other.libs
  extraC := pushAll cc.extraC other.extraC
  frameworks := pushAll cc.frameworks other.frameworks

/-- `merged_cc`. -/
def mergedCc (m : Manifest) (features : List Text) : CcSection :=
  features.foldl (fun cc feat => ((m.featureCc feat).map (mergeCc cc)).getD cc) m.cc

/-- ASCII letters in lower case. -/
def toLower (s : Text) : Text := s.map fun c => if 65 ≤ c ∧ c ≤ 90 then c + 32 else c

/-- `from_triple` and `is_darwin`: none for a triple that is not supported. -/
def tripleIsDarwin (triple : Text) : Option Bool :=
  match (toLower triple).splitOn 45 with
  | [] => none
  | arch :: rest =>
    let tail := List.intercalate (text "-") rest
    if arch ∉ [text "x86_64", text "aarch64", text "arm64"] then none
    else if (pos (text "linux") tail).isSome then some false
    else if (pos (text "darwin") tail).isSome ∨ (pos (text "macos") tail).isSome ∨
        (pos (text "apple") tail).isSome then some true
    else none

section Cc

variable (w : World)

/-- The root of a dependency, from its source. -/
def depRoot (root : Path) (dep : DepEntry) : Option Path :=
  match dep.source with
  | .local rel => w.canonicalize (join root rel)
  | .installed | .registry _ =>
    w.libDir.bind fun lib => if w.isDir (join lib dep.name) then some (join lib dep.name) else none

/-- The manifest in a directory. -/
def manifestIn (root : Path) : Option Manifest :=
  (w.read (join root (text "m2.toml"))).bind parseManifest

/-- A dependency, in the loop of `collect_dep_cc`, for the call on the dependencies of its own. -/
def visitDep (features : List Text)
    (collect : Path → Manifest → CcSection × List Path → CcSection × List Path) (root : Path)
    (st : CcSection × List Path) (dep : DepEntry) : CcSection × List Path :=
  match depRoot w root dep with
  | none => st
  | some dir =>
    if dir ∈ st.2 then st
    else
      match manifestIn w dir with
      | none => (st.1, st.2 ++ [dir])
      | some dm =>
        let cc := mergedCc dm features
        let extra := cc.extraC.map fun f =>
          pathText ((w.canonicalize (join dir f)).getD (join dir f))
        collect dir dm (mergeCc st.1 { cc with extraC := extra }, st.2 ++ [dir])

/-- `collect_dep_cc`, with the roots that were visited, to a depth. -/
def collectDepCc (features : List Text) : Nat → Path → Manifest → CcSection × List Path →
    CcSection × List Path
  | 0, _, _, st => st
  | fuel + 1, root, m, st =>
    m.deps.foldl (visitDep w features (collectDepCc features fuel) root) st

/-- `collect_transitive_cc`. No dependency is visited twice, so that the depth is bounded by the
number of places. -/
def collectTransitiveCc (root : Path) (m : Manifest) (lock : Option Lockfile)
    (features : List Text) : CcSection :=
  match lock with
  | some lock =>
    lock.deps.foldl (fun cc dep =>
      if dep.path = [] then cc
      else
        match manifestIn w (join root dep.path) with
        | none => cc
        | some dm =>
          let dc := mergedCc dm features
          let extra := dc.extraC.map fun f => pathText (join (join root dep.path) f)
          mergeCc cc { dc with extraC := extra }) .default
  | none =>
    if m.deps = [] then .default
    else (collectDepCc w features w.places.length root m (.default, [])).1

end Cc

/-! ## Building -/

/-- The extensions of source files. -/
def sourceExtensions : List Text := [text "mod", text "MOD", text "def", text "DEF"]

/-- `collect_source_files`, to a depth. -/
def collectSourceFiles (w : World) : Nat → Path → List Path → List Path
  | 0, _, out => out
  | fuel + 1, dir, out =>
    (w.readDir dir).foldl (fun out path =>
      if w.isDir path then collectSourceFiles w fuel path out
      else if (extension path).any (· ∈ sourceExtensions) then push out path
      else out) out

/-- An `-L` is dropped. -/
def linkPath (ldflag : Text) : Text := (stripPrefix (text "-L") ldflag).getD ldflag

/-- A call of `build_project`: what it is given, and what it sees. -/
structure Project where
  world : World
  config : BuildConfig

namespace Project

variable (b : Project)

/-- The entry file. -/
def entryPath : Path :=
  join b.config.root
    (if b.config.manifest.entry = [] then text "src/Main.mod" else b.config.manifest.entry)

/-- The entry file and the sources on the include paths. -/
def moduleFiles : List Path :=
  b.config.includePaths.foldl (fun files inc =>
    if b.world.isDir inc then collectSourceFiles b.world (b.world.depth inc + 1) inc files
    else files) [b.entryPath]

/-- All files to stamp. -/
def sourceFiles : List Path :=
  b.moduleFiles ++
    ([join b.config.root (text "m2.toml"), join b.config.root (text "m2.lock")].filter
      b.world.exists) ++ b.world.currentExe.toList

/-- The files that are stamped, by their keys. -/
def stamped : List (StampKey × File) :=
  b.sourceFiles.foldl (stampFile b.world b.config.root) []

/-- The combined hash. -/
def combined : UInt64 := combine (b.stamped.map fun e => e.2.stamp)

/-- `artifact_path`. -/
def artifact : Path := join (join b.config.root (text ".mx/bin")) b.config.manifest.name

/-- The features, with the one of the platform. -/
def features : List Text :=
  if (b.config.targetTriple.bind tripleIsDarwin).getD b.world.hostIsDarwin then
    push b.config.features (text "MACOS")
  else push b.config.features (text "LINUX")

/-- The `[cc]` section of the project. -/
def ownCc : CcSection := mergedCc b.config.manifest b.features

/-- The `[cc]` sections of the dependencies. -/
def depCc : CcSection :=
  collectTransitiveCc b.world b.config.root b.config.manifest
    ((b.world.read (join b.config.root (text "m2.lock"))).bind parseLock) b.features

/-- The extra C files of the project. -/
def ownExtra : List Path := b.ownCc.extraC.map (join b.config.root)

/-- The extra C files, with those of the dependencies that are not the same files. -/
def extraCFiles : List Path :=
  b.depCc.extraC.foldl (fun files extra =>
    if (b.world.canonicalize (components extra)).any
        (· ∈ b.ownExtra.filterMap b.world.canonicalize) then files
    else push files (components extra)) b.ownExtra

/-- The options that the compiler gets. -/
def options : CompileOptions where
  input := b.entryPath
  output := b.artifact
  includePaths := b.config.includePaths
  m2plus := b.config.manifest.m2plus
  cc := b.config.cc
  optLevel := b.config.optLevel
  verbose := b.config.verbose
  debug := b.config.debug
  emitLlvm := b.config.useLlvm
  useLlvm := b.config.useLlvm
  sanitize := b.config.sanitize
  targetTriple := b.config.targetTriple
  projectPaths := b.config.root ::
    b.config.manifest.includes.filterMap fun inc => b.world.canonicalize (join b.config.root inc)
  features := b.features
  extraCflags := pushAll b.ownCc.cflags b.depCc.cflags
  frameworks := pushAll b.ownCc.frameworks b.depCc.frameworks
  extraCFiles := b.extraCFiles
  linkLibs := pushAll b.ownCc.libs b.depCc.libs
  linkPaths := pushAll (b.ownCc.ldflags.map linkPath) (b.depCc.ldflags.map linkPath)

end Project

/-- What `build_project` does. -/
inductive Action where
  | entryNotFound
  | upToDate (artifact : Path)
  | compile (opts : CompileOptions)
  deriving DecidableEq, Repr

/-- `build_project`, up to the call of the compiler, for the hash in the build state. -/
def Project.build (b : Project) (lastBuildHash : UInt64) : Action :=
  if b.world.exists b.entryPath = false then .entryNotFound
  else if lastBuildHash = b.combined ∧ b.combined ≠ 0 ∧ b.world.exists b.artifact = true then
    .upToDate b.artifact
  else .compile b.options

end Mx.Build
