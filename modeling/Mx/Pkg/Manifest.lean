import Mx.Pkg.Lockfile
import Mx.Pkg.Resolver

/-!
# The manifest

The two readers of a manifest: `Manifest::parse` of the compiler, and `Read` of mxpkg.
-/

namespace Mx.Pkg

open Strings

/-! ## Reading by the compiler -/

/-- `CcSection`. -/
structure CcSection where
  cflags : List Text
  ldflags : List Text
  libs : List Text
  extraC : List Text
  frameworks : List Text
  deriving DecidableEq, Repr

/-- `CcSection::default`. -/
def CcSection.default : CcSection := ⟨[], [], [], [], []⟩

/-- `DepSource`. -/
inductive DepSource where
  | local (path : Text)
  | registry (version : Text)
  | installed
  deriving DecidableEq, Repr

/-- `DepEntry`. -/
structure DepEntry where
  name : Text
  source : DepSource
  deriving DecidableEq, Repr

/-- `TestSection`. -/
structure TestSection where
  entry : Text
  includes : List Text
  deriving DecidableEq, Repr

/-- The sections of `Manifest::parse`. -/
inductive ManifestSection where
  | package
  | deps
  | cc
  | test
  | features
  | registry
  | other
  | ccFeature
  deriving DecidableEq, Repr

/-- The variables of `Manifest::parse`. -/
structure ManifestParser where
  name : Text
  version : Text
  entry : Text
  m2plus : Bool
  backend : Option Text
  includes : List Text
  deps : List DepEntry
  cc : CcSection
  featureCc : Text → Option CcSection
  test : TestSection
  curSection : ManifestSection
  ccFeatureName : Text

/-- The variables before the first line. -/
def ManifestParser.init : ManifestParser where
  name := []
  version := []
  entry := []
  m2plus := false
  backend := none
  includes := []
  deps := []
  cc := .default
  featureCc _ := none
  test := ⟨text "tests/Main.mod", []⟩
  curSection := .package
  ccFeatureName := []

/-- `strip_prefix`. -/
def stripPrefix (start s : Text) : Option Text :=
  if start.isPrefixOf s then some (s.drop start.length) else none

/-- A value is stored under its key in a section for the C compiler. -/
def CcSection.set (key val : Text) (cc : CcSection) : CcSection :=
  if key = text "cflags" then { cc with cflags := splitWhitespace val }
  else if key = text "ldflags" then { cc with ldflags := splitWhitespace val }
  else if key = text "libs" then
    { cc with libs := (splitWhitespace val).map fun s => (stripPrefix (text "-l") s).getD s }
  else if key = text "extra-c" then { cc with extraC := splitWhitespace val }
  else if key = text "frameworks" then { cc with frameworks := splitWhitespace val }
  else cc

namespace ManifestParser

variable (st : ManifestParser)

/-- A section header, without its brackets. -/
def header (sec : Text) : ManifestParser :=
  match (stripPrefix (text "cc.feature.") sec).filter (· ≠ []) with
  | some feat =>
    { st with
      ccFeatureName := feat
      curSection := .ccFeature
      featureCc := Function.update st.featureCc feat (some ((st.featureCc feat).getD .default)) }
  | none =>
    { st with
      ccFeatureName := []
      curSection :=
        if sec = text "deps" then .deps
        else if sec = text "cc" then .cc
        else if sec = text "test" then .test
        else if sec = text "features" then .features
        else if sec = text "registry" then .registry
        else .other }

/-- A key and its value before the first section. -/
def setPackage (key val : Text) : ManifestParser :=
  if key = text "name" then { st with name := val }
  else if key = text "version" then { st with version := val }
  else if key = text "entry" then { st with entry := val }
  else if key = text "m2plus" then { st with m2plus := val = text "true" || val = text "1" }
  else if key = text "backend" then { st with backend := some val }
  else if key = text "includes" then { st with includes := splitWhitespace val }
  else if key = text "edition" then if val = text "m2plus" then { st with m2plus := true } else st
  else st

/-- The source of a dependency. -/
def source (val : Text) : DepSource :=
  match stripPrefix (text "path:") val with
  | some path => .local path
  | none => .registry val

/-- A key and its value in the current section. -/
def set (key val : Text) : ManifestParser :=
  match st.curSection with
  | .package => st.setPackage key val
  | .deps => { st with deps := st.deps ++ [⟨key, source val⟩] }
  | .cc => { st with cc := st.cc.set key val }
  | .ccFeature =>
    match st.featureCc st.ccFeatureName with
    | some fcc =>
      { st with
        featureCc := Function.update st.featureCc st.ccFeatureName (some (fcc.set key val)) }
    | none => st
  | .test =>
    if key = text "entry" then { st with test := { st.test with entry := val } }
    else if key = text "includes" then
      { st with test := { st.test with includes := splitWhitespace val } }
    else st
  | .features | .registry | .other => st

/-- One line of `Manifest::parse`. -/
def line (line : Text) : ManifestParser :=
  let trimmed := trim line
  if trimmed = [] ∨ trimmed.head? = some 35 then st
  else if trimmed.head? = some 91 ∧ trimmed.getLast? = some 93 then
    st.header (trimmed.drop 1).dropLast
  else
    match pos (text "=") trimmed with
    | none =>
      if st.curSection = .deps then { st with deps := st.deps ++ [⟨trimmed, .installed⟩] } else st
    | some eqPos => st.set (trim (trimmed.take eqPos)) (trim (trimmed.drop (eqPos + 1)))

end ManifestParser

/-- `Manifest`. -/
structure Manifest where
  name : Text
  version : Text
  entry : Text
  m2plus : Bool
  includes : List Text
  deps : List DepEntry
  cc : CcSection
  featureCc : Text → Option CcSection
  test : TestSection
  backend : Option Text

/-- The end of `Manifest::parse`. -/
def ManifestParser.manifest (st : ManifestParser) : Option Manifest :=
  if st.name = [] then none
  else
    some ⟨st.name, st.version, st.entry, st.m2plus, st.includes, st.deps, st.cc, st.featureCc,
      st.test, st.backend⟩

/-- `Manifest::parse`. -/
def parseManifest (content : Text) : Option Manifest :=
  ((lines content).foldl ManifestParser.line .init).manifest

/-! ## Reading by mxpkg -/

/-- `MaxDeps`. -/
def maxDeps : Nat := 16

/-- `MaxExtra`. -/
def maxExtra : Nat := 8

/-- `MaxCCLibs`. -/
def maxCCLibs : Nat := 8

/-- `MaxCCExtraC`. -/
def maxCCExtraC : Nat := 8

/-- `MaxCCFrameworks`. -/
def maxCCFrameworks : Nat := 8

/-- `MaxFeatures`. -/
def maxFeatures : Nat := 8

/-- The sections of `Read`, which `ProcessLine` knows by their first letters. -/
inductive ReaderSection where
  | package
  | deps
  | features
  | registry
  | cc
  | other
  deriving DecidableEq, Repr

/-- The variables of mxpkg's `Manifest`, and the section that `Read` is in. The arrays are lists of
what is counted in them. -/
structure ManifestReader where
  name : Text
  version : Text
  entry : Text
  m2plus : Bool
  includes : Text
  deps : List ManifestDep
  extraC : List Text
  manifestVersion : Nat
  edition : Text
  editionSet : Bool
  ccFlags : Text
  ldFlags : Text
  ccLibs : List Text
  ccExtraC : List Text
  ccFrameworks : List Text
  features : List (Text × Text)
  registryURL : Text
  curSection : ReaderSection

/-- `Clear`, and the section before the first line. -/
def ManifestReader.clear : ManifestReader where
  name := []
  version := []
  entry := []
  m2plus := false
  includes := []
  deps := []
  extraC := []
  manifestVersion := 0
  edition := text "pim4"
  editionSet := false
  ccFlags := []
  ldFlags := []
  ccLibs := []
  ccExtraC := []
  ccFrameworks := []
  features := []
  registryURL := []
  curSection := .package

/-- An element is added to an array, unless it is full. -/
def addTo {α : Type} (max : Nat) (xs : List α) (x : α) : List α :=
  if xs.length < max then xs ++ [x] else xs

/-- The loop of `ParseSpaceSep`, for an array of names. A word that does not fit `tok` is written
past its end. -/
def addWords (max : Nat) (xs : List Text) : List Text → Option (List Text)
  | [] => some xs
  | tok :: toks =>
    if tok.length < 64 then addWords max (addTo max xs (assign 64 tok)) toks else none

/-- `ParseSpaceSep`, for an array of names. -/
def parseSpaceSep (max : Nat) (value : Text) (xs : List Text) : Option (List Text) :=
  addWords max xs (words (· = 32) value)

/-- The dependency of a key and its value. -/
def readDep (key value : Text) : ManifestDep :=
  if pos (text "path:") value = some 0 then
    { name := assign 64 key
      path := copy 256 value 5 (value.length - 5)
      isLocal := true
      isURL := false
      url := []
      name_lt := assign_length_lt (by decide) key
      path_lt := copy_length_lt (by decide) ..
      url_lt := by decide }
  else if value.length > 4 ∧ (text "http").isPrefixOf value then
    match pos (text "#") value with
    | some n =>
      { name := assign 64 key
        path := copy 256 value (n + 1) (value.length - n - 1)
        isLocal := false
        isURL := true
        url := copy 256 value 0 n
        name_lt := assign_length_lt (by decide) key
        path_lt := copy_length_lt (by decide) ..
        url_lt := (copy_length_lt (by decide) ..).trans (by decide) }
    | none =>
      { name := assign 64 key
        path := []
        isLocal := false
        isURL := true
        url := assign 512 value
        name_lt := assign_length_lt (by decide) key
        path_lt := by decide
        url_lt := assign_length_lt (by decide) value }
  else
    { name := assign 64 key
      path := assign 256 value
      isLocal := false
      isURL := false
      url := []
      name_lt := assign_length_lt (by decide) key
      path_lt := assign_length_lt (by decide) value
      url_lt := by decide }

namespace ManifestReader

variable (st : ManifestReader)

/-- A key and its value before the first section. -/
def setPackage (key value : Text) : ManifestReader :=
  if key = text "name" then { st with name := assign 64 value }
  else if key = text "version" then { st with version := assign 32 value }
  else if key = text "entry" then { st with entry := assign 256 value }
  else if key = text "m2plus" then
    { st with m2plus := value.head? = some 116 || value.head? = some 49 }
  else if key = text "includes" then { st with includes := assign 1024 value }
  else if key = text "extra-c" then
    { st with extraC := addTo maxExtra st.extraC (assign 256 value) }
  else if key = text "manifest_version" then
    match value with
    | c :: _ => if 48 ≤ c ∧ c ≤ 57 then { st with manifestVersion := c.toNat - 48 } else st
    | [] => st
  else if key = text "edition" then
    { st with
      edition := assign 32 value
      editionSet := true
      m2plus := if value = text "m2plus" then true else st.m2plus }
  else st

/-- A key and its value in the section for the C compiler. -/
def setCC (key value : Text) : Option ManifestReader :=
  if key = text "cflags" then some { st with ccFlags := assign 1024 value }
  else if key = text "ldflags" then some { st with ldFlags := assign 1024 value }
  else if key = text "libs" then
    (parseSpaceSep maxCCLibs value st.ccLibs).map fun libs => { st with ccLibs := libs }
  else if key = text "extra-c" then
    some { st with ccExtraC := addTo maxCCExtraC st.ccExtraC (assign 256 value) }
  else if key = text "frameworks" then
    (parseSpaceSep maxCCFrameworks value st.ccFrameworks).map fun frameworks =>
      { st with ccFrameworks := frameworks }
  else some st

/-- A key and its value in the current section. -/
def set (key value : Text) : Option ManifestReader :=
  match st.curSection with
  | .package => some (st.setPackage key value)
  | .deps => some { st with deps := addTo maxDeps st.deps (readDep key value) }
  | .cc => st.setCC key value
  | .features =>
    some { st with features := addTo maxFeatures st.features (assign 64 key, assign 16 value) }
  | .registry =>
    some (if key = text "url" then { st with registryURL := assign 512 value } else st)
  | .other => some st

/-- `ProcessLine`. Without a `=`, its place is -1, and both the key and the value are copied from
the whole line. -/
def processLine (line : Text) : Option ManifestReader :=
  match pos (text "=") line with
  | none => st.set (copy 64 line 0 line.length) (copy 256 line 0 line.length)
  | some eqPos =>
    let key := copy 64 line 0 eqPos
    let vlen := line.length - eqPos - 1
    let value := if vlen > 0 then copy 256 line (eqPos + 1) vlen else []
    st.set key value

/-- A header, in `Read`. -/
def header (line : Text) : ManifestReader :=
  { st with
    curSection :=
      if occurs (text "deps") line then .deps
      else if occurs (text "features") line then .features
      else if occurs (text "registry") line then .registry
      else if occurs (text "cc") line then .cc
      else .other }

/-- One line of `Read`. -/
def line (line : Text) : Option ManifestReader :=
  if line.length = 0 then some st
  else if line.head? = some 35 then some st
  else if line.head? = some 91 then some (st.header line)
  else st.processLine line

/-- The end of `Read`. `none` is `ManifestError`. -/
def finish : Option ManifestReader :=
  let version := if st.manifestVersion = 0 then 1 else st.manifestVersion
  if version > 1 then none
  else
    some { st with
      manifestVersion := version
      m2plus := if st.editionSet ∧ st.edition = text "m2plus" then true else st.m2plus }

end ManifestReader

/-- `Read`, of a file that can be opened. -/
def readManifest (file : Text) : Option ManifestReader :=
  ((bufferLines 512 file).foldlM ManifestReader.line .clear).bind ManifestReader.finish

end Mx.Pkg
