import Mx.Pkg.Registry

/-!
# The package cache

`Fetch` and `FetchRemote` of mxpkg over the directories of the cache, where every step that they
take outside may fail. A package is taken from the cache if there is a directory for it, and
`tar` gets its paths through a shell. So what the cache gives out is verified as long as no
directory is left behind by an extraction that failed, no two packages have one directory, and the
shell takes the paths as they are.
-/

namespace Mx.Pkg

open Strings List

/-! ## Paths -/

/-- `m2sys_join_path`, into an array of 1024 characters. -/
def joinPath (a b : Text) : Text :=
  let la := if a.getLast? = some 47 then a.length - 1 else a.length
  if la + 1 + b.length + 1 > 1024 then [] else a.take la ++ 47 :: b

/-- The name of the directory for a version of a package, in an array of 128 characters. -/
def dirName (name version : Text) : Text :=
  assign 128 (concat 1024 (assign 128 (concat 1024 (assign 128 name) (text "-"))) version)

/-- The path of the tarball in the local registry, where it has a name of at most 255 characters. -/
def localTarPath (registryDir name version : Text) : Text :=
  let base := assign 256 (concat 1024 (assign 256 (concat 1024 (assign 256 name) (text "-")))
    version)
  joinPath (joinPath registryDir (text "packages")) (assign 256 (concat 1024 base (text ".tar")))

/-- The path of the tarball that is downloaded, next to the directory. -/
def remoteTarPath (cacheDir name version : Text) : Text :=
  concat 1024 (joinPath cacheDir (dirName name version)) (text ".tar")

/-- The shell takes a text between double quotes as it is: there is no double quote, dollar sign,
backslash or backquote in it. -/
def Literal (s : Text) : Prop := ∀ c ∈ s, c ∉ ([34, 36, 92, 96] : Text)

instance (s : Text) : Decidable (Literal s) :=
  inferInstanceAs (Decidable (∀ c ∈ s, c ∉ ([34, 36, 92, 96] : Text)))

/-- A directory that `m2sys_mkdir_p` makes on the way to another one. -/
def isParent (p path : Text) : Bool := decide (p ≠ []) && (p ++ [47]).isPrefixOf path

/-! ## The cache -/

/-- What was extracted into a directory: for which version of which package, with the lines of the
index entry that its hash was compared with, and whether the extraction came to its end. -/
structure Extraction (Tarball : Type) where
  name : Text
  version : Text
  entry : List Text
  tarball : Tarball
  complete : Bool

/-- The directories under the cache, with what was extracted into each of them. -/
abbrev Cache (Tarball : Type) : Type := Text → Option (List (Extraction Tarball))

/-- What `mkdir` does at the end of a path. A file that is there counts as success. -/
inductive Mkdir where
  | failed
  | occupied
  | created
  deriving DecidableEq, Repr

/-- How the steps of a call turn out: the lines of the index entry, if it is found or downloaded,
the tarball, if it is there or downloaded, whether it can be hashed, the directories that are made
on the way and at the end, whether the command for `tar` succeeds, the directories that it leaves
below, and what it does to the cache when the shell does not take its paths as they are. -/
structure Outcome (Tarball : Type) where
  entry : Option (List Text)
  tarball : Option Tarball
  hashed : Bool
  parents : Text → Bool
  mkdir : Mkdir
  extracted : Bool
  subdirs : List Text
  effect : Cache Tarball → Cache Tarball

section Fetch

variable {Tarball : Type} (sha256 : Tarball → Text) (registryDir cacheDir : Text)

/-- Directories are made. -/
def Cache.mkdirs (s : Cache Tarball) (which : Text → Bool) : Cache Tarball :=
  fun p => if which p then some ((s p).getD []) else s p

attribute [local instance] lawfulBEq_text

/-- `tar xf`, of a tarball into a directory that is there. -/
def Cache.extract (s : Cache Tarball) (path : Text) (x : Extraction Tarball)
    (subdirs : List Text) : Cache Tarball :=
  let s' : Cache Tarball := Function.update s path (some ((s path).getD [] ++ [x]))
  s'.mkdirs fun p => decide (p ∈ subdirs.map fun d => path ++ 47 :: d)

/-- `m2sys_tar_extract`, into a directory that is there: a shell command with both paths between
double quotes. -/
def Cache.tarExtract (s : Cache Tarball) (archive path : Text) (x : Extraction Tarball)
    (o : Outcome Tarball) : Cache Tarball :=
  if Literal archive ∧ Literal path then s.extract path x o.subdirs else o.effect s

/-- The part that `Fetch` and `FetchRemote` have in common. An exception is no path. -/
def fetchInto (s : Cache Tarball) (name version archive : Text) (o : Outcome Tarball) :
    Cache Tarball × Option Text :=
  let path := joinPath cacheDir (dirName name version)
  if (s path).isSome then (s, some path)
  else
    match o.entry, o.tarball with
    | some entry, some tarball =>
      let sha := entry.foldl readSha []
      if sha.length = 0 then (s, none)
      else if o.hashed = false ∨ sha ≠ sha256 tarball then (s, none)
      else extractInto s path archive ⟨name, version, entry, tarball, o.extracted⟩ o
    | _, _ => (s, none)
where
  /-- The directory is made and the tarball extracted to it. -/
  extractInto (s : Cache Tarball) (path archive : Text) (x : Extraction Tarball)
      (o : Outcome Tarball) : Cache Tarball × Option Text :=
    -- Without a path there is nothing that could be made.
    match if path = [] then Mkdir.failed else o.mkdir with
    | .failed | .occupied => (s.mkdirs fun p => isParent p path && o.parents p, none)
    | .created =>
      ((s.mkdirs fun p => decide (p = path) || isParent p path).tarExtract archive path x o,
        if o.extracted then some path else none)

/-- A call. The URL is that of `FetchRemote`. -/
structure FetchCall (Tarball : Type) where
  url : Option Text
  name : Text
  version : Text
  outcome : Outcome Tarball

/-- `Fetch`: the index entry and the tarball are those of the local registry. -/
def fetch (s : Cache Tarball) (name version : Text) (o : Outcome Tarball) :
    Cache Tarball × Option Text :=
  fetchInto sha256 cacheDir s name version (localTarPath registryDir name version) o

/-- `FetchRemote`: the index entry and the tarball are downloaded. -/
def fetchRemote (s : Cache Tarball) (_url name version : Text) (o : Outcome Tarball) :
    Cache Tarball × Option Text :=
  fetchInto sha256 cacheDir s name version (remoteTarPath cacheDir name version) o

/-- One call. -/
def FetchCall.run (c : FetchCall Tarball) (s : Cache Tarball) : Cache Tarball × Option Text :=
  match c.url with
  | none => fetch sha256 registryDir cacheDir s c.name c.version c.outcome
  | some url => fetchRemote sha256 cacheDir s url c.name c.version c.outcome

/-- The path of the tarball for a call. -/
def FetchCall.archive (c : FetchCall Tarball) : Text :=
  match c.url with
  | none => localTarPath registryDir c.name c.version
  | some _ => remoteTarPath cacheDir c.name c.version

/-- The cache after calls, from an empty one. -/
def cacheAfter (calls : List (FetchCall Tarball)) : Cache Tarball :=
  calls.foldl (fun s c => (c.run sha256 registryDir cacheDir s).1) fun _ => none

/-- The directory at a path is what a complete extraction has made of a tarball for a version of a
package, the hash of which was in the index entry. -/
def Cache.Verified (s : Cache Tarball) (path name version : Text) : Prop :=
  ∃ x, s path = some [x] ∧ x.name = name ∧ x.version = version ∧ x.complete = true ∧
    x.entry.foldl readSha [] = sha256 x.tarball

end Fetch

/-! ## Directories of packages -/

section Paths

variable {cacheDir d d' p : Text}

/-- The directory of the cache, without a slash at its end. -/
def cacheBase (cacheDir : Text) : Text :=
  cacheDir.take (if cacheDir.getLast? = some 47 then cacheDir.length - 1 else cacheDir.length)

/-- The path of a directory in the cache. -/
def packagePath (cacheDir d : Text) : Text := cacheBase cacheDir ++ 47 :: d

theorem joinPath_eq (h : joinPath cacheDir d ≠ []) :
    joinPath cacheDir d = packagePath cacheDir d := by
  rw [joinPath] at h ⊢
  simp only [packagePath, cacheBase]
  generalize (if cacheDir.getLast? = some 47 then cacheDir.length - 1 else cacheDir.length) = la
    at h ⊢
  by_cases hlen : la + 1 + d.length + 1 > 1024
  · rw [if_pos hlen] at h
    exact absurd rfl h
  · exact if_neg hlen

theorem packagePath_inj (h : packagePath cacheDir d = packagePath cacheDir d') : d = d' :=
  tail_eq_of_cons_eq (append_cancel_left h)

/-- Without a slash in its name, a directory of the cache is not on the way to another one. -/
theorem not_isParent (h : 47 ∉ d') :
    isParent (packagePath cacheDir d) (packagePath cacheDir d') = false := by
  rw [isParent, Bool.and_eq_false_iff]
  right
  rw [Bool.eq_false_iff, ne_eq, List.isPrefixOf_iff_prefix]
  rintro ⟨t, ht⟩
  rw [packagePath, packagePath, append_assoc, append_assoc] at ht
  have htail := tail_eq_of_cons_eq (append_cancel_left ht)
  rw [← htail] at h
  exact h (mem_append_right d (mem_cons_self))

/-- Without a slash in its name, a directory of the cache is not one below another one. -/
theorem packagePath_ne_sub (h : 47 ∉ d) (sub : Text) :
    packagePath cacheDir d ≠ packagePath cacheDir d' ++ 47 :: sub := by
  intro heq
  rw [packagePath, packagePath, append_assoc] at heq
  have htail := tail_eq_of_cons_eq (append_cancel_left heq)
  rw [htail] at h
  exact h (mem_append_right d' mem_cons_self)

theorem dirName_noSlash {name version : Text} (hname : 47 ∉ name) (hversion : 47 ∉ version) :
    47 ∉ dirName name version := by
  intro h
  rw [dirName] at h
  rcases mem_append.mp (mem_of_mem_take (mem_of_mem_take h)) with hfront | hback
  · have hdash : (47 : UInt8) ∉ text "-" := by decide
    rcases mem_append.mp (mem_of_mem_take (mem_of_mem_take hfront)) with hn | hd
    · exact hname (mem_of_mem_take hn)
    · exact hdash hd
  · exact hversion hback

end Paths

/-! ## Calls -/

section Calls

variable {Tarball : Type} {sha256 : Tarball → Text} {cacheDir : Text} {s : Cache Tarball}
  {name version d : Text} {o : Outcome Tarball}

theorem Cache.mkdirs_of_not {which : Text → Bool} {p : Text} (h : which p = false) :
    s.mkdirs which p = s p := by
  rw [Cache.mkdirs, h]
  rfl

theorem Cache.extract_of_ne {path p : Text} {x : Extraction Tarball} {subdirs : List Text}
    (hne : p ≠ path) (hsub : p ∉ subdirs.map fun sub => path ++ 47 :: sub) :
    s.extract path x subdirs p = s p := by
  rw [Cache.extract, Cache.mkdirs_of_not (decide_eq_false hsub)]
  exact Function.update_of_ne hne _ _

theorem Cache.extract_self {path : Text} {x : Extraction Tarball} {subdirs : List Text}
    (hsub : path ∉ subdirs.map fun sub => path ++ 47 :: sub) :
    s.extract path x subdirs path = some ((s path).getD [] ++ [x]) := by
  rw [Cache.extract, Cache.mkdirs_of_not (decide_eq_false hsub)]
  exact Function.update_self _ _ _

/-- What an extraction has made, if it is one of a verified tarball. -/
def Made (sha256 : Tarball → Text) (name version : Text) (o : Outcome Tarball)
    (x : Extraction Tarball) : Prop :=
  x.name = name ∧ x.version = version ∧ x.complete = o.extracted ∧
    x.entry.foldl readSha [] = sha256 x.tarball

/-- A call leaves the directories of packages as they are, and gives out the one it asks for if it
is there. -/
def Kept (cacheDir name version : Text) (s : Cache Tarball)
    (r : Cache Tarball × Option Text) : Prop :=
  r.2 = (if (s (joinPath cacheDir (dirName name version))).isSome then
      some (joinPath cacheDir (dirName name version)) else none) ∧
    ∀ d, 47 ∉ d → r.1 (packagePath cacheDir d) = s (packagePath cacheDir d)

/-- A call makes the directory of the package it asks for, and leaves the other ones as they are. -/
structure Makes (sha256 : Tarball → Text) (cacheDir name version : Text) (o : Outcome Tarball)
    (s : Cache Tarball) (r : Cache Tarball × Option Text) : Prop where
  path_ne : joinPath cacheDir (dirName name version) ≠ []
  created : o.mkdir = .created
  result : r.2 = if o.extracted then some (joinPath cacheDir (dirName name version)) else none
  made : ∃ x, r.1 (joinPath cacheDir (dirName name version)) = some [x] ∧
    Made sha256 name version o x
  others : ∀ d, 47 ∉ d → d ≠ dirName name version →
    r.1 (packagePath cacheDir d) = s (packagePath cacheDir d)

/-- Where nothing is made but directories on the way, the directories of packages are kept. -/
theorem mkdirs_parents (hslash : 47 ∉ dirName name version) (which : Text → Bool) (d : Text) :
    (s.mkdirs fun p => isParent p (joinPath cacheDir (dirName name version)) && which p)
      (packagePath cacheDir d) = s (packagePath cacheDir d) := by
  apply Cache.mkdirs_of_not
  rw [Bool.and_eq_false_iff]
  left
  by_cases hnil : joinPath cacheDir (dirName name version) = []
  · rw [hnil, isParent, Bool.and_eq_false_iff]
    right
    cases packagePath cacheDir d <;> rfl
  · rw [joinPath_eq hnil]
    exact not_isParent hslash

/-- The directory of the package, after an extraction to it. -/
theorem extract_made (x : Extraction Tarball) (subdirs : List Text)
    (hslash : 47 ∉ dirName name version)
    (hnil : joinPath cacheDir (dirName name version) ≠ [])
    (hnone : s (joinPath cacheDir (dirName name version)) = none) :
    let path := joinPath cacheDir (dirName name version)
    let s' := (s.mkdirs fun p => decide (p = path) || isParent p path).extract path x subdirs
    s' path = some [x] ∧ ∀ d, 47 ∉ d → d ≠ dirName name version →
      s' (packagePath cacheDir d) = s (packagePath cacheDir d) := by
  intro path s'
  have hkey : path = packagePath cacheDir (dirName name version) := joinPath_eq hnil
  have hsub : ∀ d, 47 ∉ d →
      packagePath cacheDir d ∉ subdirs.map fun sub => path ++ 47 :: sub := by
    intro d hd hmem
    obtain ⟨sub, -, heq⟩ := mem_map.mp hmem
    rw [hkey] at heq
    exact packagePath_ne_sub hd sub heq.symm
  constructor
  · have hself := hsub _ hslash
    rw [← hkey] at hself
    have hmade : (s.mkdirs fun p => decide (p = path) || isParent p path) path = some [] := by
      have hpath : s path = none := hnone
      simp [Cache.mkdirs, hpath]
    simp only [s']
    rw [Cache.extract_self hself, hmade]
    rfl
  · intro d hd hne
    have hother : packagePath cacheDir d ≠ path := by
      rw [hkey]
      exact fun heq => hne (packagePath_inj heq)
    simp only [s']
    rw [Cache.extract_of_ne hother (hsub d hd)]
    apply Cache.mkdirs_of_not
    rw [hkey, not_isParent hslash, Bool.or_false, ← hkey]
    exact decide_eq_false hother

/-- The directory is made, or what is there is kept. -/
theorem extractInto_spec {archive : Text} {x : Extraction Tarball}
    (hslash : 47 ∉ dirName name version)
    (hnone : s (joinPath cacheDir (dirName name version)) = none)
    (hliteral : o.mkdir = .created →
      Literal archive ∧ Literal (joinPath cacheDir (dirName name version)))
    (hx : Made sha256 name version o x) :
    let r := fetchInto.extractInto s (joinPath cacheDir (dirName name version)) archive x o
    Kept cacheDir name version s r ∨ Makes sha256 cacheDir name version o s r := by
  intro r
  have hkept : ∀ which : Text → Bool, Kept cacheDir name version s
      (s.mkdirs fun p => isParent p (joinPath cacheDir (dirName name version)) && which p, none) :=
    fun which => ⟨by rw [hnone]; rfl, fun d _ => mkdirs_parents hslash which d⟩
  by_cases hnil : joinPath cacheDir (dirName name version) = []
  · have hr : r = (s.mkdirs fun p => isParent p (joinPath cacheDir (dirName name version)) &&
        o.parents p, none) := by
      simp only [r, fetchInto.extractInto, if_pos hnil]
    exact .inl (hr ▸ hkept _)
  cases hmkdir : o.mkdir with
  | failed | occupied =>
    have hr : r = (s.mkdirs fun p => isParent p (joinPath cacheDir (dirName name version)) &&
        o.parents p, none) := by
      simp only [r, fetchInto.extractInto, if_neg hnil, hmkdir]
    exact .inl (hr ▸ hkept _)
  | created =>
    obtain ⟨hmade, hothers⟩ := extract_made x o.subdirs hslash hnil hnone
    have hfirst : r.1 = (s.mkdirs fun p => decide (p = joinPath cacheDir (dirName name version)) ||
        isParent p (joinPath cacheDir (dirName name version))).extract
          (joinPath cacheDir (dirName name version)) x o.subdirs := by
      simp only [r, fetchInto.extractInto, if_neg hnil, hmkdir, Cache.tarExtract]
      rw [if_pos (hliteral hmkdir)]
    refine .inr ⟨hnil, hmkdir, ?_, ⟨x, hfirst ▸ hmade, hx⟩, fun d hd hne => ?_⟩
    · simp only [r, fetchInto.extractInto, if_neg hnil, hmkdir]
    · rw [hfirst]
      exact hothers d hd hne

/-- A call gives out a directory that is there, or makes one, or none. Only the directory of the
package it asks for changes. -/
theorem fetchInto_spec {archive : Text} (hname : 47 ∉ name) (hversion : 47 ∉ version)
    (hliteral : o.mkdir = .created →
      Literal archive ∧ Literal (joinPath cacheDir (dirName name version))) :
    Kept cacheDir name version s (fetchInto sha256 cacheDir s name version archive o) ∨
      Makes sha256 cacheDir name version o s
        (fetchInto sha256 cacheDir s name version archive o) := by
  have hslash := dirName_noSlash hname hversion
  rw [fetchInto]
  simp only
  by_cases hcached : (s (joinPath cacheDir (dirName name version))).isSome = true
  · rw [if_pos hcached]
    exact .inl ⟨(if_pos hcached).symm, fun _ _ => rfl⟩
  rw [if_neg hcached]
  have hnone := Option.not_isSome_iff_eq_none.mp hcached
  have hraised : Kept cacheDir name version s (s, none) :=
    ⟨by rw [hnone]; rfl, fun _ _ => rfl⟩
  cases o.entry with
  | none => exact .inl hraised
  | some entry =>
    cases o.tarball with
    | none => exact .inl hraised
    | some tarball =>
      simp only
      split
      · exact .inl hraised
      split
      · exact .inl hraised
      rename_i hsha
      rw [not_or, not_not] at hsha
      exact extractInto_spec hslash hnone hliteral ⟨rfl, rfl, rfl, hsha.2⟩

end Calls

/-! ## Runs -/

section Runs

variable {Tarball : Type} {sha256 : Tarball → Text} {registryDir cacheDir : Text}

/-- There is no slash in the name and the version that a call asks for, and where it has a
directory to extract to, the extraction does not fail, and the shell takes both paths as they
are. -/
structure FetchCall.Safe (c : FetchCall Tarball) (registryDir cacheDir : Text) : Prop where
  noSlash : 47 ∉ c.name ∧ 47 ∉ c.version
  extracts : c.outcome.mkdir = .created → c.outcome.extracted = true
  literal : c.outcome.mkdir = .created → Literal (c.archive registryDir cacheDir) ∧
    Literal (joinPath cacheDir (dirName c.name c.version))

/-- No two packages that are asked for have the same directory. -/
def OwnDirectories (calls : List (FetchCall Tarball)) : Prop :=
  ∀ c ∈ calls, ∀ c' ∈ calls, dirName c.name c.version = dirName c'.name c'.version →
    c.name = c'.name ∧ c.version = c'.version

/-- The directories in the cache are those of packages that were asked for, and verified. -/
def AllVerified (sha256 : Tarball → Text) (cacheDir : Text) (calls : List (FetchCall Tarball))
    (s : Cache Tarball) : Prop :=
  ∀ d, 47 ∉ d → ∀ log, s (packagePath cacheDir d) = some log →
    ∃ c ∈ calls, dirName c.name c.version = d ∧
      s.Verified sha256 (packagePath cacheDir d) c.name c.version

theorem FetchCall.run_eq (c : FetchCall Tarball) (s : Cache Tarball) :
    c.run sha256 registryDir cacheDir s = fetchInto sha256 cacheDir s c.name c.version
      (c.archive registryDir cacheDir) c.outcome := by
  cases hurl : c.url with
  | none => simp only [FetchCall.run, FetchCall.archive, hurl, fetch]
  | some url => simp only [FetchCall.run, FetchCall.archive, hurl, fetchRemote]

theorem FetchCall.Safe.run_spec {c : FetchCall Tarball} (hc : c.Safe registryDir cacheDir)
    (s : Cache Tarball) :
    Kept cacheDir c.name c.version s (c.run sha256 registryDir cacheDir s) ∨
      Makes sha256 cacheDir c.name c.version c.outcome s (c.run sha256 registryDir cacheDir s) := by
  rw [FetchCall.run_eq]
  exact fetchInto_spec hc.noSlash.1 hc.noSlash.2 hc.literal

theorem Cache.Verified.congr {s s' : Cache Tarball} {path name version : Text}
    (h : s.Verified sha256 path name version) (heq : s' path = s path) :
    s'.Verified sha256 path name version := by
  obtain ⟨x, hx, hrest⟩ := h
  exact ⟨x, heq.trans hx, hrest⟩

/-- What an extraction that did not fail has made is verified. -/
theorem Made.verified {s : Cache Tarball} {path name version : Text} {o : Outcome Tarball}
    {x : Extraction Tarball} (h : Made sha256 name version o x) (hx : s path = some [x])
    (hextracted : o.extracted = true) : s.Verified sha256 path name version := by
  obtain ⟨hname, hversion, hcomplete, hsha⟩ := h
  exact ⟨x, hx, hname, hversion, hcomplete.trans hextracted, hsha⟩

/-- A safe call keeps all directories verified. -/
theorem AllVerified.step {calls : List (FetchCall Tarball)} {s : Cache Tarball}
    (h : AllVerified sha256 cacheDir calls s) {c : FetchCall Tarball}
    (hc : c.Safe registryDir cacheDir) :
    AllVerified sha256 cacheDir (calls ++ [c]) (c.run sha256 registryDir cacheDir s).1 := by
  have hold : ∀ {s' : Cache Tarball} {d : Text}, 47 ∉ d →
      s' (packagePath cacheDir d) = s (packagePath cacheDir d) →
      ∀ log, s' (packagePath cacheDir d) = some log → ∃ c' ∈ calls ++ [c],
        dirName c'.name c'.version = d ∧
          s'.Verified sha256 (packagePath cacheDir d) c'.name c'.version := by
    intro s' d hd heq log hlog
    obtain ⟨c', hc', hdir, hverified⟩ := h d hd log (heq.symm.trans hlog)
    exact ⟨c', mem_append_left _ hc', hdir, hverified.congr heq⟩
  rcases hc.run_spec s with ⟨-, hkeep⟩ | ⟨hnil, hmkdir, -, ⟨x, hx, hmade⟩, hkeep⟩
  · exact fun d hd => hold hd (hkeep d hd)
  · rw [joinPath_eq hnil] at hx
    intro d hd
    by_cases hdir : d = dirName c.name c.version
    · intro log _
      rw [hdir]
      exact ⟨c, mem_append_right _ (mem_singleton_self c), rfl,
        hmade.verified hx (hc.extracts hmkdir)⟩
    · exact hold hd (hkeep d hd hdir)

theorem cacheAfter_concat (calls : List (FetchCall Tarball)) (c : FetchCall Tarball) :
    cacheAfter sha256 registryDir cacheDir (calls ++ [c]) =
      (c.run sha256 registryDir cacheDir (cacheAfter sha256 registryDir cacheDir calls)).1 := by
  rw [cacheAfter, foldl_append]
  rfl

/-- After safe calls all directories in the cache are verified. -/
theorem allVerified_cacheAfter (calls : List (FetchCall Tarball))
    (h : ∀ c ∈ calls, c.Safe registryDir cacheDir) :
    AllVerified sha256 cacheDir calls (cacheAfter sha256 registryDir cacheDir calls) := by
  induction calls using List.reverseRecOn with
  | nil => exact fun d _ log hlog => absurd hlog (by simp [cacheAfter])
  | append_singleton calls c ih =>
    rw [cacheAfter_concat]
    exact (ih fun c' hc' => h c' (mem_append_left _ hc')).step
      (h c (mem_append_right _ (mem_singleton_self c)))

/-- In a run of safe calls for packages with directories of their own, every directory that a call
gives out is that of a verified package. -/
theorem fetched_verified {calls : List (FetchCall Tarball)} {c : FetchCall Tarball} {path : Text}
    (hsafe : ∀ c' ∈ calls ++ [c], c'.Safe registryDir cacheDir)
    (hown : OwnDirectories (calls ++ [c]))
    (hrun : (c.run sha256 registryDir cacheDir (cacheAfter sha256 registryDir cacheDir calls)).2 =
      some path)
    (hpath : path ≠ []) :
    (cacheAfter sha256 registryDir cacheDir (calls ++ [c])).Verified sha256 path c.name
      c.version := by
  have hmem : c ∈ calls ++ [c] := mem_append_right _ (mem_singleton_self c)
  have hc := hsafe c hmem
  have hbefore : AllVerified sha256 cacheDir calls (cacheAfter sha256 registryDir cacheDir calls) :=
    allVerified_cacheAfter calls fun c' hc' => hsafe c' (mem_append_left _ hc')
  rw [cacheAfter_concat]
  generalize cacheAfter sha256 registryDir cacheDir calls = s at hbefore hrun ⊢
  rcases hc.run_spec s with ⟨hresult, hkeep⟩ | ⟨hnil, hmkdir, hresult, ⟨x, hx, hmade⟩, -⟩
  · -- The directory was there: it is that of a call for the same package.
    rw [hresult] at hrun
    split at hrun
    · rename_i hthere
      obtain rfl := Option.some.inj hrun
      rw [joinPath_eq hpath] at hthere ⊢
      obtain ⟨log, hlog⟩ := Option.isSome_iff_exists.mp hthere
      have hslash := dirName_noSlash hc.noSlash.1 hc.noSlash.2
      obtain ⟨c', hc', hdir, hverified⟩ := hbefore _ hslash log hlog
      obtain ⟨hname, hversion⟩ := hown c' (mem_append_left _ hc') c hmem hdir
      rw [← hname, ← hversion]
      have hsame := hkeep _ hslash
      rw [← hname, ← hversion] at hsame hverified
      exact hverified.congr hsame
    · cases hrun
  · rw [hresult, if_pos (hc.extracts hmkdir)] at hrun
    obtain rfl := Option.some.inj hrun
    exact hmade.verified hx (hc.extracts hmkdir)

end Runs

/-! ## An extraction that fails -/

/-- A call for version 1 of package `a`, in which all steps succeed but perhaps the extraction. A
tarball is its own hash here. -/
def fetchA (extracted : Bool) : FetchCall Text where
  url := none
  name := text "a"
  version := text "1"
  outcome :=
    { entry := some [text "sha256=ff"]
      tarball := some (text "ff")
      hashed := true
      parents := fun _ => true
      mkdir := .created
      extracted := extracted
      subdirs := []
      effect := id }

theorem fetchA_verified :
    (cacheAfter id (text "/r") (text "/c") ([fetchA true] ++ [fetchA true])).Verified id
      (text "/c/a-1") (text "a") (text "1") := by
  have hsafe : (fetchA true).Safe (text "/r") (text "/c") :=
    ⟨by decide, fun _ => rfl, fun _ => by decide +kernel⟩
  refine fetched_verified (c := fetchA true) (fun c' hc' => ?_) (fun c hc c' hc' _ => ?_)
    (by decide +kernel) (by decide)
  · rw [mem_append, mem_singleton, or_self] at hc'
    rw [hc']
    exact hsafe
  · rw [mem_append, mem_singleton, or_self] at hc hc'
    rw [hc, hc']
    exact ⟨rfl, rfl⟩

/-- After an extraction that failed, the next call gives out the directory that it has left. -/
theorem not_verified_afterFailure : ¬ ∀ (calls : List (FetchCall Text)) (c : FetchCall Text)
    (path : Text),
      (c.run id (text "/r") (text "/c") (cacheAfter id (text "/r") (text "/c") calls)).2 =
        some path →
      path ≠ [] →
      (cacheAfter id (text "/r") (text "/c") (calls ++ [c])).Verified id path c.name c.version := by
  intro hall
  have hgiven : ((fetchA true).run id (text "/r") (text "/c")
      (cacheAfter id (text "/r") (text "/c") [fetchA false])).2 = some (text "/c/a-1") := by
    decide +kernel
  obtain ⟨x, hx, -, -, hcomplete, -⟩ := hall [fetchA false] (fetchA true) _ hgiven (by decide)
  have hlog : (cacheAfter id (text "/r") (text "/c") ([fetchA false] ++ [fetchA true])
      (text "/c/a-1")).map (List.map Extraction.complete) = some [false] := by decide +kernel
  rw [hx] at hlog
  have hsingle := Option.some.inj hlog
  rw [map_singleton, hcomplete] at hsingle
  cases hsingle

end Mx.Pkg
