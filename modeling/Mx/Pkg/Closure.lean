import Mx.Pkg.Resolver

/-!
# The lock file as a transitive closure

`Resolve` writes the dependencies of the root manifest and, one level further, those of its
packages. That is the transitive closure, each package once, exactly for graphs in which there is
nothing to find beyond that and nothing to find twice.
-/

namespace Mx.Pkg

open Strings List

/-! ## Dependency graphs -/

/-- The names that the root manifest leads to. -/
inductive Reachable (root : List ManifestDep) (graph : Text → List ManifestDep) : Text → Prop
  | root {d : ManifestDep} : d ∈ root → Reachable root graph d.name
  | step {n : Text} {d : ManifestDep} : Reachable root graph n → d ∈ graph n →
      Reachable root graph d.name

/-- A resolved package has the manifest of its name. -/
def World.Serves (w : World) (graph : Text → List ManifestDep) (r : Resolved) : Prop :=
  r.path ≠ [] ∧ w.readManifest (manifestPath r.path) = some (graph r.name)

/-- A dependency of a package is looked for in the registry under its version, or under the latest
version of a package that is there. -/
def World.published (w : World) (url : Text) (d : ManifestDep) : Bool :=
  !d.isLocal || (decide (url.length > 0) && (w.fetchLatest url d.name).isSome)

/-- Every package of the graph is found, with its manifest, and the tables are large enough. A local
dependency of a package need not be in the registry. -/
structure World.Finds (w : World) (url : Text) (root : List ManifestDep)
    (graph : Text → List ManifestDep) : Prop where
  direct : ∀ d ∈ root, ∃ r, resolveDirect w url d = some r ∧ w.Serves graph r
  transitive : ∀ n, Reachable root graph n → ∀ d ∈ graph n, w.published url d = true →
    ∃ r, resolveTransitive w url d = some (some r) ∧ w.Serves graph r
  named : (∀ d ∈ root, d.name ≠ []) ∧ ∀ n, Reachable root graph n → ∀ d ∈ graph n, d.name ≠ []
  rootSize : root.length ≤ 16
  size : ∃ names : List Text, names.length ≤ maxLockDeps ∧ ∀ n, Reachable root graph n → n ∈ names

/-- `Resolve` ends, and its entries are the reachable packages, each once. -/
def ResolvesToClosure (w : World) (url : Text) (old : LockTable) (root : List ManifestDep)
    (graph : Text → List ManifestDep) : Prop :=
  ∃ fuel t, resolve w url fuel old root = .ok t ∧ (t.list.map LockEntry.name).Nodup ∧
    ∀ n, n ∈ t.list.map LockEntry.name ↔ Reachable root graph n

/-! ## Graphs of two levels -/

/-- The names of dependencies. -/
def depNames (ds : List ManifestDep) : List Text := ds.map ManifestDep.name

/-- The dependencies of the packages of the root manifest that come from a registry, but for those
that the root manifest has itself and for local ones that the registry does not have. -/
def secondLevel (w : World) (url : Text) (root : List ManifestDep)
    (graph : Text → List ManifestDep) : List ManifestDep :=
  (root.filter fun d => !d.isLocal).flatMap fun d =>
    (graph d.name).filter fun d' => decide (d'.name ∉ depNames root) && w.published url d'

/-- No name is given twice on the two levels, and no package on them has a dependency that is not
on them. -/
structure TwoLevels (w : World) (url : Text) (root : List ManifestDep)
    (graph : Text → List ManifestDep) : Prop where
  distinct : (depNames root).Nodup ∧ (depNames (secondLevel w url root graph)).Nodup
  closed : ∀ n ∈ depNames root ++ depNames (secondLevel w url root graph), ∀ d ∈ graph n,
    d.name ∈ depNames root ++ depNames (secondLevel w url root graph)

/-! ## Tables -/

section Tables

variable {t : LockTable} {i : Nat} {r : Resolved}

/-- An entry holds what was resolved. -/
structure LockEntry.Holds (e : LockEntry) (r : Resolved) : Prop where
  name : e.name = r.name
  source : e.source = r.source
  path : e.path = r.path

/-- What was resolved fits the table. -/
structure Resolved.Fits (r : Resolved) : Prop where
  name : r.name.length < 64
  source : r.source.length < 16
  path : r.path.length < 512

@[simp] theorem LockTable.set_count (t : LockTable) (i : Nat) (r : Resolved) :
    (t.set i r).count = t.count := by
  rw [LockTable.set, LockTable.setDepEntry]
  split
  · rfl
  · rfl

@[simp] theorem LockTable.setDepURL_count (t : LockTable) (i : Nat) (url : Text) :
    (t.setDepURL i url).count = t.count := by
  rw [LockTable.setDepURL]
  split
  · rfl
  · rfl

theorem LockTable.set_of_ne {j : Nat} (h : j ≠ i) : (t.set i r).entries j = t.entries j := by
  rw [LockTable.set, LockTable.setDepEntry]
  split
  · exact Function.update_of_ne h _ _
  · rfl

theorem LockTable.setDepURL_of_ne {j : Nat} {url : Text} (h : j ≠ i) :
    (t.setDepURL i url).entries j = t.entries j := by
  rw [LockTable.setDepURL]
  split
  · exact Function.update_of_ne h _ _
  · rfl

theorem LockTable.set_holds (hi : i < maxLockDeps) (hr : r.Fits) :
    ((t.set i r).entries i).Holds r := by
  rw [LockTable.set, LockTable.setDepEntry, if_pos hi]
  simp only [LockTable.modify, Function.update_self]
  exact ⟨assign_of_lt hr.name, assign_of_lt hr.source, assign_of_lt hr.path⟩

theorem LockTable.get_of_lt {field : LockEntry → Text} (h : i < t.count) :
    t.get field i = field (t.entries i) := if_pos h

theorem LockTable.get_of_le {field : LockEntry → Text} (h : t.count ≤ i) : t.get field i = [] :=
  if_neg (Nat.not_lt.mpr h)

end Tables

/-! ## What is resolved -/

section Resolve

variable {w : World} {url : Text} {d : ManifestDep} {r : Resolved}

theorem World.remote_fits {u name ver source sha : Text} (hname : name.length < 64)
    (hsource : source.length < 16) (h : w.remote u name ver source sha = some r) :
    r.Fits ∧ r.name = name ∧ r.source = source := by
  rw [World.remote, Option.map_eq_some_iff] at h
  obtain ⟨path, -, rfl⟩ := h
  exact ⟨⟨hname, hsource, assign_length_lt (by omega) _⟩, rfl, rfl⟩

theorem World.registry_fits {name ver sha : Text} (hname : name.length < 64)
    (h : w.registry name ver sha = some r) :
    r.Fits ∧ r.name = name ∧ r.source = text "registry" := by
  rw [World.registry, Option.map_eq_some_iff] at h
  obtain ⟨path, -, rfl⟩ := h
  have hsource : (text "registry").length < 16 := by decide
  exact ⟨⟨hname, hsource, assign_length_lt (by omega) _⟩, rfl, rfl⟩

/-- A direct dependency keeps its name, and is marked as local if it is. -/
theorem resolveDirect_spec (h : resolveDirect w url d = some r) :
    r.Fits ∧ r.name = d.name ∧ (r.source = text "local" ↔ d.isLocal = true) := by
  have hlocal : text "remote" ≠ text "local" ∧ text "registry" ≠ text "local" := by decide
  have hfits : (text "remote").length < 16 ∧ (text "registry").length < 16 := by decide
  rw [resolveDirect] at h
  by_cases hd : d.isLocal = true
  · rw [if_pos hd] at h
    split at h
    · cases h
    split at h
    · cases h
    obtain rfl := Option.some.inj h
    exact ⟨⟨d.name_lt, (by decide : (text "local").length < 16), d.path_lt.trans (by decide)⟩, rfl,
      fun _ => hd, fun _ => rfl⟩
  rw [if_neg hd] at h
  suffices r.Fits ∧ r.name = d.name ∧ (r.source = text "remote" ∨ r.source = text "registry") by
    obtain ⟨hr, hname, hsource⟩ := this
    refine ⟨hr, hname, fun heq => ?_, fun heq => absurd heq hd⟩
    rw [heq] at hsource
    rcases hsource with hremote | hregistry
    · exact absurd hremote.symm hlocal.1
    · exact absurd hregistry.symm hlocal.2
  have hremote : ∀ {u ver sha : Text}, w.remote u d.name ver (text "remote") sha = some r →
      r.Fits ∧ r.name = d.name ∧ (r.source = text "remote" ∨ r.source = text "registry") := by
    intro u ver sha h
    obtain ⟨hr, hname, hsource⟩ := World.remote_fits d.name_lt hfits.1 h
    exact ⟨hr, hname, .inl hsource⟩
  have hregistryUrl : ∀ {u ver sha : Text}, w.remote u d.name ver (text "registry") sha = some r →
      r.Fits ∧ r.name = d.name ∧ (r.source = text "remote" ∨ r.source = text "registry") := by
    intro u ver sha h
    obtain ⟨hr, hname, hsource⟩ := World.remote_fits d.name_lt hfits.2 h
    exact ⟨hr, hname, .inr hsource⟩
  have hregistry : ∀ {ver sha : Text}, w.registry d.name ver sha = some r →
      r.Fits ∧ r.name = d.name ∧ (r.source = text "remote" ∨ r.source = text "registry") := by
    intro ver sha h
    obtain ⟨hr, hname, hsource⟩ := World.registry_fits d.name_lt h
    exact ⟨hr, hname, .inr hsource⟩
  split at h
  · split at h
    · obtain ⟨v, -, h⟩ := Option.bind_eq_some_iff.mp h
      exact hremote h
    · split at h
      · obtain ⟨v, -, h⟩ := Option.bind_eq_some_iff.mp h
        exact hremote h
      · exact hremote h
  · split at h
    · split at h
      · split at h
        · obtain ⟨v, -, h⟩ := Option.bind_eq_some_iff.mp h
          exact hregistryUrl h
        · cases h
      · exact hregistry h
    · split at h
      · split at h
        · exact hregistryUrl h
        · cases h
      · exact hregistry h

/-- A transitive dependency keeps its name. -/
theorem resolveTransitive_spec (h : resolveTransitive w url d = some (some r)) :
    r.Fits ∧ r.name = d.name := by
  have hfits : (text "registry").length < 16 := by decide
  have hremote : ∀ {u ver sha : Text},
      (w.remote u d.name ver (text "registry") sha).map some = some (some r) →
        r.Fits ∧ r.name = d.name := by
    intro u ver sha hmap
    obtain ⟨r', hr', heq⟩ := Option.map_eq_some_iff.mp hmap
    obtain rfl := Option.some.inj heq
    obtain ⟨hr, hname, -⟩ := World.remote_fits d.name_lt hfits hr'
    exact ⟨hr, hname⟩
  have hregistry : ∀ {ver sha : Text}, (w.registry d.name ver sha).map some = some (some r) →
      r.Fits ∧ r.name = d.name := by
    intro ver sha hmap
    obtain ⟨r', hr', heq⟩ := Option.map_eq_some_iff.mp hmap
    obtain rfl := Option.some.inj heq
    obtain ⟨hr, hname, -⟩ := World.registry_fits d.name_lt hr'
    exact ⟨hr, hname⟩
  rw [resolveTransitive] at h
  split at h
  · split at h
    · split at h
      · cases h
      · exact hremote h
    · cases h
  · split at h
    · split at h
      · split at h
        · split at h
          · cases h
          · exact hremote h
        · cases h
      · exact hregistry h
    · split at h
      · split at h
        · exact hremote h
        · cases h
      · exact hregistry h

end Resolve

/-! ## The loops -/

/-- The table in the breadth-first loop: the dependencies of the root manifest, which are counted,
and those that were found after them. -/
structure Filled (direct found : List Resolved) (t : LockTable) : Prop where
  count : t.count = direct.length
  first : ∀ i (h : i < direct.length), (t.entries i).Holds direct[i]
  later : ∀ i (h : i < found.length), direct.length + i < maxLockDeps →
    (t.entries (direct.length + i)).Holds found[i]

section Loops

variable {w : World} {url : Text} {direct found : List Resolved} {t : LockTable}

/-- One more package is found. -/
theorem Filled.push (h : Filled direct found t) {r : Resolved} (hr : r.Fits) :
    Filled direct (found ++ [r]) (t.set (direct.length + found.length) r) := by
  refine ⟨(LockTable.set_count ..).trans h.count, fun i hi => ?_, fun i hi hlt => ?_⟩
  · rw [LockTable.set_of_ne (by omega)]
    exact h.first i hi
  · by_cases hlast : i < found.length
    · rw [LockTable.set_of_ne (by omega), getElem_append_left hlast]
      exact h.later i hlast hlt
    · rw [length_append, length_singleton] at hi
      obtain rfl : i = found.length := by omega
      rw [getElem_concat_length rfl]
      exact LockTable.set_holds hlt hr

theorem Filled.alreadyResolved_iff (h : Filled direct found t) {name : Text} (hname : name ≠ []) :
    alreadyResolved t (direct.length + found.length) name = true ↔
      name ∈ direct.map Resolved.name := by
  rw [alreadyResolved, any_eq_true]
  constructor
  · rintro ⟨k, hk, heq⟩
    rw [decide_eq_true_eq] at heq
    by_cases hlt : k < direct.length
    · rw [LockTable.get_of_lt (by rw [h.count]; exact hlt), (h.first k hlt).name] at heq
      rw [← heq]
      exact mem_map_of_mem (getElem_mem hlt)
    · rw [LockTable.get_of_le (by rw [h.count]; omega)] at heq
      exact absurd heq.symm hname
  · intro hmem
    obtain ⟨r, hr, hrname⟩ := mem_map.mp hmem
    obtain ⟨k, hk, rfl⟩ := getElem_of_mem hr
    refine ⟨k, mem_range.mpr (by omega), ?_⟩
    rw [LockTable.get_of_lt (by rw [h.count]; exact hk), (h.first k hk).name, hrname]
    exact decide_eq_true rfl

/-- A local dependency that the registry does not have is left out. -/
theorem resolveTransitive_of_not_published {d : ManifestDep} (h : w.published url d = false) :
    resolveTransitive w url d = some none := by
  rw [World.published, Bool.or_eq_false_iff, Bool.not_eq_false', Bool.and_eq_false_iff] at h
  obtain ⟨hlocal, hmissing⟩ := h
  rw [resolveTransitive, if_pos (.inl hlocal)]
  by_cases hurl : url.length > 0
  · rw [if_pos hurl]
    rcases hmissing with hfalse | hnone
    · exact absurd hurl (of_decide_eq_false hfalse)
    · rw [Option.isSome_eq_false_iff, Option.isNone_iff_eq_none] at hnone
      rw [hnone]
  · rw [if_neg hurl]

/-- The dependencies of a package that are added to the table. -/
def added (w : World) (url : Text) (names : List Text) (ds : List ManifestDep) :
    List ManifestDep :=
  ds.filter fun d => decide (d.name ∉ names) && w.published url d

/-- The dependencies of a package have names, and those that are looked for are resolved. -/
def World.Follows (w : World) (url : Text) (ds : List ManifestDep) : Prop :=
  ∀ d ∈ ds, d.name ≠ [] ∧
    (w.published url d = true → ∃ r, resolveTransitive w url d = some (some r))

/-- The loop over the dependencies of a package adds all of them that the root manifest does not
have. -/
theorem transitiveLoop_spec (ds : List ManifestDep) :
    ∀ {found : List Resolved} {t : LockTable}, Filled direct found t →
      w.Follows url ds →
      ∃ more t', transitiveLoop w url (t, direct.length + found.length) ds =
          some (t', direct.length + (found ++ more).length) ∧
        Filled direct (found ++ more) t' ∧
        more.map Resolved.name = depNames (added w url (direct.map Resolved.name) ds) := by
  induction ds with
  | nil =>
    intro found t h _
    refine ⟨[], t, ?_, ?_, rfl⟩
    · rw [append_nil, transitiveLoop]
    · rw [append_nil]
      exact h
  | cons d ds ih =>
    intro found t h hds
    obtain ⟨hname, hfound⟩ := hds d mem_cons_self
    have hrest := fun d' hd' => hds d' (mem_cons_of_mem d hd')
    -- The dependency is skipped, with or without a request to the registry.
    have hskip : (d.name ∈ direct.map Resolved.name ∨ w.published url d = false) →
        added w url (direct.map Resolved.name) (d :: ds) =
          added w url (direct.map Resolved.name) ds := by
      intro hor
      apply filter_cons_of_neg
      rw [Bool.and_eq_true, decide_eq_true_eq]
      rintro ⟨hnot, hpub⟩
      rcases hor with hmem | hfalse
      · exact hnot hmem
      · exact absurd hpub (Bool.eq_false_iff.mp hfalse)
    rw [transitiveLoop]
    by_cases hmem : d.name ∈ direct.map Resolved.name
    · rw [if_pos ((h.alreadyResolved_iff hname).mpr hmem)]
      obtain ⟨more, t', heq, hfilled, hmore⟩ := ih h hrest
      exact ⟨more, t', heq, hfilled, hmore.trans (congrArg depNames (hskip (.inl hmem)).symm)⟩
    rw [if_neg (fun hall => hmem ((h.alreadyResolved_iff hname).mp hall))]
    cases hpub : w.published url d with
    | false =>
      rw [resolveTransitive_of_not_published hpub]
      obtain ⟨more, t', heq, hfilled, hmore⟩ := ih h hrest
      exact ⟨more, t', heq, hfilled, hmore.trans (congrArg depNames (hskip (.inr hpub)).symm)⟩
    | true =>
      obtain ⟨r, hr⟩ := hfound hpub
      rw [hr]
      obtain ⟨hfits, hrname⟩ := resolveTransitive_spec hr
      obtain ⟨more, t', heq, hfilled, hmore⟩ := ih (h.push hfits) hrest
      rw [append_assoc, singleton_append] at heq hfilled
      refine ⟨r :: more, t', ?_, hfilled, ?_⟩
      · rw [length_append, length_singleton, ← Nat.add_assoc] at heq
        exact heq
      · rw [map_cons, hmore, hrname, added, added, filter_cons_of_pos]
        · rfl
        · rw [hpub, Bool.and_true]
          exact decide_eq_true hmem

/-- What the rounds over some dependencies of the root manifest find. -/
def foundFrom (w : World) (url : Text) (names : List Text) (graph : Text → List ManifestDep)
    (ds : List ManifestDep) : List ManifestDep :=
  (ds.filter fun d => !d.isLocal).flatMap fun d => added w url names (graph d.name)

/-- Nothing happens for entries that are not counted. -/
theorem bfsLoop_of_count_le (found : List Resolved) (t : LockTable)
    (h : Filled direct found t) (n : Nat) :
    ∀ {idx : Nat}, direct.length ≤ idx → direct.length + found.length - idx ≤ n →
      bfsLoop w url (n + 1) idx (t, direct.length + found.length) =
        .ok (t, direct.length + found.length) := by
  induction n with
  | zero =>
    intro idx _ hn
    rw [bfsLoop, if_neg (by simp only; omega)]
  | succ n ih =>
    intro idx hidx hn
    rw [bfsLoop]
    by_cases hlt : idx < direct.length + found.length
    · have hround : bfsRound w url idx (t, direct.length + found.length) =
          some (t, direct.length + found.length) := by
        have hcount : t.count ≤ idx := h.count.le.trans hidx
        have hlocal : ([] : Text) ≠ text "local" := by decide
        rw [bfsRound, LockTable.get_of_le hcount, LockTable.get_of_le hcount, if_neg hlocal]
        rfl
      rw [if_pos hlt, hround]
      exact ih (by omega) (by omega)
    · rw [if_neg hlt]

/-- A dependency of the root manifest is resolved, to a package that is served. -/
def World.Resolves (w : World) (url : Text) (graph : Text → List ManifestDep) (d : ManifestDep)
    (r : Resolved) : Prop :=
  resolveDirect w url d = some r ∧ w.Serves graph r

variable {graph : Text → List ManifestDep}

/-- One round of the breadth-first loop, for a dependency of the root manifest. -/
theorem bfsRound_spec {d : ManifestDep} {r : Resolved} {idx : Nat} (h : Filled direct found t)
    (hidx : idx < direct.length) (hr : direct[idx] = r) (hd : w.Resolves url graph d r)
    (hdeps : w.Follows url (graph d.name)) :
    ∃ more t', bfsRound w url idx (t, direct.length + found.length) =
        some (t', direct.length + (found ++ more).length) ∧
      Filled direct (found ++ more) t' ∧
      more.map Resolved.name = depNames (foundFrom w url (direct.map Resolved.name) graph [d]) := by
  obtain ⟨hdirect, hpath, hmanifest⟩ := hd
  obtain ⟨-, hname, hlocal⟩ := resolveDirect_spec hdirect
  have hholds := h.first idx hidx
  rw [hr] at hholds
  have hcount : idx < t.count := by
    rw [h.count]
    exact hidx
  rw [bfsRound, LockTable.get_of_lt hcount, LockTable.get_of_lt hcount, hholds.source, hholds.path]
  by_cases hd : d.isLocal = true
  · refine ⟨[], t, ?_, ?_, ?_⟩
    · rw [if_pos (hlocal.mpr hd), append_nil]
    · rw [append_nil]
      exact h
    · rw [foundFrom, filter_cons_of_neg (by simpa using hd)]
      rfl
  · rw [if_neg (fun heq => hd (hlocal.mp heq)), if_pos (length_pos_of_ne_nil hpath),
      hmanifest, hname]
    obtain ⟨more, t', heq, hfilled, hmore⟩ := transitiveLoop_spec (graph d.name) h hdeps
    refine ⟨more, t', heq, hfilled, ?_⟩
    rw [hmore, foundFrom, filter_cons_of_pos (by simpa using hd)]
    simp

/-- The breadth-first loop ends, and finds what the packages of the root manifest depend on. -/
theorem bfsLoop_spec (ds : List ManifestDep) :
    ∀ {pre rs found : List Resolved} {t : LockTable}, direct = pre ++ rs →
      List.Forall₂ (w.Resolves url graph) ds rs → Filled direct found t →
      (∀ d ∈ ds, w.Follows url (graph d.name)) →
      ∃ fuel more t', bfsLoop w url fuel pre.length (t, direct.length + found.length) =
          .ok (t', direct.length + (found ++ more).length) ∧
        Filled direct (found ++ more) t' ∧
        more.map Resolved.name =
          depNames (foundFrom w url (direct.map Resolved.name) graph ds) := by
  induction ds with
  | nil =>
    intro pre rs found t hdirect hall h _
    cases hall
    rw [append_nil] at hdirect
    refine ⟨found.length + 1, [], t, ?_, ?_, rfl⟩
    · rw [append_nil]
      have hle : direct.length ≤ pre.length := by rw [hdirect]
      exact bfsLoop_of_count_le found t h _ hle (by omega)
    · rw [append_nil]
      exact h
  | cons d ds ih =>
    intro pre rs found t hdirect hall h hdeps
    obtain _ | ⟨hd, hall⟩ := hall
    rename_i r rs
    have hidx : pre.length < direct.length := by
      rw [hdirect, length_append, length_cons]
      omega
    have hr : direct[pre.length] = r := by
      simp only [hdirect, getElem_append_right (le_refl _), Nat.sub_self, getElem_cons_zero]
    obtain ⟨more, t₁, hround, hfilled, hmore⟩ :=
      bfsRound_spec h hidx hr hd (hdeps d mem_cons_self)
    obtain ⟨fuel, rest, t₂, hloop, hend, hrest⟩ :=
      ih (hdirect.trans (append_cons pre r rs)) hall hfilled
        fun d' hd' => hdeps d' (mem_cons_of_mem d hd')
    rw [append_assoc] at hloop hend
    refine ⟨fuel + 1, more ++ rest, t₂, ?_, hend, ?_⟩
    · rw [bfsLoop, if_pos (by simp only; omega), hround]
      rw [length_append, length_singleton] at hloop
      exact hloop
    · rw [map_append, hmore, hrest]
      simp only [foundFrom, depNames, filter_cons, filter_nil]
      split <;> simp

/-- The loop over the dependencies of the root manifest fills the entries from an index on. -/
theorem directLoop_spec (ds : List ManifestDep) :
    ∀ {i : Nat} {rs : List Resolved} {t : LockTable}, List.Forall₂ (w.Resolves url graph) ds rs →
      i + ds.length ≤ maxLockDeps →
      ∃ t', directLoop w url i t ds = some t' ∧ t'.count = t.count ∧
        (∀ j < i, t'.entries j = t.entries j) ∧
        ∀ k (h : k < rs.length), (t'.entries (i + k)).Holds rs[k] := by
  induction ds with
  | nil =>
    intro i rs t hall _
    cases hall
    exact ⟨t, rfl, rfl, fun _ _ => rfl, fun k hk => absurd hk (Nat.not_lt_zero k)⟩
  | cons d ds ih =>
    intro i rs t hall hsize
    obtain _ | ⟨hd, hall⟩ := hall
    rename_i r rs
    rw [length_cons] at hsize
    obtain ⟨hfits, -, -⟩ := resolveDirect_spec hd.1
    let t₁ := if d.isURL && !d.isLocal then t.setDepURL i d.url else t
    have hcount : t₁.count = t.count := by
      simp only [t₁]
      split
      · exact LockTable.setDepURL_count t i d.url
      · rfl
    have hframe : ∀ j, j ≠ i → t₁.entries j = t.entries j := by
      intro j hj
      simp only [t₁]
      split
      · exact LockTable.setDepURL_of_ne hj
      · rfl
    obtain ⟨t', heq, hcount', hframe', hholds⟩ := ih (i := i + 1) (t := t₁.set i r) hall (by omega)
    refine ⟨t', ?_, ?_, fun j hj => ?_, fun k hk => ?_⟩
    · rw [directLoop, hd.1]
      exact heq
    · rw [hcount', LockTable.set_count, hcount]
    · rw [hframe' j (by omega), LockTable.set_of_ne (by omega), hframe j (by omega)]
    · cases k with
      | zero =>
        rw [Nat.add_zero, hframe' i (by omega)]
        exact LockTable.set_holds (by omega) hfits
      | succ k =>
        rw [← Nat.add_assoc, Nat.add_right_comm]
        exact hholds k (by simpa using hk)

theorem bfsLoop_mono {s' : LockTable × Nat} (fuel more : Nat) :
    ∀ {idx : Nat} {s : LockTable × Nat}, bfsLoop w url fuel idx s = .ok s' →
      bfsLoop w url (fuel + more) idx s = .ok s' := by
  induction fuel with
  | zero =>
    intro idx s h
    cases h
  | succ fuel ih =>
    intro idx s h
    rw [Nat.add_right_comm]
    rw [bfsLoop] at h ⊢
    by_cases hidx : idx < s.2
    · rw [if_pos hidx] at h ⊢
      cases hround : bfsRound w url idx s with
      | none =>
        rw [hround] at h
        cases h
      | some s₁ =>
        rw [hround] at h
        exact ih h
    · rw [if_neg hidx] at h ⊢
      exact h

/-- `Resolve` has one result. -/
theorem resolve_unique {fuel fuel' : Nat} {old t t' : LockTable} {root : List ManifestDep}
    (h : resolve w url fuel old root = .ok t) (h' : resolve w url fuel' old root = .ok t') :
    t = t' := by
  have hmono : ∀ (fuel more : Nat) {t : LockTable}, resolve w url fuel old root = .ok t →
      resolve w url (fuel + more) old root = .ok t := by
    intro fuel more t h
    rw [resolve] at h ⊢
    cases hdirect : directLoop w url 0 (old.setLockDepCount root.length) root with
    | none =>
      rw [hdirect] at h
      cases h
    | some t₁ =>
      rw [hdirect] at h
      simp only at h ⊢
      by_cases hroot : root.length > 0
      · rw [if_pos hroot] at h ⊢
        cases hloop : bfsLoop w url fuel 0 (t₁, root.length) with
        | error e =>
          rw [hloop] at h
          cases h
        | ok s =>
          rw [hloop] at h
          rw [bfsLoop_mono fuel more hloop]
          exact h
      · rw [if_neg hroot] at h ⊢
        exact h
  have hleft := hmono fuel fuel' h
  have hright := hmono fuel' fuel h'
  rw [Nat.add_comm, hleft] at hright
  exact Except.ok.inj hright

/-- The names in the table, when it counts all that were found. -/
theorem Filled.names (h : Filled direct found t)
    (hsize : direct.length + found.length ≤ maxLockDeps) :
    (t.setLockDepCount (direct.length + found.length)).list.map LockEntry.name =
      (direct ++ found).map Resolved.name := by
  rw [LockTable.setLockDepCount, if_pos hsize, LockTable.list]
  apply ext_getElem
  · simp
  · intro i hi _
    simp only [length_map, length_range] at hi
    simp only [getElem_map, getElem_range]
    by_cases hlt : i < direct.length
    · rw [getElem_append_left hlt]
      exact (h.first i hlt).name
    · rw [getElem_append_right (by omega)]
      obtain ⟨k, rfl⟩ := Nat.exists_eq_add_of_le (Nat.not_lt.mp hlt)
      simp only [Nat.add_sub_cancel_left]
      exact (h.later k (by omega) (by omega)).name

/-- The names in the table, when there is no room for all that were found. -/
theorem Filled.names_of_lt (h : Filled direct found t)
    (hsize : maxLockDeps < direct.length + found.length) :
    (t.setLockDepCount (direct.length + found.length)).list.map LockEntry.name =
      direct.map Resolved.name := by
  rw [LockTable.setLockDepCount, if_neg (by omega), LockTable.list, h.count]
  apply ext_getElem
  · simp
  · intro i hi _
    simp only [length_map, length_range] at hi
    simp only [getElem_map, getElem_range]
    exact (h.first i hi).name

end Loops

/-! ## The lock file -/

section Closure

variable {w : World} {url : Text} {root : List ManifestDep} {graph : Text → List ManifestDep}

/-- The packages of the root manifest, in order. -/
theorem World.Finds.direct_list (h : w.Finds url root graph) :
    ∃ rs, List.Forall₂ (w.Resolves url graph) root rs ∧ rs.map Resolved.name = depNames root := by
  have hall : ∀ ds : List ManifestDep, (∀ d ∈ ds, ∃ r, w.Resolves url graph d r) →
      ∃ rs, List.Forall₂ (w.Resolves url graph) ds rs ∧
        rs.map Resolved.name = depNames ds := by
    intro ds
    induction ds with
    | nil => exact fun _ => ⟨[], .nil, rfl⟩
    | cons d ds ih =>
      intro hds
      obtain ⟨r, hr⟩ := hds d mem_cons_self
      obtain ⟨rs, hrs, hnames⟩ := ih fun d' hd' => hds d' (mem_cons_of_mem d hd')
      refine ⟨r :: rs, .cons hr hrs, ?_⟩
      rw [map_cons, hnames, (resolveDirect_spec hr.1).2.1]
      rfl
  exact hall root h.direct

theorem foundFrom_eq : foundFrom w url (depNames root) graph root =
    secondLevel w url root graph := rfl

/-- The lock file has the packages of the root manifest and those of the second level, or only the
former if it has no room for all. -/
theorem World.Finds.resolve_names (h : w.Finds url root graph) (old : LockTable) :
    ∃ fuel t, resolve w url fuel old root = .ok t ∧ t.list.map LockEntry.name =
      if root.length + (secondLevel w url root graph).length ≤ maxLockDeps then
        depNames root ++ depNames (secondLevel w url root graph)
      else depNames root := by
  obtain ⟨rs, hall, hnames⟩ := h.direct_list
  have hlen : rs.length = root.length := by
    simpa [depNames] using congrArg List.length hnames
  have hroot : root.length ≤ maxLockDeps := h.rootSize.trans (by decide)
  have hcount : (old.setLockDepCount root.length).count = root.length := by
    rw [LockTable.setLockDepCount, if_pos hroot]
  obtain ⟨t, hdirect, htcount, -, hholds⟩ :=
    directLoop_spec root (i := 0) (t := old.setLockDepCount root.length) hall
      ((Nat.zero_add _).le.trans hroot)
  have hfilled : Filled rs [] t := by
    refine ⟨by rw [htcount, hcount, hlen], fun i hi => ?_,
      fun i hi => absurd hi (Nat.not_lt_zero i)⟩
    have hentry := hholds i hi
    rw [Nat.zero_add] at hentry
    exact hentry
  obtain ⟨fuel, more, t', hloop, hend, hmore⟩ :=
    bfsLoop_spec root (nil_append rs).symm hall hfilled fun d hd d' hd' => by
      refine ⟨h.named.2 d.name (.root hd) d' hd', fun hpub => ?_⟩
      obtain ⟨r, hr, -⟩ := h.transitive d.name (.root hd) d' hd' hpub
      exact ⟨r, hr⟩
  rw [nil_append] at hloop hend
  rw [hnames, foundFrom_eq] at hmore
  have hmoreLen : more.length = (secondLevel w url root graph).length := by
    simpa [depNames] using congrArg List.length hmore
  rw [hlen] at hloop
  by_cases hzero : root.length > 0
  · refine ⟨fuel, t'.setLockDepCount (root.length + more.length), ?_, ?_⟩
    · rw [resolve, hdirect]
      simp only [if_pos hzero]
      rw [show bfsLoop w url fuel 0 (t, root.length) = _ from hloop]
    · rw [← hlen, ← hmoreLen]
      split
      · rename_i hsize
        rw [hend.names hsize, map_append, hnames, hmore]
      · rename_i hsize
        rw [hend.names_of_lt (Nat.not_le.mp hsize), hnames]
  · obtain rfl : root = [] := eq_nil_of_length_eq_zero (Nat.eq_zero_of_not_pos hzero)
    refine ⟨0, t, ?_, ?_⟩
    · rw [resolve, hdirect]
      rfl
    · rw [LockTable.list, htcount, hcount]
      rfl

/-- The two levels are reachable. -/
theorem reachable_of_levels {n : Text}
    (h : n ∈ depNames root ++ depNames (secondLevel w url root graph)) :
    Reachable root graph n := by
  rcases mem_append.mp h with hfirst | hsecond
  · obtain ⟨d, hd, rfl⟩ := mem_map.mp hfirst
    exact .root hd
  · obtain ⟨d', hd', rfl⟩ := mem_map.mp hsecond
    obtain ⟨d, hd, hmem⟩ := mem_flatMap.mp hd'
    exact .step (.root (mem_of_mem_filter hd)) (mem_of_mem_filter hmem)

/-- The second level leaves out the names of the first. -/
theorem levels_disjoint : (depNames root).Disjoint (depNames (secondLevel w url root graph)) := by
  intro n hroot hsecond
  obtain ⟨d', hd', rfl⟩ := mem_map.mp hsecond
  obtain ⟨d, -, hmem⟩ := mem_flatMap.mp hd'
  have hboth := (mem_filter.mp hmem).2
  rw [Bool.and_eq_true] at hboth
  exact (of_decide_eq_true hboth.1) hroot

/-- With two levels, all reachable packages are on them. -/
theorem TwoLevels.mem_iff (h : TwoLevels w url root graph) (n : Text) :
    n ∈ depNames root ++ depNames (secondLevel w url root graph) ↔ Reachable root graph n := by
  refine ⟨reachable_of_levels, fun hn => ?_⟩
  induction hn with
  | root hd => exact mem_append_left _ (mem_map_of_mem hd)
  | step _ hd ih => exact h.closed _ ih _ hd

theorem TwoLevels.nodup (h : TwoLevels w url root graph) :
    (depNames root ++ depNames (secondLevel w url root graph)).Nodup :=
  List.Nodup.append h.distinct.1 h.distinct.2 levels_disjoint

/-- The lock file is the transitive closure exactly for graphs of two levels. -/
theorem resolvesToClosure_iff (h : w.Finds url root graph) (old : LockTable) :
    ResolvesToClosure w url old root graph ↔ TwoLevels w url root graph := by
  obtain ⟨fuel, t, hresolve, hnames⟩ := h.resolve_names old
  constructor
  · rintro ⟨fuel', t', hresolve', hnodup, hmem⟩
    obtain rfl := resolve_unique hresolve hresolve'
    rw [hnames] at hnodup hmem
    split at hnodup
    · rename_i hsize
      simp only [if_pos hsize] at hmem
      obtain ⟨hfirst, hsecond, -⟩ := nodup_append.mp hnodup
      refine ⟨⟨hfirst, hsecond⟩, fun n hn d hd => ?_⟩
      exact (hmem _).mpr (.step ((hmem n).mp hn) hd)
    · -- A package of the second level is reachable, but not in the table.
      rename_i hsize
      simp only [if_neg hsize] at hmem
      have hroot : root.length ≤ maxLockDeps := h.rootSize.trans (by decide)
      obtain ⟨d, hd⟩ := exists_mem_of_length_pos
        (by omega : 0 < (secondLevel w url root graph).length)
      have hsecond : d.name ∈ depNames (secondLevel w url root graph) := mem_map_of_mem hd
      have hreach := reachable_of_levels (mem_append_right (depNames root) hsecond)
      exact absurd hsecond (levels_disjoint ((hmem _).mpr hreach))
  · intro hlevels
    obtain ⟨names, hsize, hall⟩ := h.size
    have hle := (List.Nodup.subperm hlevels.nodup
      fun n hn => hall n (reachable_of_levels hn)).length_le
    rw [length_append, depNames, depNames, length_map, length_map] at hle
    rw [if_pos (hle.trans hsize)] at hnames
    refine ⟨fuel, t, hresolve, ?_, fun n => ?_⟩
    · rw [hnames]
      exact hlevels.nodup
    · rw [hnames]
      exact hlevels.mem_iff n

/-! ## A chain of packages -/

/-- A world in which the local registry has every package, in a directory of its name, with the
manifest of a graph. -/
def localWorld (graph : Text → List ManifestDep) : World where
  isDir _ := false
  fileExists _ := false
  readManifest p := some (graph (p.take (p.length - 8)))
  lookup _ _ := some []
  lookupRange _ _ := none
  fetch name _ := some name
  fetchRemote _ _ _ := none
  fetchLatest _ _ := none
  resolveRangeRemote _ _ _ := none

theorem noUrl_lt : ([] : Text).length < 512 := by decide

/-- A dependency on version 1 of a package with a name of one letter. -/
def letterDep (c : UInt8) : ManifestDep where
  name := [c]
  path := text "1"
  isLocal := false
  isURL := false
  url := []
  name_lt := (by decide : 1 < 64)
  path_lt := by decide
  url_lt := noUrl_lt

/-- `a` depends on `b`, and `b` on the packages of a list. -/
def chainGraph (last : List ManifestDep) (name : Text) : List ManifestDep :=
  if name = text "a" then [letterDep 98] else if name = text "b" then last else []

theorem letterDep_resolves (graph : Text → List ManifestDep) (c : UInt8) :
    (∃ r, resolveDirect (localWorld graph) [] (letterDep c) = some r ∧
      (localWorld graph).Serves graph r) ∧
    ∃ r, resolveTransitive (localWorld graph) [] (letterDep c) = some (some r) ∧
      (localWorld graph).Serves graph r :=
  have hserves : (localWorld graph).Serves graph
      ⟨[c], text "1", text "registry", [], [c]⟩ := ⟨cons_ne_nil _ _, rfl⟩
  ⟨⟨_, rfl, hserves⟩, ⟨_, rfl, hserves⟩⟩

/-- What is reachable in a chain. -/
theorem reachable_chainGraph {last : List ManifestDep} {n : Text}
    (hlast : ∀ d ∈ last, d = letterDep 99)
    (h : Reachable [letterDep 97] (chainGraph last) n) :
    n ∈ [text "a", text "b", text "c"] ∧ ∀ d ∈ chainGraph last n, ∃ c, d = letterDep c := by
  have hdeps : ∀ n, ∀ d ∈ chainGraph last n,
      d.name ∈ [text "a", text "b", text "c"] ∧ ∃ c, d = letterDep c := by
    intro n d hd
    rw [chainGraph] at hd
    split at hd
    · obtain rfl := mem_singleton.mp hd
      exact ⟨by decide, 98, rfl⟩
    · split at hd
      · obtain rfl := hlast d hd
        exact ⟨by decide, 99, rfl⟩
      · cases hd
  refine ⟨?_, fun d hd => (hdeps n d hd).2⟩
  cases h with
  | root hd =>
    obtain rfl := mem_singleton.mp hd
    decide
  | step _ hd => exact (hdeps _ _ hd).1

theorem chainGraph_finds {last : List ManifestDep} (hlast : ∀ d ∈ last, d = letterDep 99) :
    (localWorld (chainGraph last)).Finds [] [letterDep 97] (chainGraph last) where
  direct d hd := by
    obtain rfl := mem_singleton.mp hd
    exact (letterDep_resolves _ 97).1
  transitive n hn d hd _ := by
    obtain ⟨c, rfl⟩ := (reachable_chainGraph hlast hn).2 d hd
    exact (letterDep_resolves _ c).2
  named := by
    refine ⟨fun d hd => ?_, fun n hn d hd => ?_⟩
    · obtain rfl := mem_singleton.mp hd
      exact cons_ne_nil _ _
    · obtain ⟨c, rfl⟩ := (reachable_chainGraph hlast hn).2 d hd
      exact cons_ne_nil _ _
  rootSize := by decide
  size := ⟨_, by decide, fun _ hn => (reachable_chainGraph hlast hn).1⟩

/-- A lock table without entries. -/
def noEntries : LockTable := ⟨0, fun _ => ⟨[], [], [], [], [], []⟩⟩

theorem resolvesToClosure_twoPackages :
    ResolvesToClosure (localWorld (chainGraph [])) [] noEntries [letterDep 97] (chainGraph []) :=
  (resolvesToClosure_iff (chainGraph_finds fun _ hd => absurd hd not_mem_nil) noEntries).mpr
    ⟨by decide, by decide⟩

/-- The third package of a chain is missing. -/
theorem not_resolvesToClosure_chain :
    ¬ ResolvesToClosure (localWorld (chainGraph [letterDep 99])) [] noEntries [letterDep 97]
      (chainGraph [letterDep 99]) := by
  have hlast : ∀ d ∈ [letterDep 99], d = letterDep 99 := fun d => mem_singleton.mp
  obtain ⟨fuel, t, hresolve, hnames⟩ := (chainGraph_finds hlast).resolve_names noEntries
  have hlevels : t.list.map LockEntry.name = [text "a", text "b"] := hnames.trans (by decide)
  rintro ⟨fuel', t', hresolve', -, hmem⟩
  obtain rfl := resolve_unique hresolve hresolve'
  have hreach : Reachable [letterDep 97] (chainGraph [letterDep 99]) (text "c") :=
    .step (d := letterDep 99) (.step (d := letterDep 98)
      (.root (d := letterDep 97) mem_cons_self) mem_cons_self) mem_cons_self
  have hthird := (hmem _).mpr hreach
  rw [hlevels] at hthird
  exact absurd hthird (by decide)

end Closure

end Mx.Pkg
