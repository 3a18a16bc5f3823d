import Mx.Pkg.Registry
import Mx.Pkg.Closure

/-!
# What the lock file pins

An entry of the lock file should have the hash that the registry records for the version in it,
and that version should satisfy the spec in the manifest. The version of a dependency and its hash
come on one of five routes, and on one of them they come from different replies.
-/

namespace Mx.Pkg

open Strings List

/-! ## Routes -/

/-- The ways to a version and a hash. -/
inductive Route where
  | path
  | latest (url : Text)
  | range (url : Text)
  | exact (url : Text)
  | index
  deriving DecidableEq, Repr

/-- The version spec in the manifest. -/
def ManifestDep.spec (d : ManifestDep) : Text := if d.isLocal then [] else d.path

section Routes

variable (R : Registries) (url : Text) (d : ManifestDep)

/-- The local registry has what a dependency asks for. -/
def Registries.hasLocally : Bool :=
  if isRange d.version then (R.index.lookupRange d.name d.version).isSome
  else (R.index.lookup d.name d.version).isSome

/-- The route of a version spec to a remote registry. -/
def remoteRoute : Route := if isRange d.version then .range url else .exact url

/-- The route of a dependency of the root manifest. -/
def Registries.directRoute : Route :=
  if d.isLocal then .path
  else if d.isURL then if d.version.length = 0 then .latest d.url else remoteRoute d.url d
  else if R.hasLocally d then .index
  else remoteRoute url d

/-- The route of a dependency of a resolved package. -/
def Registries.transitiveRoute : Route :=
  if d.isLocal ∨ d.version.length = 0 then .latest url
  else if R.hasLocally d then .index
  else remoteRoute url d

/-- The version and the hash at the end of a route. -/
def Registries.pick : Route → Option (Text × Text)
  | .path => some ([], [])
  | .latest u => R.fetchLatest u d.name
  | .range u => R.resolveRangeRemote u d.name d.version
  | .exact _ => some (d.version, [])
  | .index =>
    if isRange d.version then R.index.lookupRange d.name d.version
    else (R.index.lookup d.name d.version).map fun sha => (d.version, sha)

/-- The hash that a registry records for a version, at the end of a route. -/
def Registries.recorded : Route → Text → Text → Option Text
  | .path, _, _ => none
  | .latest u, name, version | .range u, name, version | .exact u, name, version =>
    R.sha u name version
  | .index, name, version => (R.index.published name version).map Prod.snd

end Routes

/-! ## Pinning -/

/-- A version satisfies a spec, if there is one. -/
def Satisfies (spec version : Text) : Prop :=
  spec = [] ∨
    if isRange spec then ∃ v, Version.parse version = some v ∧ v.matchesRange spec = true
    else version = spec

section Pinning

variable (R : Registries) (route : Route) (d : ManifestDep)

/-- A version with a hash is what the registry records, and what the manifest asks for. -/
def Registries.Pinned (version sha : Text) : Prop :=
  sha ≠ [] → R.recorded route d.name version = some sha ∧ Satisfies d.spec version

/-- The best version among some names for the spec, as far as it fits its array, satisfies all of
the spec. -/
def KeepsSpec (names : List Text) : Prop :=
  ∀ best, bestVersion d.version names = some best → best.matchesRange d.spec = true

/-- What a route needs to pin a version. -/
def Registries.Pins : Route → Prop
  | .path | .latest _ | .exact _ => True
  | .index =>
    if isRange d.version then KeepsSpec d ((R.index.files d.name).map stripToml)
    else d.spec.length < 32
  | .range u =>
    ∀ r, R.latest u d.name = some r → r.2 ≠ [] →
      KeepsSpec d (R.versions u d.name) ∧
      ∀ best, bestVersion d.version (R.versions u d.name) = some best →
        R.sha u d.name best.toString = R.sha u d.name r.1

end Pinning

section Routes

variable {R : Registries} {route : Route} {d : ManifestDep} {version sha : Text}

theorem version_eq_of_spec (h : d.spec.length < 32) : d.version = d.spec := by
  rw [ManifestDep.spec] at h ⊢
  rw [ManifestDep.version]
  by_cases hlocal : d.isLocal = true
  · rw [if_pos hlocal, if_pos hlocal]
  · rw [if_neg hlocal] at h ⊢
    rw [if_neg hlocal]
    exact assign_of_lt h

theorem spec_length_lt_iff : d.spec.length < 32 ↔ d.version = d.spec := by
  refine ⟨version_eq_of_spec, fun heq => ?_⟩
  rw [← heq, ManifestDep.version]
  split
  · exact Nat.zero_lt_succ 31
  · exact assign_length_lt (by decide) _

/-- A cut does not change the start of a spec. -/
theorem isRange_version (d : ManifestDep) : isRange d.version = isRange d.spec := by
  have hcut : ∀ s : Text, isRange (assign 32 s) = isRange s := by
    intro s
    match s with
    | [] => rfl
    | [_] => rfl
    | a :: b :: s =>
      rw [assign, take_succ_cons, take_succ_cons]
      rfl
  rw [ManifestDep.version, ManifestDep.spec]
  split
  · rfl
  · exact hcut d.path

/-- The best version for a range satisfies the whole spec if it does so for the cut one. -/
theorem satisfies_iff {names : List Text} {best : Version} (hrange : isRange d.version = true)
    (hnames : ∀ name ∈ names, name.length < 32)
    (hbest : bestVersion d.version names = some best) :
    Satisfies d.spec best.toString ↔ KeepsSpec d names := by
  rw [isRange_version] at hrange
  have hspec : d.spec ≠ [] := by
    intro hnil
    rw [hnil] at hrange
    exact absurd hrange (by decide)
  obtain ⟨-, hparse⟩ := bestVersion_printed hnames hbest
  rw [Satisfies, if_pos hrange, KeepsSpec]
  constructor
  · rintro (hnil | ⟨v, hv, hmatch⟩) best' hbest'
    · exact absurd hnil hspec
    · rw [hparse] at hv
      rw [hbest] at hbest'
      rw [← Option.some.inj hbest', Option.some.inj hv]
      exact hmatch
  · exact fun h => .inr ⟨best, hparse, h best hbest⟩

/-- The version and the hash of a route are pinned if and only if it has what it needs. -/
theorem Registries.pinned_iff (hR : R.WellFormed) (hlatest : ∀ u, route = .latest u → d.spec = [])
    (hrange : ∀ u, route = .range u → isRange d.version = true)
    (hpick : R.pick d route = some (version, sha)) :
    R.Pinned route d version sha ↔ R.Pins d route := by
  cases route with
  | path | exact u =>
    obtain ⟨rfl, rfl⟩ := Prod.mk.inj (Option.some.inj hpick)
    exact ⟨fun _ => trivial, fun _ hne => absurd rfl hne⟩
  | latest u =>
    refine ⟨fun _ => trivial, fun _ hne => ⟨?_, .inl (hlatest u rfl)⟩⟩
    rw [Registries.pick, Registries.fetchLatest] at hpick
    obtain ⟨r, hr, hpick⟩ := Option.bind_eq_some_iff.mp hpick
    obtain ⟨hv, hs, hsha⟩ := hR.latest u d.name r hr
    split at hpick
    · cases hpick
    · obtain ⟨rfl, rfl⟩ := Prod.mk.inj (Option.some.inj hpick)
      rw [assign_of_lt hs] at hne ⊢
      rw [assign_of_lt hv]
      exact hsha hne
  | range u =>
    rw [Registries.pick, Registries.resolveRangeRemote] at hpick
    split at hpick
    · cases hpick
    obtain ⟨best, hbest, heq⟩ := Option.map_eq_some_iff.mp hpick
    obtain ⟨rfl, rfl⟩ := Prod.mk.inj heq
    obtain ⟨hprint, -⟩ := bestVersion_printed (hR.versions u d.name) hbest
    have hsatisfies := satisfies_iff (hrange u rfl) (hR.versions u d.name) hbest
    rw [hprint, Registries.Pinned, Registries.Pins, hsatisfies]
    cases hr : R.latest u d.name with
    | none => exact ⟨fun _ _ hnone => absurd hnone (by simp), fun _ hne => absurd rfl hne⟩
    | some r =>
      obtain ⟨hv, hs, hsha⟩ := hR.latest u d.name r hr
      simp only [assign_of_lt hs]
      constructor
      · intro hpinned r' hr' hne
        obtain rfl := Option.some.inj hr'
        obtain ⟨hrec, hkeeps⟩ := hpinned hne
        refine ⟨hkeeps, fun best' hbest' => ?_⟩
        rw [hbest] at hbest'
        rw [← Option.some.inj hbest', hsha hne]
        exact hrec
      · intro hpins hne
        obtain ⟨hkeeps, hsame⟩ := hpins r rfl hne
        exact ⟨(hsame best hbest).trans (hsha hne), hkeeps⟩
  | index =>
    rw [Registries.pick] at hpick
    rw [Registries.Pins]
    have hpublished : ∀ {v s : Text}, R.index.lookup d.name v = some s → s ≠ [] ∧
        R.recorded .index d.name v = some s := by
      intro v s hlookup
      rw [Index.lookup_eq (hR.published d.name v)] at hlookup
      obtain ⟨p, hp, rfl⟩ := Option.map_eq_some_iff.mp hlookup
      exact ⟨ne_nil_of_length_pos (hR.published d.name v p hp).1, hlookup⟩
    by_cases hspec : isRange d.version = true
    · rw [if_pos hspec] at hpick ⊢
      rw [Index.lookupRange] at hpick
      obtain ⟨best, hbest, hpick⟩ := Option.bind_eq_some_iff.mp hpick
      obtain ⟨s, hlookup, heq⟩ := Option.map_eq_some_iff.mp hpick
      obtain ⟨rfl, rfl⟩ := Prod.mk.inj heq
      have hnames : ∀ name ∈ (R.index.files d.name).map stripToml, name.length < 32 := by
        intro name hname
        obtain ⟨f, hf, rfl⟩ := mem_map.mp hname
        exact hR.files d.name f hf
      obtain ⟨hne, hrec⟩ := hpublished hlookup
      rw [Registries.Pinned, (bestVersion_printed hnames hbest).1, satisfies_iff hspec hnames hbest]
      rw [(bestVersion_printed hnames hbest).1] at hrec
      exact ⟨fun hpinned => (hpinned hne).2, fun hkeeps _ => ⟨hrec, hkeeps⟩⟩
    · rw [if_neg hspec] at hpick ⊢
      obtain ⟨s, hlookup, heq⟩ := Option.map_eq_some_iff.mp hpick
      obtain ⟨rfl, rfl⟩ := Prod.mk.inj heq
      obtain ⟨hne, hrec⟩ := hpublished hlookup
      rw [spec_length_lt_iff, Registries.Pinned, Satisfies, ← isRange_version, if_neg hspec]
      constructor
      · intro hpinned
        rcases (hpinned hne).2 with hnil | heq
        · exact version_eq_of_spec (by rw [hnil]; exact Nat.zero_lt_succ 31)
        · exact heq
      · exact fun heq _ => ⟨hrec, .inr heq⟩

end Routes

/-! ## Entries -/

/-- An entry holds the name, the version and the hash of what was resolved. -/
structure LockEntry.Stores (e : LockEntry) (r : Resolved) : Prop where
  name : e.name = assign 64 r.name
  version : e.version = assign 32 r.version
  sha : e.sha = assign 65 r.sha

/-- An entry is that of a dependency, which is one of the root manifest or one in a manifest that
can be read. -/
inductive Registries.Enters (R : Registries) (w : World) (url : Text) (root : List ManifestDep) :
    Route → ManifestDep → LockEntry → Prop
  | direct {d : ManifestDep} {r : Resolved} {e : LockEntry} : d ∈ root →
      resolveDirect (R.world w) url d = some r → e.Stores r →
      R.Enters w url root (R.directRoute url d) d e
  | transitive {p : Text} {ds : List ManifestDep} {d : ManifestDep} {r : Resolved}
      {e : LockEntry} : w.readManifest p = some ds → d ∈ ds →
      resolveTransitive (R.world w) url d = some (some r) → e.Stores r →
      R.Enters w url root (R.transitiveRoute url d) d e

section Entries

variable {R : Registries} {w : World} {url : Text} {root : List ManifestDep} {route : Route}
  {d : ManifestDep} {r : Resolved} {e : LockEntry}

theorem assign_assign (size : Nat) (s : Text) : assign size (assign size s) = assign size s := by
  rw [assign, assign, take_take, Nat.min_self]

/-- What is resolved has the version and the hash of a route. -/
structure Registries.Takes (R : Registries) (route : Route) (d : ManifestDep) (r : Resolved)
    (p : Text × Text) : Prop where
  pick : R.pick d route = some p
  version : r.version = p.1 ∨ r.version = assign 32 p.1
  sha : r.sha = p.2 ∨ r.sha = assign 65 p.2

theorem World.remote_takes {w' : World} {u v name source sha : Text} {p : Text × Text}
    (hpick : R.pick d route = some p) (hv : v = p.1 ∨ v = assign 32 p.1)
    (hsha : sha = p.2 ∨ sha = assign 65 p.2) (h : w'.remote u name v source sha = some r) :
    R.Takes route d r p := by
  rw [World.remote, Option.map_eq_some_iff] at h
  obtain ⟨path, -, rfl⟩ := h
  exact ⟨hpick, hv, hsha⟩

theorem World.registry_takes {w' : World} {v name sha : Text} {p : Text × Text}
    (hpick : R.pick d route = some p) (hv : v = p.1 ∨ v = assign 32 p.1)
    (hsha : sha = p.2 ∨ sha = assign 65 p.2) (h : w'.registry name v sha = some r) :
    R.Takes route d r p := by
  rw [World.registry, Option.map_eq_some_iff] at h
  obtain ⟨path, -, rfl⟩ := h
  exact ⟨hpick, hv, hsha⟩

/-- The version and the hash of a direct dependency are those of its route. -/
theorem resolveDirect_takes (h : resolveDirect (R.world w) url d = some r) :
    ∃ p, R.Takes (R.directRoute url d) d r p := by
  rw [resolveDirect] at h
  rw [Registries.directRoute]
  by_cases hlocal : d.isLocal = true
  · rw [if_pos hlocal] at h ⊢
    split at h
    · cases h
    split at h
    · cases h
    obtain rfl := Option.some.inj h
    exact ⟨([], []), rfl, .inl rfl, .inl rfl⟩
  rw [if_neg hlocal] at h ⊢
  by_cases hurl : d.isURL = true
  · rw [if_pos hurl] at h ⊢
    by_cases hnone : d.version.length = 0
    · rw [if_pos hnone] at h ⊢
      obtain ⟨p, hp, h⟩ := Option.bind_eq_some_iff.mp h
      exact ⟨p, World.remote_takes hp (.inr rfl) (.inr rfl) h⟩
    rw [if_neg hnone] at h ⊢
    rw [remoteRoute]
    by_cases hrange : isRange d.version = true
    · rw [if_pos hrange] at h ⊢
      obtain ⟨p, hp, h⟩ := Option.bind_eq_some_iff.mp h
      exact ⟨p, World.remote_takes hp (.inr rfl) (.inr rfl) h⟩
    · rw [if_neg hrange] at h ⊢
      exact ⟨(d.version, []), World.remote_takes rfl (.inl rfl) (.inl rfl) h⟩
  rw [if_neg hurl] at h ⊢
  rw [Registries.hasLocally, remoteRoute]
  by_cases hrange : isRange d.version = true
  · rw [if_pos hrange] at h
    rw [if_pos hrange, if_pos hrange]
    have hlook : (R.world w).lookupRange d.name d.version =
      R.index.lookupRange d.name d.version := rfl
    rw [hlook] at h
    cases hfound : R.index.lookupRange d.name d.version with
    | none =>
      rw [hfound] at h
      simp only at h
      split at h
      · obtain ⟨p, hp, h⟩ := Option.bind_eq_some_iff.mp h
        exact ⟨p, World.remote_takes hp (.inr rfl) (.inr rfl) h⟩
      · cases h
    | some p =>
      rw [hfound] at h
      have hpick : R.pick d .index = some p := by rw [Registries.pick, if_pos hrange, hfound]
      exact ⟨p, World.registry_takes hpick (.inr rfl) (.inr rfl) h⟩
  · rw [if_neg hrange] at h
    rw [if_neg hrange, if_neg hrange]
    have hlook : (R.world w).lookup d.name d.version = R.index.lookup d.name d.version := rfl
    rw [hlook] at h
    cases hfound : R.index.lookup d.name d.version with
    | none =>
      rw [hfound] at h
      simp only at h
      split at h
      · exact ⟨(d.version, []), World.remote_takes rfl (.inl rfl) (.inl rfl) h⟩
      · cases h
    | some s =>
      rw [hfound] at h
      have hpick : R.pick d .index = some (d.version, s) := by
        rw [Registries.pick, if_neg hrange, hfound]
        rfl
      exact ⟨(d.version, s), World.registry_takes hpick (.inl rfl) (.inr rfl) h⟩

/-- The version and the hash of a transitive dependency are those of its route. -/
theorem resolveTransitive_takes (h : resolveTransitive (R.world w) url d = some (some r)) :
    ∃ p, R.Takes (R.transitiveRoute url d) d r p := by
  have hsome : ∀ {o : Option Resolved}, o.map some = some (some r) → o = some r := by
    intro o hmap
    obtain ⟨r', hr', heq⟩ := Option.map_eq_some_iff.mp hmap
    rw [hr', Option.some.inj heq]
  rw [resolveTransitive] at h
  rw [Registries.transitiveRoute]
  by_cases hnone : d.isLocal = true ∨ d.version.length = 0
  · rw [if_pos hnone] at h ⊢
    split at h
    · split at h
      · cases h
      · rename_i p hp
        exact ⟨p, World.remote_takes hp (.inr rfl) (.inr rfl) (hsome h)⟩
    · cases h
  rw [if_neg hnone] at h ⊢
  rw [Registries.hasLocally, remoteRoute]
  by_cases hrange : isRange d.version = true
  · rw [if_pos hrange] at h
    rw [if_pos hrange, if_pos hrange]
    have hlook : (R.world w).lookupRange d.name d.version =
      R.index.lookupRange d.name d.version := rfl
    rw [hlook] at h
    cases hfound : R.index.lookupRange d.name d.version with
    | none =>
      rw [hfound] at h
      simp only at h
      split at h
      · split at h
        · cases h
        · rename_i p hp
          exact ⟨p, World.remote_takes hp (.inr rfl) (.inr rfl) (hsome h)⟩
      · cases h
    | some p =>
      rw [hfound] at h
      have hpick : R.pick d .index = some p := by rw [Registries.pick, if_pos hrange, hfound]
      exact ⟨p, World.registry_takes hpick (.inr rfl) (.inr rfl) (hsome h)⟩
  · rw [if_neg hrange] at h
    rw [if_neg hrange, if_neg hrange]
    have hlook : (R.world w).lookup d.name d.version = R.index.lookup d.name d.version := rfl
    rw [hlook] at h
    cases hfound : R.index.lookup d.name d.version with
    | none =>
      rw [hfound] at h
      simp only at h
      split at h
      · exact ⟨(d.version, []), World.remote_takes rfl (.inl rfl) (.inl rfl) (hsome h)⟩
      · cases h
    | some s =>
      rw [hfound] at h
      have hpick : R.pick d .index = some (d.version, s) := by
        rw [Registries.pick, if_neg hrange, hfound]
        rfl
      exact ⟨(d.version, s), World.registry_takes hpick (.inl rfl) (.inr rfl) (hsome h)⟩

/-- What a route gives fits the table. -/
theorem Registries.pick_fits (hR : R.WellFormed) {p : Text × Text}
    (h : R.pick d route = some p) : assign 32 p.1 = p.1 ∧ assign 65 p.2 = p.2 := by
  have hversion : assign 32 d.version = d.version := by
    rw [ManifestDep.version]
    split
    · rfl
    · exact assign_assign 32 d.path
  have hsha : ∀ {v s : Text}, R.index.lookup d.name v = some s → assign 65 s = s := by
    intro v s hlookup
    rw [Index.lookup_eq (hR.published d.name v)] at hlookup
    obtain ⟨q, hq, rfl⟩ := Option.map_eq_some_iff.mp hlookup
    exact assign_of_lt (hR.published d.name v q hq).2
  cases route with
  | path =>
    obtain rfl := Option.some.inj h
    exact ⟨rfl, rfl⟩
  | exact u =>
    obtain rfl := Option.some.inj h
    exact ⟨hversion, rfl⟩
  | latest u =>
    rw [Registries.pick, Registries.fetchLatest] at h
    obtain ⟨q, -, h⟩ := Option.bind_eq_some_iff.mp h
    split at h
    · cases h
    · obtain rfl := Option.some.inj h
      exact ⟨assign_assign 32 q.1, assign_assign 65 q.2⟩
  | range u =>
    rw [Registries.pick, Registries.resolveRangeRemote] at h
    split at h
    · cases h
    · obtain ⟨best, -, rfl⟩ := Option.map_eq_some_iff.mp h
      refine ⟨assign_assign 32 best.toString, ?_⟩
      cases R.latest u d.name with
      | none => rfl
      | some q => exact assign_assign 65 q.2
  | index =>
    rw [Registries.pick] at h
    split at h
    · rw [Index.lookupRange] at h
      obtain ⟨best, -, h⟩ := Option.bind_eq_some_iff.mp h
      obtain ⟨s, hlookup, rfl⟩ := Option.map_eq_some_iff.mp h
      exact ⟨assign_assign 32 best.toString, hsha hlookup⟩
    · obtain ⟨s, hlookup, rfl⟩ := Option.map_eq_some_iff.mp h
      exact ⟨hversion, hsha hlookup⟩

theorem spec_eq_nil (h : d.isLocal = true ∨ d.version.length = 0) : d.spec = [] := by
  by_cases hlocal : d.isLocal = true
  · exact if_pos hlocal
  · have hnil := eq_nil_of_length_eq_zero (h.resolve_left hlocal)
    rw [ManifestDep.version, if_neg hlocal, assign, take_eq_nil_iff] at hnil
    rw [ManifestDep.spec, if_neg hlocal]
    exact hnil.resolve_left (by decide)

theorem remoteRoute_spec : (∀ u, remoteRoute url d ≠ .latest u) ∧
    ∀ u, remoteRoute url d = .range u → isRange d.version = true := by
  rw [remoteRoute]
  split
  · rename_i hrange
    exact ⟨fun _ heq => (by cases heq), fun _ _ => hrange⟩
  · exact ⟨fun _ heq => (by cases heq), fun _ heq => (by cases heq)⟩

/-- A route to the latest version is one without a version spec, and a route to a range is one with
a range. -/
theorem Registries.directRoute_spec : (∀ u, R.directRoute url d = .latest u → d.spec = []) ∧
    ∀ u, R.directRoute url d = .range u → isRange d.version = true := by
  have hremote : ∀ u', (∀ u, remoteRoute u' d = .latest u → d.spec = []) ∧
      ∀ u, remoteRoute u' d = .range u → isRange d.version = true := fun u' =>
    ⟨fun u heq => absurd heq (remoteRoute_spec.1 u), remoteRoute_spec.2⟩
  rw [Registries.directRoute]
  split
  · exact ⟨fun _ heq => (by cases heq), fun _ heq => (by cases heq)⟩
  split
  · split
    · rename_i hnone
      exact ⟨fun _ _ => spec_eq_nil (.inr hnone), fun _ heq => (by cases heq)⟩
    · exact hremote d.url
  split
  · exact ⟨fun _ heq => (by cases heq), fun _ heq => (by cases heq)⟩
  · exact hremote url

theorem Registries.transitiveRoute_spec :
    (∀ u, R.transitiveRoute url d = .latest u → d.spec = []) ∧
      ∀ u, R.transitiveRoute url d = .range u → isRange d.version = true := by
  rw [Registries.transitiveRoute]
  split
  · rename_i hnone
    exact ⟨fun _ _ => spec_eq_nil hnone, fun _ heq => (by cases heq)⟩
  split
  · exact ⟨fun _ heq => (by cases heq), fun _ heq => (by cases heq)⟩
  · exact ⟨fun u heq => absurd heq (remoteRoute_spec.1 u), remoteRoute_spec.2⟩

/-- The entry holds the version and the hash of the route. -/
theorem Registries.Takes.stored (hR : R.WellFormed) {p : Text × Text}
    (h : R.Takes route d r p) (hr : e.Stores r) : R.pick d route = some (e.version, e.sha) := by
  obtain ⟨hversion, hsha⟩ := R.pick_fits hR h.pick
  have hv : r.version = p.1 := by
    rcases h.version with heq | heq
    · exact heq
    · rw [heq, hversion]
  have hs : r.sha = p.2 := by
    rcases h.sha with heq | heq
    · exact heq
    · rw [heq, hsha]
  rw [h.pick, hr.version, hr.sha, hv, hs, hversion, hsha]

/-- The entry of a dependency is pinned if and only if its route has what it needs. -/
theorem Registries.Enters.pinned (hR : R.WellFormed) (h : R.Enters w url root route d e) :
    R.Pinned route d e.version e.sha ↔ R.Pins d route := by
  cases h with
  | direct _ hr hstores =>
    obtain ⟨p, htakes⟩ := resolveDirect_takes hr
    exact R.pinned_iff hR R.directRoute_spec.1 R.directRoute_spec.2 (htakes.stored hR hstores)
  | transitive _ _ hr hstores =>
    obtain ⟨p, htakes⟩ := resolveTransitive_takes hr
    exact R.pinned_iff hR R.transitiveRoute_spec.1 R.transitiveRoute_spec.2
      (htakes.stored hR hstores)

end Entries

/-! ## Runs -/

/-- All entries before an index are those of dependencies. -/
def Registries.Entered (R : Registries) (w : World) (url : Text) (root : List ManifestDep)
    (t : LockTable) (n : Nat) : Prop :=
  ∀ i < n, i < maxLockDeps → ∃ route d, R.Enters w url root route d (t.entries i)

section Runs

variable {R : Registries} {w : World} {url : Text} {root : List ManifestDep}

theorem LockTable.set_stores {t : LockTable} {i : Nat} {r : Resolved} (hi : i < maxLockDeps) :
    ((t.set i r).entries i).Stores r := by
  rw [LockTable.set, LockTable.setDepEntry, if_pos hi]
  simp only [LockTable.modify, Function.update_self]
  exact ⟨rfl, rfl, rfl⟩

/-- One more entry is that of a dependency. -/
theorem Registries.Entered.push {t t' : LockTable} {n : Nat} {r : Resolved}
    (h : R.Entered w url root t n) (ht : ∀ i < n, t'.entries i = t.entries i)
    (hr : ∀ e : LockEntry, e.Stores r → ∃ route d, R.Enters w url root route d e) :
    R.Entered w url root (t'.set n r) (n + 1) := by
  intro i hi hlt
  by_cases hlast : i = n
  · rw [hlast] at hlt ⊢
    exact hr _ (LockTable.set_stores hlt)
  · rw [LockTable.set_of_ne hlast, ht i (by omega)]
    exact h i (by omega) hlt

theorem Registries.Entered.directLoop (ds : List ManifestDep) :
    ∀ {i : Nat} {t t' : LockTable}, (∀ d ∈ ds, d ∈ root) → R.Entered w url root t i →
      Pkg.directLoop (R.world w) url i t ds = some t' →
      R.Entered w url root t' (i + ds.length) ∧ t'.count = t.count := by
  induction ds with
  | nil =>
    intro i t t' _ h hloop
    obtain rfl := Option.some.inj hloop
    exact ⟨h, rfl⟩
  | cons d ds ih =>
    intro i t t' hds h hloop
    rw [Pkg.directLoop] at hloop
    obtain ⟨r, hr, hloop⟩ := Option.bind_eq_some_iff.mp hloop
    let t₁ := if d.isURL && !d.isLocal then t.setDepURL i d.url else t
    have hframe : t₁.count = t.count ∧ ∀ j < i, t₁.entries j = t.entries j := by
      simp only [t₁]
      split
      · exact ⟨LockTable.setDepURL_count t i d.url,
          fun j hj => LockTable.setDepURL_of_ne (Nat.ne_of_lt hj)⟩
      · exact ⟨rfl, fun _ _ => rfl⟩
    have hpush : R.Entered w url root (t₁.set i r) (i + 1) := h.push hframe.2
      fun e he => ⟨_, d, .direct (hds d mem_cons_self) hr he⟩
    obtain ⟨hentered, hcount⟩ := ih (fun d' hd' => hds d' (mem_cons_of_mem d hd')) hpush hloop
    refine ⟨?_, ?_⟩
    · rw [length_cons, ← Nat.add_assoc, Nat.add_right_comm]
      exact hentered
    · rw [hcount, LockTable.set_count, hframe.1]

theorem Registries.Entered.transitiveLoop {p : Text} {all : List ManifestDep}
    (hall : w.readManifest p = some all) (ds : List ManifestDep) :
    ∀ {s s' : LockTable × Nat}, (∀ d ∈ ds, d ∈ all) → R.Entered w url root s.1 s.2 →
      Pkg.transitiveLoop (R.world w) url s ds = some s' →
      R.Entered w url root s'.1 s'.2 ∧ s'.1.count = s.1.count ∧ s.2 ≤ s'.2 := by
  induction ds with
  | nil =>
    intro s s' _ h hloop
    obtain rfl := Option.some.inj hloop
    exact ⟨h, rfl, le_refl _⟩
  | cons d ds ih =>
    intro s s' hds h hloop
    have hrest := fun d' hd' => hds d' (mem_cons_of_mem d hd')
    rw [Pkg.transitiveLoop] at hloop
    split at hloop
    · exact ih hrest h hloop
    · obtain ⟨o, ho, hloop⟩ := Option.bind_eq_some_iff.mp hloop
      cases o with
      | none => exact ih hrest h hloop
      | some r =>
        have hpush : R.Entered w url root (s.1.set _ r) _ := h.push (fun _ _ => rfl)
          fun e he => ⟨_, d, .transitive hall (hds d mem_cons_self) ho he⟩
        obtain ⟨hentered, hcount, hle⟩ := ih hrest hpush hloop
        refine ⟨hentered, hcount.trans (LockTable.set_count ..), ?_⟩
        simp only at hle
        omega

theorem Registries.Entered.bfsLoop (fuel : Nat) :
    ∀ {idx : Nat} {s s' : LockTable × Nat}, R.Entered w url root s.1 s.2 →
      Pkg.bfsLoop (R.world w) url fuel idx s = .ok s' →
      R.Entered w url root s'.1 s'.2 ∧ s'.1.count = s.1.count ∧ s.2 ≤ s'.2 := by
  induction fuel with
  | zero =>
    intro idx s s' _ hloop
    cases hloop
  | succ fuel ih =>
    intro idx s s' h hloop
    rw [Pkg.bfsLoop] at hloop
    split at hloop
    · cases hround : bfsRound (R.world w) url idx s with
      | none =>
        rw [hround] at hloop
        cases hloop
      | some s₁ =>
        rw [hround] at hloop
        have hstep : R.Entered w url root s₁.1 s₁.2 ∧ s₁.1.count = s.1.count ∧ s.2 ≤ s₁.2 := by
          rw [bfsRound] at hround
          simp only at hround
          split at hround
          · obtain rfl := Option.some.inj hround
            exact ⟨h, rfl, le_refl _⟩
          split at hround
          · obtain ⟨ds, hds, hround⟩ := Option.bind_eq_some_iff.mp hround
            have hds : w.readManifest (manifestPath (s.1.get LockEntry.path idx)) = some ds := hds
            exact Registries.Entered.transitiveLoop hds ds (fun _ hd => hd) h hround
          · obtain rfl := Option.some.inj hround
            exact ⟨h, rfl, le_refl _⟩
        obtain ⟨hentered, hcount, hle⟩ := ih hstep.1 hloop
        exact ⟨hentered, hcount.trans hstep.2.1, hstep.2.2.trans hle⟩
    · obtain rfl := Except.ok.inj hloop
      exact ⟨h, rfl, le_refl _⟩

/-- All entries of the lock file are those of dependencies. -/
theorem resolve_entered {fuel : Nat} {old t : LockTable} (hroot : root.length ≤ 16)
    (h : resolve (R.world w) url fuel old root = .ok t) :
    ∀ e ∈ t.list, ∃ route d, R.Enters w url root route d e := by
  have hmax : maxLockDeps = 64 := rfl
  have hlist : ∀ {u : LockTable} {n : Nat}, R.Entered w url root u n → u.count ≤ n →
      u.count ≤ maxLockDeps → ∀ e ∈ u.list, ∃ route d, R.Enters w url root route d e := by
    intro u n hentered hn hcount e he
    obtain ⟨i, hi, rfl⟩ := mem_map.mp he
    have hlt := mem_range.mp hi
    exact hentered i (by omega) (by omega)
  rw [resolve] at h
  cases hdirect : directLoop (R.world w) url 0 (old.setLockDepCount root.length) root with
  | none =>
    rw [hdirect] at h
    cases h
  | some t₁ =>
    rw [hdirect] at h
    have hstart : R.Entered w url root (old.setLockDepCount root.length) 0 :=
      fun i hi => absurd hi (Nat.not_lt_zero i)
    obtain ⟨hentered, hcount⟩ := hstart.directLoop root (fun _ hd => hd) hdirect
    rw [Nat.zero_add] at hentered
    rw [LockTable.setLockDepCount, if_pos (by omega)] at hcount
    have hcount : t₁.count = root.length := hcount
    simp only at h
    split at h
    · cases hloop : bfsLoop (R.world w) url fuel 0 (t₁, root.length) with
      | error err =>
        rw [hloop] at h
        cases h
      | ok s =>
        rw [hloop] at h
        obtain rfl := Except.ok.inj h
        obtain ⟨hend, hsame, hle⟩ := Registries.Entered.bfsLoop fuel hentered hloop
        simp only at hsame hle
        by_cases hn : s.2 ≤ maxLockDeps
        · have hset : s.1.setLockDepCount s.2 = { s.1 with count := s.2 } := if_pos hn
          rw [hset]
          exact hlist hend (le_refl _) hn
        · have hset : s.1.setLockDepCount s.2 = s.1 := if_neg hn
          rw [hset]
          exact hlist hend (by omega) (by omega)
    · obtain rfl := Except.ok.inj h
      exact hlist hentered (by omega) (by omega)

/-- Every entry of the lock file is that of a dependency, and is pinned if and only if the route of
the dependency has what it needs. -/
theorem resolve_pins {fuel : Nat} {old t : LockTable} (hR : R.WellFormed)
    (hroot : root.length ≤ 16) (h : resolve (R.world w) url fuel old root = .ok t) :
    (∀ e ∈ t.list, ∃ route d, R.Enters w url root route d e) ∧
      ∀ e ∈ t.list, ∀ route d, R.Enters w url root route d e →
        (R.Pinned route d e.version e.sha ↔ R.Pins d route) :=
  ⟨resolve_entered hroot h, fun _ _ _ _ henters => henters.pinned hR⟩

end Runs

/-! ## A range of a remote package -/

/-- Remote registries with the versions 1.5.0 and 2.0.0 of every package, of which one is given as
the latest. The hash of a version is its name. -/
def twoVersions (latest : Text) : Registries where
  index := ⟨fun _ => [], fun _ _ => none⟩
  versions _ _ := [text "1.5.0", text "2.0.0"]
  latest _ _ := some (latest, latest)
  sha _ _ version := some version

theorem twoVersions_wellFormed {latest : Text} (h : latest.length < 32) :
    (twoVersions latest).WellFormed where
  files _ _ hf := absurd hf not_mem_nil
  published _ _ _ hp := absurd hp (by simp [twoVersions])
  versions _ _ v hv := by
    simp only [twoVersions, mem_cons, not_mem_nil, or_false] at hv
    rcases hv with rfl | rfl
    · decide
    · decide
  latest _ _ r hr := by
    obtain rfl := Option.some.inj hr
    exact ⟨h, by simp only; omega, fun _ => rfl⟩

/-- A dependency on a package at a URL, with a range. -/
def rangeDep : ManifestDep where
  name := text "a"
  path := text "^1.0.0"
  isLocal := false
  isURL := true
  url := text "http://r"
  name_lt := by decide
  path_lt := by decide
  url_lt := by decide

/-- All packages can be fetched, and have no dependencies. -/
def leafWorld : World where
  isDir _ := false
  fileExists _ := false
  readManifest _ := some []
  lookup _ _ := none
  lookupRange _ _ := none
  fetch _ _ := none
  fetchRemote _ name _ := some name
  fetchLatest _ _ := none
  resolveRangeRemote _ _ _ := none

/-- What is resolved for the dependency if the latest version is the given one. -/
def rangeResolved (latest : Text) : Resolved :=
  ⟨text "a", text "1.5.0", text "remote", latest, text "a"⟩

/-- The entry that is written for it. -/
def rangeEntry (latest : Text) : LockEntry :=
  ⟨text "a", text "1.5.0", text "remote", latest, text "a", text "http://r"⟩

/-- The run with the dependency on the range as the root manifest. -/
def resolveRange (latest : Text) : Except Stuck LockTable :=
  resolve ((twoVersions latest).world leafWorld) [] 2 noEntries [rangeDep]

theorem exists_of_map_list {x : Except Stuck LockTable} {l : List LockEntry}
    (h : x.map LockTable.list = .ok l) : ∃ t, x = .ok t ∧ t.list = l := by
  cases x with
  | error e => cases h
  | ok t => exact ⟨t, rfl, Except.ok.inj h⟩

/-- The latest version is the one that is chosen. -/
theorem resolve_pins_latest : ∃ t, resolveRange (text "1.5.0") = .ok t ∧
    (∀ e ∈ t.list, ∃ route d,
      (twoVersions (text "1.5.0")).Enters leafWorld [] [rangeDep] route d e) ∧
    ∀ e ∈ t.list, ∀ route d,
      (twoVersions (text "1.5.0")).Enters leafWorld [] [rangeDep] route d e →
        ((twoVersions (text "1.5.0")).Pinned route d e.version e.sha ↔
          (twoVersions (text "1.5.0")).Pins d route) := by
  obtain ⟨t, ht, -⟩ := exists_of_map_list
    (by decide : (resolveRange (text "1.5.0")).map LockTable.list =
      .ok [rangeEntry (text "1.5.0")])
  exact ⟨t, ht, resolve_pins (twoVersions_wellFormed (by decide)) (by decide) ht⟩

/-- The hash of version 2.0.0 is written for version 1.5.0. -/
theorem not_pinned_range : ¬ ∀ (R : Registries) (w : World) (url : Text) (fuel : Nat)
    (old t : LockTable) (root : List ManifestDep), R.WellFormed → root.length ≤ 16 →
      resolve (R.world w) url fuel old root = .ok t →
      ∀ e ∈ t.list, ∀ route d, R.Enters w url root route d e →
        R.Pinned route d e.version e.sha := by
  intro hall
  obtain ⟨t, ht, hlist⟩ := exists_of_map_list
    (by decide : (resolveRange (text "2.0.0")).map LockTable.list =
      .ok [rangeEntry (text "2.0.0")])
  have hmem : rangeEntry (text "2.0.0") ∈ t.list := by
    rw [hlist]
    exact mem_singleton_self _
  have hresolved : resolveDirect ((twoVersions (text "2.0.0")).world leafWorld) [] rangeDep =
      some (rangeResolved (text "2.0.0")) := by decide
  have henters : (twoVersions (text "2.0.0")).Enters leafWorld [] [rangeDep] _ rangeDep
      (rangeEntry (text "2.0.0")) :=
    .direct (mem_singleton_self rangeDep) hresolved ⟨rfl, rfl, rfl⟩
  have hpinned := hall _ _ _ _ _ t _ (twoVersions_wellFormed (by decide)) (by decide) ht _ hmem
    _ _ henters
  obtain ⟨hrecorded, -⟩ := hpinned (by decide)
  exact absurd hrecorded (by decide)

end Mx.Pkg
