import Mx.Build.Project

/-!
# Builds that are up to date

A history of builds of one project, and what of the inputs of the compiler the saved hash speaks
for: if nothing that is not stamped has changed since the hash was saved, then a project is reported
to be up to date only if the compiler would be given what it was given for its artifact.
-/

namespace Mx.Build

open Strings Pkg List

theorem lawfulBEq_path : LawfulBEq Path := inferInstance

attribute [local instance] lawfulBEq_path

/-! ## The fuel of the loops -/

section Fuel

variable (w : World)

/-- The places that were not visited. -/
def room (visited : List Path) : Nat := (w.places.toFinset \ visited.toFinset).card

theorem room_le (visited : List Path) : room w visited ≤ w.places.length :=
  (Finset.card_le_card Finset.sdiff_subset).trans w.places.toFinset_card_le

theorem room_mono {visited visited' : List Path} (h : visited ⊆ visited') :
    room w visited' ≤ room w visited := by
  apply Finset.card_le_card
  intro p hp
  simp only [Finset.mem_sdiff, mem_toFinset] at hp ⊢
  exact ⟨hp.1, fun hv => hp.2 (h hv)⟩

theorem room_append {visited : List Path} {dir : Path} (hp : dir ∈ w.places)
    (hv : dir ∉ visited) : room w (visited ++ [dir]) < room w visited := by
  apply Finset.card_lt_card
  constructor
  · intro p hp'
    simp only [toFinset_append, Finset.mem_sdiff, mem_toFinset, Finset.mem_union]
      at hp' ⊢
    exact ⟨hp'.1, fun h => hp'.2 (.inl h)⟩
  · intro hsub
    have hmem : dir ∈ w.places.toFinset \ visited.toFinset := by simp [hp, hv]
    simpa using hsub hmem

theorem depRoot_mem {root dir : Path} {dep : DepEntry} (h : depRoot w root dep = some dir) :
    dir ∈ w.places := by
  have hlib : ∀ lib, (if w.isDir (join lib dep.name) then some (join lib dep.name) else none) =
      some dir → dir ∈ w.places := by
    intro lib hif
    by_cases hd : w.isDir (join lib dep.name) = true
    · rw [if_pos hd] at hif
      cases hif
      exact w.isDir_mem _ hd
    · rw [if_neg hd] at hif
      cases hif
  rw [depRoot] at h
  cases hs : dep.source with
  | «local» rel =>
    rw [hs] at h
    exact w.canonicalize_mem _ _ h
  | installed | registry v =>
    rw [hs] at h
    obtain ⟨lib, -, hif⟩ := Option.bind_eq_some_iff.1 h
    exact hlib lib hif

variable (features : List Text)

variable {collect : Path → Manifest → CcSection × List Path → CcSection × List Path}

theorem visitDep_visited
    (hc : ∀ root m st, st.2 ⊆ (collect root m st).2) (root : Path) (st : CcSection × List Path)
    (dep : DepEntry) : st.2 ⊆ (visitDep w features collect root st dep).2 := by
  rw [visitDep]
  cases depRoot w root dep with
  | none => exact List.Subset.refl _
  | some dir =>
    by_cases hv : dir ∈ st.2
    · simp only [hv, ite_true]
      exact List.Subset.refl _
    · simp only [hv, ite_false]
      cases manifestIn w dir with
      | none => exact subset_append_left _ _
      | some dm =>
        apply List.Subset.trans (subset_append_left st.2 [dir])
        exact hc dir dm (_, st.2 ++ [dir])

theorem visitDeps_visited
    (hc : ∀ root m st, st.2 ⊆ (collect root m st).2) (root : Path) (deps : List DepEntry)
    (st : CcSection × List Path) :
    st.2 ⊆ (deps.foldl (visitDep w features collect root) st).2 := by
  induction deps generalizing st with
  | nil => exact List.Subset.refl _
  | cons dep deps ih =>
    exact List.Subset.trans (visitDep_visited w features hc root st dep) (ih _)

/-- What was visited stays visited. -/
theorem collectDepCc_visited (fuel : Nat) (root : Path) (m : Manifest)
    (st : CcSection × List Path) : st.2 ⊆ (collectDepCc w features fuel root m st).2 := by
  induction fuel generalizing root m st with
  | zero => exact List.Subset.refl _
  | succ fuel ih => exact visitDeps_visited w features ih root m.deps st

/-- Two loops agree if they agree on the calls that have less room. -/
theorem visitDeps_congr {collect' : Path → Manifest → CcSection × List Path →
      CcSection × List Path} {n : Nat}
    (hc : ∀ root m st, st.2 ⊆ (collect root m st).2)
    (heq : ∀ root m st, room w st.2 < n → collect root m st = collect' root m st) (root : Path)
    (deps : List DepEntry) (st : CcSection × List Path) (hroom : room w st.2 ≤ n) :
    deps.foldl (visitDep w features collect root) st =
      deps.foldl (visitDep w features collect' root) st := by
  induction deps generalizing st with
  | nil => rfl
  | cons dep deps ih =>
    have hstep : visitDep w features collect root st dep =
        visitDep w features collect' root st dep := by
      rw [visitDep, visitDep]
      cases hd : depRoot w root dep with
      | none => rfl
      | some dir =>
        by_cases hv : dir ∈ st.2
        · simp only [hv, ite_true]
        · simp only [hv, ite_false]
          cases manifestIn w dir with
          | none => rfl
          | some dm =>
            apply heq
            exact (room_append w (depRoot_mem w hd) hv).trans_le hroom
    rw [foldl_cons, foldl_cons, ← hstep]
    apply ih
    exact (room_mono w (visitDep_visited w features hc root st dep)).trans hroom

variable {st : CcSection × List Path}

/-- Where there is no room, all dependencies were visited. -/
theorem visitDep_of_room_eq_zero
    (collect : Path → Manifest → CcSection × List Path → CcSection × List Path) (root : Path)
    (hroom : room w st.2 = 0) (dep : DepEntry) :
    visitDep w features collect root st dep = st := by
  rw [visitDep]
  cases hd : depRoot w root dep with
  | none => rfl
  | some dir =>
    by_cases hv : dir ∈ st.2
    · simp only [hv, ite_true]
    · have := room_append w (depRoot_mem w hd) hv
      omega

/-- The depth does not matter, once it is the room. -/
theorem collectDepCc_succ_fuel {fuel : Nat} (root : Path) (m : Manifest)
    (hroom : room w st.2 ≤ fuel) :
    collectDepCc w features fuel root m st = collectDepCc w features (fuel + 1) root m st := by
  induction fuel generalizing root m st with
  | zero =>
    have hdeps : ∀ deps : List DepEntry,
        deps.foldl (visitDep w features (collectDepCc w features 0) root) st = st := by
      intro deps
      induction deps with
      | nil => rfl
      | cons dep deps ih =>
        rw [foldl_cons, visitDep_of_room_eq_zero w features _ root (by omega) dep]
        exact ih
    exact (hdeps m.deps).symm
  | succ fuel ih =>
    apply visitDeps_congr w features (collectDepCc_visited w features fuel) _ root m.deps st hroom
    intro root m st hlt
    exact ih root m (by omega)

theorem collectDepCc_fuel {fuel fuel' : Nat} (root : Path) (m : Manifest)
    (hroom : room w st.2 ≤ fuel) (hle : fuel ≤ fuel') :
    collectDepCc w features fuel root m st = collectDepCc w features fuel' root m st := by
  induction fuel', hle using Nat.le_induction with
  | base => rfl
  | succ fuel' hle ih =>
    exact ih.trans (collectDepCc_succ_fuel w features root m (hroom.trans hle))

end Fuel

/-! ## What is stamped -/

section Stamped

theorem mem_insertSorted_self {α : Type} (key : StampKey) (x : α) (es : List (StampKey × α)) :
    (key, x) ∈ insertSorted key x es := by
  induction es with
  | nil => simp [insertSorted]
  | cons e es ih =>
    rw [insertSorted]
    by_cases hk : key = e.1
    · simp [hk]
    · by_cases ht : key.text < e.1.text
      · simp [hk, ht]
      · simp [hk, ht, ih]

theorem mem_insertSorted_of_ne {α : Type} {key : StampKey} {x : α} {es : List (StampKey × α)}
    {e : StampKey × α} (he : e ∈ es) (hne : e.1 ≠ key) : e ∈ insertSorted key x es := by
  induction es with
  | nil => cases he
  | cons c es ih =>
    rw [insertSorted]
    by_cases hk : key = c.1
    · rcases mem_cons.1 he with rfl | he
      · exact absurd hk.symm hne
      · simp [hk, he]
    · by_cases ht : key.text < c.1.text
      · simp only [hk, ht, ite_true, ite_false]
        exact mem_cons_of_mem _ he
      · simp only [hk, ht, ite_false]
        rcases mem_cons.1 he with rfl | he
        · exact mem_cons_self
        · exact mem_cons_of_mem _ (ih he)

theorem mem_insertSorted {α : Type} {key : StampKey} {x : α} {es : List (StampKey × α)}
    {e : StampKey × α} (he : e ∈ insertSorted key x es) : e = (key, x) ∨ e ∈ es := by
  induction es with
  | nil => exact .inl (mem_singleton.1 he)
  | cons c es ih =>
    rw [insertSorted] at he
    by_cases hk : key = c.1
    · simp only [hk, ite_true, mem_cons] at he ⊢
      tauto
    · by_cases ht : key.text < c.1.text
      · simpa only [hk, ht, ite_true, ite_false, mem_cons] using he
      · simp only [hk, ht, ite_false, mem_cons] at he ⊢
        rcases he with he | he
        · exact .inr (.inl he)
        · rcases ih he with he | he
          · exact .inl he
          · exact .inr (.inr he)

theorem stampKey_injective (root : Path) : Function.Injective (stampKey root) := by
  intro p q h
  rw [stampKey, stampKey] at h
  by_cases hp : root.isPrefixOf p = true
  · by_cases hq : root.isPrefixOf q = true
    · rw [if_pos hp, if_pos hq, StampKey.inRoot.injEq] at h
      obtain ⟨p, rfl⟩ := List.isPrefixOf_iff_prefix.1 hp
      obtain ⟨q, rfl⟩ := List.isPrefixOf_iff_prefix.1 hq
      rw [drop_left, drop_left] at h
      rw [h]
    · rw [if_pos hp, if_neg hq] at h
      cases h
  · by_cases hq : root.isPrefixOf q = true
    · rw [if_neg hp, if_pos hq] at h
      cases h
    · rw [if_neg hp, if_neg hq, StampKey.outside.injEq] at h
      exact h

/-- An entry stamps a file. -/
def Stamps (w : World) (root : Path) (e : StampKey × File) : Prop :=
  ∃ p, e.1 = stampKey root p ∧ w.file p = some e.2

variable {w : World} {root : Path}

variable {stamps : List (StampKey × File)}

theorem stampFile_sound (hs : ∀ e ∈ stamps, Stamps w root e)
    (p : Path) : ∀ e ∈ stampFile w root stamps p, Stamps w root e := by
  intro e he
  rw [stampFile] at he
  cases hf : w.file p with
  | none =>
    rw [hf] at he
    exact hs e he
  | some f =>
    rw [hf] at he
    rcases mem_insertSorted he with rfl | he
    · exact ⟨p, rfl, hf⟩
    · exact hs e he

/-- A stamp is kept: if its key is stamped again, then with the same file. -/
theorem mem_stampFile (hs : ∀ e ∈ stamps, Stamps w root e)
    (p : Path) {e : StampKey × File} (he : e ∈ stamps) : e ∈ stampFile w root stamps p := by
  rw [stampFile]
  cases hf : w.file p with
  | none => exact he
  | some f =>
    by_cases hk : e.1 = stampKey root p
    · obtain ⟨q, hq, hfile⟩ := hs e he
      obtain rfl : q = p := stampKey_injective root (hq.symm.trans hk)
      rw [hf, Option.some.injEq] at hfile
      have heq : e = (stampKey root q, f) := Prod.ext hk hfile.symm
      rw [heq]
      exact mem_insertSorted_self _ _ _
    · exact mem_insertSorted_of_ne he hk

/-- A file that can be read is stamped. -/
theorem stampKey_mem_stampFile (stamps : List (StampKey × File)) {p : Path} {f : File}
    (hf : w.file p = some f) : (stampKey root p, f) ∈ stampFile w root stamps p := by
  rw [stampFile, hf]
  exact mem_insertSorted_self _ _ _

theorem stampFiles_sound (paths : List Path) (hs : ∀ e ∈ stamps, Stamps w root e) :
    ∀ e ∈ paths.foldl (stampFile w root) stamps, Stamps w root e := by
  induction paths generalizing stamps with
  | nil => exact hs
  | cons p paths ih => exact ih (stampFile_sound hs p)

theorem mem_stampFiles (paths : List Path)
    (hs : ∀ e ∈ stamps, Stamps w root e) {e : StampKey × File} (he : e ∈ stamps) :
    e ∈ paths.foldl (stampFile w root) stamps := by
  induction paths generalizing stamps with
  | nil => exact he
  | cons p paths ih => exact ih (stampFile_sound hs p) (mem_stampFile hs p he)

/-- All files of a list that can be read are stamped. -/
theorem stampKey_mem_stampFiles {paths : List Path}
    (hs : ∀ e ∈ stamps, Stamps w root e) {p : Path} {f : File} (hp : p ∈ paths)
    (hf : w.file p = some f) : (stampKey root p, f) ∈ paths.foldl (stampFile w root) stamps := by
  induction paths generalizing stamps with
  | nil => cases hp
  | cons q paths ih =>
    rcases mem_cons.1 hp with rfl | hp
    · exact mem_stampFiles paths (stampFile_sound hs p) (stampKey_mem_stampFile stamps hf)
    · exact ih (stampFile_sound hs q) hp

/-- Builds of one project with the same stamps read the same in a file that both stamp, if it can
be read. -/
theorem file_eq_of_stamped {b c : Project} (hroot : b.config.root = c.config.root)
    (hs : b.stamped = c.stamped) {p : Path} (hb : (b.world.file p).isSome → p ∈ b.sourceFiles)
    (hc : (c.world.file p).isSome → p ∈ c.sourceFiles) : b.world.file p = c.world.file p := by
  have hread : ∀ {b c : Project}, b.config.root = c.config.root → b.stamped = c.stamped →
      ((b.world.file p).isSome → p ∈ b.sourceFiles) →
      ∀ f, b.world.file p = some f → c.world.file p = some f := by
    intro b c hroot hs hb f hf
    have hmem : (stampKey b.config.root p, f) ∈ c.stamped := by
      rw [← hs]
      exact stampKey_mem_stampFiles (by simp) (hb (by simp [hf])) hf
    obtain ⟨q, hq, hfile⟩ := stampFiles_sound c.sourceFiles (by simp) _ hmem
    obtain rfl : p = q := by
      apply stampKey_injective c.config.root
      rw [← hroot] at hq ⊢
      exact hq
    exact hfile
  apply Option.ext
  intro f
  exact ⟨hread hroot hs hb f, hread hroot.symm hs.symm hc f⟩

end Stamped

/-! ## What is not stamped -/

/-- A dependency has not changed: its root, its manifest and the paths of its extra C files. -/
structure SameDep (w v : World) (features : List Text) (root : Path) (dep : DepEntry) : Prop where
  sameRoot : depRoot w root dep = depRoot v root dep
  manifest : ∀ dir, depRoot v root dep = some dir → manifestIn w dir = manifestIn v dir
  extraC : ∀ dir dm, depRoot v root dep = some dir → manifestIn v dir = some dm →
    ∀ f ∈ (mergedCc dm features).extraC, w.canonicalize (join dir f) = v.canonicalize (join dir f)

/-- The projects that one depends on, with the project itself. -/
inductive DependsOn (w : World) : Path → Manifest → Path → Manifest → Prop
  | refl (root : Path) (m : Manifest) : DependsOn w root m root m
  | dep {root : Path} {m : Manifest} {dep : DepEntry} {dir : Path} {dm : Manifest} {dir' : Path}
      {dm' : Manifest} : dep ∈ m.deps → depRoot w root dep = some dir →
      manifestIn w dir = some dm → DependsOn w dir dm dir' dm' → DependsOn w root m dir' dm'

/-- The lockfile. -/
def Project.lock (b : Project) : Option Lockfile :=
  (b.world.read (join b.config.root (text "m2.lock"))).bind parseLock

/-- Nothing that the stamps leave out has changed from one build to another: the configuration and
the platform; the names of the files; the manifests and the paths of the dependencies, and of the
includes; the extra C files. -/
structure Kept (b c : Project) : Prop where
  config : b.config = c.config
  host : b.world.hostIsDarwin = c.world.hostIsDarwin
  names : b.stamped.map Prod.fst = c.stamped.map Prod.fst
  modules : ∀ p, p ∈ b.moduleFiles ↔ p ∈ c.moduleFiles
  includes : ∀ inc ∈ c.config.manifest.includes,
    b.world.canonicalize (join c.config.root inc) = c.world.canonicalize (join c.config.root inc)
  locked : ∀ lock, c.lock = some lock → ∀ dep ∈ lock.deps, dep.path ≠ [] →
    manifestIn b.world (join c.config.root dep.path) =
      manifestIn c.world (join c.config.root dep.path)
  deps : c.lock = none → ∀ dir m, DependsOn c.world c.config.root c.config.manifest dir m →
    ∀ dep ∈ m.deps, SameDep b.world c.world c.features dir dep
  extraPaths : ∀ p ∈ c.ownExtra ++ c.depCc.extraC.map components,
    b.world.canonicalize p = c.world.canonicalize p
  extraC : ∀ p ∈ c.extraCFiles, b.world.read p = c.world.read p

theorem Kept.refl (b : Project) : Kept b b where
  config := rfl
  host := rfl
  names := rfl
  modules _ := Iff.rfl
  includes _ _ := rfl
  locked _ _ _ _ _ := rfl
  deps _ _ _ _ _ _ := ⟨rfl, fun _ _ => rfl, fun _ _ _ _ _ _ => rfl⟩
  extraPaths _ _ := rfl
  extraC _ _ := rfl

theorem visitDep_congr {w v : World} {features : List Text} {root : Path} {dep : DepEntry}
    (hdep : SameDep w v features root dep)
    {collect collect' : Path → Manifest → CcSection × List Path → CcSection × List Path}
    (hc : ∀ dir dm, depRoot v root dep = some dir → manifestIn v dir = some dm →
      ∀ st, collect dir dm st = collect' dir dm st) (st : CcSection × List Path) :
    visitDep w features collect root st dep = visitDep v features collect' root st dep := by
  rw [visitDep, visitDep, hdep.sameRoot]
  cases hd : depRoot v root dep with
  | none => rfl
  | some dir =>
    by_cases hv : dir ∈ st.2
    · simp only [hv, ite_true]
    · simp only [hv, ite_false]
      have hsame := hdep.manifest dir hd
      cases hm : manifestIn v dir with
      | none =>
        rw [hm] at hsame
        rw [hsame]
      | some dm =>
        rw [hm] at hsame
        rw [hsame]
        have hextra : (mergedCc dm features).extraC.map (fun f =>
              pathText ((w.canonicalize (join dir f)).getD (join dir f))) =
            (mergedCc dm features).extraC.map (fun f =>
              pathText ((v.canonicalize (join dir f)).getD (join dir f))) := by
          apply map_congr_left
          intro f hf
          rw [hdep.extraC dir dm hd hm f hf]
        simp only [hextra]
        exact hc dir dm hd hm _

/-- Dependencies that have not changed give the same sections. -/
theorem collectDepCc_congr {w v : World} {features : List Text} (fuel : Nat) {root : Path}
    {m : Manifest} (hdeps : ∀ dir dm, DependsOn v root m dir dm →
      ∀ dep ∈ dm.deps, SameDep w v features dir dep) (st : CcSection × List Path) :
    collectDepCc w features fuel root m st = collectDepCc v features fuel root m st := by
  induction fuel generalizing root m st with
  | zero => rfl
  | succ fuel ih =>
    apply foldl_ext
    intro st dep hdep
    apply visitDep_congr (hdeps root m (.refl root m) dep hdep)
    intro dir dm hd hm st
    apply ih
    intro dir' dm' hon
    exact hdeps dir' dm' (.dep hdep hd hm hon)

theorem collectTransitiveCc_congr {w v : World} {features : List Text} {root : Path}
    {m : Manifest} {lock : Option Lockfile}
    (hlock : ∀ l, lock = some l → ∀ dep ∈ l.deps, dep.path ≠ [] →
      manifestIn w (join root dep.path) = manifestIn v (join root dep.path))
    (hdeps : lock = none → ∀ dir dm, DependsOn v root m dir dm →
      ∀ dep ∈ dm.deps, SameDep w v features dir dep) :
    collectTransitiveCc w root m lock features = collectTransitiveCc v root m lock features := by
  cases lock with
  | some l =>
    apply foldl_ext
    intro cc dep hdep
    by_cases hp : dep.path = []
    · simp only [hp, ite_true]
    · simp only [hp, ite_false, hlock l rfl dep hdep hp]
  | none =>
    rw [collectTransitiveCc, collectTransitiveCc]
    by_cases hm : m.deps = []
    · rw [if_pos hm, if_pos hm]
    · rw [if_neg hm, if_neg hm]
      -- each world bounds the depth by its own places
      rw [collectDepCc_fuel w features root m (room_le w []) (le_max_left _ v.places.length),
        collectDepCc_fuel v features root m (room_le v []) (le_max_right w.places.length _),
        collectDepCc_congr _ (hdeps rfl)]

/-! ## The inputs of the compiler -/

/-- What the compiler is given: the options, with the merged sections, and the files that they
name. -/
structure Inputs where
  options : CompileOptions
  manifest : Manifest
  sources : Path → Option Text
  extraC : List (Path × Option Text)

/-- What the compiler would be given now. -/
def Project.inputs (b : Project) : Inputs where
  options := b.options
  manifest := b.config.manifest
  sources p := if p ∈ b.moduleFiles then b.world.read p else none
  extraC := b.extraCFiles.map fun p => (p, b.world.read p)

/-- The files of the stamps, in the order in which they are hashed. -/
def Project.data (b : Project) : List File := b.stamped.map Prod.snd

namespace Kept

variable {b c : Project} (h : Kept b c)

include h

theorem stamped_eq (hdata : b.data = c.data) : b.stamped = c.stamped := by
  have hb := zip_unzip b.stamped
  rw [unzip_fst, unzip_snd] at hb
  have hc := zip_unzip c.stamped
  rw [unzip_fst, unzip_snd] at hc
  rw [← hb, ← hc, h.names]
  exact congrArg _ hdata

theorem features_eq : b.features = c.features := by
  rw [Project.features, Project.features, h.config, h.host]

theorem ownCc_eq : b.ownCc = c.ownCc := by
  rw [Project.ownCc, Project.ownCc, h.config, h.features_eq]

theorem ownExtra_eq : b.ownExtra = c.ownExtra := by
  rw [Project.ownExtra, Project.ownExtra, h.ownCc_eq, h.config]

theorem module_eq (hdata : b.data = c.data) {p : Path} (hp : p ∈ b.moduleFiles) :
    b.world.file p = c.world.file p := by
  apply file_eq_of_stamped (by rw [h.config]) (h.stamped_eq hdata)
  · intro _
    simp [Project.sourceFiles, hp]
  · intro _
    simp [Project.sourceFiles, (h.modules p).1 hp]

theorem lock_eq (hdata : b.data = c.data) : b.lock = c.lock := by
  have hfile : b.world.file (join c.config.root (text "m2.lock")) =
      c.world.file (join c.config.root (text "m2.lock")) := by
    apply file_eq_of_stamped (by rw [h.config]) (h.stamped_eq hdata)
    · intro hf
      rw [← h.config] at hf ⊢
      simp [Project.sourceFiles, World.exists, hf]
    · intro hf
      simp [Project.sourceFiles, World.exists, hf]
  rw [Project.lock, Project.lock, h.config, World.read, World.read, hfile]

theorem depCc_eq (hdata : b.data = c.data) : b.depCc = c.depCc := by
  have hlock := h.lock_eq hdata
  rw [Project.depCc, Project.depCc, ← Project.lock, ← Project.lock, hlock, h.features_eq, h.config]
  exact collectTransitiveCc_congr h.locked h.deps

theorem extraCFiles_eq (hdata : b.data = c.data) : b.extraCFiles = c.extraCFiles := by
  have hown : c.ownExtra.filterMap b.world.canonicalize =
      c.ownExtra.filterMap c.world.canonicalize := by
    apply filterMap_congr
    intro p hp
    exact h.extraPaths p (mem_append_left _ hp)
  rw [Project.extraCFiles, Project.extraCFiles, h.depCc_eq hdata, h.ownExtra_eq, hown]
  apply foldl_ext
  intro files extra hextra
  rw [h.extraPaths _ (mem_append_right _ (mem_map_of_mem hextra))]

theorem options_eq (hdata : b.data = c.data) : b.options = c.options := by
  have hincludes : c.config.manifest.includes.filterMap
        (fun inc => b.world.canonicalize (join c.config.root inc)) =
      c.config.manifest.includes.filterMap
        (fun inc => c.world.canonicalize (join c.config.root inc)) :=
    filterMap_congr h.includes
  rw [Project.options, Project.options, h.ownCc_eq, h.depCc_eq hdata, h.features_eq,
    h.extraCFiles_eq hdata, Project.entryPath, Project.entryPath, Project.artifact,
    Project.artifact, h.config, hincludes]

theorem inputs_eq (hdata : b.data = c.data) : b.inputs = c.inputs := by
  have hsources : b.inputs.sources = c.inputs.sources := by
    funext p
    by_cases hp : p ∈ b.moduleFiles
    · have hc := (h.modules p).1 hp
      simp only [Project.inputs, hp, hc, ite_true, World.read, h.module_eq hdata hp]
    · have hc : p ∉ c.moduleFiles := fun hc => hp ((h.modules p).2 hc)
      simp only [Project.inputs, hp, hc, ite_false]
  have hextra : b.inputs.extraC = c.inputs.extraC := by
    rw [Project.inputs, Project.inputs, h.extraCFiles_eq hdata]
    apply map_congr_left
    intro p hp
    rw [h.extraC p hp]
  rw [Project.inputs, Project.inputs, Inputs.mk.injEq]
  exact ⟨h.options_eq hdata, by rw [h.config], hsources, hextra⟩

end Kept

/-! ## Histories -/

/-- The hash that is saved, with the build that it was saved for, and the last successful build of
each artifact. -/
structure History where
  savedHash : UInt64
  saved : Option Project
  built : Path → Option Project

/-- What happens to a project: a build, that may fail in the compiler or while its hash is saved, or
the removal of all that was built. -/
inductive Op where
  | build (b : Project) (succeeds : Bool)
  | clean

/-- A project that was never built. -/
def History.init : History := ⟨0, none, fun _ => none⟩

/-- A successful build saves its hash, if the compiler was called. -/
def History.step (h : History) : Op → History
  | .build b succeeds =>
    match b.build h.savedHash with
    | .entryNotFound => h
    | .upToDate _ => h
    | .compile _ =>
      if succeeds then ⟨b.combined, some b, Function.update h.built b.artifact (some b)⟩ else h
  | .clean => .init

/-- The history of a project. -/
def History.run (ops : List Op) : History := ops.foldl History.step .init

/-- The builds of a history. -/
def builds (ops : List Op) : List Project :=
  ops.filterMap fun
    | .build b _ => some b
    | .clean => none

/-- The hash tells the data of builds apart. -/
def NoCollision (bs : List Project) : Prop :=
  ∀ b ∈ bs, ∀ c ∈ bs, b.combined = c.combined → b.data = c.data

/-- The saved hash is the one of a build in the history, the last one of its artifact. -/
structure History.Saved (h : History) (bs : List Project) : Prop where
  zero : h.saved = none → h.savedHash = 0
  hash : ∀ c, h.saved = some c → h.savedHash = c.combined
  last : ∀ c, h.saved = some c → h.built c.artifact = some c
  mem : ∀ c, h.saved = some c → c ∈ bs

theorem History.Saved.init : History.init.Saved [] where
  zero _ := rfl
  hash _ h := nomatch h
  last _ h := nomatch h
  mem _ h := nomatch h

theorem History.Saved.mono {h : History} {bs cs : List Project} (hs : h.Saved bs) (hbs : bs ⊆ cs) :
    h.Saved cs where
  zero := hs.zero
  hash := hs.hash
  last := hs.last
  mem c hc := hbs (hs.mem c hc)

theorem History.Saved.step {h : History} {bs : List Project} (hs : h.Saved bs) (op : Op) :
    (h.step op).Saved (bs ++ builds [op]) := by
  have hsame : h.Saved (bs ++ builds [op]) := hs.mono (subset_append_left _ _)
  cases op with
  | clean => exact History.Saved.init.mono (by simp)
  | build b succeeds =>
    rw [History.step]
    cases b.build h.savedHash with
    | entryNotFound => exact hsame
    | upToDate a => exact hsame
    | compile opts =>
      cases succeeds with
      | false => exact hsame
      | true =>
        constructor
        · intro hn
          cases hn
        · intro c hc
          cases hc
          rfl
        · intro c hc
          cases hc
          exact Function.update_self _ _ _
        · intro c hc
          cases hc
          simp [builds]

theorem History.saved_run (ops : List Op) : (History.run ops).Saved (builds ops) := by
  induction ops using List.reverseRecOn with
  | nil => exact .init
  | append_singleton ops op ih =>
    have hrun : History.run (ops ++ [op]) = (History.run ops).step op := by
      rw [History.run, foldl_append]
      rfl
    have hbuilds : builds (ops ++ [op]) = builds ops ++ builds [op] := filterMap_append
    rw [hrun, hbuilds]
    exact ih.step op

/-- A project is reported to be up to date only for the saved hash. -/
theorem Project.build_upToDate {b : Project} {hash : UInt64} {a : Path}
    (h : b.build hash = .upToDate a) :
    hash = b.combined ∧ b.combined ≠ 0 ∧ a = b.artifact := by
  rw [Project.build] at h
  by_cases he : b.world.exists b.entryPath = false
  · rw [if_pos he] at h
    cases h
  · rw [if_neg he] at h
    by_cases hup : hash = b.combined ∧ b.combined ≠ 0 ∧ b.world.exists b.artifact = true
    · rw [if_pos hup] at h
      cases h
      exact ⟨hup.1, hup.2.1, rfl⟩
    · rw [if_neg hup] at h
      cases h

/-- If nothing that is stamped has changed since the hash was saved, then nothing else has. -/
def History.Covers (h : History) (b : Project) : Prop :=
  ∀ c, h.saved = some c → b.data = c.data → Kept b c

/-- In every history, a build that is reported to be up to date, and that changed nothing but what
is stamped, would give the compiler what it was given in the last successful build of the
artifact. -/
theorem inputs_of_upToDate (ops : List Op) (b : Project) (a : Path)
    (hash : NoCollision (b :: builds ops)) (hcovers : (History.run ops).Covers b)
    (hup : b.build (History.run ops).savedHash = .upToDate a) :
    ∃ c, (History.run ops).built a = some c ∧ b.inputs = c.inputs := by
  have hs := History.saved_run ops
  obtain ⟨hsaved, hne, rfl⟩ := Project.build_upToDate hup
  cases hc : (History.run ops).saved with
  | none =>
    rw [hs.zero hc] at hsaved
    exact absurd hsaved.symm hne
  | some c =>
    have hcombined : b.combined = c.combined := hsaved.symm.trans (hs.hash c hc)
    have hdata : b.data = c.data :=
      hash b mem_cons_self c (mem_cons_of_mem _ (hs.mem c hc)) hcombined
    have hkept : Kept b c := hcovers c hc hdata
    refine ⟨c, ?_, hkept.inputs_eq hdata⟩
    have hartifact : b.artifact = c.artifact := by
      rw [Project.artifact, Project.artifact, hkept.config]
    rw [hartifact]
    exact hs.last c hc

/-- A directory with a source file, and with the artifact of a build. -/
def appWorld : World where
  file p :=
    if p = [text "app", text "src", text "Main.mod"] then some ⟨text "MODULE Main; END Main.", 5⟩
    else if p = [text "app", text ".mx", text "bin", text "hello"] then some ⟨[], 6⟩
    else none
  isDir _ := false
  readDir _ := []
  canonicalize _ := none
  currentExe := none
  libDir := none
  hostIsDarwin := false
  places := []
  canonicalize_mem _ _ h := nomatch h
  isDir_mem _ h := nomatch h
  depth _ := 0
  descends _ _ h := nomatch h

/-- The project in this directory, with an optimization level. -/
def appProject (optLevel : Nat) : Project where
  world := appWorld
  config :=
    { root := [text "app"]
      manifest := ⟨text "hello", [], [], true, [], [], .default, fun _ => none, ⟨[], []⟩, none⟩
      includePaths := []
      cc := text "cc"
      optLevel := optLevel
      verbose := false
      features := []
      debug := false
      useLlvm := false
      sanitize := false
      targetTriple := none }

/-- The artifact of this project. -/
def appArtifact : Path := [text "app", text ".mx", text "bin", text "hello"]

theorem noCollision_appProject (n m : Nat) : NoCollision [appProject n, appProject m] := by
  intro b hb c hc _
  have hdata : ∀ d ∈ [appProject n, appProject m], d.data = (appProject 0).data := by
    intro d hd
    rcases mem_pair.1 hd with rfl | rfl
    · rfl
    · rfl
  rw [hdata b hb, hdata c hc]

/-- After a build, the project is up to date for any optimization level. -/
theorem appProject_upToDate :
    (appProject 2).build (appProject 0).combined = .upToDate appArtifact := by
  decide +kernel

theorem inputs_of_upToDate_appProject :
    ∃ c, (History.run [.build (appProject 0) true]).built appArtifact = some c ∧
      (appProject 0).inputs = c.inputs := by
  apply inputs_of_upToDate [.build (appProject 0) true] (appProject 0) appArtifact
    (noCollision_appProject 0 0)
  · intro c hc _
    cases hc
    exact Kept.refl _
  · decide +kernel

/-- Without the condition, a build that is reported to be up to date may have other inputs than its
artifact was built from. -/
theorem not_inputs_of_upToDate :
    ¬ ∀ (ops : List Op) (b : Project) (a : Path), NoCollision (b :: builds ops) →
      b.build (History.run ops).savedHash = .upToDate a →
      ∃ c, (History.run ops).built a = some c ∧ b.inputs = c.inputs := by
  intro h
  obtain ⟨c, hc, heq⟩ := h [.build (appProject 0) true] (appProject 2) appArtifact
    (noCollision_appProject 2 0) appProject_upToDate
  cases hc
  have hlevel : (appProject 2).inputs.options.optLevel = (appProject 0).inputs.options.optLevel :=
    by rw [heq]
  cases hlevel

example : (builds []).length = 0 := by decide +kernel

end Mx.Build
