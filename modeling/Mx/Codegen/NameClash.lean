import Mx.Codegen.CNames
import Mx.HirBuild.OwnDecl

/-!
# Clashes of names at file scope

A joined name can be cut at any of its underscores, so it may be that of another module and another
name. A name that a nested procedure has is given to the outermost procedures of the same name that
are written later.
-/

namespace Mx.CNames

open Mx.HirBuild List

/-! ## Joined names -/

/-- Two sequences with a separator in them are equal just if they are cut alike, or if the one that
is cut first goes on in the first part of the other. -/
theorem append_cons_eq_iff {α : Type} (s : α) (a b a' b' : List α) :
    a ++ s :: b = a' ++ s :: b' ↔
      (a = a' ∧ b = b') ∨ (∃ w, a' = a ++ s :: w ∧ b = w ++ s :: b') ∨
        ∃ w, a = a' ++ s :: w ∧ b' = w ++ s :: b := by
  rw [append_eq_append_iff]
  constructor
  · rintro (⟨as, rfl, has⟩ | ⟨as, rfl, has⟩)
    · cases as with
      | nil => simp_all
      | cons x w =>
        obtain ⟨rfl, rfl⟩ := List.cons.inj has
        exact .inr (.inl ⟨w, rfl, rfl⟩)
    · cases as with
      | nil => simp_all
      | cons x w =>
        obtain ⟨rfl, rfl⟩ := List.cons.inj has
        exact .inr (.inr ⟨w, rfl, rfl⟩)
  · rintro (⟨rfl, rfl⟩ | ⟨w, rfl, rfl⟩ | ⟨w, rfl, rfl⟩)
    · exact .inl ⟨[], by simp, by simp⟩
    · exact .inl ⟨s :: w, rfl, rfl⟩
    · exact .inr ⟨s :: w, rfl, rfl⟩

/-- The second scope is the first one with an underscore and more, which is how the first name
begins. -/
def Overlap (scope name scope' name' : String) : Prop :=
  ∃ w, scope' = scope ++ "_" ++ w ∧ name = w ++ "_" ++ name'

theorem toList_joined (a b : String) : (a ++ "_" ++ b).toList = a.toList ++ '_' :: b.toList := by
  simp

theorem joined_eq_iff (a b a' b' : String) :
    a ++ "_" ++ b = a' ++ "_" ++ b' ↔
      (a = a' ∧ b = b') ∨ Overlap a b a' b' ∨ Overlap a' b' a b := by
  have hover (a b a' b' : String) :
      (∃ w, a'.toList = a.toList ++ '_' :: w ∧ b.toList = w ++ '_' :: b'.toList) ↔
        Overlap a b a' b' := by
    constructor
    · rintro ⟨w, ha, hb⟩
      refine ⟨String.ofList w, String.toList_inj.1 ?_, String.toList_inj.1 ?_⟩
      · rw [ha, toList_joined, String.toList_ofList]
      · rw [hb, toList_joined, String.toList_ofList]
    · rintro ⟨w, rfl, rfl⟩
      exact ⟨w.toList, toList_joined _ _, toList_joined _ _⟩
  rw [← String.toList_inj, toList_joined, toList_joined, append_cons_eq_iff, hover, hover,
    String.toList_inj, String.toList_inj]

/-! ## Escaped names -/

/-- What a name alone is read as: a leading `m2_` is that of the runtime and gives way. -/
def readName (name : String) : String :=
  if "m2_".toList <+: name.toList then "m2v_" ++ String.ofList (name.toList.drop 3)
  else if name = "TRUE" then "1"
  else if name = "FALSE" then "0"
  else name

/-- The name that an escaped one is read as. -/
def unescape (text : String) : String :=
  if text = "NULL" then "NIL"
  else if "m2_".toList <+: text.toList then String.ofList (text.toList.drop 3)
  else text

theorem not_reserved_m2v : ∀ r ∈ cReserved, ¬ "m2v_".toList <+: r.toList := by decide +kernel

theorem m2v_isPrefix (s : String) : "m2v_".toList <+: ("m2v_" ++ s).toList := by
  rw [String.toList_append]
  exact prefix_append _ _

theorem not_m2_of_m2v {s : String} (h : "m2v_".toList <+: s.toList) :
    ¬ "m2_".toList <+: s.toList := by
  intro h2
  obtain ⟨t, ht⟩ := h
  obtain ⟨t', ht'⟩ := h2
  have heq := ht.trans ht'.symm
  simp at heq

theorem unescape_mangle (name : String) : unescape (mangle name) = readName name := by
  unfold mangle
  split
  · next h => subst h; decide +kernel
  split
  · next h => subst h; decide +kernel
  split
  · next h => subst h; decide +kernel
  next htrue hfalse =>
  split
  · next h =>
    have hm2v := m2v_isPrefix (String.ofList (name.toList.drop 3))
    have hnull : "m2v_" ++ String.ofList (name.toList.drop 3) ≠ "NULL" := by
      intro heq
      rw [heq] at hm2v
      exact absurd hm2v (by decide +kernel)
    rw [unescape, if_neg hnull, if_neg (not_m2_of_m2v hm2v), readName, if_pos h]
  next hm2 =>
  have hread : readName name = name := by
    rw [readName, if_neg hm2, if_neg htrue, if_neg hfalse]
  split
  · have hpre : "m2_".toList <+: ("m2_" ++ name).toList := by
      rw [String.toList_append]
      exact prefix_append _ _
    have hnull : "m2_" ++ name ≠ "NULL" := by
      intro heq
      rw [heq] at hpre
      exact absurd hpre (by decide +kernel)
    have hdrop : ("m2_" ++ name).toList.drop 3 = name.toList := by simp
    rw [unescape, if_neg hnull, if_pos hpre, hdrop, String.ofList_toList, hread]
  · next hreserved =>
    have hnull : name ≠ "NULL" := by
      rintro rfl
      exact hreserved (by decide +kernel)
    rw [unescape, if_neg hnull, if_neg hm2, hread]

example : mangle "x" = "x" := by decide +kernel

theorem mangle_readName (name : String) : mangle (readName name) = mangle name := by
  unfold readName
  split
  · next h =>
    have hm2v := m2v_isPrefix (String.ofList (name.toList.drop 3))
    have hne {t : String} (ht : ¬ "m2v_".toList <+: t.toList) :
        "m2v_" ++ String.ofList (name.toList.drop 3) ≠ t := by
      rintro rfl
      exact ht hm2v
    have hne' {t : String} (ht : ¬ "m2_".toList <+: t.toList) : name ≠ t := by
      rintro rfl
      exact ht h
    have hreserved : "m2v_" ++ String.ofList (name.toList.drop 3) ∉ cReserved :=
      fun hmem => not_reserved_m2v _ hmem hm2v
    rw [mangle, if_neg (hne (by decide +kernel)), if_neg (hne (by decide +kernel)),
      if_neg (hne (by decide +kernel)), if_neg (not_m2_of_m2v hm2v), if_neg hreserved, mangle,
      if_neg (hne' (by decide +kernel)), if_neg (hne' (by decide +kernel)),
      if_neg (hne' (by decide +kernel)), if_pos h]
  split
  · next h => subst h; decide +kernel
  split
  · next h => subst h; decide +kernel
  · rfl

theorem mangle_eq_iff (n n' : String) : mangle n = mangle n' ↔ readName n = readName n' := by
  constructor
  · intro h
    rw [← unescape_mangle, h, unescape_mangle]
  · intro h
    rw [← mangle_readName n, h, mangle_readName]

/-! ## Identifiers apart -/

/-- Two identifiers that are not written alike. -/
def Apart : CIdent → CIdent → Prop
  | .own n, .own n' => readName n ≠ readName n'
  | .joined s n, .joined s' n' =>
    ¬ (s = s' ∧ n = n') ∧ ¬ Overlap s n s' n' ∧ ¬ Overlap s' n' s n
  | .joined s n, .own n' => s ++ "_" ++ n ≠ mangle n'
  | .own n', .joined s n => s ++ "_" ++ n ≠ mangle n'
  | .joined s n, .given t => s ++ "_" ++ n ≠ t
  | .given t, .joined s n => s ++ "_" ++ n ≠ t
  | .own n, .given t => mangle n ≠ t
  | .given t, .own n => mangle n ≠ t
  | .given t, .given t' => t ≠ t'

theorem apart_iff (x y : CIdent) : Apart x y ↔ x.text ≠ y.text := by
  cases x with
  | own n =>
    cases y with
    | own n' => exact (mangle_eq_iff n n').not.symm
    | given t => exact Iff.rfl
    | joined s n' => exact ne_comm
  | given t =>
    cases y with
    | own n' => exact ne_comm
    | given t' => exact Iff.rfl
    | joined s n' => exact ne_comm
  | joined s n =>
    cases y with
    | own n' => exact Iff.rfl
    | given t => exact Iff.rfl
    | joined s' n' =>
      have h := (joined_eq_iff s n s' n').not
      rw [not_or, not_or] at h
      exact h.symm

theorem nodup_text_iff (ids : List CIdent) : (ids.map CIdent.text).Nodup ↔ ids.Pairwise Apart := by
  rw [List.Nodup, pairwise_map]
  exact List.Pairwise.iff fun x y => (apart_iff x y).symm

/-! ## Functions that are written -/

section Written

variable (m : HirModule)

/-- The functions that are written before that of a procedure, each with the procedure around it, as
far as the search by name goes. -/
def written : Nat → String → Option (List (String × String))
  | 0, _ => none
  | fuel + 1, name => do
    let inner ← (m.findChildren m.name name).mapM fun child =>
      (written fuel child).map (· ++ [(name, child)])
    return inner.flatten

/-- The names of the outermost procedures. -/
def topNames : List String :=
  (m.procDecls.filter fun pd => !pd.sig.isNested).map HirBuild.HirProcDecl.name

/-- The outermost procedures, each with the functions that are written before it. -/
def writtenTops (fuel : Nat) : Option (List (String × List (String × String))) :=
  (topNames m).mapM fun name => (written m fuel name).map fun inner => (name, inner)

/-- The identifier of a function that is joined to the procedure around it, or stands alone. -/
def procIdent (name : String) (plain : CIdent) : Option CIdent :=
  (m.findNestedProcSig name m.name).map fun sig =>
    match sig.exportCName with
    | some cName => .given cName
    | none => plain

/-- The identifiers of nested functions. -/
def nestedIdents (inner : List (String × String)) : List CIdent :=
  inner.filterMap fun p => procIdent m p.2 (.joined p.1 p.2)

/-- The identifiers of the functions of the main module. -/
def procIdents (tops : List (String × List (String × String))) : List CIdent :=
  tops.flatMap fun top => nestedIdents m top.2 ++ (procIdent m top.1 (.own top.1)).toList

/-- An outermost procedure has no C name of its own choice, and its name is among the given ones. -/
def Hidden (names : List String) (name : String) : Prop :=
  name ∈ names ∧ ∃ sig, m.findNestedProcSig name m.name = some sig ∧ sig.exportCName = none

/-- No outermost procedure has the name of a nested one that is written before it. -/
def TopsFresh : List String → List (String × List (String × String)) → Prop
  | _, [] => True
  | names, top :: tops =>
    ¬ Hidden m names top.1 ∧ TopsFresh (names ++ top.2.map Prod.snd) tops

end Written

/-! ## The search by name ends at its own name -/

section Search

variable {m : HirModule}

variable {pds : List HirBuild.HirProcDecl} {sig : HirBuild.HirProcSig}

theorem name_of_searchProcs {name : String}
    (h : searchProcs (fun pd => some pd.sig) name pds = some sig) : sig.name = name := by
  obtain ⟨pd, -, hname, hsig⟩ := searchProcs_sound h
  cases hsig
  exact hname

theorem name_of_firstNested {name : String}
    (h : firstNested (fun pd => some pd.sig) name pds = some sig) : sig.name = name := by
  obtain ⟨pd, -, hpd⟩ := mem_filterMap.1 (mem_of_head? h)
  exact name_of_searchProcs hpd

theorem name_of_find {p : HirBuild.HirProcDecl → Bool}
    {name : String} (hp : ∀ pd, p pd = true → pd.sig.name = name)
    (h : ((pds.find? p).bind fun pd => some pd.sig) = some sig) : sig.name = name := by
  obtain ⟨pd, hfind, hsig⟩ := Option.bind_eq_some_iff.1 h
  cases hsig
  exact hp pd (find?_some hfind)

/-- A signature that is found has the name it was searched by. -/
theorem name_of_findNestedProcSig {name module : String}
    (h : m.findNestedProcSig name module = some sig) : sig.name = name := by
  rw [HirModule.findNestedProcSig] at h
  simp only [Option.or_eq_some_iff] at h
  obtain h | ⟨-, h | ⟨-, h | ⟨-, h⟩⟩⟩ := h
  · exact name_of_find (fun pd hp => (of_decide_eq_true hp).1) h
  · exact name_of_searchProcs h
  · exact name_of_firstNested h
  · obtain ⟨e, -, he⟩ := Option.bind_eq_some_iff.1 h
    obtain he | ⟨-, he⟩ := Option.or_eq_some_iff.1 he
    · exact name_of_find (fun pd hp => of_decide_eq_true hp) he
    · exact name_of_firstNested he

end Search

/-! ## Functions are written once on their own path -/

section Fuel

variable {m : HirModule}

variable {fuel : Nat} {inner : List (String × String)}

variable {name : String}

theorem written_succ_eq_some : written m (fuel + 1) name = some inner ↔
      ∃ parts, (m.findChildren m.name name).mapM (fun child =>
        (written m fuel child).map (· ++ [(name, child)])) = some parts ∧
        parts.flatten = inner := by
  rw [written]
  simp only [Option.bind_eq_bind, Option.bind_eq_some_iff, Option.pure_def, Option.some.injEq]

theorem mapM_mono {α β : Type} {f g : α → Option β} (h : ∀ x y, f x = some y → g x = some y)
    {xs : List α} {ys : List β} (hf : xs.mapM f = some ys) : xs.mapM g = some ys := by
  induction xs generalizing ys with
  | nil => exact hf
  | cons x xs ih =>
    simp only [mapM_cons, Option.bind_eq_bind, Option.bind_eq_some_iff, Option.pure_def,
      Option.some.injEq] at hf ⊢
    obtain ⟨y, hy, ys', hys', rfl⟩ := hf
    exact ⟨y, h x y hy, ys', ih hys', rfl⟩

theorem written_succ
    (h : written m fuel name = some inner) : written m (fuel + 1) name = some inner := by
  induction fuel generalizing name inner with
  | zero => exact nomatch h
  | succ fuel ih =>
    obtain ⟨parts, hparts, rfl⟩ := written_succ_eq_some.1 h
    refine written_succ_eq_some.2 ⟨parts, mapM_mono (fun child part hpart => ?_) hparts, rfl⟩
    obtain ⟨below, hbelow, rfl⟩ := Option.map_eq_some_iff.1 hpart
    rw [ih hbelow, Option.map_some]

theorem written_mono {fuel' : Nat} (hle : fuel ≤ fuel') (h : written m fuel name = some inner) :
    written m fuel' name = some inner := by
  induction hle with
  | refl => exact h
  | step _ ih => exact written_succ ih

theorem mem_of_mapM {α β : Type} {f : α → Option β} {xs : List α} {ys : List β}
    (h : xs.mapM f = some ys) {y : β} (hy : y ∈ ys) : ∃ x ∈ xs, f x = some y := by
  induction xs generalizing ys with
  | nil =>
    cases h
    exact nomatch hy
  | cons x xs ih =>
    simp only [mapM_cons, Option.bind_eq_bind, Option.bind_eq_some_iff, Option.pure_def,
      Option.some.injEq] at h
    obtain ⟨y', hy', ys', hys', rfl⟩ := h
    cases hy with
    | head => exact ⟨x, mem_cons_self, hy'⟩
    | tail _ hmem =>
      obtain ⟨x', hx', hfx⟩ := ih hys' hmem
      exact ⟨x', mem_cons_of_mem _ hx', hfx⟩

/-- What is written within a nested procedure is less. -/
theorem written_nested
    (h : written m fuel name = some inner) {p : String × String} (hp : p ∈ inner) :
    ∃ fuel' ≤ fuel, ∃ below, written m fuel' p.2 = some below ∧ below.length < inner.length := by
  induction fuel generalizing name inner with
  | zero => exact nomatch h
  | succ fuel ih =>
    obtain ⟨parts, hparts, rfl⟩ := written_succ_eq_some.1 h
    obtain ⟨part, hpart, hmem⟩ := mem_flatten.1 hp
    obtain ⟨child, -, hchild⟩ := mem_of_mapM hparts hpart
    obtain ⟨below, hbelow, rfl⟩ := Option.map_eq_some_iff.1 hchild
    have hlen : below.length < parts.flatten.length := by
      have hle := (sublist_flatten_of_mem hpart).length_le
      rw [length_append, length_singleton] at hle
      omega
    obtain hmem | hmem := mem_append.1 hmem
    · obtain ⟨fuel', hfuel', below', hbelow', hlt⟩ := ih hbelow hmem
      exact ⟨fuel', by omega, below', hbelow', by omega⟩
    · rw [mem_singleton.1 hmem]
      exact ⟨fuel, by omega, below, hbelow, hlen⟩

/-- A procedure is not written within itself. -/
theorem not_mem_written
    (h : written m fuel name = some inner) : name ∉ inner.map Prod.snd := by
  intro hmem
  obtain ⟨p, hp, rfl⟩ := mem_map.1 hmem
  obtain ⟨fuel', hle, below, hbelow, hlt⟩ := written_nested h hp
  have heq := (written_mono hle hbelow).symm.trans h
  cases heq
  exact Nat.lt_irrefl _ hlt

end Fuel

/-! ## Names of functions -/

section Names

variable {m : HirModule} {c : EmitContext}

/-- The recorded names after some functions were written: each name has that of one of them, and
others are as before. -/
structure Renamed (inner : List (String × String)) (st st' : GenState) : Prop where
  other : ∀ k ∉ inner.map Prod.snd, st'.nestedProcNames.get k = st.nestedProcNames.get k
  recorded : ∀ k ∈ inner.map Prod.snd, ∃ p ∈ inner, p.2 = k ∧
    st'.nestedProcNames.get k = some (p.1 ++ "_" ++ k)

theorem Renamed.refl (st : GenState) : Renamed [] st st := ⟨fun _ _ => rfl, nofun⟩

variable {st : GenState}

theorem Renamed.trans {inner inner' : List (String × String)} {st' st'' : GenState}
    (h : Renamed inner st st') (h' : Renamed inner' st' st'') :
    Renamed (inner ++ inner') st st'' := by
  constructor
  · intro k hk
    rw [map_append, mem_append, not_or] at hk
    rw [h'.other k hk.2, h.other k hk.1]
  · intro k hk
    by_cases hlast : k ∈ inner'.map Prod.snd
    · obtain ⟨p, hp, hrest⟩ := h'.recorded k hlast
      exact ⟨p, mem_append_right _ hp, hrest⟩
    · rw [map_append, mem_append] at hk
      obtain ⟨p, hp, hname, hget⟩ := h.recorded k (hk.resolve_right hlast)
      exact ⟨p, mem_append_left _ hp, hname, (h'.other k hlast).trans hget⟩

/-- The text of the function of a procedure: a C name of its own choice, or what is recorded under
its bare name, or the name alone. -/
def funcText (m : HirModule) (st : GenState) (name : String) : Option String :=
  (m.findNestedProcSig name m.name).map fun sig =>
    sig.exportCName.getD ((st.nestedProcNames.get name).getD (mangle name))

theorem text_procIdent (name : String) (plain : CIdent) :
    (procIdent m name plain).map CIdent.text =
      (m.findNestedProcSig name m.name).map fun sig => sig.exportCName.getD plain.text := by
  rw [procIdent, Option.map_map]
  congr 1
  funext sig
  cases h : sig.exportCName <;> simp [h, CIdent.text]

theorem funcText_of_recorded {scope name : String}
    (h : st.nestedProcNames.get name = some (scope ++ "_" ++ name)) :
    funcText m st name = (procIdent m name (.joined scope name)).map CIdent.text := by
  rw [text_procIdent, funcText, h]
  rfl

theorem funcText_of_none {name : String} (h : st.nestedProcNames.get name = none) :
    funcText m st name = (procIdent m name (.own name)).map CIdent.text := by
  rw [text_procIdent, funcText, h]
  rfl

/-- The functions that are written for a procedure, or for several ones. -/
def nestedTexts (m : HirModule) (inner : List (String × String)) : List String :=
  (nestedIdents m inner).map CIdent.text

theorem nestedTexts_append (inner inner' : List (String × String)) :
    nestedTexts m (inner ++ inner') = nestedTexts m inner ++ nestedTexts m inner' := by
  rw [nestedTexts, nestedIdents, filterMap_append, map_append]
  rfl

theorem nestedTexts_singleton (p : String × String) :
    nestedTexts m [p] = ((procIdent m p.2 (.joined p.1 p.2)).map CIdent.text).toList := by
  rw [nestedTexts, nestedIdents]
  cases h : procIdent m p.2 (.joined p.1 p.2) <;> simp [h]

/-- The emission of a procedure writes what `written` says, under these names. -/
def Writes (m : HirModule) (c : EmitContext) (fuel : Nat) (name : String) : Prop :=
  ∀ st, (written m fuel name = none ∧ genProcByName m c fuel st name = none) ∨
    ∃ inner st' out, written m fuel name = some inner ∧
      genProcByName m c fuel st name = some (st', out) ∧ Renamed inner st st' ∧
      out.filterMap ProcEmission.cName = nestedTexts m inner ++ (funcText m st name).toList

variable {fuel : Nat}

/-- One nested procedure. -/
theorem genNested_writes (name : String) {child : String} (h : Writes m c fuel child)
    (scope : NameMap String) (closures : Closures) (acc : GenState × List ProcEmission) :
    ((written m fuel child).map (· ++ [(name, child)]) = none ∧
        genNested m c (genProcByName m c fuel) name scope closures acc child = none) ∨
      ∃ part st' out, (written m fuel child).map (· ++ [(name, child)]) = some part ∧
        genNested m c (genProcByName m c fuel) name scope closures acc child =
          some (st', acc.2 ++ out) ∧ Renamed part acc.1 st' ∧
        out.filterMap ProcEmission.cName = nestedTexts m part := by
  unfold genNested
  extract_lets src named recorded access pushed
  have hnames : pushed.nestedProcNames =
      acc.1.nestedProcNames.insert child (name ++ "_" ++ child) := by
    simp only [pushed]
    split <;> rfl
  have hget (k : String) : pushed.nestedProcNames.get k =
      if k = child then some (name ++ "_" ++ child) else acc.1.nestedProcNames.get k := by
    rw [hnames, NameMap.get_insert]
  obtain ⟨hwritten, hgen⟩ | ⟨inner, st', out, hwritten, hgen, hrenamed, htexts⟩ := h pushed
  · exact .inl ⟨by rw [hwritten, Option.map_none], by rw [hgen]; rfl⟩
  · refine .inr ⟨inner ++ [(name, child)], _, out, by rw [hwritten, Option.map_some],
      by rw [hgen]; rfl, ?_, ?_⟩
    · have hself := not_mem_written hwritten
      have hsame (st : GenState) (b : Bool) :
          (if b then { st with envAccessNames := st.envAccessNames.tail } else st).nestedProcNames =
            st.nestedProcNames := by
        cases b <;> rfl
      constructor
      · intro k hk
        rw [map_append, mem_append, not_or] at hk
        have hne : k ≠ child := fun heq => hk.2 (by simp [heq])
        rw [hsame, hrenamed.other k hk.1, hget, if_neg hne]
      · intro k hk
        rw [hsame]
        by_cases hinner : k ∈ inner.map Prod.snd
        · obtain ⟨p, hp, hrest⟩ := hrenamed.recorded k hinner
          exact ⟨p, mem_append_left _ hp, hrest⟩
        · have hk' : k = child := by
            rw [map_append, mem_append] at hk
            simpa using hk.resolve_left hinner
          subst hk'
          refine ⟨(name, k), by simp, rfl, ?_⟩
          rw [hrenamed.other k hinner, hget, if_pos rfl]
    · rw [htexts, nestedTexts_append, nestedTexts_singleton,
        funcText_of_recorded (by rw [hget, if_pos rfl])]

/-- The nested procedures of one. -/
theorem foldlM_genNested_writes {name : String} (h : ∀ child, Writes m c fuel child)
    (scope : NameMap String) (closures : Closures) (children : List String)
    (acc : GenState × List ProcEmission) :
    ((children.mapM fun child => (written m fuel child).map (· ++ [(name, child)])) = none ∧
        children.foldlM (genNested m c (genProcByName m c fuel) name scope closures) acc = none) ∨
      ∃ parts st' out,
        (children.mapM fun child => (written m fuel child).map (· ++ [(name, child)])) =
          some parts ∧
        children.foldlM (genNested m c (genProcByName m c fuel) name scope closures) acc =
          some (st', acc.2 ++ out) ∧ Renamed parts.flatten acc.1 st' ∧
        out.filterMap ProcEmission.cName = nestedTexts m parts.flatten := by
  induction children generalizing acc with
  | nil =>
    exact .inr ⟨[], acc.1, [], rfl, by rw [append_nil]; rfl, Renamed.refl _, rfl⟩
  | cons child children ih =>
    rw [mapM_cons, foldlM_cons]
    obtain ⟨hpart, hgen⟩ | ⟨part, st', out, hpart, hgen, hrenamed, htexts⟩ :=
      genNested_writes name (h child) scope closures acc
    · exact .inl ⟨by rw [hpart]; rfl, by rw [hgen]; rfl⟩
    · rw [hpart, hgen]
      obtain ⟨hparts, hrest⟩ | ⟨parts, st'', out', hparts, hrest, hrenamed', htexts'⟩ :=
        ih (st', acc.2 ++ out)
      · exact .inl ⟨by rw [hparts]; rfl, hrest⟩
      · refine .inr ⟨part :: parts, st'', out ++ out', by rw [hparts]; rfl, ?_, ?_, ?_⟩
        · rw [← append_assoc]
          exact hrest
        · rw [flatten_cons]
          exact hrenamed.trans hrenamed'
        · rw [filterMap_append, htexts, htexts', flatten_cons, nestedTexts_append]

/-- Every procedure writes what `written` says. -/
theorem genProcByName_writes (hc : c.moduleName = m.name) (hmangle : c.mangle = mangle)
    (fuel : Nat) (name : String) : Writes m c fuel name := by
  induction fuel generalizing name with
  | zero => exact fun st => .inl ⟨rfl, rfl⟩
  | succ fuel ih =>
    intro st
    rw [genProcByName, written, hc]
    dsimp only
    generalize hscope : buildScopeVars m c st name = scope
    generalize hclosures : analyzeClosures c scope
      ((m.findChildren m.name name).map (nestedParts m c name)) = closures
    obtain ⟨hparts, hfold⟩ | ⟨parts, st', out, hparts, hfold, hrenamed, htexts⟩ :=
      foldlM_genNested_writes ih scope closures (m.findChildren m.name name)
        (st.enter name closures, [])
    · exact .inl ⟨by rw [hparts]; rfl, by rw [hfold]; rfl⟩
    · have hwritten : written m (fuel + 1) name = some parts.flatten :=
        written_succ_eq_some.2 ⟨parts, hparts, rfl⟩
      have hself := not_mem_written hwritten
      have hproto : (m.findNestedProcSig name m.name).map (protoName c st') =
          funcText m st name := by
        have hget : st'.nestedProcNames.get name = st.nestedProcNames.get name :=
          hrenamed.other name hself
        rw [funcText]
        cases hsig : m.findNestedProcSig name m.name with
        | none => rfl
        | some s =>
          have hname := name_of_findNestedProcSig hsig
          simp [protoName, hname, hget, hmangle]
      refine .inr ⟨parts.flatten, { st' with parentProcStack := st.parentProcStack }, _,
        by rw [hparts]; rfl, by rw [hfold]; rfl, ⟨hrenamed.other, hrenamed.recorded⟩, ?_⟩
      rw [filterMap_append, nil_append, htexts, hproto]
      cases funcText m st name <;> rfl

theorem procIdents_cons (top : String × List (String × String))
    (tops : List (String × List (String × String))) :
    procIdents m (top :: tops) =
      nestedIdents m top.2 ++ (procIdent m top.1 (.own top.1)).toList ++ procIdents m tops := by
  rw [procIdents, flatMap_cons]
  rfl

/-- The recorded names are those of the nested procedures that were written, and each of them that
an outermost procedure would take is the text of one. -/
structure Tracks (m : HirModule) (names texts : List String) (st : GenState) : Prop where
  fresh : ∀ k ∉ names, st.nestedProcNames.get k = none
  taken : ∀ k, Hidden m names k → ∃ t ∈ texts, st.nestedProcNames.get k = some t

variable {names texts : List String}

theorem Tracks.funcText_of_hidden
    (h : Tracks m names texts st) {name : String} (hhidden : Hidden m names name) :
    ∃ t ∈ texts, funcText m st name = some t := by
  obtain ⟨t, ht, hget⟩ := h.taken name hhidden
  obtain ⟨-, sig, hsig, hnone⟩ := hhidden
  exact ⟨t, ht, by rw [funcText, hsig, Option.map_some, hnone, hget]; rfl⟩

theorem Tracks.funcText_of_not_hidden
    (h : Tracks m names texts st) {name : String} (hhidden : ¬ Hidden m names name) :
    funcText m st name = (procIdent m name (.own name)).map CIdent.text := by
  by_cases hmem : name ∈ names
  · -- The procedure has a C name of its own choice, or no signature.
    rw [text_procIdent, funcText]
    cases hsig : m.findNestedProcSig name m.name with
    | none => rfl
    | some sig =>
      cases hexport : sig.exportCName with
      | none => exact absurd ⟨hmem, sig, hsig, hexport⟩ hhidden
      | some cName => simp [hexport]
  · exact funcText_of_none (h.fresh name hmem)

theorem Tracks.step {st st' : GenState} (h : Tracks m names texts st)
    {inner : List (String × String)} (hrenamed : Renamed inner st st') {texts' : List String}
    (htexts : nestedTexts m inner ⊆ texts') :
    Tracks m (names ++ inner.map Prod.snd) (texts ++ texts') st' := by
  constructor
  · intro k hk
    rw [mem_append, not_or] at hk
    rw [hrenamed.other k hk.2, h.fresh k hk.1]
  · rintro k ⟨hmem, sig, hsig, hnone⟩
    by_cases hinner : k ∈ inner.map Prod.snd
    · obtain ⟨p, hp, rfl, hget⟩ := hrenamed.recorded k hinner
      refine ⟨_, mem_append_right _ (htexts ?_), hget⟩
      have hident : procIdent m p.2 (.joined p.1 p.2) = some (.joined p.1 p.2) := by
        rw [procIdent, hsig, Option.map_some, hnone]
      exact mem_map.2 ⟨_, mem_filterMap.2 ⟨p, hp, hident⟩, rfl⟩
    · have hnames := (mem_append.1 hmem).resolve_right hinner
      obtain ⟨t, ht, hget⟩ := h.taken k ⟨hnames, sig, hsig, hnone⟩
      exact ⟨t, mem_append_left _ ht, (hrenamed.other k hinner).trans hget⟩

/-- The outermost procedures: if none is hidden, their functions have the identifiers of
`procIdents`, and else a text is written twice. -/
theorem foldlM_genNext_writes (hwrites : ∀ name, Writes m c fuel name)
    (tops : List String) (acc : GenState × List ProcEmission)
    (htracks : Tracks m names texts acc.1) :
    ((tops.mapM fun name => (written m fuel name).map fun inner => (name, inner)) = none ∧
        tops.foldlM (genNext m c fuel) acc = none) ∨
      ∃ wtops st' out,
        (tops.mapM fun name => (written m fuel name).map fun inner => (name, inner)) =
          some wtops ∧
        tops.foldlM (genNext m c fuel) acc = some (st', acc.2 ++ out) ∧
        (TopsFresh m names wtops →
          out.filterMap ProcEmission.cName = (procIdents m wtops).map CIdent.text) ∧
        (¬ TopsFresh m names wtops →
          ¬ (texts ++ out.filterMap ProcEmission.cName).Nodup) := by
  induction tops generalizing acc names texts with
  | nil =>
    exact .inr ⟨[], acc.1, [], rfl, by rw [append_nil]; rfl, fun _ => rfl,
      fun h => absurd trivial h⟩
  | cons name tops ih =>
    rw [mapM_cons, foldlM_cons, genNext]
    obtain ⟨hwritten, hgen⟩ | ⟨inner, st', out, hwritten, hgen, hrenamed, htexts⟩ :=
      hwrites name acc.1
    · exact .inl ⟨by rw [hwritten]; rfl, by rw [hgen]; rfl⟩
    rw [hwritten, hgen]
    have hsub : nestedTexts m inner ⊆ out.filterMap ProcEmission.cName := by
      rw [htexts]
      exact subset_append_left _ _
    obtain ⟨hrest, hfold⟩ | ⟨wtops, st'', out', hrest, hfold, hfresh, hhidden⟩ :=
      ih (st', acc.2 ++ out) (htracks.step hrenamed hsub)
    · exact .inl ⟨by rw [hrest]; rfl, hfold⟩
    refine .inr ⟨(name, inner) :: wtops, st'', out ++ out', by rw [hrest]; rfl, ?_, ?_, ?_⟩
    · rw [← append_assoc]
      exact hfold
    · rintro ⟨hname, htops⟩
      rw [filterMap_append, htexts, hfresh htops, htracks.funcText_of_not_hidden hname,
        procIdents_cons, map_append, map_append, Option.toList_map]
      rfl
    · intro hnot
      rw [filterMap_append, ← append_assoc]
      by_cases hname : Hidden m names name
      · -- The function takes the text of one that was written before.
        obtain ⟨t, ht, hfunc⟩ := htracks.funcText_of_hidden hname
        intro hnodup
        have hout : t ∈ out.filterMap ProcEmission.cName := by simp [htexts, hfunc]
        have hdisjoint := disjoint_of_nodup_append (nodup_append.1 hnodup).1
        exact hdisjoint ht hout
      · exact hhidden fun htops => hnot ⟨hname, htops⟩

end Names

/-! ## All names at file scope -/

/-- No two identifiers at file scope can be read as one, and no outermost procedure of the main
module has the name of a nested one that is written before it. -/
def CUnit.NamesApart (u : CUnit) : Prop :=
  ∀ fuel tops, writtenTops u.hir fuel = some tops →
    (u.idents ++ procIdents u.hir tops).Pairwise Apart ∧
      TopsFresh u.hir ((embeddedNames u.hir).map Prod.fst) tops

theorem get_foldl_insert {name : String} (entries : List (String × String)) (t : NameMap String)
    (h : name ∈ entries.map Prod.fst) :
    ∃ v, (name, v) ∈ entries ∧
      (entries.foldl (fun t entry => t.insert entry.1 entry.2) t).get name = some v := by
  induction entries generalizing t with
  | nil => exact nomatch h
  | cons entry entries ih =>
    rw [foldl_cons]
    by_cases hrest : name ∈ entries.map Prod.fst
    · obtain ⟨v, hv, hget⟩ := ih _ hrest
      exact ⟨v, mem_cons_of_mem _ hv, hget⟩
    · have hname : name = entry.1 := (mem_cons.1 h).resolve_right hrest
      subst hname
      refine ⟨entry.2, mem_cons_self, ?_⟩
      rw [get_foldl_insert_of_not_mem Prod.snd entries _ hrest, NameMap.get_insert, if_pos rfl]

theorem mem_texts_of_embeddedNames {u : CUnit} {entry : String × String}
    (h : entry ∈ embeddedNames u.hir) : entry.2 ∈ u.idents.map CIdent.text := by
  obtain ⟨e, he, h⟩ := mem_flatMap.1 h
  obtain ⟨pd, hpd, h⟩ := mem_flatMap.1 h
  obtain ⟨np, hnp, rfl⟩ := mem_map.1 h
  refine mem_map.2 ⟨.joined e.name (pd.name ++ "_" ++ np.name), ?_, rfl⟩
  refine mem_append_left _ (mem_append_right _ (mem_flatMap.2 ⟨e, he, ?_⟩))
  exact mem_append_right _ (mem_flatMap.2 ⟨pd, hpd, mem_map.2 ⟨np, hnp, rfl⟩⟩)

/-- The names recorded for embedded modules are those of their nested procedures. -/
theorem tracks_initialState (u : CUnit) :
    Tracks u.hir ((embeddedNames u.hir).map Prod.fst) (u.idents.map CIdent.text)
      (initialState u.hir) := by
  constructor
  · intro k hk
    exact get_foldl_insert_of_not_mem Prod.snd _ _ hk
  · rintro k ⟨hmem, -⟩
    obtain ⟨v, hv, hget⟩ := get_foldl_insert _ [] hmem
    exact ⟨v, mem_texts_of_embeddedNames hv, hget⟩

/-- The identifiers at file scope are distinct just if no two of them can be read as one and no
outermost procedure of the main module has the name of a nested one that is written before it. -/
theorem distinctCNames_iff (u : CUnit) (c : EmitContext) :
    u.DistinctCNames c ↔ u.NamesApart := by
  refine forall_congr' fun fuel => ?_
  have hwrites (name : String) : Writes u.hir (u.context c) fuel name :=
    genProcByName_writes rfl rfl fuel name
  obtain ⟨hnone, hfold⟩ | ⟨tops, st', out, htops, hfold, hfresh, hhidden⟩ :=
    foldlM_genNext_writes hwrites (topNames u.hir) (initialState u.hir, []) (tracks_initialState u)
  · -- The search by name has no end: nothing is written.
    have hgen : genProcs u.hir (u.context c) fuel = none := by
      rw [genProcs, ← topNames, hfold]
      rfl
    refine iff_of_true (fun names hnames => ?_) (fun tops htops => ?_)
    · rw [CUnit.cNames, hgen] at hnames
      exact absurd hnames (by simp)
    · rw [writtenTops, hnone] at htops
      exact absurd htops (by simp)
  have hgen : genProcs u.hir (u.context c) fuel = some out := by
    rw [genProcs, ← topNames, hfold]
    rfl
  have hnames : u.cNames c fuel =
      some (u.idents.map CIdent.text ++ out.filterMap ProcEmission.cName) := by
    rw [CUnit.cNames, hgen, Option.map_some]
  have hwritten : writtenTops u.hir fuel = some tops := htops
  rw [hnames, hwritten]
  simp only [Option.some.injEq, forall_eq']
  by_cases hall : TopsFresh u.hir ((embeddedNames u.hir).map Prod.fst) tops
  · rw [hfresh hall, ← map_append, nodup_text_iff]
    exact (and_iff_left hall).symm
  · exact iff_of_false (hhidden hall) fun h => hall h.2

/-- A program with the embedded modules `A`, which has a procedure `B_C`, and `A_B`, which has a
procedure `C`. -/
def cutTwice : CUnit where
  hir := {
    name := "M"
    procDecls := []
    procedures := []
    embeddedModules := [⟨"A", [bareProc "B_C" [] []]⟩, ⟨"A_B", [bareProc "C" [] []]⟩] }
  own := ⟨[], [], []⟩
  embedded _ := ⟨[], [], []⟩
  defOnly := []
  foreign := []

/-- Both procedures are written as `A_B_C`. -/
theorem not_distinctCNames_cutTwice : ¬ cutTwice.DistinctCNames bareContext := by
  intro h
  have hnodup := h 0 ["A_B_C", "A_B_C"] (by decide +kernel)
  simp at hnodup

example : unescape "NULL" = "NIL" := by decide +kernel

end Mx.CNames
