import Mx.Pkg.Manifest

/-!
# The compiler and mxpkg on the same manifest

The two readers keep the same fields as long as every line is taken for the same field by both, and
what is stored there is neither cut off nor put together in another way.
-/

namespace Mx.Pkg

open Strings List

/-! ## Agreement -/

/-- What mxpkg keeps of the value of a dependency that is not local. -/
def ManifestDep.value (d : ManifestDep) : Text :=
  if d.isURL ∧ d.path = [] then d.url
  else if d.isURL then d.url ++ 35 :: d.path
  else d.path

/-- A dependency of mxpkg as the compiler has it. -/
def ManifestDep.entry (d : ManifestDep) : DepEntry :=
  ⟨d.name, if d.isLocal then .local d.path else .registry d.value⟩

/-- Flags and directories that mxpkg keeps in one text. -/
def splitSpaces (s : Text) : List Text := words (· = 32) s

/-- The two have the same manifest. Installed dependencies are known to the compiler only. -/
structure Agree (r : Manifest) (m : ManifestReader) : Prop where
  name : m.name = r.name
  version : m.version = r.version
  entry : m.entry = r.entry
  m2plus : m.m2plus = r.m2plus
  includes : splitSpaces m.includes = r.includes
  deps : m.deps.map ManifestDep.entry = r.deps.filter (·.source ≠ .installed)
  cflags : splitSpaces m.ccFlags = r.cc.cflags
  ldflags : splitSpaces m.ldFlags = r.cc.ldflags
  libs : m.ccLibs = r.cc.libs
  extraC : m.ccExtraC = r.cc.extraC
  frameworks : m.ccFrameworks = r.cc.frameworks

/-! ## Lines -/

/-- The fields that both keep. -/
inductive ManifestField where
  | name
  | version
  | entry
  | m2plus
  | includes
  | edition
  | dep
  | cflags
  | ldflags
  | libs
  | extraC
  | frameworks
  deriving DecidableEq, Repr

/-- The key of a field. A dependency has its own. -/
def ManifestField.key : ManifestField → Text
  | .name => text "name"
  | .version => text "version"
  | .entry => text "entry"
  | .m2plus => text "m2plus"
  | .includes => text "includes"
  | .edition => text "edition"
  | .dep => []
  | .cflags => text "cflags"
  | .ldflags => text "ldflags"
  | .libs => text "libs"
  | .extraC => text "extra-c"
  | .frameworks => text "frameworks"

/-- The fields before the first section. -/
def packageFields : List ManifestField := [.name, .version, .entry, .m2plus, .includes, .edition]

/-- The fields in the section for the C compiler. -/
def ccFields : List ManifestField := [.cflags, .ldflags, .libs, .extraC, .frameworks]

/-- The field of a key. -/
def fieldOf (fields : List ManifestField) (key : Text) : Option ManifestField :=
  fields.find? fun f => f.key = key

/-- The field of a key in a section of the compiler. -/
def ManifestSection.field (sec : ManifestSection) (key : Text) : Option ManifestField :=
  match sec with
  | .package => fieldOf packageFields key
  | .deps => some .dep
  | .cc => fieldOf ccFields key
  | .test | .features | .registry | .other | .ccFeature => none

/-- The field of a key in a section of mxpkg. -/
def ReaderSection.field (sec : ReaderSection) (key : Text) : Option ManifestField :=
  match sec with
  | .package => fieldOf packageFields key
  | .deps => some .dep
  | .cc => fieldOf ccFields key
  | .features | .registry | .other => none

/-- A comment, for both. -/
def Skipped (line : Text) : Prop := line = [] ∨ line.head? = some 35

/-- A section header, for the compiler. -/
def IsHeader (line : Text) : Prop := line.head? = some 91 ∧ line.getLast? = some 93

/-- The key and the value of a line, if it has a `=`. -/
def splitEntry (line : Text) : Option (Text × Text) :=
  (pos (text "=") line).map fun n => (line.take n, line.drop (n + 1))

instance (line : Text) : Decidable (Skipped line) :=
  inferInstanceAs (Decidable (line = [] ∨ line.head? = some 35))

instance (line : Text) : Decidable (IsHeader line) :=
  inferInstanceAs (Decidable (line.head? = some 91 ∧ line.getLast? = some 93))

/-- The field that the compiler takes a line for. -/
def ManifestSection.takes (sec : ManifestSection) (line : Text) : Option ManifestField :=
  if Skipped line ∨ IsHeader line then none
  else (splitEntry line).bind fun e => sec.field e.1

/-- The field that mxpkg takes a line for. A line without a `=` is its own key. -/
def ReaderSection.takes (sec : ReaderSection) (line : Text) : Option ManifestField :=
  if Skipped line ∨ line.head? = some 91 then none
  else sec.field ((splitEntry line).elim line Prod.fst)

/-- A line that both have room for: a short one without blanks at its ends or around a `=`, with no
more words than mxpkg's tables hold. -/
structure PlainLine (line : Text) : Prop where
  short : line.length ≤ 255
  tidy : Tidy line
  entry : ∀ e, splitEntry line = some e → Tidy e.1 ∧ Tidy e.2
  fits : ∀ e, splitEntry line = some e →
    (e.1 = text "libs" ∨ e.1 = text "frameworks") → (splitWhitespace e.2).length ≤ 8

/-- A value that is kept alike in a field, by readers that have the same fields. -/
def FieldAlike (s : ManifestParser) (t : ManifestReader) (key value : Text) :
    ManifestField → Prop
  | .name => value.length < 64
  | .version => value.length < 32
  | .entry | .edition => True
  | .m2plus =>
    (value.head? = some 116 ∨ value.head? = some 49 ∨ t.edition = text "m2plus" →
      value = text "true" ∨ value = text "1")
  | .includes | .cflags | .ldflags => OnlySpaces value
  | .dep => key.length < 64 ∧ ((text "http").isPrefixOf value = true → value.length > 4 →
      ∀ n, pos (text "#") value = some n → n + 1 < value.length)
  | .libs => s.cc.libs = [] ∧ OnlySpaces value ∧
      ∀ w ∈ splitSpaces value, w.length < 64 ∧ (text "-l").isPrefixOf w = false
  | .extraC => s.cc.extraC = [] ∧ value ≠ [] ∧ OnlySpaces value ∧ 32 ∉ value
  | .frameworks => s.cc.frameworks = [] ∧ OnlySpaces value ∧
      ∀ w ∈ splitSpaces value, w.length < 64

/-- The version of the format that mxpkg reads. -/
def Supported (key value : Text) : Prop :=
  key = text "manifest_version" → ∀ c, value.head? = some c → 50 ≤ c → 57 < c

/-- A line that is read alike: both take it for the same field, where they keep it alike. -/
structure Alike (s : ManifestParser) (t : ManifestReader) (line : Text) : Prop where
  same : s.curSection.takes line = t.curSection.takes line
  kept : ∀ f e, s.curSection.takes line = some f → splitEntry line = some e →
    FieldAlike s t e.1 e.2 f
  supported : t.curSection = .package → ∀ e, splitEntry line = some e → Supported e.1 e.2

/-- All lines are read alike, from the states before them. -/
def ReadAlike : ManifestParser → ManifestReader → List Text → Prop
  | _, _, [] => True
  | s, t, l :: ls => Alike s t l ∧ ∀ t', t.line l = some t' → ReadAlike (s.line l) t' ls

/-! ## One line -/

/-- The invariant of reading: the same fields, and an edition and a version of the format that
change nothing at the end. -/
structure Agreeing (s : ManifestParser) (t : ManifestReader) : Prop where
  name : t.name = s.name
  version : t.version = s.version
  entry : t.entry = s.entry
  m2plus : t.m2plus = s.m2plus
  includes : splitSpaces t.includes = s.includes
  deps : t.deps.map ManifestDep.entry = s.deps.filter (·.source ≠ .installed)
  cflags : splitSpaces t.ccFlags = s.cc.cflags
  ldflags : splitSpaces t.ldFlags = s.cc.ldflags
  libs : t.ccLibs = s.cc.libs
  extraC : t.ccExtraC = s.cc.extraC
  frameworks : t.ccFrameworks = s.cc.frameworks
  edition : t.edition = text "m2plus" → s.m2plus = true
  supported : t.manifestVersion ≤ 1

section Fields

variable {s : ManifestParser} {t : ManifestReader} {f : ManifestField} {key value : Text}

theorem fieldOf_eq_some {fields : List ManifestField} (h : fieldOf fields key = some f) :
    f ∈ fields ∧ f.key = key := by
  have hkey := find?_some h
  exact ⟨mem_of_find?_eq_some h, of_decide_eq_true hkey⟩

theorem fieldOf_eq_none {fields : List ManifestField} (h : fieldOf fields key = none)
    (hf : f ∈ fields) : key ≠ f.key := fun heq =>
  absurd (decide_eq_true heq.symm) (find?_eq_none.mp h f hf)

theorem ManifestField.key_length (f : ManifestField) : f.key.length < 63 := by
  cases f
  all_goals decide

/-- A key that is cut off is none of the known ones. -/
theorem fieldOf_copy (fields : List ManifestField) (line : Text) (n : Nat) :
    fieldOf fields (copy 64 line 0 n) = fieldOf fields (line.take n) := by
  have hsame : ∀ f : ManifestField, f.key = copy 64 line 0 n ↔ f.key = line.take n := by
    intro f
    have hlength := f.key_length
    rw [copy, drop_zero]
    by_cases hlong : (line.take n).length ≤ 64 - 1
    · rw [take_of_length_le hlong]
    · constructor
      · intro heq
        have hcut := congrArg List.length heq
        rw [length_take] at hcut
        omega
      · intro heq
        rw [heq] at hlength
        omega
  rw [fieldOf, fieldOf]
  refine congrArg (fun p => List.find? p fields) (funext fun f => ?_)
  exact decide_eq_decide.mpr (hsame f)

theorem ReaderSection.field_copy (sec : ReaderSection) (line : Text) (n : Nat) :
    sec.field (copy 64 line 0 n) = sec.field (line.take n) := by
  cases sec with
  | package | cc => exact fieldOf_copy _ line n
  | deps | features | registry | other => rfl

/-- With spaces as its only blanks, both take a value for the same words. -/
theorem splitWhitespace_eq (h : OnlySpaces value) : splitWhitespace value = splitSpaces value :=
  h.splitWhitespace_eq

/-- A value in a field before the first section. -/
theorem Agreeing.setPackage (h : Agreeing s t) (hf : f ∈ packageFields)
    (hvalue : FieldAlike s t key value f) (hlength : value.length < 256) :
    Agreeing (s.setPackage f.key value) (t.setPackage f.key value) := by
  simp only [packageFields, mem_cons, not_mem_nil, or_false] at hf
  rcases hf with rfl | rfl | rfl | rfl | rfl | rfl
  · exact { h with name := assign_of_lt hvalue }
  · exact { h with version := assign_of_lt hvalue }
  · exact { h with entry := assign_of_lt hlength }
  · have hclear : (value.head? = some 116 ∨ value.head? = some 49) ↔
        value = text "true" ∨ value = text "1" := by
      constructor
      · intro hhead
        exact hvalue (hhead.elim .inl fun h => .inr (.inl h))
      · rintro (rfl | rfl)
        · exact .inl rfl
        · exact .inr rfl
    have hsame : (value.head? = some 116 || value.head? = some 49 : Bool) =
        (value = text "true" || value = text "1" : Bool) := by
      rw [Bool.eq_iff_iff]
      simp only [Bool.or_eq_true, decide_eq_true_eq]
      exact hclear
    exact
      { h with
        m2plus := hsame
        edition := fun hedition => by
          have htrue := hvalue (.inr (.inr hedition))
          change (value = text "true" || value = text "1" : Bool) = true
          simp only [Bool.or_eq_true, decide_eq_true_eq]
          exact htrue }
  · exact
      { h with
        includes := by
          change splitSpaces (assign 1024 value) = splitWhitespace value
          rw [assign_of_lt (by omega), splitWhitespace_eq hvalue] }
  · have hcompiler : s.setPackage (text "edition") value =
        if value = text "m2plus" then { s with m2plus := true } else s := rfl
    have hmxpkg : t.setPackage (text "edition") value =
        { t with
          edition := assign 32 value
          editionSet := true
          m2plus := if value = text "m2plus" then true else t.m2plus } := rfl
    rw [ManifestField.key, hcompiler, hmxpkg]
    by_cases hm2plus : value = text "m2plus"
    · rw [if_pos hm2plus, if_pos hm2plus]
      exact { h with m2plus := rfl, edition := fun _ => rfl }
    · rw [if_neg hm2plus, if_neg hm2plus]
      refine { h with edition := fun hcut => absurd ?_ hm2plus }
      -- What is cut off is longer than the name of the edition.
      have hcut : value.take 31 = text "m2plus" := hcut
      have hlength := congrArg List.length hcut
      rw [length_take] at hlength
      have hsix : (text "m2plus").length = 6 := rfl
      rwa [take_of_length_le (by omega)] at hcut

/-- Other keys before the first section, for the compiler. -/
theorem Agreeing.setPackage_compiler (h : Agreeing s t) (hkey : fieldOf packageFields key = none)
    (value : Text) : Agreeing (s.setPackage key value) t := by
  have hne : ∀ f ∈ packageFields, key ≠ f.key := fun f => fieldOf_eq_none hkey
  simp only [packageFields, forall_mem_cons, ManifestField.key] at hne
  obtain ⟨hname, hversion, hentry, hm2plus, hincludes, hedition, -⟩ := hne
  rw [ManifestParser.setPackage, if_neg hname, if_neg hversion, if_neg hentry, if_neg hm2plus,
    if_neg hincludes, if_neg hedition]
  split
  · exact { h with }
  · exact h

/-- Other keys before the first section, for mxpkg. -/
theorem Agreeing.setPackage_mxpkg (h : Agreeing s t) (hkey : fieldOf packageFields key = none)
    (hsupported : Supported key value) : Agreeing s (t.setPackage key value) := by
  have hne : ∀ f ∈ packageFields, key ≠ f.key := fun f => fieldOf_eq_none hkey
  simp only [packageFields, forall_mem_cons, ManifestField.key] at hne
  obtain ⟨hname, hversion, hentry, hm2plus, hincludes, hedition, -⟩ := hne
  rw [ManifestReader.setPackage.eq_def, if_neg hname, if_neg hversion, if_neg hentry,
    if_neg hm2plus, if_neg hincludes, if_neg hedition]
  split
  · exact { h with }
  split
  · rename_i hformat
    cases value with
    | nil => exact h
    | cons c value =>
      simp only
      split
      · rename_i hdigit
        refine { h with supported := ?_ }
        have hone : ¬ 50 ≤ c := fun hle =>
          absurd (hsupported hformat c rfl hle) (UInt8.not_lt.mpr hdigit.2)
        have hc := UInt8.lt_iff_toNat_lt.mp (UInt8.not_le.mp hone)
        change c.toNat - 48 ≤ 1
        have hfifty : (50 : UInt8).toNat = 50 := rfl
        omega
      · exact h
  · exact h

theorem addWords_eq {max : Nat} (ws : List Text) : ∀ {xs : List Text},
    (∀ w ∈ ws, w.length < 64) → xs.length + ws.length ≤ max →
      addWords max xs ws = some (xs ++ ws) := by
  induction ws with
  | nil =>
    intro xs _ _
    rw [addWords, append_nil]
  | cons w ws ih =>
    intro xs hfits hroom
    rw [length_cons] at hroom
    have hw := hfits w mem_cons_self
    have hadd : addTo max xs (assign 64 w) = xs ++ [w] := by
      rw [addTo, if_pos (by omega), assign_of_lt hw]
    rw [addWords, if_pos hw, hadd, ih fun w' hw' => hfits w' (mem_cons_of_mem w hw')]
    · rw [append_assoc]
      rfl
    · rw [length_append, length_singleton]
      omega

/-- A value in a field for the C compiler. -/
theorem Agreeing.setCC (h : Agreeing s t) (hf : f ∈ ccFields)
    (hvalue : FieldAlike s t key value f) (hlength : value.length < 256)
    (hfits : f.key = text "libs" ∨ f.key = text "frameworks" →
      (splitWhitespace value).length ≤ 8) :
    ∃ t', t.setCC f.key value = some t' ∧ Agreeing { s with cc := s.cc.set f.key value } t' := by
  simp only [ccFields, mem_cons, not_mem_nil, or_false] at hf
  rcases hf with rfl | rfl | rfl | rfl | rfl
  · refine ⟨_, rfl, { h with cflags := ?_ }⟩
    change splitSpaces (assign 1024 value) = splitWhitespace value
    rw [assign_of_lt (by omega), splitWhitespace_eq hvalue]
  · refine ⟨_, rfl, { h with ldflags := ?_ }⟩
    change splitSpaces (assign 1024 value) = splitWhitespace value
    rw [assign_of_lt (by omega), splitWhitespace_eq hvalue]
  · obtain ⟨hnil, hspaces, hwords⟩ := hvalue
    have hcount := hfits (.inl rfl)
    rw [splitWhitespace_eq hspaces] at hcount
    have hall : parseSpaceSep maxCCLibs value t.ccLibs = some (splitSpaces value) := by
      have hempty : t.ccLibs = [] := h.libs.trans hnil
      have hroom : ([] : List Text).length + (splitSpaces value).length ≤ maxCCLibs := by
        rw [length_nil, Nat.zero_add]
        exact hcount
      rw [parseSpaceSep, hempty]
      exact addWords_eq _ (fun w hw => (hwords w hw).1) hroom
    refine ⟨{ t with ccLibs := splitSpaces value }, ?_, { h with libs := ?_ }⟩
    · change (parseSpaceSep maxCCLibs value t.ccLibs).map _ = _
      rw [hall]
      rfl
    · change splitSpaces value =
        (splitWhitespace value).map fun w => (stripPrefix (text "-l") w).getD w
      rw [splitWhitespace_eq hspaces]
      refine (map_id _).symm.trans (map_congr_left fun w hw => ?_)
      rw [stripPrefix, if_neg (by rw [(hwords w hw).2]; exact Bool.false_ne_true)]
      rfl
  · obtain ⟨hnil, hne, hspaces, hspace⟩ := hvalue
    have hword : words (· = 32) value = [value] :=
      words_of_none (fun c hc => decide_eq_false fun heq => hspace (heq ▸ hc)) hne
    refine ⟨_, rfl, { h with extraC := ?_ }⟩
    change addTo maxCCExtraC t.ccExtraC (assign 256 value) = splitWhitespace value
    rw [h.extraC, hnil, splitWhitespace_eq hspaces, splitSpaces, hword, assign_of_lt hlength]
    rfl
  · obtain ⟨hnil, hspaces, hwords⟩ := hvalue
    have hcount := hfits (.inr rfl)
    rw [splitWhitespace_eq hspaces] at hcount
    have hall : parseSpaceSep maxCCFrameworks value t.ccFrameworks = some (splitSpaces value) := by
      have hempty : t.ccFrameworks = [] := h.frameworks.trans hnil
      have hroom : ([] : List Text).length + (splitSpaces value).length ≤ maxCCFrameworks := by
        rw [length_nil, Nat.zero_add]
        exact hcount
      rw [parseSpaceSep, hempty]
      exact addWords_eq _ hwords hroom
    refine ⟨{ t with ccFrameworks := splitSpaces value }, ?_, { h with frameworks := ?_ }⟩
    · change (parseSpaceSep maxCCFrameworks value t.ccFrameworks).map _ = _
      rw [hall]
      rfl
    · exact (splitWhitespace_eq hspaces).symm

/-- Other keys for the C compiler. -/
theorem CcSection.set_other (hkey : fieldOf ccFields key = none) (cc : CcSection) :
    cc.set key value = cc := by
  have hne : ∀ f ∈ ccFields, key ≠ f.key := fun f => fieldOf_eq_none hkey
  simp only [ccFields, forall_mem_cons, ManifestField.key] at hne
  obtain ⟨hcflags, hldflags, hlibs, hextra, hframeworks, -⟩ := hne
  rw [CcSection.set, if_neg hcflags, if_neg hldflags, if_neg hlibs, if_neg hextra,
    if_neg hframeworks]

theorem ManifestReader.setCC_other (hkey : fieldOf ccFields key = none) (t : ManifestReader) :
    t.setCC key value = some t := by
  have hne : ∀ f ∈ ccFields, key ≠ f.key := fun f => fieldOf_eq_none hkey
  simp only [ccFields, forall_mem_cons, ManifestField.key] at hne
  obtain ⟨hcflags, hldflags, hlibs, hextra, hframeworks, -⟩ := hne
  rw [ManifestReader.setCC, if_neg hcflags, if_neg hldflags, if_neg hlibs, if_neg hextra,
    if_neg hframeworks]

/-- The rest of a text that fits. -/
theorem copy_drop {size n len : Nat} (hlen : value.length ≤ n + len)
    (hsize : value.length < size) : copy size value n len = value.drop n := by
  have hrest : (value.drop n).length ≤ len := by
    rw [length_drop]
    omega
  have hfits : (value.drop n).length ≤ size - 1 := by
    rw [length_drop]
    omega
  rw [copy, take_of_length_le hrest, take_of_length_le hfits]

/-- A dependency that fits is kept alike. -/
theorem readDep_entry (hkey : key.length < 64) (hlength : value.length < 256)
    (hurl : (text "http").isPrefixOf value = true → value.length > 4 →
      ∀ n, pos (text "#") value = some n → n + 1 < value.length) :
    (readDep key value).entry = ⟨key, ManifestParser.source value⟩ := by
  have hname : assign 64 key = key := assign_of_lt hkey
  rw [readDep]
  split
  · rename_i hlocal
    have hpath : copy 256 value 5 (value.length - 5) = value.drop 5 :=
      copy_drop (by omega) hlength
    have hprefix := pos_eq_zero_iff.mp hlocal
    rw [ManifestParser.source, stripPrefix, if_pos hprefix]
    simp only [ManifestDep.entry, hname, hpath, if_true]
    rfl
  rename_i hlocal
  have hprefix : ¬ (text "path:").isPrefixOf value = true :=
    fun h => hlocal (pos_eq_zero_iff.mpr h)
  rw [ManifestParser.source, stripPrefix, if_neg hprefix]
  split
  · rename_i hhttp
    split
    · rename_i n hn
      have heq : value = value.take n ++ 35 :: value.drop (n + 1) := (pos_singleton_eq_some hn).2
      have hafter := hurl hhttp.2 hhttp.1 n hn
      have hfront : copy 256 value 0 n = value.take n := by
        rw [copy, drop_zero, take_of_length_le (by rw [length_take]; omega)]
      have hback : copy 256 value (n + 1) (value.length - n - 1) = value.drop (n + 1) :=
        copy_drop (by omega) hlength
      have hne : value.drop (n + 1) ≠ [] := by
        intro hnil
        have hlen := congrArg List.length hnil
        rw [length_drop, length_nil] at hlen
        omega
      simp only [ManifestDep.entry, ManifestDep.value, hname, hfront, hback, hne, and_false,
        Bool.false_eq_true, if_false, if_true]
      rw [← heq]
    · have hall : assign 512 value = value := assign_of_lt (by omega)
      simp only [ManifestDep.entry, ManifestDep.value, hname, hall, and_self, Bool.false_eq_true,
        if_false, if_true]
  · have hall : assign 256 value = value := assign_of_lt hlength
    simp only [ManifestDep.entry, ManifestDep.value, hname, hall, false_and, Bool.false_eq_true,
      if_false]

theorem Agreeing.dep (h : Agreeing s t) (hvalue : FieldAlike s t key value .dep)
    (hlength : value.length < 256) (hroom : s.deps.length < maxDeps) :
    Agreeing { s with deps := s.deps ++ [⟨key, ManifestParser.source value⟩] }
      { t with deps := addTo maxDeps t.deps (readDep key value) } := by
  have hcount : t.deps.length ≤ s.deps.length := by
    have hmap := congrArg List.length h.deps
    rw [length_map] at hmap
    rw [hmap]
    exact length_filter_le _ _
  have hsource : (ManifestParser.source value) ≠ .installed := by
    rw [ManifestParser.source]
    split
    · exact fun heq => by cases heq
    · exact fun heq => by cases heq
  have hkept : [DepEntry.mk key (ManifestParser.source value)].filter
      (·.source ≠ .installed) = [⟨key, ManifestParser.source value⟩] :=
    filter_eq_self.mpr fun d hd => by
      rw [mem_singleton.mp hd]
      exact decide_eq_true hsource
  refine { h with deps := ?_ }
  change (addTo maxDeps t.deps (readDep key value)).map _ = _
  rw [addTo, if_pos (by omega), map_append, h.deps, filter_append, hkept,
    map_singleton, readDep_entry hvalue.1 hlength hvalue.2]

/-- The three kinds of fields, for the compiler. -/
theorem ManifestSection.field_eq_some {sec : ManifestSection} (h : sec.field key = some f) :
    sec = .package ∧ f ∈ packageFields ∧ f.key = key ∨ sec = .deps ∧ f = .dep ∨
      sec = .cc ∧ f ∈ ccFields ∧ f.key = key := by
  cases sec with
  | package => exact .inl ⟨rfl, fieldOf_eq_some h⟩
  | deps => exact .inr (.inl ⟨rfl, (Option.some.inj h).symm⟩)
  | cc => exact .inr (.inr ⟨rfl, fieldOf_eq_some h⟩)
  | test | features | registry | other | ccFeature => cases h

/-- The three kinds of fields, for mxpkg. -/
theorem ReaderSection.field_eq_some {sec : ReaderSection} (h : sec.field key = some f) :
    sec = .package ∧ f ∈ packageFields ∧ f.key = key ∨ sec = .deps ∧ f = .dep ∨
      sec = .cc ∧ f ∈ ccFields ∧ f.key = key := by
  cases sec with
  | package => exact .inl ⟨rfl, fieldOf_eq_some h⟩
  | deps => exact .inr (.inl ⟨rfl, (Option.some.inj h).symm⟩)
  | cc => exact .inr (.inr ⟨rfl, fieldOf_eq_some h⟩)
  | features | registry | other => cases h

/-- A field is of one kind. -/
theorem field_kinds (f : ManifestField) : ¬ (f ∈ packageFields ∧ f ∈ ccFields) ∧
    ¬ (f ∈ packageFields ∧ f = .dep) ∧ ¬ (f ∈ ccFields ∧ f = .dep) := by
  cases f
  all_goals decide

theorem ManifestParser.set_deps (hsec : s.curSection = .deps) : s.set key value =
    { s with deps := s.deps ++ [⟨key, ManifestParser.source value⟩] } := by
  cases s
  cases hsec
  rfl

theorem ManifestParser.set_cc (hsec : s.curSection = .cc) :
    s.set key value = { s with cc := s.cc.set key value } := by
  cases s
  cases hsec
  rfl

theorem ManifestReader.set_deps (hsec : t.curSection = .deps) : t.set key value =
    some { t with deps := addTo maxDeps t.deps (readDep key value) } := by
  cases t
  cases hsec
  rfl

/-- A key and its value that both take for the same field. -/
theorem Agreeing.set (h : Agreeing s t) (hfield : s.curSection.field key = some f)
    (hfield' : t.curSection.field key = some f) (hvalue : FieldAlike s t key value f)
    (hlength : value.length < 256) (hroom : f = .dep → s.deps.length < maxDeps)
    (hfits : key = text "libs" ∨ key = text "frameworks" → (splitWhitespace value).length ≤ 8) :
    ∃ t', t.set key value = some t' ∧ Agreeing (s.set key value) t' := by
  obtain ⟨hpc, hpd, hcd⟩ := field_kinds f
  rcases ManifestSection.field_eq_some hfield with
    ⟨hsec, hmem, rfl⟩ | ⟨hsec, rfl⟩ | ⟨hsec, hmem, rfl⟩
  · rcases ReaderSection.field_eq_some hfield' with
      ⟨hsec', -⟩ | ⟨-, hdep⟩ | ⟨-, hcc, -⟩
    · rw [ManifestParser.set, ManifestReader.set, hsec, hsec']
      exact ⟨_, rfl, h.setPackage hmem hvalue hlength⟩
    · exact absurd ⟨hmem, hdep⟩ hpd
    · exact absurd ⟨hmem, hcc⟩ hpc
  · rcases ReaderSection.field_eq_some hfield' with
      ⟨-, hpackage, -⟩ | ⟨hsec', -⟩ | ⟨-, hcc, -⟩
    · exact absurd ⟨hpackage, rfl⟩ hpd
    · rw [ManifestParser.set_deps hsec, ManifestReader.set_deps hsec']
      exact ⟨_, rfl, h.dep hvalue hlength (hroom rfl)⟩
    · exact absurd ⟨hcc, rfl⟩ hcd
  · rcases ReaderSection.field_eq_some hfield' with
      ⟨-, hpackage, -⟩ | ⟨-, hdep⟩ | ⟨hsec', -⟩
    · exact absurd ⟨hpackage, hmem⟩ hpc
    · exact absurd ⟨hmem, hdep⟩ hcd
    · rw [ManifestParser.set_cc hsec, ManifestReader.set, hsec']
      exact h.setCC hmem hvalue hlength hfits

/-- A key and its value that the compiler takes for no field. -/
theorem Agreeing.set_compiler (h : Agreeing s t) (hfield : s.curSection.field key = none) :
    Agreeing (s.set key value) t := by
  cases hsec : s.curSection with
  | package =>
    rw [hsec] at hfield
    rw [ManifestParser.set, hsec]
    exact h.setPackage_compiler hfield value
  | deps =>
    rw [hsec] at hfield
    cases hfield
  | cc =>
    rw [hsec] at hfield
    rw [ManifestParser.set_cc hsec, CcSection.set_other hfield]
    exact h
  | ccFeature =>
    rw [ManifestParser.set, hsec]
    simp only
    split
    · exact { h with }
    · exact h
  | test =>
    rw [ManifestParser.set, hsec]
    simp only
    split
    · exact { h with }
    split
    · exact { h with }
    · exact h
  | features | registry | other =>
    rw [ManifestParser.set, hsec]
    exact h

/-- A key and its value that mxpkg takes for no field. -/
theorem Agreeing.set_mxpkg (h : Agreeing s t) (hfield : t.curSection.field key = none)
    (hsupported : t.curSection = .package → Supported key value) :
    ∃ t', t.set key value = some t' ∧ Agreeing s t' := by
  rw [ManifestReader.set]
  cases hsec : t.curSection with
  | package =>
    rw [hsec] at hfield
    exact ⟨_, rfl, h.setPackage_mxpkg hfield (hsupported hsec)⟩
  | deps =>
    rw [hsec] at hfield
    cases hfield
  | cc =>
    rw [hsec] at hfield
    exact ⟨t, ManifestReader.setCC_other hfield t, h⟩
  | features => exact ⟨_, rfl, { h with }⟩
  | registry =>
    refine ⟨_, rfl, ?_⟩
    split
    · exact { h with }
    · exact h
  | other => exact ⟨t, rfl, h⟩

theorem Agreeing.header_compiler (h : Agreeing s t) (sec : Text) : Agreeing (s.header sec) t := by
  rw [ManifestParser.header]
  split
  · exact { h with }
  · exact { h with }

/-- A line without a `=` is no field of the compiler. -/
theorem Agreeing.bare (h : Agreeing s t) (name : Text) :
    Agreeing (if s.curSection = .deps then { s with deps := s.deps ++ [⟨name, .installed⟩] } else s)
      t := by
  split
  · refine { h with deps := ?_ }
    change _ = (s.deps ++ _).filter _
    rw [filter_append, h.deps]
    exact (append_nil _).symm
  · exact h

theorem skipped_reader {l : Text} (hskip : Skipped l) : t.line l = some t := by
  rw [ManifestReader.line]
  rcases hskip with rfl | hcomment
  · rfl
  · rw [if_pos hcomment]
    split
    · rfl
    · rfl

/-- What the compiler does with a line that is no comment and no header. -/
theorem line_compiler {l : Text} (hp : PlainLine l) (hskip : ¬ Skipped l) (hheader : ¬ IsHeader l) :
    s.line l = match splitEntry l with
      | none => if s.curSection = .deps then { s with deps := s.deps ++ [⟨l, .installed⟩] } else s
      | some e => s.set e.1 e.2 := by
  rw [Skipped] at hskip
  rw [IsHeader] at hheader
  rw [ManifestParser.line]
  simp only [hp.tidy.trim_eq]
  rw [if_neg hskip, if_neg hheader]
  cases hpos : pos (text "=") l with
  | none => simp only [splitEntry, hpos, Option.map_none]
  | some n =>
    obtain ⟨hkey, hval⟩ := hp.entry (l.take n, l.drop (n + 1)) (by rw [splitEntry, hpos]; rfl)
    simp only [splitEntry, hpos, Option.map_some]
    rw [hkey.trim_eq, hval.trim_eq]

/-- What mxpkg does with a line that is no comment and no header. -/
theorem line_reader {l : Text} (hp : PlainLine l) (hskip : ¬ Skipped l)
    (hheader : l.head? ≠ some 91) :
    t.line l = match splitEntry l with
      | none => t.set (copy 64 l 0 l.length) l
      | some e => t.set (copy 64 l 0 e.1.length) e.2 := by
  rw [Skipped, not_or] at hskip
  have hnil : ¬ l.length = 0 := fun h => hskip.1 (length_eq_zero_iff.mp h)
  have hshort := hp.short
  rw [ManifestReader.line, if_neg hnil, if_neg hskip.2, if_neg hheader, ManifestReader.processLine]
  cases hpos : pos (text "=") l with
  | none =>
    have hall : copy 256 l 0 l.length = l.drop 0 := copy_drop (by omega) (by omega)
    simp only [splitEntry, hpos, Option.map_none]
    rw [hall, drop_zero]
  | some n =>
    have heq : l = l.take n ++ 61 :: l.drop (n + 1) := (pos_singleton_eq_some hpos).2
    have hn : (l.take n).length = n := by
      have hlength := congrArg List.length heq
      rw [length_append, length_cons, length_drop, length_take] at hlength
      rw [length_take]
      omega
    simp only [splitEntry, hpos, Option.map_some, hn]
    split
    · have hrest : copy 256 l (n + 1) (l.length - n - 1) = l.drop (n + 1) :=
        copy_drop (by omega) (by omega)
      rw [hrest]
    · rename_i hempty
      rw [drop_eq_nil_of_le (by omega)]

/-- The key and the value in a line. -/
theorem splitEntry_spec {l : Text} {e : Text × Text} (h : splitEntry l = some e) :
    l = e.1 ++ 61 :: e.2 := by
  obtain ⟨n, hn, rfl⟩ := Option.map_eq_some_iff.mp h
  exact (pos_singleton_eq_some hn).2

/-- The format is given in full if it is given. -/
theorem Supported.copy {l : Text} (h : Supported key value) (hl : key <+: l) :
    Supported (copy 64 l 0 key.length) value := by
  intro hformat
  apply h
  obtain ⟨rest, rfl⟩ := hl
  rw [Strings.copy, drop_zero, take_left] at hformat
  have hlength := congrArg List.length hformat
  have hsixteen : (text "manifest_version").length = 16 := rfl
  rw [length_take] at hlength
  rwa [take_of_length_le (by omega)] at hformat

theorem supported_self (l : Text) (n : Nat) : Supported (Strings.copy 64 l 0 n) l := by
  intro hformat c hc hle
  rw [Strings.copy, drop_zero, take_take] at hformat
  cases l with
  | nil => cases hc
  | cons x l =>
    obtain rfl := Option.some.inj hc
    cases hmin : min (64 - 1) n with
    | zero =>
      rw [hmin, take_zero] at hformat
      cases hformat
    | succ m =>
      rw [hmin, take_succ_cons] at hformat
      rw [(List.cons.inj hformat).1]
      decide

/-- A line that is read alike. -/
theorem Agreeing.line {l : Text} (h : Agreeing s t) (hp : PlainLine l) (ha : Alike s t l)
    (hroom : s.curSection.takes l = some .dep → s.deps.length < maxDeps) :
    ∃ t', t.line l = some t' ∧ Agreeing (s.line l) t' := by
  by_cases hskip : Skipped l
  · refine ⟨t, skipped_reader hskip, ?_⟩
    rw [Skipped] at hskip
    rw [ManifestParser.line]
    simp only [hp.tidy.trim_eq]
    rw [if_pos hskip]
    exact h
  have hnil : ¬ l.length = 0 := fun hnil => hskip (.inl (length_eq_zero_iff.mp hnil))
  have hcomment : ¬ l.head? = some 35 := fun hcomment => hskip (.inr hcomment)
  by_cases hbracket : l.head? = some 91
  · refine ⟨t.header l, ?_, ?_⟩
    · rw [ManifestReader.line, if_neg hnil, if_neg hcomment, if_pos hbracket]
    have hreader : Agreeing s (t.header l) := { h with }
    by_cases hheader : IsHeader l
    · rw [Skipped] at hskip
      rw [IsHeader] at hheader
      rw [ManifestParser.line]
      simp only [hp.tidy.trim_eq]
      rw [if_neg hskip, if_pos hheader]
      exact hreader.header_compiler _
    · -- The compiler takes the line for an entry, but for no field, as mxpkg takes it for a header.
      have hsame := ha.same
      rw [ManifestSection.takes, if_neg (not_or.mpr ⟨hskip, hheader⟩), ReaderSection.takes,
        if_pos (.inr hbracket)] at hsame
      rw [line_compiler hp hskip hheader]
      cases hentry : splitEntry l with
      | none => exact hreader.bare l
      | some e =>
        rw [hentry] at hsame
        exact hreader.set_compiler hsame
  · have hheader : ¬ IsHeader l := fun hheader => hbracket hheader.1
    have hsame := ha.same
    have hcompiler : s.curSection.takes l =
        (splitEntry l).bind fun e => s.curSection.field e.1 := by
      rw [ManifestSection.takes, if_neg (not_or.mpr ⟨hskip, hheader⟩)]
    have hreader : t.curSection.takes l = t.curSection.field ((splitEntry l).elim l Prod.fst) := by
      rw [ReaderSection.takes, if_neg (not_or.mpr ⟨hskip, hbracket⟩)]
    rw [line_compiler hp hskip hheader, line_reader hp hskip hbracket]
    rw [hcompiler, hreader] at hsame
    cases hentry : splitEntry l with
    | none =>
      rw [hentry] at hsame
      have hfield : t.curSection.field (copy 64 l 0 l.length) = none := by
        rw [ReaderSection.field_copy, take_length]
        exact hsame.symm
      obtain ⟨t', ht', h'⟩ := h.set_mxpkg hfield fun _ => supported_self l l.length
      exact ⟨t', ht', h'.bare l⟩
    | some e =>
      have hline := splitEntry_spec hentry
      have hfront : l.take e.1.length = e.1 := by
        rw [hline]
        exact take_left
      rw [hentry] at hsame hcompiler
      simp only [Option.elim_some, Option.bind_some] at hsame hcompiler
      cases hfield : s.curSection.field e.1 with
      | none =>
        have hfield' : t.curSection.field (copy 64 l 0 e.1.length) = none := by
          rw [ReaderSection.field_copy, hfront, ← hsame, hfield]
        obtain ⟨t', ht', h'⟩ := h.set_mxpkg hfield' fun hsec =>
          (ha.supported hsec e hentry).copy ⟨_, hline.symm⟩
        exact ⟨t', ht', h'.set_compiler hfield⟩
      | some f =>
        rw [hfield] at hsame hcompiler
        have hkept := ha.kept f e hcompiler hentry
        have hshort : e.1.length < 64 := by
          rcases ManifestSection.field_eq_some hfield with ⟨-, -, hkey⟩ | ⟨-, rfl⟩ | ⟨-, -, hkey⟩
          · rw [← hkey]
            exact f.key_length.trans (by decide)
          · exact hkept.1
          · rw [← hkey]
            exact f.key_length.trans (by decide)
        have hkey : copy 64 l 0 e.1.length = e.1 := by
          rw [hline]
          exact copy_front hshort _
        have hvalue : e.2.length < 256 := by
          have hlength := hp.short
          rw [hline, length_append, length_cons] at hlength
          omega
        simp only [hkey]
        exact h.set hfield hsame.symm hkept hvalue (fun hdep => hroom (hdep ▸ hcompiler))
          (hp.fits e hentry)

end Fields

/-! ## Whole files -/

section Files

variable {s : ManifestParser} {t : ManifestReader}

theorem ManifestParser.setPackage_deps (key val : Text) : (s.setPackage key val).deps = s.deps := by
  rw [ManifestParser.setPackage]
  split_ifs
  all_goals rfl

theorem ManifestParser.set_deps_le (key val : Text) :
    s.deps.length ≤ (s.set key val).deps.length := by
  rw [ManifestParser.set]
  split
  · rw [ManifestParser.setPackage_deps]
  · rw [length_append]
    exact Nat.le_add_right _ _
  · exact le_rfl
  · split
    · exact le_rfl
    · exact le_rfl
  · split_ifs
    all_goals exact le_rfl
  all_goals exact le_rfl

theorem ManifestParser.line_deps_le (l : Text) : s.deps.length ≤ (s.line l).deps.length := by
  rw [ManifestParser.line]
  split
  · exact le_rfl
  split
  · rw [ManifestParser.header]
    split
    · exact le_rfl
    · exact le_rfl
  split
  · split
    · rw [length_append]
      exact Nat.le_add_right _ _
    · exact le_rfl
  · exact ManifestParser.set_deps_le _ _

theorem ManifestParser.foldl_deps_le (ls : List Text) :
    ∀ {s : ManifestParser}, s.deps.length ≤ (ls.foldl ManifestParser.line s).deps.length := by
  induction ls with
  | nil => exact le_rfl
  | cons l ls ih => exact (ManifestParser.line_deps_le l).trans ih

/-- A line that is taken for a dependency adds one. -/
theorem ManifestParser.line_dep {l : Text} (hp : PlainLine l)
    (htakes : s.curSection.takes l = some .dep) :
    (s.line l).deps.length = s.deps.length + 1 := by
  rw [ManifestSection.takes, Option.ite_none_left_eq_some, not_or] at htakes
  obtain ⟨⟨hskip, hheader⟩, htakes⟩ := htakes
  obtain ⟨e, hentry, hfield⟩ := Option.bind_eq_some_iff.mp htakes
  have hsec : s.curSection = .deps := by
    rcases ManifestSection.field_eq_some hfield with ⟨-, hmem, -⟩ | ⟨hsec, -⟩ | ⟨-, hmem, -⟩
    · exact absurd hmem (by decide)
    · exact hsec
    · exact absurd hmem (by decide)
  rw [line_compiler hp hskip hheader, hentry]
  change (s.set e.1 e.2).deps.length = _
  rw [ManifestParser.set_deps hsec, length_append, length_singleton]

/-- Lines that are read alike. -/
theorem Agreeing.lines (ls : List Text) : ∀ {s : ManifestParser} {t : ManifestReader},
    Agreeing s t → (∀ l ∈ ls, PlainLine l) → ReadAlike s t ls →
      (ls.foldl ManifestParser.line s).deps.length ≤ maxDeps →
      ∃ t', ls.foldlM ManifestReader.line t = some t' ∧
        Agreeing (ls.foldl ManifestParser.line s) t' := by
  induction ls with
  | nil => exact fun h _ _ _ => ⟨_, rfl, h⟩
  | cons l ls ih =>
    intro s t h hplain halike hdeps
    have hp := hplain l mem_cons_self
    rw [foldl_cons] at hdeps ⊢
    have hroom : s.curSection.takes l = some .dep → s.deps.length < maxDeps := by
      intro htakes
      have hmore := ManifestParser.line_dep hp htakes
      have hle : (s.line l).deps.length ≤ _ := ManifestParser.foldl_deps_le ls
      omega
    obtain ⟨t₁, ht₁, h₁⟩ := h.line hp halike.1 hroom
    obtain ⟨t', ht', h'⟩ := ih h₁ (fun l' hl' => hplain l' (mem_cons_of_mem l hl'))
      (halike.2 t₁ ht₁) hdeps
    refine ⟨t', ?_, h'⟩
    rw [foldlM_cons, ht₁]
    exact ht'

theorem agreeing_init : Agreeing .init .clear where
  name := rfl
  version := rfl
  entry := rfl
  m2plus := rfl
  includes := rfl
  deps := rfl
  cflags := rfl
  ldflags := rfl
  libs := rfl
  extraC := rfl
  frameworks := rfl
  edition heq := absurd heq (by decide)
  supported := Nat.zero_le 1

/-- The end of a file. -/
theorem Agreeing.finish (h : Agreeing s t) {r : Manifest} (hr : s.manifest = some r) :
    ∃ m, t.finish = some m ∧ Agree r m := by
  rw [ManifestParser.manifest, Option.ite_none_left_eq_some] at hr
  obtain rfl := Option.some.inj hr.2
  have hone : (if t.manifestVersion = 0 then 1 else t.manifestVersion) = 1 := by
    have hle := h.supported
    split
    · rfl
    · omega
  have hm2plus : (if t.editionSet = true ∧ t.edition = text "m2plus" then true else t.m2plus) =
      s.m2plus := by
    split
    · rename_i hedition
      exact (h.edition hedition.2).symm
    · exact h.m2plus
  rw [ManifestReader.finish]
  simp only [hone, hm2plus]
  exact ⟨_, rfl,
    { name := h.name
      version := h.version
      entry := h.entry
      m2plus := rfl
      includes := h.includes
      deps := h.deps
      cflags := h.cflags
      ldflags := h.ldflags
      libs := h.libs
      extraC := h.extraC
      frameworks := h.frameworks }⟩

/-- A manifest whose lines are read alike is the same for both. -/
theorem agree_of_readAlike {content : Text} {r : Manifest}
    (hplain : ∀ l ∈ lines content, PlainLine l) (hr : parseManifest content = some r)
    (hdeps : r.deps.length ≤ maxDeps) (halike : ReadAlike .init .clear (lines content)) :
    ∃ m, readManifest content = some m ∧ Agree r m := by
  have hread : bufferLines 512 content = lines content := by
    refine bufferLines_eq_lines content.length le_rfl fun l hl => ⟨?_, fun hreturn => ?_⟩
    · have hshort := (hplain l hl).short
      omega
    · exact absurd hreturn (hplain l hl).tidy.getLast?_ne
  have hparsed : ((lines content).foldl ManifestParser.line .init).deps = r.deps := by
    rw [parseManifest, ManifestParser.manifest, Option.ite_none_left_eq_some] at hr
    obtain rfl := Option.some.inj hr.2
    rfl
  rw [← hparsed] at hdeps
  obtain ⟨t, ht, h⟩ := agreeing_init.lines (lines content) hplain halike hdeps
  rw [readManifest, hread, ht]
  exact h.finish hr

end Files

/-! ## A feature section -/

instance (line : Text) : Decidable (PlainLine line) :=
  decidable_of_iff (line.length ≤ 255 ∧ Tidy line ∧
      (∀ e ∈ splitEntry line, Tidy e.1 ∧ Tidy e.2) ∧
      ∀ e ∈ splitEntry line, (e.1 = text "libs" ∨ e.1 = text "frameworks") →
        (splitWhitespace e.2).length ≤ 8)
    ⟨fun h => ⟨h.1, h.2.1, h.2.2.1, h.2.2.2⟩, fun h => ⟨h.short, h.tidy, h.entry, h.fits⟩⟩

instance (s : ManifestParser) (t : ManifestReader) (key value : Text) :
    (f : ManifestField) → Decidable (FieldAlike s t key value f)
  | .name => inferInstanceAs (Decidable (value.length < 64))
  | .version => inferInstanceAs (Decidable (value.length < 32))
  | .entry | .edition => .isTrue trivial
  | .m2plus => inferInstanceAs (Decidable
      (value.head? = some 116 ∨ value.head? = some 49 ∨ t.edition = text "m2plus" →
        value = text "true" ∨ value = text "1"))
  | .includes | .cflags | .ldflags =>
    inferInstanceAs (Decidable (OnlySpaces value))
  | .dep => inferInstanceAs (Decidable (key.length < 64 ∧
      ((text "http").isPrefixOf value = true → value.length > 4 →
        ∀ n ∈ pos (text "#") value, n + 1 < value.length)))
  | .libs => inferInstanceAs (Decidable (s.cc.libs = [] ∧
      OnlySpaces value ∧
      ∀ w ∈ splitSpaces value, w.length < 64 ∧ (text "-l").isPrefixOf w = false))
  | .extraC => inferInstanceAs (Decidable (s.cc.extraC = [] ∧ value ≠ [] ∧
      OnlySpaces value ∧ 32 ∉ value))
  | .frameworks => inferInstanceAs (Decidable (s.cc.frameworks = [] ∧
      OnlySpaces value ∧ ∀ w ∈ splitSpaces value, w.length < 64))

instance (key value : Text) : Decidable (Supported key value) :=
  inferInstanceAs (Decidable (key = text "manifest_version" →
    ∀ c ∈ value.head?, 50 ≤ c → 57 < c))

instance (s : ManifestParser) (t : ManifestReader) (line : Text) : Decidable (Alike s t line) :=
  decidable_of_iff (s.curSection.takes line = t.curSection.takes line ∧
      (∀ f ∈ s.curSection.takes line, ∀ e ∈ splitEntry line, FieldAlike s t e.1 e.2 f) ∧
      (t.curSection = .package → ∀ e ∈ splitEntry line, Supported e.1 e.2))
    ⟨fun h => ⟨h.1, fun f e hf he => h.2.1 f hf e he, h.2.2⟩,
      fun h => ⟨h.same, fun f hf e he => h.kept f e hf he, h.supported⟩⟩

instance : (s : ManifestParser) → (t : ManifestReader) → (ls : List Text) →
    Decidable (ReadAlike s t ls)
  | _, _, [] => .isTrue trivial
  | s, t, l :: ls =>
    have : ∀ t', Decidable (ReadAlike (s.line l) t' ls) := fun t' =>
      instDecidableReadAlike (s.line l) t' ls
    inferInstanceAs (Decidable (Alike s t l ∧ ∀ t' ∈ t.line l, ReadAlike (s.line l) t' ls))

/-- A manifest with a dependency and a library. -/
def zipManifest : Text :=
  text "name=zip\nedition=m2plus\nincludes=src lib\n[deps]\nbase=path:../base\n[cc]\nlibs=m z\n"

theorem agree_zipManifest : ∃ r m, parseManifest zipManifest = some r ∧
    readManifest zipManifest = some m ∧ Agree r m := by
  obtain ⟨r, hr⟩ := Option.isSome_iff_exists.mp
    (by decide +kernel : (parseManifest zipManifest).isSome = true)
  have hdeps : (parseManifest zipManifest).all (fun r => r.deps.length ≤ maxDeps) = true := by
    decide +kernel
  rw [hr, Option.all_some, decide_eq_true_eq] at hdeps
  obtain ⟨m, hm, hagree⟩ := agree_of_readAlike (by decide +kernel) hr hdeps (by decide +kernel)
  exact ⟨r, m, hr, hm, hagree⟩

/-- Flags for a feature, which mxpkg takes for those of all builds. -/
def featureManifest : Text := text "name=zip\n[cc.feature.debug]\ncflags=-g\n"

theorem not_agree_featureManifest : ¬ ∀ content r, (∀ l ∈ lines content, PlainLine l) →
    parseManifest content = some r → r.deps.length ≤ maxDeps →
    ∃ m, readManifest content = some m ∧ Agree r m := by
  intro h
  have hcompiler : (parseManifest featureManifest).map (fun r => (r.cc.cflags, r.deps.length)) =
      some ([], 0) := by decide +kernel
  have hmxpkg : (readManifest featureManifest).map (fun m => splitSpaces m.ccFlags) =
      some [text "-g"] := by decide +kernel
  obtain ⟨r, hr, hfields⟩ := Option.map_eq_some_iff.mp hcompiler
  obtain ⟨hcflags, hdeps⟩ := Prod.mk.inj hfields
  obtain ⟨m, hm, hagree⟩ := h featureManifest r (by decide +kernel) hr (by rw [hdeps]; decide)
  rw [hm, Option.map_some, hagree.cflags, hcflags] at hmxpkg
  exact absurd hmxpkg (by decide)

end Mx.Pkg
