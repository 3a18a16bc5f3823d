import Mx.Pkg.Lockfile

/-!
# Lock files survive writing and reading

Both readers give back what `WriteEnhanced` has written, exactly when every path and every URL
fits the value buffer of `Read`, and the package has a name.
-/

namespace Mx.Pkg

open Strings List

/-! ## The property -/

/-- An entry whose fields fit their arrays and are tidy lines, with a name. -/
structure LockEntry.Plain (e : LockEntry) : Prop where
  fits : e.Fits
  named : e.name ≠ []
  line : ∀ s ∈ [e.name, e.version, e.source, e.sha, e.path, e.url], newline ∉ s ∧ Tidy s

/-- What the compiler keeps of an entry. -/
def LockEntry.dep (e : LockEntry) : LockDep := ⟨e.name, e.version, e.source, e.sha, e.path⟩

/-- Reading the file restores the table, and the compiler reads the same entries. -/
def LockRoundTrips (name version : Text) (t : LockTable) : Prop :=
  (∀ old, (readLock old (writeEnhanced name version t)).list = t.list) ∧
    ∃ l, parseLock (writeEnhanced name version t) = some l ∧ l.deps = t.list.map LockEntry.dep

/-! ## Lines -/

section Lines

variable {e : LockEntry} {s : Text}

theorem withPrefix_eq {start : String} (h : (text start).length + s.length < 512) :
    withPrefix start s = text start ++ s :=
  concat_of_lt (by rw [length_append]; exact h)

theorem headerLine_eq (h : e.name.length < 64) :
    concat 512 (withPrefix "[dep." e.name) (text "]") = text "[dep." ++ e.name ++ text "]" := by
  have hopen : (text "[dep.").length = 5 := by decide
  have hclose : (text "]").length = 1 := by decide
  rw [withPrefix_eq (by omega), concat_of_lt]
  rw [length_append, length_append]
  omega

/-- A bracket or an equals sign is in no blank. -/
theorem notMem_blank {c : UInt8} (hc : c = 61 ∨ c = 91 ∨ c = 93) : ∀ b ∈ blanks, c ∉ b := by
  rcases hc with rfl | rfl | rfl
  all_goals decide

theorem tidy_headerLine (name : Text) : Tidy (text "[dep." ++ name ++ text "]") :=
  tidy_between (notMem_blank (.inr (.inl rfl))) (notMem_blank (.inr (.inr rfl)))
    (text "dep." ++ name)

end Lines

/-! ## Reading an entry with mxpkg -/

section Read

variable {st : LockReader} {t : LockTable} {e : LockEntry} {i : Nat} {k v : Text}

theorem LockTable.modify_modify (t : LockTable) (i : Nat) (f g : LockEntry → LockEntry) :
    (t.modify i f).modify i g = t.modify i (g ∘ f) := by
  simp [LockTable.modify]

/-- An entry after the last one is counted. -/
theorem LockTable.list_push (t : LockTable) (f : LockEntry → LockEntry) :
    ({ t with count := t.count + 1 }.modify t.count f).list =
      t.list ++ [f (t.entries t.count)] := by
  have hold : (List.range t.count).map (Function.update t.entries t.count (f (t.entries t.count))) =
      (List.range t.count).map t.entries := by
    refine map_congr_left fun j hj => ?_
    rw [mem_range] at hj
    exact Function.update_of_ne (Nat.ne_of_lt hj) _ _
  simp only [LockTable.list, LockTable.modify, range_succ, map_append, hold,
    map_cons, map_nil, Function.update_self]

/-- A line of the form `key=value` in an entry. -/
theorem readLockLine_field (hdep : st.curDep = some i) (hsec : st.curSection = .dep)
    (hk : k.head?.all (fun c => c ≠ 35 ∧ c ≠ 91) = true) (hnil : k ≠ []) (heq : 61 ∉ k)
    (hlen : k.length < 64) (hv : v.length < 256) :
    readLockLine st (k ++ 61 :: v) = { st with table := st.table.modify i (setField k v) } := by
  have hhead : (k ++ 61 :: v).head? = k.head? := by
    cases k with
    | nil => exact absurd rfl hnil
    | cons c k => rfl
  obtain ⟨c, hc⟩ : ∃ c, k.head? = some c := by
    cases k with
    | nil => exact absurd rfl hnil
    | cons c k => exact ⟨c, rfl⟩
  simp only [hc, Option.all_some, decide_eq_true_eq] at hk
  have hlength : (k ++ 61 :: v).length = k.length + v.length + 1 := by
    rw [length_append, length_cons]
    omega
  have hpos : pos (text "=") (k ++ 61 :: v) = some k.length := pos_of_not_mem heq v
  have hvalue : (if k.length + v.length + 1 - k.length - 1 > 0 then
      copy 256 (k ++ 61 :: v) (k.length + 1) (k.length + v.length + 1 - k.length - 1) else []) =
        v := by
    by_cases hpos : k.length + v.length + 1 - k.length - 1 > 0
    · have hsplit : k ++ 61 :: v = (k ++ [61]) ++ v := by simp
      have hstart : k.length + 1 = (k ++ [61]).length := by simp
      rw [if_pos hpos, hsplit, hstart]
      exact copy_back hv _ (by omega)
    · rw [if_neg hpos]
      exact (length_eq_zero_iff.mp (by omega)).symm
  rw [readLockLine, if_neg (by omega), if_neg (by rw [hhead, hc]; simp [hk.1]),
    if_neg (by rw [hhead, hc]; simp [hk.2]), hpos]
  simp only [hlength, hvalue, hdep, hsec, if_true, copy_front hlen]
  rw [if_pos (by omega)]

/-- The line of a field, which is only there when the field is not empty. -/
theorem foldl_fieldLine (start key : String) (hstart : text start = text key ++ [61])
    (hk : (text key).head?.all (fun c => c ≠ 35 ∧ c ≠ 91) = true) (hnil : text key ≠ [])
    (heq : 61 ∉ text key) (hlen : (text key).length < 64) (hv : v.length < 256)
    (hclear : setField (text key) [] e = e) :
    (fieldLine start v).foldl readLockLine ⟨t.modify i fun _ => e, some i, .dep⟩ =
      ⟨t.modify i fun _ => setField (text key) v e, some i, .dep⟩ := by
  rw [fieldLine]
  by_cases hpos : v.length > 0
  · have hlength : (text start).length = (text key).length + 1 := by
      rw [hstart, length_append, length_singleton]
    rw [if_pos hpos, foldl_cons, foldl_nil, withPrefix_eq (by omega), hstart, append_assoc]
    have hread := @readLockLine_field ⟨t.modify i fun _ => e, some i, .dep⟩ i _ _ rfl rfl hk hnil
      heq hlen hv
    rw [LockTable.modify_modify] at hread
    exact hread
  · rw [if_neg hpos]
    obtain rfl : v = [] := length_eq_zero_iff.mp (by omega)
    rw [hclear]
    rfl

/-- The header of an entry. -/
theorem readLockLine_header (hcount : st.table.count < maxLockDeps) (hnamed : e.name ≠ [])
    (hname : e.name.length < 64) :
    readLockLine st (text "[dep." ++ e.name ++ text "]") =
      { table := { st.table with count := st.table.count + 1 }.modify st.table.count
          fun _ => ⟨e.name, [], [], [], [], []⟩
        curDep := some st.table.count
        curSection := .dep } := by
  have hlength : (text "[dep." ++ e.name ++ text "]").length = e.name.length + 6 := by
    have hopen : (text "[dep.").length = 5 := by decide
    have hclose : (text "]").length = 1 := by decide
    rw [length_append, length_append]
    omega
  have hpos : 0 < e.name.length := length_pos_of_ne_nil hnamed
  have hdep : pos (text "dep.") (text "[dep." ++ e.name ++ text "]") = some 1 := by
    have hfront : text "[dep." ++ e.name ++ text "]" =
        91 :: (text "dep." ++ (e.name ++ text "]")) := rfl
    have hnot : (text "dep.").isPrefixOf (91 :: (text "dep." ++ (e.name ++ text "]"))) = false :=
      rfl
    rw [hfront, pos, hnot, if_neg Bool.false_ne_true, pos_self_append]
    rfl
  have hdot : pos (text ".") (text "[dep." ++ e.name ++ text "]") = some 4 :=
    pos_of_not_mem (s := text "[dep") (c := 46) (by decide) (e.name ++ text "]")
  have hentry : startEntry (text "[dep." ++ e.name ++ text "]") =
      fun _ => ⟨e.name, [], [], [], [], []⟩ := by
    funext old
    have hcopy : copy 64 (text "[dep." ++ e.name ++ text "]") 5 e.name.length = e.name := by
      have hfive : (text "[dep.").length = 5 := by decide
      rw [copy, append_assoc, ← hfive, drop_left, take_left, take_of_length_le (by omega)]
    simp only [startEntry, hdot, hlength]
    rw [if_pos ⟨by omega, by omega⟩, show e.name.length + 6 - 4 - 2 = e.name.length by omega, hcopy]
  have hheader : readLockLine st (text "[dep." ++ e.name ++ text "]") =
      readHeader st (text "[dep." ++ e.name ++ text "]") := by
    have hhead : (text "[dep." ++ e.name ++ text "]").head? = some 91 := rfl
    rw [readLockLine, if_neg (by omega), hhead, if_neg (by decide), if_pos rfl]
  have hoccurs : occurs (text "dep.") (text "[dep." ++ e.name ++ text "]") = true := by
    rw [occurs, hdep, hlength]
    simp
  rw [hheader, readHeader, hoccurs, if_pos rfl, if_pos hcount, hentry]

/-- The lines of an entry add it to the table. -/
theorem foldl_entryLines (hcount : st.table.count < maxLockDeps) (he : e.Plain)
    (hpath : e.path.length < 256) (hurl : e.url.length < 256) :
    ((entryLines e).foldl readLockLine st).table.list = st.table.list ++ [e] ∧
      ((entryLines e).foldl readLockLine st).table.count = st.table.count + 1 := by
  obtain ⟨hname, hversion, hsource, hsha, -, -⟩ := he.fits
  have hfirst : readLockLine st [] = st := rfl
  simp only [entryLines, foldl_append, foldl_cons, foldl_nil, hfirst,
    headerLine_eq hname, readLockLine_header hcount he.named hname]
  rw [foldl_fieldLine "version=" "version" rfl rfl (by decide) (by decide) (by decide) (by omega)
      rfl,
    foldl_fieldLine "source=" "source" rfl rfl (by decide) (by decide) (by decide) (by omega) rfl,
    foldl_fieldLine "sha256=" "sha256" rfl rfl (by decide) (by decide) (by decide) (by omega) rfl,
    foldl_fieldLine "path=" "path" rfl rfl (by decide) (by decide) (by decide) hpath rfl,
    foldl_fieldLine "url=" "url" rfl rfl (by decide) (by decide) (by decide) hurl rfl]
  refine ⟨?_, rfl⟩
  have hall : setField (text "url") e.url (setField (text "path") e.path (setField (text "sha256")
      e.sha (setField (text "source") e.source (setField (text "version") e.version
        ⟨e.name, [], [], [], [], []⟩)))) =
      ⟨e.name, assign 32 e.version, assign 16 e.source, assign 65 e.sha, assign 512 e.path,
        assign 512 e.url⟩ := rfl
  rw [LockTable.list_push, hall, assign_of_lt hversion, assign_of_lt hsource, assign_of_lt hsha,
    assign_of_lt (by omega), assign_of_lt (by omega)]

/-- The lines of several entries. -/
theorem foldl_entries {es : List LockEntry} (hcount : st.table.count + es.length ≤ maxLockDeps)
    (hes : ∀ e ∈ es, e.Plain ∧ e.path.length < 256 ∧ e.url.length < 256) :
    ((es.flatMap entryLines).foldl readLockLine st).table.list = st.table.list ++ es := by
  induction es generalizing st with
  | nil => simp
  | cons e es ih =>
    obtain ⟨he, hpath, hurl⟩ := hes e (mem_cons_self ..)
    rw [length_cons] at hcount
    obtain ⟨hlist, hnext⟩ := @foldl_entryLines st e (by omega) he hpath hurl
    rw [flatMap_cons, foldl_append,
      ih (by omega) fun e' he' => hes e' (mem_cons_of_mem _ he'), hlist, append_assoc]
    rfl

/-- What is read back never has a longer path or URL than the value buffer. -/
theorem setField_bounded {n : Nat} (key : Text) (hv : v.length < n)
    (he : e.path.length < n ∧ e.url.length < n) :
    (setField key v e).path.length < n ∧ (setField key v e).url.length < n := by
  have hassign : (assign 512 v).length < n := by
    rw [assign, length_take]
    omega
  simp only [setField]
  split
  · exact he
  · split
    · exact he
    · split
      · exact he
      · split
        · exact ⟨hassign, he.2⟩
        · split
          · exact ⟨he.1, hassign⟩
          · exact he

/-- The paths and URLs of the entries in a table. -/
def LockTable.Bounded (t : LockTable) : Prop :=
  ∀ i < t.count, (t.entries i).path.length < 256 ∧ (t.entries i).url.length < 256

theorem LockTable.Bounded.modify {f : LockEntry → LockEntry} (h : t.Bounded) (i : Nat)
    (hf : ∀ e : LockEntry, e.path.length < 256 ∧ e.url.length < 256 →
      (f e).path.length < 256 ∧ (f e).url.length < 256) : (t.modify i f).Bounded := by
  intro j hj
  by_cases hij : j = i
  · subst hij
    simp only [LockTable.modify, Function.update_self]
    exact hf _ (h j hj)
  · simp only [LockTable.modify, Function.update_of_ne hij]
    exact h j hj

theorem readHeader_bounded (h : st.table.Bounded) (line : Text) :
    (readHeader st line).table.Bounded := by
  rw [readHeader]
  split
  · split
    · intro j hj
      by_cases hij : j = st.table.count
      · simp only [LockTable.modify, hij, Function.update_self, startEntry, length_nil]
        exact ⟨by omega, by omega⟩
      · simp only [LockTable.modify, Function.update_of_ne hij]
        have hlt : j < st.table.count + 1 := hj
        exact h j (by omega)
    · exact h
  · split
    · exact h
    · split
      · exact h
      · exact h

theorem readLockLine_bounded (h : st.table.Bounded) (line : Text) :
    (readLockLine st line).table.Bounded := by
  rw [readLockLine]
  split
  · exact h
  split
  · exact h
  split
  · exact readHeader_bounded h line
  cases pos (text "=") line with
  | none => exact h
  | some eqPos =>
    simp only
    split
    · cases st.curDep with
      | none => exact h
      | some i =>
        simp only
        split
        · refine h.modify i fun e he => setField_bounded _ ?_ he
          split
          · exact copy_length_lt (by omega) _ _ _
          · exact Nat.zero_lt_succ _
        · exact h
    · exact h

theorem readLock_bounded (old : LockTable) (file : Text) : (readLock old file).Bounded := by
  have hfold : ∀ (ls : List Text) (st : LockReader), st.table.Bounded →
      (ls.foldl readLockLine st).table.Bounded := by
    intro ls
    induction ls with
    | nil => exact fun _ h => h
    | cons l ls ih => exact fun st h => ih _ (readLockLine_bounded h l)
  exact hfold _ _ fun i hi => absurd hi (Nat.not_lt_zero i)

/-- The entries that are read back are bounded. -/
theorem readLock_list_bounded {old : LockTable} {file : Text}
    (he : e ∈ (readLock old file).list) : e.path.length < 256 ∧ e.url.length < 256 := by
  rw [LockTable.list, mem_map] at he
  obtain ⟨i, hi, rfl⟩ := he
  exact readLock_bounded old file i (mem_range.mp hi)

end Read

/-! ## Reading an entry with the compiler -/

section Parse

variable {st : LockParser} {e : LockEntry} {ds : List LockDep} {d : LockDep} {k v : Text}

/-- A line of the form `key=value`. -/
theorem LockParser.line_field (hk : Tidy k) (hhead : k.head? ≠ some 35 ∧ k.head? ≠ some 91)
    (hnil : k ≠ []) (heq : 61 ∉ k) (v : Text) :
    st.line (k ++ 61 :: v) = st.set k (trim (trimEnd v)) := by
  have hfront : ∀ v' : Text, (k ++ 61 :: v').head? = k.head? := by
    intro v'
    cases k with
    | nil => exact absurd rfl hnil
    | cons c k => rfl
  have htrim : trim (k ++ 61 :: v) = k ++ 61 :: trimEnd v :=
    trim_append_cons hk (notMem_blank (.inl rfl)) v
  have hpos : pos (text "=") (k ++ 61 :: trimEnd v) = some k.length := pos_of_not_mem heq _
  have hdrop : (k ++ 61 :: trimEnd v).drop (k.length + 1) = trimEnd v := by
    have hsplit : k ++ 61 :: trimEnd v = (k ++ [61]) ++ trimEnd v := by simp
    have hstart : k.length + 1 = (k ++ [61]).length := by simp
    rw [hsplit, hstart, drop_left]
  rw [LockParser.line, htrim, if_neg, hfront, if_neg (fun h => hhead.2 h.1), hpos]
  · simp only [take_left, hdrop, hk.trim_eq]
  · rw [hfront]
    rintro (h | h)
    · simp at h
    · exact hhead.1 h

/-- The line of a field, which is only there when the field is not empty. -/
theorem LockParser.foldl_fieldLine (start key : String) (hstart : text start = text key ++ [61])
    (hk : Tidy (text key)) (hhead : (text key).head? ≠ some 35 ∧ (text key).head? ≠ some 91)
    (hnil : text key ≠ []) (heq : 61 ∉ text key) (hv : Tidy v)
    (hlen : (text start).length + v.length < 512) (hclear : d.set (text key) [] = d)
    {name version : Text} :
    (fieldLine start v).foldl LockParser.line ⟨name, version, ds ++ [d], .dep⟩ =
      ⟨name, version, ds ++ [d.set (text key) v], .dep⟩ := by
  rw [fieldLine]
  by_cases hpos : v.length > 0
  · rw [if_pos hpos, foldl_cons, foldl_nil, withPrefix_eq hlen, hstart, append_assoc]
    have hline := @LockParser.line_field ⟨name, version, ds ++ [d], .dep⟩ _ hk hhead hnil heq v
    rw [hv.trimEnd_eq, hv.trim_eq] at hline
    rw [singleton_append, hline]
    simp only [LockParser.set, modifyLast_concat]
  · rw [if_neg hpos]
    obtain rfl : v = [] := length_eq_zero_iff.mp (by omega)
    rw [hclear]
    rfl

/-- The header of an entry. -/
theorem LockParser.line_header :
    st.line (text "[dep." ++ e.name ++ text "]") =
      { st with deps := st.deps ++ [⟨e.name, [], [], [], []⟩], curSection := .dep } := by
  have hfront : (text "[dep." ++ e.name ++ text "]").head? = some 91 := rfl
  have hback : (text "[dep." ++ e.name ++ text "]").getLast? = some 93 :=
    getLast?_concat
  have hsec : ((text "[dep." ++ e.name ++ text "]").drop 1).dropLast = text "dep." ++ e.name :=
    @dropLast_concat _ (text "dep." ++ e.name) 93
  have hprefix : (text "dep.").isPrefixOf (text "dep." ++ e.name) = true := by
    rw [List.isPrefixOf_iff_prefix]
    exact prefix_append _ _
  have hother : text "dep." ++ e.name ≠ text "package" := fun heq =>
    absurd (congrArg List.head? heq) (by simp [text])
  rw [LockParser.line, (tidy_headerLine e.name).trim_eq, hfront, if_neg (by simp [text]),
    if_pos ⟨rfl, hback⟩, hsec, LockParser.header, if_neg hother, if_pos hprefix, drop_left]

/-- The lines of an entry add it to the dependencies. -/
theorem LockParser.foldl_entryLines (he : e.Plain) (hpath : e.path.length < 256)
    (hurl : e.url.length < 256) :
    (entryLines e).foldl LockParser.line st =
      { st with deps := st.deps ++ [e.dep], curSection := .dep } := by
  obtain ⟨hname, hversion, hsource, hsha, -, -⟩ := he.fits
  have htidy : ∀ s ∈ [e.name, e.version, e.source, e.sha, e.path, e.url], Tidy s :=
    fun s hs => (he.line s hs).2
  have hfirst : st.line [] = st := rfl
  have hv : (text "version=").length = 8 := by decide
  have hs : (text "source=").length = 7 := by decide
  have hh : (text "sha256=").length = 7 := by decide
  have hp : (text "path=").length = 5 := by decide
  have hu : (text "url=").length = 4 := by decide
  simp only [entryLines, foldl_append, foldl_cons, foldl_nil, hfirst,
    headerLine_eq hname, LockParser.line_header]
  rw [foldl_fieldLine "version=" "version" rfl (by decide) (by decide) (by decide)
      (by decide) (htidy _ (by simp)) (by omega) rfl,
    foldl_fieldLine "source=" "source" rfl (by decide) (by decide) (by decide)
      (by decide) (htidy _ (by simp)) (by omega) rfl,
    foldl_fieldLine "sha256=" "sha256" rfl (by decide) (by decide) (by decide)
      (by decide) (htidy _ (by simp)) (by omega) rfl,
    foldl_fieldLine "path=" "path" rfl (by decide) (by decide) (by decide)
      (by decide) (htidy _ (by simp)) (by omega) rfl,
    foldl_fieldLine "url=" "url" rfl (by decide) (by decide) (by decide)
      (by decide) (htidy _ (by simp)) (by omega) rfl]
  rfl

/-- The lines of several entries. -/
theorem LockParser.foldl_entries {es : List LockEntry}
    (hes : ∀ e ∈ es, e.Plain ∧ e.path.length < 256 ∧ e.url.length < 256) :
    ((es.flatMap entryLines).foldl LockParser.line st).packageName = st.packageName ∧
      ((es.flatMap entryLines).foldl LockParser.line st).deps =
        st.deps ++ es.map LockEntry.dep := by
  induction es generalizing st with
  | nil => simp
  | cons e es ih =>
    obtain ⟨he, hpath, hurl⟩ := hes e (mem_cons_self ..)
    have hrest := @ih { st with deps := st.deps ++ [e.dep], curSection := .dep }
      fun e' he' => hes e' (mem_cons_of_mem _ he')
    rw [flatMap_cons, foldl_append, foldl_entryLines he hpath hurl, hrest.1, hrest.2, append_assoc]
    exact ⟨rfl, rfl⟩

end Parse

/-! ## Both readers -/

section Readers

variable {t : LockTable} {name version : Text}

/-- A line that the readers get as it was written. -/
structure ReadAsWritten (l : Text) : Prop where
  line : newline ∉ l
  short : l.length + 2 ≤ 512
  strip : stripLast carriageReturn l = l

theorem readAsWritten_fieldLine {start : String} {v l : Text}
    (hstart : newline ∉ text start) (hv : newline ∉ v ∧ Tidy v)
    (hlen : (text start).length + v.length ≤ 510) (hl : l ∈ fieldLine start v) :
    ReadAsWritten l := by
  rw [fieldLine] at hl
  by_cases hpos : v.length > 0
  · rw [if_pos hpos, mem_singleton, withPrefix_eq (by omega)] at hl
    subst hl
    refine ⟨?_, ?_, stripLast_of_ne ?_⟩
    · rw [mem_append, not_or]
      exact ⟨hstart, hv.1⟩
    · rw [length_append]
      omega
    · rw [getLast?_append_of_ne_nil _ (length_pos_iff.mp hpos)]
      exact hv.2.getLast?_ne
  · rw [if_neg hpos] at hl
    cases hl

/-- The lines of an entry are read as they were written. -/
theorem readAsWritten_entryLines {e : LockEntry} (he : e.Plain) (hpath : e.path.length < 256)
    (hurl : e.url.length < 256) {l : Text} (hl : l ∈ entryLines e) : ReadAsWritten l := by
  obtain ⟨hname, hversion, hsource, hsha, -, -⟩ := he.fits
  have hline := he.line
  simp only [mem_cons, not_mem_nil, or_false, forall_eq_or_imp, forall_eq] at hline
  obtain ⟨hn, hv, hs, hh, hp, hu⟩ := hline
  have hlv : (text "version=").length = 8 := by decide
  have hls : (text "source=").length = 7 := by decide
  have hlh : (text "sha256=").length = 7 := by decide
  have hlp : (text "path=").length = 5 := by decide
  have hlu : (text "url=").length = 4 := by decide
  rw [entryLines, headerLine_eq hname] at hl
  simp only [mem_append, mem_cons, not_mem_nil, or_false] at hl
  rcases hl with (rfl | rfl) | (((hl | hl) | hl) | hl) | hl
  · exact ⟨by decide, by decide, rfl⟩
  · refine ⟨?_, ?_, (tidy_headerLine e.name).stripLast_eq⟩
    · rw [mem_append, mem_append, not_or, not_or]
      exact ⟨⟨by decide, hn.1⟩, by decide⟩
    · have hopen : (text "[dep.").length = 5 := by decide
      have hclose : (text "]").length = 1 := by decide
      rw [length_append, length_append]
      omega
  · exact readAsWritten_fieldLine (by decide) hv (by omega) hl
  · exact readAsWritten_fieldLine (by decide) hs (by omega) hl
  · exact readAsWritten_fieldLine (by decide) hh (by omega) hl
  · exact readAsWritten_fieldLine (by decide) hp (by omega) hl
  · exact readAsWritten_fieldLine (by decide) hu (by omega) hl

/-- A line that is no header does nothing outside of entries. -/
theorem readLockLine_noEntry {st : LockReader} {line : Text} (hdep : st.curDep = none)
    (hhead : line.head? ≠ some 91) : readLockLine st line = st := by
  rw [readLockLine]
  by_cases hempty : line.length = 0
  · rw [if_pos hempty]
  by_cases hcomment : line.head? = some 35
  · rw [if_neg hempty, if_pos hcomment]
  rw [if_neg hempty, if_neg hcomment, if_neg hhead]
  cases pos (text "=") line with
  | none => rfl
  | some eqPos =>
    simp only [hdep]
    split
    · rfl
    · rfl

/-- The lines of the package, as they are read. -/
theorem packageLines_strip (hname : name.length < 64) (hversion : version.length < 32) :
    (packageLines name version).map (stripLast carriageReturn) =
      [text "# m2.lock - generated by mxpkg resolve", [], text "[package]",
        text "name=" ++ stripLast carriageReturn name,
        text "version=" ++ stripLast carriageReturn version] := by
  have hn : (text "name=").length = 5 := by decide
  have hv : (text "version=").length = 8 := by decide
  rw [packageLines, withPrefix_eq (by omega), withPrefix_eq (by omega)]
  simp only [map_cons, map_nil]
  rw [stripLast_append (by decide), stripLast_append (by decide)]
  rfl

/-- The lines of the package leave the table as it is. -/
theorem foldl_packageLines (hname : name.length < 64) (hversion : version.length < 32)
    (old : LockTable) :
    ((packageLines name version).map (stripLast carriageReturn)).foldl readLockLine
      ⟨old, none, .none⟩ = ⟨old, none, .pkg⟩ := by
  have hfirst : readLockLine ⟨old, none, .none⟩ (text "# m2.lock - generated by mxpkg resolve") =
      ⟨old, none, .none⟩ := rfl
  have hnil : readLockLine ⟨old, none, .none⟩ [] = ⟨old, none, .none⟩ := rfl
  have hheader : readLockLine ⟨old, none, .none⟩ (text "[package]") = ⟨old, none, .pkg⟩ := rfl
  have hn : (text "name=" ++ stripLast carriageReturn name).head? = some 110 := rfl
  have hv : (text "version=" ++ stripLast carriageReturn version).head? = some 118 := rfl
  rw [packageLines_strip hname hversion]
  simp only [foldl_cons, foldl_nil, hfirst, hnil, hheader]
  rw [readLockLine_noEntry rfl (by rw [hv]; decide), readLockLine_noEntry rfl (by rw [hn]; decide)]

/-- The compiler reads the name of the package. -/
theorem LockParser.foldl_packageLines (hname : name.length < 64) (hversion : version.length < 32) :
    ((packageLines name version).map (stripLast carriageReturn)).foldl LockParser.line
      ⟨[], [], [], .none⟩ =
        ⟨trim (trimEnd (stripLast carriageReturn name)),
          trim (trimEnd (stripLast carriageReturn version)), [], .package⟩ := by
  have hfirst : ∀ st : LockParser,
      st.line (text "# m2.lock - generated by mxpkg resolve") = st := fun _ => rfl
  have hnil : ∀ st : LockParser, st.line [] = st := fun _ => rfl
  have hheader : ∀ st : LockParser, st.line (text "[package]") =
      { st with curSection := .package } := fun _ => rfl
  have hn : ∀ s, text "name=" ++ s = text "name" ++ 61 :: s := fun _ => rfl
  have hv : ∀ s, text "version=" ++ s = text "version" ++ 61 :: s := fun _ => rfl
  rw [packageLines_strip hname hversion]
  simp only [foldl_cons, foldl_nil]
  rw [hfirst, hnil, hheader, hn, hv,
    LockParser.line_field (by decide) (by decide) (by decide) (by decide),
    LockParser.line_field (by decide) (by decide) (by decide) (by decide)]
  rfl

end Readers

/-- Both readers, when the values fit. -/
theorem readers_writeEnhanced {t : LockTable} {name version : Text} (hcount : t.count ≤ maxLockDeps)
    (ht : ∀ e ∈ t.list, e.Plain ∧ e.path.length < 256 ∧ e.url.length < 256)
    (hname : name.length < 64 ∧ newline ∉ name)
    (hversion : version.length < 32 ∧ newline ∉ version) :
    (∀ old, (readLock old (writeEnhanced name version t)).list = t.list) ∧
      ∃ st : LockParser, (lines (writeEnhanced name version t)).foldl LockParser.line
          ⟨[], [], [], .none⟩ = st ∧
        st.packageName = trim (trimEnd (stripLast carriageReturn name)) ∧
        st.deps = t.list.map LockEntry.dep := by
  have hentries : ∀ l ∈ t.list.flatMap entryLines, ReadAsWritten l := by
    intro l hl
    obtain ⟨e, he, hle⟩ := mem_flatMap.mp hl
    obtain ⟨hplain, hpath, hurl⟩ := ht e he
    exact readAsWritten_entryLines hplain hpath hurl hle
  have hpackage : ∀ l ∈ packageLines name version, newline ∉ l ∧ l.length + 2 ≤ 512 := by
    intro l hl
    have hn : (text "name=").length = 5 := by decide
    have hv : (text "version=").length = 8 := by decide
    rw [packageLines, withPrefix_eq (by omega), withPrefix_eq (by omega)] at hl
    simp only [mem_cons, not_mem_nil, or_false] at hl
    rcases hl with rfl | rfl | rfl | rfl | rfl
    · exact ⟨by decide, by decide⟩
    · exact ⟨by decide, by decide⟩
    · exact ⟨by decide, by decide⟩
    · rw [mem_append, not_or, length_append]
      exact ⟨⟨by decide, hname.2⟩, by omega⟩
    · rw [mem_append, not_or, length_append]
      exact ⟨⟨by decide, hversion.2⟩, by omega⟩
  have hall : ∀ l ∈ packageLines name version ++ t.list.flatMap entryLines,
      newline ∉ l ∧ l.length + 2 ≤ 512 := by
    intro l hl
    rcases mem_append.mp hl with hfirst | hrest
    · exact hpackage l hfirst
    · exact ⟨(hentries l hrest).line, (hentries l hrest).short⟩
  have hstrip : (packageLines name version ++ t.list.flatMap entryLines).map
      (stripLast carriageReturn) = (packageLines name version).map (stripLast carriageReturn) ++
        t.list.flatMap entryLines := by
    rw [map_append]
    congr 1
    exact (map_congr_left fun l hl => (hentries l hl).strip).trans (map_id _)
  constructor
  · intro old
    rw [readLock, writeEnhanced, bufferLines_unlines hall, hstrip, foldl_append,
      foldl_packageLines hname.1 hversion.1, foldl_entries _ ht]
    · rfl
    · have hlen : t.list.length = t.count := by simp [LockTable.list]
      rw [hlen]
      simpa using hcount
  · refine ⟨_, rfl, ?_⟩
    rw [writeEnhanced, lines_unlines fun l hl => (hall l hl).1, hstrip, foldl_append,
      LockParser.foldl_packageLines hname.1 hversion.1]
    exact LockParser.foldl_entries ht

/-- The lock file survives exactly when paths and URLs have at most 255 bytes, and the name of
the package is not blank. -/
theorem lockRoundTrips_iff {t : LockTable} {name version : Text} (hcount : t.count ≤ maxLockDeps)
    (ht : ∀ e ∈ t.list, e.Plain) (hname : name.length < 64 ∧ newline ∉ name)
    (hversion : version.length < 32 ∧ newline ∉ version) :
    LockRoundTrips name version t ↔
      (∀ e ∈ t.list, e.path.length < 256 ∧ e.url.length < 256) ∧
        ¬ Blank name := by
  have hnamed : ¬ Blank name ↔ trim (trimEnd (stripLast carriageReturn name)) ≠ [] :=
    not_congr (trim_trimEnd_eq_nil_iff.trans (blank_stripLast name)).symm
  rw [hnamed]
  constructor
  · rintro ⟨hread, l, hparse, -⟩
    have hbounded : ∀ e ∈ t.list, e.path.length < 256 ∧ e.url.length < 256 := by
      intro e he
      rw [← hread t] at he
      exact readLock_list_bounded he
    refine ⟨hbounded, fun hnil => ?_⟩
    obtain ⟨-, st, hst, hpackage, -⟩ := readers_writeEnhanced hcount
      (fun e he => ⟨ht e he, hbounded e he⟩) hname hversion
    rw [parseLock, hst, if_pos (hpackage.trans hnil)] at hparse
    cases hparse
  · rintro ⟨hbounded, hne⟩
    obtain ⟨hread, st, hst, hpackage, hdeps⟩ := readers_writeEnhanced hcount
      (fun e he => ⟨ht e he, hbounded e he⟩) hname hversion
    refine ⟨hread, ⟨st.packageName, st.packageVersion, st.deps⟩, ?_, hdeps⟩
    rw [parseLock, hst, if_neg (by rw [hpackage]; exact hne)]

/-- A table with one local package. -/
def localTable (path : Text) : LockTable := ⟨1, fun _ => ⟨text "a", [], text "local", [], path, []⟩⟩

theorem localTable_plain {path : Text} (hpath : path.length < 512)
    (hline : newline ∉ path ∧ Tidy path) : ∀ e ∈ (localTable path).list, e.Plain := by
  intro e he
  obtain rfl : e = ⟨text "a", [], text "local", [], path, []⟩ := by
    simpa [LockTable.list, localTable] using he
  have hfits : (text "a").length < 64 ∧ (text "local").length < 16 ∧ text "a" ≠ [] := by decide
  refine ⟨⟨hfits.1, Nat.zero_lt_succ _, hfits.2.1, Nat.zero_lt_succ _, hpath, Nat.zero_lt_succ _⟩,
    hfits.2.2, ?_⟩
  simp only [mem_cons, not_mem_nil, or_false, forall_eq_or_imp, forall_eq]
  exact ⟨⟨by decide, by decide⟩, ⟨by decide, by decide⟩,
    ⟨by decide, by decide⟩, ⟨by decide, by decide⟩, hline,
    ⟨by decide, by decide⟩⟩

/-- A package in the directory next to this one. -/
theorem lockRoundTrips_nextTo :
    LockRoundTrips (text "app") (text "0.1.0") (localTable (text "../a")) := by
  refine (lockRoundTrips_iff (by decide)
    (localTable_plain (by decide) ⟨by decide, by decide⟩)
    ⟨by decide, by decide⟩ ⟨by decide, by decide⟩).mpr
    ⟨?_, fun h => absurd (trim_eq_nil_iff.mpr h) (by decide)⟩
  intro e he
  obtain rfl : e = ⟨text "a", [], text "local", [], text "../a", []⟩ := by
    simpa [LockTable.list, localTable] using he
  exact ⟨by decide, by decide⟩

/-- A path of 256 bytes. -/
def longPath : Text := List.replicate 256 97

theorem longPath_length : longPath.length = 256 := length_replicate

theorem longPath_line : newline ∉ longPath ∧ Tidy longPath := by
  have hall : ∀ c ∈ longPath, c = 97 := fun c hc => (mem_replicate.mp hc).2
  have hother : ∀ b ∈ blanks, ∃ c ∈ b, c ≠ 97 := by decide
  refine ⟨fun hc => absurd (hall _ hc) (by decide), fun b hb hpre => ?_, fun b hb hsuf => ?_⟩
  · obtain ⟨c, hc, hne⟩ := hother b hb
    exact hne (hall c (hpre.subset hc))
  · obtain ⟨c, hc, hne⟩ := hother b hb
    exact hne (hall c (hsuf.subset hc))

/-- A path of 256 bytes is cut off by `Read`. -/
theorem not_lockRoundTrips_longPath :
    ¬ ∀ (t : LockTable) (name version : Text), t.count ≤ maxLockDeps → (∀ e ∈ t.list, e.Plain) →
      name.length < 64 ∧ newline ∉ name ∧ name ≠ [] ∧ Tidy name →
      version.length < 32 ∧ newline ∉ version → LockRoundTrips name version t := by
  intro h
  obtain ⟨hread, -⟩ := h (localTable longPath) (text "app") (text "0.1.0") (by decide)
    (localTable_plain (by rw [longPath_length]; decide) longPath_line)
    ⟨by decide, by decide, by decide, by decide⟩ ⟨by decide, by decide⟩
  have hmem : (⟨text "a", [], text "local", [], longPath, []⟩ : LockEntry) ∈
      (readLock (localTable []) (writeEnhanced (text "app") (text "0.1.0")
        (localTable longPath))).list := by
    rw [hread]
    exact mem_singleton_self _
  have hlt : longPath.length < 256 := (readLock_list_bounded hmem).1
  rw [longPath_length] at hlt
  exact absurd hlt (lt_irrefl _)

end Mx.Pkg
