import Mx.Core.Strings

/-!
# The replay cache

`ReplayCacheCreate` and `ReplayCacheSeenOrAdd`. Ids are written round the ring of entries, whatever
the entry at the next slot holds; an id that is still unexpired is forgotten when it is overwritten.
-/

namespace Mx.Auth

open Strings List

/-! ## Types -/

/-- `Status`. -/
inductive Status where
  | ok
  | invalid
  | outOfMemory
  | verifyFailed
  | expired
  | notYetValid
  | badSignature
  | unsupported
  | denied
  deriving DecidableEq, Repr

/-- A `LONGINT`. -/
structure LongInt where
  val : Int
  ge : -9223372036854775808 ≤ val
  lt : val < 9223372036854775808
  deriving DecidableEq

/-- Zero. -/
def LongInt.zero : LongInt := ⟨0, by decide, by decide⟩

/-! ## Character arrays -/

/-- The string in a character array: it ends at the first NUL, or fills the array. -/
def stringIn (a : Text) : Text := a.takeWhile (· ≠ 0)

/-- `StrCopy`: what the second array holds afterwards. -/
def strCopy : Text → Text → Text
  | _, [] => []
  | [], _ :: dst => 0 :: dst
  | c :: src, _ :: dst => if c = 0 then 0 :: dst else c :: strCopy src dst

/-- `StrEqual`. -/
def strEqual : Text → Text → Bool
  | [], [] => true
  | [], d :: _ => d = 0
  | c :: _, [] => c = 0
  | c :: a, d :: b => if c ≠ 0 ∧ c = d then strEqual a b else c = 0 ∧ d = 0

theorem stringIn_cons (c : UInt8) (a : Text) :
    stringIn (c :: a) = if c = 0 then [] else c :: stringIn a := by
  by_cases h : c = 0
  · simp [stringIn, h]
  · simp [stringIn, h]

theorem length_strCopy (src dst : Text) : (strCopy src dst).length = dst.length := by
  induction src, dst using strCopy.induct with
  | case1 | case2 d dst | case3 src d dst => simp [strCopy]
  | case4 c src d dst hc ih => simp [strCopy, hc, ih]

/-- A copy is the string, cut where the array ends. -/
theorem stringIn_strCopy (src dst : Text) :
    stringIn (strCopy src dst) = (stringIn src).take dst.length := by
  induction src, dst using strCopy.induct with
  | case1 | case2 d dst => simp [strCopy, stringIn]
  | case3 src d dst => simp [strCopy, stringIn_cons]
  | case4 c src d dst hc ih => simp [strCopy, stringIn_cons, hc, ih]

theorem strEqual_iff (a b : Text) : strEqual a b = true ↔ stringIn a = stringIn b := by
  induction a, b using strEqual.induct with
  | case1 => simp [strEqual]
  | case2 d b =>
    by_cases hd : d = 0
    · simp [strEqual, hd, stringIn]
    · simp [strEqual, hd, stringIn]
  | case3 c a =>
    by_cases hc : c = 0
    · simp [strEqual, hc, stringIn]
    · simp [strEqual, hc, stringIn]
  | case4 c a d b h ih =>
    obtain ⟨hc, rfl⟩ := h
    simp [strEqual, stringIn_cons, hc, ih]
  | case5 c a d b h =>
    rw [strEqual, if_neg h]
    by_cases hc : c = 0
    · by_cases hd : d = 0
      · simp [stringIn_cons, hc, hd]
      · simp [stringIn_cons, hc, hd]
    · by_cases hd : d = 0
      · simp [stringIn_cons, hc, hd]
      · have hne : c ≠ d := fun he => h ⟨hc, he⟩
        simp [stringIn_cons, hc, hd, hne]

/-! ## The cache -/

/-- `MaxReplay`. -/
def maxReplay : Nat := 256

/-- `MaxJtiLen`. -/
def maxJtiLen : Nat := 63

/-- `ReplayEntry`. -/
structure ReplayEntry where
  jti : Text
  expUnix : LongInt
  used : Bool
  length_jti : jti.length = maxJtiLen + 1

/-- `ReplayCacheRec`. -/
structure ReplayCache where
  entries : List ReplayEntry
  count : Nat
  next : Nat
  length_entries : entries.length = maxReplay
  next_lt : next < maxReplay

/-- A call of `ReplayCacheSeenOrAdd`, with the time that the clock gives it. -/
structure ReplayCall where
  now : LongInt
  jti : Text
  expUnix : LongInt

/-- `ReplayCacheCreate`, on the memory that it was given. -/
def replayCacheCreate (memory : Fin maxReplay → ReplayEntry) : ReplayCache where
  entries := List.ofFn fun i =>
    { memory i with
      jti := strCopy [] (memory i).jti
      used := false
      length_jti := (length_strCopy _ _).trans (memory i).length_jti }
  count := 0
  next := 0
  length_entries := length_ofFn
  next_lt := by decide

/-- The scan: expired entries are evicted, up to the entry that has the id. -/
def replayScan (now : LongInt) (jti : Text) : List ReplayEntry → List ReplayEntry × Bool
  | [] => ([], false)
  | e :: es =>
    if e.used then
      if e.expUnix.val < now.val then
        (replayScan now jti es).map ({ e with used := false } :: ·) id
      else if strEqual e.jti jti then (e :: es, true)
      else (replayScan now jti es).map (e :: ·) id
    else (replayScan now jti es).map (e :: ·) id

/-- An entry to which an id is written. -/
def ReplayEntry.store (c : ReplayCall) (e : ReplayEntry) : ReplayEntry where
  jti := strCopy c.jti e.jti
  expUnix := c.expUnix
  used := true
  length_jti := (length_strCopy _ _).trans e.length_jti

theorem length_replayScan (now : LongInt) (jti : Text) (es : List ReplayEntry) :
    (replayScan now jti es).1.length = es.length := by
  induction es with
  | nil => rfl
  | cons e es ih =>
    rw [replayScan]
    split_ifs
    · simp [ih]
    · rfl
    · simp [ih]
    · simp [ih]

/-- `ReplayCacheSeenOrAdd`. -/
def ReplayCache.seenOrAdd (rc : ReplayCache) (c : ReplayCall) : Status × ReplayCache :=
  let scan := replayScan c.now c.jti rc.entries
  have hlength : scan.1.length = maxReplay :=
    (length_replayScan _ _ _).trans rc.length_entries
  if scan.2 then (.verifyFailed, { rc with entries := scan.1, length_entries := hlength })
  else
    (.ok,
      { entries := scan.1.modify rc.next (ReplayEntry.store c)
        count := if rc.count < maxReplay then rc.count + 1 else rc.count
        next := (rc.next + 1) % maxReplay
        length_entries := (length_modify _ _ _).trans hlength
        next_lt := Nat.mod_lt _ (by decide) })

/-! ## What the scan leaves -/

variable {jti : Text} {es : List ReplayEntry}

/-- An entry that is used after the scan was there before, at its place. -/
theorem replayScan_used {now : LongInt} {i : Nat}
    {e : ReplayEntry} (he : (replayScan now jti es).1[i]? = some e) (hused : e.used = true) :
    es[i]? = some e := by
  induction es generalizing i with
  | nil => exact he
  | cons d es ih =>
    rw [replayScan] at he
    split_ifs at he
    · cases i with
      | zero =>
        obtain rfl := Option.some.inj he
        cases hused
      | succ i => exact ih he
    · exact he
    · cases i with
      | zero => exact he
      | succ i => exact ih he
    · cases i with
      | zero => exact he
      | succ i => exact ih he

/-- An entry that is unexpired stays at its place. -/
theorem replayScan_live {now : LongInt} {i : Nat}
    {e : ReplayEntry} (he : es[i]? = some e) (hlive : now.val ≤ e.expUnix.val) :
    (replayScan now jti es).1[i]? = some e := by
  induction es generalizing i with
  | nil => exact he
  | cons d es ih =>
    rw [replayScan]
    split_ifs with _ hexpired
    · cases i with
      | zero =>
        obtain rfl := Option.some.inj he
        exact absurd hlive (Int.not_le.2 hexpired)
      | succ i => exact ih he
    · exact he
    · cases i with
      | zero => exact he
      | succ i => exact ih he
    · cases i with
      | zero => exact he
      | succ i => exact ih he

/-- An entry that a call finds: used, unexpired, and with its id. -/
structure ReplayEntry.Carries (e : ReplayEntry) (now : LongInt) (jti : Text) : Prop where
  used : e.used = true
  live : now.val ≤ e.expUnix.val
  same : stringIn e.jti = stringIn jti

/-- The scan finds the id exactly if an entry carries it. -/
theorem replayScan_found (now : LongInt) (jti : Text) (es : List ReplayEntry) :
    (replayScan now jti es).2 = true ↔ ∃ e ∈ es, e.Carries now jti := by
  induction es with
  | nil => simp [replayScan]
  | cons d es ih =>
    rw [replayScan, exists_mem_cons_iff]
    split_ifs with hused hexpired hsame
    · rw [or_iff_right fun h => absurd h.live (Int.not_le.2 hexpired)]
      exact ih
    · rw [strEqual_iff] at hsame
      exact iff_of_true rfl (Or.inl ⟨hused, Int.not_lt.1 hexpired, hsame⟩)
    · rw [strEqual_iff] at hsame
      rw [or_iff_right fun h => hsame h.same]
      exact ih
    · rw [or_iff_right fun h => hused h.used]
      exact ih

/-- A scan that finds nothing has evicted all that is expired. -/
theorem replayScan_unexpired {now : LongInt} (hfound : (replayScan now jti es).2 = false) :
    ∀ e ∈ (replayScan now jti es).1, e.used = true → now.val ≤ e.expUnix.val := by
  induction es with
  | nil =>
    intro e he
    cases he
  | cons d es ih =>
    rw [replayScan] at hfound ⊢
    split_ifs at hfound ⊢ with hused hexpired
    · rintro e (_ | ⟨_, he⟩) hu
      · cases hu
      · exact ih hfound e he hu
    · rintro e (_ | ⟨_, he⟩) hu
      · exact Int.not_lt.1 hexpired
      · exact ih hfound e he hu
    · rintro e (_ | ⟨_, he⟩) hu
      · exact absurd hu hused
      · exact ih hfound e he hu

/-! ## What a call does -/

namespace ReplayCache

/-- An entry of the cache carries the id of a call. -/
def Knows (rc : ReplayCache) (c : ReplayCall) : Prop := ∃ e ∈ rc.entries, e.Carries c.now c.jti

variable {rc : ReplayCache} {c : ReplayCall}

/-- A call whose id is known is refused, and only evicts. -/
theorem seenOrAdd_of_knows (h : rc.Knows c) : (rc.seenOrAdd c).1 = .verifyFailed ∧
      (rc.seenOrAdd c).2.entries = (replayScan c.now c.jti rc.entries).1 := by
  have hfound := (replayScan_found c.now c.jti rc.entries).2 h
  rw [seenOrAdd]
  simp only [hfound, if_true, and_self]

/-- The scan finds nothing for a call whose id is not known. -/
theorem replayScan_of_not_knows (h : ¬ rc.Knows c) :
    (replayScan c.now c.jti rc.entries).2 = false := by
  rw [← Bool.not_eq_true, replayScan_found]
  exact h

/-- A call whose id is not known is accepted, and its id is written to the next slot. -/
theorem seenOrAdd_of_not_knows (h : ¬ rc.Knows c) : (rc.seenOrAdd c).1 = .ok ∧
      (rc.seenOrAdd c).2.entries =
        (replayScan c.now c.jti rc.entries).1.modify rc.next (ReplayEntry.store c) := by
  rw [seenOrAdd]
  simp only [replayScan_of_not_knows h, Bool.false_eq_true, if_false, and_self]

theorem seenOrAdd_ok_iff : (rc.seenOrAdd c).1 = .ok ↔ ¬ rc.Knows c := by
  constructor
  · intro hok h
    rw [(seenOrAdd_of_knows h).1] at hok
    cases hok
  · intro h
    exact (seenOrAdd_of_not_knows h).1

/-- The slot that the next id is written to. -/
theorem exists_next (rc : ReplayCache) (c : ReplayCall) :
    ∃ e, (replayScan c.now c.jti rc.entries).1[rc.next]? = some e := by
  refine ⟨_, getElem?_eq_getElem ?_⟩
  rw [length_replayScan, rc.length_entries]
  exact rc.next_lt

/-! ## Runs -/

/-- The cache after some calls. -/
def after (rc : ReplayCache) (calls : List ReplayCall) : ReplayCache :=
  calls.foldl (fun rc c => (rc.seenOrAdd c).2) rc

/-- The calls that were answered with `OK`. -/
def accepted : ReplayCache → List ReplayCall → List ReplayCall
  | _, [] => []
  | rc, c :: calls =>
    if (rc.seenOrAdd c).1 = .ok then c :: accepted (rc.seenOrAdd c).2 calls
    else accepted (rc.seenOrAdd c).2 calls

theorem after_concat (rc : ReplayCache) (calls : List ReplayCall) (c : ReplayCall) :
    rc.after (calls ++ [c]) = ((rc.after calls).seenOrAdd c).2 := by
  rw [after, foldl_append]
  rfl

theorem accepted_concat (rc : ReplayCache) (calls : List ReplayCall) (c : ReplayCall) :
    rc.accepted (calls ++ [c]) =
      if ((rc.after calls).seenOrAdd c).1 = .ok then rc.accepted calls ++ [c]
      else rc.accepted calls := by
  induction calls generalizing rc with
  | nil =>
    show rc.accepted [c] = _
    rw [accepted]
    rfl
  | cons d calls ih =>
    rw [cons_append, accepted, accepted, ih]
    show _ = if ((after (rc.seenOrAdd d).2 calls).seenOrAdd c).1 = .ok then _ else _
    split_ifs
    · rfl
    · rfl
    · rfl
    · rfl

theorem accepted_sublist (rc : ReplayCache) (calls : List ReplayCall) :
    (rc.accepted calls).Sublist calls := by
  induction calls generalizing rc with
  | nil => exact List.Sublist.refl _
  | cons c calls ih =>
    rw [accepted]
    split_ifs
    · exact (ih _).cons_cons c
    · exact (ih _).cons c

end ReplayCache

/-- The clock does not go back. -/
def Timely (calls : List ReplayCall) : Prop :=
  calls.Pairwise fun c d => c.now.val ≤ d.now.val

/-- The id of a call fits in an entry. -/
def ReplayCall.Fits (c : ReplayCall) : Prop := (stringIn c.jti).length ≤ maxJtiLen + 1

/-- A call answers what the ids accepted before it demand. -/
structure ReplayCache.Answers (rc : ReplayCache) (before : List ReplayCall) (c : ReplayCall) :
    Prop where
  replayed : ∀ d ∈ rc.accepted before, stringIn d.jti = stringIn c.jti →
    c.now.val ≤ d.expUnix.val → ((rc.after before).seenOrAdd c).1 = .verifyFailed
  fresh : (∀ d ∈ rc.accepted before, stringIn d.jti = stringIn c.jti →
    d.expUnix.val < c.now.val) → ((rc.after before).seenOrAdd c).1 = .ok

/-- The slot at which a new id is written holds none that is unexpired. -/
def ReplayCache.SlotFree (rc : ReplayCache) (c : ReplayCall) : Prop :=
  ¬ rc.Knows c → ∀ e, rc.entries[rc.next]? = some e → e.used = true →
    e.expUnix.val < c.now.val

/-! ## What the cache remembers -/

/-- The used entries are ids that were accepted, each one once. -/
structure ReplayCache.Faithful (accepted : List ReplayCall) (rc : ReplayCache) : Prop where
  accepted_of : ∀ e ∈ rc.entries, e.used = true →
    ∃ c ∈ accepted, stringIn c.jti = stringIn e.jti ∧ c.expUnix = e.expUnix
  distinct : ∀ (i j : Nat) (d e : ReplayEntry), rc.entries[i]? = some d →
    rc.entries[j]? = some e → d.used = true → e.used = true → stringIn d.jti = stringIn e.jti →
    i = j

/-- Every accepted id that can still be replayed has its entry. -/
def ReplayCache.Complete (accepted calls : List ReplayCall) (rc : ReplayCache) : Prop :=
  ∀ c ∈ accepted, (∀ d ∈ calls, d.now.val ≤ c.expUnix.val) →
    ∃ e ∈ rc.entries, e.used = true ∧ stringIn e.jti = stringIn c.jti ∧ e.expUnix = c.expUnix

theorem ReplayEntry.stringIn_store {c : ReplayCall} (hfits : c.Fits) (e : ReplayEntry) :
    stringIn (e.store c).jti = stringIn c.jti := by
  show stringIn (strCopy c.jti e.jti) = _
  rw [stringIn_strCopy, e.length_jti]
  exact take_of_length_le hfits

/-- A new cache has no used entry. -/
theorem replayCacheCreate_unused (memory : Fin maxReplay → ReplayEntry) :
    ∀ e ∈ (replayCacheCreate memory).entries, e.used = false := by
  intro e he
  simp only [replayCacheCreate, mem_ofFn] at he
  obtain ⟨i, hi⟩ := he
  rw [← hi]

theorem ReplayCache.Faithful.create (memory : Fin maxReplay → ReplayEntry) :
    Faithful [] (replayCacheCreate memory) := by
  constructor
  · intro e he hused
    rw [replayCacheCreate_unused memory e he] at hused
    cases hused
  · intro i j d e hi _ hused
    rw [replayCacheCreate_unused memory d (mem_of_getElem? hi)] at hused
    cases hused

namespace ReplayCache

variable {rc : ReplayCache} {c : ReplayCall} {accepted calls : List ReplayCall}

/-- A refused call leaves the cache faithful. -/
theorem Faithful.refuse (h : Faithful accepted rc) (hknows : rc.Knows c) :
    Faithful accepted (rc.seenOrAdd c).2 := by
  have hentries := (seenOrAdd_of_knows hknows).2
  constructor
  · intro e he hused
    rw [hentries] at he
    obtain ⟨i, hi⟩ := mem_iff_getElem?.1 he
    exact h.accepted_of e (mem_of_getElem? (replayScan_used hi hused)) hused
  · intro i j d e hi hj hd he
    rw [hentries] at hi hj
    exact h.distinct i j d e (replayScan_used hi hd) (replayScan_used hj he) hd he

/-- After a scan that found nothing, no used entry has the id. -/
theorem ne_of_not_knows (hknows : ¬ rc.Knows c) {i : Nat} {e : ReplayEntry}
    (hi : (replayScan c.now c.jti rc.entries).1[i]? = some e) (hused : e.used = true) :
    stringIn e.jti ≠ stringIn c.jti := by
  intro hsame
  have hlive := replayScan_unexpired (replayScan_of_not_knows hknows) e (mem_of_getElem? hi) hused
  exact hknows ⟨e, mem_of_getElem? (replayScan_used hi hused), hused, hlive, hsame⟩

/-- The entries after an accepted call: the new one at the next slot, the scanned ones elsewhere. -/
theorem entries_accept (hknows : ¬ rc.Knows c) (i : Nat) :
    (rc.seenOrAdd c).2.entries[i]? =
      if rc.next = i then ((replayScan c.now c.jti rc.entries).1[i]?).map (ReplayEntry.store c)
      else (replayScan c.now c.jti rc.entries).1[i]? := by
  rw [(seenOrAdd_of_not_knows hknows).2]
  by_cases h : rc.next = i
  · rw [if_pos h, h, getElem?_modify_eq]
    rfl
  · rw [if_neg h, getElem?_modify_ne _ _ h]

theorem next_accept (hknows : ¬ rc.Knows c) :
    (rc.seenOrAdd c).2.next = (rc.next + 1) % maxReplay := by
  rw [seenOrAdd]
  simp only [replayScan_of_not_knows hknows, Bool.false_eq_true, if_false]

/-- An accepted call that fits leaves the cache faithful. -/
theorem Faithful.accept (h : Faithful accepted rc) (hknows : ¬ rc.Knows c) (hfits : c.Fits) :
    Faithful (accepted ++ [c]) (rc.seenOrAdd c).2 := by
  have hold : ∀ {i : Nat} {e : ReplayEntry}, rc.next ≠ i →
      (rc.seenOrAdd c).2.entries[i]? = some e →
      (replayScan c.now c.jti rc.entries).1[i]? = some e := by
    intro i e hne he
    rw [entries_accept hknows, if_neg hne] at he
    exact he
  have hnew : ∀ {e : ReplayEntry}, (rc.seenOrAdd c).2.entries[rc.next]? = some e →
      stringIn e.jti = stringIn c.jti ∧ e.expUnix = c.expUnix := by
    intro e he
    rw [entries_accept hknows, if_pos rfl, Option.map_eq_some_iff] at he
    obtain ⟨d, -, rfl⟩ := he
    exact ⟨ReplayEntry.stringIn_store hfits d, rfl⟩
  constructor
  · intro e he hused
    obtain ⟨i, hi⟩ := mem_iff_getElem?.1 he
    by_cases hne : rc.next = i
    · subst hne
      obtain ⟨hsame, hexp⟩ := hnew hi
      exact ⟨c, mem_append_right _ (mem_singleton_self c), hsame.symm, hexp.symm⟩
    · obtain ⟨d, hd, hsame⟩ :=
        h.accepted_of e (mem_of_getElem? (replayScan_used (hold hne hi) hused)) hused
      exact ⟨d, mem_append_left _ hd, hsame⟩
  · intro i j d e hi hj hd he hsame
    by_cases hin : rc.next = i
    · by_cases hjn : rc.next = j
      · exact hin.symm.trans hjn
      · subst hin
        exact absurd (hsame.symm.trans (hnew hi).1) (ne_of_not_knows hknows (hold hjn hj) he)
    · by_cases hjn : rc.next = j
      · subst hjn
        exact absurd (hsame.trans (hnew hj).1) (ne_of_not_knows hknows (hold hin hi) hd)
      · exact h.distinct i j d e (replayScan_used (hold hin hi) hd)
          (replayScan_used (hold hjn hj) he) hd he hsame

/-- A refused call forgets nothing that can be replayed. -/
theorem Complete.refuse (h : Complete accepted calls rc) (hknows : rc.Knows c) :
    Complete accepted (calls ++ [c]) (rc.seenOrAdd c).2 := by
  intro d hd hlive
  obtain ⟨e, he, hused, hsame, hexp⟩ :=
    h d hd fun b hb => hlive b (mem_append_left _ hb)
  obtain ⟨i, hi⟩ := mem_iff_getElem?.1 he
  have hnow : c.now.val ≤ e.expUnix.val := by
    rw [hexp]
    exact hlive c (mem_append_right _ (mem_singleton_self c))
  refine ⟨e, ?_, hused, hsame, hexp⟩
  rw [(seenOrAdd_of_knows hknows).2]
  exact mem_of_getElem? (replayScan_live hi hnow)

/-- An accepted call forgets nothing that can be replayed if its slot is free. -/
theorem Complete.accept (h : Complete accepted calls rc) (hknows : ¬ rc.Knows c) (hfits : c.Fits)
    (hfree : rc.SlotFree c) : Complete (accepted ++ [c]) (calls ++ [c]) (rc.seenOrAdd c).2 := by
  intro d hd hlive
  have hdc := hlive c (mem_append_right _ (mem_singleton_self c))
  rcases mem_append.1 hd with hd | hd
  · obtain ⟨e, he, hused, hsame, hexp⟩ :=
      h d hd fun b hb => hlive b (mem_append_left _ hb)
    obtain ⟨i, hi⟩ := mem_iff_getElem?.1 he
    have hnow : c.now.val ≤ e.expUnix.val := by rwa [hexp]
    have hne : rc.next ≠ i := by
      rintro rfl
      exact absurd hnow (Int.not_le.2 (hfree hknows e hi hused))
    refine ⟨e, ?_, hused, hsame, hexp⟩
    apply mem_of_getElem?
    rw [entries_accept hknows, if_neg hne]
    exact replayScan_live hi hnow
  · obtain rfl := mem_singleton.1 hd
    obtain ⟨e, he⟩ := rc.exists_next d
    refine ⟨e.store d, ?_, rfl, ReplayEntry.stringIn_store hfits e, rfl⟩
    apply mem_of_getElem?
    rw [entries_accept hknows, if_pos rfl, he]
    rfl

/-- In every run of ids that fit, the used entries are accepted ids. -/
theorem faithful_after (memory : Fin maxReplay → ReplayEntry) (calls : List ReplayCall)
    (hfits : ∀ c ∈ calls, c.Fits) :
    Faithful ((replayCacheCreate memory).accepted calls)
      ((replayCacheCreate memory).after calls) := by
  induction calls using List.reverseRecOn with
  | nil => exact Faithful.create memory
  | append_singleton calls c ih =>
    have h := ih fun d hd => hfits d (mem_append_left _ hd)
    rw [after_concat, accepted_concat]
    by_cases hknows : ((replayCacheCreate memory).after calls).Knows c
    · rw [if_neg fun hok => seenOrAdd_ok_iff.1 hok hknows]
      exact h.refuse hknows
    · rw [if_pos (seenOrAdd_ok_iff.2 hknows)]
      exact h.accept hknows (hfits c (mem_append_right _ (mem_singleton_self c)))

/-- In a run that finds every slot free, all that can be replayed is remembered. -/
theorem complete_after (memory : Fin maxReplay → ReplayEntry) (calls : List ReplayCall)
    (hfits : ∀ c ∈ calls, c.Fits)
    (hfree : ∀ before c, before ++ [c] <+: calls →
      ((replayCacheCreate memory).after before).SlotFree c) :
    Complete ((replayCacheCreate memory).accepted calls) calls
      ((replayCacheCreate memory).after calls) := by
  induction calls using List.reverseRecOn with
  | nil =>
    intro c hc
    cases hc
  | append_singleton calls c ih =>
    have h := ih (fun d hd => hfits d (mem_append_left _ hd))
      fun before d hp => hfree before d (hp.trans (prefix_append _ _))
    rw [after_concat, accepted_concat]
    by_cases hknows : ((replayCacheCreate memory).after calls).Knows c
    · rw [if_neg fun hok => seenOrAdd_ok_iff.1 hok hknows]
      exact h.refuse hknows
    · rw [if_pos (seenOrAdd_ok_iff.2 hknows)]
      exact h.accept hknows (hfits c (mem_append_right _ (mem_singleton_self c)))
        (hfree calls c (prefix_refl _))

/-- A new id that overwrites an unexpired one lets it be replayed. -/
theorem not_knows_overwritten {memory : Fin maxReplay → ReplayEntry} {calls : List ReplayCall}
    (hfits : ∀ d ∈ calls ++ [c], d.Fits)
    (hknows : ¬ ((replayCacheCreate memory).after calls).Knows c) {e : ReplayEntry}
    (he : ((replayCacheCreate memory).after calls).entries[
      ((replayCacheCreate memory).after calls).next]? = some e) (hused : e.used = true)
    (hlive : c.now.val ≤ e.expUnix.val) {k : ReplayCall}
    (hid : stringIn e.jti = stringIn k.jti) :
    ¬ ((replayCacheCreate memory).after (calls ++ [c])).Knows k := by
  have hfaithful := faithful_after memory calls fun d hd => hfits d (mem_append_left _ hd)
  have hc := hfits c (mem_append_right _ (mem_singleton_self c))
  have hold : (replayScan c.now c.jti ((replayCacheCreate memory).after calls).entries).1[
      ((replayCacheCreate memory).after calls).next]? = some e := replayScan_live he hlive
  rintro ⟨d, hd, hfound⟩
  rw [after_concat] at hd
  obtain ⟨i, hi⟩ := mem_iff_getElem?.1 hd
  rw [entries_accept hknows] at hi
  by_cases hn : ((replayCacheCreate memory).after calls).next = i
  · subst hn
    rw [if_pos rfl, Option.map_eq_some_iff] at hi
    obtain ⟨b, -, rfl⟩ := hi
    have hsame := hfound.same
    rw [ReplayEntry.stringIn_store hc] at hsame
    exact ne_of_not_knows hknows hold hused (hid.trans hsame.symm)
  · rw [if_neg hn] at hi
    exact hn (hfaithful.distinct _ _ e d he (replayScan_used hi hfound.used) hused hfound.used
      (hid.trans hfound.same.symm))

/-- There are never more unexpired ids than entries. -/
def FewLive (rc : ReplayCache) (calls : List ReplayCall) : Prop :=
  ∀ before c, before ++ [c] <+: calls →
    ((rc.accepted (before ++ [c])).filter fun d => c.now.val ≤ d.expUnix.val).length ≤ maxReplay

end ReplayCache

open ReplayCache

/-- **The replay cache.** After every part of a run each call is answered as the accepted ids
demand, if and only if every new id of the run found its slot without an unexpired one. -/
theorem replay_answers_iff (memory : Fin maxReplay → ReplayEntry) (calls : List ReplayCall)
    (hfits : ∀ c ∈ calls, c.Fits) (htimely : Timely calls) :
    (∀ before c, before <+: calls → Timely (before ++ [c]) → c.Fits →
      (replayCacheCreate memory).Answers before c) ↔
      ∀ before c, before ++ [c] <+: calls →
        ((replayCacheCreate memory).after before).SlotFree c := by
  constructor
  · intro hanswers before c hp hknows e he hused
    by_contra hlive
    have hlive := Int.not_lt.1 hlive
    have hsub := hp.sublist.subset
    have hfaithful := faithful_after memory before fun d hd =>
      hfits d (hsub (mem_append_left _ hd))
    obtain ⟨d, hd, hsame, hexp⟩ := hfaithful.accepted_of e (mem_of_getElem? he) hused
    have hagain : Timely (before ++ [c] ++ [⟨c.now, e.jti, c.expUnix⟩]) := by
      have hrun : Timely (before ++ [c]) := List.Pairwise.sublist hp.sublist htimely
      refine pairwise_append.2 ⟨hrun, pairwise_singleton _ _, ?_⟩
      intro a ha b hb
      rw [mem_singleton.1 hb]
      rcases mem_append.1 ha with ha | ha
      · exact (pairwise_append.1 hrun).2.2 a ha c (mem_singleton_self c)
      · obtain rfl := mem_singleton.1 ha
        exact Int.le_refl _
    have hfit : ReplayCall.Fits ⟨c.now, e.jti, c.expUnix⟩ :=
      (takeWhile_sublist _).length_le.trans e.length_jti.le
    have hmem : d ∈ (replayCacheCreate memory).accepted (before ++ [c]) := by
      rw [accepted_concat, if_pos (seenOrAdd_ok_iff.2 hknows)]
      exact mem_append_left _ hd
    have hrefused := (hanswers _ _ hp hagain hfit).replayed d hmem hsame (by rwa [hexp])
    have hunknown := not_knows_overwritten (fun d hd => hfits d (hsub hd)) hknows he hused hlive
      (k := ⟨c.now, e.jti, c.expUnix⟩) rfl
    rw [seenOrAdd_ok_iff.2 hunknown] at hrefused
    cases hrefused
  · intro hfree before c hp htime hfit
    have hbefore : ∀ d ∈ before, d.Fits := fun d hd => hfits d (hp.sublist.subset hd)
    constructor
    · intro d hd hsame hlive
      have hlast : ∀ b ∈ before, b.now.val ≤ d.expUnix.val := by
        intro b hb
        have h := (pairwise_append.1 htime).2.2 b hb c (mem_singleton_self c)
        exact Int.le_trans h hlive
      obtain ⟨e, he, hused, hid, hexp⟩ := complete_after memory before hbefore
        (fun b k hk => hfree b k (hk.trans hp)) d hd hlast
      exact (seenOrAdd_of_knows ⟨e, he, hused, by rwa [hexp], hid.trans hsame⟩).1
    · intro hnone
      rw [seenOrAdd_ok_iff]
      rintro ⟨e, he, hfound⟩
      obtain ⟨d, hd, hid, hexp⟩ :=
        (faithful_after memory before hbefore).accepted_of e he hfound.used
      have hexpired := hnone d hd (hid.trans hfound.same)
      rw [hexp] at hexpired
      exact absurd hfound.live (Int.not_le.2 hexpired)

/-- Memory that is all zero. -/
def zeroMemory : Fin maxReplay → ReplayEntry := fun _ =>
  ⟨List.replicate (maxJtiLen + 1) 0, .zero, false, length_replicate⟩

/-- A call at an early time, with an id and an expiry. -/
def replayCallAt (now : Fin 1024) (jti : Text) (expUnix : Fin 1024) : ReplayCall where
  now := ⟨now.val, by omega, by omega⟩
  jti := jti
  expUnix := ⟨expUnix.val, by omega, by omega⟩

theorem replay_answers_iff_twice :
    (replayCacheCreate zeroMemory).Answers [replayCallAt 5 (text "id") 9]
      (replayCallAt 9 (text "id") 9) := by
  have hfits : ∀ c ∈ [replayCallAt 5 (text "id") 9], c.Fits := by
    intro c hc
    rw [mem_singleton.1 hc]
    show (stringIn (text "id")).length ≤ _
    decide +kernel
  refine (replay_answers_iff zeroMemory _ hfits (pairwise_singleton _ _)).2 ?_ _ _
    (prefix_refl _) ?_ ?_
  · intro before c hp _ e he hused
    obtain ⟨rfl, rfl⟩ : before = [] ∧ c = replayCallAt 5 (text "id") 9 := by
      have hlength := hp.length_le
      rw [length_append, length_singleton, length_singleton] at hlength
      obtain rfl := length_eq_zero_iff.1 (show before.length = 0 by omega)
      exact ⟨rfl, by simpa using hp⟩
    rw [replayCacheCreate_unused zeroMemory e (mem_of_getElem? he)] at hused
    cases hused
  · simp only [Timely, singleton_append, pairwise_pair]
    decide +kernel
  · show (stringIn (text "id")).length ≤ _
    decide +kernel

/-- A call with an id that lives long. -/
def longLived : ReplayCall := replayCallAt 0 (text "first") 1000

/-- A call with an id that expires at once. -/
def shortLived (i : Nat) : ReplayCall :=
  replayCallAt (.ofNat 1024 (i + 1)) [UInt8.ofNat (i % 255 + 1)] (.ofNat 1024 (i + 1))

/-- One id that lives long, and some that expire at once. -/
def mixedLives (n : Nat) : List ReplayCall := longLived :: (List.range n).map shortLived

/-- The first slot holds the id that lives long, and the others none that still lives. -/
structure HoldsFirst (n : Nat) (rc : ReplayCache) : Prop where
  next : rc.next = (n + 1) % maxReplay
  first : ∃ e, rc.entries[0]? = some e ∧ e.used = true ∧ stringIn e.jti = text "first" ∧
    e.expUnix.val = 1000
  others : ∀ e ∈ rc.entries, e.used = true → (n : Int) < e.expUnix.val →
    stringIn e.jti = text "first"

variable {rc : ReplayCache}

theorem HoldsFirst.start (hnext : rc.next = 0)
    (hunused : ∀ e ∈ rc.entries, e.used = false) : HoldsFirst 0 (rc.seenOrAdd longLived).2 := by
  have hunknown : ¬ rc.Knows longLived := by
    rintro ⟨e, he, hfound⟩
    have hused := hfound.used
    rw [hunused e he] at hused
    cases hused
  have hentries := entries_accept hunknown
  have hfits : longLived.Fits := by
    show (stringIn (text "first")).length ≤ _
    decide +kernel
  obtain ⟨e, he⟩ := rc.exists_next longLived
  constructor
  · rw [next_accept hunknown, hnext]
  · refine ⟨e.store longLived, ?_, rfl, ReplayEntry.stringIn_store hfits e, rfl⟩
    rw [hentries, if_pos hnext, ← hnext, he]
    rfl
  · intro d hd hused _
    obtain ⟨i, hi⟩ := mem_iff_getElem?.1 hd
    rw [hentries] at hi
    split_ifs at hi
    · rw [Option.map_eq_some_iff] at hi
      obtain ⟨b, -, rfl⟩ := hi
      exact ReplayEntry.stringIn_store hfits b
    · rw [hunused d (mem_of_getElem? (replayScan_used hi hused))] at hused
      cases hused

example : maxJtiLen < maxReplay := by decide +kernel

theorem mixedLives_succ (n : Nat) : mixedLives (n + 1) = mixedLives n ++ [shortLived n] := by
  rw [mixedLives, range_succ, map_append]
  rfl

variable {n : Nat}

theorem shortLived_val (hn : n < maxReplay) :
    (shortLived n).now.val = n + 1 ∧ (shortLived n).expUnix.val = n + 1 := by
  rw [maxReplay] at hn
  have hval : (n + 1) % 1024 = n + 1 := Nat.mod_eq_of_lt (by omega)
  constructor
  · show (((n + 1) % 1024 : Nat) : Int) = n + 1
    rw [hval]
    rfl
  · show (((n + 1) % 1024 : Nat) : Int) = n + 1
    rw [hval]
    rfl

/-- An id of one byte is not the first one. -/
theorem HoldsFirst.not_knows (h : HoldsFirst n rc)
    (hn : n < maxReplay) : ¬ rc.Knows (shortLived n) := by
  rintro ⟨e, he, hfound⟩
  have hlive := hfound.live
  rw [(shortLived_val hn).1] at hlive
  have hid := (h.others e he hfound.used (by omega)).symm.trans hfound.same
  have hlength := congrArg List.length hid
  have hshort : (stringIn (shortLived n).jti).length ≤ 1 := (takeWhile_sublist _).length_le
  rw [← hlength] at hshort
  exact absurd hshort (by decide +kernel)

theorem HoldsFirst.fill (h : HoldsFirst n rc)
    (hn : n + 1 < maxReplay) : HoldsFirst (n + 1) (rc.seenOrAdd (shortLived n)).2 := by
  have hunknown := h.not_knows (by omega)
  obtain ⟨hnow, hexpiry⟩ := shortLived_val (Nat.lt_of_succ_lt hn)
  have hentries := entries_accept hunknown
  have hnext : rc.next = n + 1 := h.next.trans (Nat.mod_eq_of_lt hn)
  constructor
  · rw [next_accept hunknown, hnext]
  · obtain ⟨e, he, hused, hid, hexp⟩ := h.first
    refine ⟨e, ?_, hused, hid, hexp⟩
    rw [hentries, if_neg (by omega)]
    refine replayScan_live he ?_
    rw [maxReplay] at hn
    rw [hnow, hexp]
    omega
  · intro d hd hused hlive
    obtain ⟨i, hi⟩ := mem_iff_getElem?.1 hd
    rw [hentries] at hi
    split_ifs at hi
    · rw [Option.map_eq_some_iff] at hi
      obtain ⟨b, -, rfl⟩ := hi
      have hstored : (b.store (shortLived n)).expUnix.val = n + 1 := hexpiry
      rw [hstored] at hlive
      push_cast at hlive
      omega
    · push_cast at hlive
      exact h.others d (mem_of_getElem? (replayScan_used hi hused)) hused (by omega)

/-- The ids that expire at once fill the slots behind the first one. -/
theorem holdsFirst_after (hn : n < maxReplay) :
    HoldsFirst n ((replayCacheCreate zeroMemory).after (mixedLives n)) := by
  induction n with
  | zero => exact HoldsFirst.start rfl (replayCacheCreate_unused zeroMemory)
  | succ n ih =>
    rw [mixedLives_succ, after_concat]
    exact (ih (by omega)).fill hn

theorem not_replay_answers :
    ¬ ∀ (memory : Fin maxReplay → ReplayEntry) (calls : List ReplayCall) (c : ReplayCall),
      Timely (calls ++ [c]) → (∀ d ∈ calls ++ [c], d.Fits) →
      (replayCacheCreate memory).FewLive (calls ++ [c]) →
      (replayCacheCreate memory).Answers calls c := by
  intro h
  have hfits : ∀ d ∈ mixedLives 256 ++ [replayCallAt 256 (text "first") 1000], d.Fits := by
    show ∀ d ∈ mixedLives 256 ++ _, (stringIn (ReplayCall.jti d)).length ≤ _
    decide +kernel
  have hanswers := h zeroMemory (mixedLives 256) (replayCallAt 256 (text "first") 1000) ?_ hfits ?_
  · have hrefused := hanswers.replayed longLived ?_ rfl ?_
    · have hfirst := holdsFirst_after (show 255 < maxReplay by decide)
      obtain ⟨e, he, hused, hid, hexp⟩ := hfirst.first
      have hslot : ((replayCacheCreate zeroMemory).after (mixedLives 255)).next = 0 := hfirst.next
      rw [← hslot] at he
      have hlive : (shortLived 255).now.val ≤ e.expUnix.val := by
        rw [hexp]
        decide
      have hrun : ∀ d ∈ mixedLives 255 ++ [shortLived 255], d.Fits := by
        intro d hd
        rw [← mixedLives_succ] at hd
        exact hfits d (mem_append_left _ hd)
      have hunknown := not_knows_overwritten hrun (hfirst.not_knows (by decide)) he hused hlive
        (k := replayCallAt 256 (text "first") 1000) hid
      rw [← mixedLives_succ] at hunknown
      rw [seenOrAdd_ok_iff.2 hunknown] at hrefused
      cases hrefused
    · rw [mixedLives, accepted, if_pos (by decide +kernel)]
      exact mem_cons_self
    · decide +kernel
  · have hchain : List.IsChain (fun c d : ReplayCall => c.now.val ≤ d.now.val)
        (mixedLives 256 ++ [replayCallAt 256 (text "first") 1000]) := by decide +kernel
    have : Trans (fun c d : ReplayCall => c.now.val ≤ d.now.val)
        (fun c d : ReplayCall => c.now.val ≤ d.now.val)
        (fun c d : ReplayCall => c.now.val ≤ d.now.val) := ⟨fun h k => Int.le_trans h k⟩
    exact isChain_iff_pairwise.1 hchain
  · intro before c hp
    refine (List.Sublist.filter _ (accepted_sublist _ _)).length_le.trans ?_
    by_cases hshort : (before ++ [c]).length ≤ maxReplay
    · exact (length_filter_le _ _).trans hshort
    · have hlast : ∀ n ∈ [257, 258], ∀ c ∈ (List.take n
          (mixedLives 256 ++ [replayCallAt 256 (text "first") 1000])).getLast?,
          ((List.take n (mixedLives 256 ++ [replayCallAt 256 (text "first") 1000])).filter
            fun d => c.now.val ≤ d.expUnix.val).length ≤ maxReplay := by decide +kernel
      have hlength := hp.length_le
      simp only [mixedLives, length_append, length_cons, length_map,
        length_range, length_nil] at hlength
      have hn : (before ++ [c]).length ∈ [257, 258] := by
        rw [maxReplay] at hshort
        rw [mem_cons, mem_singleton]
        simp only [length_append, length_cons, length_nil] at hshort ⊢
        omega
      have hall := hlast _ hn c
      rw [← prefix_iff_eq_take.1 hp] at hall
      exact hall getLast?_concat

example : strEqual (text "first") (text "fist") = false := by decide +kernel

end Mx.Auth
