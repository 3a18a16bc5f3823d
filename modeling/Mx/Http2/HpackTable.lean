import Mx.Http2.Frame

/-!
# HPACK tables

The static table with its search, and the dynamic table: a ring of 128 entries of which the newest
is at `head`. The table does not look at the number of its entries, only at their size, so with a
large `maxSize` an index can leave the ring; the program does not go on from there.
-/

namespace Mx.Http2

/-- `HeaderEntry`, with its two strings as far as they are used. -/
structure HeaderEntry where
  name : List UInt8
  value : List UInt8
  deriving DecidableEq, Repr

instance : Inhabited HeaderEntry := ⟨⟨[], []⟩⟩

/-- `HpackStaticTableSize`. -/
def hpackStaticTableSize : Nat := 61

/-- `HpackMaxDynEntries`. -/
def hpackMaxDynEntries : Nat := 128

/-- `HpackMaxNameLen`. -/
def hpackMaxNameLen : Nat := 128

/-- `HpackMaxValueLen`. -/
def hpackMaxValueLen : Nat := 4096

/-- Why an operation gives no result: it reports so, or it reads outside of an array. -/
inductive Fault where
  | notOk
  | stray
  deriving DecidableEq, Repr

/-! ## The static table -/

/-- An entry of the static table. -/
def entry (name value : String) : HeaderEntry where
  name := name.toList.map fun ch => UInt8.ofNat ch.toNat
  value := value.toList.map fun ch => UInt8.ofNat ch.toNat

/-- The entries that `InitStaticTable` sets. -/
def staticEntries : List HeaderEntry :=
  [entry "" "",
    entry ":authority" "",
    entry ":method" "GET",
    entry ":method" "POST",
    entry ":path" "/",
    entry ":path" "/index.html",
    entry ":scheme" "http",
    entry ":scheme" "https",
    entry ":status" "200",
    entry ":status" "204",
    entry ":status" "206",
    entry ":status" "304",
    entry ":status" "400",
    entry ":status" "404",
    entry ":status" "500",
    entry "accept-charset" "",
    entry "accept-encoding" "gzip, deflate",
    entry "accept-language" "",
    entry "accept-ranges" "",
    entry "accept" "",
    entry "access-control-allow-origin" "",
    entry "age" "",
    entry "allow" "",
    entry "authorization" "",
    entry "cache-control" "",
    entry "content-disposition" "",
    entry "content-encoding" "",
    entry "content-language" "",
    entry "content-length" "",
    entry "content-location" "",
    entry "content-range" "",
    entry "content-type" "",
    entry "cookie" "",
    entry "date" "",
    entry "etag" "",
    entry "expect" "",
    entry "expires" "",
    entry "from" "",
    entry "host" "",
    entry "if-match" "",
    entry "if-modified-since" "",
    entry "if-none-match" "",
    entry "if-range" "",
    entry "if-unmodified-since" "",
    entry "last-modified" "",
    entry "link" "",
    entry "location" "",
    entry "max-forwards" "",
    entry "proxy-authenticate" "",
    entry "proxy-authorization" "",
    entry "range" "",
    entry "referer" "",
    entry "refresh" "",
    entry "retry-after" "",
    entry "server" "",
    entry "set-cookie" "",
    entry "strict-transport-security" "",
    entry "transfer-encoding" "",
    entry "user-agent" "",
    entry "vary" "",
    entry "via" "",
    entry "www-authenticate" ""]

/-- `staticTable`. -/
def staticTable (i : Nat) : HeaderEntry := staticEntries.getD i default

/-- The first characters of the static names, with the part of the table where they stand. -/
def staticRanges : List (UInt8 × Nat × Nat) :=
  [(58, 1, 14), (97, 15, 23), (99, 24, 32), (100, 33, 33), (101, 34, 36), (102, 37, 37),
    (104, 38, 38), (105, 39, 43), (108, 44, 46), (109, 47, 47), (112, 48, 49), (114, 50, 53),
    (115, 54, 56), (116, 57, 57), (117, 58, 58), (118, 59, 60), (119, 61, 61)]

/-- The part of the static table that `StaticFind` searches for a first character. -/
def staticRange (ch : UInt8) : Option (Nat × Nat) :=
  (staticRanges.find? fun r => r.1 == ch).map Prod.snd

/-- The loop of `StaticFind`, over the next so many entries. -/
def staticScan (name value : List UInt8) (nameOnly : Bool) : Nat → Nat → Nat → Nat
  | 0, _, nameMatch => nameMatch
  | n + 1, i, nameMatch =>
    if (staticTable i).name = name then
      if nameOnly then i
      else if (staticTable i).value = value then i
      else staticScan name value nameOnly n (i + 1) (if nameMatch = 0 then i else nameMatch)
    else staticScan name value nameOnly n (i + 1) nameMatch

/-- `StaticFind`. -/
def staticFind (name value : List UInt8) (nameOnly : Bool) : Nat :=
  match name with
  | [] => 0
  | ch :: _ =>
    match staticRange ch with
    | none => 0
    | some (lo, hi) => staticScan name value nameOnly (hi + 1 - lo) lo 0

/-- `StaticLookup`. -/
def staticLookup (index : Nat) : Except Fault HeaderEntry :=
  if 1 ≤ index ∧ index ≤ hpackStaticTableSize then .ok (staticTable index) else .error .notOk

theorem staticRange_bounds {ch : UInt8} {lo hi : Nat} (h : staticRange ch = some (lo, hi)) :
    1 ≤ lo ∧ hi ≤ hpackStaticTableSize := by
  obtain ⟨r, hfind, hr⟩ := Option.map_eq_some_iff.mp h
  have hmem := List.mem_of_find?_eq_some hfind
  have hall : ∀ r ∈ staticRanges, 1 ≤ r.2.1 ∧ r.2.2 ≤ hpackStaticTableSize := by decide
  have hbounds := hall r hmem
  rw [hr] at hbounds
  exact hbounds

/-- What the search returns is the name's index, or none. -/
theorem staticScan_spec {name value : List UInt8} {nameOnly : Bool} {n i nameMatch : Nat}
    {P : Nat → Prop} (hmatch : P nameMatch)
    (hentry : ∀ j, i ≤ j → j < i + n → (staticTable j).name = name → P j) :
    P (staticScan name value nameOnly n i nameMatch) := by
  induction n generalizing i nameMatch with
  | zero => exact hmatch
  | succ n ih =>
    have hrest : ∀ j, i + 1 ≤ j → j < i + 1 + n → (staticTable j).name = name → P j :=
      fun j hlo hhi => hentry j (by omega) (by omega)
    rw [staticScan]
    split
    case isTrue hname =>
      have hhere : P i := hentry i le_rfl (by omega) hname
      split
      · exact hhere
      · split
        · exact hhere
        · refine ih ?_ hrest
          split
          · exact hhere
          · exact hmatch
    case isFalse => exact ih hmatch hrest

theorem staticFind_spec (name value : List UInt8) (nameOnly : Bool) :
    staticFind name value nameOnly = 0 ∨
      (1 ≤ staticFind name value nameOnly ∧
        staticFind name value nameOnly ≤ hpackStaticTableSize ∧
        (staticTable (staticFind name value nameOnly)).name = name) := by
  cases name with
  | nil => exact .inl rfl
  | cons ch name =>
    unfold staticFind
    dsimp only
    cases hrange : staticRange ch with
    | none => exact .inl rfl
    | some bounds =>
      obtain ⟨lo, hi⟩ := bounds
      obtain ⟨hlo, hhi⟩ := staticRange_bounds hrange
      refine staticScan_spec (P := fun i => i = 0 ∨
        (1 ≤ i ∧ i ≤ hpackStaticTableSize ∧ (staticTable i).name = ch :: name)) (.inl rfl) ?_
      intro j hj hj' hname
      exact .inr ⟨by omega, by omega, hname⟩

/-! ## The dynamic table -/

/-- `DynTable`. -/
structure DynTable where
  entries : Nat → HeaderEntry
  head : Nat
  count : Nat
  byteSize : Nat
  maxSize : Nat

/-- A number as CARDINAL holds it. -/
def card (n : Nat) : Nat := n % 4294967296

theorem card_of_lt {n : Nat} (h : n < 4294967296) : card n = n := Nat.mod_eq_of_lt h

/-- `EntrySize`. -/
def entrySize (nameLen valLen : Nat) : Nat := nameLen + valLen + 32

/-- `DynInit`, which leaves the entries as they are. -/
def dynInit (dt : DynTable) (maxSize : Nat) : DynTable :=
  { dt with head := 0, count := 0, byteSize := 0, maxSize := maxSize }

/-- `DynRealIndex`. -/
def dynRealIndex (dt : DynTable) (index : Nat) : Nat :=
  if index ≤ dt.head then dt.head - index
  else card (hpackMaxDynEntries + 4294967296 - (index - dt.head))

/-- `dt.entries[slot]`. -/
def entryAt (dt : DynTable) (slot : Nat) : Except Fault HeaderEntry :=
  if slot < hpackMaxDynEntries then .ok (dt.entries slot) else .error .stray

/-- `DynEvict`. -/
def dynEvict (dt : DynTable) : Except Fault DynTable :=
  if dt.count = 0 then .ok dt
  else
    match entryAt dt (dynRealIndex dt (dt.count - 1)) with
    | .error e => .error e
    | .ok oldest =>
      let eSize := entrySize oldest.name.length oldest.value.length
      .ok { dt with
        byteSize := if dt.byteSize ≥ eSize then dt.byteSize - eSize else 0
        count := dt.count - 1 }

/-- `DynEvict` as long as the table has entries and they do not leave room for more of this size.
Each round takes one entry away. -/
def evictFor (extra : Nat) : Nat → DynTable → Except Fault DynTable
  | 0, dt => .ok dt
  | fuel + 1, dt =>
    if dt.count > 0 ∧ card (dt.byteSize + extra) > dt.maxSize then
      match dynEvict dt with
      | .error e => .error e
      | .ok dt => evictFor extra fuel dt
    else .ok dt

/-- The slot of the next entry. -/
def nextSlot (dt : DynTable) : Nat :=
  if dt.count > 0 then
    if dt.head = hpackMaxDynEntries - 1 then 0 else dt.head + 1
  else dt.head

/-- An entry written into a slot, as the newest. -/
def putAt (dt : DynTable) (slot : Nat) (e : HeaderEntry) : DynTable :=
  { dt with
    entries := fun i => if i = slot then e else dt.entries i
    head := slot
    count := card (dt.count + 1)
    byteSize := card (dt.byteSize + entrySize e.name.length e.value.length) }

/-- The part of `DynInsert` that follows the evictions. -/
def insertAtHead (dt : DynTable) (e : HeaderEntry) : Except Fault DynTable :=
  if nextSlot dt < hpackMaxDynEntries then .ok (putAt dt (nextSlot dt) e) else .error .stray

/-- `DynInsert`. -/
def dynInsert (dt : DynTable) (e : HeaderEntry) : Except Fault DynTable :=
  let eSize := entrySize e.name.length e.value.length
  if eSize > dt.maxSize then .ok { dt with count := 0, byteSize := 0 }
  else
    match evictFor eSize dt.count dt with
    | .error f => .error f
    | .ok dt => insertAtHead dt e

/-- `DynLookup`. -/
def dynLookup (dt : DynTable) (index : Nat) : Except Fault HeaderEntry :=
  if index < dt.count then entryAt dt (dynRealIndex dt index) else .error .notOk

/-- `DynResize`. -/
def dynResize (dt : DynTable) (newMaxSize : Nat) : Except Fault DynTable :=
  evictFor 0 dt.count { dt with maxSize := newMaxSize }

/-- `LookupIndex`. -/
def lookupIndex (idx : Nat) (dt : DynTable) : Except Fault HeaderEntry :=
  if idx ≤ hpackStaticTableSize then staticLookup idx
  else dynLookup dt (idx - hpackStaticTableSize - 1)

/-- The entries of a table, newest first. -/
def contents (dt : DynTable) : List (Except Fault HeaderEntry) :=
  (List.range dt.count).map fun i => entryAt dt (dynRealIndex dt i)

/-! ## Tables in step -/

/-- Two tables that hold the same entries, in the same slots. -/
structure InStep (dt dt' : DynTable) : Prop where
  head : dt.head = dt'.head
  count : dt.count = dt'.count
  byteSize : dt.byteSize = dt'.byteSize
  maxSize : dt.maxSize = dt'.maxSize
  entries : ∀ i < dt.count, entryAt dt (dynRealIndex dt i) = entryAt dt' (dynRealIndex dt' i)

/-- Two operations that both fail alike, or both succeed with tables in step. -/
def BothInStep (r r' : Except Fault DynTable) : Prop :=
  (∃ e, r = .error e ∧ r' = .error e) ∨ ∃ dt dt', r = .ok dt ∧ r' = .ok dt' ∧ InStep dt dt'

variable {dt dt' : DynTable}

theorem BothInStep.ok (h : InStep dt dt') : BothInStep (.ok dt) (.ok dt') :=
  .inr ⟨dt, dt', rfl, rfl, h⟩

theorem inStep_dynInit (dt dt' : DynTable) (maxSize : Nat) :
    InStep (dynInit dt maxSize) (dynInit dt' maxSize) :=
  ⟨rfl, rfl, rfl, rfl, fun i hi => absurd hi (Nat.not_lt_zero i)⟩

theorem InStep.contents_eq (h : InStep dt dt') : contents dt = contents dt' := by
  rw [contents, contents, ← h.count]
  refine List.map_congr_left fun i hi => h.entries i ?_
  simpa using hi

theorem dynRealIndex_congr (hhead : dt.head = dt'.head) (index : Nat) :
    dynRealIndex dt index = dynRealIndex dt' index := by
  rw [dynRealIndex, dynRealIndex, hhead]

theorem InStep.cleared (h : InStep dt dt') :
    InStep { dt with count := 0, byteSize := 0 } { dt' with count := 0, byteSize := 0 } :=
  ⟨h.head, rfl, rfl, h.maxSize, fun i hi => absurd hi (Nat.not_lt_zero i)⟩

theorem InStep.dynEvict (h : InStep dt dt') : BothInStep (dynEvict dt) (dynEvict dt') := by
  rw [Mx.Http2.dynEvict, Mx.Http2.dynEvict, ← h.count]
  split
  · exact .ok h
  case isFalse hcount =>
    have holdest := h.entries (dt.count - 1) (by omega)
    rw [← holdest]
    cases hentry : entryAt dt (dynRealIndex dt (dt.count - 1)) with
    | error e => exact .inl ⟨e, rfl, rfl⟩
    | ok oldest =>
      dsimp only
      rw [← h.byteSize]
      refine .ok ⟨h.head, rfl, rfl, h.maxSize, ?_⟩
      intro i hi
      have hlt : i < dt.count - 1 := hi
      exact h.entries i (by omega)

theorem InStep.evictFor (h : InStep dt dt') (extra fuel : Nat) :
    BothInStep (evictFor extra fuel dt) (evictFor extra fuel dt') := by
  induction fuel generalizing dt dt' with
  | zero => exact .ok h
  | succ fuel ih =>
    rw [Mx.Http2.evictFor, Mx.Http2.evictFor, ← h.count, ← h.byteSize, ← h.maxSize]
    split
    · obtain ⟨e, he, he'⟩ | ⟨u, u', hu, hu', hstep⟩ := h.dynEvict
      · rw [he, he']
        exact .inl ⟨e, rfl, rfl⟩
      · rw [hu, hu']
        exact ih hstep
    · exact .ok h

/-- An entry that is not overwritten keeps its slot when one more is in front of it. -/
theorem dynRealIndex_nextSlot {dt₁ : DynTable} {i : Nat} (hi : i < dt.count)
    (hhead : dt₁.head = nextSlot dt) (hin : dynRealIndex dt₁ (i + 1) < hpackMaxDynEntries)
    (hcard : i + 1 < 4294967296) :
    dynRealIndex dt₁ (i + 1) = dynRealIndex dt i := by
  have hmax : hpackMaxDynEntries = 128 := rfl
  have hpos : dt.count > 0 := by omega
  rw [nextSlot, if_pos hpos] at hhead
  rw [dynRealIndex] at hin ⊢
  rw [dynRealIndex]
  by_cases hlast : dt.head = hpackMaxDynEntries - 1
  · -- The ring starts again: an index that stays in it is one of the last round.
    rw [if_pos hlast] at hhead
    rw [hhead, if_neg (by omega), card] at hin ⊢
    rw [if_pos (by omega)]
    omega
  · rw [if_neg hlast] at hhead
    rw [hhead]
    by_cases hle : i ≤ dt.head
    · rw [if_pos hle, if_pos (by omega)]
      omega
    · rw [if_neg hle, if_neg (by omega), Nat.add_sub_add_right]

theorem putAt_entries (dt : DynTable) (slot : Nat) (e : HeaderEntry) (i : Nat) :
    (putAt dt slot e).entries i = if i = slot then e else dt.entries i := rfl

theorem InStep.putAt (h : InStep dt dt') (e : HeaderEntry) :
    InStep (putAt dt (nextSlot dt) e) (putAt dt' (nextSlot dt) e) := by
  refine ⟨rfl, congrArg (fun n => card (n + 1)) h.count,
    congrArg (fun n => card (n + entrySize e.name.length e.value.length)) h.byteSize, h.maxSize, ?_⟩
  intro i hi
  have hcount : i < card (dt.count + 1) := hi
  rw [card] at hcount
  have hindex : dynRealIndex (Mx.Http2.putAt dt (nextSlot dt) e) i =
      dynRealIndex (Mx.Http2.putAt dt' (nextSlot dt) e) i := dynRealIndex_congr rfl i
  rw [← hindex]
  by_cases hin : dynRealIndex (Mx.Http2.putAt dt (nextSlot dt) e) i < hpackMaxDynEntries
  · rw [entryAt, entryAt, if_pos hin, if_pos hin]
    by_cases hnew : dynRealIndex (Mx.Http2.putAt dt (nextSlot dt) e) i = nextSlot dt
    · rw [putAt_entries, putAt_entries, if_pos hnew, if_pos hnew]
    · cases i with
      | zero => exact absurd (by simp [dynRealIndex, Mx.Http2.putAt]) hnew
      | succ j =>
        have hold := dynRealIndex_nextSlot (by omega : j < dt.count) rfl hin (by omega)
        have hentry := h.entries j (by omega)
        rw [← dynRealIndex_congr h.head, ← hold, entryAt, entryAt, if_pos hin, if_pos hin] at hentry
        rw [putAt_entries, putAt_entries, if_neg hnew, if_neg hnew]
        exact hentry
  · rw [entryAt, entryAt, if_neg hin, if_neg hin]

theorem InStep.insertAtHead (h : InStep dt dt') (e : HeaderEntry) :
    BothInStep (insertAtHead dt e) (insertAtHead dt' e) := by
  have hnext : nextSlot dt' = nextSlot dt := by rw [nextSlot, nextSlot, h.head, h.count]
  rw [Mx.Http2.insertAtHead, Mx.Http2.insertAtHead, hnext]
  split
  · exact .ok (h.putAt e)
  · exact .inl ⟨.stray, rfl, rfl⟩

/-- Tables stay in step when the same entry is inserted in both. -/
theorem InStep.dynInsert (h : InStep dt dt') (e : HeaderEntry) :
    BothInStep (dynInsert dt e) (dynInsert dt' e) := by
  rw [Mx.Http2.dynInsert, Mx.Http2.dynInsert]
  by_cases hsize : entrySize e.name.length e.value.length > dt.maxSize
  · rw [if_pos hsize, if_pos (h.maxSize ▸ hsize)]
    exact .ok h.cleared
  · rw [if_neg hsize, if_neg (h.maxSize ▸ hsize), ← h.count]
    obtain ⟨f, hf, hf'⟩ | ⟨u, u', hu, hu', hstep⟩ :=
      h.evictFor (entrySize e.name.length e.value.length) dt.count
    · rw [hf, hf']
      exact .inl ⟨f, rfl, rfl⟩
    · rw [hu, hu']
      exact hstep.insertAtHead e

end Mx.Http2
