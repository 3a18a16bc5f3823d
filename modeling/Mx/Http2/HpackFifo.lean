import Mx.Core.Fitting
import Mx.Http2.HpackTable

/-!
# The dynamic table as a queue

What the dynamic table is for: it holds the entries that were inserted last and stay within its
size. The ring has 128 slots, and an insert looks at the size of the entries only. Sequences of
calls whose inserts find a slot that is not in use keep the table what it is for.
-/

namespace Mx.Http2

open Mx.Core List

/-- The size of an entry. -/
def HeaderEntry.size (e : HeaderEntry) : Nat := entrySize e.name.length e.value.length

/-! ## The queue -/

/-- A queue of entries, newest first, with a limit for their size. -/
structure Fifo where
  maxSize : Nat
  entries : List HeaderEntry

/-- The calls that change a table. -/
inductive TableCall where
  | init (maxSize : Nat)
  | insert (e : HeaderEntry)
  | resize (newMaxSize : Nat)

/-- What a call does to the queue. The entries that are evicted are the oldest ones. -/
def Fifo.step (f : Fifo) : TableCall → Fifo
  | .init maxSize => ⟨maxSize, []⟩
  | .insert e =>
    if e.size > f.maxSize then { f with entries := [] }
    else { f with entries := e :: fitting HeaderEntry.size (f.maxSize - e.size) f.entries }
  | .resize newMaxSize => ⟨newMaxSize, fitting HeaderEntry.size newMaxSize f.entries⟩

/-- What a sequence of calls does to the queue. -/
def Fifo.run (f : Fifo) (calls : List TableCall) : Fifo := calls.foldl Fifo.step f

/-- What a call does to the table. -/
def tableStep (dt : DynTable) : TableCall → Except Fault DynTable
  | .init maxSize => .ok (dynInit dt maxSize)
  | .insert e => dynInsert dt e
  | .resize newMaxSize => dynResize dt newMaxSize

/-- What a sequence of calls does to the table. -/
def runTable (dt : DynTable) (calls : List TableCall) : Except Fault DynTable :=
  calls.foldlM tableStep dt

/-- The table is within its limits and its indices within the ring, and it holds this queue. -/
structure Bounded (dt : DynTable) (l : List HeaderEntry) : Prop where
  count_le : dt.count ≤ hpackMaxDynEntries
  byteSize_eq : dt.byteSize = total HeaderEntry.size l
  byteSize_le : dt.byteSize ≤ dt.maxSize
  slot_lt : ∀ index < dt.count, dynRealIndex dt index < hpackMaxDynEntries
  lookup : ∀ index, dynLookup dt index =
    if h : index < l.length then .ok (l.get ⟨index, h⟩) else .error .notOk

/-- The strings fit the arrays of an entry. -/
def HeaderEntry.Fits (e : HeaderEntry) : Prop :=
  e.name.length ≤ hpackMaxNameLen ∧ e.value.length ≤ hpackMaxValueLen

/-- An insert finds a slot that is not in use when the entries that stay beside the new one are
fewer than the ring has slots. -/
def Fifo.Roomy (f : Fifo) : TableCall → Prop
  | .insert e => e.Fits ∧ (e.size ≤ f.maxSize →
      (fitting HeaderEntry.size (f.maxSize - e.size) f.entries).length < hpackMaxDynEntries)
  | _ => True

/-- Every insert of the sequence finds a slot. -/
def Fifo.AllRoomy (f : Fifo) : List TableCall → Prop
  | [] => True
  | call :: calls => f.Roomy call ∧ (f.step call).AllRoomy calls

/-! ## The ring -/

section Ring

variable {dt : DynTable} {l : List HeaderEntry} {e : HeaderEntry}

theorem HeaderEntry.size_le (h : e.Fits) : e.size ≤ 4256 := by
  have hmaxName : hpackMaxNameLen = 128 := rfl
  have hmaxValue : hpackMaxValueLen = 4096 := rfl
  obtain ⟨hname, hvalue⟩ := h
  rw [HeaderEntry.size, entrySize]
  omega

theorem dynRealIndex_lt {index : Nat} (hhead : dt.head < 128) (hindex : index < 128) :
    dynRealIndex dt index < hpackMaxDynEntries := by
  rw [dynRealIndex, card, hpackMaxDynEntries]
  split <;> omega

/-- The slot of an older entry is not that of the newest. -/
theorem dynRealIndex_ne_head {index : Nat} (hhead : dt.head < 128) (hindex : index + 1 < 128) :
    dynRealIndex dt (index + 1) ≠ dt.head := by
  rw [dynRealIndex, card, hpackMaxDynEntries]
  split <;> omega

theorem nextSlot_lt (hhead : dt.head < 128) : nextSlot dt < hpackMaxDynEntries := by
  rw [nextSlot, hpackMaxDynEntries]
  split
  · split <;> omega
  · exact hhead

/-- The table holds these entries in the slots behind its head. -/
structure Stores (dt : DynTable) (l : List HeaderEntry) : Prop where
  head_lt : dt.head < 128
  count_eq : dt.count = l.length
  length_le : l.length ≤ 128
  fits : ∀ e ∈ l, e.Fits
  byteSize_eq : dt.byteSize = total HeaderEntry.size l
  entries : ∀ index (h : index < l.length), dt.entries (dynRealIndex dt index) = l.get ⟨index, h⟩

/-- The sizes of stored entries are far below the range of a CARDINAL. -/
theorem Stores.total_le (h : Stores dt l) : total HeaderEntry.size l ≤ 544768 := by
  have hmul : total HeaderEntry.size l ≤ l.length * 4256 :=
    total_le_mul fun e he => HeaderEntry.size_le (h.fits e he)
  have hlength := h.length_le
  omega

theorem Stores.entryAt_eq (h : Stores dt l) {index : Nat} (hindex : index < l.length) :
    entryAt dt (dynRealIndex dt index) = .ok (l.get ⟨index, hindex⟩) := by
  have hslot := dynRealIndex_lt h.head_lt (Nat.lt_of_lt_of_le hindex h.length_le)
  rw [entryAt, if_pos hslot, h.entries index hindex]

theorem Stores.empty (hhead : dt.head < 128) :
    Stores { dt with count := 0, byteSize := 0 } [] :=
  ⟨hhead, rfl, Nat.zero_le _, by nofun, rfl, fun _ h => absurd h (Nat.not_lt_zero _)⟩

theorem stores_dynInit (dt : DynTable) (maxSize : Nat) : Stores (dynInit dt maxSize) [] :=
  @Stores.empty { dt with head := 0, maxSize := maxSize } (Nat.succ_pos 127)

theorem Stores.setMaxSize (h : Stores dt l) (maxSize : Nat) :
    Stores { dt with maxSize := maxSize } l :=
  ⟨h.head_lt, h.count_eq, h.length_le, h.fits, h.byteSize_eq, h.entries⟩

/-- An eviction takes the oldest entry. -/
theorem Stores.dynEvict (h : Stores dt l) (hl : l ≠ []) :
    ∃ t, Mx.Http2.dynEvict dt = .ok t ∧ Stores t l.dropLast ∧ t.maxSize = dt.maxSize := by
  have hpos : 0 < l.length := length_pos_iff.mpr hl
  have hcount : dt.count ≠ 0 := by
    rw [h.count_eq]
    omega
  have holdest : entryAt dt (dynRealIndex dt (dt.count - 1)) = .ok (l.getLast hl) := by
    rw [h.count_eq, h.entryAt_eq (Nat.sub_lt hpos Nat.one_pos), getLast_eq_getElem]
    rfl
  have htotal : total HeaderEntry.size l.dropLast + (l.getLast hl).size =
      total HeaderEntry.size l := total_dropLast hl
  have hsize : entrySize (l.getLast hl).name.length (l.getLast hl).value.length =
      (l.getLast hl).size := rfl
  rw [Mx.Http2.dynEvict, if_neg hcount, holdest]
  refine ⟨_, rfl, ⟨h.head_lt, ?_, ?_, ?_, ?_, ?_⟩, rfl⟩
  · rw [length_dropLast]
    exact congrArg (· - 1) h.count_eq
  · exact Nat.le_trans (by simp) h.length_le
  · exact fun e he => h.fits e (dropLast_subset l he)
  · dsimp only
    rw [hsize, h.byteSize_eq, if_pos (by omega)]
    omega
  · intro index hindex
    have hlt : index < l.length := Nat.lt_of_lt_of_le hindex (by simp)
    rw [get_eq_getElem, getElem_dropLast]
    exact h.entries index hlt

/-- The evictions leave the newest entries that are small enough. -/
theorem Stores.evictFor (h : Stores dt l) {extra fuel : Nat} (hextra : extra ≤ dt.maxSize)
    (hsmall : extra ≤ 4256) (hfuel : l.length ≤ fuel) :
    ∃ t, Mx.Http2.evictFor extra fuel dt = .ok t ∧
      Stores t (fitting HeaderEntry.size (dt.maxSize - extra) l) ∧ t.maxSize = dt.maxSize := by
  induction fuel generalizing dt l with
  | zero =>
    obtain rfl : l = [] := length_eq_zero_iff.mp (Nat.le_zero.mp hfuel)
    exact ⟨dt, rfl, h, rfl⟩
  | succ fuel ih =>
    have htotal := h.total_le
    have hcard : card (dt.byteSize + extra) = dt.byteSize + extra := card_of_lt (by
      rw [h.byteSize_eq]
      omega)
    rw [Mx.Http2.evictFor, hcard, h.byteSize_eq]
    by_cases hover : total HeaderEntry.size l + extra > dt.maxSize
    · have hl : l ≠ [] := by
        rintro rfl
        rw [total_nil] at hover
        omega
      have hpos : dt.count > 0 := by
        rw [h.count_eq]
        exact length_pos_iff.mpr hl
      obtain ⟨t, ht, hstores, hmax⟩ := h.dynEvict hl
      rw [if_pos ⟨hpos, hover⟩, ht]
      have hrest := ih hstores (by rwa [hmax]) (by rw [length_dropLast]; omega)
      rw [hmax, fitting_dropLast (by omega)] at hrest
      exact hrest
    · rw [if_neg fun hc => hover hc.2, fitting_of_total_le (by omega)]
      exact ⟨dt, rfl, h, rfl⟩

/-- A new entry goes into the slot behind the head, which is not in use. -/
theorem Stores.putAt (h : Stores dt l) (hl : l.length < 128) (he : e.Fits) :
    Stores (Mx.Http2.putAt dt (nextSlot dt) e) (e :: l) := by
  have hslot := nextSlot_lt h.head_lt
  have htotal := h.total_le
  have hsize := HeaderEntry.size_le he
  refine ⟨hslot, ?_, hl, ?_, ?_, ?_⟩
  · rw [length_cons, ← h.count_eq]
    refine card_of_lt ?_
    rw [h.count_eq]
    omega
  · intro e' he'
    obtain rfl | hmem := mem_cons.mp he'
    · exact he
    · exact h.fits e' hmem
  · have hcard : card (dt.byteSize + e.size) = dt.byteSize + e.size := card_of_lt (by
      rw [h.byteSize_eq]
      omega)
    rw [total_cons, Nat.add_comm, ← h.byteSize_eq]
    exact hcard
  · intro index hindex
    cases index with
    | zero =>
      have hhere : dynRealIndex (Mx.Http2.putAt dt (nextSlot dt) e) 0 = nextSlot dt :=
        if_pos (Nat.zero_le _)
      rw [hhere, putAt_entries, if_pos rfl]
      rfl
    | succ j =>
      have hj : j < l.length := Nat.lt_of_succ_lt_succ hindex
      have hin : dynRealIndex (Mx.Http2.putAt dt (nextSlot dt) e) (j + 1) < hpackMaxDynEntries :=
        dynRealIndex_lt hslot (by omega)
      have hne : dynRealIndex (Mx.Http2.putAt dt (nextSlot dt) e) (j + 1) ≠ nextSlot dt :=
        dynRealIndex_ne_head hslot (by omega)
      have hold : dynRealIndex (Mx.Http2.putAt dt (nextSlot dt) e) (j + 1) = dynRealIndex dt j :=
        dynRealIndex_nextSlot (h.count_eq ▸ hj) rfl hin (by omega)
      rw [putAt_entries, if_neg hne, hold]
      exact h.entries j hj

theorem dynInsert_of_le (hle : e.size ≤ dt.maxSize) {t : DynTable}
    (h : Mx.Http2.evictFor e.size dt.count dt = .ok t) :
    Mx.Http2.dynInsert dt e = insertAtHead t e := by
  have hsize : entrySize e.name.length e.value.length = e.size := rfl
  rw [Mx.Http2.dynInsert, hsize, if_neg (Nat.not_lt.mpr hle), h]

/-- Behind an insert the table holds what the queue holds. -/
theorem Stores.dynInsert (h : Stores dt l) (hroomy : (Fifo.mk dt.maxSize l).Roomy (.insert e)) :
    ∃ t, Mx.Http2.dynInsert dt e = .ok t ∧
      Stores t ((Fifo.mk dt.maxSize l).step (.insert e)).entries ∧ t.maxSize = dt.maxSize := by
  obtain ⟨hfits, hroom⟩ := hroomy
  by_cases hle : e.size ≤ dt.maxSize
  · obtain ⟨t, ht, hstores, hmax⟩ :=
      h.evictFor hle (HeaderEntry.size_le hfits) (Nat.le_of_eq h.count_eq.symm)
    rw [dynInsert_of_le hle ht, insertAtHead, if_pos (nextSlot_lt hstores.head_lt), Fifo.step,
      if_neg (Nat.not_lt.mpr hle)]
    exact ⟨_, rfl, hstores.putAt (hroom hle) hfits, hmax⟩
  · have hclear : Mx.Http2.dynInsert dt e = .ok { dt with count := 0, byteSize := 0 } :=
      if_pos (Nat.not_le.mp hle)
    rw [hclear, Fifo.step, if_pos (Nat.not_le.mp hle)]
    exact ⟨_, rfl, Stores.empty h.head_lt, rfl⟩

theorem Stores.dynResize (h : Stores dt l) (newMaxSize : Nat) :
    ∃ t, Mx.Http2.dynResize dt newMaxSize = .ok t ∧
      Stores t (fitting HeaderEntry.size newMaxSize l) ∧ t.maxSize = newMaxSize :=
  (h.setMaxSize newMaxSize).evictFor (Nat.zero_le _) (Nat.zero_le _) (Nat.le_of_eq h.count_eq.symm)

end Ring

/-! ## Sequences of calls -/

/-- The table holds what the queue holds, with its limit. -/
structure Follows (dt : DynTable) (f : Fifo) : Prop where
  stores : Stores dt f.entries
  maxSize : dt.maxSize = f.maxSize
  within : total HeaderEntry.size f.entries ≤ f.maxSize

/-- No call makes the queue exceed its limit. -/
theorem Fifo.step_within (f : Fifo) (call : TableCall) :
    total HeaderEntry.size (f.step call).entries ≤ (f.step call).maxSize := by
  cases call with
  | init maxSize => exact Nat.zero_le _
  | insert e =>
    rw [Fifo.step]
    split
    · exact Nat.zero_le _
    · have hfit : total HeaderEntry.size
          (fitting HeaderEntry.size (f.maxSize - e.size) f.entries) ≤ f.maxSize - e.size :=
        total_fitting_le _ _
      rw [total_cons]
      dsimp only
      omega
  | resize newMaxSize => exact total_fitting_le _ _

theorem Follows.step {dt : DynTable} {f : Fifo} (h : Follows dt f) {call : TableCall}
    (hroomy : f.Roomy call) : ∃ t, tableStep dt call = .ok t ∧ Follows t (f.step call) := by
  obtain ⟨maxSize, l⟩ := f
  obtain rfl : dt.maxSize = maxSize := h.maxSize
  have hwithin := Fifo.step_within ⟨dt.maxSize, l⟩ call
  cases call with
  | init maxSize =>
    exact ⟨_, rfl, stores_dynInit dt maxSize, rfl, hwithin⟩
  | insert e =>
    obtain ⟨t, ht, hstores, hmax⟩ := h.stores.dynInsert hroomy
    refine ⟨t, ht, hstores, hmax.trans ?_, hwithin⟩
    rw [Fifo.step]
    split <;> rfl
  | resize newMaxSize =>
    obtain ⟨t, ht, hstores, hmax⟩ := h.stores.dynResize newMaxSize
    exact ⟨t, ht, hstores, hmax, hwithin⟩

theorem Follows.run {dt : DynTable} {f : Fifo} (h : Follows dt f) {calls : List TableCall}
    (hroomy : f.AllRoomy calls) : ∃ t, runTable dt calls = .ok t ∧ Follows t (f.run calls) := by
  induction calls generalizing dt f with
  | nil => exact ⟨dt, rfl, h⟩
  | cons call calls ih =>
    obtain ⟨u, hu, hfollows⟩ := h.step hroomy.1
    obtain ⟨t, ht, hrun⟩ := ih hfollows hroomy.2
    refine ⟨t, ?_, hrun⟩
    rw [runTable, foldlM_cons, hu]
    exact ht

theorem follows_dynInit (dt : DynTable) (maxSize : Nat) :
    Follows (dynInit dt maxSize) ⟨maxSize, []⟩ :=
  ⟨stores_dynInit dt maxSize, rfl, Nat.zero_le _⟩

theorem Follows.bounded {dt : DynTable} {f : Fifo} (h : Follows dt f) : Bounded dt f.entries := by
  have hcount := h.stores.count_eq
  have hlength := h.stores.length_le
  refine ⟨?_, h.stores.byteSize_eq, ?_, ?_, ?_⟩
  · rw [hcount]
    exact hlength
  · rw [h.stores.byteSize_eq, h.maxSize]
    exact h.within
  · intro index hindex
    exact dynRealIndex_lt h.stores.head_lt (by omega)
  · intro index
    rw [dynLookup, hcount]
    split
    · next hindex => exact h.stores.entryAt_eq hindex
    · rfl

/-- In every sequence of calls whose inserts find a slot, the table is bounded and holds the entries
that were inserted last and not evicted. -/
theorem runTable_bounded (dt : DynTable) (maxSize : Nat) (calls : List TableCall)
    (hroomy : Fifo.AllRoomy ⟨maxSize, []⟩ calls) :
    ∃ t, runTable (dynInit dt maxSize) calls = .ok t ∧
      Bounded t (Fifo.run ⟨maxSize, []⟩ calls).entries := by
  obtain ⟨t, ht, hfollows⟩ := (follows_dynInit dt maxSize).run hroomy
  exact ⟨t, ht, hfollows.bounded⟩

/-- A table that has not been initialised. -/
def blankTable : DynTable := ⟨fun _ => default, 0, 0, 0, 0⟩

theorem runTable_bounded_blank :
    ∃ t, runTable (dynInit blankTable 4096) [.insert ⟨[97], [98]⟩] = .ok t ∧
      Bounded t (Fifo.run ⟨4096, []⟩ [.insert ⟨[97], [98]⟩]).entries :=
  runTable_bounded blankTable 4096 [.insert ⟨[97], [98]⟩]
    ⟨⟨⟨by decide, by decide⟩, fun _ => by decide⟩, trivial⟩

/-! ## A full ring -/

section Full

theorem total_replicate (n : Nat) :
    total HeaderEntry.size (List.replicate n default) = n * 32 := by
  rw [total, map_replicate, sum_replicate_nat]
  rfl

theorem fitting_replicate {n : Nat} (h : n ≤ 128) :
    fitting HeaderEntry.size (4294967295 - HeaderEntry.size default) (List.replicate n default) =
      List.replicate n default := by
  have hsize : HeaderEntry.size default = 32 := rfl
  refine fitting_of_total_le ?_
  rw [total_replicate, hsize]
  omega

/-- Empty entries do not evict each other from a table with a large limit. -/
theorem step_replicate {n : Nat} (h : n ≤ 128) :
    Fifo.step ⟨4294967295, List.replicate n default⟩ (.insert default) =
      ⟨4294967295, List.replicate (n + 1) default⟩ := by
  have hsmall : ¬HeaderEntry.size default > 4294967295 := by decide
  rw [Fifo.step, if_neg hsmall]
  dsimp only
  rw [fitting_replicate h, replicate_succ]

theorem allRoomy_replicate {k n : Nat} (h : k + n ≤ 128) :
    Fifo.AllRoomy ⟨4294967295, List.replicate k default⟩
        (List.replicate n (.insert default)) ∧
      Fifo.run ⟨4294967295, List.replicate k default⟩ (List.replicate n (.insert default)) =
        ⟨4294967295, List.replicate (k + n) default⟩ := by
  induction n generalizing k with
  | zero => exact ⟨trivial, rfl⟩
  | succ n ih =>
    have hrest := ih (by omega : k + 1 + n ≤ 128)
    rw [replicate_succ, Fifo.AllRoomy, Fifo.run, foldl_cons, step_replicate (by omega)]
    refine ⟨⟨⟨⟨by decide, by decide⟩, fun _ => ?_⟩, hrest.1⟩, ?_⟩
    · rw [fitting_replicate (by omega), length_replicate, hpackMaxDynEntries]
      omega
    · rw [Nat.add_right_comm] at hrest
      exact hrest.2

/-- An insert that evicts nothing from a full ring makes the count exceed it. -/
theorem dynInsert_overfull {dt : DynTable}
    (h : Follows dt ⟨4294967295, List.replicate 128 default⟩) :
    ∃ t, dynInsert dt default = .ok t ∧ t.count = 129 := by
  have hmax : dt.maxSize = 4294967295 := h.maxSize
  have hle : HeaderEntry.size default ≤ dt.maxSize := by
    rw [hmax]
    decide
  obtain ⟨u, hu, hstores, -⟩ :=
    h.stores.evictFor hle (by decide) (Nat.le_of_eq h.stores.count_eq.symm)
  rw [hmax, fitting_replicate (Nat.le_refl 128)] at hstores
  rw [dynInsert_of_le hle hu, insertAtHead, if_pos (nextSlot_lt hstores.head_lt)]
  refine ⟨_, rfl, ?_⟩
  change card (u.count + 1) = 129
  rw [hstores.count_eq, length_replicate]
  rfl

/-- With a limit of `2^32 - 1`, 129 empty entries are all kept, in 128 slots. -/
theorem runTable_overfull :
    ∃ t, runTable (dynInit blankTable 4294967295) (List.replicate 129 (.insert default)) = .ok t ∧
      ∀ l, ¬Bounded t l := by
  obtain ⟨hroomy, hrun⟩ := @allRoomy_replicate 0 128 (by decide)
  obtain ⟨u, hu, hfollows⟩ := (follows_dynInit blankTable 4294967295).run hroomy
  rw [replicate_zero, Nat.zero_add] at hrun
  rw [hrun] at hfollows
  obtain ⟨t, ht, hcount⟩ := dynInsert_overfull hfollows
  refine ⟨t, ?_, fun l h => ?_⟩
  · have hlast : runTable u [.insert default] = .ok t := by
      rw [runTable, foldlM_cons, tableStep, ht]
      rfl
    rw [replicate_succ', runTable, foldlM_append, ← runTable, hu]
    exact hlast
  · have hle := h.count_le
    rw [hcount] at hle
    exact absurd hle (by decide)

end Full

end Mx.Http2
