import Beeper.BlockMeaning
import Beeper.StoreRuns

namespace Beeper.Http2

/-- An entry of either table: one of the static table, or the one of the dynamic table that is
stored under a key. -/
inductive EntryRef
  | fixed (n : Nat)
  | stored (key : Nat)
deriving DecidableEq

/-- The key of the entry with the index `n`, which counts backwards from the entry that was added
last. -/
def entryKey (info : DynamicTableInfo) (n : Nat) : Nat :=
  (dynamicTableBase + info.deleted + (staticTableSize + info.count - n)) % 2 ^ 32

/-- The key that the entry with the index `n` is stored under is one that a match can hold. -/
def SlotHolds (info : DynamicTableInfo) (n : Nat) : Prop :=
  staticTableSize < n → dynamicTableBase ≤ entryKey info n ∧ entryKey info n ≤ 0xffff

/-- The entry with the index `n`, of all the indices there are. -/
def entryRef (info : DynamicTableInfo) (n : Nat) : Option EntryRef :=
  if n = 0 ∨ staticTableSize + info.count < n then none
  else if n ≤ staticTableSize then some (.fixed n)
  else some (.stored (entryKey info n))

/-- The entry that a slot stands for. -/
def slotRef (slot : Nat) : Option EntryRef :=
  if dynamicTableBase ≤ slot then some (.stored slot)
  else if slot = 0 then none
  else some (.fixed slot)

/-- The field of an entry. -/
def refField (rd : Rodata) (conn : Ip4Conn) (entries : DynamicTableMap) :
    EntryRef → Option Http2HdrField
  | .fixed n => rd.lookupStatic n
  | .stored key => (entries.lookup ⟨conn, key⟩).map DynamicTableEntry.field

variable {rd : Rodata} {conn : Ip4Conn} {t : DynamicTable} {items : List DynamicTableEntry}
  {info : DynamicTableInfo} {n : Nat}

theorem slotField_eq (entries : DynamicTableMap) (slot : Nat) :
    slotField rd conn entries slot = (slotRef slot).bind (refField rd conn entries) := by
  unfold slotField slotRef
  split
  · rfl
  · split <;> rfl

/-- The counters of a table that can be stored. -/
structure Countable (info : DynamicTableInfo) : Prop where
  count_le : info.count ≤ mapMaxEntries
  deleted_lt : info.deleted < 2 ^ 32

theorem Holds.countable (h : Holds conn t items) : Countable t.info :=
  ⟨h.count ▸ h.length_le, h.deleted_lt⟩

theorem Countable.isValidHpackIndex_iff (h : Countable info) :
    isValidHpackIndex info n = true ↔ 0 < n ∧ n ≤ staticTableSize + info.count := by
  have hc := h.count_le
  unfold isValidHpackIndex
  rw [u32_of_lt (by unfold mapMaxEntries at hc; unfold staticTableSize; omega), decide_eq_true_eq]

theorem Countable.getDynamicTableIndex_eq (h : Countable info) (hlo : staticTableSize < n)
    (hhi : n ≤ staticTableSize + info.count) : getDynamicTableIndex info n = entryKey info n := by
  have hc := h.count_le
  have hd := h.deleted_lt
  unfold getDynamicTableIndex entryKey u32Sub
  rw [u32_eq, u32_eq]
  unfold mapMaxEntries at hc
  unfold staticTableSize dynamicTableBase at *
  split <;> omega

/-- The slot of an index that names an entry. -/
theorem Countable.slotOf_eq (h : Countable info) (n : Nat) :
    slotOf info n =
      if n = 0 ∨ staticTableSize + info.count < n then 0
      else if n ≤ staticTableSize then n
      else if 0xffff < entryKey info n then 0 else entryKey info n := by
  unfold slotOf
  by_cases hv : n = 0 ∨ staticTableSize + info.count < n
  · have hinv : ¬(isValidHpackIndex info n = true) := by
      rw [h.isValidHpackIndex_iff]
      omega
    rw [if_neg hinv, if_pos hv]
  · rw [if_pos (h.isValidHpackIndex_iff.mpr (by omega)), if_neg hv]
    by_cases hs : n ≤ staticTableSize
    · simp only [if_neg (Nat.not_lt.mpr hs), if_pos hs]
      rw [if_neg (by unfold staticTableSize at hs; omega)]
    · simp only [if_pos (Nat.not_le.mp hs), if_neg hs]
      rw [h.getDynamicTableIndex_eq (by omega) (by omega)]

/-- The slot of an index stands for the entry that the index names if it holds the entry's key. -/
theorem Countable.slotRef_iff (h : Countable info)
    (hin : ¬(n = 0 ∨ staticTableSize + info.count < n)) :
    slotRef (slotOf info n) = entryRef info n ↔ SlotHolds info n := by
  unfold SlotHolds
  rw [h.slotOf_eq, if_neg hin, entryRef, if_neg hin]
  by_cases hs : n ≤ staticTableSize
  · have hfixed : slotRef n = some (.fixed n) := by
      unfold slotRef
      rw [if_neg (by unfold dynamicTableBase staticTableSize at *; omega), if_neg (by omega)]
    rw [if_pos hs, if_pos hs, hfixed]
    exact iff_of_true rfl fun hlt => absurd hs (Nat.not_le.mpr hlt)
  · rw [if_neg hs, if_neg hs]
    constructor
    · intro hslot _
      unfold slotRef at hslot
      by_cases hbig : 0xffff < entryKey info n
      · rw [if_pos hbig] at hslot
        cases hslot
      · rw [if_neg hbig] at hslot
        split at hslot
        next hlo => exact ⟨hlo, Nat.not_lt.mp hbig⟩
        next => split at hslot <;> cases hslot
    · intro hkey
      obtain ⟨hlo, hhi⟩ := hkey (Nat.not_le.mp hs)
      rw [if_neg (Nat.not_lt.mpr hhi), slotRef, if_pos hlo]

/-- An index finds the entry it names. -/
theorem Holds.getTableEntry_eq (h : Holds conn t items) (hd : t.info.dirty = 0) (n : Nat) :
    getTableEntry rd conn t n = (entryRef t.info n).bind (refField rd conn t.entries) := by
  have hc := h.countable
  unfold getTableEntry entryRef
  by_cases hv : n = 0 ∨ staticTableSize + t.info.count < n
  · have hinv : isValidHpackIndex t.info n = false := by
      rw [Bool.eq_false_iff, ne_eq, hc.isValidHpackIndex_iff]
      omega
    simp only [hinv, Bool.not_false, if_true, if_pos hv, Option.bind_none]
  · have hvalid := (hc.isValidHpackIndex_iff (n := n)).mpr (by omega)
    simp only [hvalid, Bool.not_true, Bool.false_eq_true, if_false, if_neg hv]
    by_cases hs : n ≤ staticTableSize
    · rw [if_neg (Nat.not_lt.mpr hs), if_pos hs]
      rfl
    · rw [if_pos (Nat.not_le.mp hs), if_neg hs, if_neg (not_not_intro hd),
        hc.getDynamicTableIndex_eq (by omega) (by omega)]
      rfl

/-- The entry a dynamic index names is one of those the table holds. -/
theorem Holds.lookup_entryKey (h : Holds conn t items) (hlo : staticTableSize < n)
    (hhi : n ≤ staticTableSize + t.info.count) :
    t.entries.lookup ⟨conn, entryKey t.info n⟩ =
      items[staticTableSize + t.info.count - n]? := by
  have hc := h.count
  exact h.store.lookup_eq (j := staticTableSize + t.info.count - n) (by omega)

end Beeper.Http2
