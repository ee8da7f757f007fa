import Beeper.HeaderByte
import Beeper.TableStore

namespace Beeper.Http2

open WeightedQueue (total trim)

variable {conn : Ip4Conn} {t t' : DynamicTable} {items : List DynamicTableEntry}

/-- The entries that are left once `entry` was added to `items`, where there is room for it. -/
def pushed (maxSize : Nat) (items : List DynamicTableEntry) (entry : DynamicTableEntry) :
    List DynamicTableEntry :=
  if entry.size ≤ maxSize then trim DynamicTableEntry.size entry.size maxSize items ++ [entry]
  else []

/-- The running count of the entries ever added went up by `k`. -/
def Grew (k : Nat) (info info' : DynamicTableInfo) : Prop :=
  info'.running = u32 (info.running + k) ∧
    (info.deleted + info.count + k < 2 ^ 32 →
      info'.deleted + info'.count = info.deleted + info.count + k)

/-- What adding `entry` comes to: it is stored, or there is no room in the map for it. -/
structure Inserted (conn : Ip4Conn) (t : DynamicTable) (items : List DynamicTableEntry)
    (entry : DynamicTableEntry) (r : Option Errno × DynamicTable) : Prop where
  keeps : Keeps conn t r.2
  maxSize : r.2.info.maxSize = t.info.maxSize
  dirty : r.2.info.dirty = t.info.dirty
  grew : ∃ k ≤ 1, Grew k t.info r.2.info
  outcome : r.1 = none ∧ Holds conn r.2 (pushed t.info.maxSize items entry) ∨
    r.1 = some .ENOSPC ∧ entry.size ≤ t.info.maxSize ∧
      Holds conn r.2 (trim DynamicTableEntry.size entry.size t.info.maxSize items) ∧
      (trim DynamicTableEntry.size entry.size t.info.maxSize items).length +
        otherEntries conn t.entries = mapMaxEntries

theorem Grew.refl (info : DynamicTableInfo) : Grew 0 info info := by
  refine ⟨?_, fun _ => rfl⟩
  simp only [DynamicTableInfo.running, u32, Nat.add_zero, Nat.mod_mod]

theorem Grew.trans {k k' : Nat} {info info' info'' : DynamicTableInfo} (h : Grew k info info')
    (h' : Grew k' info' info'') : Grew (k + k') info info'' := by
  refine ⟨?_, fun hlt => ?_⟩
  · rw [h'.1, h.1]
    simp only [u32]
    omega
  · have h1 := h.2 (by omega)
    have h2 := h'.2 (by omega)
    omega

theorem Evicted.grew {n : Nat} {r : Nat × DynamicTable} (h : Evicted conn n t items r) :
    Grew 0 t.info r.2.info := by
  refine ⟨?_, fun hlt => h.deleted_le hlt⟩
  rw [h.running]
  simp only [DynamicTableInfo.running, u32, Nat.add_zero, Nat.mod_mod]

theorem Holds.stored {entry : DynamicTableEntry} {entries : DynamicTableMap} {idx : Nat}
    (h : Holds conn t items) (he : entry.size ≤ maxEntrySize)
    (hi : idx = u32 (dynamicTableBase + t.info.running))
    (hu : t.entries.update ⟨conn, idx⟩ entry = some entries) :
    Holds conn (storedEntry t entry entries) (items ++ [entry]) := by
  have hl := h.length_le
  have hs := h.size_le
  have hc := h.count
  have hz := h.size
  simp only [mapMaxEntries, maxEntrySize] at hl hs he
  refine ⟨?_, ?_, ?_, ?_, h.deleted_lt⟩
  · refine h.store.push (by omega) fun k => ?_
    have hk : idx = (dynamicTableBase + t.info.deleted + items.length) % 2 ^ 32 := by
      simp only [hi, DynamicTableInfo.running, hc, u32]
      omega
    simp only [storedEntry, BoundedMap.lookup_update hu, DynamicTableKey.mk.injEq, true_and, ← hk]
  · simp only [storedEntry, List.length_append, List.length_singleton]
    rw [u32_of_lt (by omega), hc]
  · simp only [storedEntry, WeightedQueue.total_append, WeightedQueue.total_cons,
      WeightedQueue.total_nil]
    rw [u32_of_lt (by omega), hz]
    omega
  · intro e hm
    rcases List.mem_append.mp hm with hm | hm
    · exact h.sizes e hm
    · rw [List.mem_singleton.mp hm]
      exact he

theorem Keeps.stored {entry : DynamicTableEntry} {entries : DynamicTableMap} {idx : Nat}
    (hu : t.entries.update ⟨conn, idx⟩ entry = some entries) :
    Keeps conn t (storedEntry t entry entries) := by
  refine ⟨fun k hk => ?_, rfl⟩
  have hne : k ≠ ⟨conn, idx⟩ := by
    rintro rfl
    exact hk rfl
  simp only [storedEntry, BoundedMap.lookup_update hu, if_neg hne]

theorem Grew.stored (entry : DynamicTableEntry) (entries : DynamicTableMap)
    (h : Holds conn t items) : Grew 1 t.info (storedEntry t entry entries).info := by
  have hl := h.length_le
  have hc := h.count
  simp only [mapMaxEntries] at hl
  simp only [Grew, storedEntry, DynamicTableInfo.running]
  rw [u32_of_lt (n := t.info.count + 1) (by omega)]
  simp only [u32]
  omega

theorem insertEntry_inserted {entry : DynamicTableEntry} (h : Holds conn t items)
    (he : entry.size ≤ maxEntrySize) :
    Inserted conn t items entry (insertEntry conn t entry) := by
  have hev := tryEvictDynamicTableEntries_evicted h h.count.symm he
  unfold insertEntry
  generalize tryEvictDynamicTableEntries conn entry.size t.info.count t = r at hev ⊢
  have hs := hev.holds.size_le
  have hz := hev.holds.size
  simp only [mapMaxEntries, maxEntrySize] at hs he
  have hu : u32 (r.2.info.size + entry.size) = r.2.info.size + entry.size :=
    u32_of_lt (by omega)
  simp only [hu, hev.maxSize]
  by_cases hfit : entry.size ≤ t.info.maxSize
  · have hroom := WeightedQueue.trim_total_le DynamicTableEntry.size items hfit
    rw [if_neg (by omega)]
    have hidx : u32 (dynamicTableBase + t.info.count + t.info.deleted) =
        u32 (dynamicTableBase + r.2.info.running) := by
      rw [hev.running]
      simp only [DynamicTableInfo.running, u32]
      omega
    split
    next hfull =>
      refine ⟨hev.keeps, hev.maxSize, hev.dirty, ⟨0, by omega, hev.grew⟩, .inr ?_⟩
      refine ⟨rfl, hfit, hev.holds, ?_⟩
      rw [← hev.keeps.otherEntries_eq, ← hev.holds.card_eq]
      exact (BoundedMap.update_eq_none hfull).2
    next entries hup =>
      refine ⟨hev.keeps.trans (.stored hup), hev.maxSize, hev.dirty,
        ⟨1, Nat.le_refl 1, ?_⟩, .inl ⟨rfl, ?_⟩⟩
      · have hg := hev.grew.trans (Grew.stored entry entries hev.holds)
        simpa using hg
      · rw [pushed, if_pos hfit]
        exact hev.holds.stored he hidx hup
  · have hnil := WeightedQueue.trim_eq_nil DynamicTableEntry.size items
      (Nat.not_le.mp hfit)
    have hzero : r.2.info.size = 0 := by rw [hz, hnil, WeightedQueue.total_nil]
    rw [if_pos (by omega)]
    refine ⟨hev.keeps, hev.maxSize, hev.dirty, ⟨0, by omega, hev.grew⟩, .inl ⟨rfl, ?_⟩⟩
    rw [pushed, if_neg hfit, ← hnil]
    exact hev.holds

end Beeper.Http2
