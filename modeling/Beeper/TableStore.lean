import Beeper.DynamicTable
import Beeper.RingStore
import Beeper.WeightedQueue

namespace Beeper.Http2

open WeightedQueue (total trim)

/-- The size of an entry whose name and value are as long as a match can be. -/
def maxEntrySize : Nat := 2 * 0xffff + 32

/-- The entries of `conn` are `items`, the oldest one first, each stored under the running count
of the entries added before it. -/
structure Holds (conn : Ip4Conn) (t : DynamicTable) (items : List DynamicTableEntry) : Prop where
  store : RingStore.Holds (2 ^ 32) (fun idx => t.entries.lookup ⟨conn, idx⟩)
    (dynamicTableBase + t.info.deleted) items
  count : t.info.count = items.length
  size : t.info.size = total DynamicTableEntry.size items
  sizes : ∀ e ∈ items, e.size ≤ maxEntrySize
  deleted_lt : t.info.deleted < 2 ^ 32

/-- What an operation on the table of `conn` leaves alone. -/
structure Keeps (conn : Ip4Conn) (t t' : DynamicTable) : Prop where
  others : ∀ k, k.conn ≠ conn → t'.entries.lookup k = t.entries.lookup k
  errors : t'.errors = t.errors

theorem Keeps.refl {conn : Ip4Conn} (t : DynamicTable) : Keeps conn t t := ⟨fun _ _ => rfl, rfl⟩

theorem Keeps.trans {conn : Ip4Conn} {t t' t'' : DynamicTable} (h : Keeps conn t t')
    (h' : Keeps conn t' t'') : Keeps conn t t'' :=
  ⟨fun k hk => (h'.others k hk).trans (h.others k hk), h'.errors.trans h.errors⟩

variable {conn : Ip4Conn} {t : DynamicTable} {items : List DynamicTableEntry}

/-- The number of entries of every connection but `conn`. -/
def otherEntries (conn : Ip4Conn) (entries : DynamicTableMap) : Nat :=
  entries.countKeys fun k => decide (k.conn ≠ conn)

theorem Keeps.otherEntries_eq {t' : DynamicTable} (h : Keeps conn t t') :
    otherEntries conn t'.entries = otherEntries conn t.entries :=
  BoundedMap.countKeys_congr fun k hk => h.others k (by simpa using hk)

/-- The keys the `n` oldest entries are stored under. -/
theorem keys_nodup (conn : Ip4Conn) (t : DynamicTable) {n : Nat} (hn : n ≤ 2 ^ 32) :
    ((List.range n).map fun j =>
      (⟨conn, (dynamicTableBase + t.info.deleted + j) % 2 ^ 32⟩ : DynamicTableKey)).Nodup := by
  have h := RingStore.keys_nodup (dynamicTableBase + t.info.deleted) hn
  have hm := h.map (f := DynamicTableKey.mk conn) fun a b hab => (DynamicTableKey.mk.inj hab).2
  rwa [List.map_map] at hm

/-- No more entries than the map has room for. -/
theorem Holds.length_le (h : Holds conn t items) : items.length ≤ mapMaxEntries := by
  by_contra hlt
  have hks := BoundedMap.length_le_card (m := t.entries)
    (keys_nodup conn t (show mapMaxEntries + 1 ≤ 2 ^ 32 by decide))
  have hle := hks ?_
  · have := t.entries.card_le
    simp only [List.length_map, List.length_range, BoundedMap.card] at hle
    omega
  · intro k hk
    obtain ⟨j, hj, rfl⟩ := List.mem_map.mp hk
    have hlen : j < items.length := by have := List.mem_range.mp hj; omega
    have hs := h.store.lookup_eq hlen
    simp only [hs, List.getElem?_eq_getElem hlen, Option.isSome_some]

/-- The keys of the map are those of `conn` and those of the other connections. -/
theorem Holds.card_eq (h : Holds conn t items) :
    t.entries.card = items.length + otherEntries conn t.entries := by
  rw [BoundedMap.card_eq_countKeys_add (fun k => decide (k.conn = conn))]
  congr 1
  · have hl := h.length_le
    unfold mapMaxEntries at hl
    rw [BoundedMap.countKeys_eq_length
      (keys_nodup conn t (show items.length ≤ 2 ^ 32 by omega))]
    · simp
    · rintro ⟨c, idx⟩
      have hi := h.store.isSome_iff (k := idx)
      simp only [List.mem_map, List.mem_range, DynamicTableKey.mk.injEq, decide_eq_true_eq]
      constructor
      · rintro ⟨j, hj, rfl, rfl⟩
        exact ⟨rfl, hi.mpr ⟨j, hj, rfl⟩⟩
      · rintro ⟨rfl, hs⟩
        obtain ⟨j, hj, rfl⟩ := hi.mp hs
        exact ⟨j, hj, rfl, rfl⟩
  · simp [otherEntries]

theorem total_le_of_sizes (hs : ∀ e ∈ items, e.size ≤ maxEntrySize) :
    total DynamicTableEntry.size items ≤ items.length * maxEntrySize := by
  induction items with
  | nil => simp
  | cons e items ih =>
    have he := hs e List.mem_cons_self
    have hr := ih fun x hx => hs x (List.mem_cons_of_mem e hx)
    simp only [WeightedQueue.total_cons, List.length_cons, Nat.succ_mul]
    omega

/-- Sizes stay far below what a counter of 32 bits holds. -/
theorem Holds.size_le (h : Holds conn t items) : t.info.size ≤ mapMaxEntries * maxEntrySize := by
  rw [h.size]
  exact Nat.le_trans (total_le_of_sizes h.sizes) (Nat.mul_le_mul_right _ h.length_le)

/-- The number of entries ever added, which their keys are counted from. -/
def DynamicTableInfo.running (info : DynamicTableInfo) : Nat := u32 (info.deleted + info.count)

/-- What evicting for an entry of size `n` comes to. -/
structure Evicted (conn : Ip4Conn) (n : Nat) (t : DynamicTable) (items : List DynamicTableEntry)
    (r : Nat × DynamicTable) : Prop where
  holds : Holds conn r.2 (trim DynamicTableEntry.size n t.info.maxSize items)
  keeps : Keeps conn t r.2
  maxSize : r.2.info.maxSize = t.info.maxSize
  dirty : r.2.info.dirty = t.info.dirty
  freed : r.1 + r.2.info.size = t.info.size
  running : r.2.info.running = t.info.running
  deleted_le : t.info.deleted + t.info.count < 2 ^ 32 →
    r.2.info.deleted + r.2.info.count = t.info.deleted + t.info.count

/-- Removing the oldest entry. -/
theorem Holds.evict {e : DynamicTableEntry} (h : Holds conn t (e :: items)) :
    Holds conn (evictEntry conn (u32 (dynamicTableBase + t.info.deleted)) e t) items where
  store := by
    have hl := h.length_le
    unfold mapMaxEntries at hl
    simp only [List.length_cons] at hl
    have hp := h.store.pop (fun idx =>
        (t.entries.erase ⟨conn, u32 (dynamicTableBase + t.info.deleted)⟩).lookup ⟨conn, idx⟩)
      (by omega)
      (fun k => by simp [u32])
    refine (hp.congr ?_).ext fun k => ?_
    · simp only [evictEntry, u32]
      omega
    · simp only [evictEntry]
  count := by
    have hl := h.length_le
    have hc := h.count
    simp only [List.length_cons, mapMaxEntries] at hl hc
    simp only [evictEntry]
    rw [u32Sub_of_le (by omega)]
    omega
  size := by
    have hle := h.size_le
    have hs := h.size
    simp only [WeightedQueue.total_cons, mapMaxEntries, maxEntrySize] at hs hle
    simp only [evictEntry]
    rw [u32Sub_of_le (by omega)]
    omega
  sizes := fun x hx => h.sizes x (List.mem_cons_of_mem e hx)
  deleted_lt := u32_lt _

theorem Keeps.evictEntry (idx : Nat) (e : DynamicTableEntry) (t : DynamicTable) :
    Keeps conn t (evictEntry conn idx e t) where
  others k hk := by
    have hne : k ≠ ⟨conn, idx⟩ := by
      rintro rfl
      exact hk rfl
    simp [Http2.evictEntry, hne]
  errors := evictEntry_errors conn idx e t

theorem tryEvictDynamicTableEntries_evicted {n rounds : Nat} (h : Holds conn t items)
    (hr : items.length = rounds) (hn : n ≤ maxEntrySize) :
    Evicted conn n t items (tryEvictDynamicTableEntries conn n rounds t) := by
  induction rounds generalizing t items with
  | zero =>
    cases List.length_eq_zero_iff.mp hr
    exact ⟨h, .refl t, rfl, rfl, by simp [tryEvictDynamicTableEntries], rfl, fun _ => rfl⟩
  | succ rounds ih =>
    obtain ⟨e, items, rfl⟩ := List.exists_cons_of_length_eq_add_one hr
    have hle := h.size_le
    have hsum : u32 (t.info.size + n) = total DynamicTableEntry.size (e :: items) + n := by
      rw [← h.size]
      simp only [u32, mapMaxEntries, maxEntrySize] at *
      omega
    unfold tryEvictDynamicTableEntries
    rw [hsum]
    split
    next hfit =>
      refine ⟨?_, .refl t, rfl, rfl, by simp, rfl, fun _ => rfl⟩
      rwa [WeightedQueue.trim_eq_self hfit]
    next hfull =>
      have hlook : t.entries.lookup ⟨conn, u32 (dynamicTableBase + t.info.deleted)⟩ = some e := by
        rw [u32_eq]
        exact h.store.lookup (j := 0) rfl
      simp only [hlook]
      have hev := ih h.evict (by simpa using hr)
      generalize tryEvictDynamicTableEntries conn n rounds _ = r at hev
      obtain ⟨freed, t'⟩ := r
      refine ⟨?_, (Keeps.evictEntry _ e t).trans hev.keeps, hev.maxSize.trans (by simp),
        hev.dirty.trans (by simp), ?_, ?_, ?_⟩
      · rw [WeightedQueue.trim_cons_heavy (Nat.not_le.mp hfull)]
        simpa using hev.holds
      · have hf := hev.freed
        have hs := h.size
        simp only [WeightedQueue.total_cons] at hs
        simp only [evictEntry, mapMaxEntries, maxEntrySize] at hf hle ⊢
        rw [u32Sub_of_le (by omega)] at hf
        rw [u32_of_lt (by omega)]
        omega
      · rw [hev.running]
        have hc := h.count
        simp only [List.length_cons] at hc
        simp only [evictEntry, DynamicTableInfo.running, u32]
        rw [u32Sub_of_le (by omega)]
        omega
      · intro hlt
        have hc := h.count
        have hl := h.length_le
        simp only [List.length_cons, mapMaxEntries] at hc hl
        have hd := hev.deleted_le
        simp only [evictEntry, u32] at hd ⊢
        rw [u32Sub_of_le (by omega)] at hd
        omega

end Beeper.Http2
