import Beeper.IndexEntries
import Beeper.SizeBound

namespace Beeper.Http2

open WeightedQueue (trim)

variable {rd : Rodata} {conn : Ip4Conn} {t t' : DynamicTable} {items : List DynamicTableEntry}
  {entry : DynamicTableEntry} {n : Nat}

/-- The dynamic indices count backwards from the entry that was added last. -/
theorem Holds.getTableEntry_recent (h : Holds conn t items) (hd : t.info.dirty = 0)
    (hlo : staticTableSize < n) : getTableEntry rd conn t n =
      (items.reverse[n - dynamicTableBase]?).map DynamicTableEntry.field := by
  have hc := h.count
  rw [h.getTableEntry_eq hd]
  by_cases hhi : n ≤ staticTableSize + t.info.count
  · have hlt : n - dynamicTableBase < items.length := by
      unfold staticTableSize dynamicTableBase at *
      omega
    have hlast : items.length - 1 - (n - dynamicTableBase) =
        staticTableSize + t.info.count - n := by
      unfold staticTableSize dynamicTableBase at *
      omega
    rw [entryRef, if_neg (by omega), if_neg (Nat.not_le.mpr hlo), Option.bind_some, refField,
      h.lookup_entryKey hlo hhi, List.getElem?_reverse hlt, hlast]
  · have hge : items.reverse.length ≤ n - dynamicTableBase := by
      rw [List.length_reverse]
      unfold staticTableSize dynamicTableBase at *
      omega
    rw [entryRef, if_pos (by omega), List.getElem?_eq_none hge]
    rfl

/-- The table `t'` is the table `t` with `entry` added to it: the entry is the newest one, the index
of each of the others that are left is one more than it was, and an entry that is larger than the
table empties it. -/
structure Moved (rd : Rodata) (conn : Ip4Conn) (t t' : DynamicTable) (entry : DynamicTableEntry) :
    Prop where
  dirty : t'.info.dirty = 0
  maxSize : t'.info.maxSize = t.info.maxSize
  emptied : t.info.maxSize < entry.size → t'.info.count = 0
  counted : entry.size ≤ t.info.maxSize →
    0 < t'.info.count ∧ t'.info.deleted + t'.info.count = t.info.deleted + t.info.count + 1
  newest : entry.size ≤ t.info.maxSize → getTableEntry rd conn t' dynamicTableBase = some entry.field
  older : ∀ n, staticTableSize < n → n < staticTableSize + t'.info.count →
    getTableEntry rd conn t' (n + 1) = getTableEntry rd conn t n

/-- An entry that is stored is counted. -/
theorem Holds.grew (h : Holds conn t items) (hfit : entry.size ≤ t.info.maxSize)
    (he : entry.size ≤ maxEntrySize) (hroom : (insertEntry conn t entry).1 ≠ some .ENOSPC) :
    Grew 1 t.info (insertEntry conn t entry).2.info := by
  have hev := tryEvictDynamicTableEntries_evicted h h.count.symm he
  unfold insertEntry at hroom ⊢
  generalize tryEvictDynamicTableEntries conn entry.size t.info.count t = r at hev hroom ⊢
  have hroomy := WeightedQueue.trim_total_le DynamicTableEntry.size items hfit
  have hs := hev.holds.size_le
  have hz := hev.holds.size
  have hu : u32 (r.2.info.size + entry.size) = r.2.info.size + entry.size := by
    apply u32_of_lt
    unfold mapMaxEntries maxEntrySize at *
    omega
  simp only [hu, hev.maxSize] at hroom ⊢
  rw [if_neg (by omega)] at hroom ⊢
  split at hroom
  next => exact absurd rfl hroom
  next entries hup =>
    have hg := hev.grew.trans (Grew.stored entry entries hev.holds)
    simpa using hg

/-- An insertion that finds room in the map moves the indices. -/
theorem Holds.moved (h : Holds conn t items) (hd : t.info.dirty = 0)
    (hlt : t.info.deleted + t.info.count + 1 < 2 ^ 32) (he : entry.size ≤ maxEntrySize)
    (hroom : (insertEntry conn t entry).1 ≠ some .ENOSPC) :
    Moved rd conn t (insertEntry conn t entry).2 entry := by
  have hi := insertEntry_inserted h he
  generalize hr : insertEntry conn t entry = r at hi hroom ⊢
  have hd' : r.2.info.dirty = 0 := hi.dirty.trans hd
  obtain ⟨-, ho⟩ := hi.outcome.resolve_right fun hfull => hroom hfull.1
  have hcount := ho.count
  by_cases hfit : entry.size ≤ t.info.maxSize
  · rw [pushed, if_pos hfit] at ho hcount
    rw [List.length_append, List.length_singleton] at hcount
    refine ⟨hd', hi.maxSize, fun hbig => absurd hfit (Nat.not_le.mpr hbig), fun _ => ⟨by omega, ?_⟩,
      fun _ => ?_, ?_⟩
    · have hg := (h.grew hfit he (hr ▸ hroom)).2 hlt
      rw [hr] at hg
      omega
    · rw [ho.getTableEntry_recent hd' (by decide), List.reverse_append]
      rfl
    · intro n hlo hhi
      have hsub : n + 1 - dynamicTableBase = n - dynamicTableBase + 1 := by
        unfold staticTableSize dynamicTableBase at *
        omega
      have hin : n - dynamicTableBase <
          (trim DynamicTableEntry.size entry.size t.info.maxSize items).reverse.length := by
        rw [List.length_reverse]
        unfold staticTableSize dynamicTableBase at *
        omega
      obtain ⟨gone, hgone⟩ := List.reverse_prefix.mpr (WeightedQueue.trim_suffix items)
      rw [ho.getTableEntry_recent hd' (by omega), h.getTableEntry_recent hd hlo, List.reverse_append,
        hsub]
      simp only [List.reverse_singleton, List.singleton_append, List.getElem?_cons_succ]
      rw [← hgone, List.getElem?_append_left hin]
  · rw [pushed, if_neg hfit] at ho hcount
    refine ⟨hd', hi.maxSize, fun _ => hcount, fun hle => absurd hle hfit,
      fun hle => absurd hle hfit, fun n hlo hhi => ?_⟩
    rw [hcount, List.length_nil] at hhi
    omega

theorem tryEvictDynamicTableEntries_card_le (k rounds : Nat) :
    (tryEvictDynamicTableEntries conn k rounds t).2.entries.card ≤ t.entries.card := by
  induction rounds generalizing t with
  | zero => exact Nat.le_refl _
  | succ rounds ih =>
    unfold tryEvictDynamicTableEntries
    split
    · exact Nat.le_refl _
    · simp only
      split
      next => exact Nat.le_refl _
      next entry hl =>
        exact Nat.le_trans ih (BoundedMap.card_erase_le _ _)

/-- The map is not full once the entries are gone that `entry` takes the place of, if it is stored. -/
def MapRoom (conn : Ip4Conn) (t : DynamicTable) (entry : DynamicTableEntry) : Prop :=
  let t' := (tryEvictDynamicTableEntries conn entry.size t.info.count t).2
  u32 (t'.info.size + entry.size) ≤ t'.info.maxSize → t'.entries.card < mapMaxEntries

theorem mapRoom_of_card (h : t.entries.card < mapMaxEntries) : MapRoom conn t entry :=
  fun _ => Nat.lt_of_le_of_lt (tryEvictDynamicTableEntries_card_le _ _) h

theorem MapRoom.inserted (h : MapRoom conn t entry) :
    (insertEntry conn t entry).1 ≠ some .ENOSPC := by
  unfold insertEntry
  simp only
  split
  · exact fun hn => by cases hn
  next hfit =>
    obtain ⟨entries, hup⟩ := BoundedMap.update_isSome (v := entry)
      (k := ⟨conn, u32 (dynamicTableBase + t.info.count + t.info.deleted)⟩)
      (Or.inr (h (Nat.not_lt.mp hfit)))
    rw [hup]
    exact fun hn => by cases hn

/-- A map that is not full has room for an entry. -/
theorem insertEntry_room (h : t.entries.card < mapMaxEntries) :
    (insertEntry conn t entry).1 ≠ some .ENOSPC :=
  (mapRoom_of_card h).inserted

/-- The name and the value of a field were added to the table `t`, and nothing else. -/
def Continues (rd : Rodata) (conn : Ip4Conn) (t t' : DynamicTable) (name : Http2HdrField)
    (value : Str) : Prop :=
  ∃ entry, sizedEntry (name.key, name.keyHuff) (value.raw, value.huff) = some entry ∧
    entry.field.key = name.key ∧ entry.field.keyHuff = name.keyHuff ∧
    entry.field.val = value.raw ∧ entry.field.valHuff = value.huff ∧ Moved rd conn t t' entry

/-- A name and a value that an entry has room for make up one. -/
theorem sizedEntry_short {key val : Bytes × Bool} (hk : key.1.length ≤ headerFieldMaxlen)
    (hv : val.1.length ≤ headerFieldMaxlen) :
    ∃ entry, sizedEntry key val = some entry ∧ entry.field.key = key.1 ∧
      entry.field.keyHuff = key.2 ∧ entry.field.val = val.1 ∧ entry.field.valHuff = val.2 := by
  have hkey : decide (headerFieldMaxlen < key.1.length) = false := decide_eq_false (by omega)
  have hval : decide (headerFieldMaxlen < val.1.length) = false := decide_eq_false (by omega)
  unfold sizedEntry
  simp only [hkey, hval, Bool.false_and, Bool.or_self, Bool.false_eq_true, if_false]
  exact ⟨_, rfl, List.take_of_length_le hk, rfl, List.take_of_length_le hv, rfl⟩

variable {v : View} {block front back int vs : Bytes} {st : HdrState} {mode : Indexing} {value : Str}

/-- A field that takes its name from an entry comes to an insertion. -/
theorem feed_named (hrd : ReadsReps rd) (hv : Legible rd v block)
    (hs : st.ps.s = sField) (hskip : st.ps.skip = 0) (hsrc : st.ps.src = v.src) (hn : 0 < n)
    (hint : IntWire mode.bits mode.max int n) (hval : StrWire readLen value vs)
    (hb : block = front ++ (int ++ vs) ++ back) :
    (feed rd v.ctx v.buf ((int ++ vs).zipIdx (v.base + front.length)) st).2.table =
      if mode = .incremental then
        addField v.ctx.conn st.table (nameBytes rd v.ctx.conn st.table (.idx n)) value
      else st.table := by
  obtain ⟨len, rfl, -, hl⟩ := hval.split
  obtain ⟨st1, hf1, hst1⟩ := exec_named v.ctx v.buf hrd ⟨hs, hskip, hsrc, rfl, rfl⟩ hn hint
    (v.base + front.length)
  obtain ⟨st', hf, hst⟩ := exec_value v.ctx v.buf hrd hst1 hval (v.base + front.length + int.length)
  obtain ⟨hloc, hread⟩ := hv.located
    (show block = front ++ (int ++ len) ++ value.raw ++ back by
      rw [hb]; simp only [List.append_assoc]) hl
  have hstop : v.base + front.length + int.length + (len ++ value.raw).length =
      v.base + (front ++ (int ++ len) ++ value.raw).length := by
    simp only [List.length_append]
    omega
  rw [List.zipIdx_append, feed_append, hf1]
  simp only [hf, hst.table]
  rw [hstop, hloc, added_eq v.ctx v.buf st.table _
    (getMatch_table v.ctx v.buf st.table.entries (slotOf_le _ _) 0 true) (hread _ _)]
  simp only [decide_eq_true_eq]
  rfl

/-- What the slot of an index names, if it is not lost. -/
theorem Holds.nameBytes_idx (h : Holds conn t items) (hd : t.info.dirty = 0)
    (hlt : dynamicTableBase + t.info.count + t.info.deleted < 2 ^ 32) (hlo : staticTableSize < n)
    (hhi : n ≤ staticTableSize + t.info.count) : nameBytes rd conn t (.idx n) =
      if entryKey t.info n ≤ 0xffff then
        (getTableEntry rd conn t n).map fun hf => (hf.key, hf.keyHuff)
      else none := by
  have hkey : dynamicTableBase ≤ entryKey t.info n := by
    unfold entryKey
    rw [Nat.mod_eq_of_lt (by omega)]
    omega
  have hu : u32 n = n := u32_of_lt (by unfold staticTableSize dynamicTableBase at *; omega)
  have hin : ¬(n = 0 ∨ staticTableSize + t.info.count < n) := by omega
  rw [nameBytes, hu, slotField_eq, h.countable.slotOf_eq, h.getTableEntry_eq hd, entryRef,
    if_neg hin, if_neg hin, if_neg (Nat.not_le.mpr hlo), if_neg (Nat.not_le.mpr hlo)]
  by_cases hbig : 0xffff < entryKey t.info n
  · rw [if_pos hbig, if_neg (Nat.not_le.mpr hbig)]
    rfl
  · rw [if_neg hbig, if_pos (Nat.not_lt.mp hbig), slotRef, if_pos hkey]

theorem Holds.continues_iff (h : Holds conn t items) (hd : t.info.dirty = 0)
    (hlt : dynamicTableBase + t.info.count + t.info.deleted < 2 ^ 32) (hlo : staticTableSize < n)
    (hhi : n ≤ staticTableSize + t.info.count) {name : Http2HdrField}
    (hname : getTableEntry rd conn t n = some name)
    (hshort : value.raw.length ≤ headerFieldMaxlen)
    (hroom : ∀ entry, sizedEntry (name.key, name.keyHuff) (value.raw, value.huff) = some entry →
      (insertEntry conn t entry).1 ≠ some .ENOSPC) :
    Continues rd conn t (addField conn t (nameBytes rd conn t (.idx n)) value) name value ↔
      entryKey t.info n ≤ 0xffff := by
  rw [h.nameBytes_idx hd hlt hlo hhi, hname]
  by_cases hkey : entryKey t.info n ≤ 0xffff
  · rw [if_pos hkey]
    refine iff_of_true ?_ hkey
    obtain ⟨entry, hent, hf⟩ := @sizedEntry_short (name.key, name.keyHuff)
      (value.raw, value.huff) name.key_le hshort
    have hsize := @sizedEntry_size_le (name.key, name.keyHuff) (value.raw, value.huff) entry
      (Nat.le_trans name.key_le (by decide)) (Nat.le_trans hshort (by decide)) hent
    have hadd : addField conn t (some (name.key, name.keyHuff)) value =
        (insertEntry conn t entry).2 := by
      unfold addField
      rw [if_neg (not_not_intro hd)]
      simp only [hent]
    refine ⟨entry, hent, hf.1, hf.2.1, hf.2.2.1, hf.2.2.2, ?_⟩
    rw [Option.map_some, hadd]
    exact h.moved hd (by unfold dynamicTableBase at hlt; omega) hsize (hroom entry hent)
  · rw [if_neg hkey]
    refine iff_of_false ?_ hkey
    have hadd : addField conn t none value = t := by
      unfold addField
      split <;> rfl
    rw [hadd]
    rintro ⟨entry, -, -, -, -, -, hm⟩
    by_cases hfit : entry.size ≤ t.info.maxSize
    · have := (hm.counted hfit).2
      omega
    · have := hm.emptied (Nat.not_le.mp hfit)
      omega

/-- A field that takes its name from an entry of the dynamic table is added to it, unless the key of
that entry is one that a match has no room for. -/
theorem named_continues_iff {encode : Bytes → Option Bytes} {captures : List (Bytes × MatchId)}
    (ha : Attached encode captures rd) (hv : Legible rd v block) (hs : st.ps.s = sField)
    (hskip : st.ps.skip = 0) (hsrc : st.ps.src = v.src) (hi : Holds v.ctx.conn st.table items)
    (hd : st.table.info.dirty = 0)
    (hlt : dynamicTableBase + st.table.info.count + st.table.info.deleted < 2 ^ 32)
    (hlo : staticTableSize < n) (hhi : n ≤ staticTableSize + st.table.info.count)
    (hint : IntWire Indexing.incremental.bits Indexing.incremental.max int n)
    (hval : StrWire readLen value vs) (hshort : value.raw.length ≤ headerFieldMaxlen)
    (hb : block = front ++ (int ++ vs) ++ back) {name : Http2HdrField}
    (hname : getTableEntry rd v.ctx.conn st.table n = some name)
    (hroom : ∀ entry, sizedEntry (name.key, name.keyHuff) (value.raw, value.huff) = some entry →
      (insertEntry v.ctx.conn st.table entry).1 ≠ some .ENOSPC) :
    Continues rd v.ctx.conn st.table
        (feed rd v.ctx v.buf ((int ++ vs).zipIdx (v.base + front.length)) st).2.table name value ↔
      entryKey st.table.info n ≤ 0xffff := by
  rw [feed_named ha.readsReps hv hs hskip hsrc (Nat.lt_of_le_of_lt (Nat.zero_le _) hlo) hint hval
    hb, if_pos rfl]
  exact hi.continues_iff hd hlt hlo hhi hname hshort hroom

/-- A table that is empty, after `deleted` entries were evicted. -/
def vacantTable (deleted : Nat) : DynamicTable := ⟨⟨0, 0, 4096, deleted, 0⟩, .empty, []⟩

def lastEntry : DynamicTableEntry := ⟨keptField ([0x61], false) ([0x62], false), 34⟩

/-- A table that holds a single entry, after the others were evicted. -/
def lastTable (deleted : Nat) : DynamicTable :=
  (insertEntry tableConn (vacantTable deleted) lastEntry).2

theorem vacantTable_holds {deleted : Nat} (h : deleted < 2 ^ 32) :
    Holds tableConn (vacantTable deleted) [] :=
  ⟨RingStore.holds_nil fun _ => rfl, rfl, rfl, fun _ he => absurd he List.not_mem_nil, h⟩

theorem lastTable_holds {deleted : Nat} (h : deleted + 1 < 2 ^ 32) :
    Holds tableConn (lastTable deleted) [lastEntry] ∧ (lastTable deleted).info.dirty = 0 ∧
      (lastTable deleted).info.deleted = deleted ∧ (lastTable deleted).info.count = 1 ∧
      (lastTable deleted).entries.card < mapMaxEntries := by
  have h0 := vacantTable_holds (show deleted < 2 ^ 32 by omega)
  have he : lastEntry.size ≤ maxEntrySize := by decide
  have hfit : lastEntry.size ≤ (vacantTable deleted).info.maxSize := show 34 ≤ 4096 by decide
  have hroom := @insertEntry_room tableConn (vacantTable deleted) lastEntry (show 0 < mapMaxEntries by decide)
  have hi := insertEntry_inserted h0 he
  have hg : (lastTable deleted).info.deleted + (lastTable deleted).info.count = deleted + 0 + 1 :=
    (h0.grew hfit he hroom).2 (show deleted + 0 + 1 < 2 ^ 32 by omega)
  obtain ⟨-, ho⟩ := hi.outcome.resolve_right fun hfull => hroom hfull.1
  rw [pushed, if_pos hfit] at ho
  have hcount : (lastTable deleted).info.count = 1 := ho.count
  have hone : (lastTable deleted).entries.card = 1 := by
    have hcard := ho.card_eq
    have hnone : 0 = 0 + otherEntries tableConn (vacantTable deleted).entries := h0.card_eq
    rw [hi.keeps.otherEntries_eq, ← Nat.zero_add (otherEntries _ _), ← hnone] at hcard
    exact hcard
  refine ⟨ho, hi.dirty, by omega, hcount, ?_⟩
  rw [hone]
  decide

section Last

/-- A field that takes its name from the only entry of the table. -/
def lastNamed : Bytes := [0x7e, 0x01, 0x63]

def lastValue : Str := ⟨false, [0x63]⟩

variable {deleted : Nat}

theorem lastTable_name (rd : Rodata) (h : deleted + 1 < 2 ^ 32) :
    getTableEntry rd tableConn (lastTable deleted) 62 = some lastEntry.field := by
  obtain ⟨hi, hd, -⟩ := lastTable_holds h
  rw [hi.getTableEntry_recent hd (by decide)]
  rfl

theorem lastTable_room (h : deleted + 1 < 2 ^ 32) (entry : DynamicTableEntry) :
    (insertEntry tableConn (lastTable deleted) entry).1 ≠ some .ENOSPC :=
  insertEntry_room (lastTable_holds h).2.2.2.2

theorem lastNamed_wire : IntWire Indexing.incremental.bits Indexing.incremental.max [0x7e] 62 ∧
    StrWire readLen lastValue ([0x01] ++ [0x63]) :=
  ⟨.short 0x7e (by decide) (by decide), letter_wire 0x63 rfl⟩

theorem lastNamed_legible (rd : Rodata) :
    Legible rd ⟨⟨lastNamed, tableConn⟩, .zero, .msg, 0⟩ lastNamed :=
  legible_msg ⟨lastNamed, tableConn⟩ [] lastNamed [] .zero rfl (by decide)

theorem lastTable_small (h : deleted + 63 < 2 ^ 32) : dynamicTableBase +
    (lastTable deleted).info.count + (lastTable deleted).info.deleted < 2 ^ 32 ∧
      entryKey (lastTable deleted).info 62 = dynamicTableBase + deleted := by
  obtain ⟨-, -, hdel, hcount, -⟩ := @lastTable_holds deleted (by omega)
  unfold entryKey
  rw [hdel, hcount]
  unfold staticTableSize dynamicTableBase
  omega

def lastState (deleted : Nat) : HdrState := ⟨lastTable deleted, .zero, newHttp2ParseState .msg⟩

/-- What is left of the table once the field was read. -/
def lastRead (rd : Rodata) (deleted : Nat) : DynamicTable :=
  (feed rd ⟨lastNamed, tableConn⟩ .zero (lastNamed.zipIdx 0) (lastState deleted)).2.table

/-- Once that many entries were evicted, a field whose name is an index is lost. -/
theorem named_lost : ∃ rd, Attached (fun s => some (Huffman.encode s)) [] rd ∧
    ¬Continues rd tableConn (lastTable 0xffff) (lastRead rd 0xffff) lastEntry.field
      lastValue := by
  obtain ⟨rd, ha⟩ := @attached_exists (fun s => some (Huffman.encode s)) fun s => ⟨_, rfl⟩
  obtain ⟨hi, hd, -, hcount, -⟩ := @lastTable_holds 0xffff (by decide)
  obtain ⟨hlt, hkey⟩ := @lastTable_small 0xffff (by decide)
  obtain ⟨hint, hval⟩ := lastNamed_wire
  have hread : lastRead rd 0xffff = addField tableConn (lastTable 0xffff)
      (nameBytes rd tableConn (lastTable 0xffff) (.idx 62)) lastValue :=
    @feed_named rd 62 ⟨⟨lastNamed, tableConn⟩, .zero, .msg, 0⟩ lastNamed [] [] _ _ (lastState 0xffff)
      _ _ ha.readsReps (lastNamed_legible rd) rfl rfl rfl (by decide) hint hval rfl
  refine ⟨rd, ha, fun hc => ?_⟩
  rw [hread] at hc
  have hle := (hi.continues_iff hd hlt (by decide) (by rw [hcount]; decide)
    (lastTable_name rd (by decide)) (by decide) fun entry _ => lastTable_room (by decide) entry).mp hc
  rw [hkey] at hle
  exact absurd hle (by decide)

theorem named_continuesLast : ∃ rd, Attached (fun s => some (Huffman.encode s)) [] rd ∧
    Continues rd tableConn (lastTable 0) (lastRead rd 0) lastEntry.field lastValue := by
  obtain ⟨rd, ha⟩ := @attached_exists (fun s => some (Huffman.encode s)) fun s => ⟨_, rfl⟩
  obtain ⟨hi, hd, -, hcount, -⟩ := @lastTable_holds 0 (by decide)
  obtain ⟨hlt, hkey⟩ := @lastTable_small 0 (by decide)
  obtain ⟨hint, hval⟩ := lastNamed_wire
  have hle : entryKey (lastTable 0).info 62 ≤ 0xffff := by
    rw [hkey]
    decide
  have hhi : 62 ≤ staticTableSize + (lastTable 0).info.count := by
    rw [hcount]
    decide
  have hiff := @named_continues_iff rd [lastEntry] 62 ⟨⟨lastNamed, tableConn⟩, .zero, .msg, 0⟩
    lastNamed [] [] _ _ (lastState 0) _ _ _ ha (lastNamed_legible rd) rfl rfl rfl hi hd hlt
    (by decide) hhi hint hval (by decide) rfl _ (lastTable_name rd (by decide))
    (fun entry _ => lastTable_room (by decide) entry)
  exact ⟨rd, ha, hiff.mpr hle⟩

end Last

end Beeper.Http2
