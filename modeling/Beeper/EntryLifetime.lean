import Beeper.BlockMeaning
import Beeper.IndexEntries

namespace Beeper.Http2

open WeightedQueue (trim)

/-- What is left of the entries `items` of `t` once `new` were added and the `d` oldest of all of them
were evicted. -/
structure Slid (conn : Ip4Conn) (t : DynamicTable) (items : List DynamicTableEntry)
    (t' : DynamicTable) (new : List DynamicTableEntry) (d : Nat) : Prop where
  le : d ≤ (items ++ new).length
  holds : Holds conn t' ((items ++ new).drop d)
  deleted : t'.info.deleted = u32 (t.info.deleted + d)

variable {conn : Ip4Conn} {t t' t'' : DynamicTable} {items new new' : List DynamicTableEntry}
  {entry : DynamicTableEntry} {d d' j : Nat}

theorem Slid.refl (h : Holds conn t items) : Slid conn t items t [] 0 where
  le := Nat.zero_le _
  holds := by
    rw [List.append_nil, List.drop_zero]
    exact h
  deleted := (u32_of_lt h.deleted_lt).symm

theorem Slid.trans (h : Slid conn t items t' new d)
    (h' : Slid conn t' ((items ++ new).drop d) t'' new' d') :
    Slid conn t items t'' (new ++ new') (d + d') := by
  have hle := h.le
  have hle' := h'.le
  have hdrop : (items ++ (new ++ new')).drop (d + d') = ((items ++ new).drop d ++ new').drop d' := by
    rw [← List.append_assoc, ← List.drop_drop, List.drop_append_of_le_length h.le]
  refine ⟨?_, ?_, ?_⟩
  · rw [List.length_append, List.length_drop] at hle'
    rw [← List.append_assoc, List.length_append]
    omega
  · rw [hdrop]
    exact h'.holds
  · rw [h'.deleted, h.deleted]
    simp only [u32_eq]
    omega

theorem Evicted.slid {n : Nat} {r : Nat × DynamicTable} (h : Evicted conn n t items r)
    (hi : Holds conn t items) : Slid conn t items r.2 []
      (items.length - (trim DynamicTableEntry.size n t.info.maxSize items).length) := by
  have hsuf : trim DynamicTableEntry.size n t.info.maxSize items <:+ items :=
    WeightedQueue.trim_suffix items
  have hlen := hsuf.length_le
  have hheld := h.holds
  rw [List.suffix_iff_eq_drop.mp hsuf] at hheld
  refine ⟨?_, ?_, ?_⟩
  · rw [List.append_nil]
    omega
  · rw [List.append_nil]
    exact hheld
  · have hrun := h.running
    have hcount := h.holds.count
    have hcount' := hi.count
    have hdel := h.holds.deleted_lt
    simp only [DynamicTableInfo.running, u32_eq] at hrun ⊢
    omega

theorem Slid.setDirty (h : Slid conn t items t' new d) : Slid conn t items t'.setDirty new d :=
  ⟨h.le, ⟨h.holds.store, h.holds.count, h.holds.size, h.holds.sizes, h.holds.deleted_lt⟩, h.deleted⟩

theorem insertEntry_slid (h : Holds conn t items) (he : entry.size ≤ maxEntrySize) :
    ∃ new d, (new = [] ∨ new = [entry] ∧ d ≤ items.length) ∧
      Slid conn t items (insertEntry conn t entry).2 new d := by
  have hev := tryEvictDynamicTableEntries_evicted h h.count.symm he
  have hsl := hev.slid h
  unfold insertEntry
  generalize tryEvictDynamicTableEntries conn entry.size t.info.count t = r at hev hsl ⊢
  simp only
  split
  · exact ⟨[], _, .inl rfl, hsl⟩
  · split
    next => exact ⟨[], _, .inl rfl, hsl⟩
    next entries hup =>
      have hidx : u32 (dynamicTableBase + t.info.count + t.info.deleted) =
          u32 (dynamicTableBase + r.2.info.running) := by
        rw [hev.running]
        simp only [DynamicTableInfo.running, u32_eq]
        omega
      have hle := hsl.le
      rw [List.append_nil] at hle
      have hheld := hsl.holds.stored he hidx hup
      rw [List.append_nil, ← List.drop_append_of_le_length hle] at hheld
      refine ⟨[entry], _, .inr ⟨rfl, hle⟩, ?_, hheld, hsl.deleted⟩
      rw [List.length_append]
      omega

/-- A string of a header block makes up an entry no larger than a match allows. -/
theorem addField_slid (h : Holds conn t items) {name : Option (Bytes × Bool)} {value : Str}
    (hn : ∀ k, name = some k → k.1.length ≤ 0xffff) (hv : value.raw.length ≤ 0xffff) :
    ∃ new d, (new = [] ∨ ∃ k entry, name = some k ∧
        sizedEntry k (value.raw, value.huff) = some entry ∧ new = [entry] ∧ d ≤ items.length) ∧
      Slid conn t items (addField conn t name value) new d := by
  unfold addField
  split
  · exact ⟨[], 0, .inl rfl, .refl h⟩
  cases name with
  | none => exact ⟨[], 0, .inl rfl, .refl h⟩
  | some k =>
    simp only
    cases hs : sizedEntry k (value.raw, value.huff) with
    | none => exact ⟨[], 0, .inl rfl, (Slid.refl h).setDirty⟩
    | some entry =>
      obtain ⟨new, d, hnew, hsl⟩ := insertEntry_slid h (sizedEntry_size_le (hn k rfl) hv hs)
      exact ⟨new, d, hnew.imp_right fun he => ⟨k, entry, rfl, hs, he⟩, hsl⟩

/-- An entry stays under its key until it is evicted, and nothing takes its place. -/
theorem Slid.lookup (hs : Slid conn t items t' new d) (h : Holds conn t items)
    (hj : items[j]? = some entry) (hnew : new.length < 2 ^ 31) :
    t'.entries.lookup ⟨conn, (dynamicTableBase + t.info.deleted + j) % 2 ^ 32⟩ =
      if d ≤ j then some entry else none := by
  have hlen := h.length_le
  have hle := hs.le
  have hlt := (List.getElem?_eq_some_iff.mp hj).1
  have hdel := hs.deleted
  rw [List.length_append] at hle
  unfold mapMaxEntries at hlen
  rw [u32_eq] at hdel
  split
  next hdj =>
    have hat : ((items ++ new).drop d)[j - d]? = some entry := by
      rw [List.getElem?_drop, Nat.add_sub_cancel' hdj, List.getElem?_append_left hlt]
      exact hj
    have hkey : (dynamicTableBase + t.info.deleted + j) % 2 ^ 32 =
        (dynamicTableBase + t'.info.deleted + (j - d)) % 2 ^ 32 := by omega
    rw [hkey]
    exact hs.holds.store.lookup hat
  next hdj =>
    refine hs.holds.store.absent fun j' hj' hkey => ?_
    rw [List.length_drop, List.length_append] at hj'
    omega

/-- By how much the number of entries that were ever added went up. -/
theorem Slid.added (hs : Slid conn t items t' new d) (h : Holds conn t items)
    (hnew : new.length < 2 ^ 31) : u32Sub t'.info.running t.info.running = new.length := by
  have hcount := h.count
  have hcount' := hs.holds.count
  have hdel := hs.deleted
  have hle := hs.le
  have hlen := h.length_le
  rw [List.length_drop] at hcount'
  rw [List.length_append] at hle hcount'
  unfold mapMaxEntries at hlen
  simp only [DynamicTableInfo.running, u32_eq, u32Sub] at hdel ⊢
  split <;> omega

section Blocks

variable {rd : Rodata} {cs : Captures} {rep : Rep} {reps : List Rep}

/-- The strings of a representation are no longer than what a match holds. -/
def Rep.Short : Rep → Prop
  | .literal _ (.lit s) value => s.raw.length ≤ 0xffff ∧ value.raw.length ≤ 0xffff
  | .literal _ (.idx _) value => value.raw.length ≤ 0xffff
  | _ => True

theorem Rep.Short.value_le {mode : Indexing} {name : Name} {value : Str}
    (h : (Rep.literal mode name value).Short) : value.raw.length ≤ 0xffff := by
  cases name with
  | lit s => exact h.2
  | idx n => exact h

theorem nameBytes_le (rd : Rodata) (conn : Ip4Conn) (t : DynamicTable) {mode : Indexing} {name : Name}
    {value : Str} (h : (Rep.literal mode name value).Short) :
    ∀ k, nameBytes rd conn t name = some k → k.1.length ≤ 0xffff := by
  intro k hk
  cases name with
  | lit s =>
    rw [← Option.some.inj hk]
    exact h.1
  | idx n =>
    obtain ⟨hf, -, rfl⟩ := Option.map_eq_some_iff.mp hk
    exact Nat.le_trans hf.key_le (by decide)

theorem meaning_slid (h : Holds conn t items) (hs : rep.Short) :
    ∃ new d, new.length ≤ 1 ∧ Slid conn t items (meaning rd conn t cs rep).1 new d := by
  have hsame : ∃ new d, new.length ≤ 1 ∧ Slid conn t items t new d :=
    ⟨[], 0, Nat.zero_le 1, .refl h⟩
  cases rep with
  | indexed n => exact hsame
  | tableSize n =>
    have hev := h.resize (u32 n)
    obtain ⟨hle, hheld, hdel⟩ := hev.slid (h.setMaxSize (u32 n))
    exact ⟨[], _, Nat.zero_le 1, hle, hheld, hdel⟩
  | literal mode name value =>
    simp only [meaning]
    split
    · obtain ⟨new, d, hnew, hsl⟩ := addField_slid h (nameBytes_le rd conn t hs) hs.value_le
      refine ⟨new, d, ?_, hsl⟩
      rcases hnew with rfl | ⟨-, -, -, -, rfl, -⟩
      · exact Nat.zero_le 1
      · exact Nat.le_refl 1
    · exact hsame

theorem blockMeaning_slid (h : Holds conn t items) (hs : ∀ rep ∈ reps, rep.Short) :
    ∃ new d, new.length ≤ reps.length ∧
      Slid conn t items (blockMeaning rd conn reps t cs).1 new d := by
  induction reps generalizing t items cs with
  | nil => exact ⟨[], 0, Nat.le_refl 0, .refl h⟩
  | cons rep reps ih =>
    obtain ⟨new, d, hnew, hsl⟩ := @meaning_slid conn t items rd cs rep h (hs rep List.mem_cons_self)
    obtain ⟨new', d', hnew', hsl'⟩ := @ih (meaning rd conn t cs rep).1 _
      (meaning rd conn t cs rep).2 hsl.holds fun r hr => hs r (List.mem_cons_of_mem rep hr)
    refine ⟨new ++ new', d + d', ?_, hsl.trans hsl'⟩
    rw [List.length_append, List.length_cons]
    omega

end Blocks

end Beeper.Http2
