import Beeper.TableSteps

namespace Beeper.Http2

open WeightedQueue (total trim)

/-- What a single byte of a header block can do to the table of `conn`. -/
inductive TableStep (conn : Ip4Conn) (t : DynamicTable) : DynamicTable → Prop
  | same : TableStep conn t t
  | drift : TableStep conn t t.setDirty
  | insert (entry : DynamicTableEntry) (he : entry.size ≤ maxEntrySize) :
      TableStep conn t (insertEntry conn t entry).2
  | resize (v : Nat) :
      TableStep conn t (tryEvictDynamicTableEntries conn 0 t.info.count (t.setMaxSize v)).2

/-- What the bytes of a header block do to it, at most `n` of them. -/
inductive TableWalk (conn : Ip4Conn) : Nat → DynamicTable → DynamicTable → Prop
  | nil (n : Nat) (t : DynamicTable) : TableWalk conn n t t
  | cons {n : Nat} {t t' t'' : DynamicTable} (h : TableStep conn t t')
      (hw : TableWalk conn n t' t'') : TableWalk conn (n + 1) t t''

theorem huffFold_n_le (bits : List Bool) (st : HuffState) :
    (bits.foldl huffStep st).n ≤ st.n + bits.length := by
  induction bits generalizing st with
  | nil => simp
  | cons b bits ih =>
    have hb : (huffStep st b).n ≤ st.n + 1 := by
      unfold huffStep
      simp only
      split
      · simp
      · split <;> simp
    have := ih (huffStep st b)
    simp only [List.foldl_cons, List.length_cons]
    omega

theorem flatMap_byteBits_length (bs : Bytes) : (bs.flatMap byteBits).length = 8 * bs.length := by
  induction bs with
  | nil => rfl
  | cons b bs ih =>
    simp only [List.flatMap_cons, List.length_append, ih, List.length_cons, byteBits,
      List.length_map, List.length_nil]
    omega

theorem hpackHuffmanDecodedLen_le (hf : Http2HdrField) (isVal : Bool) (n : Nat) :
    hpackHuffmanDecodedLen hf isVal n ≤ 8 * headerFieldMaxlen := by
  unfold hpackHuffmanDecodedLen
  refine Nat.le_trans (huffFold_n_le _ _) ?_
  rw [flatMap_byteBits_length]
  have := List.length_take_le (min n headerFieldMaxlen) (if isVal then hf.val else hf.key)
  have := Nat.min_le_right n headerFieldMaxlen
  simp only
  omega

theorem getMatch_length_le {rd : Rodata} {ctx : MsgCtx} {buf : BlockBuf}
    {entries : DynamicTableMap} {m : HttpMatch} {isKey : Bool} {b : Bytes × Bool}
    (h : getMatch rd ctx buf entries m isKey = some b) : b.1.length ≤ 0xffff := by
  have hlen : m.len.toNat < 2 ^ 16 := m.len.toNat_lt
  have hread : ∀ hf : Http2HdrField,
      (if isKey then (hf.key, hf.keyHuff) else (hf.val, hf.valHuff)).1.length ≤ 0xffff := by
    intro hf
    have hk := hf.key_le
    have hv := hf.val_le
    unfold headerFieldMaxlen at hk hv
    split
    · exact Nat.le_trans hk (by omega)
    · exact Nat.le_trans hv (by omega)
  unfold getMatch at h
  simp only at h
  split at h
  · split at h
    · simp at h
    · rw [← Option.some.inj h]
      have := List.length_take_le m.len.toNat (ctx.data.drop m.idx.toNat)
      simp only [slice]
      omega
  · split at h
    · simp at h
    · rw [← Option.some.inj h]
      simp only [BlockBuf.slice, List.length_map, List.length_range]
      omega
  · split at h
    · obtain ⟨e, -, rfl⟩ := Option.map_eq_some_iff.mp h
      exact hread e.field
    · split at h
      · simp at h
      · obtain ⟨hf, -, rfl⟩ := Option.map_eq_some_iff.mp h
        exact hread hf

theorem sizedEntry_size_le {key val : Bytes × Bool} {entry : DynamicTableEntry}
    (hk : key.1.length ≤ 0xffff) (hv : val.1.length ≤ 0xffff)
    (h : sizedEntry key val = some entry) : entry.size ≤ maxEntrySize := by
  unfold sizedEntry at h
  simp only at h
  split at h
  · simp at h
  · rw [← Option.some.inj h]
    have h1 := hpackHuffmanDecodedLen_le (keptField key val) false
      (min key.1.length headerFieldMaxlen)
    have h2 := hpackHuffmanDecodedLen_le (keptField key val) true
      (min val.1.length headerFieldMaxlen)
    simp only [headerFieldMaxlen, maxEntrySize] at *
    refine Nat.le_trans (u32_eq _ ▸ Nat.mod_le _ _) ?_
    split <;> split <;> omega

theorem addDynamicTableEntry_step (rd : Rodata) (ctx : MsgCtx) (buf : BlockBuf) (t : DynamicTable)
    (key val : HttpMatch) :
    TableStep ctx.conn t (addDynamicTableEntry rd ctx buf t key val).2 := by
  unfold addDynamicTableEntry
  split
  · exact .same
  split
  · exact .same
  next k hk =>
  split
  · exact .same
  next v hv =>
  split
  · exact .drift
  next entry he =>
  exact .insert entry (sizedEntry_size_le (getMatch_length_le hk) (getMatch_length_le hv) he)

theorem runIndexed_table (rd : Rodata) (ctx : MsgCtx) (st : HdrState) :
    (runIndexed rd ctx st).table = st.table := by
  unfold runIndexed
  simp only
  split
  · rfl
  · split
    · rfl
    · split <;> rfl

theorem runAction_step (rd : Rodata) (ctx : MsgCtx) (buf : BlockBuf) (t : DynamicTable)
    (pres : HttpParseRes) (ps : Http2ParseState) :
    TableStep ctx.conn t (runAction rd ctx buf ⟨t, pres, ps⟩).2.table := by
  unfold runAction
  simp only
  split
  case h_1 => rw [runIndexed_table]; exact .same
  case h_2 => rw [runIndexed_table]; exact .same
  case h_5 =>
    split
    · exact addDynamicTableEntry_step rd ctx buf t _ _
    · exact .same
  case h_6 => exact .resize _
  all_goals exact .same

theorem parseHdrByte_step (rd : Rodata) (ctx : MsgCtx) (buf : BlockBuf) (st : HdrState)
    (c : UInt8) : TableStep ctx.conn st.table (parseHdrByte rd ctx buf st c).2.table := by
  unfold parseHdrByte
  simp only
  split
  · exact .same
  · split
    · exact .same
    · split
      · exact .same
      · exact runAction_step rd ctx buf st.table st.pres _

variable {conn : Ip4Conn} {t t' : DynamicTable} {items : List DynamicTableEntry}

theorem Holds.setMaxSize (h : Holds conn t items) (v : Nat) : Holds conn (t.setMaxSize v) items :=
  ⟨h.store, h.count, h.size, h.sizes, h.deleted_lt⟩

theorem Keeps.setMaxSize (t : DynamicTable) (v : Nat) : Keeps conn t (t.setMaxSize v) :=
  ⟨fun _ _ => rfl, rfl⟩

/-- Evicting down to a new maximum size. -/
theorem Holds.resize (h : Holds conn t items) (v : Nat) :
    Evicted conn 0 (t.setMaxSize v) items
      (tryEvictDynamicTableEntries conn 0 t.info.count (t.setMaxSize v)) :=
  tryEvictDynamicTableEntries_evicted (h.setMaxSize v) h.count.symm (by simp)

/-- Each byte leaves the entries of the connection stored where they belong, those of the other
connections alone, and adds one entry at most. -/
theorem TableStep.holds (hs : TableStep conn t t') (h : Holds conn t items) :
    (∃ items', Holds conn t' items') ∧ Keeps conn t t' ∧ ∃ k ≤ 1, Grew k t.info t'.info := by
  cases hs with
  | same => exact ⟨⟨items, h⟩, .refl t, 0, by omega, .refl t.info⟩
  | drift =>
    exact ⟨⟨items, h.store, h.count, h.size, h.sizes, h.deleted_lt⟩, ⟨fun _ _ => rfl, rfl⟩,
      0, by omega, Grew.refl t.info⟩
  | insert entry he =>
    have hi := insertEntry_inserted h he
    refine ⟨?_, hi.keeps, hi.grew⟩
    rcases hi.outcome with ⟨-, ho⟩ | ⟨-, -, ho, -⟩
    · exact ⟨_, ho⟩
    · exact ⟨_, ho⟩
  | resize v =>
    have he := h.resize v
    exact ⟨⟨_, he.holds⟩, (Keeps.setMaxSize t v).trans he.keeps, 0, by omega, he.grew⟩

theorem TableWalk.holds {n : Nat} (hw : TableWalk conn n t t') (h : Holds conn t items) :
    (∃ items', Holds conn t' items') ∧ Keeps conn t t' ∧ ∃ k ≤ n, Grew k t.info t'.info := by
  induction hw generalizing items with
  | nil n t => exact ⟨⟨items, h⟩, .refl t, 0, by omega, .refl t.info⟩
  | cons hs hw ih =>
    obtain ⟨⟨items', h'⟩, hk, k, hle, hg⟩ := hs.holds h
    obtain ⟨hex, hk', k', hle', hg'⟩ := ih h'
    exact ⟨hex, hk.trans hk', k + k', by omega, hg.trans hg'⟩

/-- A block never leaves the table above its maximum size, if it was below before. -/
theorem TableStep.size_le (hs : TableStep conn t t') (h : Holds conn t items)
    (hb : t.info.size ≤ t.info.maxSize) : t'.info.size ≤ t'.info.maxSize := by
  cases hs with
  | same => exact hb
  | drift => exact hb
  | insert entry he =>
    have hi := insertEntry_inserted h he
    rw [hi.maxSize]
    rcases hi.outcome with ⟨-, ho⟩ | ⟨-, hfit, ho, -⟩
    · rw [ho.size, pushed]
      split
      next hfit => simpa using WeightedQueue.trim_total_le _ _ hfit
      next => simp
    · have := WeightedQueue.trim_total_le DynamicTableEntry.size items hfit
      rw [ho.size]
      omega
  | resize v =>
    have he := h.resize v
    rw [he.maxSize, he.holds.size]
    simpa [DynamicTable.setMaxSize] using
      WeightedQueue.trim_total_le DynamicTableEntry.size items
      (Nat.zero_le v)

theorem TableWalk.size_le {n : Nat} (hw : TableWalk conn n t t') (h : Holds conn t items)
    (hb : t.info.size ≤ t.info.maxSize) : t'.info.size ≤ t'.info.maxSize := by
  induction hw generalizing items with
  | nil n t => exact hb
  | cons hs hw ih =>
    obtain ⟨⟨items', h'⟩, -⟩ := hs.holds h
    exact ih h' (hs.size_le h hb)

end Beeper.Http2
