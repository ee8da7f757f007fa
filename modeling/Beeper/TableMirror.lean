import Beeper.IndexedValues
import Beeper.LongLived
import Beeper.StaticEntries

namespace Beeper.Http2

open WeightedQueue (trim)

/-- The entry `hf` shows the field `f`, the way it was sent and as far as an entry keeps it. -/
structure Shown (hf : Http2HdrField) (f : HeaderField Coded) : Prop where
  key : hf.key = f.name.wire.take headerFieldMaxlen
  keyHuff : hf.keyHuff = f.name.huff
  val : hf.val = f.value.wire.take headerFieldMaxlen
  valHuff : hf.valHuff = f.value.huff
  whole : f.name.huff = true → f.name.wire.length ≤ headerFieldMaxlen

/-- The entry `e` stands for the field `f` of a decoder. -/
structure Stands (e : DynamicTableEntry) (f : HeaderField Coded) : Prop where
  shown : Shown e.field f
  size : e.size = f.size

/-- The entries of `conn` are those of a decoder that keeps `q`, unless the table is dirty. -/
def Mirrored (conn : Ip4Conn) (t : DynamicTable) (q : HeaderTable Coded) : Prop :=
  ∃ items, Holds conn t items ∧ (t.info.dirty = 0 → List.Forall₂ Stands items q.items)

variable {rd : Rodata} {captures : List (Bytes × MatchId)} {conn : Ip4Conn} {t t' : DynamicTable}
  {q : HeaderTable Coded} {items : List DynamicTableEntry} {entry : DynamicTableEntry}
  {f : HeaderField Coded} {hf : Http2HdrField} {name value : Coded} {n : Nat}

theorem Holding.shown (h : Holding hf f) : Shown hf f := by
  have hkey : f.name.wire.length ≤ headerFieldMaxlen := h.key ▸ hf.key_le
  have hval : f.value.wire.length ≤ headerFieldMaxlen := h.val ▸ hf.val_le
  refine ⟨?_, h.keyHuff, ?_, h.valHuff, fun _ => hkey⟩
  · rw [List.take_of_length_le hkey, h.key]
  · rw [List.take_of_length_le hval, h.val]

/-- What an index of either table names is what it names for the decoder. -/
theorem Mirrored.lookup (h : Mirrored conn t q) (hd : t.info.dirty = 0)
    (ha : Attached huffmanCode captures rd) (n : Nat) :
    Option.Rel Shown (getTableEntry rd conn t n) (HeaderDecoder.lookup codedFields q n) := by
  obtain ⟨items, hi, hrel⟩ := h
  unfold HeaderDecoder.lookup
  by_cases h0 : n = 0
  · rw [if_pos h0, hi.getTableEntry_eq hd, entryRef, if_pos (.inl h0)]
    exact .none
  rw [if_neg h0, codedFields_length]
  by_cases hs : n ≤ staticTableSize
  · obtain ⟨f, hf, hfield, hstatic, hholding⟩ := ha.lookupStatic (show 0 < n by omega) hs
    rw [if_pos hs, hfield, hi.countable.getTableEntry_fixed (show 0 < n by omega) hs, hstatic]
    exact .some hholding.shown
  · have hback : n - staticTableSize - 1 = n - dynamicTableBase := by
      unfold staticTableSize dynamicTableBase
      omega
    rw [if_neg hs, hi.getTableEntry_recent hd (Nat.not_le.mp hs), WeightedQueue.recent_eq, hback]
    have hrev := List.rel_reverse (hrel hd)
    rw [List.forall₂_iff_get] at hrev
    by_cases hlt : n - dynamicTableBase < items.reverse.length
    · rw [List.getElem?_eq_getElem hlt, List.getElem?_eq_getElem (hrev.1 ▸ hlt)]
      exact .some (hrev.2 _ hlt (hrev.1 ▸ hlt)).shown
    · rw [List.getElem?_eq_none (Nat.not_lt.mp hlt), List.getElem?_eq_none (by omega)]
      exact .none

/-- An index the decoder finds a field for. -/
theorem Mirrored.lookup_some (h : Mirrored conn t q) (hd : t.info.dirty = 0)
    (ha : Attached huffmanCode captures rd) (hl : HeaderDecoder.lookup codedFields q n = some f) :
    u32 n = n ∧ 0 < n ∧ n ≤ staticTableSize + t.info.count ∧
      ∃ hf, getTableEntry rd conn t n = some hf ∧ Shown hf f := by
  have hrel := h.lookup hd ha n
  rw [hl] at hrel
  obtain ⟨items, hi, -⟩ := h
  cases hg : getTableEntry rd conn t n with
  | none =>
    rw [hg] at hrel
    cases hrel
  | some hf =>
    rw [hg] at hrel
    cases hrel with
    | some hshown =>
    have hvalid : ¬(n = 0 ∨ staticTableSize + t.info.count < n) := by
      intro hinv
      rw [hi.getTableEntry_eq hd, entryRef, if_pos hinv] at hg
      cases hg
    have hc := hi.countable.count_le
    refine ⟨u32_of_lt ?_, by omega, by omega, hf, rfl, hshown⟩
    unfold staticTableSize at hvalid
    unfold mapMaxEntries at hc
    omega

/-- The slot of an index holds the entry that the index names. -/
theorem Holds.slotField_entry (h : Holds conn t items) (hd : t.info.dirty = 0)
    (hslot : SlotHolds t.info n) (hg : getTableEntry rd conn t n = some hf) :
    slotField rd conn t.entries (slotOf t.info n) = some hf := by
  rw [h.getTableEntry_eq hd] at hg
  have hin : ¬(n = 0 ∨ staticTableSize + t.info.count < n) := by
    intro hinv
    rw [entryRef, if_pos hinv] at hg
    cases hg
  rw [slotField_eq, (h.countable.slotRef_iff hin).mpr hslot, hg]

/-- The length that is counted for a string that is kept as a whole, or sent plain. -/
theorem countedLen_text {isVal : Bool} {s : Coded}
    (hsrc : (if isVal then hf.val else hf.key) = s.wire.take headerFieldMaxlen)
    (hcut : ¬(decide (headerFieldMaxlen < s.wire.length) && s.huff) = true) :
    (if s.huff then hpackHuffmanDecodedLen hf isVal (min s.wire.length headerFieldMaxlen)
      else s.wire.length) = s.text.length := by
  obtain ⟨text, huff⟩ := s
  cases huff with
  | false => rfl
  | true =>
    have hlen : (Huffman.encode text).length ≤ headerFieldMaxlen := by
      simpa [Coded.wire, wireForm] using hcut
    rw [if_pos rfl]
    exact (congrArg _ (Nat.min_eq_left hlen)).trans
      (decodedLen_wire (hsrc.trans (List.take_of_length_le hlen)) hlen)

/-- The text of a string that is counted off what is kept of it. -/
theorem text_length_le {s : Coded} (hlen : s.wire.length ≤ 0xffff)
    (hcut : ¬(decide (headerFieldMaxlen < s.wire.length) && s.huff) = true) :
    s.text.length ≤ 0xffff := by
  obtain ⟨text, huff⟩ := s
  cases huff with
  | false => exact hlen
  | true =>
    have hfit : (Huffman.encode text).length ≤ headerFieldMaxlen := by
      simpa [Coded.wire, wireForm] using hcut
    have hle := hpackHuffmanDecodedLen_le (keptField (Huffman.encode text, true) ([], false)) false
      (Huffman.encode text).length
    rw [@decodedLen_wire (keptField (Huffman.encode text, true) ([], false)) false text
      (List.take_of_length_le hfit) hfit] at hle
    exact Nat.le_trans hle (by decide)

/-- The entry that is made up of a name and a value stands for their field. -/
theorem sizedEntry_stands (hn : name.wire.length ≤ 0xffff) (hv : value.wire.length ≤ 0xffff)
    (h : sizedEntry (name.wire, name.huff) (value.wire, value.huff) = some entry) :
    Stands entry ⟨name, value⟩ ∧ entry.size ≤ maxEntrySize := by
  have hsize := sizedEntry_size_le hn hv h
  unfold sizedEntry at h
  simp only at h
  split at h
  · cases h
  next hcut =>
  rw [Bool.or_eq_true, not_or] at hcut
  refine ⟨?_, hsize⟩
  cases h
  have hname := text_length_le hn hcut.1
  have hvalue := text_length_le hv hcut.2
  refine ⟨⟨rfl, rfl, rfl, rfl, fun hhuff => ?_⟩, ?_⟩
  · have hfit := hcut.1
    rw [hhuff, Bool.and_true, decide_eq_true_eq] at hfit
    exact Nat.not_lt.mp hfit
  · have hk := @countedLen_text (keptField (name.wire, name.huff) (value.wire, value.huff)) false name
      rfl hcut.1
    have hw := @countedLen_text (keptField (name.wire, name.huff) (value.wire, value.huff)) true value
      rfl hcut.2
    refine (congrArg u32 (congrArg (· + 32) (congrArg₂ (· + ·) hk hw))).trans ?_
    exact u32_of_lt (by omega)

/-- Adding an entry adds the field it stands for. -/
theorem Mirrored.insert (h : Mirrored conn t q) (hd : t.info.dirty = 0)
    (hmax : t.info.maxSize = q.cap) (hs : Stands entry f) (he : entry.size ≤ maxEntrySize)
    (hroom : (insertEntry conn t entry).1 ≠ some .ENOSPC) :
    Mirrored conn (insertEntry conn t entry).2 (q.push f) := by
  obtain ⟨items, hi, hrel⟩ := h
  obtain ⟨-, ho⟩ := (insertEntry_inserted hi he).outcome.resolve_right fun hfull => hroom hfull.1
  refine ⟨_, ho, fun _ => ?_⟩
  rw [WeightedQueue.push_items, pushed, hmax, hs.size]
  split
  · exact List.rel_append (WeightedQueue.trim_related (fun _ _ hst => hst.size) (hrel hd))
      (.cons hs .nil)
  · exact .nil

theorem Mirrored.setDirty (h : Mirrored conn t q) (q' : HeaderTable Coded) :
    Mirrored conn t.setDirty q' := by
  obtain ⟨items, hi, -⟩ := h
  exact ⟨items, ⟨hi.store, hi.count, hi.size, hi.sizes, hi.deleted_lt⟩, fun hd => by cases hd⟩

theorem Mirrored.resized (h : Mirrored conn t q) (n : Nat) :
    Mirrored conn (Http2.resized conn t n) (q.resize n) := by
  obtain ⟨items, hi, hrel⟩ := h
  have hev := hi.resize n
  refine ⟨_, hev.holds, fun hd => ?_⟩
  exact WeightedQueue.trim_related (fun _ _ hst => hst.size) (hrel (hev.dirty.symm.trans hd))

end Beeper.Http2
