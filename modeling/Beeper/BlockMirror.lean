import Beeper.TableMirror

namespace Beeper.Http2

open HeaderDecoder (Instr decode decode_cons_some lookup nameOf step)

/-- The representation of an instruction. -/
inductive Means : Rep → Instr Coded → Prop
  | indexed (i : Nat) : Means (.indexed i) (.indexed i)
  | named (mode : Indexing) (i : Nat) (value : Coded) : Means (.literal mode (.idx i) value.str)
      (.literal (decide (mode = .incremental)) (.idx i) value)
  | new (mode : Indexing) (name value : Coded) : Means (.literal mode (.lit name.str) value.str)
      (.literal (decide (mode = .incremental)) (.lit name) value)
  | tableSize (n : Nat) : Means (.tableSize n) (.resize n)

/-- A field that is added to the table comes with an index whose slot is kept, and finds room in the
map. -/
structure Storable (rd : Rodata) (conn : Ip4Conn) (t : DynamicTable) (rep : Rep) : Prop where
  slot : ∀ i value, rep = .literal .incremental (.idx i) value → t.info.dirty = 0 →
    SlotHolds t.info i
  room : ∀ name value key entry, rep = .literal .incremental name value → t.info.dirty = 0 →
    nameBytes rd conn t name = some key → sizedEntry key (value.raw, value.huff) = some entry →
      MapRoom conn t entry

/-- A field is added under the name of another one only if an entry keeps that name as a whole, or the
table is dirty. -/
def NameKept (t : DynamicTable) (q : HeaderTable Coded) (x : Instr Coded) : Prop :=
  ∀ i value f, x = .literal true (.idx i) value → t.info.dirty = 0 →
    lookup codedFields q i = some f → f.name.wire.length ≤ headerFieldMaxlen

/-- A field is added to a table of the same maximum size, or one that is dirty. -/
def SameMax (t : DynamicTable) (q : HeaderTable Coded) (x : Instr Coded) : Prop :=
  ∀ name value, x = .literal true name value → t.info.dirty = 0 → t.info.maxSize = q.cap

/-- An entry keeps the strings that come with a field as a whole, if it is added to the table. -/
def Keepable (x : Instr Coded) : Prop :=
  ∀ name value, x = .literal true name value → value.wire.length ≤ headerFieldMaxlen ∧
    ∀ s, name = .lit s → s.wire.length ≤ headerFieldMaxlen

/-- Entries keep the fields of the table `q` as a whole. -/
def AllKept (q : HeaderTable Coded) : Prop :=
  ∀ f ∈ q.items, f.name.wire.length ≤ headerFieldMaxlen ∧ f.value.wire.length ≤ headerFieldMaxlen

variable {rd : Rodata} {captures : List (Bytes × MatchId)} {conn : Ip4Conn} {t : DynamicTable}
  {q q' : HeaderTable Coded} {cs : Captures} {rep : Rep} {x : Instr Coded} {limit : Nat}
  {o : Option (HeaderField Coded)} {f : HeaderField Coded} {fs : List (HeaderField Coded)}
  {reps : List Rep} {xs : List (Instr Coded)} {items : List DynamicTableEntry} {i : Nat}
  {name value : Coded}

/-- The name that an index stands for is the one of its field. -/
theorem Mirrored.nameBytes_idx (h : Mirrored conn t q) (hd : t.info.dirty = 0)
    (ha : Attached huffmanCode captures rd) (hslot : SlotHolds t.info i)
    (hl : HeaderDecoder.lookup codedFields q i = some f) (hlen : f.name.wire.length ≤ headerFieldMaxlen) :
    nameBytes rd conn t (.idx i) = some (f.name.wire, f.name.huff) := by
  obtain ⟨hu, -, -, hf, hg, hshown⟩ := h.lookup_some hd ha hl
  obtain ⟨items, hi, -⟩ := h
  rw [nameBytes, hu, hi.slotField_entry hd hslot hg, Option.map_some, hshown.key, hshown.keyHuff,
    List.take_of_length_le hlen]

/-- A field that is added to the table is added to the decoder's, or makes the table dirty. -/
theorem Mirrored.addField (h : Mirrored conn t q) {key : Option (Bytes × Bool)}
    (hmax : t.info.dirty = 0 → t.info.maxSize = q.cap)
    (hk : t.info.dirty = 0 → key = some (name.wire, name.huff))
    (hn : t.info.dirty = 0 → name.wire.length ≤ 0xffff) (hv : value.wire.length ≤ 0xffff)
    (hroom : ∀ entry, t.info.dirty = 0 →
      sizedEntry (name.wire, name.huff) (value.wire, value.huff) = some entry →
        MapRoom conn t entry) :
    Mirrored conn (Http2.addField conn t key value.str) (q.push ⟨name, value⟩) := by
  unfold Http2.addField
  by_cases hd : t.info.dirty = 0
  · rw [if_neg (not_not_intro hd), hk hd]
    simp only [Coded.str]
    cases hs : sizedEntry (name.wire, name.huff) (value.wire, value.huff) with
    | none => exact h.setDirty _
    | some entry =>
      obtain ⟨hst, he⟩ := sizedEntry_stands (hn hd) hv hs
      exact h.insert hd (hmax hd) hst he (hroom entry hd hs).inserted
  · obtain ⟨items, hi, -⟩ := h
    rw [if_pos hd]
    exact ⟨items, hi, fun hd' => absurd hd' hd⟩

/-- A representation does to the table what its instruction does to the decoder's. -/
theorem Mirrored.meaning (h : Mirrored conn t q) (ha : Attached huffmanCode captures rd)
    (hm : Means rep x) (hs : rep.Short) (hst : Storable rd conn t rep) (hk : NameKept t q x)
    (hmax : SameMax t q x) (hlimit : limit < 2 ^ 32)
    (hx : step codedFields limit q x = some (q', o)) :
    Mirrored conn (Http2.meaning rd conn t cs rep).1 q' := by
  cases hm with
  | indexed i =>
    obtain ⟨rfl, -⟩ := HeaderDecoder.step_indexed_some hx
    exact h
  | tableSize n =>
    obtain ⟨hle, rfl, -⟩ := HeaderDecoder.step_resize_some hx
    have hu : u32 n = n := u32_of_lt (by omega)
    simp only [Http2.meaning, hu]
    exact h.resized n
  | named mode i value =>
    obtain ⟨name, hname, rfl, -⟩ := HeaderDecoder.step_literal_some hx
    obtain ⟨f, hl, rfl⟩ := Option.map_eq_some_iff.mp hname
    simp only [Http2.meaning]
    by_cases hadd : mode = .incremental
    · subst hadd
      have hlen := fun hd => hk i value f rfl hd hl
      have hbytes : t.info.dirty = 0 →
          nameBytes rd conn t (.idx i) = some (f.name.wire, f.name.huff) := fun hd =>
        h.nameBytes_idx hd ha (hst.slot i _ rfl hd) hl (hlen hd)
      rw [if_pos rfl, if_pos (decide_eq_true rfl)]
      exact h.addField (hmax _ _ rfl) hbytes (fun hd => Nat.le_trans (hlen hd) (by decide)) hs
        fun entry hd hent => hst.room _ _ _ entry rfl hd (hbytes hd) hent
    · rw [if_neg hadd, if_neg (by simp [hadd])]
      exact h
  | new mode name value =>
    obtain ⟨name', hname, rfl, -⟩ := HeaderDecoder.step_literal_some hx
    cases hname
    simp only [Http2.meaning]
    by_cases hadd : mode = .incremental
    · subst hadd
      rw [if_pos rfl, if_pos (decide_eq_true rfl)]
      exact h.addField (hmax _ _ rfl) (fun _ => rfl) (fun _ => hs.1) hs.2
        fun entry hd hent => hst.room _ _ _ entry rfl hd rfl hent
    · rw [if_neg hadd, if_neg (by simp [hadd])]
      exact h

theorem addField_maxSize (h : Holds conn t items) {key : Option (Bytes × Bool)} {value : Str}
    (hn : ∀ k, key = some k → k.1.length ≤ 0xffff) (hv : value.raw.length ≤ 0xffff) :
    (addField conn t key value).info.maxSize = t.info.maxSize := by
  unfold addField
  split
  · rfl
  cases key with
  | none => rfl
  | some k =>
    simp only
    cases hs : sizedEntry k (value.raw, value.huff) with
    | none => rfl
    | some entry => exact (insertEntry_inserted h (sizedEntry_size_le (hn k rfl) hv hs)).maxSize

/-- The maximum size of the table is the one of the decoder's, dirty or not. -/
theorem meaning_maxSize (h : Holds conn t items) (hm : Means rep x) (hs : rep.Short)
    (hlimit : limit < 2 ^ 32) (hx : step codedFields limit q x = some (q', o))
    (hmax : t.info.maxSize = q.cap) : (meaning rd conn t cs rep).1.info.maxSize = q'.cap := by
  have hpush : ∀ (mode : Indexing) (name : Name) (f : HeaderField Coded) (value : Str),
      (∀ k, nameBytes rd conn t name = some k → k.1.length ≤ 0xffff) → value.raw.length ≤ 0xffff →
      (if mode = .incremental then addField conn t (nameBytes rd conn t name) value
        else t).info.maxSize =
        (if decide (mode = .incremental) then q.push f else q).cap := by
    intro mode name f value hn hv
    by_cases hadd : mode = .incremental
    · rw [if_pos hadd, if_pos (decide_eq_true hadd), WeightedQueue.push_cap, addField_maxSize h hn hv,
        hmax]
    · rw [if_neg hadd, if_neg (by simp [hadd]), hmax]
  cases hm with
  | indexed i =>
    obtain ⟨rfl, -⟩ := HeaderDecoder.step_indexed_some hx
    exact hmax
  | tableSize n =>
    obtain ⟨hle, rfl, -⟩ := HeaderDecoder.step_resize_some hx
    have hu : u32 n = n := u32_of_lt (by omega)
    simp only [meaning, hu]
    exact (h.resize n).maxSize
  | named mode i value =>
    obtain ⟨name, -, rfl, -⟩ := HeaderDecoder.step_literal_some hx
    refine hpush mode _ _ _ (fun k hk => ?_) hs
    obtain ⟨hf, -, rfl⟩ := Option.map_eq_some_iff.mp hk
    exact Nat.le_trans hf.key_le (by decide)
  | new mode name value =>
    obtain ⟨name', hname, rfl, -⟩ := HeaderDecoder.step_literal_some hx
    refine hpush mode _ _ _ (fun k hk => ?_) hs.2
    cases hk
    exact hs.1

/-- The fields of the static table are kept as a whole. -/
theorem lookup_kept (hq : AllKept q) (hl : lookup codedFields q i = some f) :
    f.name.wire.length ≤ headerFieldMaxlen ∧ f.value.wire.length ≤ headerFieldMaxlen := by
  rcases HeaderDecoder.lookup_mem hl with hf | hf
  · obtain ⟨g, hg, rfl⟩ := List.mem_map.mp hf
    obtain ⟨n, hn⟩ := List.getElem?_of_mem hg
    exact (staticHeaders_find (g, n + 1)
      (List.mem_zipIdx_iff_le_and_getElem?_sub.mpr ⟨by omega, by simpa using hn⟩)).2
  · exact hq f hf

theorem AllKept.step (hq : AllKept q) (hk : Keepable x)
    (hx : HeaderDecoder.step codedFields limit q x = some (q', o)) : AllKept q' := by
  intro f hf
  rcases HeaderDecoder.step_mem hx hf with hf | ⟨name, value, rfl, hname, rfl⟩
  · exact hq f hf
  · obtain ⟨hv, hn⟩ := hk _ _ rfl
    refine ⟨?_, hv⟩
    cases name with
    | idx i =>
      obtain ⟨g, hl, hg⟩ := Option.map_eq_some_iff.mp hname
      rw [← hg]
      exact (lookup_kept hq hl).1
    | lit s =>
      have hs : s = f.name := Option.some.inj hname
      exact hs ▸ hn s rfl

/-- Strings that entries keep as a whole leave the table clean. -/
theorem meaning_clean (h : Mirrored conn t q) (hd : t.info.dirty = 0)
    (ha : Attached huffmanCode captures rd) (hm : Means rep x) (hst : Storable rd conn t rep)
    (hq : AllKept q) (hk : Keepable x) (hx : step codedFields limit q x = some (q', o)) :
    (meaning rd conn t cs rep).1.info.dirty = 0 := by
  obtain ⟨items, hi, -⟩ := id h
  have hadd : ∀ name value : Coded, name.wire.length ≤ headerFieldMaxlen →
      value.wire.length ≤ headerFieldMaxlen →
      (addField conn t (some (name.wire, name.huff)) value.str).info.dirty = 0 := by
    intro name value hn hv
    obtain ⟨entry, hent, -⟩ := @sizedEntry_short (name.wire, name.huff) (value.wire, value.huff) hn hv
    have he := (sizedEntry_stands (Nat.le_trans hn (by decide)) (Nat.le_trans hv (by decide)) hent).2
    unfold addField
    rw [if_neg (not_not_intro hd)]
    simp only [Coded.str, hent]
    exact (insertEntry_inserted hi he).dirty.trans hd
  cases hm with
  | indexed i => exact hd
  | tableSize n => exact (hi.resize (u32 n)).dirty.trans hd
  | named mode i value =>
    simp only [meaning]
    by_cases hmode : mode = .incremental
    · subst hmode
      obtain ⟨name, hname, -⟩ := HeaderDecoder.step_literal_some hx
      obtain ⟨f, hl, rfl⟩ := Option.map_eq_some_iff.mp hname
      have hlen := (lookup_kept hq hl).1
      rw [if_pos rfl, h.nameBytes_idx hd ha (hst.slot i _ rfl hd) hl hlen]
      exact hadd f.name value hlen (hk _ _ rfl).1
    · rw [if_neg hmode]
      exact hd
  | new mode name value =>
    simp only [meaning]
    by_cases hmode : mode = .incremental
    · subst hmode
      rw [if_pos rfl]
      exact hadd name value ((hk _ _ rfl).2 name rfl) (hk _ _ rfl).1
    · rw [if_neg hmode]
      exact hd

/-- A block of representations, and what it is decoded to. -/
structure Decodes (limit : Nat) (q : HeaderTable Coded) (reps : List Rep) (xs : List (Instr Coded))
    (q' : HeaderTable Coded) (fs : List (HeaderField Coded)) : Prop where
  means : List.Forall₂ Means reps xs
  decoded : decode codedFields limit q xs = some (q', fs)

/-- Every representation of a block, and its instruction, meet a condition on the tables they find. -/
def Along (rd : Rodata) (conn : Ip4Conn) (limit : Nat)
    (ok : DynamicTable → HeaderTable Coded → Rep → Instr Coded → Prop) :
    DynamicTable → HeaderTable Coded → List Rep → List (Instr Coded) → Prop
  | t, q, rep :: reps, x :: xs => ok t q rep x ∧ ∀ q' o, step codedFields limit q x = some (q', o) →
      Along rd conn limit ok (meaning rd conn t (fun _ => none) rep).1 q' reps xs
  | _, _, _, _ => True

variable {ok : DynamicTable → HeaderTable Coded → Rep → Instr Coded → Prop}

theorem Decodes.uncons (h : Decodes limit q (rep :: reps) xs q' fs) :
    ∃ x xs' q1 o gs, xs = x :: xs' ∧ Means rep x ∧ step codedFields limit q x = some (q1, o) ∧
      Decodes limit q1 reps xs' q' gs ∧ fs = o.toList ++ gs := by
  obtain ⟨x, xs', hm, hmeans, rfl⟩ := List.forall₂_cons_left_iff.mp h.means
  obtain ⟨q1, o, gs, hstep, hrest, hfs⟩ := decode_cons_some h.decoded
  exact ⟨x, xs', q1, o, gs, rfl, hm, hstep, ⟨hmeans, hrest⟩, hfs⟩

/-- What every representation keeps of the two tables, a block does. -/
theorem Decodes.invariant {I : DynamicTable → HeaderTable Coded → Prop}
    (hstep : ∀ t q rep x q' o, I t q → Means rep x → rep.Short → ok t q rep x →
      step codedFields limit q x = some (q', o) → I (meaning rd conn t (fun _ => none) rep).1 q')
    (h : Decodes limit q reps xs q' fs) (hs : ∀ rep ∈ reps, rep.Short)
    (hok : Along rd conn limit ok t q reps xs) (hI : I t q) :
    I (blockMeaning rd conn reps t cs).1 q' := by
  induction reps generalizing t q cs xs fs with
  | nil =>
    have hm := h.means
    cases hm
    cases h.decoded
    exact hI
  | cons rep reps ih =>
    obtain ⟨x, xs, q1, o, gs, rfl, hm, hx, hrest, -⟩ := h.uncons
    obtain ⟨hokx, hoks⟩ := hok
    have h1 := hstep t q rep x q1 o hI hm (hs rep List.mem_cons_self) hokx hx
    rw [blockMeaning, List.foldl_cons]
    have hcs : (meaning rd conn t cs rep).1 = (meaning rd conn t (fun _ => none) rep).1 :=
      meaning_table cs _
    rw [← hcs] at h1
    refine @ih (meaning rd conn t cs rep).1 q1 (meaning rd conn t cs rep).2 gs xs hrest
      (fun r hr => hs r (List.mem_cons_of_mem rep hr)) ?_ h1
    rw [hcs]
    exact hoks q1 o hx

theorem along_cons {t' : DynamicTable} (h : ok t q rep x)
    (hx : step codedFields limit q x = some (q', o))
    (ht : (meaning rd conn t (fun _ => none) rep).1 = t')
    (hrest : Along rd conn limit ok t' q' reps xs) :
    Along rd conn limit ok t q (rep :: reps) (x :: xs) := by
  refine ⟨h, fun q1 o1 h1 => ?_⟩
  rw [hx] at h1
  cases h1
  rw [ht]
  exact hrest

theorem storable_new {mode : Indexing} {name value : Str} (h : t.entries.card < mapMaxEntries) :
    Storable rd conn t (.literal mode (.lit name) value) :=
  ⟨fun _ _ hrep => (by cases hrep), fun _ _ _ _ _ _ _ _ => mapRoom_of_card h⟩

theorem storable_named {mode : Indexing} {value : Str} (h : t.entries.card < mapMaxEntries)
    (hslot : SlotHolds t.info i) : Storable rd conn t (.literal mode (.idx i) value) := by
  refine ⟨fun _ _ hrep _ => ?_, fun _ _ _ _ _ _ _ _ => mapRoom_of_card h⟩
  cases hrep
  exact hslot

theorem storable_indexed : Storable rd conn t (.indexed i) :=
  ⟨fun _ _ hrep => (by cases hrep), fun _ _ _ _ hrep => by cases hrep⟩

theorem storable_tableSize {n : Nat} : Storable rd conn t (.tableSize n) :=
  ⟨fun _ _ hrep => (by cases hrep), fun _ _ _ _ hrep => by cases hrep⟩

end Beeper.Http2
