import Beeper.EntryLifetime
import Beeper.HookReads
import Beeper.NamesLoaded

namespace Beeper.Http2

/-- The capture that the name of a field matches. -/
def repCapture (rd : Rodata) (conn : Ip4Conn) (t : DynamicTable) : Rep → Option Nat
  | .indexed n => refCapture rd conn t (u32 n)
  | .literal _ name _ => nameCapture rd conn t name
  | .tableSize _ => none

/-- None of the fields has a name that is captured as `mid`. -/
def Passes (rd : Rodata) (conn : Ip4Conn) (mid : Nat) : DynamicTable → List Rep → Prop
  | _, [] => True
  | t, rep :: reps => repCapture rd conn t rep ≠ some mid ∧
      Passes rd conn mid (meaning rd conn t (fun _ => none) rep).1 reps

/-- The value of the field `f`, which the index `n` named while the counters were `info`, is what is
read as long as the entry is there. Nothing else ever is. -/
structure Stays (conn : Ip4Conn) (info : DynamicTableInfo) (n : Nat) (entries : DynamicTableMap)
    (f : Http2HdrField) (value : Except Errno Bytes) : Prop where
  kept : (staticTableSize < n → (entries.lookup ⟨conn, entryKey info n⟩).isSome) →
    value = .ok f.val
  gone : staticTableSize < n → entries.lookup ⟨conn, entryKey info n⟩ = none →
    value = .error .ENOENT

variable {rd : Rodata} {conn : Ip4Conn} {t t' : DynamicTable} {cs : Captures} {mid n d : Nat}
  {reps : List Rep} {rep : Rep} {block : Bytes} {items new : List DynamicTableEntry}
  {f : Http2HdrField}

theorem nameFold_lt (rd : Rodata) (w : Bytes) (x : StateId × Option Nat)
    (hx : ∀ m, x.2 = some m → m < maxMatches) (m : Nat)
    (h : (w.foldl (nameStep rd) x).2 = some m) : m < maxMatches := by
  induction w generalizing x with
  | nil => exact hx m h
  | cons c w ih =>
    refine ih (nameStep rd x c) ?_ h
    intro m' hm'
    unfold nameStep at hm'
    simp only at hm'
    split at hm'
    · rw [← Option.some.inj hm']
      exact Nat.mod_lt _ (by decide)
    · cases hm'

theorem matchHeaderKey_lt {w : Bytes} {huff : Bool} {m : Nat}
    (h : matchHeaderKey rd w huff = some m) : m < maxMatches := by
  rw [matchHeaderKey_eq] at h
  exact nameFold_lt rd w _ (fun m hm => by cases hm) m h

theorem repCapture_lt {m : Nat} (h : repCapture rd conn t rep = some m) : m < maxMatches := by
  cases rep with
  | indexed n =>
    obtain ⟨hf, -, hm⟩ := Option.bind_eq_some_iff.mp h
    exact matchHeaderKey_lt hm
  | tableSize n => cases h
  | literal mode name value =>
    cases name with
    | lit s => exact matchHeaderKey_lt h
    | idx n =>
      obtain ⟨hf, -, hm⟩ := Option.bind_eq_some_iff.mp h
      exact matchHeaderKey_lt hm

theorem meaning_table (cs cs' : Captures) :
    (meaning rd conn t cs rep).1 = (meaning rd conn t cs' rep).1 := by
  cases rep <;> rfl

theorem blockMeaning_table (cs cs' : Captures) :
    (blockMeaning rd conn reps t cs).1 = (blockMeaning rd conn reps t cs').1 := by
  induction reps generalizing t cs cs' with
  | nil => rfl
  | cons rep reps ih =>
    have hcons (x : Captures) : blockMeaning rd conn (rep :: reps) t x =
        blockMeaning rd conn reps (meaning rd conn t x rep).1 (meaning rd conn t x rep).2 := rfl
    rw [hcons, hcons, meaning_table cs cs']
    exact ih _ _

/-- A field whose name is another one leaves a capture alone. -/
theorem meaning_passes (hmid : mid < maxMatches) (h : repCapture rd conn t rep ≠ some mid) :
    (meaning rd conn t cs rep).2 (Fin.ofNat maxMatches mid) = cs (Fin.ofNat maxMatches mid) := by
  have hother (c : Capture) : capture cs (repCapture rd conn t rep) c (Fin.ofNat maxMatches mid) =
      cs (Fin.ofNat maxMatches mid) := by
    cases hm : repCapture rd conn t rep with
    | none => rfl
    | some m =>
      have hlt := repCapture_lt hm
      refine Function.update_of_ne ?_ _ _
      intro heq
      have hval := congrArg Fin.val heq
      simp only [Fin.ofNat, Nat.mod_eq_of_lt hmid, Nat.mod_eq_of_lt hlt] at hval
      exact h (by rw [hm, hval])
  cases rep with
  | indexed n => exact hother _
  | tableSize n => rfl
  | literal mode name value => exact hother _

theorem Passes.captures (hmid : mid < maxMatches) (h : Passes rd conn mid t reps) :
    (blockMeaning rd conn reps t cs).2 (Fin.ofNat maxMatches mid) =
      cs (Fin.ofNat maxMatches mid) := by
  induction reps generalizing t cs with
  | nil => rfl
  | cons rep reps ih =>
    rw [← @meaning_passes rd conn t cs mid rep hmid h.1]
    refine @ih (meaning rd conn t cs rep).1 (meaning rd conn t cs rep).2 ?_
    rw [meaning_table cs fun _ => none]
    exact h.2

theorem BlockWire.length_le {len : Nat → Nat} (h : BlockWire len reps block) :
    reps.length ≤ block.length := by
  induction h with
  | nil => exact Nat.le_refl 0
  | cons hr _ ih =>
    have hpos := List.length_pos_iff.mpr hr.ne_nil
    rw [List.length_cons, List.length_append]
    omega

theorem BlockWire.short (h : BlockWire readLen reps block) : ∀ rep ∈ reps, rep.Short := by
  have hle {n : Nat} (hn : n < 2 ^ 15) : n ≤ 0xffff := by omega
  induction h with
  | nil => exact fun rep hm => absurd hm List.not_mem_nil
  | @cons rep reps bs rest hr _ ih =>
    intro r hm
    rcases List.mem_cons.mp hm with rfl | hm
    · cases hr with
      | indexed _ _ => exact trivial
      | tableSize _ => exact trivial
      | named _ _ hv =>
        obtain ⟨-, -, -, hl⟩ := hv.split
        exact hle hl
      | new _ _ hn hv =>
        obtain ⟨-, -, -, hl⟩ := hn.split
        obtain ⟨-, -, -, hl'⟩ := hv.split
        exact ⟨hle hl, hle hl'⟩
    · exact ih r hm

theorem Countable.getTableEntry_fixed (h : Countable t.info) (hpos : 0 < n)
    (hn : n ≤ staticTableSize) : getTableEntry rd conn t n = rd.lookupStatic n := by
  have hvalid : isValidHpackIndex t.info n = true := h.isValidHpackIndex_iff.mpr (by omega)
  unfold getTableEntry
  rw [hvalid, if_neg (Nat.not_lt.mpr hn)]
  rfl

/-- A dynamic entry is only found while the table is not dirty. -/
theorem getTableEntry_dirty (hn : staticTableSize < n) (hf : getTableEntry rd conn t n = some f) :
    t.info.dirty = 0 := by
  unfold getTableEntry at hf
  split at hf
  · cases hf
  · by_contra hd
    rw [if_pos hd] at hf
    cases hf

/-- What the slot of an index reads once the entries have moved on. -/
theorem Slid.stays (hs : Slid conn t items t' new d) (h : Holds conn t items)
    (hnew : new.length < 2 ^ 31) (hpos : 0 < n) (hn : n ≤ staticTableSize + t.info.count)
    (hslot : SlotHolds t.info n) (hf : getTableEntry rd conn t n = some f) :
    Stays conn t.info n t'.entries f (slotValue rd conn t'.entries (slotOf t.info n)) := by
  have hin : ¬(n = 0 ∨ staticTableSize + t.info.count < n) := by omega
  have hc := h.countable
  unfold slotValue
  rw [slotField_eq, (hc.slotRef_iff hin).mpr hslot, entryRef, if_neg hin]
  by_cases hfix : n ≤ staticTableSize
  · rw [hc.getTableEntry_fixed hpos hfix] at hf
    rw [if_pos hfix, Option.bind_some, refField, hf]
    exact ⟨fun _ => rfl, fun hlt => absurd hfix (Nat.not_le.mpr hlt)⟩
  · have hlo := Nat.not_le.mp hfix
    have hcount := h.count
    have hlt : staticTableSize + t.info.count - n < items.length := by omega
    have hlook : t'.entries.lookup ⟨conn, entryKey t.info n⟩ = _ :=
      hs.lookup h (List.getElem?_eq_getElem hlt) hnew
    rw [h.getTableEntry_eq (getTableEntry_dirty hlo hf), entryRef, if_neg hin, if_neg hfix,
      Option.bind_some, refField, h.lookup_entryKey hlo hn, List.getElem?_eq_getElem hlt,
      Option.map_some] at hf
    rw [if_neg hfix, Option.bind_some, refField]
    constructor
    · intro hkept
      have hsome := hkept hlo
      rw [hlook] at hsome ⊢
      split at hsome
      next hd => rw [if_pos hd, Option.map_some, Option.some.inj hf]
      next => cases hsome
    · intro _ hgone
      rw [hgone]
      rfl

theorem blockMeaning_append (reps' : List Rep) : blockMeaning rd conn (reps ++ reps') t cs =
    blockMeaning rd conn reps' (blockMeaning rd conn reps t cs).1
      (blockMeaning rd conn reps t cs).2 := by
  unfold blockMeaning
  rw [List.foldl_append]

variable {maps m : Maps} {b : Sent} {p : Parsed} {value : Nat → Except Errno Bytes}
  {info : DynamicTableInfo} {front back : List Rep}

/-- The table in front of the rest of a block. -/
def tableAfter (rd : Rodata) (conn : Ip4Conn) (front : List Rep) (t : DynamicTable) :
    DynamicTable := (blockMeaning rd conn front t fun _ => none).1

/-- A block with an indexed field in it. -/
theorem blockMeaning_indexed (hu : u32 n = n) :
    blockMeaning rd conn (front ++ .indexed n :: back) t (fun _ => none) =
      blockMeaning rd conn back (tableAfter rd conn front t)
        (capture (blockMeaning rd conn front t fun _ => none).2
          (refCapture rd conn (tableAfter rd conn front t) n)
          (.entry (slotOf (tableAfter rd conn front t).info n))) := by
  rw [blockMeaning_append]
  unfold tableAfter
  rw [blockMeaning, List.foldl_cons]
  simp only [meaning, hu]
  rfl

theorem ReadsAs.stays {total : Nat} {block : Bytes} (hr : ReadsAs rd maps conn
      (front ++ .indexed n :: back) total p value) (hst : Stored maps conn)
    (hw : BlockWire readLen (front ++ .indexed n :: back) block) (hl : block.length < 2 ^ 31)
    (hg : getDynamicTable maps conn = (some info, m)) (hpos : 0 < n)
    (hn : n ≤ staticTableSize + (tableAfter rd conn front (m.table info)).info.count)
    (hslot : SlotHolds (tableAfter rd conn front (m.table info)).info n)
    (hname : refCapture rd conn (tableAfter rd conn front (m.table info)) n = some mid)
    (hlast : Passes rd conn mid (tableAfter rd conn front (m.table info)) back)
    (hf : getTableEntry rd conn (tableAfter rd conn front (m.table info)) n = some f) :
    Stays conn (tableAfter rd conn front (m.table info)).info n p.maps.dynamicTable f
      (value mid) := by
  obtain ⟨-, htables, hvalue⟩ := hr.read info m hg
  obtain ⟨items, hi⟩ := hst.holds hg
  have hshort := hw.short
  have hlen := hw.length_le
  rw [List.length_append, List.length_cons] at hlen
  obtain ⟨new, d, -, hsl⟩ := @blockMeaning_slid conn (m.table info) items rd (fun _ => none) front hi
    fun rep hm => hshort rep (List.mem_append_left _ hm)
  have hi' : Holds conn (tableAfter rd conn front (m.table info)) ((items ++ new).drop d) := hsl.holds
  have hc := hi'.countable.count_le
  have hu : u32 n = n := by
    apply u32_of_lt
    unfold mapMaxEntries at hc
    unfold staticTableSize at hn
    omega
  have hmid : mid < maxMatches :=
    @repCapture_lt rd conn _ (.indexed n) mid (by rw [repCapture, hu]; exact hname)
  obtain ⟨new', d', hnew', hsl'⟩ := @blockMeaning_slid conn _ _ rd
    (capture (blockMeaning rd conn front (m.table info) fun _ => none).2 (some mid)
      (.entry (slotOf (tableAfter rd conn front (m.table info)).info n))) back hi'
    fun rep hm => hshort rep (List.mem_append_right _ (List.mem_cons_of_mem _ hm))
  have hentries : p.maps.dynamicTable = (blockMeaning rd conn (front ++ .indexed n :: back)
      (m.table info) fun _ => none).1.entries := htables.entries
  have hread : value mid = slotValue rd conn p.maps.dynamicTable
      (slotOf (tableAfter rd conn front (m.table info)).info n) := by
    rw [hvalue, valueAt, if_neg (Nat.not_le.mpr hmid), blockMeaning_indexed hu, hname,
      hlast.captures hmid, capture, Function.update_self]
    rfl
  rw [blockMeaning_indexed hu, hname] at hentries
  rw [hread, hentries]
  exact hsl'.stays hi' (by omega) hpos hn hslot hf

/-- A value that was captured by index is read back unless its entry was evicted, where a match can
hold the key of the entry. -/
theorem indexed_stays {encode : Bytes → Option Bytes} {captures : List (Bytes × MatchId)}
    {n len off : Nat} (ha : Attached encode captures rd) (hst : Stored maps conn)
    (hk : Hooked rd maps b conn off p value)
    (h0 : b.sid ≠ 0) (hs : b.Sized) (hend : b.EndFits) (hret : p.ret = .ok len)
    (hw : BlockWire id (front ++ .indexed n :: back) b.block)
    (hg : getDynamicTable maps conn = (some info, m)) (hpos : 0 < n)
    (hn : n ≤ staticTableSize + (tableAfter rd conn front (m.table info)).info.count)
    (hslot : SlotHolds (tableAfter rd conn front (m.table info)).info n)
    (hname : refCapture rd conn (tableAfter rd conn front (m.table info)) n = some mid)
    (hlast : Passes rd conn mid (tableAfter rd conn front (m.table info)) back)
    (hf : getTableEntry rd conn (tableAfter rd conn front (m.table info)) n = some f) :
    Stays conn (tableAfter rd conn front (m.table info)).info n p.maps.dynamicTable f
      (value mid) := by
  obtain ⟨hfit, hreads⟩ := hk.accepted ha.readsReps h0 hs hend hret hw
  have hl : b.block.length < 2 ^ 31 := by
    unfold maxBytes at hfit
    omega
  exact hreads.stays hst (hw.fits hfit) hl hg hpos hn hslot hname hlast hf

/-- A size that a single short field fits into, and such a field. -/
def shortFront : List Rep :=
  [.tableSize 34, shortRep 0x61 0x62]

/-- Another one, which takes the place of the first. -/
def shortBack : List Rep := [shortRep 0x63 0x64]

def shortTable : DynamicTable :=
  addField tableConn (resized tableConn ⟨.new, .empty, []⟩ 34) (some ([0x61], false))
    ⟨false, [0x62]⟩

def shortBytes : Bytes := [0x3f, 0x03, 0x40, 0x01, 0x61, 0x01, 0x62, 0xbe]

def evictingBytes : Bytes := [0x40, 0x01, 0x63, 0x01, 0x64]

theorem shortBlock_wire {back : List Rep} {bs : Bytes} (h : BlockWire id back bs) :
    BlockWire id (shortFront ++ .indexed 62 :: back) (shortBytes ++ bs) := by
  have hsize : IntWire 0x20 0x1F [0x3f, 0x03] 34 := .long 0x3f (by decide) (.last 0x03 (by decide))
  have hindex : IntWire 0x80 0x7F [0xbe] 62 := .short 0xbe (by decide) (by decide)
  have hw := BlockWire.cons (.tableSize hsize) (.cons (shortRep_wire 0x61 0x62 rfl)
    (.cons (.indexed (by decide) hindex) h))
  exact hw

theorem tableAfter_short (rd : Rodata) :
    tableAfter rd tableConn shortFront ⟨.new, .empty, []⟩ = shortTable := by
  have hu : u32 34 = 34 := u32_of_lt (by decide)
  unfold tableAfter blockMeaning shortFront shortRep
  simp only [List.foldl_cons, List.foldl_nil, meaning, if_true, nameBytes, hu]
  rfl

theorem shortTable_entry (rd : Rodata) : ∃ f, getTableEntry rd tableConn shortTable 62 = some f ∧
    f.key = [0x61] ∧ f.keyHuff = false ∧ f.val = [0x62] := by
  have hvalid : isValidHpackIndex shortTable.info 62 = true := by decide +kernel
  have hindex : getDynamicTableIndex shortTable.info 62 = 62 := by decide +kernel
  have hd : shortTable.info.dirty = 0 := by decide +kernel
  have hlook : (shortTable.entries.lookup ⟨tableConn, 62⟩).map
      (fun e => (e.field.key, e.field.keyHuff, e.field.val)) = some ([0x61], false, [0x62]) := by
    decide +kernel
  obtain ⟨e, he, hf⟩ := Option.map_eq_some_iff.mp hlook
  obtain ⟨hkey, hrest⟩ := Prod.mk.inj hf
  obtain ⟨hhuff, hval⟩ := Prod.mk.inj hrest
  refine ⟨e.field, ?_, hkey, hhuff, hval⟩
  unfold getTableEntry
  rw [hvalid, hindex, if_pos (show staticTableSize < 62 by decide), if_neg (not_not_intro hd), he]
  rfl

variable {encode : Bytes → Option Bytes}

theorem shortTable_capture (ha : Attached encode [([0x61], 0)] rd) :
    refCapture rd tableConn shortTable 62 = some 0 := by
  obtain ⟨f, hf, hkey, hhuff, -⟩ := shortTable_entry rd
  unfold refCapture
  rw [hf, Option.bind_some, hkey, hhuff]
  exact (ha.matchHeaderKey_iff 0).mpr ⟨by decide, [0x61], List.mem_singleton.mpr rfl, rfl⟩

theorem shortBack_passes (ha : Attached encode [([0x61], 0)] rd) :
    Passes rd tableConn 0 shortTable shortBack := by
  refine ⟨fun hm => ?_, trivial⟩
  obtain ⟨-, name, hname, hform⟩ := (ha.matchHeaderKey_iff 0).mp hm
  obtain ⟨rfl, -⟩ := Prod.mk.inj (List.mem_singleton.mp hname)
  simp [nameForm] at hform

/-- The read of a message that consists of a single frame. -/
def readAlone (rd : Rodata) (block : Bytes) : ParsedMsg :=
  parseMsg rd .init (linearMsg (sentAlone block).bytes tableConn true) .zero (newHttp2Frame [] 0)

theorem sentAlone_ends {block : Bytes} (hl : block.length ≤ 100) :
    (plainFrame block).stop ≤ maxBytes ∧ (sentAlone block).Sized ∧ (sentAlone block).EndFits := by
  have hlen := Whole.payload_length (plainFrame_plain block).parts
  have hblock : (plainFrame block).block = block := rfl
  have hstop := Whole.stop_eq (plainFrame_plain block).parts
  rw [hblock] at hlen hstop
  simp only [List.length_nil, List.nil_append, Nat.zero_add, Nat.add_zero] at hlen hstop
  unfold Sent.Sized Sent.EndFits sentAlone maxBytes http2FrameHdrLen at *
  simp only at *
  omega

theorem readAlone_hooked (rd : Rodata) {block : Bytes} (hl : block.length ≤ 100) :
    Hooked rd .init (sentAlone block) tableConn 0 (readAlone rd block).toParsed
      (getMatchMsg rd (readAlone rd block).maps (readAlone rd block).msg
        (readAlone rd block).pres) := by
  obtain ⟨h9, hpull, -⟩ := sentAlone_isRead block hl
  exact .msg (newHttp2Frame [] 0) (List.append_nil _).symm h9 hpull rfl

theorem readAlone_reads {reps : List Rep} {block : Bytes} (hrd : ReadsReps rd)
    (hw : BlockWire id reps block) (hl : block.length ≤ 100) :
    ReadsAs rd .init tableConn reps (sentAlone block).bytes.length (readAlone rd block).toParsed
      (getMatchMsg rd (readAlone rd block).maps (readAlone rd block).msg
        (readAlone rd block).pres) := by
  obtain ⟨h9, hpull, h0, -⟩ := sentAlone_isRead block hl
  obtain ⟨hle, hs, -⟩ := sentAlone_ends hl
  exact (plainFrame block).reads_msg (newHttp2Frame [] 0) (List.append_nil _).symm h9 hpull hrd h0
    hs hle hw

/-- The entries that such a message leaves behind. -/
theorem readAlone_entries {back : List Rep} {bs : Bytes} (hrd : ReadsReps rd)
    (h : BlockWire id back bs) (hl : (shortBytes ++ bs).length ≤ 100) :
    (readAlone rd (shortBytes ++ bs)).maps.dynamicTable =
      (tableAfter rd tableConn back shortTable).entries := by
  obtain ⟨m, hg, hm⟩ := getDynamicTable_fresh tableConn
  obtain ⟨-, htables, -⟩ := (readAlone_reads hrd (shortBlock_wire h) hl).read .new m hg
  have hu : u32 62 = 62 := u32_of_lt (by decide)
  have hentries := htables.entries
  simp only [blockMeaning_indexed hu, hm, tableAfter_short, blockMeaning_table _ fun _ => none]
    at hentries
  exact hentries

theorem shortTable_room : 62 ≤ staticTableSize + shortTable.info.count := by
  decide +kernel

theorem shortTable_slot : SlotHolds shortTable.info 62 := by
  have hkey : entryKey shortTable.info 62 = 62 := by decide +kernel
  intro _
  rw [hkey]
  decide

theorem tableAfter_evicting (rd : Rodata) : ((tableAfter rd tableConn shortBack
    shortTable).entries.lookup ⟨tableConn, 62⟩).isSome = false := by
  unfold tableAfter blockMeaning shortBack shortRep
  simp only [List.foldl_cons, List.foldl_nil, meaning, if_true, nameBytes]
  decide +kernel

/-- An entry that is evicted after it was captured is not reported. -/
theorem indexed_evicted : ∃ rd m f, Attached (fun s => some (Huffman.encode s)) [([0x61], 0)] rd ∧
    getDynamicTable .init tableConn = (some .new, m) ∧
    BlockWire id (shortFront ++ .indexed 62 :: shortBack) (shortBytes ++ evictingBytes) ∧
    tableAfter rd tableConn shortFront (m.table .new) = shortTable ∧
    refCapture rd tableConn shortTable 62 = some 0 ∧ Passes rd tableConn 0 shortTable shortBack ∧
    getTableEntry rd tableConn shortTable 62 = some f ∧
    let p := readAlone rd (shortBytes ++ evictingBytes)
    getMatchMsg rd p.maps p.msg p.pres 0 = .error .ENOENT := by
  obtain ⟨rd, ha⟩ := attached_letter
  obtain ⟨m, hg, hm⟩ := getDynamicTable_fresh tableConn
  obtain ⟨f, hf, -⟩ := shortTable_entry rd
  have hback : BlockWire id shortBack evictingBytes := .cons (shortRep_wire 0x63 0x64 rfl) .nil
  have hw := shortBlock_wire hback
  have htable := tableAfter_short rd
  rw [← hm] at htable
  have hfit : (shortBytes ++ evictingBytes).length ≤ maxBytes := by decide
  have hr := readAlone_reads ha.readsReps hw (by decide)
  have hstays := hr.stays (StoreOk.init.stored tableConn) (hw.fits hfit) (by decide) hg (by decide)
    (by rw [htable]; exact shortTable_room) (by rw [htable]; exact shortTable_slot)
    (by rw [htable]; exact shortTable_capture ha) (by rw [htable]; exact shortBack_passes ha)
    (by rw [htable]; exact hf)
  rw [htable] at hstays
  have hgone := readAlone_entries ha.readsReps hback (by decide)
  have hkey : entryKey shortTable.info 62 = 62 := by decide +kernel
  refine ⟨rd, m, f, ha, hg, hw, htable, shortTable_capture ha, shortBack_passes ha, hf,
    hstays.gone (by decide) ?_⟩
  rw [show (readAlone rd (shortBytes ++ evictingBytes)).toParsed.maps.dynamicTable = _ from hgone,
    hkey]
  exact Option.isNone_iff_eq_none.mp (Option.isSome_eq_false_iff.mp (tableAfter_evicting rd))

/-- A size that both fields fit into, and the other field. -/
def roomyBack : List Rep :=
  [.tableSize 68, shortRep 0x63 0x64]

def roomyBytes : Bytes := [0x3f, 0x25, 0x40, 0x01, 0x63, 0x01, 0x64]

theorem roomyBack_wire : BlockWire id roomyBack roomyBytes := by
  have hsize : IntWire 0x20 0x1F [0x3f, 0x25] 68 := .long 0x3f (by decide) (.last 0x25 (by decide))
  exact .cons (.tableSize hsize) (.cons (shortRep_wire 0x63 0x64 rfl) .nil)

theorem roomyBack_passes (ha : Attached encode [([0x61], 0)] rd) :
    Passes rd tableConn 0 shortTable roomyBack := by
  refine ⟨by simp [repCapture], fun hm => ?_, trivial⟩
  obtain ⟨-, name, hname, hform⟩ := (ha.matchHeaderKey_iff 0).mp hm
  obtain ⟨rfl, -⟩ := Prod.mk.inj (List.mem_singleton.mp hname)
  simp [nameForm] at hform

theorem tableAfter_roomy (rd : Rodata) : ((tableAfter rd tableConn roomyBack shortTable).entries.lookup
    ⟨tableConn, 62⟩).isSome = true := by
  have hu : u32 68 = 68 := u32_of_lt (by decide)
  unfold tableAfter blockMeaning roomyBack shortRep
  simp only [List.foldl_cons, List.foldl_nil, meaning, if_true, nameBytes, hu]
  decide +kernel

/-- The table grows and gets another entry behind the field that is captured, which stays. -/
theorem indexed_staysRoomy : ∃ rd, Attached (fun s => some (Huffman.encode s)) [([0x61], 0)] rd ∧
    BlockWire id (shortFront ++ .indexed 62 :: roomyBack) (shortBytes ++ roomyBytes) ∧
    let p := readAlone rd (shortBytes ++ roomyBytes)
    getMatchMsg rd p.maps p.msg p.pres 0 = .ok [0x62] := by
  obtain ⟨rd, ha⟩ := attached_letter
  obtain ⟨m, hg, hm⟩ := getDynamicTable_fresh tableConn
  obtain ⟨f, hf, -, -, hval⟩ := shortTable_entry rd
  have hw := shortBlock_wire roomyBack_wire
  have htable := tableAfter_short rd
  rw [← hm] at htable
  obtain ⟨-, hs, hend⟩ := @sentAlone_ends (shortBytes ++ roomyBytes) (by decide)
  have hret := ((readAlone_reads ha.readsReps hw (by decide)).read .new m hg).1
  have hstays := indexed_stays ha (StoreOk.init.stored tableConn)
    (@readAlone_hooked rd (shortBytes ++ roomyBytes) (by decide)) (by decide) hs hend hret hw hg
    (by decide)
    (by rw [htable]; exact shortTable_room) (by rw [htable]; exact shortTable_slot)
    (by rw [htable]; exact shortTable_capture ha) (by rw [htable]; exact roomyBack_passes ha)
    (by rw [htable]; exact hf)
  rw [htable] at hstays
  have hkey : entryKey shortTable.info 62 = 62 := by decide +kernel
  refine ⟨rd, ha, hw, ?_⟩
  rw [← hval]
  refine hstays.kept fun _ => ?_
  rw [show (readAlone rd (shortBytes ++ roomyBytes)).toParsed.maps.dynamicTable = _ from
    readAlone_entries ha.readsReps roomyBack_wire (by decide), hkey]
  exact tableAfter_roomy rd

end Beeper.Http2
