import Beeper.TableRefinement

namespace Beeper.Http2

/-- By how much the number of entries that were ever added differs. -/
def newEntries (t t' : DynamicTable) : Nat := u32Sub t'.info.running t.info.running

/-- In the table `t` of `conn`, the dynamic index `n` is the one of an entry that was added under
`name`: as a string, or by the index of such an entry. Fields of a block and calls for any connection
move it, and it lives as long as it is within the table. -/
inductive Named (rd : Rodata) (conn : Ip4Conn) : DynamicTable → Nat → Str → Prop
  | new {maps : Maps} {ins : Ip4Conn → Nat} {front : List Rep} {name value : Str}
      (hr : Run rd maps ins) (hf : ∀ rep ∈ front, rep.Short)
      (hs : (Rep.literal .incremental (.lit name) value).Short)
      (hadd : newEntries (tableAfter rd conn front (maps.tableOf conn))
        (tableAfter rd conn [.literal .incremental (.lit name) value]
          (tableAfter rd conn front (maps.tableOf conn))) = 1) :
      Named rd conn (tableAfter rd conn [.literal .incremental (.lit name) value]
        (tableAfter rd conn front (maps.tableOf conn))) dynamicTableBase name
  | renamed {t : DynamicTable} {n : Nat} {name value : Str} (h : Named rd conn t n name)
      (hslot : SlotHolds t.info n) (hs : value.raw.length ≤ 0xffff)
      (hadd : newEntries t (tableAfter rd conn [.literal .incremental (.idx n) value] t) = 1) :
      Named rd conn (tableAfter rd conn [.literal .incremental (.idx n) value] t) dynamicTableBase name
  | field {t : DynamicTable} {n : Nat} {name : Str} {rep : Rep} (h : Named rd conn t n name)
      (hs : rep.Short) (hlive : n + newEntries t (tableAfter rd conn [rep] t) ≤
        staticTableSize + (tableAfter rd conn [rep] t).info.count) :
      Named rd conn (tableAfter rd conn [rep] t) (n + newEntries t (tableAfter rd conn [rep] t)) name
  | call {maps : Maps} {ins : Ip4Conn → Nat} {c : Ip4Conn} {type n : Nat} {ann : Option Nat}
      {p : Parsed} {name : Str} (hr : Run rd maps ins) (h : Named rd conn (maps.tableOf conn) n name)
      (hc : Called rd maps c type ann p) (hlive : n + newEntries (maps.tableOf conn) (p.maps.tableOf conn) ≤
        staticTableSize + (p.maps.tableOf conn).info.count) :
      Named rd conn (p.maps.tableOf conn) (n + newEntries (maps.tableOf conn) (p.maps.tableOf conn)) name
  | forget {maps maps' : Maps} {ins : Ip4Conn → Nat} {c : Ip4Conn} {n : Nat} {name : Str}
      (hr : Run rd maps ins) (h : Named rd conn (maps.tableOf conn) n name) (hc : c ≠ conn)
      (hf : forgetConn maps c = some maps') : Named rd conn (maps'.tableOf conn) n name

/-- The index `n` is the one of `entry`, which keeps what it can of `name`. -/
structure Keeping (conn : Ip4Conn) (t : DynamicTable) (items : List DynamicTableEntry) (n : Nat)
    (name : Str) (entry : DynamicTableEntry) : Prop where
  holds : Holds conn t items
  place : ∃ j, items[j]? = some entry ∧ n + j = staticTableSize + items.length
  key : entry.field.key = name.raw.take headerFieldMaxlen
  huff : entry.field.keyHuff = name.huff
  whole : name.huff = true → name.raw.length ≤ headerFieldMaxlen

variable {rd : Rodata} {conn c : Ip4Conn} {maps maps' : Maps} {t t' : DynamicTable} {n d k type : Nat}
  {ann : Option Nat} {items new : List DynamicTableEntry} {entry : DynamicTableEntry} {name value : Str}
  {p : Parsed} {rep : Rep}

/-- An entry that lives moves by as many places as there are new ones. -/
theorem Keeping.slid (h : Keeping conn t items n name entry) (hsl : Slid conn t items t' new d)
    (hlive : n + new.length ≤ staticTableSize + t'.info.count) :
    Keeping conn t' ((items ++ new).drop d) (n + new.length) name entry := by
  obtain ⟨j, hj, hplace⟩ := h.place
  have hlt := (List.getElem?_eq_some_iff.mp hj).1
  have hcount := hsl.holds.count
  have hle := hsl.le
  rw [List.length_drop, List.length_append] at hcount
  rw [List.length_append] at hle
  have hdj : d ≤ j := by omega
  refine ⟨hsl.holds, ⟨j - d, ?_, ?_⟩, h.key, h.huff, h.whole⟩
  · rw [List.getElem?_drop, Nat.add_sub_cancel' hdj, List.getElem?_append_left hlt]
    exact hj
  · rw [List.length_drop, List.length_append]
    omega

/-- What the index of an entry names is what the entry keeps. -/
theorem Keeping.getTableEntry (h : Keeping conn t items n name entry) (hd : t.info.dirty = 0) :
    getTableEntry rd conn t n = some entry.field := by
  obtain ⟨j, hj, hplace⟩ := h.place
  have hlt := (List.getElem?_eq_some_iff.mp hj).1
  have hback : items.length - 1 - (n - dynamicTableBase) = j := by
    unfold staticTableSize dynamicTableBase at *
    omega
  rw [h.holds.getTableEntry_recent hd (by omega), List.getElem?_reverse (by
    unfold staticTableSize dynamicTableBase at *
    omega), hback, hj]
  rfl

theorem Keeping.index_lt (h : Keeping conn t items n name entry) : u32 n = n := by
  obtain ⟨j, hj, hplace⟩ := h.place
  have hlen := h.holds.length_le
  apply u32_of_lt
  unfold staticTableSize at hplace
  unfold mapMaxEntries at hlen
  omega

theorem sizedEntry_key {key val : Bytes × Bool} (h : sizedEntry key val = some entry) :
    entry.field.key = key.1.take headerFieldMaxlen ∧ entry.field.keyHuff = key.2 ∧
      (key.2 = true → key.1.length ≤ headerFieldMaxlen) := by
  unfold sizedEntry at h
  simp only at h
  split at h
  · cases h
  next hcut =>
    rw [Bool.or_eq_true, not_or] at hcut
    cases h
    refine ⟨rfl, rfl, fun hh => ?_⟩
    have hfit := hcut.1
    rw [hh, Bool.and_true, decide_eq_true_eq] at hfit
    exact Nat.not_lt.mp hfit

/-- The entry that is stored under a name keeps what it can of it. -/
theorem Holds.keeping (h : Holds conn t items) {key : Bytes × Bool}
    (hk : key.1.take headerFieldMaxlen = name.raw.take headerFieldMaxlen) (hh : key.2 = name.huff)
    (hw : name.huff = true → key.1.length ≤ headerFieldMaxlen → name.raw.length ≤ headerFieldMaxlen)
    (hl : key.1.length ≤ 0xffff) (hv : value.raw.length ≤ 0xffff)
    (hadd : newEntries t (addField conn t (some key) value) = 1) :
    ∃ items entry, Keeping conn (addField conn t (some key) value) items dynamicTableBase name entry := by
  obtain ⟨new, d, hnew, hsl⟩ := @addField_slid conn t items h (some key) value
    (fun k hk => by cases hk; exact hl) hv
  have hshort : new.length < 2 ^ 31 := by
    rcases hnew with rfl | ⟨-, -, -, -, rfl, -⟩
    · exact Nat.two_pow_pos 31
    · exact Nat.one_lt_two_pow (by decide)
  have hone := (hsl.added h hshort).symm.trans hadd
  rcases hnew with rfl | ⟨key', entry, he, hent, rfl, hd⟩
  · cases hone
  cases he
  obtain ⟨hkey, hhuff, hwhole⟩ := sizedEntry_key hent
  refine ⟨_, entry, hsl.holds, ⟨items.length - d, ?_, ?_⟩, hkey.trans hk, hhuff.trans hh,
    fun hn => hw hn (hwhole (hh.trans hn))⟩
  · rw [List.getElem?_drop, Nat.add_sub_cancel' hd, List.getElem?_append_right (Nat.le_refl _),
      Nat.sub_self]
    rfl
  · rw [List.length_drop, List.length_append, List.length_singleton]
    unfold dynamicTableBase staticTableSize
    omega

theorem TableStep.slid (hs : TableStep conn t t') (h : Holds conn t items) :
    ∃ new d, new.length ≤ 1 ∧ Slid conn t items t' new d := by
  cases hs with
  | same => exact ⟨[], 0, Nat.zero_le 1, .refl h⟩
  | drift => exact ⟨[], 0, Nat.zero_le 1, (Slid.refl h).setDirty⟩
  | insert entry he =>
    obtain ⟨new, d, hnew, hsl⟩ := insertEntry_slid h he
    refine ⟨new, d, ?_, hsl⟩
    rcases hnew with rfl | ⟨rfl, -⟩
    · exact Nat.zero_le 1
    · exact Nat.le_refl 1
  | resize v =>
    obtain ⟨hle, hheld, hdel⟩ := (h.resize v).slid (h.setMaxSize v)
    exact ⟨[], _, Nat.zero_le 1, hle, hheld, hdel⟩

theorem TableWalk.slid {n : Nat} (hw : TableWalk conn n t t') (h : Holds conn t items) :
    ∃ new d, new.length ≤ n ∧ Slid conn t items t' new d := by
  induction hw generalizing items with
  | nil n t => exact ⟨[], 0, Nat.zero_le n, .refl h⟩
  | cons hs hw ih =>
    obtain ⟨new, d, hnew, hsl⟩ := hs.slid h
    obtain ⟨new', d', hnew', hsl'⟩ := ih hsl.holds
    refine ⟨new ++ new', d + d', ?_, hsl.trans hsl'⟩
    rw [List.length_append]
    omega

/-- Whatever a call does, the entries of its connection stay in their order. -/
theorem MapsStep.slid {header : Prop} (h : MapsStep conn header ann maps maps')
    (hi : Holds conn (maps.tableOf conn) items) : ∃ new d, new.length ≤ maxBytes ∧
      Slid conn (maps.tableOf conn) items (maps'.tableOf conn) new d := by
  cases h with
  | same buf => exact ⟨[], 0, Nat.zero_le _, .refl hi⟩
  | @walk buf info m n t hh hg hn hw =>
    have htable : m.table info = ({ maps with blockBuf := buf } : Maps).tableOf conn :=
      getDynamicTable_tableOf hg
    rw [htable] at hw
    rw [setTable_tableOf hg]
    obtain ⟨new, d, hnew, hsl⟩ := hw.slid hi
    exact ⟨new, d, Nat.le_trans hnew hn, hsl⟩
  | @settings info m hg =>
    rw [setTable_tableOf hg, getDynamicTable_tableOf hg]
    obtain ⟨hle, hheld, hdel⟩ := Slid.refl hi
    exact ⟨[], 0, Nat.zero_le _, hle, hheld.setMaxSize _, hdel⟩

theorem SameTable.slid (h : SameTable conn t t') (hi : Holds conn t items) :
    Slid conn t items t' [] 0 := by
  obtain ⟨hle, hheld, hdel⟩ := Slid.refl hi
  exact ⟨hle, h.holds hheld, h.info ▸ hdel⟩

theorem Called.slid (hc : Called rd maps c type ann p) (hs : StoreOk maps)
    (hi : Holds conn (maps.tableOf conn) items) : ∃ new d, new.length ≤ maxBytes ∧
      Slid conn (maps.tableOf conn) items (p.maps.tableOf conn) new d := by
  by_cases hne : conn = c
  · subst hne
    exact hc.step.slid hi
  · exact ⟨[], 0, Nat.zero_le _, ((hc.step.storeOk hs).2 conn hne).table.slid hi⟩

theorem Stored.tableOf (hs : Stored maps conn) : ∃ items, Holds conn (maps.tableOf conn) items := by
  unfold Maps.tableOf Maps.infoOf
  cases hl : maps.dynamicTableInfo.lookup conn with
  | none => exact ⟨[], holds_new (hs.absent hl)⟩
  | some info => exact hs.present info hl

/-- Every such entry keeps what it can of its name. -/
theorem Named.keeping (h : Named rd conn t n name) :
    ∃ items entry, Keeping conn t items n name entry := by
  induction h with
  | @new maps ins front name value hr hf hs hadd =>
    obtain ⟨items, hi⟩ := (hr.invariant.1.stored conn).tableOf
    obtain ⟨new, d, -, hsl⟩ := @blockMeaning_slid conn _ items rd (fun _ => none) front hi hf
    exact @Holds.keeping conn _ _ name value hsl.holds (name.raw, name.huff) rfl rfl
      (fun _ hle => hle) hs.1 hs.2 hadd
  | @renamed t n name value h hslot hs hadd ih =>
    obtain ⟨items, entry, hk⟩ := ih
    have hstep : tableAfter rd conn [.literal .incremental (.idx n) value] t =
        addField conn t (nameBytes rd conn t (.idx n)) value := rfl
    rw [hstep] at hadd ⊢
    by_cases hd : t.info.dirty = 0
    · have hfound : getTableEntry rd conn t n = some entry.field := hk.getTableEntry hd
      have hbytes : nameBytes rd conn t (.idx n) = some (entry.field.key, entry.field.keyHuff) := by
        rw [nameBytes, hk.index_lt, hk.holds.slotField_entry hd hslot hfound]
        rfl
      rw [hbytes] at hadd ⊢
      refine hk.holds.keeping ?_ hk.huff (fun hn _ => hk.whole hn)
        (Nat.le_trans entry.field.key_le (by decide)) hs hadd
      rw [hk.key, List.take_take, Nat.min_self]
    · unfold addField newEntries at hadd
      rw [if_pos hd, u32Sub_of_le (Nat.le_refl _), Nat.sub_self] at hadd
      cases hadd
  | @field t n name rep h hs hlive ih =>
    obtain ⟨items, entry, hk⟩ := ih
    obtain ⟨new, d, hnew, hsl⟩ := @meaning_slid conn t items rd (fun _ => none) rep hk.holds hs
    have hcount : newEntries t (tableAfter rd conn [rep] t) = new.length :=
      hsl.added hk.holds (by omega)
    rw [hcount] at hlive ⊢
    exact ⟨_, entry, hk.slid hsl hlive⟩
  | @call maps ins c type n ann p name hr h hc hlive ih =>
    obtain ⟨items, entry, hk⟩ := ih
    obtain ⟨new, d, hnew, hsl⟩ := hc.slid hr.invariant.1 hk.holds
    have hcount : newEntries (maps.tableOf conn) (p.maps.tableOf conn) = new.length :=
      hsl.added hk.holds (by unfold maxBytes at hnew; omega)
    rw [hcount] at hlive ⊢
    exact ⟨_, entry, hk.slid hsl hlive⟩
  | @forget maps maps' ins c n name hr h hc hf ih =>
    obtain ⟨items, entry, hk⟩ := ih
    obtain ⟨-, -, hother, -⟩ := forgetConn_spec hr.invariant.1 hf
    exact ⟨items, entry, (hother conn (Ne.symm hc)).table.holds hk.holds, hk.place, hk.key, hk.huff,
      hk.whole⟩

/-- The field refers to the index `n`, for its name or as a whole. -/
def Rep.Refers (rep : Rep) (n : Nat) : Prop :=
  rep = .indexed n ∨ ∃ mode value, rep = .literal mode (.idx n) value

variable {encode : Bytes → Option Bytes} {captures : List (Bytes × MatchId)}

/-- A field that refers to an entry is captured by what the entry keeps of its name. -/
theorem Named.repCapture (h : Named rd conn t n name) (hd : t.info.dirty = 0) (hr : rep.Refers n) :
    repCapture rd conn t rep = matchHeaderKey rd (name.raw.take headerFieldMaxlen) name.huff := by
  obtain ⟨items, entry, hk⟩ := h.keeping
  have href : refCapture rd conn t (u32 n) =
      matchHeaderKey rd (name.raw.take headerFieldMaxlen) name.huff := by
    rw [hk.index_lt, refCapture, hk.getTableEntry hd, Option.bind_some, hk.key, hk.huff]
  rcases hr with rfl | ⟨mode, value, rfl⟩
  · exact href
  · exact href

/-- What is kept of a long name matches as the name does only if neither of them is captured. -/
theorem Attached.matchHeaderKey_take_iff (ha : Attached encode captures rd) {w : Bytes}
    (hl : headerFieldMaxlen < w.length) :
    (∀ m, matchHeaderKey rd (w.take headerFieldMaxlen) false = some m ↔
      matchHeaderKey rd w false = some m) ↔
      ∀ x ∈ captures, x.1 ≠ w ∧ x.1 ≠ w.take headerFieldMaxlen := by
  have hne : w ≠ [] := List.ne_nil_of_length_pos (Nat.lt_of_le_of_lt (Nat.zero_le _) hl)
  have hlen : (w.take headerFieldMaxlen).length = headerFieldMaxlen :=
    List.length_take_of_le (Nat.le_of_lt hl)
  have hne' : w.take headerFieldMaxlen ≠ [] :=
    List.ne_nil_of_length_pos (by rw [hlen]; decide)
  have hdiff : w ≠ w.take headerFieldMaxlen := by
    intro heq
    rw [heq, hlen] at hl
    exact Nat.lt_irrefl _ hl
  have hplain : ∀ (s : Bytes) (m : MatchId), s ≠ [] →
      (matchHeaderKey rd s false = some m ↔ (s, m) ∈ captures) := by
    intro s m hs
    rw [ha.matchHeaderKey_iff m]
    constructor
    · rintro ⟨-, name, hm, hform⟩
      cases hform
      exact hm
    · exact fun hm => ⟨hs, s, hm, rfl⟩
  constructor
  · intro h x hx
    constructor
    · rintro rfl
      have hcut := (hplain _ x.2 hne').mp ((h x.2).mpr ((hplain _ x.2 hne).mpr hx))
      exact hdiff (ha.name_inj hx hcut)
    · intro heq
      have hx' : (w.take headerFieldMaxlen, x.2) ∈ captures := heq ▸ hx
      have hwhole := (hplain _ x.2 hne).mp ((h x.2).mp ((hplain _ x.2 hne').mpr hx'))
      exact hdiff (ha.name_inj hwhole hx')
  · intro h m
    rw [hplain _ m hne', hplain _ m hne]
    exact ⟨fun hm => absurd rfl (h _ hm).2, fun hm => absurd rfl (h _ hm).1⟩

/-- A field that refers to an entry is captured as one that spells its name out, unless the name is
longer than an entry keeps, and it or what is kept of it is captured. -/
theorem named_alike_iff (ha : Attached encode captures rd) (h : Named rd conn t n name)
    (hd : t.info.dirty = 0) :
    (∀ rep m mode value, rep.Refers n → (repCapture rd conn t rep = some m ↔
      repCapture rd conn t (.literal mode (.lit name) value) = some m)) ↔
      name.raw.length ≤ headerFieldMaxlen ∨
        ∀ x ∈ captures, x.1 ≠ name.raw ∧ x.1 ≠ name.raw.take headerFieldMaxlen := by
  obtain ⟨items, entry, hk⟩ := h.keeping
  have hspelt : ∀ mode value, repCapture rd conn t (.literal mode (.lit name) value) =
      matchHeaderKey rd name.raw name.huff := fun _ _ => rfl
  by_cases hl : name.raw.length ≤ headerFieldMaxlen
  · refine ⟨fun _ => .inl hl, fun _ rep m mode value hr => ?_⟩
    rw [h.repCapture hd hr, hspelt, List.take_of_length_le hl]
  · have hhuff : name.huff = false := Bool.eq_false_iff.mpr fun hn => hl (hk.whole hn)
    rw [or_iff_right hl, ← ha.matchHeaderKey_take_iff (Nat.not_le.mp hl)]
    constructor
    · intro halike m
      have hrep := halike (.indexed n) m .without ⟨false, []⟩ (.inl rfl)
      rw [h.repCapture hd (.inl rfl), hspelt, hhuff] at hrep
      exact hrep
    · intro halike rep m mode value hr
      rw [h.repCapture hd hr, hspelt, hhuff]
      exact halike m

/-- The first field of a connection. -/
theorem named_first (rd : Rodata) {name value : Str} (hn : name.raw.length ≤ 0xffff)
    (hv : value.raw.length ≤ 0xffff) (hadd : newEntries (Maps.init.tableOf tableConn)
      (addField tableConn (Maps.init.tableOf tableConn) (some (name.raw, name.huff)) value) = 1) :
    Named rd tableConn
      (addField tableConn (Maps.init.tableOf tableConn) (some (name.raw, name.huff)) value) 62 name :=
  @Named.new rd tableConn .init (fun _ => 0) [] name value .init
    (fun _ hm => absurd hm List.not_mem_nil) ⟨hn, hv⟩ hadd

/-- The first bytes of a name are captured, but not the name. -/
theorem named_cut : ∃ rd t, Attached huffmanCode [(longName.take headerFieldMaxlen, 0)] rd ∧
    Named rd tableConn t 62 ⟨false, longName⟩ ∧ t.info.dirty = 0 ∧
      repCapture rd tableConn t (.indexed 62) = some 0 ∧
      repCapture rd tableConn t (.literal .without (.lit ⟨false, longName⟩) ⟨false, []⟩) ≠ some 0 := by
  have hlen : longName.length = 129 := List.length_replicate ..
  have hcut : (longName.take headerFieldMaxlen).length = headerFieldMaxlen :=
    List.length_take_of_le (by rw [hlen]; decide)
  have hne : longName.take headerFieldMaxlen ≠ [] := by
    intro hnil
    rw [hnil] at hcut
    cases hcut
  have hroom : sReserved + (Huffman.encode (longName.take headerFieldMaxlen)).length +
      (longName.take headerFieldMaxlen).length ≤ maxStates := by decide +kernel
  have hcoded : Huffman.encode (longName.take headerFieldMaxlen) ≠ [] := by decide +kernel
  obtain ⟨rd, ha⟩ := @attached_single huffmanCode _ _ (fun s => ⟨_, rfl⟩) hne rfl hcoded hroom
  have hadd : newEntries (Maps.init.tableOf tableConn) (addField tableConn
      (Maps.init.tableOf tableConn) (some (longName, false)) ⟨false, [0x62]⟩) = 1 := by decide +kernel
  have hd : (addField tableConn (Maps.init.tableOf tableConn) (some (longName, false))
      ⟨false, [0x62]⟩).info.dirty = 0 := by decide +kernel
  have hnew := @named_first rd ⟨false, longName⟩ ⟨false, [0x62]⟩ (by rw [hlen]; decide) (by decide) hadd
  simp only at hnew
  generalize addField tableConn (Maps.init.tableOf tableConn) (some (longName, false))
    ⟨false, [0x62]⟩ = t at hnew hd
  refine ⟨rd, t, ha, hnew, hd, ?_, fun hm => ?_⟩
  · rw [hnew.repCapture hd (.inl rfl), ha.matchHeaderKey_iff 0]
    exact ⟨hne, _, List.mem_singleton.mpr rfl, rfl⟩
  · obtain ⟨-, name, hname, hform⟩ := (ha.matchHeaderKey_iff 0).mp hm
    obtain ⟨rfl, -⟩ := Prod.mk.inj (List.mem_singleton.mp hname)
    have hsame := congrArg List.length (Option.some.inj hform)
    rw [hcut, hlen] at hsame
    cases hsame

/-- A table with a field, and with another one behind it. -/
def firstTable : DynamicTable :=
  addField tableConn (Maps.init.tableOf tableConn) (some ([0x61], false)) ⟨false, [0x62]⟩

def laterTable : DynamicTable :=
  addField tableConn firstTable (some ([0x63], false)) ⟨false, [0x64]⟩

/-- The name of an entry that another one was added behind. -/
theorem named_later : ∃ rd, Attached huffmanCode [([0x61], 0)] rd ∧
    repCapture rd tableConn laterTable (.indexed 63) = some 0 := by
  obtain ⟨rd, ha⟩ := attached_letter
  have hfirst : Named rd tableConn firstTable 62 ⟨false, [0x61]⟩ :=
    @named_first rd ⟨false, [0x61]⟩ ⟨false, [0x62]⟩ (by decide) (by decide) (by decide +kernel)
  have hone : newEntries firstTable laterTable = 1 := by decide +kernel
  have hlive : 62 + newEntries firstTable laterTable ≤ staticTableSize + laterTable.info.count := by
    decide +kernel
  have hlater : Named rd tableConn laterTable (62 + newEntries firstTable laterTable) ⟨false, [0x61]⟩ :=
    @Named.field rd tableConn firstTable 62 ⟨false, [0x61]⟩ (shortRep 0x63 0x64) hfirst
      ⟨by decide, by decide⟩ hlive
  rw [hone] at hlater
  have hlit : repCapture rd tableConn laterTable
      (.literal .without (.lit ⟨false, [0x61]⟩) ⟨false, []⟩) = some 0 :=
    (ha.matchHeaderKey_iff 0).mpr ⟨by decide, [0x61], List.mem_singleton.mpr rfl, rfl⟩
  have hd : laterTable.info.dirty = 0 := by decide +kernel
  exact ⟨rd, ha, ((named_alike_iff ha hlater hd).mpr (.inl (by decide)) (.indexed 63) 0 _ _
    (.inl rfl)).mpr hlit⟩

end Beeper.Http2
