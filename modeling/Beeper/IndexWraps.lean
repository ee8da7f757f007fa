import Beeper.HpackTrace
import Beeper.IndexEntries
import Beeper.NamesLoaded

namespace Beeper.Http2

/-- What an index is used for: all of an entry, or its name, which a literal field has. -/
inductive IndexUse
  | entry
  | name (mode : Indexing)

/-- The bytes `int` of the index `n`, and those of the field that uses it. -/
inductive UsesIndex (n : Nat) (int : Bytes) : IndexUse → Bytes → Prop
  | indexed (h : IntWire 0x80 0x7F int n) : UsesIndex n int .entry int
  | named {mode : Indexing} {value : Str} {vs : Bytes} (hn : 0 < n)
      (h : IntWire mode.bits mode.max int n) (hv : StrWire readLen value vs) :
      UsesIndex n int (.name mode) (int ++ vs)

/-- The entry is used beyond the look at its name: its value is captured, or a field is added under
its name. -/
def IndexUse.Keeps (rd : Rodata) (conn : Ip4Conn) (t : DynamicTable) (n : Nat) : IndexUse → Prop
  | .entry => refCapture rd conn t n ≠ none
  | .name mode => mode = .incremental

/-- The states in front of a representation that a run of the parser leads to. -/
inductive Reached (rd : Rodata) (ctx : MsgCtx) (buf : BlockBuf) : HdrState → Prop
  | mk {maps m : Maps} {ins : Ip4Conn → Nat} {info : DynamicTableInfo} {pres : HttpParseRes}
      {src : HttpMatchSource} {base : Nat} {reps : List Rep} {front : Bytes} {st : HdrState}
      (hrun : Run rd maps ins) (hg : getDynamicTable maps ctx.conn = (some info, m))
      (hw : BlockWire readLen reps front)
      (hf : feed rd ctx buf (front.zipIdx base) ⟨m.table info, pres, newHttp2ParseState src⟩ =
        (none, st)) : Reached rd ctx buf st

/-- The action of an index runs, and nothing else, with the value `v`. -/
def RunsIndex (v : Nat) (es : List HdrEvent) : Prop :=
  ∃ kind huff add off, es = [.run kind v huff add off] ∧ (kind = .indexed ∨ kind = .idxName)

/-- The entry the parser takes the name from is the entry `n`, and so is the one that it captures or
adds a field under, where it does. A field whose index names no entry changes nothing. -/
structure Resolved (rd : Rodata) (ctx : MsgCtx) (buf : BlockBuf) (st : HdrState) (base n : Nat)
    (use : IndexUse) (int field : Bytes) : Prop where
  name : 0 < n → ∃ v, RunsIndex v (hdrTrace rd ctx buf (int.zipIdx base) st) ∧
    getTableEntry rd ctx.conn st.table v =
      (entryRef st.table.info n).bind (refField rd ctx.conn st.table.entries)
  kept : entryRef st.table.info n ≠ none → use.Keeps rd ctx.conn st.table n →
    ∃ v, RunsIndex v (hdrTrace rd ctx buf (int.zipIdx base) st) ∧
      slotRef (slotOf st.table.info v) = entryRef st.table.info n
  nothing : entryRef st.table.info n = none →
    (feed rd ctx buf (field.zipIdx base) st).2.table = st.table ∧
      (feed rd ctx buf (field.zipIdx base) st).2.pres = st.pres

/-- An index that names no entry does not wrap around into one that does, and where it is an entry
that is used beyond its name, a match can hold its key. -/
def Resolvable (rd : Rodata) (conn : Ip4Conn) (t : DynamicTable) (n : Nat) (use : IndexUse) : Prop :=
  if n = 0 ∨ staticTableSize + t.info.count < n then
    n % 2 ^ 32 = 0 ∨ staticTableSize + t.info.count < n % 2 ^ 32
  else use.Keeps rd conn t n → SlotHolds t.info n

variable {rd : Rodata} {ctx : MsgCtx} {buf : BlockBuf} {st : HdrState} {src : HttpMatchSource}
  {conn : Ip4Conn} {t : DynamicTable} {items : List DynamicTableEntry} {n : Nat} {use : IndexUse}
  {int field : Bytes}

theorem Reached.stored (h : Reached rd ctx buf st) (hrd : ReadsReps rd) :
    (∃ items, Holds ctx.conn st.table items) ∧ ∃ src, AtField src st.table st.pres st := by
  cases h with
  | @mk maps m ins info pres src base reps front _ hrun hg hw hf =>
  obtain ⟨items, hi⟩ := (hrun.invariant.1.stored ctx.conn).holds hg
  have hwalk := feed_walk rd ctx buf (front.zipIdx base)
    ⟨m.table info, pres, newHttp2ParseState src⟩
  rw [hf] at hwalk
  obtain ⟨t', pres', st', hf', hat⟩ := feed_complete hrd ⟨reps, hw⟩ ctx buf base
    (show AtField src (m.table info) pres ⟨m.table info, pres, newHttp2ParseState src⟩ from
      ⟨rfl, rfl, rfl, rfl, rfl⟩)
  rw [hf] at hf'
  obtain rfl := (Prod.mk.inj hf').2
  exact ⟨(hwalk.holds hi).1, src, hat.s, hat.skip, hat.src, rfl, rfl⟩

theorem entryRef_eq_none {info : DynamicTableInfo} :
    entryRef info n = none ↔ n = 0 ∨ staticTableSize + info.count < n := by
  unfold entryRef
  split
  next h => exact iff_of_true rfl h
  next h =>
    split <;> exact iff_of_false (by simp) h

/-- An index that is in range is found. -/
theorem Holds.finds (h : Holds conn t items) (hd : t.info.dirty = 0) (hn : entryRef t.info n ≠ none) :
    getTableEntry rd conn t n ≠ none := by
  have hin : ¬(n = 0 ∨ staticTableSize + t.info.count < n) := fun hz => hn (entryRef_eq_none.mpr hz)
  have hc := h.count
  rw [h.getTableEntry_eq hd, entryRef, if_neg hin]
  by_cases hs : n ≤ staticTableSize
  · rw [if_pos hs, Option.bind_some, refField, Rodata.lookupStatic, dif_pos (Nat.lt_succ_of_le hs)]
    exact Option.some_ne_none _
  · have hlt : staticTableSize + t.info.count - n < items.length := by omega
    rw [if_neg hs, Option.bind_some, refField, h.lookup_entryKey (by omega) (by omega),
      List.getElem?_eq_getElem hlt]
    exact Option.some_ne_none _

/-- The name that an index comes to that names no entry, once it was read into 32 bits. -/
theorem Holds.wraps_iff (h : Holds conn t items) (hd : t.info.dirty = 0)
    (hout : n = 0 ∨ staticTableSize + t.info.count < n) :
    getTableEntry rd conn t (u32 n) = (entryRef t.info n).bind (refField rd conn t.entries) ↔
      n % 2 ^ 32 = 0 ∨ staticTableSize + t.info.count < n % 2 ^ 32 := by
  rw [entryRef_eq_none.mpr hout, Option.bind_none, ← u32_eq, ← entryRef_eq_none]
  constructor
  · intro hname
    by_contra hne
    exact h.finds hd hne hname
  · intro hnone
    rw [h.getTableEntry_eq hd, hnone]
    rfl

/-- The action that the bytes of an index run. -/
theorem UsesIndex.runs (h : UsesIndex n int use field) (hn : 0 < n) (hrd : ReadsReps rd)
    (hs : st.ps.s = sField) (hskip : st.ps.skip = 0) (base v : Nat) :
    RunsIndex v (hdrTrace rd ctx buf (int.zipIdx base) st) ↔ v = u32 n := by
  have hrun : ∃ kind flags, hdrTrace rd ctx buf (int.zipIdx base) st =
      [intEvent kind flags (u32 n) (base + int.length)] ∧ (kind = .indexed ∨ kind = .idxName) := by
    cases h with
    | indexed h => exact ⟨_, _, trace_int ctx buf hrd indexedRow h hn base hs hskip, .inl rfl⟩
    | @named mode value vs _ h _ =>
      exact ⟨_, _, trace_int ctx buf hrd (namedRow mode) h hn base hs hskip, .inr rfl⟩
  obtain ⟨kind, flags, htrace, hkind⟩ := hrun
  rw [htrace]
  constructor
  · rintro ⟨k, huff, add, off, he, -⟩
    simp only [intEvent, List.cons.injEq, HdrEvent.run.injEq] at he
    exact he.1.2.1.symm
  · rintro rfl
    exact ⟨kind, _, _, _, rfl, hkind⟩

variable (ctx buf) in
/-- The index 0 is an error, which leaves everything as it was. -/
theorem feed_indexZero (hrd : ReadsReps rd) (h : IntWire 0x80 0x7F int n) (hn : n = 0)
    (hs : st.ps.s = sField) (hskip : st.ps.skip = 0) (base : Nat) :
    ∃ ps', feed rd ctx buf (int.zipIdx base) st = (some .EBADMSG, ⟨st.table, st.pres, ps'⟩) := by
  cases h with
  | long c hc h => omega
  | short c hv hc =>
    have he := parseHdrByte_rep ctx buf hrd { st with ps := { st.ps with i := base } } c
      (t := sDead) (a := ⟨.err, 0, 0⟩) (by simp only [hs]; decide) hskip
      (by simp only [hs, hc, hn]; decide)
    simp only [reduceCtorEq, if_false, runAction] at he
    rw [List.zipIdx_singleton, feed_single, he]
    exact ⟨_, rfl⟩

theorem getTableEntry_zero (rd : Rodata) (h : Holds conn t items) (hd : t.info.dirty = 0)
    (hnone : entryRef t.info n = none) :
    refCapture rd conn t n = none ∧ slotOf t.info n = 0 := by
  unfold refCapture
  rw [h.getTableEntry_eq hd, hnone, h.countable.slotOf_eq, if_pos (entryRef_eq_none.mp hnone)]
  exact ⟨rfl, rfl⟩

/-- A name that is in neither table is not added. -/
theorem added_zero (t : DynamicTable) (add : Bool) (val : HttpMatch) :
    added rd ctx buf t add (tableMatch 0 0) val = t := by
  unfold added addDynamicTableEntry
  cases add with
  | false => rfl
  | true =>
    simp only [if_true]
    split
    · rfl
    · rw [getMatch_table ctx buf t.entries (Nat.zero_le _) 0 true]
      rfl

/-- A field whose index is read as one that names no entry changes nothing. -/
theorem UsesIndex.nothing (h : UsesIndex n int use field) (hrd : ReadsReps rd)
    (hi : Holds ctx.conn t items) (hd : t.info.dirty = 0) {pres : HttpParseRes}
    (hat : AtField src t pres st) (hnone : entryRef t.info (u32 n) = none) (base : Nat) :
    (feed rd ctx buf (field.zipIdx base) st).2.table = t ∧
      (feed rd ctx buf (field.zipIdx base) st).2.pres = pres := by
  obtain ⟨hcid, hslot⟩ := getTableEntry_zero rd hi hd hnone
  cases h with
  | indexed h =>
    by_cases hn : n = 0
    · obtain ⟨ps', hf⟩ := feed_indexZero ctx buf hrd h hn hat.s hat.skip base
      rw [hf, hat.table, hat.pres]
      exact ⟨rfl, rfl⟩
    · obtain ⟨st', hf, hat'⟩ := exec_indexed ctx buf hrd hat (Nat.pos_of_ne_zero hn) h base
      rw [hf, hat'.table, hat'.pres, hcid]
      exact ⟨rfl, rfl⟩
  | @named mode value vs hn h hv =>
    obtain ⟨st1, hf1, hst1⟩ := exec_named ctx buf hrd hat hn h base
    obtain ⟨st', hf, hat'⟩ := exec_value ctx buf hrd hst1 hv (base + int.length)
    rw [List.zipIdx_append, feed_append, hf1]
    simp only [hf, hat'.table, hat'.pres]
    rw [hcid, hslot, added_zero]
    exact ⟨rfl, rfl⟩

theorem UsesIndex.resolvable_iff (h : UsesIndex n int use field) (hrd : ReadsReps rd)
    (hi : Holds ctx.conn st.table items) (hd : st.table.info.dirty = 0)
    (hat : AtField src st.table st.pres st) (base : Nat) :
    Resolved rd ctx buf st base n use int field ↔ Resolvable rd ctx.conn st.table n use := by
  have hruns := fun hpos v => @UsesIndex.runs rd ctx buf st n use int field h hpos hrd hat.s hat.skip base v
  unfold Resolvable
  by_cases hout : n = 0 ∨ staticTableSize + st.table.info.count < n
  · have hnone := entryRef_eq_none.mpr hout
    rw [if_pos hout]
    constructor
    · intro hr
      by_cases hn : n = 0
      · exact .inl (by rw [hn, Nat.zero_mod])
      · have hpos := Nat.pos_of_ne_zero hn
        obtain ⟨v, hv, hname⟩ := hr.name hpos
        obtain rfl := (hruns hpos v).mp hv
        exact (hi.wraps_iff hd hout).mp hname
    · intro hr
      refine ⟨fun hpos => ⟨u32 n, (hruns hpos _).mpr rfl, (hi.wraps_iff hd hout).mpr hr⟩,
        fun hne => absurd hnone hne, fun _ => ?_⟩
      rw [← u32_eq] at hr
      exact h.nothing hrd hi hd hat (entryRef_eq_none.mpr hr) base
  · have hcount := hi.countable.count_le
    have hu : u32 n = n := by
      apply u32_of_lt
      unfold mapMaxEntries at hcount
      unfold staticTableSize at hout
      omega
    have hpos : 0 < n := by omega
    have hsome := mt entryRef_eq_none.mp hout
    rw [if_neg hout]
    constructor
    · intro hr hkeeps
      obtain ⟨v, hv, hslot⟩ := hr.kept hsome hkeeps
      obtain rfl := (hruns hpos v).mp hv
      rw [hu] at hslot
      exact (hi.countable.slotRef_iff hout).mp hslot
    · intro hr
      refine ⟨fun _ => ⟨u32 n, (hruns hpos _).mpr rfl, ?_⟩,
        fun _ hkeeps => ⟨u32 n, (hruns hpos _).mpr rfl, ?_⟩, fun hnone => absurd hnone hsome⟩
      · rw [hu]
        exact hi.getTableEntry_eq hd n
      · rw [hu]
        exact (hi.countable.slotRef_iff hout).mpr (hr hkeeps)

/-- An index is resolved to the entry it names, of whatever size it is, unless it wraps around into
another one, or its entry is used beyond its name and stored under a key that a match has no room
for. -/
theorem resolved_iff {encode : Bytes → Option Bytes} {captures : List (Bytes × MatchId)}
    (ha : Attached encode captures rd) (hr : Reached rd ctx buf st)
    (hd : st.table.info.dirty = 0) (hu : UsesIndex n int use field) (base : Nat) :
    Resolved rd ctx buf st base n use int field ↔ Resolvable rd ctx.conn st.table n use := by
  obtain ⟨⟨items, hi⟩, src, hat⟩ := hr.stored ha.readsReps
  exact hu.resolvable_iff ha.readsReps hi hd hat base

/-- An index that wraps around to the second entry of the static table, in an indexed field. -/
def wrappingIndex : Bytes := [0xff, 0x83, 0xff, 0xff, 0xff, 0x0f]

theorem wrappingIndex_wire : IntWire 0x80 0x7F wrappingIndex (2 ^ 32 + 2) :=
  .long 0xff (by decide) (.more 0x83 (by decide) (.more 0xff (by decide) (.more 0xff (by decide)
    (.more 0xff (by decide) (.last 0x0f (by decide))))))

/-- The state a connection starts with. -/
theorem reached_new (rd : Rodata) (buf : BlockBuf) : ∃ m : Maps, Reached rd ⟨[], tableConn⟩ buf
    ⟨m.table .new, .zero, newHttp2ParseState .msg⟩ := by
  obtain ⟨m, hg⟩ := getDynamicTable_init tableConn
  have hf : feed rd ⟨[], tableConn⟩ buf (([] : Bytes).zipIdx 0)
      ⟨m.table .new, .zero, newHttp2ParseState .msg⟩ =
      (none, ⟨m.table .new, .zero, newHttp2ParseState .msg⟩) := rfl
  exact ⟨m, .mk .init hg .nil hf⟩

/-- The first field of a connection can have an index of more than 32 bits, and is taken for the one
that has its last 32. -/
theorem resolved_wraps : ∃ rd, Attached (fun s => some (Huffman.encode s)) [] rd ∧
    ∃ st, Reached rd ⟨[], tableConn⟩ .zero st ∧ st.table.info.dirty = 0 ∧
      UsesIndex (2 ^ 32 + 2) wrappingIndex .entry wrappingIndex ∧
      ¬Resolved rd ⟨[], tableConn⟩ .zero st 0 (2 ^ 32 + 2) .entry wrappingIndex wrappingIndex := by
  obtain ⟨rd, ha⟩ := @attached_exists (fun s => some (Huffman.encode s)) fun s => ⟨_, rfl⟩
  obtain ⟨m, hr⟩ := reached_new rd .zero
  obtain ⟨⟨items, hi⟩, src, hat⟩ := hr.stored ha.readsReps
  have hu : UsesIndex (2 ^ 32 + 2) wrappingIndex .entry wrappingIndex := .indexed wrappingIndex_wire
  refine ⟨rd, ha, _, hr, rfl, hu, fun hres => ?_⟩
  have hn := (hu.resolvable_iff ha.readsReps hi rfl hat 0).mp hres
  have hcount : (m.table .new).info.count = 0 := rfl
  unfold Resolvable at hn
  simp only [hcount] at hn
  rw [if_pos (by decide)] at hn
  exact absurd hn (by decide)

/-- The table of a connection that a short field was added to. -/
def singleTable : DynamicTable :=
  addField tableConn ⟨.new, .empty, []⟩ (some ([0x61], false)) ⟨false, [0x62]⟩

theorem singleTable_entry : getTableEntry rd tableConn singleTable 62 =
    some (keptField ([0x61], false) ([0x62], false)) := by
  have hvalid : isValidHpackIndex singleTable.info 62 = true := by decide +kernel
  have hindex : getDynamicTableIndex singleTable.info 62 = 62 := by decide +kernel
  have hd : singleTable.info.dirty = 0 := by decide +kernel
  have hlook : (singleTable.entries.lookup ⟨tableConn, 62⟩).map DynamicTableEntry.field =
      some (keptField ([0x61], false) ([0x62], false)) := by
    decide +kernel
  unfold getTableEntry
  rw [hvalid, hindex, if_pos (show staticTableSize < 62 by decide), if_neg (not_not_intro hd), hlook]
  rfl

/-- The field that was added is captured by its index. -/
theorem resolved_single : ∃ rd, Attached huffmanCode [([0x61], 0)] rd ∧
    ∃ st, Reached rd ⟨[0x40, 0x01, 0x61, 0x01, 0x62, 0xbe], tableConn⟩ .zero st ∧
      st.table = singleTable ∧ refCapture rd tableConn st.table 62 = some 0 ∧
      Resolved rd ⟨[0x40, 0x01, 0x61, 0x01, 0x62, 0xbe], tableConn⟩ .zero st 5 62 .entry [0xbe]
        [0xbe] := by
  obtain ⟨rd, ha⟩ := attached_letter
  obtain ⟨m, hg, hm⟩ := getDynamicTable_fresh tableConn
  have hw : BlockWire readLen [shortRep 0x61 0x62] ([0x40, 0x01, 0x61, 0x01, 0x62] ++ []) :=
    .cons (shortRep_wire 0x61 0x62 rfl) .nil
  have hlegible := @legible_msg rd ⟨[0x40, 0x01, 0x61, 0x01, 0x62, 0xbe], tableConn⟩ []
    ([0x40, 0x01, 0x61, 0x01, 0x62] ++ []) [0xbe] .zero rfl (by decide)
  obtain ⟨hnone, htable, -⟩ := feed_block ha.readsReps hlegible hw (m.table .new)
  have hsingle : (blockMeaning rd tableConn [shortRep 0x61 0x62] (m.table .new) fun _ => none).1 =
      singleTable := by
    rw [hm]
    rfl
  rw [hsingle] at htable
  have hr := Reached.mk .init hg hw (Prod.ext hnone rfl)
  have hcap : refCapture rd tableConn singleTable 62 = some 0 := by
    unfold refCapture
    rw [singleTable_entry, Option.bind_some]
    exact (ha.matchHeaderKey_iff 0).mpr ⟨by decide, [0x61], List.mem_singleton.mpr rfl, rfl⟩
  have hu : UsesIndex 62 [0xbe] .entry [0xbe] := .indexed (.short 0xbe (by decide) (by decide))
  have hd : singleTable.info.dirty = 0 := by decide +kernel
  refine ⟨rd, ha, _, hr, htable, by rw [htable]; exact hcap,
    (resolved_iff ha hr (by rw [htable]; exact hd) hu 5).mpr ?_⟩
  rw [htable, Resolvable, if_neg (by decide +kernel)]
  intro _ _
  have hkey : entryKey singleTable.info 62 = 62 := by decide +kernel
  rw [hkey]
  decide

end Beeper.Http2
