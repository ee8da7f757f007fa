import Beeper.StoreRuns

namespace Beeper.Http2

/-- A SETTINGS frame, if `ann` is the size it announces, leaves room for the entries the table of
`conn` holds. -/
def SettingsFit (maps : Maps) (conn : Ip4Conn) (ann : Option Nat) : Prop :=
  ∀ v, ann = some v → (maps.infoOf conn).size ≤ v

/-- The runs in which every SETTINGS frame that is read does. -/
inductive FittingRun (rd : Rodata) : Maps → Prop
  | init : FittingRun rd .init
  | msg {maps : Maps} (h : FittingRun rd maps) (msg : SkMsg) (pres : HttpParseRes)
      (frame : Http2Frame) (hf : SettingsFit maps msg.conn (msgTableSize msg)) :
      FittingRun rd (parseMsg rd maps msg pres frame).maps
  | skb {maps : Maps} (h : FittingRun rd maps) (skb : SkBuff) (off : Nat) (pres : HttpParseRes)
      (frame : Http2Frame) (p : Option Nat)
      (hf : SettingsFit maps skb.conn (skbTableSize skb off p)) :
      FittingRun rd (parseSkb rd maps skb off pres frame p).maps

/-- The tables of all connections are within their maximum sizes. -/
def SizesOk (maps : Maps) : Prop :=
  ∀ conn, (maps.infoOf conn).size ≤ (maps.infoOf conn).maxSize

variable {maps maps' : Maps} {conn : Ip4Conn} {header : Prop} {ann : Option Nat}

theorem infoOf_setTable {info : DynamicTableInfo}
    (hg : getDynamicTable maps conn = (some info, maps')) (t : DynamicTable) :
    info = maps.infoOf conn ∧ (maps'.setTable conn t).infoOf conn = t.info := by
  obtain ⟨-, -, -, hl, hi, -⟩ := getDynamicTable_some hg
  refine ⟨hi, ?_⟩
  rw [Maps.infoOf, setTable_lookup hl]
  rfl

theorem MapsStep.sizesOk (h : MapsStep conn header ann maps maps') (hs : StoreOk maps)
    (hf : SettingsFit maps conn ann) (hb : SizesOk maps) : SizesOk maps' := by
  intro c
  by_cases hc : c = conn
  case neg =>
    rw [((h.storeOk hs).2 c hc).infoOf]
    exact hb c
  subst c
  cases h with
  | same buf => exact hb conn
  | @walk buf info m n t _ hg hn hw =>
    have hs' : Stored { maps with blockBuf := buf } conn :=
      (sameConn_buf conn maps buf).stored (hs.stored conn)
    obtain ⟨items, hi⟩ := hs'.holds hg
    obtain ⟨hinfo, hset⟩ := infoOf_setTable hg t
    rw [hset]
    refine hw.size_le hi ?_
    simp only [Maps.table, hinfo]
    exact hb conn
  | @settings info m hg =>
    obtain ⟨hinfo, hset⟩ := infoOf_setTable hg ((m.table info).setMaxSize (ann.getD info.maxSize))
    rw [hset]
    simp only [DynamicTable.setMaxSize, Maps.table, hinfo]
    cases ann with
    | none => exact hb conn
    | some v => exact hf v rfl

theorem FittingRun.sound {rd : Rodata} (h : FittingRun rd maps) : StoreOk maps ∧ SizesOk maps := by
  induction h with
  | init => exact ⟨.init, fun conn => by simp [Maps.infoOf, Maps.init, DynamicTableInfo.new]⟩
  | @msg maps h msg pres frame hf ih =>
    have hstep := parseMsg_step rd maps msg pres frame
    exact ⟨(hstep.storeOk ih.1).1, hstep.sizesOk ih.1 hf ih.2⟩
  | @skb maps h skb off pres frame p hf ih =>
    have hstep := parseSkb_step rd maps skb off pres frame p
    exact ⟨(hstep.storeOk ih.1).1, hstep.sizesOk ih.1 hf ih.2⟩

/-- No table grows past its maximum size, as long as no SETTINGS frame takes that below the size
of the entries the table holds. -/
theorem fittingRun_size_le {rd : Rodata} (h : FittingRun rd maps) {info : DynamicTableInfo}
    (hi : maps.dynamicTableInfo.lookup conn = some info) : info.size ≤ info.maxSize := by
  have hb := h.sound.2 conn
  simpa [Maps.infoOf, hi] using hb

/-- A SETTINGS frame with a HEADER_TABLE_SIZE of `v`. -/
def tableSizeFrame (v : UInt8) : Bytes := [0, 0, 6, 4, 0, 0, 0, 0, 0, 0, 1, 0, 0, 0, v]

/-- Such a size is stored, and nothing else changes. -/
theorem parseMsg_tableSize (rd : Rodata) {v : UInt8} (hv : v = 0 ∨ v = 34) {info : DynamicTableInfo}
    {m : Maps} (hg : getDynamicTable maps tableConn = (some info, m)) :
    (parseMsg rd maps (linearMsg (tableSizeFrame v) tableConn true) .zero
      (newHttp2Frame [] 0)).maps = m.setTable tableConn ((m.table info).setMaxSize v.toNat) := by
  have hp : (parseMsg rd maps (linearMsg (tableSizeFrame v) tableConn true) .zero
      (newHttp2Frame [] 0)).maps = (parseStgFrom (getDynamicTable maps tableConn).2
        ⟨tableSizeFrame v, tableConn⟩ 9 15 none).2.1 := by
    rcases hv with rfl | rfl <;> rfl
  have hlen : 9 + 6 ≤ (tableSizeFrame v).length := Nat.le_refl 15
  have hl := (parseStgLoop_eq 9 ⟨0, 0, 0, info.maxSize⟩ none hlen).2
  have hs : (parseStgFrom m ⟨tableSizeFrame v, tableConn⟩ 9 15 none).2.1 =
      m.setTable tableConn ((m.table info).setMaxSize
        (parseStgLoop (tableSizeFrame v) 6 9 9 ⟨0, 0, 0, info.maxSize⟩ none).2.1.maxSize) := by
    unfold parseStgFrom
    rw [getDynamicTable_again hg]
    rfl
  have hz : lastTableSize ((dropNullPrefix none ((slice (tableSizeFrame v) 9 6).zipIdx 9)).map
      Prod.fst) = some v.toNat := by
    rcases hv with rfl | rfl <;> decide +kernel
  rw [hp, hg, hs, hl, stgByte_fold, hz, Option.getD_some]

theorem parseMsg_tableSize_info (rd : Rodata) {v : UInt8} (hv : v = 0 ∨ v = 34)
    {info : DynamicTableInfo} (h : maps.dynamicTableInfo.lookup tableConn = some info) :
    (parseMsg rd maps (linearMsg (tableSizeFrame v) tableConn true) .zero
      (newHttp2Frame [] 0)).maps.dynamicTableInfo.lookup tableConn =
        some { info with maxSize := v.toNat } := by
  have hg : getDynamicTable maps tableConn = (some info, maps) := by
    unfold getDynamicTable
    rw [h]
  rw [parseMsg_tableSize rd hv hg]
  exact setTable_lookup h _

theorem insertion_info (rd : Rodata) : (blockMeaning rd tableConn [shortRep 0x61 0x62]
    ⟨.new, .empty, []⟩ fun _ => none).1.info = ⟨1, 34, 4096, 0, 0⟩ := by
  unfold blockMeaning shortRep
  simp only [List.foldl_cons, List.foldl_nil, meaning, if_true, nameBytes]
  decide +kernel

/-- A message that adds the field `a: b`. -/
def insertion : SkMsg :=
  linearMsg (plainFrame [0x40, 0x01, 0x61, 0x01, 0x62]).bytes tableConn true

theorem parseMsg_insertion {rd : Rodata} (hrd : ReadsReps rd) :
    (parseMsg rd .init insertion .zero (newHttp2Frame [] 0)).maps.dynamicTableInfo.lookup
      tableConn = some ⟨1, 34, 4096, 0, 0⟩ := by
  obtain ⟨m, hg, hm⟩ := getDynamicTable_fresh tableConn
  obtain ⟨-, -, -, hl, -⟩ := getDynamicTable_some hg
  have hw : BlockWire readLen [shortRep 0x61 0x62] ([0x40, 0x01, 0x61, 0x01, 0x62] ++ []) :=
    .cons (shortRep_wire 0x61 0x62 rfl) .nil
  have htables := plainFrame_tables hrd hw (by decide) hg
  have hinfo := htables.infos ▸ setTable_lookup hl (blockMeaning rd tableConn
    [shortRep 0x61 0x62] (m.table .new) fun _ => none).1
  rw [hm, insertion_info] at hinfo
  exact hinfo

/-- A size is announced that just fits what was added. -/
theorem fittingRun_size_leTight : ∃ rd, Attached (fun s => some (Huffman.encode s)) [] rd ∧
    ∃ maps info, maps.dynamicTableInfo.lookup tableConn = some info ∧ info.count = 1 ∧
      info.size = 34 ∧ info.maxSize = 34 ∧ FittingRun rd maps ∧ info.size ≤ info.maxSize := by
  obtain ⟨rd, ha⟩ : ∃ rd, Attached (fun s => some (Huffman.encode s)) [] rd :=
    attached_exists fun s => ⟨_, rfl⟩
  have hi := parseMsg_insertion ha.readsReps
  have hz := parseMsg_tableSize_info rd (.inr rfl) hi
  have hquiet : SettingsFit .init insertion.conn (msgTableSize insertion) := by
    have hann : msgTableSize insertion = none := by decide +kernel
    intro v hv
    rw [hann] at hv
    cases hv
  have hfit : SettingsFit (parseMsg rd .init insertion .zero (newHttp2Frame [] 0)).maps tableConn
      (msgTableSize (linearMsg (tableSizeFrame 34) tableConn true)) := by
    have hann : msgTableSize (linearMsg (tableSizeFrame 34) tableConn true) = some 34 := by
      decide +kernel
    intro v hv
    rw [hann] at hv
    rw [← Option.some.inj hv, Maps.infoOf, hi]
    exact Nat.le_refl 34
  have hrun := FittingRun.msg (FittingRun.msg FittingRun.init insertion .zero (newHttp2Frame [] 0)
    hquiet) (linearMsg (tableSizeFrame 34) tableConn true) .zero (newHttp2Frame [] 0) hfit
  exact ⟨rd, ha, _, _, hz, rfl, rfl, rfl, hrun, fittingRun_size_le hrun hz⟩

/-- An announced size takes effect without an eviction: the table of 34 bytes stays as it is. -/
theorem table_outgrown : ∃ rd, Attached (fun s => some (Huffman.encode s)) [] rd ∧
    ∃ maps ins info, Run rd maps ins ∧ maps.dynamicTableInfo.lookup tableConn = some info ∧
      info.size = 34 ∧ info.maxSize = 0 := by
  obtain ⟨rd, ha⟩ : ∃ rd, Attached (fun s => some (Huffman.encode s)) [] rd :=
    attached_exists fun s => ⟨_, rfl⟩
  have hi := parseMsg_insertion ha.readsReps
  have hz := parseMsg_tableSize_info rd (.inl rfl) hi
  exact ⟨rd, ha, _, _, _, .msg (.msg .init _ _ _) _ _ _, hz, rfl, rfl⟩

end Beeper.Http2
