import Beeper.Calls
import Beeper.Captures

namespace Beeper.Http2

/-- The same tables, whatever block was put together last. -/
structure SameTables (maps maps' : Maps) : Prop where
  entries : maps'.dynamicTable = maps.dynamicTable
  infos : maps'.dynamicTableInfo = maps.dynamicTableInfo
  errors : maps'.errors = maps.errors

theorem SameTables.refl (maps : Maps) : SameTables maps maps := ⟨rfl, rfl, rfl⟩

theorem SameTables.trans {maps maps' maps'' : Maps} (h : SameTables maps maps')
    (h' : SameTables maps' maps'') : SameTables maps maps'' :=
  ⟨h'.entries.trans h.entries, h'.infos.trans h.infos, h'.errors.trans h.errors⟩

/-- Two parses that no caller can tell apart: the same return value, frame and tables, and every
match id resolves to the same. -/
structure Alike (rd : Rodata) (p p' : ParsedMsg) : Prop where
  ret : p'.ret = p.ret
  frame : p'.frame = p.frame
  tables : SameTables p.maps p'.maps
  captures : ∀ idx, getMatchMsg rd p'.maps p'.msg p'.pres idx =
    getMatchMsg rd p.maps p.msg p.pres idx

variable {rd : Rodata} {maps maps' : Maps} {conn : Ip4Conn}

theorem getDynamicTable_blockBuf (maps : Maps) (conn : Ip4Conn) :
    (getDynamicTable maps conn).2.blockBuf = maps.blockBuf := by
  unfold getDynamicTable
  split <;> rfl

theorem SameTables.getDynamicTable (h : SameTables maps maps') (conn : Ip4Conn) :
    (getDynamicTable maps' conn).1 = (getDynamicTable maps conn).1 ∧
      SameTables (getDynamicTable maps conn).2 (getDynamicTable maps' conn).2 := by
  unfold Http2.getDynamicTable
  rw [h.infos]
  split
  · exact ⟨rfl, h⟩
  · exact ⟨rfl, h.entries, rfl, h.errors⟩

theorem SameTables.table (h : SameTables maps maps') (info : DynamicTableInfo) :
    maps'.table info = maps.table info := by
  simp only [Maps.table, h.entries, h.errors]

theorem SameTables.setTable (h : SameTables maps maps') (conn : Ip4Conn) (t : DynamicTable) :
    SameTables (maps.setTable conn t) (maps'.setTable conn t) :=
  ⟨rfl, by simp only [Maps.setTable, h.infos], rfl⟩

theorem SameTables.skipFrame (h : SameTables maps maps') (conn : Ip4Conn) (f : Http2Frame) :
    skipFrame maps' conn f = skipFrame maps conn f := by
  simp only [Http2.skipFrame, h.infos]

/-- The walk of a block the buffer holds. -/
theorem parseHdrBuf_has {ctx : MsgCtx} {buf : BlockBuf} {block : Bytes} {st : HdrState}
    (h : buf.Has block) : parseHdrBuf rd ctx buf block.length st =
      walked block.length (feed rd ctx buf block.zipIdx st) := by
  rw [parseHdrBuf_eq, Nat.min_eq_left h.short, h.slice_all]

section Block

variable {ctx ctx' : MsgCtx} {off : Nat} {f : Http2Frame}

/-- Reading a block that was put together from the same frames. -/
theorem parseBlock_alike (rd : Rodata) (f : Http2Frame) (hm : SameTables maps maps') (hc : ctx'.conn = ctx.conn)
    (hret : (collectBlock ctx'.data off maps'.blockBuf).ret =
      (collectBlock ctx.data off maps.blockBuf).ret)
    (hblk : (collectBlock ctx'.data off maps'.blockBuf).blk =
      (collectBlock ctx.data off maps.blockBuf).blk)
    (hok : ∀ total, (collectBlock ctx.data off maps.blockBuf).ret = .ok total →
      (collectBlock ctx'.data off maps'.blockBuf).buf.len =
        (collectBlock ctx.data off maps.blockBuf).buf.len ∧
      SameUpTo (collectBlock ctx.data off maps.blockBuf).buf.len
        (collectBlock ctx.data off maps.blockBuf).buf
        (collectBlock ctx'.data off maps'.blockBuf).buf) :
    let p := parseBlock rd maps ctx off .zero f none
    let p' := parseBlock rd maps' ctx' off .zero f none
    p'.ret = p.ret ∧ p'.frame = p.frame ∧ SameTables p.maps p'.maps ∧
      ∀ msg msg' idx, newMsgCtx msg = ctx → newMsgCtx msg' = ctx' →
        getMatchMsg rd p'.maps msg' p'.pres idx = getMatchMsg rd p.maps msg p.pres idx := by
  have hbuf : ∀ total, (collectBlock ctx.data off maps.blockBuf).ret = .ok total →
      (collectBlock ctx.data off maps.blockBuf).buf.len =
        (collectBlock ctx.data off maps.blockBuf).blk.len ∧
      (collectBlock ctx.data off maps.blockBuf).blk.len ≤ blockMaxlen :=
    fun total h => collectLoop_ok h
  simp only
  unfold parseBlock
  generalize collectBlock ctx.data off maps.blockBuf = r at *
  generalize collectBlock ctx'.data off maps'.blockBuf = r' at *
  obtain ⟨ret, blk, b⟩ := r
  obtain ⟨ret', blk', b'⟩ := r'
  simp only at hret hblk hok hbuf
  subst hret hblk
  cases ret' with
  | error e =>
    refine ⟨rfl, rfl, ⟨hm.entries, hm.infos, hm.errors⟩, fun msg msg' idx _ _ => ?_⟩
    rw [getMatchMsg_zero, getMatchMsg_zero]
  | ok total =>
    obtain ⟨hl, hsame⟩ := hok total rfl
    obtain ⟨hlen, hmax⟩ := hbuf total rfl
    have hm' : SameTables { maps with blockBuf := b } { maps' with blockBuf := b' } :=
      ⟨hm.entries, hm.infos, hm.errors⟩
    obtain ⟨hinfo, htab⟩ := hm'.getDynamicTable ctx.conn
    have hb := getDynamicTable_blockBuf { maps with blockBuf := b } ctx.conn
    have hb' := getDynamicTable_blockBuf { maps' with blockBuf := b' } ctx.conn
    simp only [hc]
    generalize getDynamicTable { maps with blockBuf := b } ctx.conn = g at *
    generalize getDynamicTable { maps' with blockBuf := b' } ctx.conn = g' at *
    obtain ⟨info, m⟩ := g
    obtain ⟨info', m'⟩ := g'
    simp only at hinfo htab hb hb'
    subst hinfo
    cases info' with
    | none =>
      refine ⟨rfl, rfl, htab, fun msg msg' idx _ _ => ?_⟩
      rw [getMatchMsg_zero, getMatchMsg_zero]
    | some info =>
      obtain ⟨block, hhas⟩ : ∃ block, b.Has block := ⟨_, BlockBuf.has_slice (hlen ▸ hmax)⟩
      have hhas' : b'.Has block := hsame.has hl hhas
      have hx : Exact rd ⟨ctx, b, .buf, 0⟩ block := exact_buf hhas
      have hx' : Exact rd ⟨ctx', b', .buf, 0⟩ block := exact_buf hhas'
      have ha := hx.agree hx' hc.symm
      obtain ⟨herr, hsim⟩ := feed_sim ha block (j := 0) (by omega) (stateSim_new (m.table info))
      have hn : blk'.len = block.length := hlen.symm.trans hhas.len
      simp only [htab.table, hb, hb', hn, parseHdrBuf_has hhas, parseHdrBuf_has hhas', walked]
      rw [herr, hsim.table]
      refine ⟨rfl, rfl, htab.setTable _ _, fun msg msg' idx h h' => ?_⟩
      exact getMatchMsg_sim (m.setTable _ _) (m'.setTable _ _) ha hsim.pres ⟨h, hb⟩
        ⟨h', hb'⟩ rfl idx

end Block

end Beeper.Http2
