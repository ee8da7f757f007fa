import Beeper.MessageExtension

namespace Beeper.Http2

/-- What a parse comes to whose frames carry the header block `block`, `total` bytes long, seen
through the view `v`. -/
structure BlockRead (rd : Rodata) (maps : Maps) (block : Bytes) (total : Nat) (v : View)
    (p : Parsed) : Prop where
  buf : p.maps.blockBuf = v.buf
  full : ∀ m, getDynamicTable maps v.ctx.conn = (none, m) →
    p.ret = .error .ENOSPC ∧ SameTables m p.maps ∧ p.pres = .zero
  walk : ∀ info m, getDynamicTable maps v.ctx.conn = (some info, m) →
    let r := feed rd v.ctx v.buf (block.zipIdx v.base)
      ⟨m.table info, .zero, newHttp2ParseState v.src⟩
    p.ret = (match r.1 with
      | some e => .error e
      | none => .ok total) ∧ SameTables (m.setTable v.ctx.conn r.2.table) p.maps ∧
      p.pres = r.2.pres

variable {rd : Rodata} {maps : Maps} {block : Bytes} {total total' : Nat} {v w : View}

theorem SameTables.symm {maps maps' : Maps} (h : SameTables maps maps') : SameTables maps' maps :=
  ⟨h.entries.symm, h.infos.symm, h.errors.symm⟩

/-- Two parses of one block leave the same tables and captures, and fail alike. -/
theorem BlockRead.alike {p p' : ParsedMsg} (h : BlockRead rd maps block total v p.toParsed)
    (h' : BlockRead rd maps block total' w p'.toParsed) (ha : Agree rd block.length v w)
    (hv : newMsgCtx p.msg = v.ctx) (hw : newMsgCtx p'.msg = w.ctx) :
    (p.ret = .ok total ∧ p'.ret = .ok total' ∨ ∃ e, p.ret = .error e ∧ p'.ret = .error e) ∧
      SameTables p.maps p'.maps ∧
      ∀ idx, getMatchMsg rd p'.maps p'.msg p'.pres idx =
        getMatchMsg rd p.maps p.msg p.pres idx := by
  obtain ⟨hbuf, hfull, hwalk⟩ := h
  obtain ⟨hbuf', hfull', hwalk'⟩ := h'
  rw [← ha.conn] at hfull' hwalk'
  cases hg : getDynamicTable maps v.ctx.conn with
  | mk info m =>
    cases info with
    | none =>
      obtain ⟨hret, hmaps, hpres⟩ := hfull m hg
      obtain ⟨hret', hmaps', hpres'⟩ := hfull' m hg
      refine ⟨.inr ⟨_, hret, hret'⟩, hmaps.symm.trans hmaps', fun idx => ?_⟩
      rw [hpres, hpres', getMatchMsg_zero, getMatchMsg_zero]
    | some info =>
      obtain ⟨hret, hmaps, hpres⟩ := hwalk info m hg
      obtain ⟨hret', hmaps', hpres'⟩ := hwalk' info m hg
      obtain ⟨herr, hsim⟩ := feed_sim ha block (by rw [Nat.zero_add])
        (stateSim_new (m.table info))
      rw [Nat.add_zero, Nat.add_zero] at herr hsim
      rw [hsim.table] at hmaps'
      refine ⟨?_, hmaps.symm.trans hmaps', ?_⟩
      · rw [hret, hret', herr]
        cases (feed rd v.ctx v.buf (block.zipIdx v.base) _).1 with
        | none => exact .inl ⟨rfl, rfl⟩
        | some e => exact .inr ⟨e, rfl, rfl⟩
      · refine getMatchMsg_sim p.maps p'.maps ha ?_ ⟨hv, hbuf⟩ ⟨hw, hbuf'⟩
          (hmaps.symm.trans hmaps').entries
        rw [hpres, hpres']
        exact hsim.pres

section Reads

variable {ctx : MsgCtx} {off len flags start stop : Nat} {f : Http2Frame}

theorem BlockRead.map {p : Parsed} (h : BlockRead rd maps block total v p) (k : Nat) :
    BlockRead rd maps block k v { p with ret := p.ret.map fun _ => k } where
  buf := h.buf
  full m hg := by
    obtain ⟨hret, hrest⟩ := h.full m hg
    exact ⟨by simp only [hret, Except.map], hrest⟩
  walk info m hg := by
    obtain ⟨hret, hrest⟩ := h.walk info m hg
    refine ⟨?_, hrest⟩
    simp only [hret]
    split <;> rfl

/-- A block that was put together is read out of the buffer. -/
theorem parseBlock_read (rd : Rodata) (ctx : MsgCtx) (f : Http2Frame) (q : Option Nat)
    {b : BlockBuf} {blk : CollectedBlock} (hc : collectBlock ctx.data off maps.blockBuf = ⟨.ok total, blk, b⟩)
    (hblk : blk.len = block.length) (hb : b.Has block) :
    BlockRead rd maps block total ⟨ctx, b, .buf, 0⟩
      (parseBlock rd maps ctx off .zero f q) := by
  have hm : SameTables maps { maps with blockBuf := b } := ⟨rfl, rfl, rfl⟩
  obtain ⟨hinfo, htab⟩ := hm.getDynamicTable ctx.conn
  have hbuf := getDynamicTable_blockBuf { maps with blockBuf := b } ctx.conn
  unfold parseBlock
  simp only [hc]
  generalize getDynamicTable { maps with blockBuf := b } ctx.conn = g at hinfo htab hbuf ⊢
  obtain ⟨info', m'⟩ := g
  simp only at hinfo htab hbuf
  cases info' with
  | none =>
    refine ⟨hbuf, fun m hg => ?_, fun info m hg => ?_⟩
    · rw [hg] at htab
      exact ⟨rfl, htab, rfl⟩
    · simp only at hg
      rw [hg] at hinfo
      simp at hinfo
  | some info' =>
    refine ⟨hbuf, fun m hg => ?_, fun info m hg => ?_⟩
    · simp only at hg
      rw [hg] at hinfo
      simp at hinfo
    · simp only at hg
      rw [hg] at hinfo htab
      cases hinfo
      simp only [hbuf, hblk, parseHdrBuf_has hb, walked, htab.table]
      refine ⟨?_, htab.setTable _ _, trivial⟩
      cases (feed rd ctx b block.zipIdx ⟨m.table info', .zero, newHttp2ParseState .buf⟩).1 with
      | none => exact if_neg (Nat.lt_irrefl _)
      | some e => rfl

/-- The last offset of an in-place walk that ran to the end of its block. -/
theorem walkStop_eq (hs : stop ≤ maxBytes) (hd : stop ≤ ctx.data.length) :
    walkStop ctx stop = stop := by
  unfold walkStop
  omega

theorem parseFrame_read (rd : Rodata) (maps : Maps) (f : Http2Frame) (ho : off ≤ maxBytes)
    (hblock : http2Block (ctx.data.drop off) len http2HeadersFrame flags = .ok (start, stop))
    (hmax : off + stop ≤ maxBytes) (hdata : off + stop ≤ ctx.data.length) :
    BlockRead rd maps (slice ctx.data (start + off) (stop - start)) 0
      ⟨ctx, maps.blockBuf, .msg, start + off⟩
      (parseFrame rd maps ctx off len http2HeadersFrame flags .zero f none) := by
  have hbuf := getDynamicTable_blockBuf maps ctx.conn
  have hidem := getDynamicTable_idem maps ctx.conn
  have hstop : walkStop ctx (stop + off) = stop + off := walkStop_eq (by omega) (by omega)
  unfold parseFrame
  rw [if_neg (Nat.not_lt.mpr ho)]
  simp only [hblock, if_neg (Nat.not_lt.mpr hmax),
    if_neg (show ¬http2HeadersFrame = http2SettingsFrame by decide), parseHdrFrame, hidem]
  cases hg : getDynamicTable maps ctx.conn with
  | mk info m =>
    rw [hg] at hbuf
    cases info with
    | none =>
      refine ⟨hbuf, fun m' hg' => ?_, fun info' m' hg' => ?_⟩
      · cases hg.symm.trans hg'
        exact ⟨rfl, .refl m, rfl⟩
      · cases hg.symm.trans hg'
    | some info =>
      obtain ⟨h1, h2⟩ := parseHdrFrom_eq rd ctx m.blockBuf (start + off) (stop + off)
        ⟨m.table info, .zero, newHttp2ParseState .msg⟩ none
      simp only at hbuf
      simp only [dropNullPrefix_none, located, hstop, Nat.add_sub_add_right, hbuf] at h1 h2
      refine ⟨hbuf, fun m' hg' => ?_, fun info' m' hg' => ?_⟩
      · cases hg.symm.trans hg'
      · cases hg.symm.trans hg'
        simp only [h1, h2, walked, hbuf]
        refine ⟨?_, .refl _, trivial⟩
        cases (feed rd ctx maps.blockBuf ((slice ctx.data (start + off) (stop - start)).zipIdx
          (start + off)) ⟨m.table info, .zero, newHttp2ParseState .msg⟩).1 with
        | some e => rfl
        | none =>
          refine if_neg ?_
          split <;> omega

end Reads

end Beeper.Http2
