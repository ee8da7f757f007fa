import Beeper.MessageCases
import Beeper.Settings

namespace Beeper.Http2

/-- What a call can do to the maps: nothing but to `block_buf`, walk a header block over the table
of `conn` where it starts with one, or take over the maximum size a SETTINGS frame announced. -/
inductive MapsStep (conn : Ip4Conn) (header : Prop) (announced : Option Nat) (maps : Maps) :
    Maps → Prop
  | same (buf : BlockBuf) : MapsStep conn header announced maps { maps with blockBuf := buf }
  | walk {buf : BlockBuf} {info : DynamicTableInfo} {maps' : Maps} {n : Nat} {t : DynamicTable}
      (hh : header) (hg : getDynamicTable { maps with blockBuf := buf } conn = (some info, maps'))
      (hn : n ≤ maxBytes) (hw : TableWalk conn n (maps'.table info) t) :
      MapsStep conn header announced maps (maps'.setTable conn t)
  | settings {info : DynamicTableInfo} {maps' : Maps}
      (hg : getDynamicTable maps conn = (some info, maps')) :
      MapsStep conn header announced maps
        (maps'.setTable conn ((maps'.table info).setMaxSize (announced.getD info.maxSize)))

/-- Looking a table up a second time finds what the first time left. -/
theorem getDynamicTable_again {maps maps' : Maps} {conn : Ip4Conn} {info : DynamicTableInfo}
    (h : getDynamicTable maps conn = (some info, maps')) :
    getDynamicTable maps' conn = (some info, maps') := by
  have hl : maps'.dynamicTableInfo.lookup conn = some info := by
    unfold getDynamicTable at h
    split at h
    next hi =>
      obtain ⟨h1, rfl⟩ := Prod.mk.inj h
      rw [← h1]
      exact hi
    next =>
      obtain ⟨h1, rfl⟩ := Prod.mk.inj h
      exact h1
  unfold getDynamicTable
  rw [hl]

theorem getDynamicTable_none {maps maps' : Maps} {conn : Ip4Conn}
    (h : getDynamicTable maps conn = (none, maps')) :
    maps' = maps ∧ maps.dynamicTableInfo.lookup conn = none := by
  unfold getDynamicTable at h
  split at h
  next => simp at h
  next hn =>
    obtain ⟨h1, rfl⟩ := Prod.mk.inj h
    cases hu : maps.dynamicTableInfo.update conn .new with
    | none => exact ⟨by simp, hn⟩
    | some infos => simp [hu, BoundedMap.lookup_update hu] at h1

theorem getDynamicTable_idem (maps : Maps) (conn : Ip4Conn) :
    getDynamicTable (getDynamicTable maps conn).2 conn = getDynamicTable maps conn := by
  cases hg : getDynamicTable maps conn with
  | mk info maps' =>
    cases info with
    | none => rw [(getDynamicTable_none hg).1, hg, (getDynamicTable_none hg).1]
    | some info => exact getDynamicTable_again hg

variable {rd : Rodata} {ctx : MsgCtx} {maps : Maps} {off len type flags : Nat}
  {pres : HttpParseRes} {frame : Http2Frame} {p : Option Nat}

theorem http2Block_ok {data : Bytes} {start stop : Nat}
    (h : http2Block data len type flags = .ok (start, stop)) :
    start = blockStart (decide (type = http2HeadersFrame)) flags ∧
      stop = (http2FrameHdrLen + len -
        padLen data 0 (decide (type = http2HeadersFrame)) flags) % 2 ^ 16 ∧
      blockStart (decide (type = http2HeadersFrame)) flags +
        padLen data 0 (decide (type = http2HeadersFrame)) flags ≤ http2FrameHdrLen + len := by
  unfold http2Block at h
  simp only at h
  split at h
  · simp at h
  split at h
  · simp at h
  next hle =>
  obtain ⟨rfl, rfl⟩ := Prod.mk.inj (Except.ok.inj h)
  exact ⟨rfl, rfl, Nat.not_lt.mp hle⟩

/-- The table a frame is read into has been looked up before. -/
theorem parseHdrFrame_again (start stop : Nat) :
    parseHdrFrame rd (getDynamicTable maps ctx.conn).2 ctx start stop pres p =
      parseHdrFrame rd maps ctx start stop pres p := by
  unfold parseHdrFrame
  rw [getDynamicTable_idem]

theorem parseStgFrom_again (start stop : Nat) (h9 : 9 ≤ ctx.data.length) :
    parseStgFrom (getDynamicTable maps ctx.conn).2 ctx start stop p =
      parseStgFrom maps ctx start stop p := by
  unfold parseStgFrom
  rw [getDynamicTable_idem, if_neg (Nat.not_lt.mpr h9), if_neg (Nat.not_lt.mpr h9)]

theorem parseHdrFrame_step {header : Prop} (hh : header) (start stop : Nat) (ann : Option Nat) :
    MapsStep ctx.conn header ann maps (parseHdrFrame rd maps ctx start stop pres p).2.1 := by
  unfold parseHdrFrame
  split
  next hg =>
    rw [(getDynamicTable_none hg).1]
    exact .same maps.blockBuf
  next info maps' hg =>
    have hw := parseHdrFrom_eq rd ctx maps'.blockBuf start stop
      ⟨maps'.table info, pres, newHttp2ParseState .msg⟩ p
    simp only at hw
    have hg' : getDynamicTable { maps with blockBuf := maps.blockBuf } ctx.conn =
        (some info, maps') := hg
    refine .walk hh hg' ?_ (hw.2 ▸ feed_walk _ _ _ _ _)
    refine Nat.le_trans (dropNullPrefix_length_le _ _) ?_
    simp only [located, slice, List.length_zipIdx, List.length_take, List.length_drop, walkStop]
    omega

theorem parseStgFrom_step {start stop : Nat} {header : Prop} {ann : Option Nat}
    (h9 : 9 ≤ ctx.data.length) (hle : stop ≤ ctx.data.length) (hm : stop ≤ maxBytes)
    (hann : ann = lastTableSize ((dropNullPrefix p (located ctx.data start stop)).map Prod.fst)) :
    MapsStep ctx.conn header ann maps (parseStgFrom maps ctx start stop p).2.1 := by
  unfold parseStgFrom
  rw [if_neg (by omega)]
  split
  next hg =>
    rw [(getDynamicTable_none hg).1]
    exact .same maps.blockBuf
  next info maps' hg =>
    have hmin : min (min ctx.data.length maxBytes) stop = stop := by omega
    by_cases hs : start ≤ stop
    · have hl := parseStgLoop_eq start ⟨0, 0, 0, info.maxSize⟩ p
        (show start + (stop - start) ≤ ctx.data.length by omega)
      simp only [hmin, hl.2, stgByte_fold]
      subst ann
      exact .settings hg
    · have hz : stop - start = 0 := by omega
      have hnone : ann = none := by simp [hann, located, slice, hz, dropNullPrefix, lastTableSize]
      have hset : MapsStep ctx.conn header ann maps _ := .settings hg
      simp only [hnone, Option.getD_none] at hset ⊢
      simpa only [hmin, hz, parseStgLoop] using hset

theorem parseFrame_step (ctx : MsgCtx) (hl : off + (http2FrameHdrLen + len) ≤ ctx.data.length)
    (hlen : len = hdrLen ctx.data off) (ht : type = hdrType ctx.data off)
    (hs : type = http2SettingsFrame → hdrFlags ctx.data off = 0)
    (hh : type ≠ http2SettingsFrame → type = http2HeadersFrame) :
    MapsStep ctx.conn (type = http2HeadersFrame) (announcedTableSize ctx.data off p) maps
      (parseFrame rd maps ctx off len type flags pres frame p).maps := by
  unfold parseFrame
  split
  · exact .same maps.blockBuf
  split
  · exact .same maps.blockBuf
  next start stop hb =>
  split
  · exact .same maps.blockBuf
  next hm =>
  obtain ⟨rfl, rfl, -⟩ := http2Block_ok hb
  have hstop := Nat.mod_le (http2FrameHdrLen + len -
    padLen (ctx.data.drop off) 0 (decide (type = http2HeadersFrame)) flags) (2 ^ 16)
  simp only
  split
  next hst =>
    have hstart : blockStart (decide (type = http2HeadersFrame)) flags = http2FrameHdrLen := by
      simp [blockStart, isPadded, hst, http2HeadersFrame, http2SettingsFrame]
    have hpad : padLen (ctx.data.drop off) 0 (decide (type = http2HeadersFrame)) flags = 0 := by
      simp [padLen, isPadded, hst, http2HeadersFrame, http2SettingsFrame]
    rw [hpad, Nat.sub_zero, Nat.not_lt] at hm
    have hann : announcedTableSize ctx.data off p =
        lastTableSize (settingsPayload ctx.data off p) := by
      unfold announcedTableSize
      exact if_pos ⟨ht ▸ hst, hs hst, hlen ▸ hl, hlen ▸ hm⟩
    have h9 : 9 ≤ ctx.data.length := by
      simp only [http2FrameHdrLen] at hl
      omega
    rw [parseStgFrom_again _ _ h9, hstart, hpad, Nat.sub_zero]
    exact parseStgFrom_step h9 (by omega) (by omega) (by rw [hann, settingsPayload, hlen])
  next hst =>
    rw [parseHdrFrame_again]
    exact parseHdrFrame_step (hh hst) _ _ _

theorem parseBlock_step {header : Prop} (hh : header) (ctx : MsgCtx) (ann : Option Nat) :
    MapsStep ctx.conn header ann maps (parseBlock rd maps ctx off pres frame p).maps := by
  unfold parseBlock
  simp only
  split
  · exact .same _
  split
  next hg =>
    rw [(getDynamicTable_none hg).1]
    exact .same _
  next info maps' hg =>
    rw [parseHdrBuf_eq]
    have hw := feed_walk rd ctx maps'.blockBuf
      ((maps'.blockBuf.slice 0 (min (collectBlock ctx.data off maps.blockBuf).blk.len
        blockMaxlen)).zipIdx) ⟨maps'.table info, pres, newHttp2ParseState .buf⟩
    refine .walk hh hg ?_ hw
    simp only [BlockBuf.slice, List.length_zipIdx, List.length_map, List.length_range]
    exact Nat.le_trans (Nat.min_le_right _ _) (by decide)

theorem announcedTableSize_take {data : Bytes} {n o : Nat}
    (h : o + (http2FrameHdrLen + hdrLen data o) ≤ n)
    (hn : n ≤ data.length) : announcedTableSize (data.take n) o p = announcedTableSize data o p := by
  have h9 : o + http2FrameHdrLen ≤ n := by omega
  have hm := Nat.mod_le (http2FrameHdrLen + hdrLen data o) (2 ^ 16)
  have hl : o + (http2FrameHdrLen + hdrLen data o) ≤ (data.take n).length ↔
      o + (http2FrameHdrLen + hdrLen data o) ≤ data.length := by
    rw [List.length_take]
    omega
  unfold announcedTableSize settingsPayload located
  simp only [hdrType_take h9, hdrFlags_take h9, hdrLen_take h9, hl]
  rw [slice_take (by omega)]

/-- The only frames that are read as something else than a header block are SETTINGS frames
without flags. -/
theorem settings_of_parsed (hp : isParsedFrame type flags) (ht : type = http2SettingsFrame) :
    flags = 0 := by
  subst type
  simpa [isParsedFrame, http2SettingsFrame, http2HeadersFrame, http2ContinuationFrame] using hp

theorem headers_of_parsed {sid : Nat} (hv : ¬violatesBlockRules type sid)
    (hp : isParsedFrame type flags) (ht : type ≠ http2SettingsFrame) : type = http2HeadersFrame := by
  unfold violatesBlockRules at hv
  unfold isParsedFrame at hp
  simp only [decide_eq_true_eq, not_or] at hv hp
  exact hp.resolve_right fun h => h.elim hv.1 fun h => ht h.1

theorem parseMsgFrame_step {f : Http2Frame} {msg : SkMsg} (h9 : http2FrameHdrLen ≤ msg.linear)
    (hlen : f.len = hdrLen msg.bytes 0) (ht : f.type = hdrType msg.bytes 0)
    (hf : f.flags = hdrFlags msg.bytes 0) :
    MapsStep msg.conn (f.type = http2HeadersFrame) (msgTableSize msg) maps
      (parseMsgFrame rd maps msg pres f).maps := by
  by_cases hv : violatesBlockRules f.type f.sid
  · rw [parseMsgFrame_reject hv]
    exact .same maps.blockBuf
  by_cases hp : isParsedFrame f.type f.flags
  case neg =>
    rw [parseMsgFrame_skip hv hp]
    exact .same maps.blockBuf
  by_cases hs : msg.bytes.length < http2FrameHdrLen + f.len
  · rw [parseMsgFrame_short hv hp hs]
    exact .same maps.blockBuf
  have hsize := Nat.not_lt.mp hs
  by_cases hb : f.type = http2HeadersFrame ∧ f.flags &&& http2EndHeadersFlag = 0
  · rw [parseMsgFrame_block hv hsize hb]
    split
    · exact .same maps.blockBuf
    next msg' hm =>
      rw [← (msgPullData_some hm).1]
      exact parseBlock_step hb.1 (newMsgCtx msg') _
  · rw [parseMsgFrame_frame hv hp hsize hb]
    split
    · exact .same maps.blockBuf
    next msg' hm =>
      obtain ⟨hc, hb, hl, hpull⟩ := msgPullData_some hm
      have hann : msgTableSize msg = announcedTableSize msg'.bytes 0 none := by
        rw [hb]
        exact if_pos ⟨h9, hpull⟩
      rw [← hb] at hlen ht hf
      have hn : 0 + (http2FrameHdrLen + hdrLen msg'.bytes 0) ≤ msg'.linear := by omega
      rw [hann, ← hc, ← announcedTableSize_take hn msg'.linear_le]
      apply parseFrame_step (newMsgCtx msg')
      · simp only [newMsgCtx, SkMsg.data, List.length_take, Nat.min_eq_left msg'.linear_le, hlen]
        exact hn
      · rw [hlen]
        exact (hdrLen_take (by omega)).symm
      · rw [ht]
        exact (hdrType_take (by omega)).symm
      · intro hs
        simp only [newMsgCtx, SkMsg.data]
        rw [hdrFlags_take (by omega), ← hf]
        exact settings_of_parsed hp hs
      · exact headers_of_parsed hv hp

theorem parseMsg_step (rd : Rodata) (maps : Maps) (msg : SkMsg) (pres : HttpParseRes) (frame : Http2Frame) :
    MapsStep msg.conn (hdrType msg.bytes 0 = http2HeadersFrame) (msgTableSize msg) maps
      (parseMsg rd maps msg pres frame).maps := by
  by_cases h9 : msg.data.length < http2FrameHdrLen
  · unfold parseMsg
    rw [if_pos h9]
    exact .same maps.blockBuf
  have hlin : http2FrameHdrLen ≤ msg.linear := by
    rw [SkMsg.data, List.length_take_of_le msg.linear_le] at h9
    omega
  rw [parseMsg_eq hlin]
  exact @parseMsgFrame_step rd maps pres (newHttp2Frame msg.bytes 0) msg hlin rfl rfl rfl

theorem skbPullData_some {skb skb' : SkBuff} (h : skb.pullData len = some skb') :
    skb'.conn = skb.conn ∧ skb'.bytes = skb.bytes ∧ len ≤ skb'.linear ∧ skb.pullable ∧
      skb'.pullable := by
  unfold SkBuff.pullData at h
  split at h
  next hp =>
    rw [← Option.some.inj h]
    exact ⟨rfl, rfl, Nat.le_max_right _ _, hp.1, hp.1⟩
  · simp at h

theorem parseSkbFrame_step {f : Http2Frame} {skb : SkBuff}
    (hlen : f.len = hdrLen skb.bytes off) (ht : f.type = hdrType skb.bytes off)
    (hf : f.flags = hdrFlags skb.bytes off) :
    MapsStep skb.conn (f.type = http2HeadersFrame) (skbTableSize skb off p) maps
      (parseSkbFrame rd maps skb off pres f p).maps := by
  unfold parseSkbFrame
  by_cases hv : violatesBlockRules f.type f.sid
  · rw [if_pos hv]
    exact .same maps.blockBuf
  by_cases hp : isParsedFrame f.type f.flags
  case neg =>
    rw [if_neg hv, if_pos hp]
    exact .same maps.blockBuf
  rw [if_neg hv, if_neg (not_not_intro hp)]
  by_cases hs : skb.bytes.length - off < http2FrameHdrLen + f.len
  · rw [if_pos hs]
    exact .same maps.blockBuf
  rw [if_neg hs]
  by_cases hb : f.type = http2HeadersFrame ∧ f.flags &&& http2EndHeadersFlag = 0
  · rw [if_pos hb]
    split
    · exact .same maps.blockBuf
    next skb' hm =>
      rw [← (skbPullData_some hm).1]
      exact parseBlock_step hb.1 (newSkbCtx skb') _
  · rw [if_neg hb]
    split
    · exact .same maps.blockBuf
    next skb' hm =>
      obtain ⟨hc, hb, hl, hpull, -⟩ := skbPullData_some hm
      have hann : skbTableSize skb off p = announcedTableSize skb'.bytes off p := by
        rw [hb]
        exact if_pos hpull
      rw [← hb] at hlen ht hf
      rw [hlen] at hl
      have hle := skb'.linear_le
      rw [hann, ← hc, ← announcedTableSize_take hl hle]
      apply parseFrame_step (newSkbCtx skb')
      · simp only [newSkbCtx, SkBuff.data, List.length_take, Nat.min_eq_left hle, hlen]
        exact hl
      · rw [hlen]
        exact (hdrLen_take (by omega)).symm
      · rw [ht]
        exact (hdrType_take (by omega)).symm
      · intro hs
        simp only [newSkbCtx, SkBuff.data]
        rw [hdrFlags_take (by omega), ← hf]
        exact settings_of_parsed hp hs
      · exact headers_of_parsed hv hp

theorem parseSkb_step (rd : Rodata) (maps : Maps) (skb : SkBuff) (off : Nat) (pres : HttpParseRes)
    (frame : Http2Frame) (p : Option Nat) :
    MapsStep skb.conn (hdrType skb.bytes off = http2HeadersFrame) (skbTableSize skb off p) maps
      (parseSkb rd maps skb off pres frame p).maps := by
  unfold parseSkb
  split
  · exact .same maps.blockBuf
  split
  · exact .same maps.blockBuf
  next hlen =>
  split
  · exact .same maps.blockBuf
  next skb' hskb =>
  have hpull : skb'.conn = skb.conn ∧ skb'.bytes = skb.bytes ∧
      off + http2FrameHdrLen ≤ skb'.linear ∧ skb'.pullable = skb.pullable := by
    split at hskb
    next =>
      obtain ⟨hc, hb, hl, hp, hp'⟩ := skbPullData_some hskb
      exact ⟨hc, hb, hl, hp'.trans hp.symm⟩
    next hl =>
      rw [← Option.some.inj hskb]
      exact ⟨rfl, rfl, Nat.not_lt.mp hl, rfl⟩
  obtain ⟨hconn, hbytes, hlin, hpull⟩ := hpull
  have hann : skbTableSize skb off p = skbTableSize skb' off p := by
    unfold skbTableSize
    rw [hpull, hbytes]
  rw [← hconn, hann, ← hbytes, SkBuff.data, newHttp2Frame_take hlin]
  exact @parseSkbFrame_step rd maps off pres p (newHttp2Frame skb'.bytes off) skb' rfl rfl rfl

end Beeper.Http2
