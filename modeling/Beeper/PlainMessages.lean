import Beeper.MirrorRuns

namespace Beeper.Http2

open HeaderDecoder (Instr)

variable {rd : Rodata} {maps m : Maps} {conn : Ip4Conn} {info : DynamicTableInfo} {msg : SkMsg}
  {post block : Bytes} {reps : List Rep}

/-- What a message comes to that starts with a frame whose block ends past what is read. -/
theorem Whole.tooBig (w : Whole) (frame : Http2Frame) (hm : msg.bytes = w.bytes ++ post)
    (h9 : http2FrameHdrLen ≤ msg.linear) (hpull : msg.pullable = true) (h0 : w.head.sid ≠ 0)
    (hs : (w.payload.bytes w.head.flags.toNat).length < 2 ^ 24) (hbig : maxBytes < w.stop)
    (hend : w.stop < 2 ^ 16) :
    (parseMsg rd maps msg .zero frame).ret = .error .E2BIG ∧
      (parseMsg rd maps msg .zero frame).maps = maps := by
  obtain ⟨msg', -, hparse⟩ := w.parsed rd maps frame hm h9 hpull h0 hs
  obtain ⟨front, back, hp⟩ := w.payload.carries w.head
  rw [stop_eq hp] at hbig hend
  have hframe : parseFrame rd maps ⟨w.bytes, msg.conn⟩ 0
      (w.payload.bytes w.head.flags.toNat).length http2HeadersFrame w.head.flags.toNat .zero
      (newHttp2Frame msg.bytes 0) none =
        ⟨.error .E2BIG, maps, .zero, newHttp2Frame msg.bytes 0, none⟩ := by
    unfold parseFrame
    rw [if_neg (Nat.not_lt_zero _), List.drop_zero, block_offsets hp hend]
    exact if_pos (by omega)
  rw [hparse, hframe]
  exact ⟨rfl, rfl⟩

/-- A block whose end is just past what 16 bits hold is accepted without being read. -/
theorem Whole.wrapped (w : Whole) (frame : Http2Frame) (hm : msg.bytes = w.bytes ++ post)
    (h9 : http2FrameHdrLen ≤ msg.linear) (hpull : msg.pullable = true) (h0 : w.head.sid ≠ 0)
    (hs : (w.payload.bytes w.head.flags.toNat).length < 2 ^ 24) (hend : w.stop = 2 ^ 16)
    (hg : getDynamicTable maps msg.conn = (some info, m)) :
    (parseMsg rd maps msg .zero frame).ret = .ok w.bytes.length ∧
      SameTables (m.setTable msg.conn (m.table info)) (parseMsg rd maps msg .zero frame).maps ∧
      (parseMsg rd maps msg .zero frame).pres = .zero := by
  obtain ⟨msg', -, hparse⟩ := w.parsed rd maps frame hm h9 hpull h0 hs
  obtain ⟨front, back, hp⟩ := w.payload.carries w.head
  have hblock := block_offsets_mod hp
  rw [← stop_eq hp, hend, Nat.mod_self] at hblock
  -- nothing stands between the start of the block and the end that is left of it
  have hread := @parseFrame_read ⟨w.bytes, msg.conn⟩ 0 _ _ _ 0 rd maps (newHttp2Frame msg.bytes 0)
    (Nat.zero_le _) hblock (Nat.zero_le _) (Nat.zero_le _)
  rw [Nat.zero_sub] at hread
  obtain ⟨hret, hmaps, hpres⟩ := hread.walk info m hg
  rw [hparse]
  exact ⟨congrArg (Except.map fun _ => w.bytes.length) hret, hmaps, hpres⟩

/-- What is made of a block that comes in a single frame. -/
def readBlock (rd : Rodata) (maps : Maps) (conn : Ip4Conn) (block : Bytes) : ParsedMsg :=
  parseMsg rd maps (linearMsg (sentAlone block).bytes conn true) .zero (newHttp2Frame [] 0)

theorem plainFrame_stop (block : Bytes) : (plainFrame block).stop = http2FrameHdrLen + block.length :=
  Whole.stop_eq (plainFrame_plain block).parts

theorem plainFrame_payload (block : Bytes) :
    ((plainFrame block).payload.bytes (plainFrame block).head.flags.toNat).length = block.length := by
  have hlen := Whole.payload_length (plainFrame_plain block).parts
  rwa [List.length_nil, Nat.zero_add, Nat.add_zero] at hlen

theorem sentAlone_linear (block : Bytes) (conn : Ip4Conn) :
    http2FrameHdrLen ≤ (linearMsg (sentAlone block).bytes conn true).linear := by
  have hlen : (sentAlone block).bytes.length = _ := (plainFrame block).bytes_length
  simp only [linearMsg, hlen]
  exact Nat.le_add_right _ _

theorem readBlock_hooked (rd : Rodata) (maps : Maps) (conn : Ip4Conn) (block : Bytes) :
    Hooked rd maps (sentAlone block) conn 0 (readBlock rd maps conn block).toParsed
      (getMatchMsg rd (readBlock rd maps conn block).maps (readBlock rd maps conn block).msg
        (readBlock rd maps conn block).pres) :=
  .msg (newHttp2Frame [] 0) (List.append_nil _).symm (sentAlone_linear block conn) rfl rfl

theorem sentAlone_carried (hw : BlockWire id reps block) (hl : block.length < 2 ^ 24) :
    Carried (sentAlone block) reps where
  sid := by simp [sentAlone, Sent.sid, plainFrame]
  sized := show _ < _ by rw [plainFrame_payload]; exact hl
  wire := hw

theorem readBlock_readable (hl : http2FrameHdrLen + block.length ≤ maxBytes)
    (hroom : (maps.dynamicTableInfo.lookup conn).isSome ∨
      maps.dynamicTableInfo.card < mapMaxEntries) (p : Parsed) :
    Readable maps conn 0 (sentAlone block) p := by
  have hstop := plainFrame_stop block
  exact ⟨show 0 + (plainFrame block).stop ≤ maxBytes by omega, hroom⟩

/-- A block in a single frame that is not too large is read as what it means. -/
theorem readBlock_reads (hrd : ReadsReps rd) (hw : BlockWire id reps block)
    (hl : http2FrameHdrLen + block.length ≤ maxBytes)
    (hroom : (maps.dynamicTableInfo.lookup conn).isSome ∨
      maps.dynamicTableInfo.card < mapMaxEntries) :
    AcceptedWhole maps conn 0 (sentAlone block) (readBlock rd maps conn block).toParsed ∧
      (readBlock rd maps conn block).maps.tableOf conn =
        (blockMeaning rd conn reps (maps.tableOf conn) fun _ => none).1 ∧
      ((readBlock rd maps conn block).maps.dynamicTableInfo.lookup conn).isSome := by
  have hk := readBlock_hooked rd maps conn block
  have hc := sentAlone_carried hw (by unfold maxBytes at hl; omega)
  have hacc := (readBlock_readable hl hroom _).accepted hk hrd hc
  obtain ⟨-, info, m, hg, hmaps, -⟩ := hk.tableOf hrd hc hacc
  obtain ⟨-, -, -, hl', -, -⟩ := getDynamicTable_some hg
  refine ⟨hacc, ?_, ?_⟩
  · rw [hmaps.tableOf, setTable_tableOf hg]
  · rw [hmaps.infos, setTable_lookup hl']
    rfl

theorem readBlock_tooBig (hbig : maxBytes < http2FrameHdrLen + block.length)
    (hend : http2FrameHdrLen + block.length < 2 ^ 16) :
    (readBlock rd maps conn block).ret = .error .E2BIG ∧
      (readBlock rd maps conn block).maps = maps := by
  have hstop := plainFrame_stop block
  have hpayload := plainFrame_payload block
  exact (plainFrame block).tooBig (newHttp2Frame [] 0) (List.append_nil _).symm
    (sentAlone_linear block conn) rfl (by simp [plainFrame]) (by omega) (by omega) (by omega)

theorem readBlock_wrapped (hend : http2FrameHdrLen + block.length = 2 ^ 16)
    (hroom : (maps.dynamicTableInfo.lookup conn).isSome ∨
      maps.dynamicTableInfo.card < mapMaxEntries) :
    (readBlock rd maps conn block).ret = .ok (2 ^ 16) ∧
      (readBlock rd maps conn block).maps.tableOf conn = maps.tableOf conn ∧
      (readBlock rd maps conn block).pres = .zero := by
  have hstop := plainFrame_stop block
  have hpayload := plainFrame_payload block
  have hlen := (plainFrame block).bytes_length
  obtain ⟨info, m, hg⟩ := getDynamicTable_room hroom
  have hmsg : (linearMsg (sentAlone block).bytes conn true).bytes = (plainFrame block).bytes ++ [] :=
    (List.append_nil _).symm
  obtain ⟨hret, hmaps, hpres⟩ := @Whole.wrapped rd maps m info _ [] (plainFrame block)
    (newHttp2Frame [] 0) hmsg (sentAlone_linear block conn) rfl (by simp [plainFrame]) (by omega)
    (by omega) hg
  refine ⟨?_, ?_, hpres⟩
  · rw [readBlock, hret, hlen, hpayload, hend]
  · exact ((hmaps.tableOf conn).trans (setTable_tableOf hg _)).trans (getDynamicTable_tableOf hg)

/-- A run goes on with a block in a single frame. -/
theorem Tracked.read {stg : DynamicTableInfo → Option Nat → Prop}
    {blk : Maps → Ip4Conn → Nat → Sent → Parsed → Prop}
    {ok : Ip4Conn → DynamicTable → HeaderTable Coded → Rep → Instr Coded → Prop} {qs : Decoders}
    {limit : Nat} {xs : List (Instr Coded)} {q : HeaderTable Coded} {fs : List (HeaderField Coded)}
    (h : Tracked rd stg blk ok maps qs) (hw : BlockWire id reps block) (hl : block.length < 2 ^ 24)
    (hb : blk maps conn 0 (sentAlone block) (readBlock rd maps conn block).toParsed)
    (hlimit : limit < 2 ^ 32) (hd : Decodes limit (qs conn) reps xs q fs)
    (hok : Along rd conn limit (ok conn) (maps.tableOf conn) (qs conn) reps xs) :
    Tracked rd stg blk ok (readBlock rd maps conn block).maps (Function.update qs conn q) :=
  .block h (readBlock_hooked rd maps conn block) (sentAlone_carried hw hl) hb hlimit hd hok

end Beeper.Http2
