import Beeper.BlockAcceptance
import Beeper.FrameOffset

namespace Beeper.Http2

/-- What a message starts with: a header block of whole representations, on a stream of its own if
it is cut, or a frame of another type. -/
inductive Framed : Bytes → Prop
  | block (b : Sent) (hsid : ∀ f, b = .cut f → f.head.sid ≠ 0) (hc : Complete id b.block) :
      Framed b.bytes
  | other (h : FrameHead) (payload : Bytes) (ht : h.type.toNat ≠ http2HeadersFrame) :
      Framed (h.frame payload)

/-- The number of entries of the table of `conn`. -/
def Maps.countOf (maps : Maps) (conn : Ip4Conn) : Nat :=
  match maps.dynamicTableInfo.lookup conn with
  | some info => info.count
  | none => 0

/-- The frame `f` once it describes the table that was read. -/
def describe (f : Http2Frame) (info : Option DynamicTableInfo) (maps : Maps) (conn : Ip4Conn) :
    Http2Frame :=
  match info with
  | some info => { f with dtCountBefore := info.count, dtCount := maps.countOf conn }
  | none => f

/-- A parse at an offset of an sk_buff, and one of the message itself, that no caller can tell
apart. -/
structure AlikeAt (rd : Rodata) (p : ParsedMsg) (p' : ParsedSkb) : Prop where
  ret : p'.ret = p.ret
  frame : p'.frame = p.frame
  tables : SameTables p.maps p'.maps
  captures : ∀ idx, getMatchSkb rd p'.maps p'.skb p'.pres idx =
    getMatchMsg rd p.maps p.msg p.pres idx

variable {rd : Rodata} {maps : Maps} {ctx : MsgCtx} {pre post payload : Bytes} {off : Nat}
  {f : Http2Frame}

theorem SameTables.describe {maps' : Maps} (h : SameTables maps maps') (f : Http2Frame)
    (info : Option DynamicTableInfo) (conn : Ip4Conn) :
    describe f info maps' conn = describe f info maps conn := by
  unfold Http2.describe Maps.countOf
  rw [h.infos]

/-- A block that was put together describes the table. -/
theorem parseBlock_frame (rd : Rodata) (maps : Maps) (ctx : MsgCtx) (f : Http2Frame) {total : Nat}
    (h : (collectBlock ctx.data off maps.blockBuf).ret = .ok total) :
    (parseBlock rd maps ctx off .zero f none).frame =
      describe f (getDynamicTable maps ctx.conn).1
        (parseBlock rd maps ctx off .zero f none).maps ctx.conn := by
  obtain ⟨hinfo, -⟩ := SameTables.getDynamicTable
    (show SameTables maps { maps with blockBuf := (collectBlock ctx.data off maps.blockBuf).buf }
      from ⟨rfl, rfl, rfl⟩) ctx.conn
  rw [← hinfo]
  unfold parseBlock
  simp only [h]
  cases hg : getDynamicTable { maps with
      blockBuf := (collectBlock ctx.data off maps.blockBuf).buf } ctx.conn with
  | mk info m =>
    cases info with
    | none => rfl
    | some info =>
      obtain ⟨-, -, -, hl, -⟩ := getDynamicTable_some hg
      simp only [describe, Maps.countOf, setTable_lookup hl]

/-- So does a frame that is read in place. -/
theorem parseFrame_frame (rd : Rodata) (maps : Maps) (ctx : MsgCtx) {len type flags start stop : Nat}
    (hf : f.dtCountBefore = 0 ∧ f.dtCount = 0) (ho : off ≤ maxBytes)
    (hblock : http2Block (ctx.data.drop off) len type flags = .ok (start, stop))
    (hmax : off + stop ≤ maxBytes) :
    (parseFrame rd maps ctx off len type flags .zero f none).frame =
      describe f (getDynamicTable maps ctx.conn).1
        (parseFrame rd maps ctx off len type flags .zero f none).maps ctx.conn := by
  obtain ⟨sid, type', flags', before, count, len', need⟩ := f
  obtain ⟨rfl, rfl⟩ := hf
  unfold parseFrame
  rw [if_neg (Nat.not_lt.mpr ho)]
  simp only [hblock, if_neg (Nat.not_lt.mpr hmax)]
  cases (getDynamicTable maps ctx.conn).1 with
  | none => rfl
  | some info =>
    simp only [describe, Maps.countOf]
    congr 1
    generalize BoundedMap.lookup _ ctx.conn = x
    cases x with
    | none => rfl
    | some info => rfl

/-- What reading the parameters of a SETTINGS frame comes to. -/
structure StgRead (maps : Maps) (conn : Ip4Conn) (payload : Bytes) (p : Parsed) : Prop where
  pres : p.pres = .zero
  full : ∀ m, getDynamicTable maps conn = (none, m) → p.ret = .error .ENOSPC ∧ p.maps = m
  read : ∀ info m, getDynamicTable maps conn = (some info, m) → p.ret = .ok 0 ∧
    p.maps = m.setTable conn
      ((m.table info).setMaxSize (payload.foldl stgByte ⟨0, 0, 0, info.maxSize⟩).maxSize)

theorem parseStg_at (rd : Rodata) (maps : Maps) (h : FrameHead) (f : Http2Frame)
    (hd : ctx.data = pre ++ (h.frame payload ++ post))
    (hsize : pre.length + (http2FrameHdrLen + payload.length) ≤ maxBytes) :
    StgRead maps ctx.conn payload
      (parseFrame rd maps ctx pre.length payload.length http2SettingsFrame 0 .zero f none) ∧
    http2Block (ctx.data.drop pre.length) payload.length http2SettingsFrame 0 =
      .ok (http2FrameHdrLen, http2FrameHdrLen + payload.length) := by
  have hblock : http2Block (ctx.data.drop pre.length) payload.length http2SettingsFrame 0 =
      .ok (http2FrameHdrLen, http2FrameHdrLen + payload.length) := by
    have hlt : http2FrameHdrLen + payload.length < 65536 := by
      unfold maxBytes at hsize
      omega
    simp [http2Block, isPadded, padLen, blockStart, http2SettingsFrame, http2HeadersFrame, hlt]
  refine ⟨?_, hblock⟩
  have hdata : ctx.data.length = pre.length + (http2FrameHdrLen + payload.length + post.length) := by
    rw [hd, List.length_append, List.length_append, FrameHead.frame_length]
  have hslice : slice ctx.data (pre.length + http2FrameHdrLen) payload.length = payload := by
    have hs := slice_frame h pre [] payload [] post
    rw [List.nil_append, List.append_nil, List.length_nil, Nat.add_zero] at hs
    rw [hd]
    exact hs
  have hidem := getDynamicTable_idem maps ctx.conn
  have h9 : ¬ctx.data.length < 9 := by
    unfold http2FrameHdrLen at hdata
    omega
  have hlen : min (min ctx.data.length maxBytes) (http2FrameHdrLen + payload.length + pre.length) -
      (http2FrameHdrLen + pre.length) = payload.length := by omega
  unfold parseFrame
  rw [if_neg (by omega)]
  simp only [hblock, if_neg (show ¬maxBytes < pre.length + (http2FrameHdrLen + payload.length) by
    omega), if_true, parseStgFrom, hidem, if_neg h9, hlen]
  cases hg : getDynamicTable maps ctx.conn with
  | mk info m =>
    cases info with
    | none =>
      refine ⟨rfl, fun m' hg' => ?_, fun info' m' hg' => ?_⟩
      · cases hg.symm.trans hg'
        exact ⟨rfl, rfl⟩
      · cases hg.symm.trans hg'
    | some info =>
      obtain ⟨h1, h2⟩ := @parseStgLoop_eq ctx.data payload.length (http2FrameHdrLen + pre.length)
        (http2FrameHdrLen + pre.length) ⟨0, 0, 0, info.maxSize⟩ none (by omega)
      rw [Nat.add_comm http2FrameHdrLen pre.length] at h1 h2
      rw [hslice, dropNullPrefix_none, List.zipIdx_map_fst] at h2
      rw [Nat.add_comm http2FrameHdrLen pre.length]
      simp only [h1, h2]
      refine ⟨rfl, fun m' hg' => ?_, fun info' m' hg' => ?_⟩
      · cases hg.symm.trans hg'
      · cases hg.symm.trans hg'
        refine ⟨if_neg ?_, rfl⟩
        split <;> omega

/-- What the match `idx` is read as behind a parse out of `ctx`. -/
def reading (rd : Rodata) (ctx : MsgCtx) (p : Parsed) (idx : Nat) : Except Errno Bytes :=
  if maxMatches ≤ idx then .error .EINVAL
  else if ¬isCaptured (p.pres.get idx) then .error .ENOENT
  else getStr rd ctx p.maps (p.pres.get idx)

/-- A parse that reads a block of whole representations and describes the table. -/
structure Described (rd : Rodata) (maps : Maps) (conn : Ip4Conn) (reps : List Rep) (total : Nat)
    (f : Http2Frame) (p : Parsed) (value : Nat → Except Errno Bytes) : Prop where
  reads : ReadsAs rd maps conn reps total p value
  frame : p.frame = describe f (getDynamicTable maps conn).1 p.maps conn

/-- A parse that reads nothing. -/
structure Unread (maps : Maps) (ret : Except Errno Nat) (f : Http2Frame) (p : Parsed) : Prop where
  ret : p.ret = ret
  frame : p.frame = f
  tables : SameTables maps p.maps
  pres : p.pres = .zero

section Alike

variable {p : ParsedMsg} {p' : ParsedSkb} {conn : Ip4Conn}

theorem Described.alikeAt {reps : List Rep} {total : Nat}
    (h : Described rd maps conn reps total f p.toParsed
      (reading rd (newMsgCtx p.msg) p.toParsed))
    (h' : Described rd maps conn reps total f p'.toParsed
      (reading rd (newSkbCtx p'.skb) p'.toParsed)) : AlikeAt rd p p' := by
  obtain ⟨hret, htables, hvalue⟩ := h.reads.same h'.reads
  refine ⟨hret, ?_, htables, hvalue⟩
  rw [h.frame, h'.frame, htables.describe]

theorem Unread.alikeAt {ret : Except Errno Nat} (h : Unread maps ret f p.toParsed)
    (h' : Unread maps ret f p'.toParsed) : AlikeAt rd p p' := by
  refine ⟨h'.ret.trans h.ret.symm, h'.frame.trans h.frame.symm, h.tables.symm.trans h'.tables,
    fun idx => ?_⟩
  unfold getMatchSkb getMatchMsg
  rw [h.pres, h'.pres]
  rfl

/-- A SETTINGS frame that is read captures nothing. -/
theorem StgRead.alikeAt {k : Nat} {q q' : Parsed} (hq : StgRead maps conn payload q)
    (hq' : StgRead maps conn payload q')
    (hf : q.frame = describe f (getDynamicTable maps conn).1 q.maps conn)
    (hf' : q'.frame = describe f (getDynamicTable maps conn).1 q'.maps conn)
    (h : p.toParsed = { q with ret := q.ret.map fun _ => k })
    (h' : p'.toParsed = { q' with ret := q'.ret.map fun _ => k }) : AlikeAt rd p p' := by
  obtain ⟨hret, hmaps⟩ : q'.ret = q.ret ∧ q'.maps = q.maps := by
    cases hg : getDynamicTable maps conn with
    | mk info m =>
      cases info with
      | none =>
        obtain ⟨hr, hm⟩ := hq.full m hg
        obtain ⟨hr', hm'⟩ := hq'.full m hg
        exact ⟨hr'.trans hr.symm, hm'.trans hm.symm⟩
      | some info =>
        obtain ⟨hr, hm⟩ := hq.read info m hg
        obtain ⟨hr', hm'⟩ := hq'.read info m hg
        exact ⟨hr'.trans hr.symm, hm'.trans hm.symm⟩
  refine ⟨?_, ?_, ?_, fun idx => ?_⟩
  · rw [h, h', hret]
  · rw [h, h', hf, hf', hmaps]
  · rw [h, h']
    simp only [hmaps]
    exact .refl _
  · unfold getMatchSkb getMatchMsg
    rw [h, h']
    simp only [hq.pres, hq'.pres]
    rfl

end Alike

section Places

variable {reps : List Rep}

/-- A block that was cut, wherever its frames stand. -/
theorem Fragmented.parse_at (g : Fragmented) (rd : Rodata) (maps : Maps) (hrd : ReadsReps rd)
    (hd : ctx.data = pre ++ (g.bytes ++ post)) (hsize : pre.length + g.bytes.length ≤ maxBytes)
    (hw : BlockWire readLen reps g.block) (f : Http2Frame) :
    let p := parseBlock rd maps ctx pre.length .zero f none
    p.ret ≠ .error .EAGAIN ∧
      (g.block.length ≤ blockMaxlen →
        Described rd maps ctx.conn reps g.bytes.length f p (reading rd ctx p)) ∧
      (blockMaxlen < g.block.length → Unread maps (.error .E2BIG) f p) := by
  obtain ⟨hfit, hlong⟩ := g.collect_at pre post maps.blockBuf hsize
  rw [← hd] at hfit hlong
  refine ⟨fun hagain => ?_, fun hshort => ?_, fun hbig => ?_⟩
  · have hc := (parseBlock_again rd maps _ _ _ none .zero hagain).1
    by_cases hs : g.block.length ≤ blockMaxlen
    · obtain ⟨b, hb, -⟩ := hfit hs
      rw [hb] at hc
      cases hc
    · rw [hlong (Nat.not_le.mp hs)] at hc
      cases hc
  · obtain ⟨b, hb, hhas⟩ := hfit hshort
    have hread := parseBlock_read rd ctx f none hb rfl hhas
    exact ⟨hread.readsAs hrd (exact_buf hhas).legible hw fun _ => rfl,
      parseBlock_frame rd maps ctx f (by rw [hb])⟩
  · have hret := hlong hbig
    unfold parseBlock
    simp only [hret]
    exact ⟨rfl, rfl, ⟨rfl, rfl, rfl⟩, rfl⟩

/-- A block in one frame, wherever that stands. -/
theorem Whole.parse_at (w : Whole) (rd : Rodata) (maps : Maps) (hrd : ReadsReps rd)
    (hd : ctx.data = pre ++ (w.bytes ++ post)) (hsize : pre.length + w.stop ≤ maxBytes)
    (hw : BlockWire readLen reps w.block) (hf : f.dtCountBefore = 0 ∧ f.dtCount = 0) (k : Nat) :
    let p := parseFrame rd maps ctx pre.length (w.payload.bytes w.head.flags.toNat).length
      http2HeadersFrame w.head.flags.toNat .zero f none
    let q := { p with ret := p.ret.map fun _ => k }
    Described rd maps ctx.conn reps k f q (reading rd ctx q) := by
  obtain ⟨front, back, hp⟩ := w.payload.carries w.head
  have hread := (w.readAt rd maps f hd hp hsize).map k
  have hlegible := @Whole.legible rd ctx pre post w front back hp hd hsize maps.blockBuf
  refine ⟨hread.readsAs hrd hlegible hw fun _ => rfl, ?_⟩
  have hlen := w.bytes_length
  have hpl := payload_length hp
  have hsum : (front ++ w.block).length = front.length + w.block.length := List.length_append
  have hstop := Whole.stop_eq hp
  exact parseFrame_frame rd maps ctx hf (by omega) (block_at hd hp (by unfold maxBytes at hsize; omega)) (by omega)

end Places

section Lengths

theorem HeadersPayload.block_length_le (p : HeadersPayload) (flags : Nat) :
    p.block.length ≤ (p.bytes flags).length := by
  simp only [bytes, List.length_append]
  omega

theorem Continuation.block_length_le (cs : List Continuation) :
    ((cs.map Continuation.block).flatten).length ≤ ((cs.map Continuation.bytes).flatten).length := by
  induction cs with
  | nil => exact Nat.le_refl _
  | cons c cs ih =>
    simp only [List.map_cons, List.flatten_cons, List.length_append, Continuation.bytes,
      FrameHead.frame_length]
    omega

/-- A block is no longer than the frames that carry it. -/
theorem Sent.block_length_le (b : Sent) : b.block.length ≤ b.bytes.length := by
  cases b with
  | whole w =>
    have hpay := w.payload.block_length_le w.head.flags.toNat
    simp only [block, bytes, w.bytes_length, Whole.block]
    omega
  | cut f =>
    have hpay := f.payload.block_length_le f.head.flags.toNat
    have hrest := Continuation.block_length_le (f.middle ++ [f.last])
    simp only [block, bytes, f.bytes_length, Fragmented.block, List.length_append]
    omega

end Lengths

section Linear

variable {skb : SkBuff} {msg : SkMsg} {frame : Http2Frame}

theorem pullData_linear (hp : skb.pullable = true) (hl : skb.linear = skb.bytes.length) {n : Nat}
    (hn : n ≤ skb.bytes.length) : skb.pullData n = some skb := by
  have hmax : max skb.linear n = skb.linear := by omega
  rw [skbPullData_isSome skb hp hn]
  cases skb
  simp only [SkBuff.pulled, hmax]

theorem newSkbCtx_linear (hl : skb.linear = skb.bytes.length) :
    newSkbCtx skb = ⟨skb.bytes, skb.conn⟩ := by
  rw [newSkbCtx, SkBuff.data, hl, List.take_length]

/-- A linear sk_buff is read as it is. -/
theorem parseSkb_linear (rd : Rodata) (maps : Maps) (frame : Http2Frame) (hp : skb.pullable = true)
    (hl : skb.linear = skb.bytes.length) (hoff : off ≤ maxBytes)
    (h9 : off + http2FrameHdrLen ≤ skb.bytes.length) :
    parseSkb rd maps skb off .zero frame none =
      parseSkbFrame rd maps skb off .zero (newHttp2Frame skb.bytes off) none := by
  have hpulled := (skbPullData_isSome skb hp h9).symm.trans (pullData_linear hp hl h9)
  rw [parseSkb_eq rd maps .zero frame none hp hoff h9, Option.some.inj hpulled]

/-- `m` at the start of the message, and behind `pre` in the sk_buff. -/
structure Placed (msg : SkMsg) (skb : SkBuff) (pre m post : Bytes) : Prop where
  msg_bytes : msg.bytes = m ++ post
  skb_bytes : skb.bytes = pre ++ (m ++ post)
  msg_linear : msg.linear = msg.bytes.length
  skb_linear : skb.linear = skb.bytes.length
  msg_pullable : msg.pullable = true
  skb_pullable : skb.pullable = true
  conn : skb.conn = msg.conn

variable {h : FrameHead} {front m : Bytes}

/-- The header that the parse of either one goes on with. -/
def FrameHead.first (h : FrameHead) (len : Nat) : Http2Frame :=
  ⟨h.sid, h.type.toNat, h.flags.toNat, 0, 0, len, 0⟩

/-- Both parses read the same header. -/
theorem Placed.parses (hpl : Placed msg skb pre m post) (hm : m = h.frame payload ++ front)
    (hsize : pre.length + m.length ≤ maxBytes) (rd : Rodata) (maps : Maps)
    (frame frame' : Http2Frame) :
    parseMsg rd maps msg .zero frame = parseMsgFrame rd maps msg .zero (h.first payload.length) ∧
      parseSkb rd maps skb pre.length .zero frame' none =
        parseSkbFrame rd maps skb pre.length .zero (h.first payload.length) none ∧
      http2FrameHdrLen + payload.length ≤ msg.bytes.length ∧
      http2FrameHdrLen + payload.length ≤ skb.bytes.length - pre.length := by
  have hlen : m.length = http2FrameHdrLen + payload.length + front.length := by
    rw [hm, List.length_append, FrameHead.frame_length]
  have hmsg : msg.bytes.length = m.length + post.length := by rw [hpl.msg_bytes, List.length_append]
  have hskb : skb.bytes.length = pre.length + (m.length + post.length) := by
    rw [hpl.skb_bytes, List.length_append, List.length_append]
  have hl : payload.length < 2 ^ 24 := by
    unfold maxBytes at hsize
    omega
  have hfirst : newHttp2Frame msg.bytes 0 = h.first payload.length := by
    rw [hpl.msg_bytes, hm, List.append_assoc]
    exact newHttp2Frame_frame h _ hl
  have hfirst' : newHttp2Frame skb.bytes pre.length = h.first payload.length := by
    rw [hpl.skb_bytes, hm, List.append_assoc]
    exact newHttp2Frame_at h pre _ hl
  refine ⟨?_, ?_, by omega, by omega⟩
  · rw [parseMsg_eq (by rw [hpl.msg_linear]; omega), hfirst]
  · rw [parseSkb_linear rd maps frame' hpl.skb_pullable hpl.skb_linear (by omega) (by omega),
      hfirst']

/-- A frame that is refused. -/
theorem Placed.rejected (hpl : Placed msg skb pre m post) (hm : m = h.frame payload ++ front)
    (hsize : pre.length + m.length ≤ maxBytes) (hv : violatesBlockRules h.type.toNat h.sid)
    (rd : Rodata) (maps : Maps) (frame frame' : Http2Frame) :
    AlikeAt rd (parseMsg rd maps msg .zero frame)
      (parseSkb rd maps skb pre.length .zero frame' none) := by
  obtain ⟨hmsg, hskb, hle, hle'⟩ := hpl.parses hm hsize rd maps frame frame'
  have hrule : violatesBlockRules (h.first payload.length).type (h.first payload.length).sid := hv
  have hreject (size : Nat) (hs : http2FrameHdrLen + payload.length ≤ size) :
      rejectFrame (h.first payload.length) (http2FrameHdrLen + (h.first payload.length).len) size =
        (.error .EPROTO, h.first payload.length) := by
    unfold rejectFrame
    exact if_pos hs
  rw [hmsg, hskb, parseMsgFrame_reject hrule, parseSkbFrame_reject hrule, hreject _ hle,
    hreject _ hle']
  exact @Unread.alikeAt rd maps _ _ _ (.error .EPROTO) ⟨rfl, rfl, .refl maps, rfl⟩
    ⟨rfl, rfl, .refl maps, rfl⟩

/-- A HEADERS frame on a stream of its own is read. -/
theorem FrameHead.first_headers (h : FrameHead) (len : Nat)
    (ht : h.type.toNat = http2HeadersFrame) (h0 : h.sid ≠ 0) :
    ¬violatesBlockRules (h.first len).type (h.first len).sid ∧
      isParsedFrame (h.first len).type (h.first len).flags :=
  headers_accepted ht h0

theorem Described.neverRead {conn : Ip4Conn} {reps : List Rep} {total n : Nat} {p : Parsed}
    {value : Nat → Except Errno Bytes} (h : Described rd maps conn reps total f p value)
    (hp : p.ret ≠ .error .EAGAIN) :
    Described rd maps conn reps total f { p with ret := neverRead p n } value := by
  rw [Http2.neverRead, if_neg fun hn => hp hn.1]
  exact h

theorem Unread.neverRead {ret : Except Errno Nat} {n : Nat} {p : Parsed}
    (h : Unread maps ret f p) (hp : p.ret ≠ .error .EAGAIN) :
    Unread maps ret f { p with ret := neverRead p n } := by
  rw [Http2.neverRead, if_neg fun hn => hp hn.1]
  exact h

/-- A block that is cut. -/
theorem Placed.cut (g : Fragmented) (hpl : Placed msg skb pre g.bytes post)
    (hsize : pre.length + g.bytes.length ≤ maxBytes) (h0 : g.head.sid ≠ 0)
    (hc : Complete readLen g.block) (hrd : ReadsReps rd) (maps : Maps)
    (frame frame' : Http2Frame) :
    AlikeAt rd (parseMsg rd maps msg .zero frame)
      (parseSkb rd maps skb pre.length .zero frame' none) := by
  obtain ⟨reps, hw⟩ := hc
  have hm : g.bytes = g.head.frame (g.payload.bytes g.head.flags.toNat) ++
      ((g.middle ++ [g.last]).map Continuation.bytes).flatten := rfl
  obtain ⟨hmsg, hskb, hle, hle'⟩ := hpl.parses hm hsize rd maps frame frame'
  rw [hmsg, hskb]
  generalize (g.payload.bytes g.head.flags.toNat).length = n at hle hle' ⊢
  obtain ⟨hrule, -⟩ := g.head.first_headers n g.head_type h0
  have hb : (g.head.first n).type = http2HeadersFrame ∧
      (g.head.first n).flags &&& http2EndHeadersFlag = 0 := ⟨g.head_type, g.head_flags⟩
  have hmsglen : msg.bytes.length = g.bytes.length + post.length := by
    rw [hpl.msg_bytes, List.length_append]
  have hskblen : skb.bytes.length = pre.length + (g.bytes.length + post.length) := by
    rw [hpl.skb_bytes, List.length_append, List.length_append]
  -- the message as far as it is pulled in
  obtain ⟨msg', hctx, hparse⟩ := parseMsgFrame_pulled rd maps msg .zero hpl.msg_pullable
    (by omega) hrule hle hb
  have htake : msg.bytes.take (min msg.bytes.length maxBytes) =
      [] ++ (g.bytes ++ post.take (min msg.bytes.length maxBytes - g.bytes.length)) := by
    rw [hpl.msg_bytes, List.take_append, List.take_of_length_le, List.nil_append]
    rw [List.length_append]
    omega
  obtain ⟨hne, hfit, hbig⟩ := @Fragmented.parse_at
    ⟨msg.bytes.take (min msg.bytes.length maxBytes), msg.conn⟩ [] _ reps g rd maps hrd htake
    (by rw [List.length_nil]; omega) hw (g.head.first n)
  -- and the whole sk_buff
  obtain ⟨hne', hfit', hbig'⟩ := @Fragmented.parse_at ⟨skb.bytes, skb.conn⟩ pre post reps g rd maps
    hrd hpl.skb_bytes hsize hw (g.head.first n)
  have hparse' := @parseSkbFrame_block rd maps skb pre.length .zero _ none hrule hle' hb
  rw [pullData_linear hpl.skb_pullable hpl.skb_linear (Nat.min_le_left _ _)] at hparse'
  rw [← hctx] at hparse
  rw [hparse, hparse']
  by_cases hshort : g.block.length ≤ blockMaxlen
  · have hd := (hfit hshort).neverRead (n := msg.bytes.length) hne
    have hd' := (hfit' hshort).neverRead (n := skb.bytes.length - pre.length) hne'
    rw [← newSkbCtx_linear hpl.skb_linear] at hd'
    rw [← hctx] at hd
    have hconn : (newMsgCtx msg').conn = (newSkbCtx skb).conn := by
      rw [hctx]
      exact hpl.conn.symm
    rw [hconn] at hd
    exact Described.alikeAt hd hd'
  · have hu := (hbig (Nat.not_le.mp hshort)).neverRead (n := msg.bytes.length) hne
    have hu' := (hbig' (Nat.not_le.mp hshort)).neverRead (n := skb.bytes.length - pre.length) hne'
    rw [← newSkbCtx_linear hpl.skb_linear] at hu'
    rw [← hctx] at hu
    exact Unread.alikeAt hu hu'

/-- The message is pulled in up to the end of its frame, while the sk_buff is read as it is. -/
theorem Placed.inPlace (hpl : Placed msg skb pre m post) (hm : m = h.frame payload)
    (hsize : pre.length + m.length ≤ maxBytes)
    (hrule : ¬violatesBlockRules h.type.toNat h.sid)
    (hread : isParsedFrame h.type.toNat h.flags.toNat)
    (hb : ¬(h.type.toNat = http2HeadersFrame ∧ h.flags.toNat &&& http2EndHeadersFlag = 0))
    (rd : Rodata) (maps : Maps) (frame frame' : Http2Frame) :
    ∃ msg', newMsgCtx msg' = ⟨m, msg.conn⟩ ∧
      parseMsg rd maps msg .zero frame =
        (let p := parseFrame rd maps ⟨m, msg.conn⟩ 0 payload.length h.type.toNat h.flags.toNat .zero
          (h.first payload.length) none
        ⟨{ p with ret := p.ret.map fun _ => m.length }, msg'⟩) ∧
      parseSkb rd maps skb pre.length .zero frame' none =
        (let p := parseFrame rd maps (newSkbCtx skb) pre.length payload.length h.type.toNat
          h.flags.toNat .zero (h.first payload.length) none
        ⟨{ p with ret := p.ret.map fun _ => m.length }, skb⟩) := by
  obtain ⟨hmsg, hskb, hle, hle'⟩ := hpl.parses (hm.trans (List.append_nil _).symm) hsize rd maps
    frame frame'
  have hlen : m.length = http2FrameHdrLen + payload.length := by rw [hm, FrameHead.frame_length]
  have hskblen : skb.bytes.length = pre.length + (m.length + post.length) := by
    rw [hpl.skb_bytes, List.length_append, List.length_append]
  obtain ⟨msg', hctx, hparse⟩ := @parseMsgFrame_whole (h.first payload.length) rd maps msg .zero
    hpl.msg_pullable hrule hread hle hb
  have hparse' := @parseSkbFrame_frame rd maps skb pre.length .zero (h.first payload.length) none
    hrule hread hle' hb
  have htake : msg.bytes.take (http2FrameHdrLen + payload.length) = m := by
    rw [hpl.msg_bytes, ← hlen, List.take_left]
  have hpull : skb.pullData (pre.length + (http2FrameHdrLen + payload.length)) = some skb :=
    pullData_linear hpl.skb_pullable hpl.skb_linear (by omega)
  simp only [FrameHead.first] at hctx hparse hparse'
  rw [htake] at hctx hparse
  rw [hpull] at hparse'
  rw [← hlen] at hparse hparse'
  exact ⟨msg', hctx, hmsg.trans hparse, hskb.trans hparse'⟩

/-- A block in one frame. -/
theorem Placed.whole (w : Whole) (hpl : Placed msg skb pre w.bytes post)
    (hsize : pre.length + w.bytes.length ≤ maxBytes) (hc : Complete readLen w.block)
    (hrd : ReadsReps rd) (maps : Maps) (frame frame' : Http2Frame) :
    AlikeAt rd (parseMsg rd maps msg .zero frame)
      (parseSkb rd maps skb pre.length .zero frame' none) := by
  obtain ⟨reps, hw⟩ := hc
  have hstop := w.stop_le
  by_cases h0 : w.head.sid = 0
  · have hm : w.bytes = w.head.frame (w.payload.bytes w.head.flags.toNat) ++ [] :=
      (List.append_nil _).symm
    refine hpl.rejected hm hsize ?_ rd maps frame frame'
    simp [violatesBlockRules, w.head_type, h0]
  · obtain ⟨hrule, hread⟩ := w.head.first_headers 0 w.head_type h0
    obtain ⟨msg', hctx, hparse, hparse'⟩ := hpl.inPlace rfl hsize hrule hread
      (fun hb => w.head_flags hb.2) rd maps frame frame'
    have hd := @Whole.parse_at ⟨w.bytes, msg.conn⟩ [] []
      (w.head.first (w.payload.bytes w.head.flags.toNat).length) reps w rd maps hrd
      (by rw [List.nil_append, List.append_nil]) (by rw [List.length_nil]; omega) hw ⟨rfl, rfl⟩
      w.bytes.length
    have hd' := @Whole.parse_at ⟨skb.bytes, skb.conn⟩ pre post
      (w.head.first (w.payload.bytes w.head.flags.toNat).length) reps w rd maps hrd
      hpl.skb_bytes (by omega) hw ⟨rfl, rfl⟩ w.bytes.length
    rw [← newSkbCtx_linear hpl.skb_linear] at hd'
    have hconn : (newMsgCtx msg').conn = (newSkbCtx skb).conn := by
      rw [hctx]
      exact hpl.conn.symm
    rw [← hctx] at hd hparse
    rw [hconn] at hd
    rw [hparse, hparse', w.head_type]
    exact Described.alikeAt hd hd'

/-- A frame of another type. -/
theorem Placed.other (hpl : Placed msg skb pre (h.frame payload) post)
    (hsize : pre.length + (h.frame payload).length ≤ maxBytes)
    (ht : h.type.toNat ≠ http2HeadersFrame) (rd : Rodata) (maps : Maps)
    (frame frame' : Http2Frame) :
    AlikeAt rd (parseMsg rd maps msg .zero frame)
      (parseSkb rd maps skb pre.length .zero frame' none) := by
  have hm : h.frame payload = h.frame payload ++ [] := (List.append_nil _).symm
  by_cases hrule : violatesBlockRules h.type.toNat h.sid
  · exact hpl.rejected hm hsize hrule rd maps frame frame'
  by_cases hread : isParsedFrame h.type.toNat h.flags.toNat
  case neg =>
    obtain ⟨hmsg, hskb, hle, hle'⟩ := hpl.parses hm hsize rd maps frame frame'
    rw [hmsg, hskb, @parseMsgFrame_skip rd maps msg .zero (h.first payload.length) hrule hread,
      @parseSkbFrame_skip rd maps skb pre.length .zero (h.first payload.length) none hrule hread,
      hpl.conn]
    exact Unread.alikeAt ⟨rfl, rfl, .refl maps, rfl⟩ ⟨rfl, rfl, .refl maps, rfl⟩
  obtain ⟨hstg, hflags⟩ : h.type.toNat = http2SettingsFrame ∧ h.flags.toNat = 0 := by
    simp only [violatesBlockRules, isParsedFrame, decide_eq_true_eq] at hrule hread
    rcases hread with hr | hr | hr
    · exact absurd hr ht
    · exact absurd (.inl hr) hrule
    · exact hr
  obtain ⟨msg', hctx, hparse, hparse'⟩ := hpl.inPlace rfl hsize hrule hread (fun hb => ht hb.1) rd
    maps frame frame'
  rw [hstg, hflags] at hparse hparse'
  have hlen : (h.frame payload).length = http2FrameHdrLen + payload.length := h.frame_length
  obtain ⟨hq, hblock⟩ := @parseStg_at ⟨h.frame payload, msg.conn⟩ [] [] payload rd maps h
    (h.first payload.length) (by rw [List.nil_append, List.append_nil])
    (by rw [List.length_nil]; omega)
  have hmax : ([] : Bytes).length + (http2FrameHdrLen + payload.length) ≤ maxBytes := by
    rw [List.length_nil]
    omega
  obtain ⟨hq', hblock'⟩ := @parseStg_at ⟨skb.bytes, skb.conn⟩ pre post payload rd maps h
    (h.first payload.length) hpl.skb_bytes (by omega)
  have hfirst : (h.first payload.length).dtCountBefore = 0 ∧ (h.first payload.length).dtCount = 0 :=
    ⟨rfl, rfl⟩
  have hf := parseFrame_frame rd maps _ hfirst (Nat.zero_le _) hblock hmax
  have hf' := parseFrame_frame rd maps _ hfirst (by omega) hblock' (by omega)
  rw [← newSkbCtx_linear hpl.skb_linear] at hq' hf'
  have hconn : msg.conn = (newSkbCtx skb).conn := hpl.conn.symm
  rw [hparse, hparse']
  exact StgRead.alikeAt (hconn ▸ hq) hq' (hconn ▸ hf) hf' rfl rfl

/-- Parsing at an offset of an sk_buff is parsing the message itself. -/
theorem parseSkb_offset {encode : Bytes → Option Bytes}
    {captures : List (Bytes × MatchId)} (ha : Attached encode captures rd) (hm : Framed m)
    (hsize : pre.length + m.length ≤ maxBytes) (hpl : Placed msg skb pre m post) (maps : Maps)
    (frame frame' : Http2Frame) :
    AlikeAt rd (parseMsg rd maps msg .zero frame)
      (parseSkb rd maps skb pre.length .zero frame' none) := by
  cases hm with
  | other h payload ht => exact hpl.other hsize ht rd maps frame frame'
  | block b hsid hc =>
    have hle := b.block_length_le
    have hread : Complete readLen b.block := by
      refine hc.congr fun n hn => Nat.mod_eq_of_lt ?_
      unfold maxBytes at hsize
      simp only [id] at hn
      omega
    cases b with
    | whole w => exact hpl.whole w hsize hread ha.readsReps maps frame frame'
    | cut g => exact hpl.cut g hsize (hsid g rfl) hread ha.readsReps maps frame frame'

/-- The frame of a write that stands behind another byte. -/
theorem parseSkb_behindByte : ∃ rd, Attached (fun s => some (Huffman.encode s)) [] rd ∧
    AlikeAt rd
      (parseMsg rd .init (linearMsg ((sentAlone [0x82]).bytes ++ [1]) tableConn true) .zero
        (newHttp2Frame [] 0))
      (parseSkb rd .init ⟨[7] ++ ((sentAlone [0x82]).bytes ++ [1]), _, tableConn, true,
        Nat.le_refl _⟩ [(7 : UInt8)].length .zero (newHttp2Frame [] 0) none) := by
  obtain ⟨rd, ha⟩ := @attached_exists (fun s => some (Huffman.encode s)) fun s => ⟨_, rfl⟩
  have hrep : RepWire id (.indexed 2) [0x82] :=
    .indexed (by decide) (.short 0x82 (by decide) (by decide))
  have hwhole : ∀ f, sentAlone [0x82] = .cut f → f.head.sid ≠ 0 := by
    intro f hf
    cases hf
  exact ⟨rd, ha, parseSkb_offset ha (.block (sentAlone [0x82]) hwhole hrep.complete) (by decide)
    ⟨rfl, rfl, rfl, rfl, rfl, rfl, rfl⟩ .init _ _⟩

end Linear

end Beeper.Http2
