import Beeper.Frame

namespace Beeper.Http2

/-- What `parse_msg` returns and leaves behind, the message with the range it pulled in
included. -/
structure ParsedMsg extends Parsed where
  msg : SkMsg

/-- Builds the parse context of an sk_msg. -/
def newMsgCtx (msg : SkMsg) : MsgCtx := ⟨msg.data, msg.conn⟩

/-- Builds the parse context of an sk_buff. -/
def newSkbCtx (skb : SkBuff) : MsgCtx := ⟨skb.data, skb.conn⟩

/-- A block whose frames have arrived, but not all of which could be pulled in, would never be
read. -/
def neverRead (p : Parsed) (size : Nat) : Except Errno Nat :=
  if p.ret = .error .EAGAIN ∧ p.frame.need ≤ size then .error .E2BIG else p.ret

/-- What `parse_msg` does once it has read the header of the frame the message starts with. -/
def parseMsgFrame (rd : Rodata) (maps : Maps) (msg : SkMsg) (pres : HttpParseRes)
    (frame : Http2Frame) : ParsedMsg :=
  let frameLen := http2FrameHdrLen + frame.len
  let size := msg.bytes.length
  if violatesBlockRules frame.type frame.sid then
    let (ret, frame) := rejectFrame frame frameLen size
    ⟨⟨ret, maps, pres, frame, none⟩, msg⟩
  else if ¬isParsedFrame frame.type frame.flags then
    ⟨⟨.ok frameLen, maps, pres, skipFrame maps msg.conn frame, none⟩, msg⟩
  else if size < frameLen then
    ⟨⟨.error .EAGAIN, maps, pres, { frame with need := frameLen }, none⟩, msg⟩
  else if frame.type = http2HeadersFrame ∧ frame.flags &&& http2EndHeadersFlag = 0 then
    match msg.pullData (min size maxBytes) with
    | none => ⟨⟨.error .EFAULT, maps, pres, frame, none⟩, msg⟩
    | some msg =>
      let p := parseBlock rd maps (newMsgCtx msg) 0 pres frame none
      ⟨{ p with ret := neverRead p size }, msg⟩
  else
    match msg.pullData frameLen with
    | none => ⟨⟨.error .EFAULT, maps, pres, frame, none⟩, msg⟩
    | some msg =>
      let p := parseFrame rd maps (newMsgCtx msg) 0 frame.len frame.type frame.flags pres frame none
      ⟨{ p with ret := p.ret.map fun _ => frameLen }, msg⟩

/-- Consumes one HEADERS frame in the message buffer, with the CONTINUATION frames behind it, or
one SETTINGS frame. -/
def parseMsg (rd : Rodata) (maps : Maps) (msg : SkMsg) (pres : HttpParseRes)
    (frame : Http2Frame) : ParsedMsg :=
  if msg.data.length < http2FrameHdrLen then ⟨⟨.ok 0, maps, pres, frame, none⟩, msg⟩
  else parseMsgFrame rd maps msg pres (newHttp2Frame msg.data 0)

/-- What `parse_skb` returns and leaves behind, the sk_buff with the range it pulled in
included. -/
structure ParsedSkb extends Parsed where
  skb : SkBuff

/-- What `parse_skb` does once it has read the header of the frame at `off`. -/
def parseSkbFrame (rd : Rodata) (maps : Maps) (skb : SkBuff) (off : Nat) (pres : HttpParseRes)
    (frame : Http2Frame) (nullPrefix : Option Nat) : ParsedSkb :=
  let frameLen := http2FrameHdrLen + frame.len
  let size := skb.bytes.length - off
  if violatesBlockRules frame.type frame.sid then
    let (ret, frame) := rejectFrame frame frameLen size
    ⟨⟨ret, maps, pres, frame, nullPrefix⟩, skb⟩
  else if ¬isParsedFrame frame.type frame.flags then
    ⟨⟨.ok frameLen, maps, pres, skipFrame maps skb.conn frame, nullPrefix⟩, skb⟩
  else if size < frameLen then
    ⟨⟨.error .EAGAIN, maps, pres, { frame with need := frameLen }, nullPrefix⟩, skb⟩
  else if frame.type = http2HeadersFrame ∧ frame.flags &&& http2EndHeadersFlag = 0 then
    match skb.pullData (min skb.bytes.length (off + maxBytes)) with
    | none => ⟨⟨.error .EFAULT, maps, pres, frame, nullPrefix⟩, skb⟩
    | some skb =>
      let p := parseBlock rd maps (newSkbCtx skb) off pres frame nullPrefix
      ⟨{ p with ret := neverRead p size }, skb⟩
  else
    match skb.pullData (off + frameLen) with
    | none => ⟨⟨.error .EFAULT, maps, pres, frame, nullPrefix⟩, skb⟩
    | some skb =>
      let p := parseFrame rd maps (newSkbCtx skb) off frame.len frame.type frame.flags pres frame
        nullPrefix
      ⟨{ p with ret := p.ret.map fun _ => frameLen }, skb⟩

/-- Consumes the frame that starts `off` bytes into the sk_buff, see `parseMsg`. -/
def parseSkb (rd : Rodata) (maps : Maps) (skb : SkBuff) (off : Nat) (pres : HttpParseRes)
    (frame : Http2Frame) (nullPrefix : Option Nat) : ParsedSkb :=
  if maxBytes < off then ⟨⟨.error .E2BIG, maps, pres, frame, nullPrefix⟩, skb⟩
  else if skb.bytes.length < off + http2FrameHdrLen then
    ⟨⟨.ok 0, maps, pres, frame, nullPrefix⟩, skb⟩
  else
    -- the linear part may well be empty, with everything in the fragments
    match if skb.linear < off + http2FrameHdrLen then skb.pullData (off + http2FrameHdrLen)
      else some skb with
    | none => ⟨⟨.error .EFAULT, maps, pres, frame, nullPrefix⟩, skb⟩
    | some skb => parseSkbFrame rd maps skb off pres (newHttp2Frame skb.data off) nullPrefix

/-- Whether `m` holds a capture. A match nothing was captured for is all zeros, while a value
that was captured empty still points behind the length that announced it. -/
def isCaptured (m : HttpMatch) : Bool := decide (0 < m.len.toNat ∨ 0 < m.idx.toNat)

/-- The value captured for the match `m`. -/
def getStr (rd : Rodata) (ctx : MsgCtx) (maps : Maps) (m : HttpMatch) : Except Errno Bytes :=
  match getMatch rd ctx maps.blockBuf maps.dynamicTable m false with
  | none => .error .ENOENT
  | some (bytes, _) => .ok bytes

/-- Whether the parser captured a value for the match `idx`, which may be empty. -/
def matched (pres : HttpParseRes) (idx : Nat) : Bool :=
  if maxMatches ≤ idx then false else isCaptured (pres.get idx)

/-- The value captured for the match `idx`, still Huffman encoded if that is how it was sent. -/
def getMatchMsg (rd : Rodata) (maps : Maps) (msg : SkMsg) (pres : HttpParseRes) (idx : Nat) :
    Except Errno Bytes :=
  if maxMatches ≤ idx then .error .EINVAL
  else if ¬isCaptured (pres.get idx) then .error .ENOENT
  else getStr rd (newMsgCtx msg) maps (pres.get idx)

/-- Same as `getMatchMsg`, for a match taken out of an sk_buff. -/
def getMatchSkb (rd : Rodata) (maps : Maps) (skb : SkBuff) (pres : HttpParseRes) (idx : Nat) :
    Except Errno Bytes :=
  if maxMatches ≤ idx then .error .EINVAL
  else if ¬isCaptured (pres.get idx) then .error .ENOENT
  else getStr rd (newSkbCtx skb) maps (pres.get idx)

/-- Reads the entry the HPACK index `idx` refers to out of the tables of `conn`. -/
def getDtEntry (rd : Rodata) (maps : Maps) (conn : Ip4Conn) (idx : Nat) :
    Except Errno Http2HdrField :=
  if idx = 0 then .error .EINVAL
  else match maps.dynamicTableInfo.lookup conn with
  | none => .error .ENOENT
  | some info =>
    match getTableEntry rd conn (maps.table info) idx with
    | none => .error .ENOENT
    | some hf => .ok hf

/-- The loop of `forget_conn`, which deletes the entries of `conn` from the index `first` on. -/
def deleteEntries (conn : Ip4Conn) (first : Nat) : Nat → DynamicTableMap → DynamicTableMap
  | 0, entries => entries
  | count + 1, entries => deleteEntries conn (first + 1) count (entries.erase ⟨conn, first⟩)

/-- Removes the dynamic table of a connection. The sums are checked, so this returns no maps
where they leave the 32 bits of an index. -/
def forgetConn (maps : Maps) (conn : Ip4Conn) : Option Maps :=
  match maps.dynamicTableInfo.lookup conn with
  | none => some maps
  | some info =>
    let first := dynamicTableBase + info.deleted
    if 2 ^ 32 ≤ first + info.count then none
    else some { maps with
      dynamicTable := deleteEntries conn first info.count maps.dynamicTable
      dynamicTableInfo := maps.dynamicTableInfo.erase conn }

end Beeper.Http2
