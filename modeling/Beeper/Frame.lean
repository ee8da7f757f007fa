import Beeper.HeaderBlock

namespace Beeper.Http2

/-- The header of the frame a parsed message starts with, and what parsing it reports. -/
structure Http2Frame where
  sid : Nat
  type : Nat
  flags : Nat
  dtCountBefore : Nat
  dtCount : Nat
  len : Nat
  need : Nat
deriving DecidableEq

/-- The length of a frame header, see section 4.1 of RFC 9113. -/
def http2FrameHdrLen : Nat := 9

def http2HeadersFrame : Nat := 0x01
def http2SettingsFrame : Nat := 0x04
def http2ContinuationFrame : Nat := 0x09

def http2EndHeadersFlag : Nat := 0x04
def http2PaddedFlag : Nat := 0x08
def http2PriorityFlag : Nat := 0x20

/-- The number of bytes the priority of a HEADERS frame takes up. -/
def http2PriorityLen : Nat := 5

/-- The byte at the offset `i`, as a number. -/
def byteAt (data : Bytes) (i : Nat) : Nat := (data[i]?.getD 0).toNat

/-- The payload length the frame header at the offset `o` announces. -/
def hdrLen (data : Bytes) (o : Nat) : Nat :=
  byteAt data o * 2 ^ 16 + byteAt data (o + 1) * 2 ^ 8 + byteAt data (o + 2)

def hdrType (data : Bytes) (o : Nat) : Nat := byteAt data (o + 3)

def hdrFlags (data : Bytes) (o : Nat) : Nat := byteAt data (o + 4)

/-- The stream id of the frame header at the offset `o`, without its reserved bit. -/
def hdrSid (data : Bytes) (o : Nat) : Nat :=
  (byteAt data (o + 5) * 2 ^ 24 + byteAt data (o + 6) * 2 ^ 16 + byteAt data (o + 7) * 2 ^ 8 +
    byteAt data (o + 8)) % 2 ^ 31

def newHttp2Frame (data : Bytes) (o : Nat) : Http2Frame where
  sid := hdrSid data o
  type := hdrType data o
  flags := hdrFlags data o
  dtCountBefore := 0
  dtCount := 0
  len := hdrLen data o
  need := 0

/-- Whether a frame is padded. Of the frames a header block is sent in, only the HEADERS frame
may be padded and carry a priority. -/
def isPadded (isHdr : Bool) (flags : Nat) : Bool :=
  isHdr && decide (flags &&& http2PaddedFlag ≠ 0)

/-- The number of bytes that pad the frame at the offset `o`. -/
def padLen (data : Bytes) (o : Nat) (isHdr : Bool) (flags : Nat) : Nat :=
  if isPadded isHdr flags then byteAt data (o + http2FrameHdrLen) else 0

/-- The offset in a frame that its part of the header block starts at. -/
def blockStart (isHdr : Bool) (flags : Nat) : Nat :=
  http2FrameHdrLen + (if isPadded isHdr flags then 1 else 0) +
    (if isHdr && decide (flags &&& http2PriorityFlag ≠ 0) then http2PriorityLen else 0)

/-- The offsets of the header block of the frame at `data`, which are kept in 16 bits. -/
def http2Block (data : Bytes) (len type flags : Nat) : Except Errno (Nat × Nat) :=
  let isHdr := decide (type = http2HeadersFrame)
  if isPadded isHdr flags ∧ data.length < http2FrameHdrLen + 1 then .error .EFAULT
  else if http2FrameHdrLen + len < blockStart isHdr flags + padLen data 0 isHdr flags then
    .error .EBADMSG
  else
    .ok (blockStart isHdr flags, (http2FrameHdrLen + len - padLen data 0 isHdr flags) % 2 ^ 16)

/-- Whether a frame of `type` sent on the stream `sid`, at the start of a message, violates the
rules for the frames a header block is sent in. -/
def violatesBlockRules (type sid : Nat) : Bool :=
  decide (type = http2ContinuationFrame ∨ type = http2HeadersFrame ∧ sid = 0)

def rejectFrame (frame : Http2Frame) (frameLen avail : Nat) : Except Errno Nat × Http2Frame :=
  if frameLen ≤ avail then (.error .EPROTO, frame)
  else (.error .EAGAIN, { frame with need := frameLen })

/-- Whether a frame carries anything the parser needs to read. -/
def isParsedFrame (type flags : Nat) : Bool :=
  decide (type = http2HeadersFrame ∨ type = http2ContinuationFrame ∨
    type = http2SettingsFrame ∧ flags = 0)

/-- Describes the dynamic table of `conn` for a frame that leaves it untouched. -/
def skipFrame (maps : Maps) (conn : Ip4Conn) (frame : Http2Frame) : Http2Frame :=
  let count := match maps.dynamicTableInfo.lookup conn with
    | some info => info.count
    | none => 0
  { frame with dtCountBefore := count, dtCount := count }

/-- What `_collect_block` reports in `struct collected_block`. -/
structure CollectedBlock where
  len : Nat
  need : Nat

/-- What `_collect_block` returns, reports and leaves in the buffer. -/
structure Collected where
  ret : Except Errno Nat
  blk : CollectedBlock
  buf : BlockBuf

/-- What a round of the loop of `_collect_block` comes to. -/
inductive CollectStep
  | stop (c : Collected)
  | next (o pos sid : Nat) (buf : BlockBuf)

/-- The checks on the frame at `o`, with `pos` bytes of the block copied so far. It is the frame of
the round `k = 0` if `first` is set. Returns the number of bytes it adds to the block, or an error
along with the number of bytes that are needed. -/
def checkFrame (data : Bytes) (off : Nat) (first : Bool) (o pos sid : Nat) :
    Except (Errno × Nat) Nat :=
  if maxBytes < o then .error (.E2BIG, 0)
  else if data.length < o + http2FrameHdrLen then .error (.EAGAIN, o - off + http2FrameHdrLen)
  else if ¬first ∧ (hdrType data o ≠ http2ContinuationFrame ∨ hdrSid data o ≠ sid) then
    .error (.EPROTO, 0)
  else
    let flags := hdrFlags data o
    let frameLen := http2FrameHdrLen + hdrLen data o
    if data.length < o + frameLen then .error (.EAGAIN, o - off + frameLen)
    else if isPadded first flags ∧ frameLen < http2FrameHdrLen + 1 then .error (.EBADMSG, 0)
    else if frameLen < blockStart first flags + padLen data o first flags then .error (.EBADMSG, 0)
    else
      let n := frameLen - padLen data o first flags - blockStart first flags
      if blockMaxlen < pos + n then .error (.E2BIG, 0) else .ok n

/-- The round of the loop of `_collect_block` that reads the frame at `o`. -/
def collectFrame (data : Bytes) (off : Nat) (first : Bool) (o pos sid : Nat) (buf : BlockBuf) :
    CollectStep :=
  match checkFrame data off first o pos sid with
  | .error (e, need) => .stop ⟨.error e, ⟨0, need⟩, buf⟩
  | .ok n =>
    let flags := hdrFlags data o
    let buf := buf.copy pos (slice data (o + blockStart first flags) n)
    let next := o + (http2FrameHdrLen + hdrLen data o)
    if flags &&& http2EndHeadersFlag ≠ 0 then
      .stop ⟨.ok (next - off), ⟨pos + n, 0⟩, { buf with len := pos + n }⟩
    else .next next (pos + n) (if first then hdrSid data o else sid) buf

/-- The loop of `_collect_block` with `rounds` rounds to go. -/
def collectLoop (data : Bytes) (off : Nat) :
    Nat → Bool → Nat → Nat → Nat → BlockBuf → Collected
  | 0, _, _, _, _, buf => ⟨.error .E2BIG, ⟨0, 0⟩, buf⟩
  | rounds + 1, first, o, pos, sid, buf =>
    match collectFrame data off first o pos sid buf with
    | .stop c => c
    | .next o pos sid buf => collectLoop data off rounds false o pos sid buf

/-- Puts the header block of the HEADERS frame `off` bytes into `data` together. A frame takes
up at least the 9 bytes of its header. -/
def collectBlock (data : Bytes) (off : Nat) (buf : BlockBuf) : Collected :=
  collectLoop data off (maxBytes / http2FrameHdrLen + 1) true off 0 0 buf

/-- What a parse leaves behind. -/
structure Parsed where
  ret : Except Errno Nat
  maps : Maps
  pres : HttpParseRes
  frame : Http2Frame
  nullPrefix : Option Nat

/-- Reads the header block of the HEADERS frame `off` bytes into `ctx`, which does not end it,
along with the CONTINUATION frames that carry it on. -/
def parseBlock (rd : Rodata) (maps : Maps) (ctx : MsgCtx) (off : Nat) (pres : HttpParseRes)
    (frame : Http2Frame) (nullPrefix : Option Nat) : Parsed :=
  let c := collectBlock ctx.data off maps.blockBuf
  let maps := { maps with blockBuf := c.buf }
  match c.ret with
  | .error e =>
    ⟨.error e, maps, pres, if e = .EAGAIN then { frame with need := c.blk.need } else frame,
      nullPrefix⟩
  | .ok total =>
    match getDynamicTable maps ctx.conn with
    | (none, maps) => ⟨.error .ENOSPC, maps, pres, frame, nullPrefix⟩
    | (some info, maps) =>
      let (res, st) := parseHdrBuf rd ctx maps.blockBuf c.blk.len
        ⟨maps.table info, pres, newHttp2ParseState .buf⟩
      let ret := match res with
        | .error e => .error e
        | .ok i => if i < c.blk.len then .error .EBADMSG else .ok total
      ⟨ret, maps.setTable ctx.conn st.table, st.pres,
        { frame with dtCountBefore := info.count, dtCount := st.table.info.count }, nullPrefix⟩

/-- Reads the header block a HEADERS frame carries whole. -/
def parseHdrFrame (rd : Rodata) (maps : Maps) (ctx : MsgCtx) (start stop : Nat)
    (pres : HttpParseRes) (nullPrefix : Option Nat) :
    Except Errno Nat × Maps × HttpParseRes × Option Nat :=
  match getDynamicTable maps ctx.conn with
  | (none, maps) => (.error .ENOSPC, maps, pres, nullPrefix)
  | (some info, maps) =>
    let (res, st, nullPrefix) := parseHdrFrom rd ctx maps.blockBuf start stop
      ⟨maps.table info, pres, newHttp2ParseState .msg⟩ nullPrefix
    (res, maps.setTable ctx.conn st.table, st.pres, nullPrefix)

/-- Reads the SETTINGS frame between the offsets `start` and `stop`. -/
def parseStgFrom (maps : Maps) (ctx : MsgCtx) (start stop : Nat) (nullPrefix : Option Nat) :
    Except Errno Nat × Maps × Option Nat :=
  let len := min (min ctx.data.length maxBytes) stop
  if ctx.data.length < 9 then (.ok 0, maps, nullPrefix)
  else match getDynamicTable maps ctx.conn with
  | (none, maps) => (.error .ENOSPC, maps, nullPrefix)
  | (some info, maps) =>
    let (res, st, nullPrefix) := parseStgLoop ctx.data (len - start) start start
      ⟨0, 0, 0, info.maxSize⟩ nullPrefix
    (res, maps.setTable ctx.conn ((maps.table info).setMaxSize st.maxSize), nullPrefix)

/-- Parses the frame that starts `off` bytes into `ctx`, whose payload is `len` bytes long. -/
def parseFrame (rd : Rodata) (maps : Maps) (ctx : MsgCtx) (off len type flags : Nat)
    (pres : HttpParseRes) (frame : Http2Frame) (nullPrefix : Option Nat) : Parsed :=
  if maxBytes < off then ⟨.error .E2BIG, maps, pres, frame, nullPrefix⟩
  else match http2Block (ctx.data.drop off) len type flags with
  | .error e => ⟨.error e, maps, pres, frame, nullPrefix⟩
  | .ok (start, stop) =>
    if maxBytes < off + stop then ⟨.error .E2BIG, maps, pres, frame, nullPrefix⟩
    else
      let start := start + off
      let stop := stop + off
      let (info, maps) := getDynamicTable maps ctx.conn
      let before := match info with
        | some info => info.count
        | none => 0
      let (res, maps, pres, nullPrefix) :=
        if type = http2SettingsFrame then
          let (res, maps, nullPrefix) := parseStgFrom maps ctx start stop nullPrefix
          (res, maps, pres, nullPrefix)
        else parseHdrFrame rd maps ctx start stop pres nullPrefix
      let after := match info, maps.dynamicTableInfo.lookup ctx.conn with
        | some _, some info => info.count
        | _, _ => 0
      let ret := match res with
        | .error e => .error e
        | .ok res => if res < stop - 1 then .error .EBADMSG else .ok 0
      ⟨ret, maps, pres, { frame with dtCountBefore := before, dtCount := after }, nullPrefix⟩

end Beeper.Http2
