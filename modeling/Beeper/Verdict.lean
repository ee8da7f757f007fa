import Beeper.Http1Parser
import Beeper.Http1Walk
import Beeper.ParseMessage

namespace Beeper.Prog

/-- What user space sets before the program is loaded: the address of the server under test, which
direction is parsed and at which hook, and the parsers the functions of the program are replaced
with. -/
structure Config where
  server : Ip4Addr
  httpParseResp : Bool
  httpParseBoth : Bool
  hookSkb : Bool
  http1 : Http1.Rodata
  http2 : Http2.Rodata

def maxConns : Nat := 16384

abbrev UpgradedConns := BoundedMap Ip4Conn Nat maxConns

/-- The length of a value in `matches`. -/
def matchLen : Nat := 128

abbrev Matches := BoundedMap Nat Bytes maxMatches

/-- The maps and variables of the program, the tables of the HTTP/2 parser included. -/
structure State where
  upgradedConns : UpgradedConns
  numUpgradedConns : Nat
  sockMap : BoundedMap Ip4Conn Nat maxConns
  captured : Matches
  lastMatches : Nat
  lastDtCountBefore : Nat
  lastDtCount : Nat
  lastHttp1Result : Except Errno Nat
  maps : Http2.Maps

def State.init : State := ⟨.empty, 0, .empty, .empty, 0, 0, 0, .ok 0, .init⟩

/-- What a `parse_result` reports. -/
inductive ResultKind
  | resultOpen
  | resultClose
  | resultFrame
  | resultMark
deriving DecidableEq

/-- The length of a captured value that is written to `results`. -/
def resultValLen : Nat := 128

/-- An entry of `results`. Of a value that was captured it holds the full length and the first
`resultValLen` bytes. -/
structure ParseResult where
  kind : ResultKind
  clientPort : Nat
  upstream : Bool
  ret : Except Errno Nat
  sid : Nat
  type : Nat
  flags : Nat
  vals : Fin maxMatches → Option (Nat × Bytes)

/-- What a program leaves behind: the entries it wrote to `results`, and the bytes it asked to cork
and to apply its verdict to. -/
structure Handled where
  state : State
  written : List ParseResult
  corkBytes : Option Nat
  applyBytes : Option Nat

/-- The port of the client's end of `conn`, which one of its ends sees. -/
def clientPort (conn : Ip4Conn) (isServer : Bool) : Nat :=
  if isServer then conn.remoteAddr.port else conn.localAddr.port

/-- An open or close event of `conn`, if `results` has `room` for it. -/
def emitConn (room : Bool) (kind : ResultKind) (conn : Ip4Conn) (isServer : Bool) :
    List ParseResult :=
  if room then [⟨kind, clientPort conn isServer, isServer, .ok 0, 0, 0, 0, fun _ => none⟩] else []

/-- The match ids of the message that was parsed last, one bit per id. -/
@[irreducible] def storeMatched (matched : Nat → Bool) : Nat :=
  (List.range maxMatches).foldl (fun mask i => if matched i then mask ||| 1 <<< i else mask) 0

/-- The bytes of a value that `matches` keeps, filled up with zeros. -/
def matchBytes (str : Bytes) : Bytes :=
  let len := min (str.length % 2 ^ 16) matchLen
  str.take len ++ List.replicate (matchLen - len) 0

/-- Stores the value found for the match `i`, or clears it if there is none. -/
def storeMatch (m : Matches) (i : Nat) (res : Except Errno Bytes) : Matches :=
  match res with
  | .error _ => m.erase i
  | .ok str => (m.update i (matchBytes str)).getD m

@[irreducible] def storeAll (m : Matches) (get : Nat → Except Errno Bytes) : Matches :=
  (List.range maxMatches).foldl (fun m i => storeMatch m i (get i)) m

@[irreducible] def eraseAll (m : Matches) : Matches :=
  (List.range maxMatches).foldl (fun m i => m.erase i) m

def storeMatches (s : State) (matched : Nat → Bool) (get : Nat → Except Errno Bytes) : State :=
  { s with
    lastMatches := storeMatched matched
    captured := storeAll s.captured get }

/-- A failed parse does not leave captures from the preceding frame visible. -/
def clearMatches (s : State) : State :=
  { s with
    lastMatches := 0
    captured := eraseAll s.captured }

/-- The values of a frame, which are copied into its entry as far as they were found. -/
def frameValues (get : Nat → Except Errno Bytes) (i : Fin maxMatches) : Option (Nat × Bytes) :=
  match get i with
  | .error _ => none
  | .ok str => some (str.length, str.take resultValLen)

/-- The entry of `results` for a frame, if there is `room` for it. -/
def newFrameResult (room : Bool) (conn : Ip4Conn) (upstream : Bool) (ret : Except Errno Nat)
    (frame : Http2.Http2Frame) (vals : Fin maxMatches → Option (Nat × Bytes)) : List ParseResult :=
  if room then [⟨.resultFrame, clientPort conn upstream, upstream, ret, frame.sid, frame.type,
    frame.flags, vals⟩] else []

/-- Whether `type` is one of the frames a header block is sent in. -/
def isHeaderFrame (type : Nat) : Bool := decide (type = 0x1 ∨ type = 0x9)

/-- The connection as its other end sees it. -/
def reversed (conn : Ip4Conn) : Ip4Conn := ⟨conn.remoteAddr, conn.localAddr⟩

/-- Marks the connection `conn` is one end of as HTTP/2, under the keys of both of its ends. -/
def upgradeConn (s : State) (conn : Ip4Conn) : State :=
  let conns := (s.upgradedConns.update conn 1).getD s.upgradedConns
  { s with
    upgradedConns := (conns.update (reversed conn) 1).getD conns
    numUpgradedConns := u32 (s.numUpgradedConns + 1) }

def zeroFrame : Http2.Http2Frame := ⟨0, 0, 0, 0, 0, 0, 0⟩

/-- What the program does with a message of a connection that was upgraded. -/
def verdictHttp2 (cfg : Config) (s : State) (msg : SkMsg) (upstream room : Bool) : Handled :=
  let p := Http2.parseMsg cfg.http2 s.maps msg .zero zeroFrame
  let s := { s with maps := p.maps }
  match p.ret with
  | .ok 0 => ⟨s, [], some Http2.http2FrameHdrLen, none⟩
  | .error .EAGAIN => ⟨s, [], some p.frame.need, none⟩
  | .error e =>
    -- a frame that breaks the rules for header blocks is skipped, and the frames after it parsed on
    ⟨clearMatches s, newFrameResult room msg.conn upstream (.error e) p.frame fun _ => none, none,
      if e = .EPROTO then some (Http2.http2FrameHdrLen + p.frame.len) else none⟩
  | .ok len =>
    let get := Http2.getMatchMsg cfg.http2 p.maps p.msg p.pres
    let s := { s with lastDtCountBefore := p.frame.dtCountBefore, lastDtCount := p.frame.dtCount }
    let written := if isHeaderFrame p.frame.type then
      newFrameResult room msg.conn upstream (.ok len) p.frame (frameValues get) else []
    let s := if 9 < len then storeMatches s (Http2.matched p.pres) get else s
    ⟨s, written, none, some len⟩

/-- What it does with any other message, which may upgrade the connection. -/
def verdictHttp1 (cfg : Config) (s : State) (msg : SkMsg) : Handled :=
  let p := Http1.parseMsg cfg.http1 msg .zero
  let s := { s with lastHttp1Result := p.ret }
  let store (s : State) : State :=
    let s := if Http1.matched p.pres 0 then upgradeConn s msg.conn else s
    storeMatches s (Http1.matched p.pres) (Http1.getMatchMsg p.msg p.pres)
  match p.ret with
  | .ok len => ⟨store s, [], none, if 0 < len then some len else none⟩
  | .error .E2BIG => ⟨store s, [], none, none⟩
  | .error _ => ⟨s, [], none, none⟩

/-- Whether messages that travel downstream, or upstream, are left alone. -/
def Config.skips (cfg : Config) (isDownstream : Bool) : Bool :=
  !cfg.httpParseBoth && isDownstream == cfg.httpParseResp

/-- The program at the `sk_msg` hook. -/
def msgVerdict (cfg : Config) (s : State) (msg : SkMsg) (room : Bool) : Handled :=
  let isDownstream := decide (msg.conn.remoteAddr = cfg.server)
  if cfg.skips isDownstream then ⟨s, [], none, none⟩
  else match s.upgradedConns.lookup msg.conn with
  | some _ => verdictHttp2 cfg s msg (!isDownstream) room
  | none => verdictHttp1 cfg s msg

/-- The length of the HTTP/2 preface. -/
def http2PrefaceLen : Nat := 24

/-- The most CONTINUATION frames that go into one message along with the HEADERS frame of their
block. -/
def maxContinuations : Nat := 256

/-- Whether `bpf_skb_load_bytes` reads `len` bytes at the offset `o`, wherever they are kept. -/
def loads (bytes : Bytes) (o len : Nat) : Bool :=
  decide (o ≤ 2 ^ 31 - 1) && decide (o + len ≤ bytes.length)

/-- The rounds of `h2MsgLen` from the one with the number `k` on. A frame header is only read up to
offsets that leave room for any frame in 32 bits. -/
def h2MsgLenLoop (bytes : Bytes) (off : Nat) : Nat → Nat → Nat → Nat
  | 0, _, o => o - off
  | rounds + 1, k, o =>
    let type := Http2.hdrType bytes o
    let next := o + (Http2.http2FrameHdrLen + Http2.hdrLen bytes o)
    if !loads bytes o 5 then 0
    else if 0 < k ∧ type ≠ 0x9 then o - off
    else if (k = 0 ∧ type ≠ 0x1) ∨ Http2.hdrFlags bytes o &&& 0x4 ≠ 0 then next - off
    else h2MsgLenLoop bytes off rounds (k + 1) next

/-- The length of the HTTP/2 message `off` bytes into an sk_buff: a frame, or a HEADERS frame that
does not end its header block along with the CONTINUATION frames that carry it on. -/
def h2MsgLen (bytes : Bytes) (off : Nat) : Nat :=
  h2MsgLenLoop bytes off (maxContinuations + 1) 0 off

/-- Cuts what arrives on a socket into the messages `skbVerdict` parses. -/
def skbParser (s : State) (skb : SkBuff) (off : Nat) : Nat :=
  if skb.bytes.length ≤ off then 0
  else match s.upgradedConns.lookup skb.conn with
  | some _ => h2MsgLen skb.bytes off
  | none =>
    if loads skb.bytes off http2PrefaceLen ∧ slice skb.bytes off http2PrefaceLen = Http1.http2Preface
    then http2PrefaceLen else skb.bytes.length - off

/-- What the program does with the message `off` bytes into an sk_buff of a connection that was
upgraded. Its results are keyed the way the sending end sees the connection. -/
def skbVerdictHttp2 (cfg : Config) (s : State) (skb : SkBuff) (off : Nat) (upstream room : Bool) :
    Handled :=
  let p := Http2.parseSkb cfg.http2 s.maps skb off .zero zeroFrame none
  let s := { s with maps := p.maps }
  let skey := reversed skb.conn
  match p.ret with
  | .error e =>
    ⟨clearMatches s, newFrameResult room skey upstream (.error e) p.frame fun _ => none, none, none⟩
  | .ok len =>
    let get := Http2.getMatchSkb cfg.http2 p.maps p.skb p.pres
    let s := { s with lastDtCountBefore := p.frame.dtCountBefore, lastDtCount := p.frame.dtCount }
    let written := if isHeaderFrame p.frame.type then
      newFrameResult room skey upstream (.ok len) p.frame (frameValues get) else []
    let s := if 9 < len then storeMatches s (Http2.matched p.pres) get else s
    ⟨s, written, none, none⟩

def skbVerdictHttp1 (cfg : Config) (s : State) (skb : SkBuff) (off : Nat) : Handled :=
  let p := Http1.parseSkb cfg.http1 skb off .zero none
  match p.ret with
  | .error _ => ⟨s, [], none, none⟩
  | .ok _ =>
    let s := if Http1.matched p.pres 0 then upgradeConn s skb.conn else s
    ⟨storeMatches s (Http1.matched p.pres) (Http1.getMatchSkb p.skb p.pres), [], none, none⟩

/-- The program at the `sk_skb` hook, for the messages a stream parser cut out of what arrived. -/
def skbVerdict (cfg : Config) (s : State) (skb : SkBuff) (off : Nat) (room : Bool) : Handled :=
  -- what arrives at the server is travelling downstream
  let isDownstream := decide (skb.conn.localAddr = cfg.server)
  if cfg.skips isDownstream then ⟨s, [], none, none⟩
  else match s.upgradedConns.lookup skb.conn with
  | some _ => skbVerdictHttp2 cfg s skb off (!isDownstream) room
  | none => skbVerdictHttp1 cfg s skb off

/-- What a socket reports of a change of its state. -/
inductive SockOp
  | tcpClose
  | established
  | other
deriving DecidableEq

/-- Follows the sockets of the server under test. -/
def monitorSockets (cfg : Config) (s : State) (op : SockOp) (conn : Ip4Conn) (room : Bool) :
    Handled :=
  let isClient := decide (conn.remoteAddr = cfg.server)
  let isServer := decide (conn.localAddr = cfg.server)
  match op with
  | .tcpClose =>
    -- a socket leaves the sock map by itself as it closes
    let s := { s with sockMap := s.sockMap.erase conn }
    if isClient || isServer then
      ⟨{ s with upgradedConns := s.upgradedConns.erase conn },
        emitConn room .resultClose conn isServer, none, none⟩
    else ⟨s, [], none, none⟩
  | .established =>
    let parsedHere := if cfg.httpParseBoth then isClient || isServer
      else if cfg.hookSkb then (if cfg.httpParseResp then isClient else isServer)
      else (if cfg.httpParseResp then isServer else isClient)
    let written := if isClient || isServer then emitConn room .resultOpen conn isServer else []
    let sockMap := if parsedHere then (s.sockMap.update conn 0).getD s.sockMap else s.sockMap
    ⟨{ s with sockMap := sockMap }, written, none, none⟩
  | .other => ⟨s, [], none, none⟩

end Beeper.Prog
