import Beeper.Cork
import Beeper.Http2Parser
import Beeper.MessageExtension
import Beeper.Verdict

namespace Beeper.Monitor

/-- What user space sets before the monitor is loaded: the address of the server, the parsers the
functions of the program are replaced with, and the matches that the one for HTTP/1 handed out. -/
structure Config where
  server : Ip4Addr
  h1PrefaceMid : MatchId
  h1PathMid : MatchId
  h1AcceptLanguageMid : MatchId
  h1StatusMid : MatchId
  http1 : Http1.Rodata
  http2 : Http2.Rodata

structure State where
  upgradedConns : Prog.UpgradedConns
  sockMap : BoundedMap Ip4Conn Nat Prog.maxConns
  maps : Http2.Maps

def State.init : State := ⟨.empty, .empty, .init⟩

/-- What the monitor logs. Each line holds the fields that go into it as text. -/
inductive Line
  | request (path : Bytes) (acceptLanguage : Option Bytes)
  | response (status body : Bytes)
  | data (isDownstream : Bool) (sid : Nat) (body : Bytes)
  | frame (isDownstream : Bool) (sid type : Nat)
  | protocolError (isDownstream : Bool) (sid : Nat)
  | parseFailed
deriving DecidableEq

/-- The size of the buffer a value is copied into before it is logged. -/
def fieldMaxlen : Nat := 128

def http2DataFrame : Nat := 0x00

/-- What the kernel keeps in memory behind the data of a message. -/
abbrev Behind := SkMsg → Nat → UInt8

/-- The memory that a message lies in, counted from the start of its data. -/
def memory (behind : Behind) (msg : SkMsg) (i : Nat) : UInt8 := (msg.data[i]?).getD (behind msg i)

/-- Copies up to `fieldMaxlen - 1` of the `len` bytes at the offset `off` and terminates them. -/
def copyBounded (mem : Nat → UInt8) (off len : Nat) : Bytes :=
  ((List.range (min len (fieldMaxlen - 1))).map fun i => mem (off + i)) ++ [0]

/-- What `%s` shows of a buffer. -/
def text (buf : Bytes) : Bytes := buf.takeWhile fun c => c ≠ 0

/-- A value that was found for a match, as it is logged. -/
def valueText (v : Bytes) : Bytes := text (copyBounded (fun i => (v[i]?).getD 0) 0 v.length)

/-- Logs a request: its path and its Accept-Language header, if it sent one. -/
def logHttp1Request (cfg : Config) (get : Nat → Except Errno Bytes) : List Line :=
  match get cfg.h1PathMid with
  | .error _ => []
  | .ok path =>
    [.request (valueText path) (match get cfg.h1AcceptLanguageMid with
      | .error _ => none
      | .ok lang => some (valueText lang))]

/-- Logs a response: its status and its body, which sits right behind the header block. -/
def logHttp1Response (cfg : Config) (behind : Behind) (msg : SkMsg)
    (get : Nat → Except Errno Bytes) (hdrLen : Nat) : List Line :=
  match get cfg.h1StatusMid with
  | .error _ => []
  | .ok status =>
    [.response (valueText status)
      (text (copyBounded (memory behind msg) hdrLen (msg.bytes.length - hdrLen)))]

/-- Logs an HTTP/2 frame: its type and stream, or the body of a DATA frame. -/
def logHttp2Frame (behind : Behind) (msg : SkMsg) (frame : Http2.Http2Frame) (frameLen : Nat)
    (isDownstream : Bool) : Line :=
  if frame.type = http2DataFrame then
    .data isDownstream frame.sid (text (copyBounded (memory behind msg) 9 (frameLen - 9)))
  else .frame isDownstream frame.sid frame.type

/-- What the program leaves behind: the lines it logged, and the bytes it asked to cork and to apply
its verdict to. -/
structure Handled where
  state : State
  logged : List Line
  corkBytes : Option Nat
  applyBytes : Option Nat

/-- What the monitor does with a message of a connection that was upgraded. -/
def verdictHttp2 (cfg : Config) (s : State) (behind : Behind) (msg : SkMsg)
    (isDownstream : Bool) : Handled :=
  let p := Http2.parseMsg cfg.http2 s.maps msg .zero Prog.zeroFrame
  let s := { s with maps := p.maps }
  match p.ret with
  | .ok 0 => ⟨s, [], some 9, none⟩
  | .error .EAGAIN => ⟨s, [], some p.frame.need, none⟩
  -- a frame that breaks the rules for header blocks is skipped
  | .error .EPROTO =>
    ⟨s, [.protocolError isDownstream p.frame.sid], none, some (9 + p.frame.len)⟩
  | .error _ => ⟨s, [.parseFailed], none, none⟩
  | .ok len => ⟨s, [logHttp2Frame behind p.msg p.frame len isDownstream], none, some len⟩

/-- Marks both ends of a connection as HTTP/2. -/
def upgrade (s : State) (ikey : Ip4Conn) : State :=
  let conns := (s.upgradedConns.update ikey 1).getD s.upgradedConns
  { s with upgradedConns := (conns.update (Prog.reversed ikey) 1).getD conns }

/-- What it does with any other message, which may upgrade the connection. -/
def verdictHttp1 (cfg : Config) (s : State) (behind : Behind) (msg : SkMsg)
    (isDownstream : Bool) : Handled :=
  let p := Http1.parseMsg cfg.http1 msg .zero
  match p.ret with
  | .error _ => ⟨s, [], none, none⟩
  | .ok len =>
    if Http1.matched p.pres cfg.h1PrefaceMid then ⟨upgrade s msg.conn, [], none, some 24⟩
    else
      let get := Http1.getMatchMsg p.msg p.pres
      ⟨s, if isDownstream then logHttp1Request cfg get
        else logHttp1Response cfg behind p.msg get len, none, some len⟩

/-- The monitor at the `sk_msg` hook. -/
def msgVerdict (cfg : Config) (s : State) (behind : Behind) (msg : SkMsg) : Handled :=
  let isDownstream := decide (msg.conn.remoteAddr = cfg.server)
  match s.upgradedConns.lookup msg.conn with
  | some _ => verdictHttp2 cfg s behind msg isDownstream
  | none => verdictHttp1 cfg s behind msg isDownstream

/-- Adds both ends of every connection to the server to `sockMap`. -/
def monitorSockets (cfg : Config) (s : State) (op : Prog.SockOp) (skey : Ip4Conn) : State :=
  match op with
  | .established =>
    if skey.remoteAddr = cfg.server ∨ skey.localAddr = cfg.server then
      { s with sockMap := (s.sockMap.update skey 0).getD s.sockMap }
    else s
  | _ => s

/-- The name of the header that is logged. -/
def acceptLanguage : Bytes := ascii "accept-language"

/-- How user space configures the parser for HTTP/1: with the preface, the path, the language and the
status, in this order. -/
def h1Parser : Except Error (Http1.Parser × List MatchId) := do
  let (prefaceMid, h1) ← Http1.Parser.new.matchHttp2Preface
  let (pathMid, h1) ← h1.captureHdr Http1.pseudoPath
  let (langMid, h1) ← h1.captureHdr acceptLanguage
  let (statusMid, h1) ← h1.captureHdr Http1.pseudoStatus
  .ok (h1, [prefaceMid, pathMid, langMid, statusMid])

/-- The monitor is loaded with these parsers: one for HTTP/1 that hands out the matches, and one for
HTTP/2 that captures nothing. -/
def Attaches (encode : Bytes → Option Bytes) (cfg : Config) : Prop :=
  (∃ h1 h1', h1Parser = .ok (h1, [cfg.h1PrefaceMid, cfg.h1PathMid, cfg.h1AcceptLanguageMid,
      cfg.h1StatusMid]) ∧ h1.doneOnHdrEnd = .ok h1' ∧ Http1.Injects h1'.dfa cfg.http1) ∧
    Http2.Attached encode [] cfg.http2

/-- What the monitor asks the kernel for with a message: to hold bytes back until there are so many, or
to run it again behind so many of them. Where it asks for neither, the message passes as a whole, and
what is sent behind it is not followed here. -/
def turn (cfg : Config) (conn : Ip4Conn) (behind : Behind) (s : State) (bytes : Bytes) :
    Cork.Turn State (List Line) :=
  let h := msgVerdict cfg s behind (Http2.linearMsg bytes conn true)
  match h.corkBytes, h.applyBytes with
  | some need, _ => .wait need h.state
  | none, some len => .take h.logged len h.state
  | none, none => .fail h.logged h.state

end Beeper.Monitor
