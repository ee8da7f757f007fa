import Beeper.Message
import Beeper.Scan

namespace Beeper.Http1

/-- The kinds of actions. `HTTP1A_NONE` is the absence of one. -/
inductive Kind
  | startCapture
  | endCapture
deriving DecidableEq, Repr

/-- Terminates parsing and skips the remainder of the message. -/
def fDone : Nat := 1 <<< 0

/-- An action as the parser program reads it. -/
structure Http1Action where
  kind : Option Kind
  flags : Nat
  mid : Nat
deriving DecidableEq

def maxStates : Nat := 512
def maxEdges : Nat := 257
def anyEdge : Nat := 256
def maxActions : Nat := 256

/-- The state the DFA initiates parsing with. -/
def sInit : StateId := 0

/-- The fallback state, to which all edges lead to if no input matched. -/
def sAny : StateId := 1

/-- What user space loads before the parser program runs: the edges of the DFA and their
actions. -/
structure Rodata where
  states : Nat → Nat → Trans
  actions : Nat → Http1Action

/-- Reads the action an edge carries. -/
def Rodata.action (rd : Rodata) (id : Nat) : Http1Action := rd.actions (id % maxActions)

/-- Follows the edge `input` takes out of `state`. A state without one falls back to the one
matching any byte, and if it has none either, back to the fallback state. -/
def Rodata.next (rd : Rodata) (state input : Nat) : StateId × Nat :=
  let t := rd.states (state % maxStates) input
  if t.state = 0 ∧ t.action = 0 then
    let t := rd.states (state % maxStates) anyEdge
    if t.state = 0 ∧ t.action = 0 then (sAny, 0) else (t.state, t.action)
  else (t.state, t.action)

/-- Follows the edge of a byte, which the fallback state reads once more. -/
def Rodata.follow (rd : Rodata) (state input : Nat) : StateId × Nat :=
  let t := rd.next state input
  if t.1 = sAny then rd.next sAny input else t

/-- What a walk over the DFA carries along: the captures, the start of every open one, and the
state. -/
structure Walk where
  pres : HttpParseRes
  cidx : Fin maxMatches → Nat
  s : StateId

/-- A walk that starts out in the initial state. -/
def Walk.start (pres : HttpParseRes) : Walk := ⟨pres, fun _ => 0, sInit⟩

/-- The range that ends with the byte at `i`. -/
def rangeTo (cidx i : Nat) : HttpMatch :=
  ⟨UInt16.ofNat cidx, UInt16.ofNat (u32Sub i cidx + 1), .msg, false⟩

/-- Runs the action of an edge that the byte at `i` took. -/
def Walk.act (w : Walk) (i : Nat) (act : Http1Action) : Walk :=
  match act.kind with
  | none => w
  | some .startCapture =>
    { w with cidx := Function.update w.cidx (Fin.ofNat maxMatches act.mid) (i + 1) }
  | some .endCapture =>
    { w with pres := w.pres.set act.mid (rangeTo (w.cidx (Fin.ofNat maxMatches act.mid)) i) }

/-- Walks over the byte at `i`, and tells whether the DFA is done. -/
def parseByte (rd : Rodata) (i : Nat) (c : UInt8) (w : Walk) : Walk × Bool :=
  let t := rd.follow w.s c.toNat
  let act := rd.action t.2
  ({ w.act i act with s := t.1 }, decide (act.flags &&& fDone ≠ 0))

/-- The loop of `_parse_from`, with `n` rounds to go. Returns the number of bytes consumed, if the
DFA is done. -/
def parseLoop (rd : Rodata) (data : Bytes) :
    Nat → Nat → Walk → Option Nat → Option Nat × Walk × Option Nat
  | 0, _, w, nullPrefix => (none, w, nullPrefix)
  | n + 1, i, w, nullPrefix =>
    match data[i]? with
    | none => (none, w, nullPrefix)
    | some c =>
      -- skb clears the TLS header, but does not remove it
      if c = 0 ∧ nullPrefix = some i then parseLoop rd data n (i + 1) w (some (i + 1))
      else
        let (w, done) := parseByte rd i c w
        if done then (some (i + 1), w, nullPrefix) else parseLoop rd data n (i + 1) w nullPrefix

/-- Walks the DFA over `data` from the offset `start` on. Returns the number of bytes consumed, or
its negative if data ran out. -/
def parseFrom (rd : Rodata) (data : Bytes) (start : Nat) (w : Walk) (nullPrefix : Option Nat) :
    Int × Walk × Option Nat :=
  let len := min data.length maxBytes
  if len ≤ start then (0, w, nullPrefix)
  else
    let (res, w, nullPrefix) := parseLoop rd data (len + 1 - start) start w nullPrefix
    ((res.map Int.ofNat).getD (-len), w, nullPrefix)

/-- What `parse_msg` returns and leaves behind, the message with the range it pulled in
included. -/
structure ParsedMsg where
  ret : Except Errno Nat
  pres : HttpParseRes
  msg : SkMsg

/-- The return value once parsing has come to `res`. -/
def parseRet (res : Int) (size : Nat) : Except Errno Nat :=
  if 0 < res then .ok res.toNat else .error (if maxBytes ≤ size then .E2BIG else .EAGAIN)

/-- Parses the header block of the message. Only its linear part is parsed at first; if the DFA is
not done by the end of it, the whole message is pulled in and parsing resumes where it stopped. -/
def parseMsg (rd : Rodata) (msg : SkMsg) (pres : HttpParseRes) : ParsedMsg :=
  let size := msg.bytes.length
  let (res, w, _) := parseFrom rd msg.data 0 (.start pres) none
  if res < 0 ∧ -res < size then
    match msg.pullData size with
    | none => ⟨.error .EFAULT, w.pres, msg⟩
    | some msg =>
      let (res, w, _) := parseFrom rd msg.data (-res).toNat w none
      ⟨parseRet res size, w.pres, msg⟩
  else ⟨parseRet res size, w.pres, msg⟩

/-- What `parse_skb` returns and leaves behind. -/
structure ParsedSkb where
  ret : Except Errno Nat
  pres : HttpParseRes
  nullPrefix : Option Nat
  skb : SkBuff

/-- Parses the header block of the message that starts `off` bytes into the packet. The captured
ranges are offsets into the sk_buff, the return value is counted from the start of the message. -/
def parseSkb (rd : Rodata) (skb : SkBuff) (off : Nat) (pres : HttpParseRes)
    (nullPrefix : Option Nat) : ParsedSkb :=
  let len := skb.bytes.length
  if maxBytes ≤ off then ⟨.error .E2BIG, pres, nullPrefix, skb⟩
  else if len < off then ⟨.error .EINVAL, pres, nullPrefix, skb⟩
  else if off = len then ⟨.error .EAGAIN, pres, nullPrefix, skb⟩
  else
    match if skb.linear < len then skb.pullData len else some skb with
    | none => ⟨.error .EFAULT, pres, nullPrefix, skb⟩
    | some skb =>
      let (res, w, nullPrefix) := parseFrom rd skb.data off (.start pres) nullPrefix
      ⟨if 0 < res then .ok (res - off).toNat
        else .error (if maxBytes ≤ len then .E2BIG else .EAGAIN), w.pres, nullPrefix, skb⟩

/-- Whether the parser captured a range for the match `idx`. -/
def matched (pres : HttpParseRes) (idx : Nat) : Bool :=
  if maxMatches ≤ idx then false else decide (0 < (pres.get idx).len)

/-- The range captured for the match `idx`, out of the linear part of the message. -/
def getMatch (data : Bytes) (pres : HttpParseRes) (idx : Nat) : Except Errno Bytes :=
  if maxMatches ≤ idx then .error .EINVAL
  else
    let m := pres.get idx
    if m.len = 0 then .error .ENOENT
    else if data.length < m.idx.toNat + m.len.toNat then .error .EFAULT
    else .ok (slice data m.idx.toNat m.len.toNat)

def getMatchMsg (msg : SkMsg) (pres : HttpParseRes) (idx : Nat) : Except Errno Bytes :=
  getMatch msg.data pres idx

/-- Same as `getMatchMsg`, for a match taken out of an sk_buff. -/
def getMatchSkb (skb : SkBuff) (pres : HttpParseRes) (idx : Nat) : Except Errno Bytes :=
  getMatch skb.data pres idx

end Beeper.Http1
