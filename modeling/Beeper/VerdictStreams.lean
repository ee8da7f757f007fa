import Beeper.RefusedStreams
import Beeper.Verdict

namespace Beeper.Prog

open Http2 (Outcome skipTurn SameTables linearMsg parseLinear http2FrameHdrLen)

variable {cfg : Config} {conn : Ip4Conn} {pullable : Bool}

theorem verdictHttp2_upgraded (cfg : Config) (s : State) (msg : SkMsg) (upstream room : Bool) :
    (verdictHttp2 cfg s msg upstream room).state.upgradedConns = s.upgradedConns := by
  unfold verdictHttp2
  simp only
  split
  · rfl
  · rfl
  · rfl
  · split <;> rfl

/-- The program while it parses what one end of a connection sends as HTTP/2. -/
structure Parsing (cfg : Config) (conn : Ip4Conn) where
  state : State
  upgraded : (state.upgradedConns.lookup conn).isSome
  parsed : cfg.skips (decide (conn.remoteAddr = cfg.server)) = false

/-- The direction that the messages of such a connection travel in. -/
def Parsing.upstream (_ : Parsing cfg conn) : Bool := !decide (conn.remoteAddr = cfg.server)

theorem Parsing.verdict (s : Parsing cfg conn) {msg : SkMsg} (hconn : msg.conn = conn) (room : Bool) :
    msgVerdict cfg s.state msg room = verdictHttp2 cfg s.state msg s.upstream room := by
  obtain ⟨flag, hflag⟩ := Option.isSome_iff_exists.mp s.upgraded
  subst hconn
  unfold msgVerdict
  simp only [s.parsed, Bool.false_eq_true, if_false, hflag]
  rfl

/-- The program after one more message, which leaves the connection upgraded. -/
def Parsing.next (s : Parsing cfg conn) (bytes : Bytes) (pullable : Bool) : Parsing cfg conn where
  state := (msgVerdict cfg s.state (linearMsg bytes conn pullable) true).state
  upgraded := by
    rw [s.verdict rfl, verdictHttp2_upgraded]
    exact s.upgraded
  parsed := s.parsed

/-- What a reader learns from a message: the entries written to `results`, and the dynamic
tables. -/
structure Report where
  written : List ParseResult
  dynamicTable : Http2.DynamicTableMap
  dynamicTableInfo : Http2.DynamicTableInfoMap

/-- What the program asks the kernel for with a message: to hold bytes back until there are so many, or
to apply its verdict to so many and run it again behind them. Where it asks for neither, a message
failed to parse and passes as a whole; what is sent behind it is not followed here, since how much of
it passed along is up to how it was cut. -/
def verdictTurn (cfg : Config) (conn : Ip4Conn) (pullable : Bool) (s : Parsing cfg conn)
    (bytes : Bytes) : Cork.Turn (Parsing cfg conn) Report :=
  let h := msgVerdict cfg s.state (linearMsg bytes conn pullable) true
  let report : Report := ⟨h.written, h.state.maps.dynamicTable, h.state.maps.dynamicTableInfo⟩
  match h.corkBytes, h.applyBytes with
  | some need, _ => .wait need (s.next bytes pullable)
  | none, some len => .take report len (s.next bytes pullable)
  | none, none => .fail report (s.next bytes pullable)

/-- The report of a parse. -/
def reportOf (conn : Ip4Conn) (upstream : Bool) (o : Outcome) : Report where
  written :=
    match o.ret with
    | .error e => newFrameResult true conn upstream (.error e) o.frame fun _ => none
    | .ok len => if isHeaderFrame o.frame.type then
        newFrameResult true conn upstream (.ok len) o.frame (frameValues o.captures) else []
  dynamicTable := o.dynamicTable
  dynamicTableInfo := o.dynamicTableInfo

theorem verdictHttp2_maps (cfg : Config) (s : State) (msg : SkMsg) (upstream room : Bool) :
    (verdictHttp2 cfg s msg upstream room).state.maps =
      (Http2.parseMsg cfg.http2 s.maps msg .zero zeroFrame).maps := by
  unfold verdictHttp2
  simp only
  split
  · rfl
  · rfl
  · rfl
  · split <;> rfl

/-- The turns of the program are those of a caller that passes over the frames that break the rules
for header blocks. -/
theorem verdictTurn_views (cfg : Config) (conn : Ip4Conn) (pullable : Bool) :
    Cork.Views (verdictTurn cfg conn pullable) (skipTurn cfg.http2 conn pullable zeroFrame)
      (fun s => s.state.maps) (reportOf conn (!decide (conn.remoteAddr = cfg.server))) := by
  intro s bytes
  have hv := @Parsing.verdict _ _ s (linearMsg bytes conn pullable) rfl true
  have hnext : (s.next bytes pullable).state.maps =
      (parseLinear cfg.http2 s.state.maps conn pullable zeroFrame bytes).maps :=
    (congrArg (fun h => h.state.maps) hv).trans (verdictHttp2_maps ..)
  have hmaps := verdictHttp2_maps cfg s.state (linearMsg bytes conn pullable) s.upstream true
  unfold verdictTurn skipTurn Cork.skipping Http2.corkTurn parseLinear
  unfold parseLinear at hnext
  simp only [hv, hmaps]
  unfold verdictHttp2
  generalize s.next bytes pullable = t at hnext
  generalize Http2.parseMsg cfg.http2 s.state.maps (linearMsg bytes conn pullable) .zero zeroFrame = p
    at hnext
  cases hret : p.ret with
  | ok len =>
    cases len with
    | zero =>
      simp only [hret]
      exact congrArg (Cork.Turn.wait http2FrameHdrLen) hnext
    | succ len =>
      simp only [hret, reportOf, Http2.outcome, Cork.Turn.map, id, hnext, linearMsg, Parsing.upstream]
  | error e =>
    cases e with
    | EAGAIN =>
      simp only [hret]
      exact congrArg (Cork.Turn.wait p.frame.need) hnext
    | EPROTO =>
      simp only [hret, reportOf, Http2.passOver, Http2.outcome, if_true, Cork.Turn.map, id, hnext,
        linearMsg, Parsing.upstream]
    | _ =>
      simp only [hret, reportOf, Http2.passOver, Http2.outcome, Except.error.injEq, reduceCtorEq,
        if_false, Cork.Turn.map, id, hnext, linearMsg, Parsing.upstream]

/-- Two states of the program in which the parser is left with the same tables. -/
def SameParse (s t : Parsing cfg conn) : Prop := SameTables s.state.maps t.state.maps

theorem verdictTurn_stable (cfg : Config) (conn : Ip4Conn) (pullable : Bool) :
    Cork.Stable (verdictTurn cfg conn pullable) SameParse :=
  (Http2.skipTurn_stable cfg.http2 conn pullable zeroFrame).of_views
    (verdictTurn_views cfg conn pullable)

/-- What the program reports of all that is sent on a connection that was upgraded, up to the first
message that fails to parse. -/
def reports (cfg : Config) (conn : Ip4Conn) (pullable : Bool) (s : Parsing cfg conn)
    (sent : Bytes) : List Report :=
  Cork.results (verdictTurn cfg conn pullable) (sent.length + 1) s sent

/-- However what is sent is cut into messages, the reports are the same. -/
theorem msgVerdict_reports (cfg : Config) (conn : Ip4Conn) (pullable : Bool)
    (s : Parsing cfg conn) (chunks : List Bytes) :
    Cork.feedAll (verdictTurn cfg conn pullable) (.start s) chunks =
      reports cfg conn pullable s chunks.flatten :=
  (verdictTurn_stable cfg conn pullable).feedAll_eq s chunks

end Beeper.Prog
