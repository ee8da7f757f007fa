import Beeper.HuffmanDecode
import Beeper.Loaded
import Beeper.MonitorText

namespace Beeper.Monitor

open Http1

variable {cfg : Config} {conn : Ip4Conn} {behind : Behind} {s : State} {x : HttpMessage}

/-- The header block of a request whose method the parser knows. -/
structure Request where
  method : Bytes
  target : Bytes
  startCr : Bool
  fields : List (FieldLine × Bool)
  lastCr : Bool
  known : upper method ∈ methods
  isToken : ∀ c ∈ method, isTokenChar c
  target_ne : target ≠ []
  target_free : ∀ c ∈ target, c ∉ ascii " \r\n"

def Request.start (r : Request) : Bytes := r.method ++ 0x20 :: (r.target ++ httpVersion)

theorem Request.no_space (r : Request) : ∀ c ∈ r.method, c ≠ 0x20 :=
  fun c hc => (Http1.isTokenChar_ne (r.isToken c hc)).1

theorem Request.isStart (r : Request) : StartLine r.start := by
  have hversion : httpVersion = 0x20 :: versionText 0x31 0x31 := by decide
  have hdigit : IsDigit 0x31 := by decide
  have hne : r.method ≠ [] := by
    intro hnil
    have hk := r.known
    rw [hnil] at hk
    exact absurd hk (by decide)
  unfold start
  rw [hversion]
  apply StartLine.request hne r.isToken r.target_ne r.target_free hdigit hdigit
  intro hpri
  have hup := Http1.upper_append r.method (0x20 :: (r.target ++ 0x20 :: versionText 0x31 0x31))
  have hsplit : prefaceLine = ascii "PRI" ++ 0x20 :: ascii "* HTTP/2.0" := by decide
  rw [hpri, hsplit] at hup
  have hmethod := (Http1.split_space (by decide +kernel) (Http1.upper_not_space r.no_space) hup).1
  have hk := r.known
  rw [← hmethod] at hk
  exact absurd hk (by decide +kernel)

/-- The message the header block is the start of. -/
def Request.message (r : Request) (body : Bytes) : HttpMessage :=
  ⟨r.start, r.startCr, r.fields, r.lastCr, body, r.isStart⟩

def Request.bytes (r : Request) : Bytes := (r.message []).block

/-- What is to be logged of a request: its path and its Accept-Language header. -/
def Request.line (r : Request) : Line :=
  .request (shown r.target) ((lastValue acceptLanguage r.fields).map shown)

theorem block_start (x : HttpMessage) : ∃ rest, x.block = x.start ++ rest := by
  unfold HttpMessage.block HttpMessage.front
  rw [Http1.joinLines_cons]
  exact ⟨_, by simp only [List.append_assoc]; rfl⟩

/-- No well-formed message upgrades a connection. -/
theorem Monitored.not_matched (h : Monitored cfg) (hlen : x.block.length ≤ maxBytes) (conn : Ip4Conn) :
    Http1.matched (parseMsg cfg.http1 (wholeMsg x.bytes conn) .zero).pres cfg.h1PrefaceMid = false := by
  obtain ⟨-, hpres, -⟩ := h.http1.message x hlen conn
  have hmem : (Item.preface, 0) ∈ h1Items := by decide
  obtain ⟨hseen, -⟩ := @Http1.Attached.walk_preface h1Items cfg.http1 0 0 h.http1 hmem
    (Nat.zero_le _) x.block
  have hnot := @HttpMessage.not_preface h1Items x []
  rw [List.append_nil] at hnot
  rw [h.prefaceMid, hpres, Bool.eq_false_iff, ne_eq, Http1.matched_iff]
  exact fun hm => hnot (hseen.mp hm)

/-- The path of a request. -/
theorem Monitored.path (h : Monitored cfg) (r : Request) (body : Bytes)
    (hlen : r.bytes.length ≤ maxBytes) (conn : Ip4Conn) :
    let p := parseMsg cfg.http1 (wholeMsg (r.message body).bytes conn) .zero
    Http1.getMatchMsg p.msg p.pres cfg.h1PathMid = .ok r.target := by
  have hmem : (Item.path, 1) ∈ h1Items := by decide
  obtain ⟨rest, hrest⟩ := block_start (r.message body)
  obtain ⟨-, hpres, -⟩ := h.http1.message (r.message body) hlen conn
  have hrange := (h.http1.walk_view hmem 0 (r.message body).block).2.trans
    (Http1.path_run (.inr ⟨1, hmem⟩) 0 _)
  have hstart : (r.message body).block = r.method ++ 0x20 :: (r.target ++ httpVersion ++ rest) := by
    rw [hrest]
    show r.start ++ rest = _
    unfold Request.start
    simp only [List.append_assoc, List.cons_append]
  let line : RequestLine (r.message body).block := ⟨r.method, r.target, rest, hstart, by
    intro hnil
    have hk := r.known
    rw [hnil] at hk
    exact absurd hk (by decide), r.isToken, r.target_ne, r.target_free⟩
  have hle : r.method.length + 1 + r.target.length ≤ (r.message body).block.length := by
    rw [hstart]
    simp only [List.length_append, List.length_cons]
    omega
  have hbytes : (r.message body).block.length ≤ (r.message body).bytes.length := by
    rw [HttpMessage.bytes, List.length_append]
    omega
  have hlt : (r.message body).block.length < 2 ^ 16 := by
    have hle' : (r.message body).block.length ≤ maxBytes := hlen
    unfold maxBytes at hle'
    omega
  have hreports := @RequestLine.path_reports _ (r.message body).block.length line r.known hle hlt
  rw [List.take_length] at hreports
  have hslice : slice (r.message body).bytes (r.method.length + 1) r.target.length = r.target := by
    have hsplit : (r.message body).bytes =
        (r.method ++ [0x20]) ++ (r.target ++ (httpVersion ++ rest ++ body)) := by
      rw [HttpMessage.bytes, hstart]
      show _ ++ body = _
      simp only [List.append_assoc, List.cons_append, List.nil_append]
    have hone : r.method.length + 1 = (r.method ++ [(0x20 : UInt8)]).length := by
      rw [List.length_append, List.length_singleton]
    rw [hsplit, hone, slice, List.drop_left, List.take_left]
  simp only
  rw [Http1.parseMsg_whole_msg, h.pathMid, hpres]
  rw [← hrange] at hreports
  rw [getMatchMsg_reports (by decide) hreports (List.length_pos_iff.mpr r.target_ne)
    (hle.trans hbytes)]
  exact congrArg Except.ok hslice

theorem Monitored.language (h : Monitored cfg) (hlen : x.block.length ≤ maxBytes) (conn : Ip4Conn) :
    let p := parseMsg cfg.http1 (wholeMsg x.bytes conn) .zero
    getMatchMsg p.msg p.pres cfg.h1AcceptLanguageMid = match lastValue acceptLanguage x.fields with
      | some v => .ok v
      | none => .error .ENOENT := by
  rw [h.acceptLanguageMid]
  exact h.http1.getMatchMsg_field x hlen conn (by decide)

/-- The header block of a response, with what follows it. -/
structure Response where
  digits : Bytes
  reason : Bytes
  startCr : Bool
  fields : List (FieldLine × Bool)
  lastCr : Bool
  body : Bytes
  digits_length : digits.length = 3
  isDigit : ∀ c ∈ digits, IsDigit c
  reason_free : ∀ c ∈ reason, c ≠ 0x0d ∧ c ≠ 0x0a

def Response.start (r : Response) : Bytes := statusStart ++ (r.digits ++ 0x20 :: r.reason)

theorem Response.isStart (r : Response) : StartLine r.start := by
  have hversion : statusStart = versionText 0x31 0x31 ++ [0x20] := by decide
  have hdigit : IsDigit 0x31 := by decide
  unfold start
  rw [hversion, List.append_assoc]
  exact .status hdigit hdigit r.digits_length r.isDigit r.reason_free

def Response.message (r : Response) : HttpMessage :=
  ⟨r.start, r.startCr, r.fields, r.lastCr, r.body, r.isStart⟩

/-- What is to be logged of a response: its status and its body. -/
def Response.line (r : Response) : Line := .response r.digits (shown r.body)

/-- The status of a response. -/
theorem Monitored.status (h : Monitored cfg) (r : Response) (hlen : r.message.block.length ≤ maxBytes)
    (conn : Ip4Conn) :
    let p := parseMsg cfg.http1 (wholeMsg r.message.bytes conn) .zero
    getMatchMsg p.msg p.pres cfg.h1StatusMid = .ok r.digits := by
  have hmem : (Item.status, 3) ∈ h1Items := by decide
  obtain ⟨rest, hrest⟩ := block_start r.message
  obtain ⟨-, hpres, -⟩ := h.http1.message r.message hlen conn
  have hrange := (h.http1.walk_view hmem 0 r.message.block).2.trans (status_run ⟨3, hmem⟩ 0 _)
  have hstart : r.message.block = statusStart ++ r.digits ++ 0x20 :: (r.reason ++ rest) := by
    rw [hrest]
    show r.start ++ rest = _
    unfold Response.start
    simp only [List.append_assoc, List.cons_append]
  let line : StatusLine r.message.block :=
    ⟨r.digits, r.reason ++ rest, hstart, r.digits_length, r.isDigit⟩
  have hle : 9 + 3 ≤ r.message.block.length := by
    rw [hstart, List.length_append, List.length_append, statusStart_length, r.digits_length]
    omega
  have hbytes : r.message.block.length ≤ r.message.bytes.length := by
    rw [HttpMessage.bytes, List.length_append]
    omega
  have hreports := @StatusLine.range _ r.message.block.length line hle
  rw [List.take_length] at hreports
  have hslice : slice r.message.bytes 9 3 = r.digits := by
    have hsplit : r.message.bytes =
        statusStart ++ (r.digits ++ (0x20 :: (r.reason ++ rest) ++ r.body)) := by
      rw [HttpMessage.bytes, hstart]
      show _ ++ r.body = _
      simp only [List.append_assoc]
    have hnine : 9 = statusStart.length := rfl
    rw [hsplit, hnine, slice, List.drop_left, ← r.digits_length, List.take_left]
  simp only
  rw [parseMsg_whole_msg, h.statusMid, hpres]
  rw [← hrange] at hreports
  rw [getMatchMsg_reports (by decide) hreports (by omega) (hle.trans hbytes), hslice]

section Turns

/-- The turn at a message that is not upgraded, as far as its header block goes. -/
theorem Monitored.turn_message (h : Monitored cfg) (hnew : s.upgradedConns.lookup conn = none)
    (hlen : x.block.length ≤ maxBytes) :
    let p := parseMsg cfg.http1 (wholeMsg x.bytes conn) .zero
    turn cfg conn behind s x.bytes = .take
      (if conn.remoteAddr = cfg.server then logHttp1Request cfg (getMatchMsg p.msg p.pres)
        else logHttp1Response cfg behind p.msg (getMatchMsg p.msg p.pres) x.block.length)
      x.block.length s := by
  have hret := (h.http1.message x hlen conn).1
  have hmatched := h.not_matched hlen conn
  have hmsg : Http2.linearMsg x.bytes conn true = wholeMsg x.bytes conn := rfl
  unfold turn msgVerdict verdictHttp1
  rw [hmsg]
  simp only [show (wholeMsg x.bytes conn).conn = conn from rfl, hnew, hret, hmatched,
    Bool.false_eq_true, if_false, decide_eq_true_eq]

theorem Monitored.turn_request (h : Monitored cfg) (hnew : s.upgradedConns.lookup conn = none)
    (hdown : conn.remoteAddr = cfg.server) (r : Request) (hlen : r.bytes.length ≤ maxBytes)
    (rest : Bytes) :
    turn cfg conn behind s (r.bytes ++ rest) = .take [r.line] r.bytes.length s := by
  have hturn := @Monitored.turn_message cfg conn behind s (r.message rest) h hnew hlen
  refine hturn.trans ?_
  have hpath := h.path r rest hlen conn
  have hlang := @Monitored.language cfg (r.message rest) h hlen conn
  simp only at hpath hlang
  have hblock : (r.message rest).block = r.bytes := rfl
  have hfields : (r.message rest).fields = r.fields := rfl
  rw [if_pos hdown, hblock]
  unfold logHttp1Request Request.line
  rw [hpath, hlang, hfields]
  cases lastValue acceptLanguage r.fields with
  | none => simp only [valueText_eq, Option.map_none]
  | some v => simp only [valueText_eq, Option.map_some]

theorem Monitored.turn_response (h : Monitored cfg) (hnew : s.upgradedConns.lookup conn = none)
    (hup : conn.remoteAddr ≠ cfg.server) (r : Response) (hlen : r.message.block.length ≤ maxBytes) :
    turn cfg conn behind s r.message.bytes = .take [r.line] r.message.block.length s := by
  have hturn := @Monitored.turn_message cfg conn behind s r.message h hnew hlen
  refine hturn.trans ?_
  have hstatus := h.status r hlen conn
  simp only at hstatus
  have hdata : (wholeMsg r.message.bytes conn).data = r.message.block ++ (r.body ++ []) := by
    rw [List.append_nil]
    exact List.take_length
  have hbody : (wholeMsg r.message.bytes conn).bytes.length - r.message.block.length =
      r.body.length := by
    show (r.message.block ++ r.body).length - r.message.block.length = r.body.length
    rw [List.length_append, Nat.add_sub_cancel_left]
  have hdigits : shown r.digits = r.digits := by
    unfold shown text
    rw [List.take_of_length_le (by rw [r.digits_length]; decide), List.takeWhile_eq_self_iff]
    intro c hc
    have hd := (r.isDigit c hc).1
    apply decide_eq_true
    rintro rfl
    exact absurd hd (by decide)
  rw [if_neg hup]
  unfold logHttp1Response Response.line
  rw [hstatus]
  simp only
  rw [parseMsg_whole_msg, hbody, text_memory hdata, valueText_eq, hdigits]

/-- Bytes in which nothing begins that the monitor logs or that upgrades the connection. -/
def Quiet (bytes : Bytes) : Prop :=
  ∀ w, w <:+ bytes → ¬statusStart <+: upper w ∧ (∀ m ∈ methods, ¬m ++ space <+: upper w) ∧
    ¬StartsPreface h1Items w

theorem Quiet.drop {w : Bytes} (h : Quiet w) (n : Nat) : Quiet (w.drop n) :=
  fun v hv => h v (hv.trans (List.drop_suffix n w))

/-- Nothing is logged of them. -/
theorem Monitored.turn_quiet (h : Monitored cfg) (hnew : s.upgradedConns.lookup conn = none)
    {w : Bytes} (hq : Quiet w) : turn cfg conn behind s w = .fail [] s ∨
      ∃ n, turn cfg conn behind s w = .take [] n s := by
  obtain ⟨hno, hnone, hpre⟩ := hq w (List.suffix_refl w)
  obtain ⟨-, hpres⟩ := parseMsg_whole cfg.http1 w conn .zero
  generalize hk : w.take (reach (wholeMsg w conn)) = v at hpres
  have hup : upper v <+: upper w := by
    rw [← hk, upper_take]
    exact List.take_prefix _ _
  have hmatched : matched (parseMsg cfg.http1 (wholeMsg w conn) .zero).pres cfg.h1PrefaceMid =
      false := by
    have hmem : (Item.preface, 0) ∈ h1Items := by decide
    obtain ⟨hseen, -⟩ := @Attached.walk_preface h1Items cfg.http1 0 0 h.http1 hmem (Nat.zero_le _) v
    rw [h.prefaceMid, hpres, Bool.eq_false_iff, ne_eq, matched_iff, hseen, ← hk, startsPreface_take]
    exact fun hs => hpre hs.2
  have hpath : getMatchMsg (parseMsg cfg.http1 (wholeMsg w conn) .zero).msg
      (parseMsg cfg.http1 (wholeMsg w conn) .zero).pres cfg.h1PathMid = .error .ENOENT := by
    have hmem : (Item.path, 1) ∈ h1Items := by decide
    have hrange := (h.http1.walk_view hmem 0 v).2.trans (path_run (.inr ⟨1, hmem⟩) 0 v)
    rw [h.pathMid]
    apply getMatchMsg_none (by decide)
    rw [hpres, hrange, pathRange_none fun m hm hp => hnone m hm (hp.trans hup)]
    rfl
  have hstatus : getMatchMsg (parseMsg cfg.http1 (wholeMsg w conn) .zero).msg
      (parseMsg cfg.http1 (wholeMsg w conn) .zero).pres cfg.h1StatusMid = .error .ENOENT := by
    have hmem : (Item.status, 3) ∈ h1Items := by decide
    have hrange := (h.http1.walk_view hmem 0 v).2.trans (status_run ⟨3, hmem⟩ 0 v)
    rw [h.statusMid]
    apply getMatchMsg_none (by decide)
    rw [hpres, hrange, statusRange, if_neg fun hp => hno (hp.1.trans hup)]
    rfl
  have hmsg : Http2.linearMsg w conn true = wholeMsg w conn := rfl
  unfold turn msgVerdict verdictHttp1 logHttp1Request logHttp1Response
  rw [hmsg]
  simp only [show (wholeMsg w conn).conn = conn from rfl, hnew, hmatched, hpath, hstatus,
    Bool.false_eq_true, if_false, ite_self]
  cases (parseMsg cfg.http1 (wholeMsg w conn) .zero).ret with
  | error e => exact .inl rfl
  | ok n => exact .inr ⟨n, rfl⟩

theorem Monitored.quiet_unlogged (h : Monitored cfg) (hnew : s.upgradedConns.lookup conn = none)
    {w : Bytes} (hq : Quiet w) (rounds : Nat) :
    (Cork.results (turn cfg conn behind) rounds s w).flatten = [] := by
  induction rounds generalizing w with
  | zero => rfl
  | succ rounds ih =>
    rcases @Monitored.turn_quiet cfg conn behind s h hnew w hq with hturn | ⟨n, hturn⟩
    · unfold Cork.results
      rw [hturn]
      rfl
    · rw [Cork.results_take hturn, List.flatten_cons, ih (hq.drop n)]
      rfl

end Turns

/-- Of requests that are sent at once, each is logged once and in order, and nothing else is, unless
what is sent behind them is something that is logged. -/
theorem requests_logged {encode : Bytes → Option Bytes} (h : Attaches encode cfg)
    (hnew : s.upgradedConns.lookup conn = none) (hdown : conn.remoteAddr = cfg.server)
    (rs : List Request) (hlen : ∀ r ∈ rs, r.bytes.length ≤ maxBytes) (rest : Bytes) (rounds : Nat) :
    (Cork.results (turn cfg conn behind) (rs.length + rounds) s
        ((rs.map Request.bytes).flatten ++ rest)).flatten =
      rs.map Request.line ++ (Cork.results (turn cfg conn behind) rounds s rest).flatten ∧
    (Quiet rest → (Cork.results (turn cfg conn behind) rounds s rest).flatten = []) := by
  refine ⟨?_, fun hq => h.monitored.quiet_unlogged hnew hq rounds⟩
  induction rs with
  | nil => simp only [List.length_nil, Nat.zero_add, List.map_nil, List.flatten_nil, List.nil_append]
  | cons r rs ih =>
    have hturn := @Monitored.turn_request cfg conn behind s h.monitored hnew hdown r
      (hlen r List.mem_cons_self) ((rs.map Request.bytes).flatten ++ rest)
    have hrounds : (r :: rs).length + rounds = rs.length + rounds + 1 := by
      rw [List.length_cons]
      omega
    rw [hrounds, List.map_cons, List.flatten_cons, List.append_assoc, Cork.results_take hturn,
      List.drop_left, List.flatten_cons, ih fun r' hr => hlen r' (List.mem_cons_of_mem _ hr)]
    rfl

section Small

/-- A check of the parser for HTTP/1 that user space configures. -/
def checkParser : Bool :=
  match h1Parser with
  | .error _ => false
  | .ok (h1, mids) => decide (mids = [0, 1, 2, 3]) && match h1.doneOnHdrEnd with
    | .error _ => false
    | .ok h1' => match injectDfa h1'.dfa h1'.dfa.transitions with
      | .error _ => false
      | .ok _ => true

/-- The monitor can be loaded. -/
theorem attaches_exists (server : Ip4Addr) :
    ∃ cfg, Attaches (fun s => some (Huffman.encode s)) cfg ∧ cfg.server = server := by
  have hcheck : checkParser = true := by decide +kernel
  obtain ⟨rd, hrd⟩ := @Http2.attached_exists (fun s => some (Huffman.encode s)) fun s => ⟨_, rfl⟩
  unfold checkParser at hcheck
  split at hcheck
  · cases hcheck
  next h1 mids hp =>
    rw [Bool.and_eq_true, decide_eq_true_eq] at hcheck
    obtain ⟨rfl, hcheck⟩ := hcheck
    split at hcheck
    · cases hcheck
    next h1' hdone =>
      split at hcheck
      · cases hcheck
      next rd1 hinj =>
        exact ⟨⟨server, 0, 1, 2, 3, rd1, rd⟩, ⟨⟨h1, h1', hp, hdone, _, List.Perm.refl _, hinj⟩, hrd⟩, rfl⟩

def smallConn : Ip4Conn := ⟨⟨1, 1⟩, ⟨2, 2⟩⟩

def languageLine : FieldLine :=
  ⟨ascii "Accept-Language", [], ascii " de", by decide, by decide +kernel, by simp, by decide +kernel⟩

def getRequest : Request :=
  ⟨ascii "GET", ascii "/a", true, [(languageLine, true)], true, by decide +kernel, by decide +kernel,
    by decide, by decide +kernel⟩

def putRequest : Request :=
  ⟨ascii "put", ascii "/b", true, [], true, by decide +kernel, by decide +kernel, by decide,
    by decide +kernel⟩

end Small

/-- Two requests that are sent at once. -/
theorem requests_loggedTwo : ∃ cfg, Attaches (fun s => some (Huffman.encode s)) cfg ∧
    (Cork.results (turn cfg smallConn fun _ _ => 0) (2 + 1) .init
        (([getRequest, putRequest].map Request.bytes).flatten ++ [])).flatten =
      [.request (ascii "/a") (some (ascii "de")), .request (ascii "/b") none] ∧
    getRequest.bytes = ascii "GET /a HTTP/1.1\r\nAccept-Language: de\r\n\r\n" := by
  obtain ⟨cfg, hcfg, hserver⟩ := attaches_exists smallConn.remoteAddr
  have hquiet : Quiet [] := by
    intro w hw
    cases List.suffix_nil.mp hw
    refine ⟨by decide, by decide +kernel, ?_⟩
    rintro (⟨rest, h⟩ | ⟨-, rest, h⟩)
    · cases h
    · cases h
  have hlen : ∀ r ∈ [getRequest, putRequest], r.bytes.length ≤ maxBytes := by decide +kernel
  obtain ⟨hlogged, hnone⟩ := @requests_logged cfg smallConn (fun _ _ => 0) .init _ hcfg rfl
    hserver.symm [getRequest, putRequest] hlen [] 1
  refine ⟨cfg, hcfg, ?_, by decide +kernel⟩
  have hlines : [getRequest, putRequest].map Request.line =
      [.request (ascii "/a") (some (ascii "de")), .request (ascii "/b") none] := by decide +kernel
  exact hlogged.trans (by rw [hnone hquiet, hlines]; rfl)

/-- A response is logged along with its body, which is then read like a message of its own. -/
theorem response_logged {encode : Bytes → Option Bytes} (h : Attaches encode cfg)
    (hnew : s.upgradedConns.lookup conn = none) (hup : conn.remoteAddr ≠ cfg.server) (r : Response)
    (hlen : r.message.block.length ≤ maxBytes) (rounds : Nat) :
    (Cork.results (turn cfg conn behind) (rounds + 1) s r.message.bytes).flatten =
      r.line :: (Cork.results (turn cfg conn behind) rounds s r.body).flatten ∧
    (Quiet r.body → (Cork.results (turn cfg conn behind) rounds s r.body).flatten = []) := by
  refine ⟨?_, fun hq => h.monitored.quiet_unlogged hnew hq rounds⟩
  have hturn := @Monitored.turn_response cfg conn behind s h.monitored hnew hup r hlen
  have hdrop : r.message.bytes.drop r.message.block.length = r.body := List.drop_left
  rw [Cork.results_take hturn, hdrop]
  rfl

def foundResponse : Response :=
  ⟨ascii "200", ascii "OK", true, [], true, ascii "hello", rfl, by decide +kernel, by decide +kernel⟩

/-- A response with a body. -/
theorem response_loggedFound : ∃ cfg, Attaches (fun s => some (Huffman.encode s)) cfg ∧
    (Cork.results (turn cfg (Prog.reversed smallConn) fun _ _ => 0) (1 + 1) .init
        foundResponse.message.bytes).flatten =
      .response (ascii "200") (ascii "hello") ::
        (Cork.results (turn cfg (Prog.reversed smallConn) fun _ _ => 0) 1 .init
          (ascii "hello")).flatten ∧
    foundResponse.message.bytes = ascii "HTTP/1.1 200 OK\r\n\r\nhello" := by
  obtain ⟨cfg, hcfg, hserver⟩ := attaches_exists smallConn.remoteAddr
  have hup : (Prog.reversed smallConn).remoteAddr ≠ cfg.server := by
    rw [hserver]
    decide
  have hlogged := (@response_logged cfg (Prog.reversed smallConn) (fun _ _ => 0) .init _ hcfg rfl hup
    foundResponse (by decide +kernel) 1).1
  have hline : foundResponse.line = .response (ascii "200") (ascii "hello") := by decide +kernel
  rw [hline] at hlogged
  exact ⟨cfg, hcfg, hlogged, by decide +kernel⟩

end Beeper.Monitor
