import Beeper.SkbLayout
import Beeper.StreamParser
import Beeper.VerdictStreams

namespace Beeper.Http2

variable {rd : Rodata} {maps maps' : Maps} {conn : Ip4Conn} {frame : Http2Frame} {m : Bytes}

/-- A parse of a message goes on behind it, also where it is refused. -/
structure Taken (m : Bytes) (p : ParsedMsg) : Prop where
  ok : ∀ n, p.ret = .ok n → n = m.length
  passed : p.ret = .error .EPROTO → http2FrameHdrLen + p.frame.len = m.length

theorem Framed.taken (hm : Framed m) (hsize : m.length ≤ maxBytes) (rd : Rodata) (maps : Maps)
    (conn : Ip4Conn) (frame : Http2Frame) : Taken m (parseLinear rd maps conn true frame m) := by
  obtain ⟨h, payload, tail, hs⟩ := hm.starts
  have hlen := hs.length
  have hfirst := hs.first [] [] hsize
  rw [List.append_nil, List.nil_append, List.length_nil] at hfirst
  rw [parseLinear_eq (by omega), hfirst]
  have hroom : http2FrameHdrLen + (h.first payload.length).len ≤ m.length := by
    have hflen : (h.first payload.length).len = payload.length := rfl
    omega
  -- a frame that is not part of a block is all of the message
  have halone (hb : ¬(h.type.toNat = http2HeadersFrame ∧
      h.flags.toNat &&& http2EndHeadersFlag = 0)) :
      http2FrameHdrLen + (h.first payload.length).len = m.length := by
    rw [hlen, hs.alone hb]
    rfl
  by_cases hv : violatesBlockRules (h.first payload.length).type (h.first payload.length).sid
  · rw [parseMsgFrame_reject hv, rejectFrame, if_pos (show http2FrameHdrLen +
      (h.first payload.length).len ≤ (linearMsg m conn true).bytes.length from hroom)]
    refine ⟨fun n hn => ?_, fun _ => halone fun hb => hs.accepted hb hv⟩
    cases hn
  by_cases hp : isParsedFrame (h.first payload.length).type (h.first payload.length).flags
  swap
  · rw [parseMsgFrame_skip hv hp]
    refine ⟨fun n hn => ?_, fun he => ?_⟩
    · cases hn
      exact halone fun hb => hp (headers_accepted (f := h.first payload.length) hb.1 fun h0 =>
        hv (by simp [violatesBlockRules, FrameHead.first, hb.1, show h.sid = 0 from h0])).2
    · cases he
  by_cases hb : (h.first payload.length).type = http2HeadersFrame ∧
      (h.first payload.length).flags &&& http2EndHeadersFlag = 0
  · obtain ⟨msg', -, hmsg⟩ := linear_pulled rd maps conn rfl (by omega) hv hroom hb
    rw [hmsg, Nat.min_eq_left hsize, List.take_length]
    have hcollected := hs.collected [] [] maps.blockBuf (by rw [List.length_nil]; omega) hb
    rw [List.append_nil, List.nil_append, List.length_nil] at hcollected
    constructor
    · intro n hn
      have hc := parseBlock_collected (neverRead_ok hn)
      rcases hcollected with hok | hbig
      · cases hok.symm.trans hc
        rfl
      · cases hbig.symm.trans hc
    · intro he
      simp only [neverRead] at he
      split at he
      · cases he
      · rcases parseBlock_error he with hlate | ⟨hc, -⟩
        · exact absurd rfl hlate.ne.2.1
        · rcases hcollected with hok | hbig
          · cases hok.symm.trans hc
          · cases hbig.symm.trans hc
  · obtain ⟨msg', -, hmsg⟩ := linear_whole rd maps conn rfl hv hp hroom hb
    rw [hmsg]
    constructor
    · intro n hn
      rw [← (map_ok hn).1]
      exact halone hb
    · intro he
      have hret := map_refused he
      rcases parseFrame_error hret with hlate | hbig
      · exact absurd rfl hlate.ne.2.1
      · rw [hbig] at hret
        cases hret

/-- Whether a parse failed for good. -/
def Outcome.fails (o : Outcome) : Prop := ∃ e, o.ret = .error e ∧ e ≠ .EPROTO

/-- A message is taken off the front of what was sent, unless it fails to parse. -/
theorem Framed.skipTurn (hm : Framed m) (hsize : m.length ≤ maxBytes)
    (hmaps : SameTables maps maps') (x : Bytes) :
    let p := parseLinear rd maps conn true frame m
    ∃ t, SameTables p.maps t ∧
      ((outcome rd p).fails → skipTurn rd conn true frame maps' (m ++ x) = .fail (outcome rd p) t) ∧
      (¬(outcome rd p).fails →
        skipTurn rd conn true frame maps' (m ++ x) = .take (outcome rd p) m.length t) := by
  obtain ⟨h9, hnot⟩ := hm.not_again hsize rd maps conn frame
  obtain ⟨hok, hpassed⟩ := hm.taken hsize rd maps conn frame
  have halike := @Framed.alike rd maps maps' conn m frame hm hsize hmaps x
  refine ⟨_, halike.tables, ?_, ?_⟩
  · rintro ⟨e, he, hne⟩
    have hagain : e ≠ .EAGAIN := fun h => hnot (h ▸ he)
    have hret := halike.ret.trans he
    unfold Http2.skipTurn Cork.skipping
    rw [corkTurn_error hagain hret]
    simp only [passOver, halike.outcome_eq, he]
    rw [if_neg fun hp => hne (Except.error.inj hp)]
  · intro hf
    unfold Http2.skipTurn Cork.skipping
    cases hret : (parseLinear rd maps conn true frame m).ret with
    | ok n =>
      cases hok n hret
      rw [corkTurn_ok h9 (halike.ret.trans hret), halike.outcome_eq]
    | error e =>
      have he : e = .EPROTO := by
        by_contra hne
        exact hf ⟨e, hret, hne⟩
      subst he
      rw [corkTurn_error (by decide) (halike.ret.trans hret)]
      have hpass : passOver (outcome rd (parseLinear rd maps conn true frame m)) = some m.length := by
        rw [passOver, if_pos (show (outcome rd _).ret = _ from hret)]
        exact congrArg some (hpassed hret)
      simp only [halike.outcome_eq, hpass]

end Beeper.Http2

namespace Beeper.Prog

open Http2 (SameTables AlikeAt Attached Outcome outcome parseLinear)

variable {cfg : Config} {conn : Ip4Conn} {m : Bytes} {s : State}

/-- What the reports of a stream of messages are, whichever hook it is parsed at: those of the
messages on their own, one after another. -/
def messageReports (rd : Http2.Rodata) (conn skey : Ip4Conn) (upstream : Bool) :
    Http2.Maps → List Bytes → List Report
  | _, [] => []
  | maps, m :: ms =>
    let p := parseLinear rd maps conn true zeroFrame m
    reportOf skey upstream (outcome rd p) :: messageReports rd conn skey upstream p.maps ms

/-- An sk_buff that the kernel found a message in, and where the message starts. -/
structure Delivery where
  skb : SkBuff
  off : Nat

/-- The message `m` stands somewhere in the sk_buff, between whatever else arrived. -/
structure Delivery.Holds (conn : Ip4Conn) (d : Delivery) (m : Bytes) : Prop where
  conn : d.skb.conn = conn
  pullable : d.skb.pullable = true
  place : ∃ pre post, d.skb.bytes = pre ++ (m ++ post) ∧ d.off = pre.length ∧
    pre.length + m.length ≤ maxBytes

/-- What the program at the `sk_skb` hook reports of the messages that were cut out. -/
def skbReports (cfg : Config) : State → List Delivery → List Report
  | _, [] => []
  | s, d :: ds =>
    let h := skbVerdict cfg s d.skb d.off true
    ⟨h.written, h.state.maps.dynamicTable, h.state.maps.dynamicTableInfo⟩ ::
      skbReports cfg h.state ds

/-- The program while it parses what arrives at one end of a connection as HTTP/2. -/
structure Arriving (cfg : Config) (conn : Ip4Conn) (s : State) : Prop where
  upgraded : (s.upgradedConns.lookup conn).isSome
  parsed : cfg.skips (decide (conn.localAddr = cfg.server)) = false

theorem Arriving.verdict (ha : Arriving cfg conn s) {skb : SkBuff} (hc : skb.conn = conn) (off : Nat)
    (room : Bool) : skbVerdict cfg s skb off room =
      skbVerdictHttp2 cfg s skb off (!decide (conn.localAddr = cfg.server)) room := by
  obtain ⟨flag, hflag⟩ := Option.isSome_iff_exists.mp ha.upgraded
  subst hc
  unfold skbVerdict
  simp only [ha.parsed, Bool.false_eq_true, if_false, hflag]

theorem skbVerdictHttp2_kept (cfg : Config) (s : State) (skb : SkBuff) (off : Nat)
    (upstream room : Bool) :
    (skbVerdictHttp2 cfg s skb off upstream room).state.upgradedConns = s.upgradedConns ∧
      (skbVerdictHttp2 cfg s skb off upstream room).state.maps =
        (Http2.parseSkb cfg.http2 s.maps skb off .zero zeroFrame none).maps := by
  unfold skbVerdictHttp2
  simp only
  split
  · exact ⟨rfl, rfl⟩
  · split <;> exact ⟨rfl, rfl⟩

theorem Arriving.next (ha : Arriving cfg conn s) {skb : SkBuff} (hc : skb.conn = conn) (off : Nat) :
    Arriving cfg conn (skbVerdict cfg s skb off true).state := by
  refine ⟨?_, ha.parsed⟩
  rw [ha.verdict hc, (skbVerdictHttp2_kept ..).1]
  exact ha.upgraded

/-- The program reports a message the way the parser reads it on its own. -/
theorem Arriving.report (ha : Arriving cfg conn s) {encode : Bytes → Option Bytes}
    {captures : List (Bytes × MatchId)} (hrd : Attached encode captures cfg.http2)
    (hm : OfStream m) {d : Delivery} (hd : d.Holds conn m) {maps : Http2.Maps}
    (hmaps : SameTables maps s.maps) :
    let h := skbVerdict cfg s d.skb d.off true
    let p := parseLinear cfg.http2 maps conn true zeroFrame m
    (⟨h.written, h.state.maps.dynamicTable, h.state.maps.dynamicTableInfo⟩ : Report) =
        reportOf (reversed conn) (!decide (conn.localAddr = cfg.server)) (outcome cfg.http2 p) ∧
      SameTables p.maps h.state.maps := by
  obtain ⟨hc, hp, pre, post, hb, hoff, hsize⟩ := hd
  have halike := hm.framed.laidOut hrd hp hb hsize hmaps zeroFrame zeroFrame
  rw [← hoff, hc] at halike
  simp only
  rw [ha.verdict hc, (skbVerdictHttp2_kept ..).2]
  refine ⟨?_, halike.tables⟩
  unfold skbVerdictHttp2 reportOf outcome
  rw [hc]
  generalize Http2.parseSkb cfg.http2 s.maps d.skb d.off .zero zeroFrame none = q at halike
  generalize parseLinear cfg.http2 maps conn true zeroFrame m = p at halike
  have hcaptures : Http2.getMatchSkb cfg.http2 q.maps q.skb q.pres =
      Http2.getMatchMsg cfg.http2 p.maps p.msg p.pres := funext halike.captures
  simp only [halike.ret, halike.frame, halike.tables.entries, halike.tables.infos, hcaptures]
  cases p.ret with
  | error e => rfl
  | ok len => rfl

theorem Arriving.reports (ha : Arriving cfg conn s) {encode : Bytes → Option Bytes}
    {captures : List (Bytes × MatchId)} (hrd : Attached encode captures cfg.http2)
    {ms : List Bytes} (hms : ∀ m ∈ ms, OfStream m) {ds : List Delivery}
    (hds : List.Forall₂ (Delivery.Holds conn) ds ms) {maps : Http2.Maps}
    (hmaps : SameTables maps s.maps) : skbReports cfg s ds = messageReports cfg.http2 conn
      (reversed conn) (!decide (conn.localAddr = cfg.server)) maps ms := by
  induction hds generalizing s maps with
  | nil => rfl
  | @cons d m ds ms hd hds ih =>
    obtain ⟨hreport, htables⟩ := ha.report hrd (hms m List.mem_cons_self) hd hmaps
    unfold skbReports messageReports
    simp only
    rw [hreport, ih (ha.next hd.conn d.off) (fun m hm => hms m (List.mem_cons_of_mem _ hm)) htables]

/-- Whether a report is that of a message that failed to parse, for another reason than that it
breaks the rules for header blocks. -/
def Report.fails (r : Report) : Bool :=
  r.written.any fun entry => !entry.ret.isOk && entry.ret != .error .EPROTO

/-- The reports up to the first that is one of a failure. -/
def untilFailure : List Report → List Report
  | [] => []
  | r :: rs => r :: if r.fails then [] else untilFailure rs

theorem reportOf_fails (conn : Ip4Conn) (upstream : Bool) (o : Outcome) :
    (reportOf conn upstream o).fails = true ↔ o.fails := by
  unfold Report.fails reportOf Outcome.fails
  cases hret : o.ret with
  | ok len =>
    simp only
    split <;> simp [newFrameResult, Except.isOk, Except.toBool]
  | error e => simp [newFrameResult, Except.isOk, Except.toBool]

theorem Parsing.results {ms : List Bytes} (hms : ∀ m ∈ ms, OfStream m) (s : Parsing cfg conn) {maps : Http2.Maps}
    (hmaps : SameTables maps s.state.maps) {rounds : Nat} (hr : ms.flatten.length < rounds) :
    Cork.results (verdictTurn cfg conn true) rounds s ms.flatten = untilFailure
      (messageReports cfg.http2 conn conn (!decide (conn.remoteAddr = cfg.server)) maps ms) := by
  have hviews := verdictTurn_views cfg conn true
  induction ms generalizing s maps rounds with
  | nil =>
    obtain ⟨r, rfl⟩ : ∃ r, rounds = r + 1 := ⟨rounds - 1, by omega⟩
    obtain ⟨need, s', hw⟩ := (verdictTurn_stable cfg conn true).nil s
    unfold Cork.results
    rw [List.flatten_nil, hw]
    rfl
  | cons m ms ih =>
    obtain ⟨r, rfl⟩ : ∃ r, rounds = r + 1 := ⟨rounds - 1, by omega⟩
    have hm := hms m List.mem_cons_self
    have hpos := hm.length_pos
    obtain ⟨t, ht, hfail, htake⟩ := @Http2.Framed.skipTurn cfg.http2 maps s.state.maps conn zeroFrame
      m hm.framed hm.size hmaps ms.flatten
    unfold messageReports untilFailure
    rw [List.flatten_cons, List.length_append] at hr
    rw [List.flatten_cons]
    by_cases hf : (outcome cfg.http2 (parseLinear cfg.http2 maps conn true zeroFrame m)).fails
    · obtain ⟨s', hs', -⟩ := hviews.of_fail (hfail hf)
      rw [if_pos ((reportOf_fails ..).mpr hf)]
      unfold Cork.results
      rw [hs']
    · obtain ⟨s', hs', hview⟩ := hviews.of_take (htake hf)
      subst hview
      rw [if_neg (fun h => hf ((reportOf_fails ..).mp h)), Cork.results_take hs', List.drop_left,
        ih (fun d hd => hms d (List.mem_cons_of_mem _ hd)) s' ht (by omega)]

/-- Both hooks report a stream of messages the same way, message by message, as the parser reads each
of them on its own: at `sk_msg` however what is sent is cut into writes, up to a message that fails
to parse, and at `sk_skb` however it arrives, wherever the kernel has found each message. -/
theorem hooks_report {encode : Bytes → Option Bytes} {captures : List (Bytes × MatchId)}
    (hrd : Attached encode captures cfg.http2) {ms : List Bytes} (hms : ∀ m ∈ ms, OfStream m)
    {chunks : List Bytes} (hc : chunks.flatten = ms.flatten) (conn : Ip4Conn) :
    (∀ s : Parsing cfg conn, Cork.feedAll (verdictTurn cfg conn true) (.start s) chunks =
      untilFailure (messageReports cfg.http2 conn conn (!decide (conn.remoteAddr = cfg.server))
        s.state.maps ms)) ∧
    ∀ s, Arriving cfg conn s →
      Cork.feedAll (cutTurn s conn) (.start ()) chunks = ms ∧
      ∀ ds, List.Forall₂ (Delivery.Holds conn) ds ms →
        skbReports cfg s ds = messageReports cfg.http2 conn (reversed conn)
          (!decide (conn.localAddr = cfg.server)) s.maps ms := by
  refine ⟨fun s => ?_, fun s hs => ⟨feedAll_cut hs.upgraded hms hc, fun ds hds => ?_⟩⟩
  · rw [(verdictTurn_stable cfg conn true).feedAll_eq, hc]
    exact s.results hms (.refl _) (Nat.lt_succ_self _)
  · exact hs.reports hrd hms hds (.refl _)

/-- A program that parses both directions, with a parser for HTTP/2 only. -/
def bothConfig (rd : Http2.Rodata) : Config where
  server := Http2.tableConn.remoteAddr
  httpParseResp := false
  httpParseBoth := true
  hookSkb := false
  http1 := ⟨fun _ _ => ⟨0, 0⟩, fun _ => ⟨none, 0, 0⟩⟩
  http2 := rd

def indexedMessage : Bytes := (Http2.sentAlone [0x82]).bytes

theorem indexedMessage_ofStream : OfStream indexedMessage where
  framed := by
    refine .block (Http2.sentAlone [0x82]) (fun f hf => ?_) ?_
    · cases hf
    · have hrep : Http2.RepWire id (.indexed 2) [0x82] :=
        .indexed (by decide) (.short 0x82 (by decide) (by decide))
      exact hrep.complete
  few g hg := by
    have hlen := g.bytes_length
    have hmin := Http2.flatten_length_ge (g.middle ++ [g.last])
    have hten : indexedMessage.length = 10 := by decide
    rw [← hg, hten] at hlen
    rw [List.length_append, List.length_singleton] at hmin
    unfold Http2.http2FrameHdrLen at hlen hmin
    unfold maxContinuations
    omega
  size := by decide

theorem upgraded_table : ((upgradeConn .init Http2.tableConn).upgradedConns.lookup
    Http2.tableConn).isSome := by
  decide

theorem hooks_report_split : ∃ rd, Attached (fun s => some (Huffman.encode s)) [] rd ∧
    ∃ s : Parsing (bothConfig rd) Http2.tableConn,
      Cork.feedAll (verdictTurn (bothConfig rd) Http2.tableConn true) (.start s)
          [indexedMessage.take 4, indexedMessage.drop 4] =
        untilFailure (messageReports rd Http2.tableConn Http2.tableConn false s.state.maps
          [indexedMessage]) ∧
      skbReports (bothConfig rd) s.state [⟨arrivedSkb (7 :: indexedMessage) Http2.tableConn, 1⟩] =
        messageReports rd Http2.tableConn (reversed Http2.tableConn) true s.state.maps
          [indexedMessage] := by
  obtain ⟨rd, ha⟩ := @Http2.attached_exists (fun s => some (Huffman.encode s)) fun s => ⟨_, rfl⟩
  let s : Parsing (bothConfig rd) Http2.tableConn :=
    ⟨upgradeConn .init Http2.tableConn, upgraded_table, rfl⟩
  have hms : ∀ m ∈ [indexedMessage], OfStream m := fun m hm =>
    List.mem_singleton.mp hm ▸ indexedMessage_ofStream
  have hc : [indexedMessage.take 4, indexedMessage.drop 4].flatten = [indexedMessage].flatten := by
    decide
  obtain ⟨hsent, harrived⟩ := @hooks_report (bothConfig rd) _ _ ha _ hms _ hc Http2.tableConn
  refine ⟨rd, ha, s, hsent s, (harrived s.state ⟨upgraded_table, rfl⟩).2 _ (.cons ?_ .nil)⟩
  refine ⟨rfl, rfl, [7], [], ?_, rfl, by decide⟩
  rw [List.append_nil]
  rfl

end Beeper.Prog
