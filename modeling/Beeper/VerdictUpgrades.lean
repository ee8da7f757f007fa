import Beeper.Http1Preface
import Beeper.HookStreams
import Beeper.StoreRuns
import Beeper.VerdictRuns

namespace Beeper.Prog

open Http1 (Attached Item StartsPreface)

variable {cfg : Config} {items : List (Item × MatchId)} {s t : State} {e : Event}
  {c conn : Ip4Conn} {es : List Event}

/-- An event that carries a message has all of it pulled in as it asks to. -/
def Event.Pullable : Event → Prop
  | .sent msg _ => msg.pullable = true
  | .arrived skb _ _ => skb.pullable = true
  | _ => True

/-- The event carries a message of the connection `conn`, in a direction that is parsed, that starts
with the preface. -/
def Event.Prefaces (cfg : Config) (items : List (Item × MatchId)) (conn : Ip4Conn) : Event → Prop
  | .sent msg _ => msg.conn = conn ∧ cfg.skips (decide (conn.remoteAddr = cfg.server)) = false ∧
      msg.linear ≠ 0 ∧ StartsPreface items msg.bytes
  | .arrived skb off _ => skb.conn = conn ∧
      cfg.skips (decide (conn.localAddr = cfg.server)) = false ∧
      off + 23 ≤ maxBytes ∧ StartsPreface items (skb.bytes.drop off)
  | _ => False

/-- The event closes `conn`, which is one end of a connection to the server. -/
def Event.Closes (cfg : Config) (conn : Ip4Conn) : Event → Prop
  | .socket .tcpClose c _ => c = conn ∧ (c.remoteAddr = cfg.server ∨ c.localAddr = cfg.server)
  | _ => False

section Upgrade

theorem upgradeConn_kept (s : State) (conn : Ip4Conn) (h : (s.upgradedConns.lookup c).isSome) :
    ((upgradeConn s conn).upgradedConns.lookup c).isSome :=
  BoundedMap.put_kept (BoundedMap.put_kept h)

theorem upgradeConn_sound (h : ((upgradeConn s conn).upgradedConns.lookup c).isSome) :
    (s.upgradedConns.lookup c).isSome ∨ c = conn ∨ c = reversed conn := by
  rcases BoundedMap.put_sound h with hr | h
  · exact .inr (.inr hr)
  · rcases BoundedMap.put_sound h with hc | h
    · exact .inr (.inl hc)
    · exact .inl h

theorem upgradeConn_added (hroom : s.upgradedConns.card + 2 ≤ maxConns)
    (hc : c = conn ∨ c = reversed conn) :
    ((upgradeConn s conn).upgradedConns.lookup c).isSome := by
  have hcard := @BoundedMap.put_card_le _ _ _ _ s.upgradedConns conn 1
  rcases hc with rfl | rfl
  · apply BoundedMap.put_kept
    exact BoundedMap.put_added (by omega)
  · exact BoundedMap.put_added (by omega)

end Upgrade

/-- What an event can do to the connections that were upgraded. -/
inductive Upgrading (cfg : Config) (items : List (Item × MatchId)) (s t : State) (e : Event) : Prop
  | kept (h : t.upgradedConns = s.upgradedConns)
      (hp : ∀ conn, e.Prefaces cfg items conn → (s.upgradedConns.lookup conn).isSome)
      (hc : ∀ conn, ¬e.Closes cfg conn)
  | upgraded (conn : Ip4Conn) (h : t.upgradedConns = (upgradeConn s conn).upgradedConns)
      (hp : ∀ c, e.Prefaces cfg items c ↔ c = conn) (hc : ∀ conn, ¬e.Closes cfg conn)
  | closed (conn : Ip4Conn) (h : t.upgradedConns = s.upgradedConns.erase conn)
      (hp : ∀ conn, ¬e.Prefaces cfg items conn) (hc : ∀ c, e.Closes cfg c ↔ c = conn)

theorem verdictHttp1_prefaced {msg : SkMsg} {n : Nat}
    (hm : Http1.matched (Http1.parseMsg cfg.http1 msg .zero).pres 0 = true)
    (hret : (Http1.parseMsg cfg.http1 msg .zero).ret = .ok n) :
    (verdictHttp1 cfg s msg).state.upgradedConns = (upgradeConn s msg.conn).upgradedConns := by
  unfold verdictHttp1
  simp only [hret, hm, if_true]
  rfl

theorem verdictHttp1_other {msg : SkMsg}
    (hm : ¬Http1.matched (Http1.parseMsg cfg.http1 msg .zero).pres 0 = true) :
    (verdictHttp1 cfg s msg).state.upgradedConns = s.upgradedConns := by
  unfold verdictHttp1
  simp only [if_neg hm]
  split <;> rfl

theorem skbVerdictHttp1_prefaced {skb : SkBuff} {off n : Nat}
    (hm : Http1.matched (Http1.parseSkb cfg.http1 skb off .zero none).pres 0 = true)
    (hret : (Http1.parseSkb cfg.http1 skb off .zero none).ret = .ok n) :
    (skbVerdictHttp1 cfg s skb off).state.upgradedConns = (upgradeConn s skb.conn).upgradedConns := by
  unfold skbVerdictHttp1
  simp only [hret, hm, if_true]
  rfl

theorem skbVerdictHttp1_other {skb : SkBuff} {off : Nat}
    (hm : ¬Http1.matched (Http1.parseSkb cfg.http1 skb off .zero none).pres 0 = true) :
    (skbVerdictHttp1 cfg s skb off).state.upgradedConns = s.upgradedConns := by
  unfold skbVerdictHttp1
  simp only [if_neg hm]
  split <;> rfl

theorem msgVerdict_upgrading (ha : Attached items cfg.http1) (hm : (.preface, 0) ∈ items)
    (s : State) (msg : SkMsg) (room : Bool) (hp : msg.pullable = true) :
    Upgrading cfg items s (msgVerdict cfg s msg room).state (.sent msg room) := by
  obtain ⟨hseen, hdone⟩ := Http1.parseMsg_preface ha hm hp
  have hnot : ∀ conn, ¬(Event.sent msg room).Closes cfg conn := fun _ h => h
  unfold msgVerdict
  simp only
  cases hskip : cfg.skips (decide (msg.conn.remoteAddr = cfg.server)) with
  | true =>
    refine .kept rfl ?_ hnot
    rintro conn ⟨rfl, hparsed, -⟩
    cases hskip.symm.trans hparsed
  | false =>
    simp only [Bool.false_eq_true, if_false]
    cases hup : s.upgradedConns.lookup msg.conn with
    | some flag =>
      refine .kept (verdictHttp2_upgraded ..) ?_ hnot
      rintro conn ⟨rfl, -⟩
      rw [hup]
      rfl
    | none =>
      by_cases hs : msg.linear ≠ 0 ∧ StartsPreface items msg.bytes
      · obtain ⟨n, hn⟩ := hdone hs
        refine .upgraded msg.conn (verdictHttp1_prefaced (hseen.mpr hs) hn) ?_ hnot
        intro c
        constructor
        · rintro ⟨rfl, -⟩
          rfl
        · rintro rfl
          exact ⟨rfl, hskip, hs⟩
      · refine .kept (verdictHttp1_other fun h => hs (hseen.mp h)) ?_ hnot
        rintro conn ⟨-, -, h⟩
        exact absurd h hs

theorem skbVerdict_upgrading (ha : Attached items cfg.http1) (hm : (.preface, 0) ∈ items)
    (s : State) (skb : SkBuff) (off : Nat) (room : Bool) (hp : skb.pullable = true) :
    Upgrading cfg items s (skbVerdict cfg s skb off room).state (.arrived skb off room) := by
  obtain ⟨hseen, hdone⟩ := @Http1.parseSkb_preface _ _ _ off ha hm hp
  have hnot : ∀ conn, ¬(Event.arrived skb off room).Closes cfg conn := fun _ h => h
  unfold skbVerdict
  simp only
  cases hskip : cfg.skips (decide (skb.conn.localAddr = cfg.server)) with
  | true =>
    refine .kept rfl ?_ hnot
    rintro conn ⟨rfl, hparsed, -⟩
    cases hskip.symm.trans hparsed
  | false =>
    simp only [Bool.false_eq_true, if_false]
    cases hup : s.upgradedConns.lookup skb.conn with
    | some flag =>
      refine .kept (skbVerdictHttp2_kept ..).1 ?_ hnot
      rintro conn ⟨rfl, -⟩
      rw [hup]
      rfl
    | none =>
      by_cases hs : off + 23 ≤ maxBytes ∧ StartsPreface items (skb.bytes.drop off)
      · obtain ⟨n, hn⟩ := hdone hs
        refine .upgraded skb.conn (skbVerdictHttp1_prefaced (hseen.mpr hs) hn) ?_ hnot
        intro c
        constructor
        · rintro ⟨rfl, -⟩
          rfl
        · rintro rfl
          exact ⟨rfl, hskip, hs⟩
      · refine .kept (skbVerdictHttp1_other fun h => hs (hseen.mp h)) ?_ hnot
        rintro conn ⟨-, -, h⟩
        exact absurd h hs

theorem monitorSockets_upgrading (cfg : Config) (items : List (Item × MatchId)) (s : State)
    (op : SockOp) (conn : Ip4Conn) (room : Bool) :
    Upgrading cfg items s (monitorSockets cfg s op conn room).state (.socket op conn room) := by
  have hno : ∀ c, ¬(Event.socket op conn room).Prefaces cfg items c := fun _ h => h
  unfold monitorSockets
  cases op with
  | tcpClose =>
    simp only
    by_cases hends : conn.remoteAddr = cfg.server ∨ conn.localAddr = cfg.server
    · rw [if_pos (by simpa using hends)]
      refine .closed conn rfl hno fun c => ?_
      constructor
      · rintro ⟨rfl, -⟩
        rfl
      · rintro rfl
        exact ⟨rfl, hends⟩
    · rw [if_neg (by simpa using hends)]
      refine .kept rfl (fun c h => absurd h (hno c)) ?_
      rintro c ⟨-, h⟩
      exact hends h
  | established => exact .kept rfl (fun c h => absurd h (hno c)) fun _ h => h
  | other => exact .kept rfl (fun c h => absurd h (hno c)) fun _ h => h

theorem next_upgrading (ha : Attached items cfg.http1) (hm : (.preface, 0) ∈ items) (s : State)
    (hp : e.Pullable) : Upgrading cfg items s (e.next cfg s) e := by
  cases e with
  | sent msg room => exact msgVerdict_upgrading ha hm s msg room hp
  | arrived skb off room => exact skbVerdict_upgrading ha hm s skb off room hp
  | socket op conn room => exact monitorSockets_upgrading cfg items s op conn room
  | forgotten conn => exact .kept rfl (fun c h => absurd h id) fun _ h => h

section Steps

theorem Upgrading.keeps (h : Upgrading cfg items s t e) (hs : (s.upgradedConns.lookup c).isSome)
    (hc : ¬e.Closes cfg c) : (t.upgradedConns.lookup c).isSome := by
  cases h with
  | kept h hp hno => rwa [h]
  | upgraded conn h hp hno =>
    rw [h]
    exact upgradeConn_kept s conn hs
  | closed conn h hp hcl =>
    rw [h, BoundedMap.lookup_erase, if_neg fun heq => hc ((hcl c).mpr heq)]
    exact hs

theorem Upgrading.sound (h : Upgrading cfg items s t e) (ht : (t.upgradedConns.lookup c).isSome) :
    ¬e.Closes cfg c ∧ ((s.upgradedConns.lookup c).isSome ∨ e.Prefaces cfg items c ∨
      e.Prefaces cfg items (reversed c)) := by
  cases h with
  | kept h hp hno =>
    rw [h] at ht
    exact ⟨hno c, .inl ht⟩
  | upgraded conn h hp hno =>
    rw [h] at ht
    refine ⟨hno c, ?_⟩
    rcases upgradeConn_sound ht with hs | rfl | rfl
    · exact .inl hs
    · exact .inr (.inl ((hp c).mpr rfl))
    · exact .inr (.inr ((hp _).mpr rfl))
  | closed conn h hp hcl =>
    rw [h, BoundedMap.lookup_erase] at ht
    split at ht
    · cases ht
    · next hne => exact ⟨fun hc => hne ((hcl c).mp hc), .inl ht⟩

theorem Upgrading.added (h : Upgrading cfg items s t e) (hp : e.Prefaces cfg items conn)
    (hnew : s.upgradedConns.lookup conn = none) (hroom : s.upgradedConns.card + 2 ≤ maxConns)
    (hc : c = conn ∨ c = reversed conn) : (t.upgradedConns.lookup c).isSome := by
  cases h with
  | kept h hseen hno =>
    have hsome := hseen conn hp
    rw [hnew] at hsome
    cases hsome
  | upgraded conn' h hseen hno =>
    cases (hseen conn).mp hp
    rw [h]
    exact upgradeConn_added hroom hc
  | closed conn' h hno hcl => exact absurd hp (hno conn)

/-- What an event can do to the dynamic tables: nothing, parse a message of a connection that was
upgraded as HTTP/2, or forget a connection. -/
inductive Parses (s t : State) : Prop
  | same (h : t.maps = s.maps)
  | parsed (conn : Ip4Conn) (header : Prop) (ann : Option Nat) (hup : (s.upgradedConns.lookup conn).isSome)
      (h : Http2.MapsStep conn header ann s.maps t.maps)
  | forgotten (conn : Ip4Conn) (h : Http2.forgetConn s.maps conn = some t.maps)

theorem verdictHttp1_maps (cfg : Config) (s : State) (msg : SkMsg) :
    (verdictHttp1 cfg s msg).state.maps = s.maps := by
  unfold verdictHttp1 storeMatches upgradeConn
  simp only
  split
  · split <;> rfl
  · split <;> rfl
  · rfl

theorem skbVerdictHttp1_maps (cfg : Config) (s : State) (skb : SkBuff) (off : Nat) :
    (skbVerdictHttp1 cfg s skb off).state.maps = s.maps := by
  unfold skbVerdictHttp1 storeMatches upgradeConn
  simp only
  split
  · rfl
  · split <;> rfl

theorem next_parses (cfg : Config) (s : State) (e : Event) : Parses s (e.next cfg s) := by
  cases e with
  | sent msg room =>
    simp only [Event.next]
    unfold msgVerdict
    simp only
    split
    · exact .same rfl
    · cases hup : s.upgradedConns.lookup msg.conn with
      | none => exact .same (verdictHttp1_maps cfg s msg)
      | some flag =>
        refine .parsed msg.conn (Http2.hdrType msg.bytes 0 = Http2.http2HeadersFrame)
          (Http2.msgTableSize msg) (by rw [hup]; rfl) ?_
        simp only [verdictHttp2_maps]
        exact Http2.parseMsg_step ..
  | arrived skb off room =>
    simp only [Event.next]
    unfold skbVerdict
    simp only
    split
    · exact .same rfl
    · cases hup : s.upgradedConns.lookup skb.conn with
      | none => exact .same (skbVerdictHttp1_maps cfg s skb off)
      | some flag =>
        refine .parsed skb.conn (Http2.hdrType skb.bytes off = Http2.http2HeadersFrame)
          (Http2.skbTableSize skb off none) (by rw [hup]; rfl) ?_
        simp only [(skbVerdictHttp2_kept ..).2]
        exact Http2.parseSkb_step ..
  | socket op conn room =>
    simp only [Event.next]
    unfold monitorSockets
    cases op with
    | tcpClose =>
      simp only
      split <;> exact .same rfl
    | established => exact .same rfl
    | other => exact .same rfl
  | forgotten conn =>
    simp only [Event.next]
    cases hf : Http2.forgetConn s.maps conn with
    | none => exact .same rfl
    | some maps => exact .forgotten conn hf

theorem Parses.sound (h : Parses s t) (hs : Http2.StoreOk s.maps) :
    Http2.StoreOk t.maps ∧ ((t.maps.dynamicTableInfo.lookup c).isSome →
      (s.maps.dynamicTableInfo.lookup c).isSome ∨ (s.upgradedConns.lookup c).isSome) := by
  cases h with
  | same h =>
    rw [h]
    exact ⟨hs, .inl⟩
  | parsed conn header ann hup h =>
    obtain ⟨hok, hsame⟩ := h.storeOk hs
    refine ⟨hok, fun ht => ?_⟩
    by_cases hc : c = conn
    · exact .inr (hc ▸ hup)
    · exact .inl ((hsame c hc).info ▸ ht)
  | forgotten conn h =>
    obtain ⟨hnone, -, hsame, -⟩ := Http2.forgetConn_spec hs h
    refine ⟨Http2.forgetConn_storeOk hs h, fun ht => ?_⟩
    by_cases hc : c = conn
    · rw [hc, hnone] at ht
      cases ht
    · exact .inl ((hsame c hc).info ▸ ht)

end Steps

/-- A message of the connection, or of its other end, has started with the preface, and the
connection was not closed since. -/
def Prefaced (cfg : Config) (items : List (Item × MatchId)) (es : List Event) (conn : Ip4Conn) :
    Prop :=
  ∃ front e back, es = front ++ e :: back ∧
    (e.Prefaces cfg items conn ∨ e.Prefaces cfg items (reversed conn)) ∧
    ∀ d ∈ back, ¬d.Closes cfg conn

theorem Prefaced.concat (h : Prefaced cfg items es conn) (hc : ¬e.Closes cfg conn) :
    Prefaced cfg items (es ++ [e]) conn := by
  obtain ⟨front, d, back, rfl, hp, hback⟩ := h
  refine ⟨front, d, back ++ [e], by simp, hp, fun d' hd => ?_⟩
  rcases List.mem_append.mp hd with hd | hd
  · exact hback d' hd
  · cases List.mem_singleton.mp hd
    exact hc

theorem run_upgraded_sound (ha : Attached items cfg.http1) (hm : (.preface, 0) ∈ items)
    (hp : ∀ e ∈ es, e.Pullable) (h : ((run cfg es).upgradedConns.lookup conn).isSome) :
    Prefaced cfg items es conn := by
  induction es using List.reverseRecOn with
  | nil => cases h
  | append_singleton es e ih =>
    rw [run_concat] at h
    have hup := next_upgrading ha hm (run cfg es) (hp e (by simp))
    obtain ⟨hclose, hs | hpre⟩ := hup.sound h
    · exact (ih (fun d hd => hp d (by simp [hd])) hs).concat hclose
    · exact ⟨es, e, [], rfl, hpre, by simp⟩

theorem run_upgraded_kept (ha : Attached items cfg.http1) (hm : (.preface, 0) ∈ items)
    {front back : List Event} (hp : ∀ e ∈ back, e.Pullable)
    (h : ((run cfg front).upgradedConns.lookup conn).isSome)
    (hback : ∀ d ∈ back, ¬d.Closes cfg conn) :
    ((run cfg (front ++ back)).upgradedConns.lookup conn).isSome := by
  induction back using List.reverseRecOn with
  | nil => rwa [List.append_nil]
  | append_singleton back e ih =>
    rw [← List.append_assoc, run_concat]
    exact (next_upgrading ha hm _ (hp e (by simp))).keeps
      (ih (fun d hd => hp d (by simp [hd])) fun d hd => hback d (by simp [hd])) (hback e (by simp))

theorem run_tables_sound (ha : Attached items cfg.http1) (hm : (.preface, 0) ∈ items)
    (hp : ∀ e ∈ es, e.Pullable) : Http2.StoreOk (run cfg es).maps ∧
      (((run cfg es).maps.dynamicTableInfo.lookup conn).isSome → ∃ front e back,
        es = front ++ e :: back ∧
          (e.Prefaces cfg items conn ∨ e.Prefaces cfg items (reversed conn))) := by
  induction es using List.reverseRecOn with
  | nil =>
    refine ⟨.init, fun h => ?_⟩
    cases h
  | append_singleton es e ih =>
    have hpes : ∀ d ∈ es, d.Pullable := fun d hd => hp d (by simp [hd])
    obtain ⟨hok, hsound⟩ := ih hpes
    obtain ⟨hok', hstep⟩ := @Parses.sound _ _ conn (next_parses cfg (run cfg es) e) hok
    rw [run_concat]
    refine ⟨hok', fun h => ?_⟩
    rcases hstep h with hs | hs
    · obtain ⟨front, d, back, rfl, hd⟩ := hsound hs
      exact ⟨front, d, back ++ [e], by simp, hd⟩
    · obtain ⟨front, d, back, rfl, hd, -⟩ := run_upgraded_sound ha hm hpes hs
      exact ⟨front, d, back ++ [e], by simp, hd⟩

/-- In every run, a connection is parsed as HTTP/2 only if a message of one of its ends has started
with the preface and this end was not closed since. Conversely both ends are as soon as there is such
a message, if there is room, until they are closed. No other connection ever has a dynamic table. -/
theorem run_upgraded (ha : Attached items cfg.http1) (hm : (.preface, 0) ∈ items)
    (hp : ∀ e ∈ es, e.Pullable) (conn : Ip4Conn) :
    (((run cfg es).upgradedConns.lookup conn).isSome → Prefaced cfg items es conn) ∧
    (∀ front e back c, es = front ++ e :: back → e.Prefaces cfg items c →
      (run cfg front).upgradedConns.lookup c = none →
      (run cfg front).upgradedConns.card + 2 ≤ maxConns → (conn = c ∨ conn = reversed c) →
      (∀ d ∈ back, ¬d.Closes cfg conn) →
      ((run cfg es).upgradedConns.lookup conn).isSome) ∧
    (((run cfg es).maps.dynamicTableInfo.lookup conn).isSome → ∃ front e back,
      es = front ++ e :: back ∧
        (e.Prefaces cfg items conn ∨ e.Prefaces cfg items (reversed conn))) := by
  refine ⟨run_upgraded_sound ha hm hp, ?_, (run_tables_sound ha hm hp).2⟩
  rintro front e back c rfl hpre hnew hroom hc hback
  have hadded := (next_upgrading ha hm (run cfg front) (hp e (by simp))).added hpre hnew hroom hc
  rw [← run_concat] at hadded
  have hkept := run_upgraded_kept ha hm (fun d hd => hp d (by simp [hd])) hadded hback
  rwa [List.append_assoc] at hkept

/-- The preface, as a client sends it. -/
def prefaceSent : Event := .sent (Http2.linearMsg Http1.http2Preface Http2.tableConn true) true

theorem run_upgraded_preface : ∃ cfg : Config, Attached [(.preface, 0)] cfg.http1 ∧
    ((run cfg [prefaceSent]).upgradedConns.lookup (reversed Http2.tableConn)).isSome := by
  have hvalid : Http1.ValidCalls [.matchHttp2Preface] := by decide +kernel
  obtain ⟨rd, hrd, -⟩ := @Http1.attached_of_check [.matchHttp2Preface] [(.preface, 0)]
    (fun _ => true) hvalid (by decide +kernel)
  let cfg : Config := ⟨Http2.tableConn.remoteAddr, false, true, false, rd, .zero⟩
  have hpullable : ∀ e ∈ [prefaceSent], e.Pullable := by
    intro e he
    cases List.mem_singleton.mp he
    rfl
  have hpre : prefaceSent.Prefaces cfg [(.preface, 0)] Http2.tableConn :=
    ⟨rfl, rfl, by decide, .inl ⟨[], List.append_nil _⟩⟩
  refine ⟨cfg, hrd, ?_⟩
  exact (@run_upgraded cfg _ _ hrd (by decide) hpullable (reversed Http2.tableConn)).2.1 []
    prefaceSent [] Http2.tableConn rfl hpre rfl (Nat.le_of_ble_eq_true rfl) (.inr rfl) (by simp)

end Beeper.Prog
