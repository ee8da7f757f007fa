import Mathlib.Data.List.Induction
import Beeper.Verdict

namespace Beeper.Prog

/-- What the program sees of a run: a message that is sent or that arrives, a change of a socket, and
user space forgetting a connection. -/
inductive Event
  | sent (msg : SkMsg) (room : Bool)
  | arrived (skb : SkBuff) (off : Nat) (room : Bool)
  | socket (op : SockOp) (conn : Ip4Conn) (room : Bool)
  | forgotten (conn : Ip4Conn)

def Event.next (cfg : Config) (s : State) : Event → State
  | .sent msg room => (msgVerdict cfg s msg room).state
  | .arrived skb off room => (skbVerdict cfg s skb off room).state
  | .socket op conn room => (monitorSockets cfg s op conn room).state
  | .forgotten conn => { s with maps := (Http2.forgetConn s.maps conn).getD s.maps }

/-- The state of the program after a run. -/
def run (cfg : Config) (es : List Event) : State := es.foldl (Event.next cfg) .init

theorem run_concat (cfg : Config) (es : List Event) (e : Event) :
    run cfg (es ++ [e]) = e.next cfg (run cfg es) := by
  unfold run
  rw [List.foldl_concat]

section Fold

variable {matched : Nat → Bool} {get : Nat → Except Errno Bytes} {m : Matches} {i : Nat}

theorem storeMatched_testBit : (storeMatched matched).testBit i =
    (decide (i < maxMatches) && matched i) := by
  have hfold : ∀ n, ((List.range n).foldl (fun mask i => if matched i then mask ||| 1 <<< i
      else mask) 0).testBit i = (decide (i < n) && matched i) := by
    intro n
    induction n with
    | zero => simp
    | succ n ih =>
      rw [List.range_succ, List.foldl_concat]
      by_cases hi : i = n
      · subst hi
        cases hm : matched i with
        | true => simp [Nat.one_shiftLeft, Nat.testBit_two_pow_self]
        | false =>
          rw [hm, Bool.and_false] at ih
          simpa using ih
      · have hlt : decide (i < n + 1) = decide (i < n) := decide_eq_decide.mpr (by omega)
        rw [hlt, ← ih]
        split
        · rw [Nat.testBit_or, Nat.one_shiftLeft, Nat.testBit_two_pow_of_ne (Ne.symm hi),
            Bool.or_false]
        · rfl
  unfold storeMatched
  exact hfold maxMatches

/-- The ids that `matches` has values for. -/
def Below (m : Matches) : Prop := ∀ i, (m.lookup i).isSome → i < maxMatches

theorem storeMatch_lookup (hm : Below m) {k : Nat} (hk : k < maxMatches) (res : Except Errno Bytes)
    (i : Nat) : (storeMatch m k res).lookup i =
      if i = k then res.toOption.map matchBytes else m.lookup i := by
  unfold storeMatch
  cases res with
  | error e => exact BoundedMap.lookup_erase m k i
  | ok str =>
    obtain ⟨m', hu⟩ := BoundedMap.update_below hm hk (matchBytes str)
    simp only [hu, Option.getD_some]
    exact BoundedMap.lookup_update hu i

theorem storeMatch_below (hm : Below m) {k : Nat} (hk : k < maxMatches) (res : Except Errno Bytes) :
    Below (storeMatch m k res) := by
  intro i hi
  rw [storeMatch_lookup hm hk] at hi
  split at hi
  · omega
  · exact hm i hi

theorem storeAll_lookup (hm : Below m) : (storeAll m get).lookup i =
    if i < maxMatches then (get i).toOption.map matchBytes else m.lookup i := by
  have hfold : ∀ n ≤ maxMatches, Below ((List.range n).foldl (fun m i => storeMatch m i (get i)) m) ∧
      ((List.range n).foldl (fun m i => storeMatch m i (get i)) m).lookup i =
        if i < n then (get i).toOption.map matchBytes else m.lookup i := by
    intro n hn
    induction n with
    | zero => exact ⟨hm, rfl⟩
    | succ n ih =>
      obtain ⟨hb, hl⟩ := ih (Nat.le_of_succ_le hn)
      rw [List.range_succ, List.foldl_concat]
      refine ⟨storeMatch_below hb hn _, ?_⟩
      rw [storeMatch_lookup hb hn, hl]
      by_cases hi : i = n
      · rw [if_pos hi, if_pos (by omega), hi]
      · rw [if_neg hi]
        by_cases hlt : i < n
        · rw [if_pos hlt, if_pos (by omega)]
        · rw [if_neg hlt, if_neg (by omega)]
  unfold storeAll
  exact (hfold maxMatches (Nat.le_refl _)).2

end Fold

/-- The captures of a message, as the parser that parsed it reports them. -/
structure Captures where
  matched : Nat → Bool
  get : Nat → Except Errno Bytes

def noCaptures : Captures := ⟨fun _ => false, fun _ => .error .ENOENT⟩

/-- What user space reads of the captures `c`. -/
structure Visible (s : State) (c : Captures) : Prop where
  bit : ∀ i, s.lastMatches.testBit i = (decide (i < maxMatches) && c.matched i)
  value : ∀ i, s.captured.lookup i =
    if i < maxMatches then (c.get i).toOption.map matchBytes else none

def sentCaptures (cfg : Config) (s : State) (msg : SkMsg) : Option Captures :=
  match s.upgradedConns.lookup msg.conn with
  | some _ =>
    let p := Http2.parseMsg cfg.http2 s.maps msg .zero zeroFrame
    match p.ret with
    | .ok len => if 9 < len then some ⟨Http2.matched p.pres,
        Http2.getMatchMsg cfg.http2 p.maps p.msg p.pres⟩ else none
    | .error .EAGAIN => none
    | .error _ => some noCaptures
  | none =>
    let p := Http1.parseMsg cfg.http1 msg .zero
    match p.ret with
    | .ok _ | .error .E2BIG => some ⟨Http1.matched p.pres, Http1.getMatchMsg p.msg p.pres⟩
    | .error _ => none

def arrivedCaptures (cfg : Config) (s : State) (skb : SkBuff) (off : Nat) : Option Captures :=
  match s.upgradedConns.lookup skb.conn with
  | some _ =>
    let p := Http2.parseSkb cfg.http2 s.maps skb off .zero zeroFrame none
    match p.ret with
    | .ok len => if 9 < len then some ⟨Http2.matched p.pres,
        Http2.getMatchSkb cfg.http2 p.maps p.skb p.pres⟩ else none
    | .error _ => some noCaptures
  | none =>
    let p := Http1.parseSkb cfg.http1 skb off .zero none
    match p.ret with
    | .ok _ => some ⟨Http1.matched p.pres, Http1.getMatchSkb p.skb p.pres⟩
    | .error _ => none

/-- What an event leaves for user space to read: the captures of its message if it was parsed, and
none at all if it failed to parse as HTTP/2. Any other event leaves what there was. -/
def Event.captures (cfg : Config) (s : State) : Event → Option Captures
  | .sent msg _ => if cfg.skips (decide (msg.conn.remoteAddr = cfg.server)) then none
      else sentCaptures cfg s msg
  | .arrived skb off _ => if cfg.skips (decide (skb.conn.localAddr = cfg.server)) then none
      else arrivedCaptures cfg s skb off
  | .socket .. | .forgotten _ => none

/-- The captures are those of `c`, or as they were if there is no `c`. -/
def Leaves (s t : State) : Option Captures → Prop
  | none => t.lastMatches = s.lastMatches ∧ t.captured = s.captured
  | some c => t.lastMatches = storeMatched c.matched ∧ t.captured = storeAll s.captured c.get

theorem clearMatches_leaves (s : State) : Leaves s (clearMatches s) (some noCaptures) := by
  constructor
  · apply Nat.eq_of_testBit_eq
    intro i
    rw [storeMatched_testBit]
    simp [clearMatches, noCaptures]
  · unfold clearMatches eraseAll storeAll
    rfl

theorem verdictHttp2_leaves (cfg : Config) (s : State) (msg : SkMsg) (upstream room : Bool)
    {flag : Nat} (hup : s.upgradedConns.lookup msg.conn = some flag) :
    Leaves s (verdictHttp2 cfg s msg upstream room).state (sentCaptures cfg s msg) := by
  unfold verdictHttp2 sentCaptures
  simp only [hup]
  generalize Http2.parseMsg cfg.http2 s.maps msg .zero zeroFrame = p
  cases hret : p.ret with
  | ok len =>
    cases len with
    | zero => exact ⟨rfl, rfl⟩
    | succ len =>
      simp only
      split
      · exact ⟨rfl, rfl⟩
      · exact ⟨rfl, rfl⟩
  | error e =>
    cases e with
    | EAGAIN => exact ⟨rfl, rfl⟩
    | _ => exact clearMatches_leaves _

theorem verdictHttp1_leaves (cfg : Config) (s : State) (msg : SkMsg)
    (hup : s.upgradedConns.lookup msg.conn = none) :
    Leaves s (verdictHttp1 cfg s msg).state (sentCaptures cfg s msg) := by
  unfold verdictHttp1 sentCaptures
  simp only [hup]
  generalize Http1.parseMsg cfg.http1 msg .zero = p
  have hstore : ∀ t : State, Leaves s t none → Leaves s
      (storeMatches (if Http1.matched p.pres 0 then upgradeConn t msg.conn else t)
        (Http1.matched p.pres) (Http1.getMatchMsg p.msg p.pres))
      (some ⟨Http1.matched p.pres, Http1.getMatchMsg p.msg p.pres⟩) := by
    intro t ht
    refine ⟨rfl, ?_⟩
    unfold storeMatches
    split <;> exact congrArg (storeAll · _) ht.2
  cases hret : p.ret with
  | ok len => exact hstore _ ⟨rfl, rfl⟩
  | error e =>
    cases e with
    | E2BIG => exact hstore _ ⟨rfl, rfl⟩
    | _ => exact ⟨rfl, rfl⟩

theorem skbVerdictHttp2_leaves (cfg : Config) (s : State) (skb : SkBuff) (off : Nat)
    (upstream room : Bool) {flag : Nat} (hup : s.upgradedConns.lookup skb.conn = some flag) :
    Leaves s (skbVerdictHttp2 cfg s skb off upstream room).state
      (arrivedCaptures cfg s skb off) := by
  unfold skbVerdictHttp2 arrivedCaptures
  simp only [hup]
  generalize Http2.parseSkb cfg.http2 s.maps skb off .zero zeroFrame none = p
  cases hret : p.ret with
  | ok len =>
    simp only
    split
    · exact ⟨rfl, rfl⟩
    · exact ⟨rfl, rfl⟩
  | error e => exact clearMatches_leaves _

theorem skbVerdictHttp1_leaves (cfg : Config) (s : State) (skb : SkBuff) (off : Nat)
    (hup : s.upgradedConns.lookup skb.conn = none) :
    Leaves s (skbVerdictHttp1 cfg s skb off).state (arrivedCaptures cfg s skb off) := by
  unfold skbVerdictHttp1 arrivedCaptures
  simp only [hup]
  generalize Http1.parseSkb cfg.http1 skb off .zero none = p
  cases hret : p.ret with
  | ok len =>
    refine ⟨rfl, ?_⟩
    unfold storeMatches
    simp only
    split <;> rfl
  | error e => exact ⟨rfl, rfl⟩

theorem monitorSockets_leaves (cfg : Config) (s : State) (op : SockOp) (conn : Ip4Conn)
    (room : Bool) : Leaves s (monitorSockets cfg s op conn room).state none := by
  unfold monitorSockets
  cases op with
  | tcpClose =>
    simp only
    split
    · exact ⟨rfl, rfl⟩
    · exact ⟨rfl, rfl⟩
  | established => exact ⟨rfl, rfl⟩
  | other => exact ⟨rfl, rfl⟩

theorem next_leaves (cfg : Config) (s : State) (e : Event) :
    Leaves s (e.next cfg s) (e.captures cfg s) := by
  cases e with
  | sent msg room =>
    unfold Event.next Event.captures
    simp only
    unfold msgVerdict
    simp only
    split
    · exact ⟨rfl, rfl⟩
    · cases hup : s.upgradedConns.lookup msg.conn with
      | none => exact verdictHttp1_leaves cfg s msg hup
      | some flag => exact verdictHttp2_leaves cfg s msg _ room hup
  | arrived skb off room =>
    unfold Event.next Event.captures
    simp only
    unfold skbVerdict
    simp only
    split
    · exact ⟨rfl, rfl⟩
    · cases hup : s.upgradedConns.lookup skb.conn with
      | none => exact skbVerdictHttp1_leaves cfg s skb off hup
      | some flag => exact skbVerdictHttp2_leaves cfg s skb off _ room hup
  | socket op conn room => exact monitorSockets_leaves cfg s op conn room
  | forgotten conn => exact ⟨rfl, rfl⟩

theorem Visible.below {s : State} {c : Captures} (hv : Visible s c) : Below s.captured := by
  intro i hi
  rw [hv.value i] at hi
  split at hi
  · assumption
  · cases hi

theorem Visible.leaves {s t : State} {c : Captures} (hv : Visible s c) {o : Option Captures}
    (hl : Leaves s t o) : Visible t (o.getD c) := by
  cases o with
  | none => exact ⟨fun i => hl.1 ▸ hv.bit i, fun i => hl.2 ▸ hv.value i⟩
  | some d =>
    constructor
    · intro i
      rw [hl.1]
      exact storeMatched_testBit
    · intro i
      have hnone : ¬i < maxMatches → s.captured.lookup i = none := by
        intro hi
        rw [hv.value i, if_neg hi]
      rw [hl.2, storeAll_lookup hv.below]
      by_cases hi : i < maxMatches
      · rw [if_pos hi, if_pos hi]
        rfl
      · rw [if_neg hi, if_neg hi, hnone hi]

/-- No event of `later` leaves captures of its own, coming after `front`. -/
def Quiet (cfg : Config) (front later : List Event) : Prop :=
  ∀ mid e rest, later = mid ++ e :: rest → e.captures cfg (run cfg (front ++ mid)) = none

theorem Quiet.concat {cfg : Config} {front later : List Event} (hq : Quiet cfg front later)
    {e : Event} (he : e.captures cfg (run cfg (front ++ later)) = none) :
    Quiet cfg front (later ++ [e]) := by
  intro mid d rest heq
  rcases List.eq_nil_or_concat rest with rfl | ⟨rest', z, rfl⟩
  · obtain ⟨rfl, hde⟩ := List.append_inj' heq rfl
    cases hde
    exact he
  · have hsplit : later ++ [e] = (mid ++ d :: rest') ++ [z] := by simpa using heq
    exact hq mid d rest' (List.append_inj' hsplit rfl).1

/-- `c` is what the last event of a run that left captures has left. -/
def Last (cfg : Config) (es : List Event) (c : Captures) : Prop :=
  (c = noCaptures ∧ Quiet cfg [] es) ∨
  ∃ front e back, es = front ++ e :: back ∧ e.captures cfg (run cfg front) = some c ∧
    Quiet cfg (front ++ [e]) back

theorem Last.concat {cfg : Config} {es : List Event} {c : Captures} (hl : Last cfg es c)
    (e : Event) : Last cfg (es ++ [e]) ((e.captures cfg (run cfg es)).getD c) := by
  cases he : e.captures cfg (run cfg es) with
  | some d =>
    right
    refine ⟨es, e, [], rfl, he, ?_⟩
    intro mid d' rest heq
    exact absurd heq (by simp)
  | none =>
    rcases hl with ⟨hc, hq⟩ | ⟨front, d, back, rfl, hd, hq⟩
    · exact .inl ⟨hc, hq.concat he⟩
    · refine .inr ⟨front, d, back ++ [e], by simp, hd, hq.concat ?_⟩
      rw [List.append_assoc]
      exact he

theorem init_visible : Visible .init noCaptures := by
  constructor
  · intro i
    simp [State.init, noCaptures]
  · intro i
    split <;> rfl

/-- A value is only captured for an id that is reported as matched. -/
def Captures.Sound (c : Captures) : Prop := ∀ i, (c.get i).toOption.isSome → c.matched i = true

theorem noCaptures_sound : noCaptures.Sound := by
  intro i hi
  cases hi

theorem http1Sound (data : Bytes) (pres : HttpParseRes) :
    Captures.Sound ⟨Http1.matched pres, Http1.getMatch data pres⟩ := by
  intro i hi
  simp only [Http1.getMatch] at hi
  simp only [Http1.matched]
  by_cases hm : maxMatches ≤ i
  · rw [if_pos hm] at hi
    cases hi
  · by_cases hz : (pres.get i).len = 0
    · rw [if_neg hm, if_pos hz] at hi
      cases hi
    · have hpos : (0 : UInt16) < (pres.get i).len := UInt16.pos_iff_ne_zero.mpr hz
      rw [if_neg hm, decide_eq_true_iff]
      exact hpos

theorem http2Sound (pres : HttpParseRes) (str : HttpMatch → Except Errno Bytes) :
    Captures.Sound ⟨Http2.matched pres, fun i => if maxMatches ≤ i then .error .EINVAL
      else if ¬Http2.isCaptured (pres.get i) then .error .ENOENT else str (pres.get i)⟩ := by
  intro i hi
  simp only at hi
  simp only [Http2.matched]
  by_cases hm : maxMatches ≤ i
  · rw [if_pos hm] at hi
    cases hi
  · by_cases hc : Http2.isCaptured (pres.get i)
    · rw [if_neg hm]
      exact hc
    · rw [if_neg hm, if_pos hc] at hi
      cases hi

theorem captures_sound {cfg : Config} {s : State} {e : Event} {c : Captures}
    (hc : e.captures cfg s = some c) : c.Sound := by
  cases e with
  | sent msg room =>
    simp only [Event.captures, sentCaptures] at hc
    split at hc
    · cases hc
    · split at hc
      · split at hc
        · split at hc
          · cases hc
            exact http2Sound _ _
          · cases hc
        · cases hc
        · cases hc
          exact noCaptures_sound
      · split at hc
        · cases hc
          exact http1Sound _ _
        · cases hc
          exact http1Sound _ _
        · cases hc
  | arrived skb off room =>
    simp only [Event.captures, arrivedCaptures] at hc
    split at hc
    · cases hc
    · split at hc
      · split at hc
        · split at hc
          · cases hc
            exact http2Sound _ _
          · cases hc
        · cases hc
          exact noCaptures_sound
      · split at hc
        · cases hc
          exact http1Sound _ _
        · cases hc
  | socket op conn room => cases hc
  | forgotten conn => cases hc

theorem Last.sound {cfg : Config} {es : List Event} {c : Captures} (hl : Last cfg es c) :
    c.Sound := by
  rcases hl with ⟨rfl, -⟩ | ⟨front, e, back, -, he, -⟩
  · exact noCaptures_sound
  · exact captures_sound he

theorem Visible.value_matched {s : State} {c : Captures} (hv : Visible s c) (hc : c.Sound) {i : Nat}
    (hi : (s.captured.lookup i).isSome) : s.lastMatches.testBit i = true := by
  have hlt := hv.below i hi
  rw [hv.value i, if_pos hlt, Option.isSome_map] at hi
  rw [hv.bit i, hc i hi, Bool.and_true, decide_eq_true_iff]
  exact hlt

/-- Whatever messages were sent and arrived on whatever connections, and whichever sockets opened and
closed in between, `matches` and `last_matches` hold the captures of one message: the last one that
was parsed, or none if a message failed to parse as HTTP/2 after it. No value is there for an id that
is not among the last matches. -/
theorem run_matches (cfg : Config) (es : List Event) :
    ∃ c, Last cfg es c ∧ Visible (run cfg es) c ∧
      ∀ i, ((run cfg es).captured.lookup i).isSome → (run cfg es).lastMatches.testBit i = true := by
  have hboth : ∃ c, Last cfg es c ∧ Visible (run cfg es) c := by
    induction es using List.reverseRecOn with
    | nil =>
      refine ⟨noCaptures, .inl ⟨rfl, ?_⟩, init_visible⟩
      intro mid e rest heq
      exact absurd heq (by simp)
    | append_singleton es e ih =>
      obtain ⟨c, hl, hv⟩ := ih
      refine ⟨_, hl.concat e, ?_⟩
      rw [run_concat]
      exact hv.leaves (next_leaves cfg _ e)
  obtain ⟨c, hl, hv⟩ := hboth
  exact ⟨c, hl, hv, fun i hi => hv.value_matched hl.sound hi⟩

end Beeper.Prog
