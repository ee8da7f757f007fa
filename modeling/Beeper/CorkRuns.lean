import Beeper.CorkMessage

namespace Beeper.Http2

/-- What a caller learns from a parse: the value it returns, the frame it describes, the dynamic
tables it leaves and the value each match id resolves to right after it. -/
structure Outcome where
  ret : Except Errno Nat
  frame : Http2Frame
  dynamicTable : DynamicTableMap
  dynamicTableInfo : DynamicTableInfoMap
  captures : Nat → Except Errno Bytes

def outcome (rd : Rodata) (p : ParsedMsg) : Outcome :=
  ⟨p.ret, p.frame, p.maps.dynamicTable, p.maps.dynamicTableInfo,
    getMatchMsg rd p.maps p.msg p.pres⟩

variable {rd : Rodata} {conn : Ip4Conn} {pullable : Bool} {frame : Http2Frame}

theorem Alike.outcome_eq {p p' : ParsedMsg} (h : Alike rd p p') : outcome rd p' = outcome rd p := by
  simp only [outcome, h.ret, h.frame, h.tables.entries, h.tables.infos, Outcome.mk.injEq, true_and]
  exact funext h.captures

/-- How a caller at the hook goes on after a parse. It waits for a frame header where the parser
returns 0 and for `frame.need` bytes where it returns `-EAGAIN`. -/
def corkTurn (rd : Rodata) (conn : Ip4Conn) (pullable : Bool) (frame : Http2Frame) (maps : Maps)
    (bytes : Bytes) : Cork.Turn Maps Outcome :=
  let p := parseLinear rd maps conn pullable frame bytes
  match p.ret with
  | .ok 0 => .wait http2FrameHdrLen p.maps
  | .ok len => .take (outcome rd p) len p.maps
  | .error .EAGAIN => .wait p.frame.need p.maps
  | .error _ => .fail (outcome rd p) p.maps

theorem parseLinear_short {maps : Maps} {b : Bytes} (h : b.length < http2FrameHdrLen) :
    parseLinear rd maps conn pullable frame b =
      ⟨⟨.ok 0, maps, .zero, frame, none⟩, linearMsg b conn pullable⟩ := by
  unfold parseLinear parseMsg
  refine if_pos ?_
  simpa only [SkMsg.data, linearMsg, List.take_length] using h

theorem corkTurn_short {maps : Maps} {b : Bytes} (h : b.length < http2FrameHdrLen) :
    corkTurn rd conn pullable frame maps b = .wait http2FrameHdrLen maps := by
  simp only [corkTurn, parseLinear_short h]

/-- A turn at a message of at least a frame header goes by what the parser returns. -/
theorem corkTurn_again {maps : Maps} {b : Bytes}
    (h : (parseLinear rd maps conn pullable frame b).ret = .error .EAGAIN) :
    corkTurn rd conn pullable frame maps b =
      .wait (parseLinear rd maps conn pullable frame b).frame.need
        (parseLinear rd maps conn pullable frame b).maps := by
  simp only [corkTurn, h]

theorem corkTurn_ok {maps : Maps} {b : Bytes} {len : Nat} (hl : http2FrameHdrLen ≤ len)
    (h : (parseLinear rd maps conn pullable frame b).ret = .ok len) :
    corkTurn rd conn pullable frame maps b =
      .take (outcome rd (parseLinear rd maps conn pullable frame b)) len
        (parseLinear rd maps conn pullable frame b).maps := by
  simp only [corkTurn, h]
  cases len with
  | zero => exact absurd hl (by decide)
  | succ len => rfl

theorem corkTurn_error {maps : Maps} {b : Bytes} {e : Errno} (he : e ≠ .EAGAIN)
    (h : (parseLinear rd maps conn pullable frame b).ret = .error e) :
    corkTurn rd conn pullable frame maps b =
      .fail (outcome rd (parseLinear rd maps conn pullable frame b))
        (parseLinear rd maps conn pullable frame b).maps := by
  simp only [corkTurn, h]

/-- Where a turn waits, the message holds no frame header or the parser asks for more. -/
theorem corkTurn_wait {maps s' : Maps} {b : Bytes} {need : Nat}
    (h : corkTurn rd conn pullable frame maps b = .wait need s') :
    (b.length < http2FrameHdrLen ∧ need = http2FrameHdrLen ∧ s' = maps) ∨
      (http2FrameHdrLen ≤ b.length ∧
        (parseLinear rd maps conn pullable frame b).ret = .error .EAGAIN ∧
        need = (parseLinear rd maps conn pullable frame b).frame.need ∧
        s' = (parseLinear rd maps conn pullable frame b).maps) := by
  by_cases h9 : b.length < http2FrameHdrLen
  · rw [corkTurn_short h9] at h
    cases h
    exact .inl ⟨h9, rfl, rfl⟩
  · rw [Nat.not_lt] at h9
    cases hret : (parseLinear rd maps conn pullable frame b).ret with
    | ok len =>
      rw [corkTurn_ok (parseLinear_total h9 hret) hret] at h
      cases h
    | error e =>
      by_cases he : e = .EAGAIN
      · subst he
        rw [corkTurn_again hret] at h
        cases h
        exact .inr ⟨h9, rfl, rfl, rfl⟩
      · rw [corkTurn_error he hret] at h
        cases h

/-- Where a turn does not wait, its message is parsed like any longer one. -/
theorem corkTurn_alike {maps maps' : Maps} {b x : Bytes} (hm : SameTables maps maps')
    (hw : ∀ need s', corkTurn rd conn pullable frame maps b ≠ .wait need s') :
    http2FrameHdrLen ≤ b.length ∧ Alike rd (parseLinear rd maps conn pullable frame b)
      (parseLinear rd maps' conn pullable frame (b ++ x)) := by
  have h9 : http2FrameHdrLen ≤ b.length := Nat.not_lt.mp fun h9 => hw _ _ (corkTurn_short h9)
  exact ⟨h9, parseLinear_alike frame hm h9 fun hret => absurd (corkTurn_again hret) (hw _ _)⟩

/-- The need a parse asks for is one that a caller can rely on, however the stream is cut. -/
theorem corkTurn_stable (rd : Rodata) (conn : Ip4Conn) (pullable : Bool) (frame : Http2Frame) :
    Cork.Stable (corkTurn rd conn pullable frame) SameTables where
  refl := SameTables.refl
  nil maps := ⟨_, _, corkTurn_short (by decide)⟩
  wait {maps b need s'} h := by
    obtain ⟨h9, rfl, rfl⟩ | ⟨h9, hret, rfl, rfl⟩ := corkTurn_wait h
    · exact ⟨h9, .refl _⟩
    · exact parseLinear_again h9 hret
  again {maps maps' b need s' x} hm h hx := by
    obtain ⟨h9, rfl, rfl⟩ | ⟨h9, hret, rfl, rfl⟩ := corkTurn_wait h
    · exact ⟨maps', corkTurn_short hx⟩
    · have ha := parseLinear_alike frame hm h9 fun _ => hx
      rw [← ha.frame]
      exact ⟨_, corkTurn_again (ha.ret.trans hret)⟩
  take {maps maps' b out len s' x} hm h := by
    obtain ⟨h9, ha⟩ := corkTurn_alike (x := x) hm fun _ _ hw => nomatch h.symm.trans hw
    cases hret : (parseLinear rd maps conn pullable frame b).ret with
    | ok k =>
      have hk := parseLinear_total h9 hret
      rw [corkTurn_ok hk hret] at h
      cases h
      refine ⟨by unfold http2FrameHdrLen at hk; omega, _, ha.tables, ?_⟩
      rw [corkTurn_ok hk (ha.ret.trans hret), ha.outcome_eq]
    | error e =>
      by_cases he : e = .EAGAIN
      · rw [corkTurn_again (he ▸ hret)] at h
        cases h
      · rw [corkTurn_error he hret] at h
        cases h
  fail {maps maps' b out s' x} hm h := by
    obtain ⟨h9, ha⟩ := corkTurn_alike (x := x) hm fun _ _ hw => nomatch h.symm.trans hw
    cases hret : (parseLinear rd maps conn pullable frame b).ret with
    | ok k =>
      rw [corkTurn_ok (parseLinear_total h9 hret) hret] at h
      cases h
    | error e =>
      by_cases he : e = .EAGAIN
      · rw [corkTurn_again (he ▸ hret)] at h
        cases h
      · rw [corkTurn_error he hret] at h
        cases h
        rw [corkTurn_error he (ha.ret.trans hret), ha.outcome_eq]
        exact ⟨_, rfl⟩

/-- What a caller may rely on after it parsed the message `m`, if the message is there as a whole
or goes on as `m ++ x`. -/
structure Corks (rd : Rodata) (maps : Maps) (conn : Ip4Conn) (pullable : Bool) (frame : Http2Frame)
    (m : Bytes) : Prop where
  more : (parseLinear rd maps conn pullable frame m).ret = .error .EAGAIN →
    m.length < (parseLinear rd maps conn pullable frame m).frame.need
  same : ∀ x, (parseLinear rd maps conn pullable frame m).ret = .error .EAGAIN →
    (m ++ x).length < (parseLinear rd maps conn pullable frame m).frame.need →
    (parseLinear rd maps conn pullable frame (m ++ x)).ret = .error .EAGAIN ∧
      (parseLinear rd maps conn pullable frame (m ++ x)).frame.need =
        (parseLinear rd maps conn pullable frame m).frame.need
  progress : ∀ x, (parseLinear rd maps conn pullable frame m).ret = .error .EAGAIN →
    (parseLinear rd maps conn pullable frame m).frame.need ≤ (m ++ x).length →
    (parseLinear rd maps conn pullable frame (m ++ x)).ret = .error .EAGAIN →
    (parseLinear rd maps conn pullable frame m).frame.need <
      (parseLinear rd maps conn pullable frame (m ++ x)).frame.need
  final : (parseLinear rd maps conn pullable frame m).ret ≠ .ok 0 →
    (parseLinear rd maps conn pullable frame m).ret ≠ .error .EAGAIN →
    ∀ x, Alike rd (parseLinear rd maps conn pullable frame m)
      (parseLinear rd maps conn pullable frame (m ++ x))

theorem parseLinear_corks {maps : Maps} {m : Bytes} (h9 : http2FrameHdrLen ≤ m.length) :
    Corks rd maps conn pullable frame m where
  more hret := (parseLinear_again h9 hret).1
  same x hret hx := by
    have ha := parseLinear_alike frame (.refl maps) h9 fun _ => hx
    exact ⟨ha.ret.trans hret, by rw [ha.frame]⟩
  progress x hret hx hret' :=
    Nat.lt_of_le_of_lt hx
      (parseLinear_again (Nat.le_trans h9 (length_extend m x)) hret').1
  final _ hret x := parseLinear_alike frame (.refl maps) h9 fun h => absurd h hret

/-- The cork protocol, and what it is for: however a stream is cut into chunks, feeding it gives
the outcomes of the stream as a whole. -/
theorem parseMsg_corks (rd : Rodata) (conn : Ip4Conn) (pullable : Bool) (frame : Http2Frame)
    (maps : Maps) :
    (∀ m, http2FrameHdrLen ≤ m.length → Corks rd maps conn pullable frame m) ∧
      ∀ chunks, Cork.feedAll (corkTurn rd conn pullable frame) (.start maps) chunks =
        Cork.results (corkTurn rd conn pullable frame) (chunks.flatten.length + 1) maps
          chunks.flatten :=
  ⟨fun _ h9 => parseLinear_corks h9, fun chunks =>
    (corkTurn_stable rd conn pullable frame).feedAll_eq maps chunks⟩

end Beeper.Http2
