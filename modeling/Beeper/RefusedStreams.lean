import Beeper.Refusals

namespace Beeper.Http2

section Collect

variable {data : Bytes} {off rounds o pos sid n total : Nat} {first : Bool} {buf : BlockBuf}

/-- A round that reads its frame asks for no more than that frame. -/
theorem asksForMore_ok {k : Nat} (h : checkFrame data off first o pos sid = .ok k)
    (hn : o + (http2FrameHdrLen + hdrLen data o) ≤ n) :
    asksForMore data first o sid n = none := by
  obtain ⟨hmax, -, -, -⟩ := checkFrame_ok h
  unfold asksForMore
  rw [if_neg (by omega), if_neg (by omega)]
  split
  · rfl
  · exact if_neg (by omega)

/-- The frames of a block that is put together lie within the bytes it takes up. -/
theorem collectLoop_span (ho : off ≤ o)
    (h : (collectLoop data off rounds first o pos sid buf).ret = .ok total) :
    o + (http2FrameHdrLen + hdrLen data o) ≤ off + total ∧ off + total ≤ data.length := by
  induction rounds generalizing first o pos sid buf with
  | zero => cases h
  | succ rounds ih =>
    simp only [collectLoop, collectFrame] at h
    cases hc : checkFrame data off first o pos sid with
    | error e =>
      simp only [hc] at h
      cases h
    | ok k =>
      have hfit := (checkFrame_ok hc).2.1
      simp only [hc] at h
      by_cases hend : hdrFlags data o &&& http2EndHeadersFlag ≠ 0
      · simp only [if_pos hend] at h
        have htotal := Except.ok.inj h
        omega
      · simp only [if_neg hend] at h
        obtain ⟨hle, hlen⟩ := ih (by omega) h
        exact ⟨by omega, hlen⟩

/-- What follows those bytes makes no difference. -/
theorem collectLoop_front (ho : off ≤ o)
    (h : (collectLoop data off rounds first o pos sid buf).ret = .ok total)
    (hn : off + total ≤ n) (hlen : n ≤ data.length) :
    collectLoop (data.take n) off rounds first o pos sid buf =
      collectLoop data off rounds first o pos sid buf := by
  induction rounds generalizing first o pos sid buf with
  | zero => rfl
  | succ rounds ih =>
    obtain ⟨hspan, -⟩ := collectLoop_span ho h
    simp only [collectLoop] at h ⊢
    cases hc : checkFrame data off first o pos sid with
    | error e =>
      simp only [collectFrame, hc] at h
      cases h
    | ok k =>
      rw [collectFrame_take hlen (asksForMore_ok hc (by omega))]
      simp only [collectFrame, hc] at h ⊢
      by_cases hend : hdrFlags data o &&& http2EndHeadersFlag ≠ 0
      · simp only [if_pos hend]
      · simp only [if_neg hend] at h ⊢
        exact ih (by omega) h

end Collect

variable {rd : Rodata} {maps maps' : Maps} {conn : Ip4Conn} {pullable : Bool} {frame f : Http2Frame}
  {b : Bytes} {len : Nat}

/-- A block that was read is put together in the same way if nothing follows it. -/
theorem collectBlock_take {buf : BlockBuf}
    (h : (collectBlock (b.take (min b.length maxBytes)) 0 buf).ret = .ok len) :
    http2FrameHdrLen + hdrLen b 0 ≤ len ∧
      (collectBlock ((b.take len).take (min (b.take len).length maxBytes)) 0 buf).ret = .ok len := by
  obtain ⟨hspan, hdata⟩ := collectLoop_span (Nat.le_refl 0) h
  have h9 : http2FrameHdrLen ≤ len := collectLoop_total (Nat.le_refl 0) h
  simp only [Nat.zero_add] at hspan hdata
  have hdata' := hdata
  rw [List.length_take] at hdata
  rw [hdrLen_take (by omega)] at hspan
  refine ⟨hspan, ?_⟩
  have hlen : (b.take len).length = len := List.length_take_of_le (by omega)
  have hfront : (b.take len).take (min (b.take len).length maxBytes) =
      (b.take (min b.length maxBytes)).take len := by
    rw [hlen, List.take_take, List.take_take, Nat.min_eq_left (Nat.min_le_left len maxBytes),
      Nat.min_eq_left (a := len) (b := maxBytes) (by omega),
      Nat.min_eq_left (a := len) (b := min b.length maxBytes) (by omega)]
  rw [hfront]
  exact (congrArg Collected.ret (collectLoop_front (Nat.le_refl 0) h (by omega) hdata')).trans h

/-- A message that was parsed does not ask for more if nothing follows it. -/
theorem parseLinear_take (h9 : http2FrameHdrLen ≤ len) (hlen : len ≤ b.length)
    (h : (parseLinear rd maps conn pullable frame b).ret = .ok len) :
    (parseLinear rd maps conn pullable frame (b.take len)).ret ≠ .error .EAGAIN := by
  have htake : (b.take len).length = len := List.length_take_of_le hlen
  have hf : newHttp2Frame (b.take len) 0 = newHttp2Frame b 0 := newHttp2Frame_take (by omega)
  have hl : (newHttp2Frame b 0).len = hdrLen b 0 := rfl
  rw [parseLinear_eq (Nat.le_trans h9 hlen)] at h
  rw [parseLinear_eq (by omega), hf]
  generalize newHttp2Frame b 0 = f at *
  by_cases hv : violatesBlockRules f.type f.sid
  · rw [parseMsgFrame_reject hv] at h
    simp only [rejectFrame] at h
    split at h <;> cases h
  by_cases hp : isParsedFrame f.type f.flags
  swap
  · rw [parseMsgFrame_skip hv hp]
    exact fun h => by cases h
  by_cases hs : b.length < http2FrameHdrLen + f.len
  · rw [parseMsgFrame_short hv hp hs] at h
    cases h
  have hsize := Nat.not_lt.mp hs
  by_cases hb : f.type = http2HeadersFrame ∧ f.flags &&& http2EndHeadersFlag = 0
  · by_cases hpull : pullable = true
    swap
    · rw [parseMsgFrame_block hv hsize hb, pullData_none hpull] at h
      cases h
    obtain ⟨msg, -, hmsg⟩ := linear_pulled rd maps conn hpull (Nat.le_trans h9 hlen) hv hsize hb
    rw [hmsg] at h
    obtain ⟨hfirst, hc⟩ := collectBlock_take (parseBlock_collected (neverRead_ok h))
    obtain ⟨msg', -, hmsg'⟩ := linear_pulled rd maps conn hpull (b := b.take len) (by omega) hv
      (by omega) hb
    rw [hmsg']
    intro hagain
    obtain ⟨hret, -⟩ := neverRead_again hagain
    have hnone := (parseBlock_again rd maps _ 0 f none .zero hret).1
    cases hc.symm.trans hnone
  · by_cases hpull : pullable = true
    swap
    · rw [parseMsgFrame_frame hv hp hsize hb, pullData_none hpull] at h
      cases h
    obtain ⟨msg, -, hmsg⟩ := linear_whole rd maps conn hpull hv hp hsize hb
    rw [hmsg] at h
    have hk := (map_ok h).1
    obtain ⟨msg', -, hmsg'⟩ := linear_whole rd maps conn hpull (b := b.take len) hv hp (by omega) hb
    rw [hmsg']
    intro hagain
    exact absurd (map_again hagain) (parseFrame_not_again rd maps _ 0 f.len f.type f.flags .zero f)

/-- By how much a caller passes over what was refused: a frame that breaks the rules for header
blocks. -/
def passOver (o : Outcome) : Option Nat :=
  if o.ret = .error .EPROTO then some (http2FrameHdrLen + o.frame.len) else none

theorem corkTurn_take {maps' : Maps} {out : Outcome}
    (h : corkTurn rd conn pullable frame maps b = .take out len maps') :
    http2FrameHdrLen ≤ b.length ∧ http2FrameHdrLen ≤ len ∧
      (parseLinear rd maps conn pullable frame b).ret = .ok len ∧
      out = outcome rd (parseLinear rd maps conn pullable frame b) := by
  by_cases h9 : b.length < http2FrameHdrLen
  · rw [corkTurn_short h9] at h
    cases h
  rw [Nat.not_lt] at h9
  cases hret : (parseLinear rd maps conn pullable frame b).ret with
  | ok k =>
    have hk := parseLinear_total h9 hret
    rw [corkTurn_ok hk hret] at h
    cases h
    exact ⟨h9, hk, rfl, rfl⟩
  | error e =>
    by_cases he : e = .EAGAIN
    · rw [corkTurn_again (he ▸ hret)] at h
      cases h
    · rw [corkTurn_error he hret] at h
      cases h

theorem corkTurn_fail {maps' : Maps} {out : Outcome}
    (h : corkTurn rd conn pullable frame maps b = .fail out maps') :
    ∃ e, (parseLinear rd maps conn pullable frame b).ret = .error e ∧ out.ret = .error e ∧
      maps' = (parseLinear rd maps conn pullable frame b).maps := by
  by_cases h9 : b.length < http2FrameHdrLen
  · rw [corkTurn_short h9] at h
    cases h
  rw [Nat.not_lt] at h9
  cases hret : (parseLinear rd maps conn pullable frame b).ret with
  | ok k =>
    rw [corkTurn_ok (parseLinear_total h9 hret) hret] at h
    cases h
  | error e =>
    by_cases he : e = .EAGAIN
    · rw [corkTurn_again (he ▸ hret)] at h
      cases h
    · rw [corkTurn_error he hret] at h
      cases h
      exact ⟨e, rfl, hret, rfl⟩

theorem corkTurn_passable (rd : Rodata) (conn : Ip4Conn) (pullable : Bool) (frame : Http2Frame) :
    Cork.Passable (corkTurn rd conn pullable frame) SameTables passOver where
  equiv := ⟨.refl, .symm, .trans⟩
  keeps {maps b out len maps'} h hover := by
    obtain ⟨e, hret, hout, rfl⟩ := corkTurn_fail h
    unfold passOver at hover
    split at hover
    swap
    · cases hover
    next hproto =>
    cases hout.symm.trans hproto
    refine ⟨?_, (parseMsg_refused hret fun hlate => hlate.ne.2.1 rfl).tables⟩
    have := Option.some.inj hover
    unfold http2FrameHdrLen at this
    omega
  taken {maps b out len maps'} h := by
    obtain ⟨-, -, hret, rfl⟩ := corkTurn_take h
    refine if_neg fun hproto => ?_
    cases hret.symm.trans hproto
  settled {maps b out len maps'} h hlen need t hw := by
    obtain ⟨h9, hk, hret, -⟩ := corkTurn_take h
    rcases corkTurn_wait hw with ⟨hshort, -, -⟩ | ⟨-, hagain, -, -⟩
    · rw [List.length_take_of_le hlen] at hshort
      omega
    · exact parseLinear_take hk hlen hret hagain

/-- How a caller goes on that passes over such frames. -/
def skipTurn (rd : Rodata) (conn : Ip4Conn) (pullable : Bool) (frame : Http2Frame) :
    Maps → Bytes → Cork.Turn Maps Outcome :=
  Cork.skipping (corkTurn rd conn pullable frame) passOver

theorem skipTurn_stable (rd : Rodata) (conn : Ip4Conn) (pullable : Bool) (frame : Http2Frame) :
    Cork.Stable (skipTurn rd conn pullable frame) SameTables :=
  (corkTurn_stable rd conn pullable frame).skipping (corkTurn_passable rd conn pullable frame)

end Beeper.Http2
