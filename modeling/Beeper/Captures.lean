import Beeper.Agreement
import Beeper.FramePrefix

namespace Beeper.Http2

variable {rd : Rodata} {n : Nat} {v w : View}

/-- Similar captures are read back alike, right after the parse. -/
theorem getMatchMsg_sim (maps maps' : Maps) {msg msg' : SkMsg} {pres pres' : HttpParseRes}
    (ha : Agree rd n v w) (hp : ∀ mid, CaptureSim n v w (pres.get mid) (pres'.get mid))
    (hv : newMsgCtx msg = v.ctx ∧ maps.blockBuf = v.buf)
    (hw : newMsgCtx msg' = w.ctx ∧ maps'.blockBuf = w.buf)
    (he : maps'.dynamicTable = maps.dynamicTable) (idx : Nat) :
    getMatchMsg rd maps' msg' pres' idx = getMatchMsg rd maps msg pres idx := by
  obtain ⟨hc, hr⟩ := (hp idx).read ha maps.dynamicTable
  unfold getMatchMsg getStr
  rw [hv.1, hv.2, hw.1, hw.2, he, hc]
  split
  · rfl
  split
  · rfl
  next h =>
    rw [← hc] at h
    rw [hr (by simpa using h)]

/-- Nothing is read back where nothing was captured. -/
theorem getMatchMsg_zero (maps : Maps) (msg : SkMsg) (idx : Nat) :
    getMatchMsg rd maps msg .zero idx =
      if maxMatches ≤ idx then .error .EINVAL else .error .ENOENT := by
  unfold getMatchMsg
  split
  · rfl
  · simp [HttpParseRes.zero, HttpParseRes.get, isCaptured, HttpMatch.zero]

section Errors

variable {ctx : MsgCtx} {buf : BlockBuf}

theorem runAction_error {st : HdrState} {e : Errno} (h : (runAction rd ctx buf st).1 = some e) :
    e = .EBADMSG := by
  unfold runAction at h
  simp only at h
  split at h <;> simp_all

theorem parseHdrByte_error {st : HdrState} {c : UInt8} {e : Errno}
    (h : (parseHdrByte rd ctx buf st c).1 = some e) : e = .EBADMSG := by
  unfold parseHdrByte at h
  simp only at h
  split at h
  · simp at h
  split at h
  · simp at h
  split at h
  · simp at h
  · exact runAction_error h

/-- A header block is only ever refused as a malformed one. -/
theorem feed_error {xs : List (UInt8 × Nat)} {st : HdrState} {e : Errno}
    (h : (feed rd ctx buf xs st).1 = some e) : e = .EBADMSG := by
  induction xs generalizing st with
  | nil => simp at h
  | cons x xs ih =>
    obtain ⟨c, i⟩ := x
    simp only [feed] at h
    split at h
    next e' st' hr =>
      cases Option.some.inj h
      exact parseHdrByte_error (by rw [hr])
    next => exact ih h

end Errors

section Collected

variable {data : Bytes} {off rounds o pos sid : Nat} {first : Bool} {buf : BlockBuf}

theorem collectFrame_ok {c : Collected} {total : Nat}
    (h : collectFrame data off first o pos sid buf = .stop c) (hr : c.ret = .ok total) :
    c.buf.len = c.blk.len ∧ c.blk.len ≤ blockMaxlen := by
  unfold collectFrame at h
  split at h
  next =>
    rw [← CollectStep.stop.inj h] at hr
    simp at hr
  next k hk =>
    simp only at h
    split at h
    · rw [← CollectStep.stop.inj h]
      exact ⟨rfl, (checkFrame_ok hk).2.2.2⟩
    · simp at h

/-- A block that was put together fits the buffer. -/
theorem collectLoop_ok {total : Nat}
    (h : (collectLoop data off rounds first o pos sid buf).ret = .ok total) :
    (collectLoop data off rounds first o pos sid buf).buf.len =
        (collectLoop data off rounds first o pos sid buf).blk.len ∧
      (collectLoop data off rounds first o pos sid buf).blk.len ≤ blockMaxlen := by
  induction rounds generalizing first o pos sid buf with
  | zero => simp [collectLoop] at h
  | succ rounds ih =>
    simp only [collectLoop] at h ⊢
    cases hc : collectFrame data off first o pos sid buf with
    | stop c =>
      rw [hc] at h
      exact collectFrame_ok hc h
    | next o' pos' sid' buf' =>
      rw [hc] at h
      exact ih h

/-- It took up at least the header of one frame. -/
theorem collectLoop_total {total : Nat} (ho : off ≤ o)
    (h : (collectLoop data off rounds first o pos sid buf).ret = .ok total) :
    http2FrameHdrLen ≤ total := by
  induction rounds generalizing first o pos sid buf with
  | zero => simp [collectLoop] at h
  | succ rounds ih =>
    simp only [collectLoop, collectFrame] at h
    cases hc : checkFrame data off first o pos sid with
    | error e => simp [hc] at h
    | ok k =>
      simp only [hc] at h
      split at h
      next c hstop =>
        split at hstop
        · rw [← CollectStep.stop.inj hstop] at h
          have := Except.ok.inj h
          omega
        · simp at hstop
      next hnext =>
        split at hnext
        · simp at hnext
        · cases hnext
          exact ih (by omega) h

theorem copy_data_lt {buf : BlockBuf} {pos i : Nat} (bytes : Bytes) (h : i < pos) :
    (buf.copy pos bytes).data i = buf.data i :=
  if_neg (Nat.not_le.mpr h)

theorem copy_data_ge {buf : BlockBuf} {pos i : Nat} {bytes : Bytes} (h : pos ≤ i)
    (hi : i - pos < bytes.length) : (buf.copy pos bytes).data i = bytes[i - pos] := by
  simp only [BlockBuf.copy, if_pos h, List.getElem?_eq_getElem hi, Option.getD_some]

/-- Two buffers hold the same first `pos` bytes. -/
def SameUpTo (pos : Nat) (buf buf' : BlockBuf) : Prop := ∀ i < pos, buf'.data i = buf.data i

theorem SameUpTo.copy {buf buf' : BlockBuf} {pos : Nat} (h : SameUpTo pos buf buf')
    (bytes : Bytes) : SameUpTo (pos + bytes.length) (buf.copy pos bytes) (buf'.copy pos bytes) := by
  intro i hi
  by_cases hp : i < pos
  · rw [copy_data_lt bytes hp, copy_data_lt bytes hp]
    exact h i hp
  · rw [copy_data_ge (by omega) (by omega), copy_data_ge (by omega) (by omega)]

variable (data off first o sid) in
/-- What was in the buffer before makes no difference to a round. -/
theorem collectFrame_buf {buf' : BlockBuf} (h : SameUpTo pos buf buf') :
    (∃ ret blk b b', collectFrame data off first o pos sid buf = .stop ⟨ret, blk, b⟩ ∧
        collectFrame data off first o pos sid buf' = .stop ⟨ret, blk, b'⟩ ∧
        ∀ total, ret = .ok total → b'.len = b.len ∧ SameUpTo b.len b b') ∨
      ∃ o' pos' sid' b b', collectFrame data off first o pos sid buf = .next o' pos' sid' b ∧
        collectFrame data off first o pos sid buf' = .next o' pos' sid' b' ∧
        SameUpTo pos' b b' := by
  unfold collectFrame
  cases hc : checkFrame data off first o pos sid with
  | error e => exact .inl ⟨_, _, _, _, rfl, rfl, by simp⟩
  | ok k =>
    obtain ⟨-, hbody, hk, -⟩ := checkFrame_ok hc
    have hcopy := h.copy (slice data (o + blockStart first (hdrFlags data o)) k)
    rw [slice_length (by omega)] at hcopy
    simp only
    split
    · exact .inl ⟨_, _, _, _, rfl, rfl, fun _ _ => ⟨rfl, hcopy⟩⟩
    · exact .inr ⟨_, _, _, _, _, rfl, rfl, hcopy⟩

theorem collectLoop_buf {buf' : BlockBuf} (h : SameUpTo pos buf buf') :
    let r := collectLoop data off rounds first o pos sid buf
    let r' := collectLoop data off rounds first o pos sid buf'
    r'.ret = r.ret ∧ r'.blk = r.blk ∧
      ∀ total, r.ret = .ok total → r'.buf.len = r.buf.len ∧ SameUpTo r.buf.len r.buf r'.buf := by
  induction rounds generalizing first o pos sid buf buf' with
  | zero => simp [collectLoop]
  | succ rounds ih =>
    simp only [collectLoop]
    rcases collectFrame_buf data off o sid first h with
      ⟨ret, blk, b, b', h1, h2, hb⟩ | ⟨o', pos', sid', b, b', h1, h2, hb⟩
    · rw [h1, h2]
      exact ⟨rfl, rfl, hb⟩
    · rw [h1, h2]
      exact ih hb

theorem SameUpTo.has {b b' : BlockBuf} {block : Bytes} (h : SameUpTo b.len b b')
    (hl : b'.len = b.len) (hb : b.Has block) : b'.Has block where
  len := hl.trans hb.len
  short := hb.short
  bytes i hi := by rw [h i (by rw [hb.len]; exact hi), hb.bytes i hi]

/-- What the buffer holds up to its length. -/
theorem BlockBuf.has_slice {b : BlockBuf} (h : b.len ≤ blockMaxlen) : b.Has (b.slice 0 b.len) where
  len := by simp [BlockBuf.slice]
  short := by simpa [BlockBuf.slice] using h
  bytes i hi := by simp [BlockBuf.slice]

end Collected

end Beeper.Http2
