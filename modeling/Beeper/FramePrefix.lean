import Beeper.Frame

namespace Beeper.Http2

variable {data : Bytes} {n o : Nat}

theorem byteAt_take {i : Nat} (h : i < n) : byteAt (data.take n) i = byteAt data i := by
  unfold byteAt
  rw [List.getElem?_take_of_lt h]

theorem hdrLen_take (h : o + http2FrameHdrLen ≤ n) : hdrLen (data.take n) o = hdrLen data o := by
  unfold http2FrameHdrLen at h
  simp only [hdrLen, byteAt_take (show o < n by omega), byteAt_take (show o + 1 < n by omega),
    byteAt_take (show o + 2 < n by omega)]

theorem hdrType_take (h : o + http2FrameHdrLen ≤ n) :
    hdrType (data.take n) o = hdrType data o := by
  unfold http2FrameHdrLen at h
  exact byteAt_take (by omega)

theorem hdrFlags_take (h : o + http2FrameHdrLen ≤ n) :
    hdrFlags (data.take n) o = hdrFlags data o := by
  unfold http2FrameHdrLen at h
  exact byteAt_take (by omega)

theorem hdrSid_take (h : o + http2FrameHdrLen ≤ n) : hdrSid (data.take n) o = hdrSid data o := by
  unfold http2FrameHdrLen at h
  simp only [hdrSid, byteAt_take (show o + 5 < n by omega), byteAt_take (show o + 6 < n by omega),
    byteAt_take (show o + 7 < n by omega), byteAt_take (show o + 8 < n by omega)]

theorem newHttp2Frame_take (h : o + http2FrameHdrLen ≤ n) :
    newHttp2Frame (data.take n) o = newHttp2Frame data o := by
  simp only [newHttp2Frame, hdrLen_take h, hdrType_take h, hdrFlags_take h, hdrSid_take h]

theorem slice_take {i len : Nat} (h : i + len ≤ n) : slice (data.take n) i len = slice data i len := by
  unfold slice
  rw [List.drop_take, List.take_take, Nat.min_eq_left (by omega)]

theorem padLen_take {isHdr : Bool} {flags : Nat}
    (h : isPadded isHdr flags → o + http2FrameHdrLen < n) :
    padLen (data.take n) o isHdr flags = padLen data o isHdr flags := by
  unfold padLen
  split
  next hp => exact byteAt_take (h hp)
  next => rfl

/-- Whether a round asks for more than the `n` bytes at hand. -/
def asksForMore (data : Bytes) (first : Bool) (o sid n : Nat) : Option Nat :=
  if maxBytes < o then none
  else if n < o + http2FrameHdrLen then some (o + http2FrameHdrLen)
  else if ¬first ∧ (hdrType data o ≠ http2ContinuationFrame ∨ hdrSid data o ≠ sid) then none
  else if n < o + (http2FrameHdrLen + hdrLen data o) then
    some (o + (http2FrameHdrLen + hdrLen data o))
  else none

theorem asksForMore_take {sid : Nat} {first : Bool} :
    asksForMore (data.take n) first o sid n = asksForMore data first o sid n := by
  unfold asksForMore
  split
  · rfl
  split
  · rfl
  next h =>
    have hle : o + http2FrameHdrLen ≤ n := by omega
    simp only [hdrType_take hle, hdrSid_take hle, hdrLen_take hle]

theorem asksForMore_lt {sid total : Nat} {first : Bool}
    (h : asksForMore data first o sid n = some total) : n < total ∧ o ≤ total := by
  unfold asksForMore at h
  split at h
  · simp at h
  split at h
  · have := Option.some.inj h
    omega
  split at h
  · simp at h
  split at h
  · have := Option.some.inj h
    omega
  · simp at h

/-- A round asks for the same amount until that much arrived. -/
theorem asksForMore_mono {sid total n' : Nat} {first : Bool} (hn : n ≤ n') (ht : n' < total)
    (h : asksForMore data first o sid n = some total) :
    asksForMore data first o sid n' = some total := by
  unfold asksForMore at h ⊢
  split at h
  · simp at h
  next hmax =>
  rw [if_neg hmax]
  split at h
  · have := Option.some.inj h
    rw [if_pos (by omega), this]
  next hhdr =>
  rw [if_neg (by omega)]
  split at h
  · simp at h
  next hbreak =>
  rw [if_neg hbreak]
  split at h
  · have := Option.some.inj h
    rw [if_pos (by omega), this]
  · simp at h

theorem asksForMore_none_mono {sid n' : Nat} {first : Bool} (hn : n ≤ n')
    (h : asksForMore data first o sid n = none) : asksForMore data first o sid n' = none := by
  unfold asksForMore at h ⊢
  split at h
  next hmax => rw [if_pos hmax]
  next hmax =>
  split at h
  · simp at h
  next hhdr =>
  split at h
  next hbreak => rw [if_neg hmax, if_neg (by omega), if_pos hbreak]
  next hbreak =>
  split at h
  · simp at h
  · rw [if_neg hmax, if_neg (by omega), if_neg hbreak, if_neg (by omega)]

variable {off pos sid : Nat} {first : Bool} {buf : BlockBuf}

theorem checkFrame_asks {total : Nat} (pos : Nat) (ho : off ≤ o)
    (h : asksForMore data first o sid data.length = some total) :
    checkFrame data off first o pos sid = .error (.EAGAIN, total - off) := by
  unfold asksForMore at h
  unfold checkFrame
  split at h
  · simp at h
  next hmax =>
  rw [if_neg hmax]
  split at h
  next hhdr => rw [if_pos hhdr, ← Option.some.inj h, Nat.sub_add_comm ho]
  next hhdr =>
  rw [if_neg hhdr]
  split at h
  · simp at h
  next hbreak =>
  rw [if_neg hbreak]
  split at h
  next hbody => simp only [if_pos hbody, ← Option.some.inj h, Nat.sub_add_comm ho]
  next => simp at h

/-- The checks on a frame that asks for nothing read no further than that frame. -/
theorem checkFrame_take (off pos : Nat) (hn : n ≤ data.length) (h : asksForMore data first o sid n = none) :
    checkFrame (data.take n) off first o pos sid = checkFrame data off first o pos sid := by
  have hlen : (data.take n).length = n := List.length_take_of_le hn
  unfold asksForMore at h
  unfold checkFrame
  by_cases hmax : maxBytes < o
  · rw [if_pos hmax, if_pos hmax]
  rw [if_neg hmax] at h ⊢
  rw [if_neg hmax]
  split at h
  · simp at h
  next hhdr =>
  have hle : o + http2FrameHdrLen ≤ n := by omega
  rw [hlen, if_neg hhdr, if_neg (show ¬data.length < o + http2FrameHdrLen by omega)]
  simp only [hdrFlags_take hle, hdrSid_take hle, hdrType_take hle, hdrLen_take hle]
  split at h
  next hbreak => rw [if_pos hbreak, if_pos hbreak]
  next hbreak =>
  rw [if_neg hbreak, if_neg hbreak]
  split at h
  · simp at h
  next hbody =>
  rw [if_neg hbody, if_neg (show ¬data.length < o + (http2FrameHdrLen + hdrLen data o) by omega)]
  split
  · rfl
  next hpadded =>
  have hpad : padLen (data.take n) o first (hdrFlags data o) =
      padLen data o first (hdrFlags data o) := by
    apply padLen_take
    intro hp
    simp only [hp, true_and] at hpadded
    omega
  rw [hpad]

/-- A frame that passes is whole, and its part of the block fits the buffer. -/
theorem checkFrame_ok {k : Nat} (h : checkFrame data off first o pos sid = .ok k) :
    o ≤ maxBytes ∧ o + (http2FrameHdrLen + hdrLen data o) ≤ data.length ∧
      blockStart first (hdrFlags data o) + padLen data o first (hdrFlags data o) + k =
        http2FrameHdrLen + hdrLen data o ∧ pos + k ≤ blockMaxlen := by
  unfold checkFrame at h
  split at h
  · simp at h
  split at h
  · simp at h
  split at h
  · simp at h
  simp only at h
  split at h
  · simp at h
  split at h
  · simp at h
  split at h
  · simp at h
  split at h
  · simp at h
  have := Except.ok.inj h
  omega

theorem checkFrame_none {e : Errno} {need : Nat}
    (h : asksForMore data first o sid data.length = none)
    (hc : checkFrame data off first o pos sid = .error (e, need)) : e ≠ .EAGAIN := by
  unfold asksForMore at h
  unfold checkFrame at hc
  have hne : ∀ {e' : Errno}, e' ≠ .EAGAIN →
      (Except.error (e', 0) : Except (Errno × Nat) Nat) = .error (e, need) → e ≠ .EAGAIN := by
    intro e' he hc
    rw [← (Prod.mk.inj (Except.error.inj hc)).1]
    exact he
  split at h
  next hmax =>
    rw [if_pos hmax] at hc
    exact hne (by decide) hc
  next hmax =>
  rw [if_neg hmax] at hc
  split at h
  · simp at h
  next hhdr =>
  rw [if_neg hhdr] at hc
  split at h
  next hbreak =>
    rw [if_pos hbreak] at hc
    exact hne (by decide) hc
  next hbreak =>
  rw [if_neg hbreak] at hc
  split at h
  · simp at h
  next hbody =>
  simp only [if_neg hbody] at hc
  split at hc
  · exact hne (by decide) hc
  split at hc
  · exact hne (by decide) hc
  split at hc
  · exact hne (by decide) hc
  · simp at hc

theorem collectFrame_take (hn : n ≤ data.length) (h : asksForMore data first o sid n = none) :
    collectFrame (data.take n) off first o pos sid buf =
      collectFrame data off first o pos sid buf := by
  unfold collectFrame
  have hcheck := checkFrame_take off pos hn h
  cases hc : checkFrame (data.take n) off first o pos sid with
  | error e => rw [← hcheck, hc]
  | ok k =>
    have hlen : (data.take n).length = n := List.length_take_of_le hn
    obtain ⟨-, hbody, hk, -⟩ := checkFrame_ok hc
    rw [hlen] at hbody
    have hle : o + http2FrameHdrLen ≤ n := by omega
    rw [hdrFlags_take hle, hdrLen_take hle] at hk
    rw [hdrLen_take hle] at hbody
    rw [← hcheck, hc]
    simp only [hdrFlags_take hle, hdrSid_take hle, hdrLen_take hle]
    rw [slice_take (by omega)]

/-- What is collected out of the first bytes of a message: either it asks for more of them, the
same amount as long as less than that arrived, or what follows makes no difference. -/
theorem collectLoop_take (rounds : Nat) (first : Bool) (pos sid : Nat) (buf : BlockBuf) (hn : n ≤ data.length) (ho : off ≤ o) :
    let r := collectLoop (data.take n) off rounds first o pos sid buf
    (r.ret = .error .EAGAIN → n < off + r.blk.need ∧
      (data.length < off + r.blk.need → collectLoop data off rounds first o pos sid buf = r)) ∧
    (r.ret ≠ .error .EAGAIN → collectLoop data off rounds first o pos sid buf = r) := by
  induction rounds generalizing first o pos sid buf with
  | zero => simp [collectLoop]
  | succ rounds ih =>
    have hlen : (data.take n).length = n := List.length_take_of_le hn
    simp only [collectLoop]
    cases ha : asksForMore data first o sid n with
    | some total =>
      have hs := checkFrame_asks pos ho
        (show asksForMore (data.take n) first o sid (data.take n).length = some total by
          rw [hlen, asksForMore_take]
          exact ha)
      obtain ⟨hlt, hle⟩ := asksForMore_lt ha
      simp only [collectFrame, hs]
      refine ⟨fun _ => ⟨by omega, fun hd => ?_⟩, fun hne => absurd rfl hne⟩
      rw [checkFrame_asks pos ho (asksForMore_mono hn (by omega) ha)]
    | none =>
      rw [collectFrame_take hn ha]
      have hnone := asksForMore_none_mono hn ha
      cases hc : checkFrame data off first o pos sid with
      | error e =>
        have hne := checkFrame_none hnone hc
        simp only [collectFrame, hc]
        exact ⟨fun he => absurd (Except.error.inj he) hne, fun _ => trivial⟩
      | ok k =>
        simp only [collectFrame, hc]
        by_cases hend : hdrFlags data o &&& http2EndHeadersFlag ≠ 0
        · rw [if_pos hend]
          exact ⟨fun he => by simp at he, fun _ => rfl⟩
        · rw [if_neg hend]
          exact ih false _ _ _ (Nat.le_trans ho (Nat.le_add_right _ _))

end Beeper.Http2
