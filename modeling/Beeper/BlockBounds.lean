import Beeper.Fed
import Beeper.BlockRead

namespace Beeper.Http2

/-- Whether the frame at `off` is a HEADERS frame. -/
def isHeaders (data : Bytes) (off : Nat) : Bool := decide (hdrType data off = http2HeadersFrame)

/-- The padding of the frame at `off`. -/
def framePad (data : Bytes) (off : Nat) : Nat :=
  padLen data off (isHeaders data off) (hdrFlags data off)

/-- The length of the frame at `off` without its padding. -/
def unpaddedLen (data : Bytes) (off : Nat) : Nat :=
  http2FrameHdrLen + hdrLen data off - framePad data off

/-- Where the block of the frame at `off` starts. -/
def blockBegin (data : Bytes) (off : Nat) : Nat :=
  blockStart (isHeaders data off) (hdrFlags data off) + off

/-- Where it ends, computed without wrap-around. -/
def blockEnd (data : Bytes) (off : Nat) : Nat := unpaddedLen data off + off

/-- The frame at `off` is one that is read on its own, and has arrived in full. -/
structure ReadAlone (data : Bytes) (off : Nat) : Prop where
  arrived : off + (http2FrameHdrLen + hdrLen data off) ≤ data.length
  kind : hdrType data off = http2HeadersFrame ∧
      hdrFlags data off &&& http2EndHeadersFlag ≠ 0 ∧ hdrSid data off ≠ 0 ∨
    hdrType data off = http2SettingsFrame ∧ hdrFlags data off = 0
  fits : blockStart (isHeaders data off) (hdrFlags data off) + framePad data off ≤
    http2FrameHdrLen + hdrLen data off

variable {data : Bytes} {off n : Nat}

theorem ReadAlone.padded (h : ReadAlone data off)
    (hp : isPadded (isHeaders data off) (hdrFlags data off)) :
    http2FrameHdrLen < http2FrameHdrLen + hdrLen data off := by
  have hfits := h.fits
  simp only [blockStart, if_pos hp] at hfits
  omega

theorem framePad_take (h : ReadAlone data off)
    (hn : off + (http2FrameHdrLen + hdrLen data off) ≤ n) :
    framePad (data.take n) off = framePad data off := by
  have h9 : off + http2FrameHdrLen ≤ n := by omega
  have hpad : padLen (data.take n) off (isHeaders data off) (hdrFlags data off) =
      padLen data off (isHeaders data off) (hdrFlags data off) := by
    apply padLen_take
    intro hp
    have := h.padded hp
    omega
  simp only [framePad, isHeaders, hdrType_take h9, hdrFlags_take h9]
  exact hpad

/-- All of this is read out of the frame itself. -/
theorem ReadAlone.take (h : ReadAlone data off)
    (hn : off + (http2FrameHdrLen + hdrLen data off) ≤ n) : ReadAlone (data.take n) off := by
  have h9 : off + http2FrameHdrLen ≤ n := by omega
  have hlen := h.arrived
  refine ⟨?_, ?_, ?_⟩
  · rw [hdrLen_take h9, List.length_take]
    omega
  · rw [hdrType_take h9, hdrFlags_take h9, hdrSid_take h9]
    exact h.kind
  · rw [framePad_take h hn, isHeaders, hdrType_take h9, hdrFlags_take h9, hdrLen_take h9]
    exact h.fits

theorem unpaddedLen_take (h : ReadAlone data off)
    (hn : off + (http2FrameHdrLen + hdrLen data off) ≤ n) :
    unpaddedLen (data.take n) off = unpaddedLen data off := by
  have h9 : off + http2FrameHdrLen ≤ n := by omega
  rw [unpaddedLen, framePad_take h hn, hdrLen_take h9, unpaddedLen]

theorem blockBegin_take (h9 : off + http2FrameHdrLen ≤ n) :
    blockBegin (data.take n) off = blockBegin data off := by
  simp only [blockBegin, isHeaders, hdrType_take h9, hdrFlags_take h9]

/-- The block is found, up to the 16 bits its end is kept in. -/
theorem ReadAlone.http2Block (h : ReadAlone data off) :
    http2Block (data.drop off) (hdrLen data off) (hdrType data off) (hdrFlags data off) =
      .ok (blockStart (isHeaders data off) (hdrFlags data off), unpaddedLen data off % 2 ^ 16) := by
  have hpad : padLen (data.drop off) 0 (isHeaders data off) (hdrFlags data off) =
      framePad data off := by
    unfold framePad padLen byteAt
    rw [List.getElem?_drop, Nat.zero_add]
  have hhdr : decide (hdrType data off = http2HeadersFrame) = isHeaders data off := rfl
  have harrived := h.arrived
  unfold Http2.http2Block
  simp only [hhdr, hpad]
  rw [if_neg, if_neg (Nat.not_lt.mpr h.fits)]
  · rfl
  · rintro ⟨hp, hlt⟩
    have := h.padded hp
    rw [List.length_drop] at hlt
    omega

variable {rd : Rodata} {maps : Maps} {ctx : MsgCtx} {pres : HttpParseRes} {f : Http2Frame}
  {p : Option Nat}

/-- The parse of the frame at `off`, given what its header says. -/
def parseAlone (rd : Rodata) (maps : Maps) (ctx : MsgCtx) (off : Nat) (pres : HttpParseRes)
    (f : Http2Frame) (p : Option Nat) : Parsed :=
  parseFrame rd maps ctx off (hdrLen ctx.data off) (hdrType ctx.data off) (hdrFlags ctx.data off)
    pres f p

def aloneFed (rd : Rodata) (maps : Maps) (ctx : MsgCtx) (off : Nat) (pres : HttpParseRes)
    (p : Option Nat) : List (UInt8 × Nat) :=
  parseFrameFed rd maps ctx off (hdrLen ctx.data off) (hdrType ctx.data off)
    (hdrFlags ctx.data off) pres p

variable (rd maps pres f p) in
/-- A frame is refused as too big where its end, kept in 16 bits, says so. -/
theorem parseAlone_tooBig (h : ReadAlone ctx.data off)
    (hbig : maxBytes < off ∨ maxBytes < off + unpaddedLen ctx.data off % 2 ^ 16) :
    parseAlone rd maps ctx off pres f p = ⟨.error .E2BIG, maps, pres, f, p⟩ := by
  unfold parseAlone parseFrame
  by_cases hoff : maxBytes < off
  · exact if_pos hoff
  · rw [if_neg hoff, h.http2Block]
    exact if_pos (hbig.resolve_left hoff)

/-- It is refused for that nowhere else. -/
theorem parseAlone_ne_tooBig (h : ReadAlone ctx.data off) (hoff : off ≤ maxBytes)
    (hfit : off + unpaddedLen ctx.data off % 2 ^ 16 ≤ maxBytes) :
    (parseAlone rd maps ctx off pres f p).ret ≠ .error .E2BIG := by
  unfold parseAlone parseFrame
  rw [if_neg (Nat.not_lt.mpr hoff), h.http2Block]
  simp only
  rw [if_neg (Nat.not_lt.mpr hfit)]
  generalize (getDynamicTable maps ctx.conn).2 = m
  intro hret
  by_cases hstg : hdrType ctx.data off = http2SettingsFrame
  · simp only [if_pos hstg] at hret
    split at hret
    next e he =>
      cases hret
      exact (parseStgFrom_error he).ne.2.2 rfl
    next => split at hret <;> cases hret
  · simp only [if_neg hstg] at hret
    split at hret
    next e he =>
      cases hret
      exact (parseHdrFrame_error he).ne.2.2 rfl
    next => split at hret <;> cases hret

/-- The offsets of the block, up to these 16 bits, are within the message. -/
theorem ReadAlone.walkStop (h : ReadAlone ctx.data off)
    (hfit : off + unpaddedLen ctx.data off % 2 ^ 16 ≤ maxBytes) :
    Http2.walkStop ctx (unpaddedLen ctx.data off % 2 ^ 16 + off) =
        unpaddedLen ctx.data off % 2 ^ 16 + off ∧
      blockBegin ctx.data off +
        (unpaddedLen ctx.data off % 2 ^ 16 + off - blockBegin ctx.data off) ≤ ctx.data.length := by
  have harrived := h.arrived
  have hfits := h.fits
  have hmod := Nat.mod_le (unpaddedLen ctx.data off) (2 ^ 16)
  have hlen : unpaddedLen ctx.data off ≤ http2FrameHdrLen + hdrLen ctx.data off := Nat.sub_le _ _
  refine ⟨walkStop_eq (by omega) (by omega), ?_⟩
  unfold blockBegin
  omega

/-- A parse that succeeds feeds every byte up to there but the zeros that carry on the null
prefix. -/
theorem parseAlone_fed (h : ReadAlone ctx.data off) (hoff : off ≤ maxBytes)
    (hfit : off + unpaddedLen ctx.data off % 2 ^ 16 ≤ maxBytes)
    (hret : (parseAlone rd maps ctx off pres f p).ret = .ok n) :
    aloneFed rd maps ctx off pres p = dropNullPrefix p
      (located ctx.data (blockBegin ctx.data off)
        (unpaddedLen ctx.data off % 2 ^ 16 + off)) := by
  obtain ⟨hstop, hrange⟩ := h.walkStop hfit
  have hidem := getDynamicTable_idem maps ctx.conn
  unfold parseAlone parseFrame at hret
  unfold aloneFed parseFrameFed
  rw [if_neg (Nat.not_lt.mpr hoff), h.http2Block] at hret ⊢
  simp only at hret ⊢
  rw [if_neg (Nat.not_lt.mpr hfit)] at hret ⊢
  by_cases hstg : hdrType ctx.data off = http2SettingsFrame
  · have h9 : ¬ctx.data.length < 9 := by
      have := h.arrived
      unfold http2FrameHdrLen at this
      omega
    simp only [if_pos hstg, parseStgFrom, hidem, if_neg h9] at hret ⊢
    cases hg : getDynamicTable maps ctx.conn with
    | mk info m =>
      rw [hg] at hret
      cases info with
      | none => cases hret
      | some info =>
        simp only [parseStgLoop_walk] at hret ⊢
        split at hret
        · cases hret
        next k hk =>
          change (walkLoop stgStep ctx.data (Http2.walkStop ctx _ - blockBegin ctx.data off)
            (blockBegin ctx.data off) _ _ _).1 = _ at hk
          change (walkLoop (logged stgStep) _ (Http2.walkStop ctx _ - blockBegin ctx.data off)
            (blockBegin ctx.data off) _ _ _).2.1.2 = _
          rw [hstop] at hk ⊢
          exact walkLoop_log hrange hk
  · simp only [if_neg hstg, parseHdrFrame, hidem] at hret ⊢
    cases hg : getDynamicTable maps ctx.conn with
    | mk info m =>
      rw [hg] at hret
      cases info with
      | none => cases hret
      | some info =>
        simp only [parseHdrFrom, parseHdrLoop_walk] at hret ⊢
        split at hret
        · cases hret
        next k hk =>
          change (walkLoop _ ctx.data (Http2.walkStop ctx _ - blockBegin ctx.data off)
            (blockBegin ctx.data off) _ _ _).1 = _ at hk
          change (walkLoop (logged (hdrStep rd ctx m.blockBuf)) _ (Http2.walkStop ctx _ - blockBegin ctx.data off)
            (blockBegin ctx.data off) _ _ _).2.1.2 = _
          rw [hstop] at hk ⊢
          exact walkLoop_log hrange hk

end Beeper.Http2
