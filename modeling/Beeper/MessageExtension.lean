import Beeper.Alike

namespace Beeper.Http2

/-- A message at the hook that is linear as a whole. -/
def linearMsg (bytes : Bytes) (conn : Ip4Conn) (pullable : Bool) : SkMsg :=
  ⟨bytes, bytes.length, conn, pullable, Nat.le_refl _⟩

variable {rd : Rodata} {maps maps' : Maps}

section Frame

variable {ctx : MsgCtx} {off len type flags : Nat} {f : Http2Frame}

/-- Strings in the message are read alike whatever the buffer holds. -/
theorem agree_msg (b b' : BlockBuf) {base n : Nat} (h : base + n < 2 ^ 16) :
    Agree rd n ⟨ctx, b, .msg, base⟩ ⟨ctx, b', .msg, base⟩ where
  conn := rfl
  left := ⟨by simp, h⟩
  right := ⟨by simp, h⟩
  read entries i len huff isKey _ _ := rfl
  readZero entries isKey := rfl

/-- An in-place walk does not look at the block that was put together last. -/
theorem parseHdrFrame_alike (rd : Rodata) (ctx : MsgCtx) (hm : SameTables maps maps') {start stop : Nat}
    (hs : start < 2 ^ 16 ∧ stop < 2 ^ 16) :
    let r := parseHdrFrame rd maps ctx start stop .zero none
    let r' := parseHdrFrame rd maps' ctx start stop .zero none
    r'.1 = r.1 ∧ SameTables r.2.1 r'.2.1 ∧
      ∀ msg msg' idx, newMsgCtx msg = ctx → newMsgCtx msg' = ctx →
        getMatchMsg rd r'.2.1 msg' r'.2.2.1 idx = getMatchMsg rd r.2.1 msg r.2.2.1 idx := by
  obtain ⟨hinfo, htab⟩ := hm.getDynamicTable ctx.conn
  simp only
  unfold parseHdrFrame
  generalize getDynamicTable maps ctx.conn = g at *
  generalize getDynamicTable maps' ctx.conn = g' at *
  obtain ⟨info, m⟩ := g
  obtain ⟨info', m'⟩ := g'
  simp only at hinfo htab
  subst hinfo
  cases info' with
  | none =>
    refine ⟨rfl, htab, fun msg msg' idx _ _ => ?_⟩
    rw [getMatchMsg_zero, getMatchMsg_zero]
  | some info =>
    have ha : Agree rd (stop - start) ⟨ctx, m.blockBuf, .msg, start⟩
        ⟨ctx, m'.blockBuf, .msg, start⟩ := agree_msg _ _ (by omega)
    have hlen : 0 + (slice ctx.data start (walkStop ctx stop - start)).length ≤ stop - start := by
      simp only [slice, walkStop, List.length_take]
      omega
    obtain ⟨herr, hsim⟩ := feed_sim ha _ hlen (stateSim_new (m.table info))
    obtain ⟨h1, h2⟩ := parseHdrFrom_eq rd ctx m.blockBuf start stop
      ⟨m.table info, .zero, newHttp2ParseState .msg⟩ none
    obtain ⟨h1', h2'⟩ := parseHdrFrom_eq rd ctx m'.blockBuf start stop
      ⟨m.table info, .zero, newHttp2ParseState .msg⟩ none
    simp only [dropNullPrefix_none, located] at h1 h2 h1' h2'
    simp only [Nat.add_zero] at herr hsim
    simp only [htab.table, h1, h2, h1', h2', walked, herr, hsim.table]
    refine ⟨trivial, htab.setTable _ _, fun msg msg' idx h h' => ?_⟩
    exact getMatchMsg_sim (m.setTable _ _) (m'.setTable _ _) ha hsim.pres
      ⟨h, rfl⟩ ⟨h', rfl⟩ rfl idx

theorem parseStgFrom_alike (ctx : MsgCtx) (hm : SameTables maps maps') (start stop : Nat) :
    (parseStgFrom maps' ctx start stop none).1 = (parseStgFrom maps ctx start stop none).1 ∧
      SameTables (parseStgFrom maps ctx start stop none).2.1
        (parseStgFrom maps' ctx start stop none).2.1 := by
  obtain ⟨hinfo, htab⟩ := hm.getDynamicTable ctx.conn
  unfold parseStgFrom
  generalize getDynamicTable maps ctx.conn = g at *
  generalize getDynamicTable maps' ctx.conn = g' at *
  obtain ⟨info, m⟩ := g
  obtain ⟨info', m'⟩ := g'
  simp only at hinfo htab
  subst hinfo
  simp only
  split
  · exact ⟨rfl, hm⟩
  · cases info' with
    | none => exact ⟨rfl, htab⟩
    | some info =>
      simp only [htab.table]
      exact ⟨trivial, htab.setTable _ _⟩

theorem parseFrame_alike (rd : Rodata) (ctx : MsgCtx) (off len type flags : Nat) (f : Http2Frame)
    (hm : SameTables maps maps') :
    let p := parseFrame rd maps ctx off len type flags .zero f none
    let p' := parseFrame rd maps' ctx off len type flags .zero f none
    p'.ret = p.ret ∧ p'.frame = p.frame ∧ SameTables p.maps p'.maps ∧
      ∀ msg msg' idx, newMsgCtx msg = ctx → newMsgCtx msg' = ctx →
        getMatchMsg rd p'.maps msg' p'.pres idx = getMatchMsg rd p.maps msg p.pres idx := by
  have hzero : ∀ (m m' : Maps) msg msg' idx, newMsgCtx msg = ctx → newMsgCtx msg' = ctx →
      getMatchMsg rd m' msg' .zero idx = getMatchMsg rd m msg .zero idx := by
    intro m m' msg msg' idx _ _
    rw [getMatchMsg_zero, getMatchMsg_zero]
  simp only
  unfold parseFrame
  by_cases hoff : maxBytes < off
  · simp only [if_pos hoff]
    exact ⟨trivial, trivial, hm, hzero _ _⟩
  simp only [if_neg hoff]
  cases hb : http2Block (ctx.data.drop off) len type flags with
  | error e => exact ⟨rfl, rfl, hm, hzero _ _⟩
  | ok range =>
    obtain ⟨start, stop⟩ := range
    simp only
    by_cases hbig : maxBytes < off + stop
    · simp only [if_pos hbig]
      exact ⟨trivial, trivial, hm, hzero _ _⟩
    simp only [if_neg hbig]
    obtain ⟨hinfo, htab⟩ := hm.getDynamicTable ctx.conn
    have hrange : start + off < 2 ^ 16 ∧ stop + off < 2 ^ 16 := by
      have hstart := (http2Block_ok hb).1
      have hle : blockStart (decide (type = http2HeadersFrame)) flags ≤ 15 := by
        unfold blockStart http2FrameHdrLen http2PriorityLen
        split <;> split <;> omega
      simp only [maxBytes] at hoff hbig
      omega
    generalize getDynamicTable maps ctx.conn = g at *
    generalize getDynamicTable maps' ctx.conn = g' at *
    obtain ⟨info, m⟩ := g
    obtain ⟨info', m'⟩ := g'
    simp only at hinfo htab
    subst hinfo
    simp only
    by_cases hstg : type = http2SettingsFrame
    · obtain ⟨hret, hmaps⟩ := parseStgFrom_alike ctx htab (start + off) (stop + off)
      simp only [if_pos hstg, hret, hmaps.infos]
      exact ⟨trivial, trivial, hmaps, hzero _ _⟩
    · obtain ⟨hret, hmaps, hcap⟩ := parseHdrFrame_alike rd ctx htab hrange
      simp only [if_neg hstg, hret, hmaps.infos]
      exact ⟨trivial, trivial, hmaps, hcap⟩

/-- The errors that are left once a frame has arrived and fits the parser. -/
def LateError (e : Errno) : Prop := e = .EBADMSG ∨ e = .EFAULT ∨ e = .ENOSPC

theorem LateError.ne {e : Errno} (h : LateError e) : e ≠ .EAGAIN ∧ e ≠ .EPROTO ∧ e ≠ .E2BIG := by
  rcases h with rfl | rfl | rfl <;> decide

theorem walked_error {last : Nat} {buf : BlockBuf} {xs : List (UInt8 × Nat)} {st : HdrState}
    {e : Errno} (h : (walked last (feed rd ctx buf xs st)).1 = .error e) : LateError e := by
  unfold walked at h
  cases he : (feed rd ctx buf xs st).1 with
  | none =>
    rw [he] at h
    cases h
  | some e' =>
    rw [he] at h
    cases h
    exact .inl (feed_error he)

theorem http2Block_error {data : Bytes} {e : Errno}
    (h : http2Block data len type flags = .error e) : LateError e := by
  unfold http2Block at h
  simp only at h
  split at h
  · cases h
    exact .inr (.inl rfl)
  split at h
  · cases h
    exact .inl rfl
  · cases h

theorem parseStgLoop_error {data : Bytes} {rounds i last : Nat} {st : StgState} {p : Option Nat}
    {e : Errno} (h : (parseStgLoop data rounds i last st p).1 = .error e) : LateError e := by
  induction rounds generalizing i last st p with
  | zero => cases h
  | succ rounds ih =>
    simp only [parseStgLoop] at h
    split at h
    · cases h
      exact .inr (.inl rfl)
    split at h
    · exact ih h
    · exact ih h

theorem parseStgFrom_error {start stop : Nat} {p : Option Nat} {e : Errno}
    (h : (parseStgFrom maps ctx start stop p).1 = .error e) : LateError e := by
  unfold parseStgFrom at h
  simp only at h
  split at h
  · cases h
  split at h
  · cases h
    exact .inr (.inr rfl)
  · exact parseStgLoop_error h

theorem parseHdrFrame_error {start stop : Nat} {pres : HttpParseRes} {p : Option Nat} {e : Errno}
    (h : (parseHdrFrame rd maps ctx start stop pres p).1 = .error e) : LateError e := by
  unfold parseHdrFrame at h
  split at h
  · cases h
    exact .inr (.inr rfl)
  · simp only [(parseHdrFrom_eq _ _ _ _ _ _ _).1] at h
    exact walked_error h

/-- Whatever else a frame is refused for is found before anything is read. -/
theorem parseFrame_error {pres : HttpParseRes} {p : Option Nat} {e : Errno}
    (h : (parseFrame rd maps ctx off len type flags pres f p).ret = .error e) :
    LateError e ∨ parseFrame rd maps ctx off len type flags pres f p =
      ⟨.error .E2BIG, maps, pres, f, p⟩ := by
  unfold parseFrame at h ⊢
  split at h
  next hoff => exact .inr (if_pos hoff)
  next hoff =>
  rw [if_neg hoff]
  split at h
  next e' he =>
    cases h
    exact .inl (http2Block_error he)
  next start stop hb =>
  split at h
  next hmax => exact .inr (if_pos hmax)
  next hmax =>
  simp only at h
  generalize (getDynamicTable maps ctx.conn).2 = m at h
  left
  by_cases hstg : type = http2SettingsFrame
  · simp only [if_pos hstg] at h
    split at h
    next e' he =>
      cases h
      exact parseStgFrom_error he
    next =>
      split at h
      · cases h
        exact .inl rfl
      · cases h
  · simp only [if_neg hstg] at h
    split at h
    next e' he =>
      cases h
      exact parseHdrFrame_error he
    next =>
      split at h
      · cases h
        exact .inl rfl
      · cases h

/-- A frame that is there as a whole never asks for more. -/
theorem parseFrame_not_again (rd : Rodata) (maps : Maps) (ctx : MsgCtx) (off len type flags : Nat)
    (pres : HttpParseRes) (f : Http2Frame) :
    (parseFrame rd maps ctx off len type flags pres f none).ret ≠ .error .EAGAIN := by
  intro h
  rcases parseFrame_error h with hlate | hbig
  · exact hlate.ne.1 rfl
  · rw [hbig] at h
    cases h

end Frame

section Block

variable {ctx : MsgCtx} {off : Nat} {pres : HttpParseRes}
  {f : Http2Frame} {p : Option Nat}

/-- A block is refused where collecting it is, which leaves the tables as they are, or for an
error in the block. -/
theorem parseBlock_error {e : Errno} (h : (parseBlock rd maps ctx off pres f p).ret = .error e) :
    LateError e ∨
      let c := collectBlock ctx.data off maps.blockBuf
      c.ret = .error e ∧ parseBlock rd maps ctx off pres f p =
        ⟨.error e, { maps with blockBuf := c.buf }, pres,
          if e = .EAGAIN then { f with need := c.blk.need } else f, p⟩ := by
  unfold parseBlock at h ⊢
  generalize collectBlock ctx.data off maps.blockBuf = c at h ⊢
  obtain ⟨ret, blk, b⟩ := c
  cases ret with
  | error e' =>
    cases h
    exact .inr ⟨rfl, rfl⟩
  | ok total =>
    left
    simp only at h
    split at h
    · cases h
      exact .inr (.inr rfl)
    next info m _ =>
      simp only [parseHdrBuf_eq, walked] at h
      split at h
      next e' he =>
        cases h
        exact walked_error he
      next =>
        split at h
        · cases h
          exact .inl rfl
        · cases h

/-- A block asks for more only where collecting it does. -/
theorem parseBlock_again (rd : Rodata) (maps : Maps) (ctx : MsgCtx) (off : Nat) (f : Http2Frame)
    (p : Option Nat) (pres : HttpParseRes)
    (h : (parseBlock rd maps ctx off pres f p).ret = .error .EAGAIN) :
    (collectBlock ctx.data off maps.blockBuf).ret = .error .EAGAIN ∧
      SameTables maps (parseBlock rd maps ctx off pres f p).maps ∧
      (parseBlock rd maps ctx off pres f p).frame.need =
        (collectBlock ctx.data off maps.blockBuf).blk.need := by
  rcases parseBlock_error h with hlate | ⟨hc, hp⟩
  · exact absurd rfl hlate.ne.1
  · rw [hp]
    exact ⟨hc, ⟨rfl, rfl, rfl⟩, rfl⟩

/-- A block that was read was put together. -/
theorem parseBlock_collected {n : Nat} (h : (parseBlock rd maps ctx off pres f p).ret = .ok n) :
    (collectBlock ctx.data off maps.blockBuf).ret = .ok n := by
  unfold parseBlock at h
  generalize collectBlock ctx.data off maps.blockBuf = c at h
  obtain ⟨ret, blk, buf⟩ := c
  cases ret with
  | error e => cases h
  | ok total =>
    simp only at h
    split at h
    · cases h
    simp only at h
    split at h
    · cases h
    split at h
    · cases h
    · exact h

theorem neverRead_ok {q : Parsed} {n k : Nat} (h : neverRead q n = .ok k) : q.ret = .ok k := by
  unfold neverRead at h
  split at h
  · cases h
  · exact h

theorem map_ok {r : Except Errno Nat} {n k : Nat} (h : r.map (fun _ => k) = .ok n) :
    k = n ∧ ∃ m, r = .ok m := by
  cases r with
  | ok m => exact ⟨Except.ok.inj h, m, rfl⟩
  | error e => cases h

end Block

end Beeper.Http2
