import Beeper.BlockRead
import Beeper.CorkRuns
import Beeper.CorkSkips
import Beeper.SkbCases

namespace Beeper.Http2

/-- A parse that touched nothing but the buffer blocks are put together in. -/
structure Untouched (maps : Maps) (pres : HttpParseRes) (p : Parsed) : Prop where
  tables : SameTables maps p.maps
  captures : p.pres = pres

variable {rd : Rodata} {maps : Maps} {pres : HttpParseRes} {f : Http2Frame} {np : Option Nat}
  {e : Errno} {msg : SkMsg} {skb : SkBuff} {off : Nat}

theorem parseBlock_refused {ctx : MsgCtx}
    (h : (parseBlock rd maps ctx off pres f np).ret = .error e) (he : ¬LateError e) :
    Untouched maps pres (parseBlock rd maps ctx off pres f np) := by
  obtain ⟨-, hp⟩ := (parseBlock_error h).resolve_left he
  rw [hp]
  exact ⟨⟨rfl, rfl, rfl⟩, rfl⟩

theorem neverRead_refused {p : Parsed} {n : Nat} (h : neverRead p n = .error e) (he : ¬LateError e) :
    ∃ e', p.ret = .error e' ∧ ¬LateError e' := by
  unfold neverRead at h
  split at h
  next hp => exact ⟨.EAGAIN, hp.1, fun hlate => hlate.ne.1 rfl⟩
  next => exact ⟨e, h, he⟩

theorem map_refused {r : Except Errno Nat} {k : Nat} (h : r.map (fun _ => k) = .error e) :
    r = .error e := by
  cases r with
  | ok n => cases h
  | error e' => exact h

theorem parseFrame_refused {ctx : MsgCtx} {len type flags : Nat}
    (h : (parseFrame rd maps ctx off len type flags pres f np).ret = .error e)
    (he : ¬LateError e) :
    Untouched maps pres (parseFrame rd maps ctx off len type flags pres f np) := by
  rw [(parseFrame_error h).resolve_left he]
  exact ⟨.refl maps, rfl⟩

theorem parseMsgFrame_refused (h : (parseMsgFrame rd maps msg pres f).ret = .error e)
    (he : ¬LateError e) : Untouched maps pres (parseMsgFrame rd maps msg pres f).toParsed := by
  by_cases hv : violatesBlockRules f.type f.sid
  · rw [parseMsgFrame_reject hv]
    exact ⟨.refl maps, rfl⟩
  by_cases hp : isParsedFrame f.type f.flags
  swap
  · rw [parseMsgFrame_skip hv hp]
    exact ⟨.refl maps, rfl⟩
  by_cases hs : msg.bytes.length < http2FrameHdrLen + f.len
  · rw [parseMsgFrame_short hv hp hs]
    exact ⟨.refl maps, rfl⟩
  have hsize := Nat.not_lt.mp hs
  by_cases hb : f.type = http2HeadersFrame ∧ f.flags &&& http2EndHeadersFlag = 0
  · rw [parseMsgFrame_block hv hsize hb] at h ⊢
    cases hm : msg.pullData (min msg.bytes.length maxBytes) with
    | none => exact ⟨.refl maps, rfl⟩
    | some msg' =>
      rw [hm] at h
      obtain ⟨e', hret, he'⟩ := neverRead_refused h he
      have hu := parseBlock_refused hret he'
      exact ⟨hu.tables, hu.captures⟩
  · rw [parseMsgFrame_frame hv hp hsize hb] at h ⊢
    cases hm : msg.pullData (http2FrameHdrLen + f.len) with
    | none => exact ⟨.refl maps, rfl⟩
    | some msg' =>
      rw [hm] at h
      have hu := parseFrame_refused (map_refused h) he
      exact ⟨hu.tables, hu.captures⟩

theorem parseSkbFrame_refused (h : (parseSkbFrame rd maps skb off pres f np).ret = .error e)
    (he : ¬LateError e) :
    Untouched maps pres (parseSkbFrame rd maps skb off pres f np).toParsed := by
  by_cases hv : violatesBlockRules f.type f.sid
  · rw [parseSkbFrame_reject hv]
    exact ⟨.refl maps, rfl⟩
  by_cases hp : isParsedFrame f.type f.flags
  swap
  · rw [parseSkbFrame_skip hv hp]
    exact ⟨.refl maps, rfl⟩
  by_cases hs : skb.bytes.length - off < http2FrameHdrLen + f.len
  · rw [parseSkbFrame_short hv hp hs]
    exact ⟨.refl maps, rfl⟩
  have hsize := Nat.not_lt.mp hs
  by_cases hb : f.type = http2HeadersFrame ∧ f.flags &&& http2EndHeadersFlag = 0
  · rw [parseSkbFrame_block hv hsize hb] at h ⊢
    cases hm : skb.pullData (min skb.bytes.length (off + maxBytes)) with
    | none => exact ⟨.refl maps, rfl⟩
    | some skb' =>
      rw [hm] at h
      obtain ⟨e', hret, he'⟩ := neverRead_refused h he
      have hu := parseBlock_refused hret he'
      exact ⟨hu.tables, hu.captures⟩
  · rw [parseSkbFrame_frame hv hp hsize hb] at h ⊢
    cases hm : skb.pullData (off + (http2FrameHdrLen + f.len)) with
    | none => exact ⟨.refl maps, rfl⟩
    | some skb' =>
      rw [hm] at h
      have hu := parseFrame_refused (map_refused h) he
      exact ⟨hu.tables, hu.captures⟩

/-- A message that is refused before its header block is read leaves nothing behind. -/
theorem parseMsg_refused {frame : Http2Frame}
    (h : (parseMsg rd maps msg pres frame).ret = .error e) (he : ¬LateError e) :
    Untouched maps pres (parseMsg rd maps msg pres frame).toParsed := by
  unfold parseMsg at h ⊢
  split
  · exact ⟨.refl maps, rfl⟩
  next hlen =>
    rw [if_neg hlen] at h
    exact parseMsgFrame_refused h he

theorem parseSkb_refused {frame : Http2Frame}
    (h : (parseSkb rd maps skb off pres frame np).ret = .error e) (he : ¬LateError e) :
    Untouched maps pres (parseSkb rd maps skb off pres frame np).toParsed := by
  unfold parseSkb at h ⊢
  by_cases hoff : maxBytes < off
  · rw [if_pos hoff]
    exact ⟨.refl maps, rfl⟩
  rw [if_neg hoff] at h ⊢
  by_cases hlen : skb.bytes.length < off + http2FrameHdrLen
  · rw [if_pos hlen]
    exact ⟨.refl maps, rfl⟩
  rw [if_neg hlen] at h ⊢
  generalize (if skb.linear < off + http2FrameHdrLen then skb.pullData (off + http2FrameHdrLen)
    else some skb) = pulled at h ⊢
  cases pulled with
  | none => exact ⟨.refl maps, rfl⟩
  | some skb' => exact parseSkbFrame_refused h he

/-- What is returned for input that is not looked at: more of it has to arrive, it breaks the rules
for header blocks, or it is too large. -/
def Refused (ret : Except Errno Nat) : Prop :=
  ret = .error .EAGAIN ∨ ret = .error .EPROTO ∨ ret = .error .E2BIG

theorem Refused.error {ret : Except Errno Nat} (h : Refused ret) :
    ∃ e, ret = .error e ∧ ¬LateError e := by
  rcases h with h | h | h
  · exact ⟨_, h, fun hlate => hlate.ne.1 rfl⟩
  · exact ⟨_, h, fun hlate => hlate.ne.2.1 rfl⟩
  · exact ⟨_, h, fun hlate => hlate.ne.2.2 rfl⟩

/-- Input that is refused leaves no trace, at either hook and whatever state the tables are in. -/
theorem parse_untouched (rd : Rodata) (maps : Maps) (pres : HttpParseRes) (frame : Http2Frame) :
    (∀ msg, Refused (parseMsg rd maps msg pres frame).ret →
      Untouched maps pres (parseMsg rd maps msg pres frame).toParsed) ∧
    ∀ skb off np, Refused (parseSkb rd maps skb off pres frame np).ret →
      Untouched maps pres (parseSkb rd maps skb off pres frame np).toParsed := by
  refine ⟨fun msg h => ?_, fun skb off np h => ?_⟩
  · obtain ⟨e, hret, he⟩ := h.error
    exact parseMsg_refused hret he
  · obtain ⟨e, hret, he⟩ := h.error
    exact parseSkb_refused hret he

end Beeper.Http2
