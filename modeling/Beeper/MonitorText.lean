import Beeper.Http1Messages
import Beeper.Http1Preface
import Beeper.Monitor

namespace Beeper.Http1

variable {items : List (Item × MatchId)} {rd : Rodata} {n v : Bytes} {m : MatchId} {conn : Ip4Conn}
  {fs : List (FieldLine × Bool)} {x : HttpMessage} {p p' : Parser} {name : Bytes} {mid : MatchId}

/-- The value that the last line that gives the field `n` one gives it. -/
def lastValue (n : Bytes) : List (FieldLine × Bool) → Option Bytes
  | [] => none
  | f :: fs =>
    (lastValue n fs).or
      (if lowercase f.1.name = n ∧ f.1.value ≠ [] then some f.1.value else none)

theorem lastValue_none (h : lastValue n fs = none) : ∀ f ∈ fs, ¬f.1.Gives n := by
  induction fs with
  | nil => simp
  | cons f fs ih =>
    obtain ⟨hrest, hf⟩ := Option.or_eq_none_iff.mp h
    intro g hg
    rcases List.mem_cons.mp hg with rfl | hg
    · intro hgives
      rw [if_pos ⟨hgives.name, hgives.value⟩] at hf
      cases hf
    · exact ih hrest g hg

theorem lastValue_some (h : lastValue n fs = some v) : ∃ a f b, fs = a ++ f :: b ∧ f.1.Gives n ∧
    (∀ g ∈ b, ¬g.1.Gives n) ∧ f.1.value = v := by
  induction fs with
  | nil => cases h
  | cons f fs ih =>
    rw [lastValue] at h
    cases hrest : lastValue n fs with
    | some w =>
      rw [hrest] at h
      cases h
      obtain ⟨a, g, b, rfl, hg⟩ := ih hrest
      exact ⟨f :: a, g, b, rfl, hg⟩
    | none =>
      rw [hrest, Option.none_or] at h
      split at h
      next hgives =>
        exact ⟨[], f, fs, rfl, ⟨hgives.1, hgives.2⟩, lastValue_none hrest, Option.some.inj h⟩
      next => cases h

/-- A message that is linear as a whole stays as it is. -/
theorem parseMsg_whole_msg (rd : Rodata) (bytes : Bytes) (conn : Ip4Conn) (pres : HttpParseRes) :
    (parseMsg rd (wholeMsg bytes conn) pres).msg = wholeMsg bytes conn := by
  unfold parseMsg
  simp only
  split
  · split
    next => rfl
    next msg hp =>
      unfold SkMsg.pullData at hp
      split at hp
      next =>
        cases hp
        rfl
      next => cases hp
  · rfl

/-- The bytes of a range that was captured. -/
theorem getMatchMsg_reports {bytes : Bytes} {pres : HttpParseRes} {off len : Nat} (hm : m < maxMatches)
    (hr : Reports (pres.get m) off len) (hpos : 0 < len) (hle : off + len ≤ bytes.length) :
    getMatchMsg (wholeMsg bytes conn) pres m = .ok (slice bytes off len) := by
  have hdata : (wholeMsg bytes conn).data = bytes := List.take_length
  have hlen : (pres.get m).len ≠ 0 := by
    intro hz
    have := hr.2
    rw [hz, UInt16.toNat_zero] at this
    omega
  unfold getMatchMsg getMatch
  rw [if_neg (Nat.not_le.mpr hm), hdata]
  simp only [if_neg hlen, hr.1, hr.2]
  rw [if_neg (Nat.not_lt.mpr hle)]

theorem getMatchMsg_none {msg : SkMsg} {pres : HttpParseRes} (hm : m < maxMatches)
    (h : (pres.get m).len = 0) : getMatchMsg msg pres m = .error .ENOENT := by
  unfold getMatchMsg getMatch
  rw [if_neg (Nat.not_le.mpr hm)]
  simp only [if_pos h]

/-- What is read of a field of a message. -/
theorem Attached.getMatchMsg_field (h : Attached items rd) (x : HttpMessage)
    (hlen : x.block.length ≤ maxBytes) (conn : Ip4Conn) (hm : (.header n, m) ∈ items) :
    let p := parseMsg rd (wholeMsg x.bytes conn) .zero
    getMatchMsg p.msg p.pres m = match lastValue n x.fields with
      | some v => .ok v
      | none => .error .ENOENT := by
  obtain ⟨num, hl⟩ := h.loaded
  have hlt := hl.mid_lt _ _ hm
  obtain ⟨-, -, hfields⟩ := h.message x hlen conn
  have hexact := hfields n m hm
  simp only
  rw [parseMsg_whole_msg]
  cases hv : lastValue n x.fields with
  | none =>
    apply getMatchMsg_none hlt
    rw [hexact.none (lastValue_none hv)]
    rfl
  | some v =>
    obtain ⟨a, f, b, hf, hgives, hlast, rfl⟩ := lastValue_some hv
    obtain ⟨hr, hslice⟩ := hexact.last a f b hf hgives hlast
    have hline := x.block_line hf
    have hval : f.1.value.length ≤ f.1.bytes.length := by
      obtain ⟨z, hz⟩ := f.1.value_suffix
      rw [hz, List.length_append]
      omega
    have hbytes : x.block.length ≤ x.bytes.length := by
      rw [HttpMessage.bytes, List.length_append]
      omega
    rw [getMatchMsg_reports hlt hr (List.length_pos_iff.mpr hgives.value) (by omega), ← hr.1, ← hr.2,
      hslice]

/-- A well-formed message does not start with the preface. -/
theorem HttpMessage.not_preface (x : HttpMessage) {rest : Bytes} :
    ¬StartsPreface items (x.block ++ rest) := by
  obtain ⟨c, y, hc, hy⟩ : ∃ c y, (c = 0x0d ∨ c = 0x0a) ∧ x.block ++ rest = x.start ++ c :: y := by
    have hsplit : x.block ++ rest = x.start ++ (endCr x.startCr ++ lf ++
        (joinLines (x.fields.map FieldLine.sent) ++ (endCr x.lastCr ++ lf) ++ rest)) := by
      unfold block front
      rw [joinLines_cons]
      simp only [List.append_assoc]
    rw [hsplit]
    cases x.startCr with
    | true => exact ⟨0x0d, _, .inl rfl, rfl⟩
    | false => exact ⟨0x0a, _, .inr rfl, rfl⟩
  have huntil : untilEnd (x.block ++ rest) = x.start := by
    rw [hy, untilEnd_append x.isStart.not_end hc]
  have hline : ∀ {front line z : Bytes} {c : UInt8}, front = line ++ c :: z →
      (∀ d ∈ line, d ≠ 0x0d ∧ d ≠ 0x0a) → (c = 0x0d ∨ c = 0x0a) → front <+: x.block ++ rest →
      x.start = line := by
    rintro front line z c rfl hfree hend ⟨w, hw⟩
    rw [← huntil, ← hw, List.append_assoc, List.cons_append, untilEnd_append hfree hend]
  rintro (hp | ⟨-, hp⟩)
  · have hsplit : http2Preface = prefaceLine ++ 0x0d :: http2Preface.drop 15 := by decide
    have hstart := hline hsplit (by decide +kernel) (.inl rfl) hp
    exact x.isStart.ne_prefaceLine (by rw [hstart]; decide)
  · have hsplit : lowerPreface = lowerPreface.take 14 ++ 0x0d :: lowerPreface.drop 15 := by decide
    have hstart := hline hsplit (by decide +kernel) (.inl rfl) hp
    exact x.isStart.ne_prefaceLine (by rw [hstart]; decide)

/-- A new name gets the next match id. -/
theorem captureHdr_new (hn : p.captures.lookup (lowercase name) = none)
    (h : p.captureHdr name = .ok (mid, p')) : mid = p.numMatches ∧
      p'.numMatches = p.numMatches + 1 ∧ p'.captures = (lowercase name, mid) :: p.captures := by
  unfold Parser.captureHdr at h
  rw [hn] at h
  obtain ⟨⟨mid0, p0⟩, h0, heq⟩ := bind_ok h
  cases heq
  rw [captureNewHdr_eq] at h0
  obtain ⟨hmid, -, hnum, hcap, -⟩ := capturePattern_ok h0
  exact ⟨hmid, hnum, by rw [hcap]⟩

end Beeper.Http1

namespace Beeper.Monitor

open Http1 (Item FieldLine HttpMessage lastValue)

/-- What the parser for HTTP/1 captures. -/
def h1Items : List (Item × MatchId) :=
  [(.status, 3), (.header acceptLanguage, 2), (.path, 1), (.preface, 0)]

theorem h1Parser_spec {h1 : Http1.Parser} {mids : List MatchId} (h : h1Parser = .ok (h1, mids)) :
    mids = [0, 1, 2, 3] ∧ Http1.Configured h1Items h1 := by
  obtain ⟨⟨m0, p0⟩, h0, h⟩ := Http1.bind_ok h
  obtain ⟨⟨m1, p1⟩, h1', h⟩ := Http1.bind_ok h
  obtain ⟨⟨m2, p2⟩, h2, h⟩ := Http1.bind_ok h
  obtain ⟨⟨m3, p3⟩, h3, h⟩ := Http1.bind_ok h
  cases h
  obtain ⟨hm0, -, hn0, hc0, -⟩ := Http1.capturePattern_ok h0
  have hl1 : p0.captures.lookup (Http1.lowercase Http1.pseudoPath) = none := by rw [hc0]; rfl
  obtain ⟨hm1, hn1, hc1⟩ := Http1.captureHdr_new hl1 h1'
  have hl2 : p1.captures.lookup (Http1.lowercase acceptLanguage) = none := by
    rw [hc1, hc0]
    rfl
  obtain ⟨hm2, hn2, hc2⟩ := Http1.captureHdr_new hl2 h2
  have hl3 : p2.captures.lookup (Http1.lowercase Http1.pseudoStatus) = none := by
    rw [hc2, hc1, hc0]
    rfl
  obtain ⟨hm3, hn3, hc3⟩ := Http1.captureHdr_new hl3 h3
  have hp0 : p0.numMatches = 1 := hn0
  have hp1 : p1.numMatches = 2 := by rw [hn1, hp0]
  have hp2 : p2.numMatches = 3 := by rw [hn2, hp1]
  have h0' : m0 = 0 := hm0
  have h1'' : m1 = 1 := hm1.trans hp0
  have h2' : m2 = 2 := hm2.trans hp1
  have h3' : m3 = 3 := hm3.trans hp2
  subst h0' h1'' h2' h3'
  have hvalid : Http1.ValidName Http1.pseudoPath ∧ Http1.ValidName acceptLanguage ∧
      Http1.ValidName Http1.pseudoStatus := by decide +kernel
  have hc := Http1.Configured.capture (Http1.Configured.capture (Http1.Configured.capture
    (Http1.Configured.preface .new (fun m hm => by cases hm) h0) hvalid.1 hl1 h1') hvalid.2.1 hl2 h2)
    hvalid.2.2 hl3 h3
  exact ⟨rfl, hc⟩

/-- What the parsers of the monitor capture, and under which ids. -/
structure Monitored (cfg : Config) : Prop where
  prefaceMid : cfg.h1PrefaceMid = 0
  pathMid : cfg.h1PathMid = 1
  acceptLanguageMid : cfg.h1AcceptLanguageMid = 2
  statusMid : cfg.h1StatusMid = 3
  http1 : Http1.Attached h1Items cfg.http1

theorem Attaches.monitored {encode : Bytes → Option Bytes} {cfg : Config} (h : Attaches encode cfg) :
    Monitored cfg := by
  obtain ⟨⟨h1, h1', hp, hdone, hinj⟩, -⟩ := h
  obtain ⟨hmids, hc⟩ := h1Parser_spec hp
  simp only [List.cons.injEq, and_true] at hmids
  obtain ⟨h0, h1m, h2, h3⟩ := hmids
  exact ⟨h0, h1m, h2, h3, h1, h1', hc, hdone, hinj⟩

/-- A value as it is logged: the part of it that the buffer has room for, up to the first zero. -/
def shown (v : Bytes) : Bytes := text (v.take (fieldMaxlen - 1))

theorem text_append_zero (w : Bytes) : text (w ++ [0]) = text w := by
  unfold text
  induction w with
  | nil => rfl
  | cons c w ih =>
    rw [List.cons_append, List.takeWhile_cons, List.takeWhile_cons, ih]

/-- What is logged of bytes that can all be read. -/
theorem text_copyBounded {mem : Nat → UInt8} {off len : Nat} {v : Bytes}
    (hmem : ∀ i (h : i < v.length), mem (off + i) = v[i]) (hlen : len = v.length) :
    text (copyBounded mem off len) = shown v := by
  have hcopy : (List.range (min len (fieldMaxlen - 1))).map (fun i => mem (off + i)) =
      v.take (fieldMaxlen - 1) := by
    apply List.ext_getElem
    · rw [List.length_map, List.length_range, List.length_take, hlen, Nat.min_comm]
    · intro i h1 h2
      rw [List.length_take] at h2
      rw [List.getElem_map, List.getElem_range, List.getElem_take]
      exact hmem i (by omega)
  unfold copyBounded
  rw [hcopy, text_append_zero]
  rfl

theorem valueText_eq (v : Bytes) : valueText v = shown v := by
  apply text_copyBounded
  · intro i h
    simp only [Nat.zero_add, List.getElem?_eq_getElem h, Option.getD_some]
  · rfl

/-- What is logged of a part of the data of a message. -/
theorem text_memory {behind : Behind} {msg : SkMsg} {pre v post : Bytes}
    (hd : msg.data = pre ++ (v ++ post)) :
    text (copyBounded (memory behind msg) pre.length v.length) = shown v := by
  apply text_copyBounded
  · intro i h
    unfold memory
    rw [hd, List.getElem?_append_right (by omega), Nat.add_sub_cancel_left,
      List.getElem?_append_left h, List.getElem?_eq_getElem h, Option.getD_some]
  · rfl

end Beeper.Monitor
