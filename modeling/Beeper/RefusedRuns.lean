import Beeper.HookStreams
import Beeper.PlainMessages

namespace Beeper.Http2

open Prog (Delivery)

variable {rd : Rodata} {maps maps' : Maps} {conn : Ip4Conn} {pullable : Bool} {frame : Http2Frame}
  {skb : SkBuff} {off : Nat}

/-- A frame that breaks the rules for header blocks, which the caller passes over. -/
def Outcome.Rejected (o : Outcome) : Prop := o.ret = .error .EPROTO

instance : DecidablePred Outcome.Rejected := fun o => decEq o.ret (.error .EPROTO)

theorem passOver_isSome (o : Outcome) : (passOver o).isSome ↔ o.Rejected := by
  unfold passOver Outcome.Rejected
  split
  next h => exact ⟨fun _ => h, fun _ => rfl⟩
  next h => exact ⟨fun hs => (nomatch hs), fun hr => absurd hr h⟩

theorem skipTurn_skips (rd : Rodata) (conn : Ip4Conn) (pullable : Bool) (frame : Http2Frame) :
    Cork.Skips (skipTurn rd conn pullable frame) SameTables Outcome.Rejected := by
  have h := (corkTurn_passable rd conn pullable frame).skips
  simp only [passOver_isSome] at h
  exact h

/-- What a caller gets at `sk_msg` for a stream without the frames that are rejected is what it gets
for the stream with them, however either is cut into writes. -/
theorem feedAll_without {chunks chunks' : List Bytes}
    (h : Cork.Without (skipTurn rd conn pullable frame) Outcome.Rejected maps chunks.flatten
      chunks'.flatten) :
    (Cork.feedAll (skipTurn rd conn pullable frame) (.start maps) chunks).filter
        (fun o => ¬o.Rejected) =
      Cork.feedAll (skipTurn rd conn pullable frame) (.start maps) chunks' := by
  have hs := skipTurn_stable rd conn pullable frame
  rw [hs.feedAll_eq, hs.feedAll_eq]
  exact hs.results_without (skipTurn_skips rd conn pullable frame) h (Nat.lt_succ_self _)
    (Nat.lt_succ_self _)

/-- What a caller learns from a parse at an sk_buff. -/
def skbOutcome (rd : Rodata) (p : ParsedSkb) : Outcome :=
  ⟨p.ret, p.frame, p.maps.dynamicTable, p.maps.dynamicTableInfo,
    getMatchSkb rd p.maps p.skb p.pres⟩

/-- The parse at the offset a frame was found at. -/
def parseDelivery (rd : Rodata) (frame : Http2Frame) (maps : Maps) (d : Delivery) : ParsedSkb :=
  parseSkb rd maps d.skb d.off .zero frame none

/-- The outcomes of one such parse after another. -/
def skbOutcomes (rd : Rodata) (frame : Http2Frame) : Maps → List Delivery → List Outcome
  | _, [] => []
  | maps, d :: ds => skbOutcome rd (parseDelivery rd frame maps d) ::
      skbOutcomes rd frame (parseDelivery rd frame maps d).maps ds

/-- A parse whose frame is passed over, or tried again once more of it arrived. -/
def Outcome.Passed (o : Outcome) : Prop := o.ret = .ok 0 ∨ o.ret = .error .EAGAIN ∨ o.Rejected

instance : DecidablePred Outcome.Passed := fun o =>
  decidable_of_iff (o.ret = .ok 0 ∨ o.ret = .error .EAGAIN ∨ o.ret = .error .EPROTO) Iff.rfl

theorem parseSkbFrame_total {pres : HttpParseRes} {f : Http2Frame} {np : Option Nat} {n : Nat}
    (h : (parseSkbFrame rd maps skb off pres f np).ret = .ok n) : http2FrameHdrLen ≤ n := by
  by_cases hv : violatesBlockRules f.type f.sid
  · rw [parseSkbFrame_reject hv, rejectFrame] at h
    split at h <;> cases h
  by_cases hp : isParsedFrame f.type f.flags
  swap
  · rw [parseSkbFrame_skip hv hp] at h
    exact Except.ok.inj h ▸ Nat.le_add_right _ _
  by_cases hs : skb.bytes.length - off < http2FrameHdrLen + f.len
  · rw [parseSkbFrame_short hv hp hs] at h
    cases h
  have hsize := Nat.not_lt.mp hs
  by_cases hb : f.type = http2HeadersFrame ∧ f.flags &&& http2EndHeadersFlag = 0
  · rw [parseSkbFrame_block hv hsize hb] at h
    split at h
    · cases h
    · exact collectLoop_total (Nat.le_refl off) (parseBlock_collected (neverRead_ok h))
  · rw [parseSkbFrame_frame hv hp hsize hb] at h
    split at h
    · cases h
    · rw [← (map_ok h).1]
      exact Nat.le_add_right _ _

/-- A parse that returns 0 did not look at anything. -/
theorem parseSkb_nothing {pres : HttpParseRes} {np : Option Nat}
    (h : (parseSkb rd maps skb off pres frame np).ret = .ok 0) :
    (parseSkb rd maps skb off pres frame np).maps = maps := by
  unfold parseSkb at h ⊢
  split
  · rfl
  split
  · rfl
  next hoff hlen =>
  rw [if_neg hoff, if_neg hlen] at h
  split at h
  next hnone => cases h
  next skb' hskb => exact absurd (parseSkbFrame_total h) (by decide)

theorem parseDelivery_passed {d : Delivery}
    (h : (skbOutcome rd (parseDelivery rd frame maps d)).Passed) :
    SameTables maps (parseDelivery rd frame maps d).maps := by
  have hskb := (parse_untouched rd maps .zero frame).2 d.skb d.off none
  rcases h with h | h | h
  · rw [show (parseDelivery rd frame maps d).maps = maps from parseSkb_nothing h]
    exact .refl maps
  · exact (hskb (.inl h)).tables
  · exact (hskb (.inr (.inl h))).tables

/-- The same messages in other sk_buffs, without what was passed over in the first ones. -/
inductive Delivered (rd : Rodata) (frame : Http2Frame) :
    Maps → List Delivery → List Delivery → Prop
  | nil {maps : Maps} : Delivered rd frame maps [] []
  | passed {maps : Maps} {d : Delivery} {ds ds' : List Delivery}
      (hp : (skbOutcome rd (parseDelivery rd frame maps d)).Passed)
      (h : Delivered rd frame (parseDelivery rd frame maps d).maps ds ds') :
      Delivered rd frame maps (d :: ds) ds'
  | taken {maps : Maps} {d d' : Delivery} {ds ds' : List Delivery} {conn : Ip4Conn} {m : Bytes}
      (hm : Framed m) (hd : d.Holds conn m) (hd' : d'.Holds conn m)
      (hp : ¬(skbOutcome rd (parseDelivery rd frame maps d)).Passed)
      (h : Delivered rd frame (parseDelivery rd frame maps d).maps ds ds') :
      Delivered rd frame maps (d :: ds) (d' :: ds')

variable {encode : Bytes → Option Bytes} {captures : List (Bytes × MatchId)}

/-- Where a message stands makes no difference to what a caller learns of it. -/
theorem parseDelivery_alike (ha : Attached encode captures rd) {m : Bytes} (hm : Framed m)
    {d d' : Delivery} (hd : d.Holds conn m) (hd' : d'.Holds conn m) (hmaps : SameTables maps maps') :
    skbOutcome rd (parseDelivery rd frame maps' d') = skbOutcome rd (parseDelivery rd frame maps d) ∧
      SameTables (parseDelivery rd frame maps d).maps (parseDelivery rd frame maps' d').maps := by
  have hat {e : Delivery} (he : e.Holds conn m) {t : Maps} (ht : SameTables maps t) :
      AlikeAt rd (parseLinear rd maps conn true frame m) (parseDelivery rd frame t e) := by
    obtain ⟨hc, hpull, pre, post, hb, hoff, hsize⟩ := he
    have h := hm.laidOut ha hpull hb hsize ht frame frame
    rw [← hoff, hc] at h
    exact h
  obtain ⟨hret, hframe, htables, hcaptures⟩ := hat hd (.refl maps)
  obtain ⟨hret', hframe', htables', hcaptures'⟩ := hat hd' hmaps
  refine ⟨?_, htables.symm.trans htables'⟩
  simp only [skbOutcome, hret, hret', hframe, hframe', htables.entries, htables'.entries,
    htables.infos, htables'.infos, Outcome.mk.injEq, true_and]
  exact funext fun idx => (hcaptures' idx).trans (hcaptures idx).symm

/-- What a caller gets at `sk_skb` for the messages alone is what it gets for them between frames
that are passed over. -/
theorem skbOutcomes_delivered (ha : Attached encode captures rd) {ds ds' : List Delivery}
    (h : Delivered rd frame maps ds ds') (hmaps : SameTables maps maps') :
    (skbOutcomes rd frame maps ds).filter (fun o => ¬o.Passed) = skbOutcomes rd frame maps' ds' := by
  induction h generalizing maps' with
  | nil => rfl
  | passed hp _ ih =>
    rw [skbOutcomes, List.filter_cons_of_neg (by simpa using hp)]
    exact ih ((parseDelivery_passed hp).symm.trans hmaps)
  | taken hm hd hd' hp _ ih =>
    obtain ⟨hout, htables⟩ := parseDelivery_alike ha hm hd hd' hmaps
    rw [skbOutcomes, skbOutcomes, List.filter_cons_of_pos (by simpa using hp), ih htables, hout]

/-- Input that is refused leaves no trace, neither in the parse itself nor in a run: what a caller gets
for the frames that are left is what it gets without those it passed over. -/
theorem parse_refusedRuns (ha : Attached encode captures rd) (frame : Http2Frame) (maps : Maps) :
    ((∀ pres msg, Refused (parseMsg rd maps msg pres frame).ret →
        Untouched maps pres (parseMsg rd maps msg pres frame).toParsed) ∧
      ∀ pres skb off np, Refused (parseSkb rd maps skb off pres frame np).ret →
        Untouched maps pres (parseSkb rd maps skb off pres frame np).toParsed) ∧
    (∀ conn pullable,
      (∀ m, ∃ m', Cork.Without (skipTurn rd conn pullable frame) Outcome.Rejected maps m m') ∧
      ∀ chunks chunks', Cork.Without (skipTurn rd conn pullable frame) Outcome.Rejected maps
          chunks.flatten chunks'.flatten →
        (Cork.feedAll (skipTurn rd conn pullable frame) (.start maps) chunks).filter
            (fun o => ¬o.Rejected) =
          Cork.feedAll (skipTurn rd conn pullable frame) (.start maps) chunks') ∧
    ∀ ds ds', Delivered rd frame maps ds ds' →
      (skbOutcomes rd frame maps ds).filter (fun o => ¬o.Passed) = skbOutcomes rd frame maps ds' :=
  ⟨⟨fun pres => (parse_untouched rd maps pres frame).1,
      fun pres => (parse_untouched rd maps pres frame).2⟩,
    fun conn pullable => ⟨(skipTurn_stable rd conn pullable frame).without_exists _ maps,
      fun _ _ h => feedAll_without h⟩, fun _ _ h => skbOutcomes_delivered ha h (.refl maps)⟩

section Stray

open Prog (arrivedSkb zeroFrame)

variable {h : FrameHead} {payload pre post : Bytes}

/-- A CONTINUATION frame that carries nothing on is passed over, wherever it stands. -/
theorem parseSkb_stray (ht : h.type.toNat = http2ContinuationFrame) (hl : payload.length < 2 ^ 24)
    (hoff : pre.length ≤ maxBytes) :
    let p := parseSkb rd maps (arrivedSkb (pre ++ (h.frame payload ++ post)) conn) pre.length .zero
      frame none
    p.ret = .error .EPROTO ∧ p.frame.len = payload.length := by
  have hlen : (pre ++ (h.frame payload ++ post)).length =
      pre.length + (http2FrameHdrLen + payload.length + post.length) := by
    rw [List.length_append, List.length_append, FrameHead.frame_length]
  have hroom : pre.length + http2FrameHdrLen ≤ (pre ++ (h.frame payload ++ post)).length := by omega
  have hv : violatesBlockRules (h.first payload.length).type (h.first payload.length).sid := by
    simp [violatesBlockRules, FrameHead.first, ht]
  have hfits : http2FrameHdrLen + (h.first payload.length).len ≤
      (pre ++ (h.frame payload ++ post)).length - pre.length := by
    simp only [FrameHead.first]
    omega
  have hfirst : newHttp2Frame (pre ++ (h.frame payload ++ post)) pre.length =
      h.first payload.length := newHttp2Frame_at h pre post hl
  have hlinear := @parseSkb_linear pre.length (arrivedSkb (pre ++ (h.frame payload ++ post)) conn)
    rd maps frame rfl rfl hoff hroom
  simp only [arrivedSkb] at hlinear ⊢
  rw [hlinear, hfirst, parseSkbFrame_reject hv]
  simp only [rejectFrame, if_pos hfits]
  exact ⟨trivial, rfl⟩

theorem parseLinear_stray (ht : h.type.toNat = http2ContinuationFrame)
    (hl : payload.length < 2 ^ 24) :
    (parseLinear rd maps conn pullable frame (h.frame payload)).ret = .error .EPROTO := by
  have hlen := @FrameHead.frame_length h payload
  have hfirst := newHttp2Frame_at h [] [] hl
  rw [List.append_nil, List.nil_append, List.length_nil] at hfirst
  have hv : violatesBlockRules h.type.toNat h.sid := by simp [violatesBlockRules, ht]
  have hfits : http2FrameHdrLen + payload.length ≤
      (linearMsg (h.frame payload) conn pullable).bytes.length := by
    simp only [linearMsg]
    omega
  rw [parseLinear_eq (by omega), hfirst, parseMsgFrame_reject hv, rejectFrame, if_pos hfits]

/-- A header block that adds an entry to the table. -/
def fieldMessage : Bytes := (sentAlone [0x40, 0x01, 0x61, 0x01, 0x62]).bytes

def strayHead : FrameHead := ⟨9, 4, false, 1, firstStream_lt⟩

theorem fieldMessage_framed : Framed fieldMessage := by
  have hrep : RepWire id (shortRep 0x61 0x62) [0x40, 0x01, 0x61, 0x01, 0x62] := shortRep_wire 0x61 0x62 rfl
  refine .block (sentAlone [0x40, 0x01, 0x61, 0x01, 0x62]) (fun f hf => ?_) hrep.complete
  cases hf

theorem fieldMessage_parsed (ha : Attached encode captures rd) (hmaps : SameTables .init maps) :
    ∃ n, (parseLinear rd maps tableConn true zeroFrame fieldMessage).ret = .ok n ∧ 0 < n := by
  have h9 : http2FrameHdrLen ≤ fieldMessage.length := by decide
  have hw : BlockWire id [shortRep 0x61 0x62] ([0x40, 0x01, 0x61, 0x01, 0x62] ++ []) :=
    .cons (shortRep_wire 0x61 0x62 rfl) .nil
  have hroom : maps.dynamicTableInfo.card < mapMaxEntries := by
    rw [hmaps.infos]
    decide
  obtain ⟨hacc, -, -⟩ := @readBlock_reads rd maps tableConn _ _ ha.readsReps hw (by decide) (.inr hroom)
  obtain ⟨⟨n, hn⟩, -⟩ := hacc
  have hret : (parseLinear rd maps tableConn true zeroFrame fieldMessage).ret = .ok n := by
    rw [parseLinear_eq h9, ← hn]
    exact (congrArg (fun p : ParsedMsg => p.ret) (parseLinear_eq h9)).symm
  have htotal := parseLinear_total h9 hret
  unfold http2FrameHdrLen at htotal
  exact ⟨n, hret, by omega⟩

theorem strayHead_framed : Framed (strayHead.frame []) := .other strayHead [] (by decide)

/-- The turn that passes the frame over. -/
theorem skipTurn_stray (rd : Rodata) (maps : Maps) (x : Bytes) :
    ∃ o t, o.Rejected ∧ SameTables maps t ∧
      skipTurn rd tableConn true zeroFrame maps (strayHead.frame [] ++ x) =
        .take o (strayHead.frame []).length t := by
  have hret : (parseLinear rd maps tableConn true zeroFrame (strayHead.frame [])).ret =
      .error .EPROTO := parseLinear_stray rfl (by decide)
  obtain ⟨t, ht, -, htake⟩ := @Framed.skipTurn rd maps maps tableConn zeroFrame _ strayHead_framed
    (by decide) (.refl maps) x
  refine ⟨outcome rd (parseLinear rd maps tableConn true zeroFrame (strayHead.frame [])), t, hret,
    ?_, htake ?_⟩
  · exact ((parse_untouched rd maps .zero zeroFrame).1 _ (.inr (.inl hret))).tables.trans ht
  · rintro ⟨e, he, hne⟩
    exact hne (Except.error.inj (he.symm.trans hret))

/-- The stream of both, without the frames that are passed over. -/
theorem without_stray (ha : Attached encode captures rd) :
    Cork.Without (skipTurn rd tableConn true zeroFrame) Outcome.Rejected .init
      (strayHead.frame [] ++ (fieldMessage ++ strayHead.frame [])) fieldMessage := by
  obtain ⟨o, t, ho, hmaps, ht⟩ := skipTurn_stray rd .init (fieldMessage ++ strayHead.frame [])
  obtain ⟨n, hn, hpos⟩ := fieldMessage_parsed ha hmaps
  obtain ⟨t', -, -, htake⟩ := @Framed.skipTurn rd t t tableConn zeroFrame _ fieldMessage_framed
    (by decide) (.refl t) (strayHead.frame [])
  have hok {e : Errno} : (outcome rd (parseLinear rd t tableConn true zeroFrame fieldMessage)).ret ≠
      .error e := fun he => by cases hn.symm.trans he
  have ht' := htake fun ⟨e, he, _⟩ => hok he
  obtain ⟨o'', t'', ho'', -, ht''⟩ := skipTurn_stray rd t' []
  rw [List.append_nil] at ht''
  obtain ⟨need, s, hw⟩ := (skipTurn_stable rd tableConn true zeroFrame).nil t''
  have hend : Cork.Without (skipTurn rd tableConn true zeroFrame) Outcome.Rejected t'
      (strayHead.frame []) [] := by
    refine .refused ht'' ho'' ?_
    rw [List.drop_length]
    exact .stop fun out len s' h => by cases hw.symm.trans h
  have hdrop : (fieldMessage ++ strayHead.frame []).drop fieldMessage.length = strayHead.frame [] :=
    List.drop_left
  rw [← hdrop] at hend
  have hrest := Cork.Without.taken ht' hok hend
  rw [List.take_left, List.append_nil] at hrest
  refine .refused ht ho ?_
  rwa [List.drop_left]

/-- Both frames in one sk_buff. -/
def betweenStrays : SkBuff :=
  arrivedSkb (strayHead.frame [] ++ (fieldMessage ++ strayHead.frame [])) tableConn

theorem parseDelivery_field (ha : Attached encode captures rd) {d : Delivery}
    (hd : d.Holds tableConn fieldMessage) (hmaps : SameTables .init maps) :
    ∃ n, (parseDelivery rd zeroFrame maps d).ret = .ok n ∧ 0 < n := by
  obtain ⟨hc, hpull, pre, post, hb, hoff, hsize⟩ := hd
  obtain ⟨n, hn, hpos⟩ := fieldMessage_parsed ha hmaps
  have h := fieldMessage_framed.laidOut ha hpull hb hsize (.refl maps) zeroFrame zeroFrame
  rw [← hoff, hc] at h
  exact ⟨n, h.ret.trans hn, hpos⟩

/-- The message between the frames that are passed over, and on its own. -/
theorem delivered_stray (ha : Attached encode captures rd) :
    Delivered rd zeroFrame .init
      [⟨betweenStrays, 0⟩, ⟨betweenStrays, (strayHead.frame []).length⟩]
      [⟨arrivedSkb fieldMessage tableConn, 0⟩] := by
  have hstray := @parseSkb_stray rd .init tableConn zeroFrame strayHead [] []
    (fieldMessage ++ strayHead.frame []) rfl (by decide) (by decide)
  have hpassed : (skbOutcome rd (parseDelivery rd zeroFrame .init ⟨betweenStrays, 0⟩)).Passed :=
    .inr (.inr hstray.1)
  have hd : Delivery.Holds tableConn ⟨betweenStrays, (strayHead.frame []).length⟩ fieldMessage :=
    ⟨rfl, rfl, strayHead.frame [], strayHead.frame [], rfl, rfl, by decide⟩
  have hd' : Delivery.Holds tableConn ⟨arrivedSkb fieldMessage tableConn, 0⟩ fieldMessage :=
    ⟨rfl, rfl, [], [], (List.append_nil _).symm, rfl, by decide⟩
  obtain ⟨n, hn, hpos⟩ := parseDelivery_field ha hd (parseDelivery_passed hpassed)
  refine .passed hpassed (.taken fieldMessage_framed hd hd' ?_ .nil)
  rintro (h | h | h)
  · cases hn.symm.trans h
    exact Nat.lt_irrefl 0 hpos
  · cases hn.symm.trans h
  · cases hn.symm.trans h

theorem parse_refusedRuns_between : ∃ rd, Attached huffmanCode [] rd ∧
    (Cork.feedAll (skipTurn rd tableConn true zeroFrame) (.start .init)
        [strayHead.frame [] ++ fieldMessage.take 4, fieldMessage.drop 4 ++ strayHead.frame []]).filter
          (fun o => ¬o.Rejected) =
      Cork.feedAll (skipTurn rd tableConn true zeroFrame) (.start .init) [fieldMessage] ∧
    (skbOutcomes rd zeroFrame .init
        [⟨betweenStrays, 0⟩, ⟨betweenStrays, (strayHead.frame []).length⟩]).filter
          (fun o => ¬o.Passed) =
      skbOutcomes rd zeroFrame .init [⟨arrivedSkb fieldMessage tableConn, 0⟩] := by
  obtain ⟨rd, ha⟩ : ∃ rd, Attached huffmanCode [] rd := attached_exists fun s => ⟨_, rfl⟩
  obtain ⟨-, hsent, harrived⟩ := parse_refusedRuns ha zeroFrame .init
  exact ⟨rd, ha, (hsent tableConn true).2 _ _ (without_stray ha), harrived _ _ (delivered_stray ha)⟩

/-- A frame that is passed over, of more bytes than the parser reads of an sk_buff. -/
def longStray : Bytes := strayHead.frame (List.replicate 0x8000 0)

/-- At `sk_skb` what is passed over counts as well: behind it a message can be out of reach. -/
theorem parseSkb_pastStray : ∃ rd, Attached huffmanCode [] rd ∧
    (let p := parseSkb rd .init (arrivedSkb (longStray ++ fieldMessage) tableConn) 0 .zero zeroFrame
      none
    p.ret = .error .EPROTO ∧
      (parseSkb rd p.maps p.skb (http2FrameHdrLen + p.frame.len) .zero zeroFrame none).ret =
        .error .E2BIG) ∧
    ∃ n, (parseSkb rd .init (arrivedSkb fieldMessage tableConn) 0 .zero zeroFrame none).ret =
      .ok n := by
  obtain ⟨rd, ha⟩ : ∃ rd, Attached huffmanCode [] rd := attached_exists fun s => ⟨_, rfl⟩
  have hd : Delivery.Holds tableConn ⟨arrivedSkb fieldMessage tableConn, 0⟩ fieldMessage :=
    ⟨rfl, rfl, [], [], (List.append_nil _).symm, rfl, by decide⟩
  obtain ⟨n, hn, -⟩ := parseDelivery_field ha hd (.refl .init)
  have hsize : (List.replicate 0x8000 (0 : UInt8)).length = 0x8000 := List.length_replicate
  unfold longStray
  generalize List.replicate 0x8000 (0 : UInt8) = payload at hsize
  obtain ⟨hret, hlen⟩ := @parseSkb_stray rd .init tableConn zeroFrame strayHead payload []
    fieldMessage rfl (by omega) (by decide)
  have hpast : maxBytes < http2FrameHdrLen + payload.length := by
    unfold maxBytes
    omega
  rw [List.nil_append, List.length_nil] at hret hlen
  refine ⟨rd, ha, ⟨hret, ?_⟩, n, hn⟩
  rw [hlen]
  unfold parseSkb
  rw [if_pos hpast]

end Stray

end Beeper.Http2
