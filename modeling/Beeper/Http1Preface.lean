import Beeper.Http1Offsets

namespace Beeper.Http1

variable {items : List (Item × MatchId)} {rd : Rodata} {msg : SkMsg} {skb : SkBuff} {bytes : Bytes}
  {m : MatchId} {k o off : Nat}

theorem startsPreface_take :
    StartsPreface items (bytes.take k) ↔ 24 ≤ k ∧ StartsPreface items bytes := by
  unfold StartsPreface
  rw [List.prefix_take_iff, List.prefix_take_iff, http2Preface_length, lowerPreface_length]
  tauto

theorem StartsPreface.length (h : StartsPreface items bytes) : 24 ≤ bytes.length := by
  rcases h with hp | ⟨-, hp⟩
  · rw [← http2Preface_length]
    exact hp.length_le
  · rw [← lowerPreface_length]
    exact hp.length_le

/-- Nothing is captured of a preface before the byte that ends it, which the DFA is done with. -/
theorem run_preface_unfinished (hc : Captures items .preface)
    (h : (Scan.run (viewStep items .preface) o bytes .init).1 = none) :
    (Scan.run (viewStep items .preface) o bytes .init).2.range = .zero := by
  apply @Scan.run_unfinished _ _ _ _ _ _ (fun v : View => v.range = .zero) _ rfl h
  intro i c v hv hd
  have hclose : ¬∃ x, edgeOf items v.label c.toNat = some x ∧ Item.preface.closes x := by
    rintro ⟨x, hx, hcl⟩
    have hdone : (labelStep items i c v.label).2 = true :=
      labelStep_done.mpr ⟨x, hx, .inr ⟨hc, hcl⟩⟩
    exact absurd (hdone.symm.trans hd) (by decide)
  simp only [viewStep, if_neg hclose]
  exact hv

theorem prefaceRange_len (ho : o ≤ maxBytes) :
    (prefaceRange items o bytes).len ≠ 0 ↔ StartsPreface items bytes := by
  unfold prefaceRange
  split
  next h =>
    refine iff_of_true ?_ h
    intro hz
    have hlen := (rangeTo_reports (Nat.zero_le (o + 23)) (by unfold maxBytes at ho; omega)).2
    rw [hz, UInt16.toNat_zero] at hlen
    omega
  next h => exact iff_of_false (fun hne => hne rfl) h

/-- A walk is done with the preface it starts with, if it starts with one. -/
theorem Attached.walk_preface (h : Attached items rd) (hm : (.preface, m) ∈ items)
    (ho : o ≤ maxBytes) (bytes : Bytes) :
    let w := walk rd o bytes (.start .zero)
    ((w.2.pres.get m).len ≠ 0 ↔ StartsPreface items bytes) ∧
      (StartsPreface items bytes → ∃ n, w.1 = some n) := by
  obtain ⟨hret, hrange⟩ := h.walk_view hm o bytes
  have hrun := preface_run ⟨m, hm⟩ o bytes
  simp only
  rw [hret, hrange, hrun]
  refine ⟨prefaceRange_len ho, fun hs => Option.ne_none_iff_exists'.mp fun hnone => ?_⟩
  have hz := run_preface_unfinished ⟨m, hm⟩ hnone
  rw [hrun] at hz
  exact (prefaceRange_len ho).mpr hs (by rw [hz]; rfl)

theorem matched_iff {pres : HttpParseRes} : matched pres 0 = true ↔ (pres.get 0).len ≠ 0 := by
  unfold matched
  rw [if_neg (by decide), decide_eq_true_iff]
  exact UInt16.pos_iff_ne_zero

/-- The preface under the id 0 is seen at the start of a message only, and parsing ends with it. -/
theorem parseMsg_preface (h : Attached items rd) (hm : (.preface, 0) ∈ items) (hp : msg.pullable) :
    (matched (parseMsg rd msg .zero).pres 0 = true ↔
        msg.linear ≠ 0 ∧ StartsPreface items msg.bytes) ∧
      (msg.linear ≠ 0 ∧ StartsPreface items msg.bytes → ∃ n, (parseMsg rd msg .zero).ret = .ok n) := by
  obtain ⟨hret, hpres⟩ := parseMsg_eq rd .zero hp
  obtain ⟨hseen, hdone⟩ := h.walk_preface hm (Nat.zero_le _) (msg.bytes.take (reach msg))
  have hreach : 24 ≤ reach msg ↔ msg.linear ≠ 0 := by
    unfold reach maxBytes
    split
    next h0 => exact iff_of_false (by decide) (fun hne => hne h0)
    next h0 => exact iff_of_true (by split <;> omega) h0
  rw [startsPreface_take, hreach] at hseen hdone
  refine ⟨?_, fun hs => ?_⟩
  · rw [matched_iff, hpres]
    exact hseen
  · obtain ⟨n, hn⟩ := hdone hs
    rw [hret, hn]
    exact ⟨n, rfl⟩

theorem parseSkb_preface (h : Attached items rd) (hm : (.preface, 0) ∈ items) (hp : skb.pullable) :
    (matched (parseSkb rd skb off .zero none).pres 0 = true ↔
        off + 23 ≤ maxBytes ∧ StartsPreface items (skb.bytes.drop off)) ∧
      (off + 23 ≤ maxBytes ∧ StartsPreface items (skb.bytes.drop off) →
        ∃ n, (parseSkb rd skb off .zero none).ret = .ok n) := by
  by_cases hin : off < maxBytes ∧ off < skb.bytes.length
  · obtain ⟨hoff, hlt⟩ := hin
    obtain ⟨hret, hpres⟩ := parseSkb_eq rd .zero hp hoff hlt
    obtain ⟨hseen, hdone⟩ := h.walk_preface hm (Nat.le_of_lt hoff)
      ((skb.bytes.take (maxBytes + 1)).drop off)
    have hreach : 24 ≤ maxBytes + 1 - off ↔ off + 23 ≤ maxBytes := by omega
    rw [List.drop_take, startsPreface_take, hreach] at hseen hdone
    rw [← List.drop_take] at hseen hdone
    refine ⟨?_, fun hs => ?_⟩
    · rw [matched_iff, hpres]
      exact hseen
    · obtain ⟨n, hn⟩ := hdone hs
      rw [hret, hn]
      exact ⟨n - off, rfl⟩
  · have hno : ¬(off + 23 ≤ maxBytes ∧ StartsPreface items (skb.bytes.drop off)) := by
      rintro ⟨hle, hs⟩
      have hlen := hs.length
      rw [List.length_drop] at hlen
      omega
    refine ⟨iff_of_false ?_ hno, fun hs => absurd hs hno⟩
    have hpres : (parseSkb rd skb off .zero none).pres = .zero := by
      unfold parseSkb
      split
      · rfl
      · simp only
        split
        · rfl
        · rw [if_pos (by omega)]
    rw [hpres]
    decide

end Beeper.Http1
