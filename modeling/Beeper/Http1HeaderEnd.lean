import Beeper.Http1Lines
import Mathlib.Data.Nat.Find

namespace Beeper.Http1

variable {items : List (Item × MatchId)} {l : Label} {rd : Rodata} {front bytes : Bytes} {c : UInt8}

/-- The bytes end with an empty line: an LF followed by an LF, or by a CR LF. -/
def EndsEmptyLine (bytes : Bytes) : Prop := lf ++ lf <:+ bytes ∨ lf ++ cr ++ lf <:+ bytes

/-- The first `n` bytes are those up to the first empty line. -/
structure FirstEmptyLine (bytes : Bytes) (n : Nat) : Prop where
  le : n ≤ bytes.length
  here : EndsEmptyLine (bytes.take n)
  first : ∀ k < n, ¬EndsEmptyLine (bytes.take k)

/-- What is returned tells the first empty line of the message, or that there is none yet. -/
structure FindsEmptyLine (ret : Except Errno Nat) (bytes : Bytes) : Prop where
  found : ∀ n, ret = .ok n ↔ FirstEmptyLine bytes n
  missing : (∀ n, ¬EndsEmptyLine (bytes.take n)) → ret = .error .EAGAIN

/-- The configurations that capture header fields only. -/
def HeadersOnly (items : List (Item × MatchId)) : Prop := ∀ it, Captures items it → ∃ n, it = .header n

theorem toNat_eq_lf : c.toNat = lfInput ↔ c = 0x0a := by
  rw [← UInt8.toNat_inj]
  rfl

theorem toNat_eq_cr : c.toNat = crInput ↔ c = 0x0d := by
  rw [← UInt8.toNat_inj]
  rfl

theorem HeadersOnly.not_edge (h : HeadersOnly items) (t : Bytes) (i : Nat) :
    (.start t, i) ∉ edges items := by
  rw [mem_edges]
  have hno : ∀ it, (∀ n, it ≠ .header n) → ¬Captures items it := by
    intro it hne hc
    obtain ⟨n, hn⟩ := h it hc
    exact hne n hn
  have hm := hno .method (fun n h => by cases h)
  have hp := hno .path (fun n h => by cases h)
  have hs := hno .status (fun n h => by cases h)
  have hf := hno .preface (fun n h => by cases h)
  simp [headerEdge, doneEdge, hm, hp, hs, hf]

/-- A line that matches nothing. -/
theorem HeadersOnly.readLabel_start (h : HeadersOnly items) (t : Bytes) (i : Nat) :
    readLabel items (.start t) i = again i :=
  readLabel_again (h.not_edge t i) (h.not_edge t anyInput)

theorem HeadersOnly.not_stops_start (h : HeadersOnly items) (t : Bytes) (i : Nat) :
    ¬∃ x, edgeOf items (.start t) i = some x ∧ stops items x := by
  rintro ⟨x, hx, hstop⟩
  rcases edgeOf_cases hx with ⟨-, he⟩ | ⟨-, -, he⟩ | ⟨rfl, -⟩
  · exact h.not_edge t i he
  · exact h.not_edge t anyInput he
  · rcases hstop with hdone | ⟨hp, -⟩
    · exact hdone
    · obtain ⟨n, hn⟩ := h _ hp
      cases hn

theorem suffix_concat {x y : Bytes} {a b : UInt8} :
    x ++ [a] <:+ y ++ [b] ↔ a = b ∧ x <:+ y := by
  constructor
  · rintro ⟨z, hz⟩
    rw [← List.append_assoc] at hz
    obtain ⟨heq, hab⟩ := List.append_inj' hz rfl
    exact ⟨(List.cons.inj hab).1, z, heq⟩
  · rintro ⟨rfl, z, rfl⟩
    exact ⟨z, by rw [List.append_assoc]⟩

theorem endsEmptyLine_concat : EndsEmptyLine (front ++ [c]) ↔
    c = 0x0a ∧ (lf <:+ front ∨ lf ++ cr <:+ front) := by
  have hlf : lf = [0x0a] := rfl
  rw [EndsEmptyLine, hlf, suffix_concat, suffix_concat, ← and_or_left, eq_comm]

/-- The label a walk is in tells how what was read so far ends. -/
def Follows (front : Bytes) (l : Label) : Prop :=
  l = .start [] ∧ front = [] ∨
    l.InHeader ∧ (l = .name [] ↔ lf <:+ front) ∧ (l = .lfCr ↔ lf ++ cr <:+ front)

theorem lf_suffix_concat : lf <:+ front ++ [c] ↔ c = 0x0a := by
  have hlf : lf = [] ++ [0x0a] := rfl
  rw [hlf, suffix_concat, and_iff_left List.nil_suffix, eq_comm]

theorem lfCr_suffix_concat : lf ++ cr <:+ front ++ [c] ↔ c = 0x0d ∧ lf <:+ front := by
  have hcr : cr = [0x0d] := rfl
  rw [hcr, suffix_concat, eq_comm]

/-- The DFA is done with a byte exactly if it ends an empty line. -/
theorem step_follows (hn : Named items) (ho : HeadersOnly items) (i : Nat) (h : Follows front l) :
    ((labelStep items i c l).2 = true ↔ EndsEmptyLine (front ++ [c])) ∧
      (¬EndsEmptyLine (front ++ [c]) → Follows (front ++ [c]) (labelStep items i c l).1) := by
  simp only [labelStep, decide_eq_true_eq, endsEmptyLine_concat]
  rcases h with ⟨rfl, rfl⟩ | ⟨hl, hname, hcr⟩
  · have hnil : ¬lf <:+ ([] : Bytes) ∧ ¬lf ++ cr <:+ ([] : Bytes) := by decide
    constructor
    · exact iff_of_false (ho.not_stops_start [] _) fun hend => hend.2.elim hnil.1 hnil.2
    · intro _
      rw [ho.readLabel_start]
      refine .inr ⟨?_, ?_, ?_⟩
      · unfold again
        split <;> [skip; split] <;> trivial
      · rw [lf_suffix_concat, ← toNat_eq_lf]
        unfold again
        split <;> [skip; split] <;> simp_all
      · rw [lfCr_suffix_concat, iff_false_right fun hx => hnil.1 hx.2]
        unfold again
        split <;> [skip; split] <;> simp
  · rw [hn.stops_iff hl, toNat_eq_lf, hname, hcr]
    refine ⟨Iff.rfl, fun hend => .inr ?_⟩
    rw [lf_suffix_concat, lfCr_suffix_concat]
    by_cases hclf : c = 0x0a
    · have hno := not_and.mp hend hclf
      rw [← hname, ← hcr, not_or] at hno
      rw [toNat_eq_lf.mpr hclf, hn.readLabel_lf hl hno.1 hno.2]
      refine ⟨trivial, iff_of_true rfl hclf, iff_of_false (by simp) ?_⟩
      rintro ⟨hccr, -⟩
      rw [hclf] at hccr
      exact absurd hccr (by decide)
    by_cases hccr : c = 0x0d
    · obtain ⟨hin, hne, hiff⟩ := hn.readLabel_cr hl
      rw [toNat_eq_cr.mpr hccr]
      exact ⟨hin, iff_of_false hne hclf, hiff.trans (hname.trans (iff_and_self.mpr fun _ => hccr))⟩
    · obtain ⟨hin, hne, hne'⟩ := hn.readLabel_inside hl c.toNat_lt
        (fun hc => hccr (toNat_eq_cr.mp hc)) (fun hc => hclf (toNat_eq_lf.mp hc))
      exact ⟨hin, iff_of_false hne hclf, iff_of_false hne' fun hx => hccr hx.1⟩

theorem not_endsEmptyLine_nil : ¬EndsEmptyLine [] := by
  rintro (h | h)
  · exact absurd h (by decide)
  · exact absurd h (by decide)

/-- The header block ends behind the first empty line. -/
theorem headerEnd_iff (h : Attached items rd) (ho : HeadersOnly items) {n : Nat} :
    headerEnd rd bytes = some n ↔ FirstEmptyLine bytes n := by
  rw [h.headerEnd_eq, Scan.run_first (R := Follows) (P := EndsEmptyLine)
    (fun i front c l => step_follows h.named ho i) (.inl ⟨rfl, rfl⟩)]
  simp only [Nat.zero_add, List.nil_append, Nat.sub_zero]
  constructor
  · rintro ⟨hpos, hle, hhere, hfirst⟩
    refine ⟨hle, hhere, fun k hk hend => ?_⟩
    by_cases hzero : k = 0
    · rw [hzero, List.take_zero] at hend
      exact not_endsEmptyLine_nil hend
    · exact hfirst k (Nat.pos_of_ne_zero hzero) hk hend
  · intro hf
    refine ⟨?_, hf.le, hf.here, fun k _ hk => hf.first k hk⟩
    by_contra hzero
    have hhere := hf.here
    rw [Nat.eq_zero_of_not_pos hzero, List.take_zero] at hhere
    exact not_endsEmptyLine_nil hhere

theorem exists_firstEmptyLine {n : Nat} (h : EndsEmptyLine (bytes.take n)) :
    ∃ k, FirstEmptyLine bytes k := by
  classical
  have hex : ∃ n, EndsEmptyLine (bytes.take n) := ⟨n, h⟩
  refine ⟨Nat.find hex, ?_, Nat.find_spec hex, fun k hk => Nat.find_min hex hk⟩
  by_contra hlt
  apply Nat.find_min hex (Nat.lt_of_not_le hlt)
  have hhere := Nat.find_spec hex
  rw [List.take_of_length_le (Nat.le_of_not_le hlt)] at hhere
  rw [List.take_length]
  exact hhere

/-- The parser finds the first empty line of every message, unless nothing of it is linear. -/
theorem parseMsg_emptyLine_iff (h : Attached items rd) (ho : HeadersOnly items) (msg : SkMsg)
    (hp : msg.pullable) (hlen : msg.bytes.length < maxBytes) (pres : HttpParseRes) :
    FindsEmptyLine (parseMsg rd msg pres).ret msg.bytes ↔
      0 < msg.linear ∨ ∀ n, ¬EndsEmptyLine (msg.bytes.take n) := by
  obtain ⟨hret, -⟩ := parseMsg_eq rd pres hp
  rw [walk_headerEnd] at hret
  have hsmall : ¬maxBytes ≤ msg.bytes.length := by omega
  by_cases hlin : 0 < msg.linear
  · have hreach : msg.bytes.take (reach msg) = msg.bytes := by
      apply List.take_of_length_le
      unfold reach
      split <;> [skip; split] <;> omega
    rw [hreach] at hret
    unfold walkRet at hret
    refine iff_of_true ⟨fun n => ?_, fun hmiss => ?_⟩ (.inl hlin)
    · rw [hret, ← headerEnd_iff h ho]
      cases headerEnd rd msg.bytes with
      | none => simp
      | some k => simp
    · cases hend : headerEnd rd msg.bytes with
      | none => rw [hret, hend, if_neg hsmall]
      | some k => exact absurd ((headerEnd_iff h ho).mp hend).here (hmiss k)
  · have hreach : reach msg = 0 := if_pos (by omega)
    rw [hreach, List.take_zero] at hret
    have hagain : (parseMsg rd msg pres).ret = .error .EAGAIN := by
      rw [hret]
      exact congrArg _ (if_neg hsmall)
    constructor
    · intro hfinds
      right
      intro n hend
      obtain ⟨k, hk⟩ := exists_firstEmptyLine hend
      have hok := (hfinds.found k).mpr hk
      rw [hagain] at hok
      cases hok
    · rintro (hpos | hmiss)
      · exact absurd hpos hlin
      · refine ⟨fun n => ?_, fun _ => hagain⟩
        rw [hagain]
        exact iff_of_false (by simp) fun hf => hmiss n hf.here

theorem parseMsg_unpulledEmptyLine : ∃ rd, Attached [] rd ∧
    ¬FindsEmptyLine (parseMsg rd emptyLine .zero).ret emptyLine.bytes := by
  obtain ⟨rd, hrd, hcheck⟩ := @attached_of_check [] []
    (P := fun rd => decide ((parseMsg rd emptyLine .zero).ret ≠ .ok 2)) (by decide)
    (by decide +kernel)
  have hfirst : FirstEmptyLine emptyLine.bytes 2 := by
    refine ⟨by decide, .inl ⟨[], rfl⟩, fun k hk => ?_⟩
    rintro (h | h)
    · have := h.length_le
      rw [List.length_take] at this
      have hlen : (lf ++ lf).length = 2 := rfl
      omega
    · have := h.length_le
      rw [List.length_take] at this
      have hlen : (lf ++ cr ++ lf).length = 3 := rfl
      omega
  exact ⟨rd, hrd, fun h => of_decide_eq_true hcheck ((h.found 2).mpr hfirst)⟩

/-- With a byte of it linear, an empty line is found. -/
theorem parseMsg_pulledEmptyLine : ∃ rd, Attached [] rd ∧
    FindsEmptyLine (parseMsg rd { emptyLine with linear := 1, linear_le := by decide } .zero).ret
      (lf ++ lf) := by
  obtain ⟨rd, hrd, -⟩ := @attached_of_check [] [] (P := fun _ => true) (by decide)
    (by decide +kernel)
  refine ⟨rd, hrd, ?_⟩
  have hnone : HeadersOnly [] := by
    rintro it ⟨m, hm⟩
    cases hm
  exact (parseMsg_emptyLine_iff hrd hnone { emptyLine with linear := 1, linear_le := by decide } rfl
    (by decide) .zero).mpr (.inl (by decide))

end Beeper.Http1
