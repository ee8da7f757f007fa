import Beeper.Http1Runs
import Beeper.Http1Inject

namespace Beeper.Http1

/-- The same message, all of which is linear. -/
def linearised (msg : SkMsg) : SkMsg :=
  { msg with linear := msg.bytes.length, linear_le := Nat.le_refl _ }

/-- The same value is returned, and the same ranges are reported. -/
structure SameParse (p q : ParsedMsg) : Prop where
  ret : p.ret = q.ret
  pres : p.pres = q.pres

/-- A DFA that captures up to every byte it reads. -/
def recorderDfa : Dfa Action :=
  (Dfa.new).setEdge initState anyInput ⟨initState, some (.endCapture 0)⟩

theorem recorderDfa_lookup {s i : Nat} {e : Edge Action} (h : recorderDfa.lookup s i = some e) :
    s = initState ∧ i = anyInput ∧ e = ⟨initState, some (.endCapture 0)⟩ := by
  rw [recorderDfa, Dfa.lookup_setEdge] at h
  split at h
  next heq =>
    obtain ⟨rfl, rfl⟩ := Prod.mk.inj heq
    exact ⟨rfl, rfl, (Option.some.inj h).symm⟩
  next => cases h

theorem recorder_exists : ∃ rd, Injects recorderDfa rd := by
  refine injects_exists [.endCapture 0] (by decide) (by decide) fun s i e h => ?_
  obtain ⟨-, rfl, rfl⟩ := recorderDfa_lookup h
  exact ⟨fun a ha => by cases ha; exact List.mem_cons_self, by decide⟩

variable {rd : Rodata} {msg : SkMsg}

theorem recorder_parseByte (h : Injects recorderDfa rd) (i : Nat) (c : UInt8) (w : Walk)
    (hw : w.s = initState) : parseByte rd i c w =
      ({ w with pres := w.pres.set 0 (rangeTo (w.cidx 0) i), s := initState }, false) := by
  have hc : recorderDfa.lookup initState c.toNat = none := by
    cases hl : recorderDfa.lookup initState c.toNat with
    | none => rfl
    | some e =>
      have hany := (recorderDfa_lookup hl).2.1
      have hlt : c.toNat < 256 := c.toNat_lt
      rw [hany] at hlt
      exact absurd hlt (by decide)
  have hany : recorderDfa.lookup initState anyInput = some ⟨initState, some (.endCapture 0)⟩ := by
    rw [recorderDfa, Dfa.lookup_setEdge, if_pos rfl]
  obtain ⟨hs, ha⟩ := h.runs.anyEdge initState c.toNat _ (by decide) hc hany fun _ => nofun
  have hfollow : rd.follow w.s c.toNat = rd.next initState c.toNat := by
    rw [hw, Rodata.follow]
    exact if_neg (by rw [hs]; decide)
  unfold parseByte
  simp only [hfollow, ha, hs]
  rfl

/-- The range it captures ends with the last byte read. -/
theorem recorder_walk (h : Injects recorderDfa rd) {bytes : Bytes} {i : Nat} {w : Walk}
    (hw : w.s = initState) (hc : w.cidx 0 = 0) (hne : bytes ≠ []) :
    (walk rd i bytes w).1 = none ∧
      (walk rd i bytes w).2.pres.get 0 = rangeTo 0 (i + bytes.length - 1) := by
  induction bytes generalizing i w with
  | nil => exact absurd rfl hne
  | cons c bytes ih =>
    have hbyte := recorder_parseByte h i c w hw
    have hnext : walk rd i (c :: bytes) w = walk rd (i + 1) bytes (parseByte rd i c w).1 :=
      Scan.run_next (by rw [hbyte])
    rw [hnext, hbyte]
    by_cases hnil : bytes = []
    · subst hnil
      refine ⟨rfl, ?_⟩
      simp [walk, Scan.run, HttpParseRes.get, HttpParseRes.set, hc]
    · obtain ⟨hnone, hget⟩ := @ih (i + 1)
        { w with pres := w.pres.set 0 (rangeTo (w.cidx 0) i), s := initState } rfl hc hnil
      refine ⟨hnone, hget.trans ?_⟩
      rw [List.length_cons]
      congr 1
      have := List.length_pos_iff.mpr hnil
      omega

/-- What is walked is the same, as soon as something is linear and parsing is not to be resumed
right at the limit. -/
theorem take_reach_linearised
    (h : (msg.bytes = [] ∨ 0 < msg.linear) ∧
      ¬(msg.linear = maxBytes ∧ maxBytes < msg.bytes.length)) :
    msg.bytes.take (reach msg) = msg.bytes.take (reach (linearised msg)) := by
  have hk := msg.linear_le
  rcases h with ⟨hnil | hpos, hlimit⟩
  · rw [hnil, List.take_nil, List.take_nil]
  · have hmax : 0 < maxBytes := by decide
    have hsize : (linearised msg).linear = msg.bytes.length := rfl
    by_cases hlin : msg.linear = maxBytes
    · have hall : msg.bytes.length = maxBytes := by omega
      rw [reach, reach, hsize, hlin, hall]
    · have hreach : reach msg = maxBytes + 1 := by
        unfold reach
        rw [if_neg (by omega), if_neg hlin]
      by_cases hall : msg.bytes.length = maxBytes
      · have hmsg : reach (linearised msg) = maxBytes := by
          rw [reach, hsize, if_neg (by omega), if_pos hall]
        rw [hreach, hmsg, List.take_of_length_le (by omega), List.take_of_length_le (by omega)]
      · have hmsg : reach (linearised msg) = maxBytes + 1 := by
          rw [reach, hsize, if_neg (by omega), if_neg hall]
        rw [hreach, hmsg]

theorem rangeTo_len (i : Nat) (h : i < 2 ^ 16 - 1) : (rangeTo 0 i).len.toNat = i + 1 := by
  simp only [rangeTo, u32Sub_of_le (Nat.zero_le i), Nat.sub_zero, UInt16.toNat_ofNat']
  exact Nat.mod_eq_of_lt (by omega)

/-- The last byte that is walked, and with it the range the recorder reports. -/
theorem recorder_reach {rd : Rodata} (h : Injects recorderDfa rd) (msg : SkMsg) :
    ((walk rd 0 (msg.bytes.take (reach msg)) (.start .zero)).2.pres.get 0).len.toNat =
      min (reach msg) msg.bytes.length := by
  by_cases hnil : msg.bytes.take (reach msg) = []
  · have hlen := congrArg List.length hnil
    rw [List.length_take] at hlen
    rw [hnil, hlen]
    rfl
  · rw [(recorder_walk h rfl rfl hnil).2, List.length_take, Nat.zero_add]
    have hpos := List.length_pos_iff.mpr hnil
    rw [List.length_take] at hpos
    have hreach : reach msg ≤ 0x8000 := by
      unfold reach maxBytes
      split <;> [skip; split] <;> omega
    rw [rangeTo_len _ (by omega)]
    omega

/-- The layout of a message makes no difference unless nothing of it is linear, or the linear part
ends at the limit while the message does not. -/
theorem parseMsg_linearised_iff (msg : SkMsg) (hp : msg.pullable) :
    (∀ dfa rd pres, Injects dfa rd →
      SameParse (parseMsg rd msg pres) (parseMsg rd (linearised msg) pres)) ↔
      (msg.bytes = [] ∨ 0 < msg.linear) ∧
        ¬(msg.linear = maxBytes ∧ maxBytes < msg.bytes.length) := by
  have hk := msg.linear_le
  constructor
  · intro h
    obtain ⟨rd, hrd⟩ := recorder_exists
    have hsame := (h recorderDfa rd .zero hrd).pres
    rw [(parseMsg_eq rd .zero hp).2, (@parseMsg_eq (linearised msg) rd .zero hp).2] at hsame
    have hlen := recorder_reach hrd msg
    rw [hsame, recorder_reach hrd (linearised msg)] at hlen
    have hlen : min (reach (linearised msg)) msg.bytes.length =
      min (reach msg) msg.bytes.length := hlen
    have hmax : 0 < maxBytes := by decide
    unfold reach linearised at hlen
    simp only at hlen
    constructor
    · by_contra hno
      obtain ⟨hne, hzero⟩ := not_or.mp hno
      have hpos := List.length_pos_iff.mpr hne
      rw [if_pos (by omega : msg.linear = 0), if_neg (by omega)] at hlen
      split at hlen <;> omega
    · rintro ⟨hlin, hsize⟩
      rw [if_neg (by omega), if_neg (by omega), if_neg (by omega), if_pos hlin] at hlen
      omega
  · intro h dfa rd pres _
    obtain ⟨hret, hpres⟩ := parseMsg_eq rd pres hp
    obtain ⟨hret', hpres'⟩ := @parseMsg_eq (linearised msg) rd pres hp
    have htake := take_reach_linearised h
    rw [htake] at hret hpres
    exact ⟨hret.trans hret'.symm, hpres.trans hpres'.symm⟩

/-- An empty line, nothing of which is linear. -/
def emptyLine : SkMsg := ⟨lf ++ lf, 0, ⟨⟨1, 1⟩, ⟨2, 2⟩⟩, true, Nat.zero_le _⟩

theorem parseMsg_emptyLine : ∃ rd, Attached [] rd ∧
    ¬SameParse (parseMsg rd emptyLine .zero) (parseMsg rd (linearised emptyLine) .zero) := by
  obtain ⟨rd, hrd, hcheck⟩ := @attached_of_check [] []
    (P := fun rd => decide ((parseMsg rd emptyLine .zero).ret ≠
      (parseMsg rd (linearised emptyLine) .zero).ret)) (by decide) (by decide +kernel)
  refine ⟨rd, hrd, fun h => ?_⟩
  have hne := of_decide_eq_true hcheck
  exact hne h.ret

/-- As soon as a byte is linear, the rest need not be. -/
theorem parseMsg_linearised_emptyLine : ∃ rd, Injects recorderDfa rd ∧
    SameParse (parseMsg rd { emptyLine with linear := 1, linear_le := by decide } .zero)
      (parseMsg rd (linearised { emptyLine with linear := 1, linear_le := by decide }) .zero) := by
  obtain ⟨rd, hrd⟩ := recorder_exists
  exact ⟨rd, hrd, (parseMsg_linearised_iff _ rfl).mpr ⟨.inr (by decide), by decide⟩ _ _ _ hrd⟩

end Beeper.Http1
