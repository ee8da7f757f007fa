import Beeper.Http1Walk

namespace Beeper.Http1

variable {rd : Rodata} {msg : SkMsg} {pres : HttpParseRes}

/-- The walk over `bytes`, which are numbered from `i` on. -/
abbrev walk (rd : Rodata) : Nat → Bytes → Walk → Option Nat × Walk := Scan.run (parseByte rd)

theorem parseLoop_eq_walk (rd : Rodata) (data : Bytes) (n i : Nat) (w : Walk) :
    parseLoop rd data n i w none =
      ((walk rd i (slice data i n) w).1, (walk rd i (slice data i n) w).2, none) := by
  induction n generalizing i w with
  | zero => simp only [slice, List.take_zero]; rfl
  | succ n ih =>
    unfold parseLoop
    cases hd : data[i]? with
    | none =>
      have hlen := List.getElem?_eq_none_iff.mp hd
      rw [slice, List.drop_eq_nil_of_le hlen]
      rfl
    | some c =>
      have hs : slice data i (n + 1) = c :: slice data (i + 1) n := by
        obtain ⟨hi, hc⟩ := List.getElem?_eq_some_iff.mp hd
        rw [slice, List.drop_eq_getElem_cons hi, hc]
        rfl
      simp only [reduceCtorEq, and_false, if_false, hs]
      cases hdone : (parseByte rd i c w).2 with
      | true => rw [walk, Scan.run_done hdone]; rfl
      | false =>
        rw [walk, Scan.run_next hdone]
        exact ih (i + 1) _

/-- The bytes of `data` that a walk which starts at `start` gets to see. -/
theorem slice_reach {data : Bytes} {start : Nat} (h : start < min data.length maxBytes) :
    slice data start (min data.length maxBytes + 1 - start) =
      (data.take (maxBytes + 1)).drop start := by
  rw [slice, List.drop_take]
  by_cases hl : data.length ≤ maxBytes
  · rw [List.take_of_length_le (by simp only [List.length_drop]; omega),
      List.take_of_length_le (by simp only [List.length_drop]; omega)]
  · rw [Nat.min_eq_right (by omega)]

theorem parseFrom_walk {data : Bytes} {start : Nat} (rd : Rodata) (w : Walk)
    (h : start < min data.length maxBytes) :
    parseFrom rd data start w none =
      (((walk rd start ((data.take (maxBytes + 1)).drop start) w).1.map Int.ofNat).getD
          (-(min data.length maxBytes : Nat)),
        (walk rd start ((data.take (maxBytes + 1)).drop start) w).2, none) := by
  unfold parseFrom
  simp only [if_neg (Nat.not_le.mpr h), parseLoop_eq_walk, slice_reach h]

theorem parseFrom_nothing {data : Bytes} {start : Nat} (rd : Rodata) (w : Walk)
    (h : min data.length maxBytes ≤ start) : parseFrom rd data start w none = (0, w, none) :=
  if_pos h

/-- The return value once a walk over a message of `size` bytes has ended. -/
def walkRet (res : Option Nat) (size : Nat) : Except Errno Nat :=
  match res with
  | some n => .ok n
  | none => .error (if maxBytes ≤ size then .E2BIG else .EAGAIN)

theorem parseRet_some {n : Nat} (h : 0 < n) (size : Nat) :
    parseRet (Int.ofNat n) size = walkRet (some n) size :=
  if_pos (by simpa using h)

theorem parseRet_none {res : Int} (h : res ≤ 0) (size : Nat) : parseRet res size = walkRet none size :=
  if_neg (by omega)

/-- The number of bytes of the message that are walked at most. The byte right behind the limit is
one of them, unless parsing is to be resumed there. -/
def reach (msg : SkMsg) : Nat :=
  if msg.linear = 0 then 0 else if msg.linear = maxBytes then maxBytes else maxBytes + 1

/-- What the first walk sees is the front of all that is walked. -/
theorem take_reach (msg : SkMsg) : ∃ rest,
    msg.bytes.take (reach msg) = msg.bytes.take (min (maxBytes + 1) msg.linear) ++ rest := by
  have hle : min (maxBytes + 1) msg.linear ≤ reach msg := by
    unfold reach
    split <;> [skip; split] <;> omega
  obtain ⟨rest, hrest⟩ := List.take_prefix_take_left (l := msg.bytes) hle
  exact ⟨rest, hrest.symm⟩

/-- The walk that is done within the linear part. -/
theorem parseMsg_done {n : Nat} (h0 : msg.linear ≠ 0)
    (h : (walk rd 0 (msg.bytes.take (min (maxBytes + 1) msg.linear)) (.start pres)).1 = some n) :
    parseMsg rd msg pres = ⟨.ok n,
      (walk rd 0 (msg.bytes.take (min (maxBytes + 1) msg.linear)) (.start pres)).2.pres, msg⟩ := by
  have hlt : 0 < min msg.data.length maxBytes := by
    rw [SkMsg.data, List.length_take_of_le msg.linear_le]
    exact Nat.lt_min.mpr ⟨Nat.pos_of_ne_zero h0, by decide⟩
  have hfirst := parseFrom_walk rd (.start pres) hlt
  rw [List.drop_zero, SkMsg.data, List.take_take, h] at hfirst
  have hn := (Scan.run_bounds h).1
  have hneg : ¬((n : Int) < 0 ∧ -(n : Int) < msg.bytes.length) := by omega
  unfold parseMsg
  simp only [SkMsg.data, hfirst, Option.map_some, Option.getD_some, Int.ofNat_eq_natCast, if_neg hneg]
  rw [← Int.ofNat_eq_natCast, parseRet_some hn]
  rfl

/-- The walk that is not. -/
theorem parseMsg_resumed (hp : msg.pullable) (h0 : msg.linear ≠ 0)
    (h : (walk rd 0 (msg.bytes.take (min (maxBytes + 1) msg.linear)) (.start pres)).1 = none) :
    (parseMsg rd msg pres).ret =
        walkRet (walk rd 0 (msg.bytes.take (reach msg)) (.start pres)).1 msg.bytes.length ∧
      (parseMsg rd msg pres).pres =
        (walk rd 0 (msg.bytes.take (reach msg)) (.start pres)).2.pres := by
  have hk := msg.linear_le
  have hlen : msg.data.length = msg.linear := List.length_take_of_le hk
  have hmax : 0 < maxBytes := by decide
  have hfirst := @parseFrom_walk msg.data 0 rd (.start pres) (by omega)
  rw [List.drop_zero, hlen, SkMsg.data, List.take_take, h] at hfirst
  simp only [Option.map_none, Option.getD_none] at hfirst
  have hneg : -((min msg.linear maxBytes : Nat) : Int) < 0 := by omega
  by_cases hsize : msg.bytes.length ≤ min msg.linear maxBytes
  · -- all of the message was linear
    have hno : ¬(-((min msg.linear maxBytes : Nat) : Int) < 0 ∧
        - -((min msg.linear maxBytes : Nat) : Int) < msg.bytes.length) := by omega
    have hall : msg.bytes.take (reach msg) = msg.bytes.take (min (maxBytes + 1) msg.linear) := by
      have hr : msg.bytes.length ≤ reach msg := by
        unfold reach
        split <;> [skip; split] <;> omega
      rw [List.take_of_length_le hr, List.take_of_length_le (by omega)]
    unfold parseMsg
    simp only [SkMsg.data, hfirst, if_neg hno, hall, h]
    exact ⟨parseRet_none (by omega) _, trivial⟩
  · have hyes : -((min msg.linear maxBytes : Nat) : Int) < 0 ∧
        - -((min msg.linear maxBytes : Nat) : Int) < msg.bytes.length := by omega
    have hpull : msg.pullData msg.bytes.length =
        some { msg with linear := msg.bytes.length, linear_le := Nat.le_refl _ } :=
      dif_pos ⟨hp, by omega, Nat.le_refl _⟩
    have hres : (- -((min msg.linear maxBytes : Nat) : Int)).toNat = min msg.linear maxBytes := by
      omega
    unfold parseMsg
    simp only [SkMsg.data, hfirst, if_pos hyes, hpull, hres, List.take_length]
    by_cases hlin : msg.linear < maxBytes
    · -- the second walk takes up where the first one ran out of data
      have hreach : reach msg = maxBytes + 1 := by
        unfold reach
        rw [if_neg h0, if_neg (by omega)]
      have hsplit : msg.bytes.take (reach msg) = msg.bytes.take (min (maxBytes + 1) msg.linear) ++
          (msg.bytes.take (maxBytes + 1)).drop msg.linear := by
        rw [hreach, Nat.min_eq_right (by omega)]
        conv_lhs => rw [← List.take_append_drop msg.linear (msg.bytes.take (maxBytes + 1))]
        rw [List.take_take, Nat.min_eq_left (by omega)]
      have hseen : (msg.bytes.take (min (maxBytes + 1) msg.linear)).length = msg.linear := by
        rw [List.length_take]
        omega
      have hwalk := Scan.run_append_none h ((msg.bytes.take (maxBytes + 1)).drop msg.linear)
      rw [← hsplit, hseen, Nat.zero_add] at hwalk
      rw [Nat.min_eq_left (by omega), parseFrom_walk rd _ (by omega), walk, hwalk]
      cases hsecond : (Scan.run (parseByte rd) msg.linear
          ((msg.bytes.take (maxBytes + 1)).drop msg.linear)
          (Scan.run (parseByte rd) 0 (msg.bytes.take (min (maxBytes + 1) msg.linear))
            (.start pres)).2).1 with
      | some n =>
        have hn := (Scan.run_bounds hsecond).1
        exact ⟨parseRet_some (by omega) _, rfl⟩
      | none => exact ⟨parseRet_none (by simp) _, rfl⟩
    · -- the second walk would start behind the limit
      have hall : msg.bytes.take (reach msg) = msg.bytes.take (min (maxBytes + 1) msg.linear) := by
        unfold reach
        rw [if_neg h0]
        split <;> congr 1 <;> omega
      rw [parseFrom_nothing rd _ (by omega), hall, h]
      exact ⟨parseRet_none (Int.le_refl 0) _, rfl⟩

/-- What the linear part of a message and the rest of it come to together. -/
theorem parseMsg_eq (rd : Rodata) (pres : HttpParseRes) (hp : msg.pullable) :
    (parseMsg rd msg pres).ret =
        walkRet (walk rd 0 (msg.bytes.take (reach msg)) (.start pres)).1 msg.bytes.length ∧
      (parseMsg rd msg pres).pres =
        (walk rd 0 (msg.bytes.take (reach msg)) (.start pres)).2.pres := by
  by_cases h0 : msg.linear = 0
  · have hlen : msg.data.length = 0 := by
      rw [SkMsg.data, h0]
      rfl
    have hreach : reach msg = 0 := if_pos h0
    have hfirst := @parseFrom_nothing msg.data 0 rd (.start pres) (by omega)
    unfold parseMsg
    simp only [hfirst, hreach, List.take_zero, Int.lt_irrefl, false_and, if_false]
    exact ⟨parseRet_none (Int.le_refl 0) _, rfl⟩
  cases h : (walk rd 0 (msg.bytes.take (min (maxBytes + 1) msg.linear)) (.start pres)).1 with
  | none => exact parseMsg_resumed hp h0 h
  | some n =>
    obtain ⟨rest, hrest⟩ := take_reach msg
    have hwalk := Scan.run_append_done h rest
    rw [parseMsg_done h0 h, hrest, walk, hwalk]
    exact ⟨by rw [h]; rfl, rfl⟩

variable {skb : SkBuff} {off : Nat} {np : Option Nat}

/-- The sk_buff is linear as a whole once it is parsed. -/
theorem skb_linearised (hp : skb.pullable) :
    ∃ skb', (if skb.linear < skb.bytes.length then skb.pullData skb.bytes.length else some skb) =
      some skb' ∧ skb'.data = skb.bytes := by
  by_cases hl : skb.linear < skb.bytes.length
  · rw [if_pos hl]
    refine ⟨_, dif_pos ⟨hp, Nat.le_refl _⟩, ?_⟩
    have hmax : max skb.linear skb.bytes.length = skb.bytes.length := Nat.max_eq_right skb.linear_le
    show skb.bytes.take (max skb.linear skb.bytes.length) = _
    rw [hmax, List.take_length]
  · rw [if_neg hl]
    exact ⟨skb, rfl, List.take_of_length_le (Nat.le_of_not_lt hl)⟩

/-- What is returned once the loop over an sk_buff has come to `res`. -/
def skbRet (res : Option Nat) (off size : Nat) : Except Errno Nat :=
  match res with
  | some n => .ok (n - off)
  | none => .error (if maxBytes ≤ size then .E2BIG else .EAGAIN)

theorem parseSkb_loop (rd : Rodata) (pres : HttpParseRes) (hp : skb.pullable) (hoff : off < maxBytes)
    (hlt : off < skb.bytes.length) (hpos : ∀ n, (parseLoop rd skb.bytes
      (min skb.bytes.length maxBytes + 1 - off) off (.start pres) np).1 = some n → 0 < n) :
    (parseSkb rd skb off pres np).ret = skbRet (parseLoop rd skb.bytes
        (min skb.bytes.length maxBytes + 1 - off) off (.start pres) np).1 off skb.bytes.length ∧
      (parseSkb rd skb off pres np).pres = (parseLoop rd skb.bytes
        (min skb.bytes.length maxBytes + 1 - off) off (.start pres) np).2.1.pres ∧
      (parseSkb rd skb off pres np).nullPrefix = (parseLoop rd skb.bytes
        (min skb.bytes.length maxBytes + 1 - off) off (.start pres) np).2.2 := by
  obtain ⟨skb', hskb', hdata⟩ := skb_linearised hp
  unfold parseSkb
  simp only [if_neg (Nat.not_le.mpr hoff), if_neg (Nat.not_lt.mpr (Nat.le_of_lt hlt)),
    if_neg (Nat.ne_of_lt hlt), hskb', hdata]
  have hfrom : ¬min skb.bytes.length maxBytes ≤ off := by omega
  unfold parseFrom
  simp only [if_neg hfrom]
  refine ⟨?_, trivial, trivial⟩
  cases hloop : (parseLoop rd skb.bytes (min skb.bytes.length maxBytes + 1 - off) off (.start pres)
      np).1 with
  | none =>
    have hneg : ¬(0 : Int) < -((min skb.bytes.length maxBytes : Nat) : Int) := by omega
    simp only [Option.map_none, Option.getD_none, if_neg hneg]
    rfl
  | some n =>
    have hn : (0 : Int) < (n : Int) := by
      have := hpos n hloop
      omega
    have hsub : ((n : Int) - (off : Int)).toNat = n - off := by omega
    simp only [Option.map_some, Option.getD_some, Int.ofNat_eq_natCast, if_pos hn, hsub]
    rfl

/-- What a walk over an sk_buff that starts `off` bytes into it comes to. -/
theorem parseSkb_eq (rd : Rodata) (pres : HttpParseRes) (hp : skb.pullable) (hoff : off < maxBytes)
    (hlt : off < skb.bytes.length) : (parseSkb rd skb off pres none).ret =
        skbRet (walk rd off ((skb.bytes.take (maxBytes + 1)).drop off) (.start pres)).1 off
          skb.bytes.length ∧
      (parseSkb rd skb off pres none).pres =
        (walk rd off ((skb.bytes.take (maxBytes + 1)).drop off) (.start pres)).2.pres := by
  have hreach : off < min skb.bytes.length maxBytes := by omega
  have hloop := parseLoop_eq_walk rd skb.bytes (min skb.bytes.length maxBytes + 1 - off) off (.start pres)
  rw [slice_reach hreach] at hloop
  have hpos : ∀ n, (parseLoop rd skb.bytes (min skb.bytes.length maxBytes + 1 - off) off
      (.start pres) none).1 = some n → 0 < n := by
    intro n hn
    rw [hloop] at hn
    exact Nat.zero_lt_of_lt (Scan.run_bounds hn).1
  obtain ⟨hret, hpres, -⟩ := parseSkb_loop rd pres hp hoff hlt hpos
  rw [hret, hpres, hloop]
  exact ⟨rfl, rfl⟩

end Beeper.Http1
