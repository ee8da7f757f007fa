import Beeper.Calls

namespace Beeper.Http2

variable {σ : Type}

/-- The loop that `_parse_hdr_from` and `_parse_stg_from` share, over any decoder that `step`
feeds a byte to, along with its offset. -/
def walkLoop (step : σ → UInt8 → Nat → Option Errno × σ) (data : Bytes) :
    Nat → Nat → Nat → σ → Option Nat → Except Errno Nat × σ × Option Nat
  | 0, _, last, st, nullPrefix => (.ok last, st, nullPrefix)
  | rounds + 1, i, _, st, nullPrefix =>
    match data[i]? with
    | none => (.error .EFAULT, st, nullPrefix)
    | some c =>
      if c = 0 ∧ nullPrefix = some i then walkLoop step data rounds (i + 1) i st (some (i + 1))
      else
        match step st c i with
        | (some e, st) => (.error e, st, nullPrefix)
        | (none, st) => walkLoop step data rounds (i + 1) i st nullPrefix

def hdrStep (rd : Rodata) (ctx : MsgCtx) (buf : BlockBuf) (st : HdrState) (c : UInt8) (i : Nat) :
    Option Errno × HdrState :=
  parseHdrByte rd ctx buf { st with ps := { st.ps with i := i } } c

def stgStep (st : StgState) (c : UInt8) (_ : Nat) : Option Errno × StgState := (none, stgByte st c)

theorem parseHdrLoop_walk (rd : Rodata) (ctx : MsgCtx) (buf : BlockBuf) (rounds i last : Nat)
    (st : HdrState) (p : Option Nat) :
    parseHdrLoop rd ctx buf rounds i last st p =
      walkLoop (hdrStep rd ctx buf) ctx.data rounds i last st p := by
  induction rounds generalizing i last st p with
  | zero => rfl
  | succ rounds ih =>
    simp only [parseHdrLoop, walkLoop, hdrStep]
    cases hc : ctx.data[i]? with
    | none => rfl
    | some c =>
      simp only [ih]
      generalize parseHdrByte rd ctx buf _ c = r
      obtain ⟨e, st'⟩ := r
      cases e <;> rfl

theorem parseStgLoop_walk (data : Bytes) (rounds i last : Nat) (st : StgState) (p : Option Nat) :
    parseStgLoop data rounds i last st p = walkLoop stgStep data rounds i last st p := by
  induction rounds generalizing i last st p with
  | zero => rfl
  | succ rounds ih =>
    simp only [parseStgLoop, walkLoop, stgStep]
    cases hc : data[i]? with
    | none => rfl
    | some c => simp only [ih]

/-- A decoder that also writes down what it is fed. -/
def logged (step : σ → UInt8 → Nat → Option Errno × σ) (st : σ × List (UInt8 × Nat)) (c : UInt8)
    (i : Nat) : Option Errno × σ × List (UInt8 × Nat) :=
  ((step st.1 c i).1, (step st.1 c i).2, st.2 ++ [(c, i)])

variable {step : σ → UInt8 → Nat → Option Errno × σ} {data : Bytes}

/-- Writing it down changes nothing. -/
theorem walkLoop_logged (rounds i last : Nat) (st : σ × List (UInt8 × Nat)) (p : Option Nat) :
    (walkLoop (logged step) data rounds i last st p).1 =
        (walkLoop step data rounds i last st.1 p).1 ∧
      (walkLoop (logged step) data rounds i last st p).2.1.1 =
        (walkLoop step data rounds i last st.1 p).2.1 := by
  induction rounds generalizing i last st p with
  | zero => exact ⟨rfl, rfl⟩
  | succ rounds ih =>
    simp only [walkLoop]
    cases hc : data[i]? with
    | none => exact ⟨rfl, rfl⟩
    | some c =>
      simp only
      split
      · exact ih (i + 1) i st (some (i + 1))
      · simp only [logged]
        cases hs : step st.1 c i with
        | mk e st' =>
          cases e with
          | some e => exact ⟨rfl, rfl⟩
          | none => exact ih (i + 1) i (st', st.2 ++ [(c, i)]) p

/-- A walk that fails nowhere feeds every byte but the zeros that carry on the null prefix. -/
theorem walkLoop_fed {rounds i last n : Nat} {st : σ × List (UInt8 × Nat)} {p : Option Nat}
    (hb : i + rounds ≤ data.length)
    (h : (walkLoop (logged step) data rounds i last st p).1 = .ok n) :
    (walkLoop (logged step) data rounds i last st p).2.1.2 =
      st.2 ++ dropNullPrefix p ((slice data i rounds).zipIdx i) := by
  induction rounds generalizing i last st p with
  | zero => simp [walkLoop, slice, dropNullPrefix]
  | succ rounds ih =>
    have hi : i < data.length := by omega
    have hget := List.getElem?_eq_getElem hi
    rw [slice_succ hget, List.zipIdx_cons]
    simp only [walkLoop, hget, dropNullPrefix] at h ⊢
    split at h
    next hz =>
      rw [if_pos hz, if_pos hz]
      exact ih (by omega) h
    next hz =>
      rw [if_neg hz, if_neg hz]
      simp only [logged] at h ⊢
      cases hs : step st.1 data[i] i with
      | mk e st' =>
        rw [hs] at h
        cases e with
        | some e => cases h
        | none =>
          have hrec := @ih (i + 1) i (st', st.2 ++ [(data[i], i)]) p (by omega) h
          simp only [hrec, List.append_assoc, List.singleton_append]

theorem walkLoop_log {rounds i last n : Nat} {st : σ} {p : Option Nat}
    (hb : i + rounds ≤ data.length) (h : (walkLoop step data rounds i last st p).1 = .ok n) :
    (walkLoop (logged step) data rounds i last (st, []) p).2.1.2 =
      dropNullPrefix p ((slice data i rounds).zipIdx i) := by
  exact walkLoop_fed hb ((walkLoop_logged rounds i last (st, []) p).1.trans h)

/-- The zeros a null prefix that ends at `p` goes on with are dropped, and only these. -/
theorem dropNullPrefix_eq_self {p : Option Nat} {xs : List (UInt8 × Nat)}
    (h : ∀ x ∈ xs, ¬(x.1 = 0 ∧ p = some x.2)) : dropNullPrefix p xs = xs := by
  induction xs with
  | nil => rfl
  | cons x xs ih =>
    have hx := h x List.mem_cons_self
    have hxs := ih fun y hy => h y (List.mem_cons_of_mem _ hy)
    obtain ⟨c, i⟩ := x
    simp only [dropNullPrefix]
    rw [if_neg hx, hxs]

theorem dropNullPrefix_ne_self {p : Option Nat} {xs : List (UInt8 × Nat)} {x : UInt8 × Nat}
    (hx : x ∈ xs) (hz : x.1 = 0 ∧ p = some x.2) : dropNullPrefix p xs ≠ xs := by
  induction xs with
  | nil => exact absurd hx List.not_mem_nil
  | cons y ys ih =>
    obtain ⟨c, i⟩ := y
    simp only [dropNullPrefix]
    split
    next =>
      intro heq
      have hlen := congrArg List.length heq
      have hle := dropNullPrefix_length_le (some (i + 1)) ys
      simp only [List.length_cons] at hlen
      omega
    next hne =>
      intro heq
      rcases List.mem_cons.mp hx with rfl | hy
      · exact hne hz
      · exact ih hy (List.cons.inj heq).2

/-- The bytes `_parse_frame` feeds to its decoder, each along with its offset. -/
def parseFrameFed (rd : Rodata) (maps : Maps) (ctx : MsgCtx) (off len type flags : Nat)
    (pres : HttpParseRes) (nullPrefix : Option Nat) : List (UInt8 × Nat) :=
  if maxBytes < off then []
  else match http2Block (ctx.data.drop off) len type flags with
  | .error _ => []
  | .ok (start, stop) =>
    if maxBytes < off + stop then []
    else match getDynamicTable maps ctx.conn with
    | (none, _) => []
    | (some info, maps) =>
      let i := start + off
      let rounds := walkStop ctx (stop + off) - i
      if type = http2SettingsFrame then
        (walkLoop (logged stgStep) ctx.data rounds i i (⟨0, 0, 0, info.maxSize⟩, [])
          nullPrefix).2.1.2
      else
        (walkLoop (logged (hdrStep rd ctx maps.blockBuf)) ctx.data rounds i i
          (⟨maps.table info, pres, newHttp2ParseState .msg⟩, []) nullPrefix).2.1.2

end Beeper.Http2
