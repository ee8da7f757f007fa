import Beeper.HeaderWalk

namespace Beeper.Http2

/-- The value of the last HEADER_TABLE_SIZE parameter in the payload of a SETTINGS frame. -/
def lastTableSize : Bytes → Option Nat
  | a :: b :: c :: d :: e :: f :: rest =>
    (lastTableSize rest).or
      (if a.toNat * 256 + b.toNat = settingsHeaderTableSize then
        some (((c.toNat * 256 + d.toNat) * 256 + e.toNat) * 256 + f.toNat)
      else none)
  | _ => none

/-- The part of the SETTINGS frame at the offset `off` that is read. Its end is kept in 16 bits. -/
def settingsPayload (data : Bytes) (off : Nat) (p : Option Nat) : Bytes :=
  (dropNullPrefix p (located data (http2FrameHdrLen + off)
    ((http2FrameHdrLen + hdrLen data off) % 2 ^ 16 + off))).map Prod.fst

/-- The size of the dynamic table that the frame at the offset `off` announces, where it is a
SETTINGS frame without flags that arrived whole and ends where it can be read. -/
def announcedTableSize (data : Bytes) (off : Nat) (p : Option Nat) : Option Nat :=
  let frameLen := http2FrameHdrLen + hdrLen data off
  if hdrType data off = http2SettingsFrame ∧ hdrFlags data off = 0 ∧
      off + frameLen ≤ data.length ∧ off + frameLen % 2 ^ 16 ≤ maxBytes then
    lastTableSize (settingsPayload data off p)
  else none

/-- The size a call announces, if it gets to read one. -/
def msgTableSize (msg : SkMsg) : Option Nat :=
  if http2FrameHdrLen ≤ msg.linear ∧ msg.pullable then announcedTableSize msg.bytes 0 none
  else none

def skbTableSize (skb : SkBuff) (off : Nat) (p : Option Nat) : Option Nat :=
  if skb.pullable then announcedTableSize skb.bytes off p else none

theorem stgByte_parameter (a b c d e f : UInt8) (m : Nat) :
    [a, b, c, d, e, f].foldl stgByte ⟨0, 0, 0, m⟩ =
      ⟨0, 0, 0, if a.toNat * 256 + b.toNat = settingsHeaderTableSize then
        ((c.toNat * 256 + d.toNat) * 256 + e.toNat) * 256 + f.toNat else m⟩ := by
  have ha := a.toNat_lt
  have hb := b.toNat_lt
  have hc := c.toNat_lt
  have hd := d.toNat_lt
  have he := e.toNat_lt
  have hf := f.toNat_lt
  have hid : (a.toNat * 256 + b.toNat) % 65536 = a.toNat * 256 + b.toNat := by omega
  have hval : u32 (u32 (u32 (u32 c.toNat * 256 + d.toNat) * 256 + e.toNat) * 256 + f.toNat) =
      ((c.toNat * 256 + d.toNat) * 256 + e.toNat) * 256 + f.toNat := by
    rw [u32_of_lt (n := c.toNat) (by omega), u32_of_lt (n := c.toNat * 256 + d.toNat) (by omega),
      u32_of_lt (n := (c.toNat * 256 + d.toNat) * 256 + e.toNat) (by omega), u32_of_lt (by omega)]
  simp [stgByte, hid, hval]

/-- Bytes that make up no whole parameter change nothing yet. -/
theorem stgByte_short {bs : Bytes} (h : bs.length < 6) (m : Nat) :
    (bs.foldl stgByte ⟨0, 0, 0, m⟩).maxSize = m := by
  have hgen : ∀ (bs : Bytes) (st : StgState), st.j + bs.length < 6 →
      (bs.foldl stgByte st).maxSize = st.maxSize := by
    intro bs
    induction bs with
    | nil => exact fun st _ => rfl
    | cons b bs ih =>
      intro st hst
      simp only [List.length_cons] at hst
      have hj : stgByte st b = ⟨st.j + 1, _, _, st.maxSize⟩ := if_neg (by omega)
      rw [List.foldl_cons, ih _ (by rw [hj]; simp only; omega), hj]
  exact hgen bs ⟨0, 0, 0, m⟩ (by simpa using h)

theorem stgByte_fold (bs : Bytes) (m : Nat) :
    (bs.foldl stgByte ⟨0, 0, 0, m⟩).maxSize = (lastTableSize bs).getD m := by
  induction bs using lastTableSize.induct generalizing m with
  | case1 a b c d e f rest ih =>
    change ((([a, b, c, d, e, f] ++ rest).foldl stgByte ⟨0, 0, 0, m⟩).maxSize = _)
    rw [List.foldl_append, stgByte_parameter, ih, lastTableSize]
    cases lastTableSize rest with
    | some v => rfl
    | none => split <;> rfl
  | case2 bs hbs =>
    have hlen : bs.length < 6 := by
      by_contra hge
      match bs, hbs, hge with
      | a :: b :: c :: d :: e :: f :: rest, hbs, _ => exact hbs a b c d e f rest rfl
      | [], _, hge | [_], _, hge | [_, _], _, hge | [_, _, _], _, hge | [_, _, _, _], _, hge
      | [_, _, _, _, _], _, hge => simp at hge
    rw [stgByte_short hlen]
    unfold lastTableSize
    split
    next => simp at hlen; omega
    next => rfl

end Beeper.Http2
