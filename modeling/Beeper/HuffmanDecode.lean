import Beeper.DynamicTable
import Beeper.Huffman

namespace Beeper.Http2

open Huffman (bits byteOf codeBits codes encode pack)

variable {bs : List Bool} {x : Nat × Nat} {m : Nat}

/-- The first `l` bits of the code `x` are taken for a code of that length. -/
def endsAt (x : Nat × Nat) (l : Nat) : Bool :=
  decide (u32Sub (x.2 >>> (x.1 - l)) (huffFirstCode.getD l 0) < huffCount.getD l 0)

/-- Every code is found at its end, and nowhere before that. -/
theorem codes_endAt : ∀ x ∈ codes, x.1 ≤ hpackHuffMaxlen ∧ x.2 < 2 ^ x.1 ∧
    (∀ l < x.1, endsAt x l = false) ∧ endsAt x x.1 = true := by
  decide +kernel

theorem shiftRight_testBit (v k : Nat) : v >>> k = 2 * (v >>> (k + 1)) + (v.testBit k).toNat := by
  rw [Nat.toNat_testBit, Nat.shiftRight_eq_div_pow, Nat.shiftRight_eq_div_pow, Nat.pow_succ,
    ← Nat.div_div_eq_div_mul]
  omega

/-- One more bit of a code. -/
theorem huffStep_code (hx : x ∈ codes) (n : Nat) (hm : m < x.1) :
    huffStep ⟨x.2 >>> (x.1 - m), m, n⟩ (x.2.testBit (x.1 - 1 - m)) =
      if endsAt x (m + 1) then ⟨0, 0, n + 1⟩ else ⟨x.2 >>> (x.1 - (m + 1)), m + 1, n⟩ := by
  obtain ⟨hlen, hlt, -⟩ := codes_endAt x hx
  have hshift := shiftRight_testBit x.2 (x.1 - (m + 1))
  have hback : x.1 - (m + 1) + 1 = x.1 - m := by omega
  have hbit : x.1 - 1 - m = x.1 - (m + 1) := by omega
  rw [hback] at hshift
  have hpow : 2 ^ x.1 ≤ 2 ^ hpackHuffMaxlen := Nat.pow_le_pow_right (by decide) hlen
  have hle : x.2 >>> (x.1 - (m + 1)) ≤ x.2 := Nat.shiftRight_le _ _
  have hu : u32 (x.2 >>> (x.1 - (m + 1))) = x.2 >>> (x.1 - (m + 1)) := by
    apply u32_of_lt
    have hmax : 2 ^ hpackHuffMaxlen ≤ 2 ^ 32 := by decide
    omega
  unfold huffStep endsAt
  simp only [hbit]
  rw [← hshift, hu, if_neg (by omega)]
  simp only [decide_eq_true_eq]

/-- A code that has not ended yet is not counted. -/
theorem huffSteps_part (hx : x ∈ codes) (n : Nat) (hm : m < x.1) :
    ((codeBits x).take m).foldl huffStep ⟨0, 0, n⟩ = ⟨x.2 >>> (x.1 - m), m, n⟩ := by
  obtain ⟨-, hlt, hnone, -⟩ := codes_endAt x hx
  induction m with
  | zero =>
    rw [Nat.sub_zero, Nat.shiftRight_eq_div_pow, Nat.div_eq_of_lt hlt]
    rfl
  | succ m ih =>
    rw [Huffman.codeBits_take (by omega), List.foldl_append, ih (by omega), List.foldl_cons,
      List.foldl_nil, huffStep_code hx n (by omega), hnone _ hm]
    rfl

/-- The bits of a code are counted as one symbol, with nothing left over. -/
theorem huffSteps_code (hx : x ∈ codes) (n : Nat) :
    (codeBits x).foldl huffStep ⟨0, 0, n⟩ = ⟨0, 0, n + 1⟩ := by
  obtain ⟨-, hlt, -, hend⟩ := codes_endAt x hx
  have hpos : 0 < x.1 := by
    by_contra hz
    have hzero : x = (0, 0) := by
      have hlen : x.1 = 0 := by omega
      rw [hlen] at hlt
      exact Prod.ext hlen (by simpa using hlt)
    rw [hzero] at hend
    exact absurd hend (by decide)
  obtain ⟨m, hm⟩ := Nat.exists_eq_add_of_lt hpos
  have hall := Huffman.codeBits_take (x := x) (m := m) (by omega)
  rw [List.take_of_length_le (by rw [Huffman.codeBits_length]; omega)] at hall
  rw [hall, List.foldl_append, huffSteps_part hx n (by omega), List.foldl_cons, List.foldl_nil,
    huffStep_code hx n (by omega), show m + 1 = x.1 by omega, hend]
  rfl

theorem huffStep_add (st : HuffState) (n : Nat) (b : Bool) :
    huffStep ⟨st.code, st.len, st.n + n⟩ b =
      ⟨(huffStep st b).code, (huffStep st b).len, (huffStep st b).n + n⟩ := by
  unfold huffStep
  simp only
  split
  · rfl
  · split
    · simp only [Nat.add_right_comm]
    · rfl

/-- The symbols counted before have no part in what is counted next. -/
theorem huffSteps_add (bs : List Bool) (st : HuffState) (n : Nat) :
    bs.foldl huffStep ⟨st.code, st.len, st.n + n⟩ =
      ⟨(bs.foldl huffStep st).code, (bs.foldl huffStep st).len, (bs.foldl huffStep st).n + n⟩ := by
  induction bs generalizing st with
  | nil => rfl
  | cons b bs ih =>
    rw [List.foldl_cons, List.foldl_cons, huffStep_add]
    exact ih (huffStep st b)

/-- The padding of the last byte is no code. -/
theorem huffSteps_padding {k : Nat} (hk : k < 8) (n : Nat) :
    ((List.replicate k true).foldl huffStep ⟨0, 0, n⟩).n = n := by
  have hnone : ∀ k < 8, ((List.replicate k true).foldl huffStep ⟨0, 0, 0⟩).n = 0 := by
    decide +kernel
  have hadd := huffSteps_add (List.replicate k true) ⟨0, 0, 0⟩ n
  simp only [Nat.zero_add] at hadd
  rw [hadd]
  simp only [hnone k hk, Nat.zero_add]

/-- The code of a byte. -/
def codeOf (c : UInt8) : Nat × Nat := codes.getD c.toNat (0, 0)

theorem codeOf_mem (c : UInt8) : codeOf c ∈ codes := by
  have hcount : codes.length = 256 := by decide +kernel
  have hlt : c.toNat < codes.length := hcount ▸ c.toNat_lt
  unfold codeOf
  rw [List.getD_eq_getElem?_getD, List.getElem?_eq_getElem hlt, Option.getD_some]
  exact List.getElem_mem hlt

theorem bits_cons (c : UInt8) (s : Bytes) : bits (c :: s) = codeBits (codeOf c) ++ bits s :=
  List.flatMap_cons

/-- The number of symbols of `s` whose codes end within the first `m` bits. -/
def symbolsWithin : Bytes → Nat → Nat
  | [], _ => 0
  | c :: s, m => if (codeOf c).1 ≤ m then symbolsWithin s (m - (codeOf c).1) + 1 else 0

theorem symbolsWithin_all {s : Bytes} (h : (bits s).length ≤ m) : symbolsWithin s m = s.length := by
  induction s generalizing m with
  | nil => rfl
  | cons c s ih =>
    rw [bits_cons, List.length_append, Huffman.codeBits_length] at h
    rw [symbolsWithin, if_pos (by omega), ih (by omega), List.length_cons]

/-- After any number of bits, exactly the symbols are counted whose codes have ended. -/
theorem huffSteps_within {k : Nat} (hk : k < 8) (s : Bytes) (n m : Nat) :
    (((bits s ++ List.replicate k true).take m).foldl huffStep ⟨0, 0, n⟩).n =
      n + symbolsWithin s m := by
  induction s generalizing n m with
  | nil =>
    have hnil : bits [] = [] := rfl
    rw [hnil, List.nil_append, List.take_replicate, symbolsWithin, Nat.add_zero]
    exact huffSteps_padding (by omega) n
  | cons c s ih =>
    have hlen := Huffman.codeBits_length (codeOf c)
    rw [bits_cons, List.append_assoc, symbolsWithin]
    by_cases hm : (codeOf c).1 ≤ m
    · rw [if_pos hm, List.take_append, List.take_of_length_le (by omega), List.foldl_append,
        huffSteps_code (codeOf_mem c), ih, hlen]
      omega
    · rw [if_neg hm, List.take_append_of_le_length (by omega),
        huffSteps_part (codeOf_mem c) n (by omega)]
      rfl

theorem byteBits_byteOf (h : bs.length = 8) : byteBits (byteOf bs) = bs := by
  have hall : ∀ a b c d e f g h : Bool,
      byteBits (byteOf [a, b, c, d, e, f, g, h]) = [a, b, c, d, e, f, g, h] := by
    decide +kernel
  match bs, h with
  | [a, b, c, d, e, f, g, h], _ => exact hall a b c d e f g h

/-- The bits of packed bytes are those that were packed, and ones up to the end of a byte. -/
theorem pack_bits (bs : List Bool) :
    ∃ k < 8, (pack bs).flatMap byteBits = bs ++ List.replicate k true := by
  induction h : bs.length using Nat.strong_induction_on generalizing bs with
  | _ len ih =>
    by_cases hne : bs = []
    · subst hne
      exact ⟨0, by decide, rfl⟩
    have hpos := List.length_pos_iff.mpr hne
    have hbyte : ((bs ++ List.replicate 7 true).take 8).length = 8 := by
      rw [List.length_take, List.length_append, List.length_replicate]
      omega
    rw [Huffman.pack_cons hne, List.flatMap_cons, byteBits_byteOf hbyte]
    by_cases hlong : 8 ≤ bs.length
    · obtain ⟨k, hk, hrest⟩ := ih (bs.drop 8).length (by rw [List.length_drop]; omega) _ rfl
      refine ⟨k, hk, ?_⟩
      rw [hrest, List.take_append_of_le_length hlong, ← List.append_assoc, List.take_append_drop]
    · have hdrop : bs.drop 8 = [] := List.drop_eq_nil_of_le (by omega)
      refine ⟨8 - bs.length, by omega, ?_⟩
      rw [hdrop, List.take_append, List.take_of_length_le (by omega), List.take_replicate,
        Nat.min_eq_left (by omega)]
      exact List.append_nil _

/-- The symbols of a string are counted, each where its code ends. -/
theorem decodedLen_encode {hf : Http2HdrField} {isVal : Bool} {s : Bytes}
    (hsrc : encode s <+: if isVal then hf.val else hf.key)
    (hlen : (encode s).length ≤ headerFieldMaxlen) :
    hpackHuffmanDecodedLen hf isVal (encode s).length = s.length ∧
      ∀ m, ((((encode s).flatMap byteBits).take m).foldl huffStep ⟨0, 0, 0⟩).n =
        symbolsWithin s m := by
  obtain ⟨k, hk, hpad⟩ := pack_bits (bits s)
  have hwithin : ∀ m, ((((encode s).flatMap byteBits).take m).foldl huffStep ⟨0, 0, 0⟩).n =
      symbolsWithin s m := by
    intro m
    unfold encode
    rw [hpad, huffSteps_within hk, Nat.zero_add]
  refine ⟨?_, hwithin⟩
  have htake : List.take (min (encode s).length headerFieldMaxlen)
      (if isVal then hf.val else hf.key) = encode s := by
    rw [Nat.min_eq_left hlen]
    exact (List.prefix_iff_eq_take.mp hsrc).symm
  have hall := hwithin ((encode s).flatMap byteBits).length
  rw [List.take_length] at hall
  unfold hpackHuffmanDecodedLen
  simp only
  rw [htake, hall]
  apply symbolsWithin_all
  unfold encode
  rw [hpad, List.length_append]
  omega

/-- The name `te` in its coded form, in which the code of the second letter crosses a byte. -/
theorem decodedLen_encodeTe :
    hpackHuffmanDecodedLen (keptField ([0x49, 0x7f], true) ([], false)) false 2 = 2 := by
  have hcode : encode [0x74, 0x65] = [0x49, 0x7f] := by decide +kernel
  have hkept : encode [0x74, 0x65] <+:
      if false then (keptField ([0x49, 0x7f], true) ([], false)).val
        else (keptField ([0x49, 0x7f], true) ([], false)).key := by
    rw [hcode]
    exact List.prefix_refl _
  have hlen := (decodedLen_encode hkept (by rw [hcode]; decide)).1
  rw [hcode] at hlen
  exact hlen

end Beeper.Http2
