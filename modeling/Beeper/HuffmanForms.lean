import Beeper.HuffmanDecode
import Beeper.NameTries
import Beeper.TableWalk

namespace Beeper.Http2

open Huffman (bits codeBits codes encode pack)

/-- The place of a code among all of them, the shorter ones first. -/
def codeRank (x : Nat × Nat) : Nat :=
  (huffCount.take x.1).sum + u32Sub x.2 (huffFirstCode.getD x.1 0)

theorem codes_nodup : codes.Nodup := by
  have hbits : distinctBits (codes.map codeRank) 0 = true := by decide +kernel
  exact (distinctBits_nodup hbits).1.of_map _

theorem codeOf_inj {c d : UInt8} (h : codeOf c = codeOf d) : c = d := by
  have hcount : codes.length = 256 := by decide +kernel
  have hc : c.toNat < codes.length := hcount ▸ c.toNat_lt
  have hd : d.toNat < codes.length := hcount ▸ d.toNat_lt
  unfold codeOf at h
  rw [List.getD_eq_getElem?_getD, List.getD_eq_getElem?_getD, List.getElem?_eq_getElem hc,
    List.getElem?_eq_getElem hd, Option.getD_some, Option.getD_some] at h
  exact UInt8.toNat_inj.mp ((codes_nodup.getElem_inj_iff).mp h)

/-- The bits of a code tell the code from all others of its length. -/
theorem codeBits_inj {x y : Nat × Nat} (hx : x ∈ codes) (hy : y ∈ codes)
    (h : codeBits x = codeBits y) : x = y := by
  obtain ⟨-, hltx, -⟩ := codes_endAt x hx
  obtain ⟨-, hlty, -⟩ := codes_endAt y hy
  have hlen : x.1 = y.1 := by rw [← Huffman.codeBits_length x, h, Huffman.codeBits_length]
  refine Prod.ext hlen (Nat.eq_of_testBit_eq fun i => ?_)
  by_cases hi : i < x.1
  · have hbit := congrArg (·[x.1 - 1 - i]?) h
    have hi' : x.1 - 1 - i < x.1 := by omega
    have hback : x.1 - 1 - (x.1 - 1 - i) = i := by omega
    simp only [codeBits, List.getElem?_map, ← hlen, List.getElem?_range hi', Option.map_some,
      hback] at hbit
    exact Option.some.inj hbit
  · have hpow : 2 ^ x.1 ≤ 2 ^ i := Nat.pow_le_pow_right (by decide) (by omega)
    rw [Nat.testBit_lt_two_pow (by omega), Nat.testBit_lt_two_pow (by rw [← hlen] at hlty; omega)]

/-- No code is the start of another one. -/
theorem codeBits_split {x y : Nat × Nat} (hx : x ∈ codes) (hy : y ∈ codes) {as bs : List Bool}
    (h : codeBits x ++ as = codeBits y ++ bs) : x.1 ≤ y.1 → x = y ∧ as = bs := by
  intro hle
  have hlenx := Huffman.codeBits_length x
  have hleny := Huffman.codeBits_length y
  have hfront : codeBits x = (codeBits y).take x.1 := by
    have htake := congrArg (List.take x.1) h
    rwa [List.take_left' hlenx, List.take_append_of_le_length (by omega)] at htake
  by_cases hlt : x.1 < y.1
  · have hpart := huffSteps_part hy 0 hlt
    rw [← hfront, huffSteps_code hx] at hpart
    exact absurd (congrArg HuffState.n hpart) (Nat.succ_ne_zero 0)
  · rw [show x.1 = y.1 by omega, List.take_of_length_le (by omega)] at hfront
    rw [hfront] at h
    exact ⟨codeBits_inj hx hy hfront, List.append_cancel_left h⟩

theorem bits_length_eq {s s' : Bytes} {k k' : Nat} (hk : k < 8) (hk' : k' < 8)
    (h : bits s ++ List.replicate k true = bits s' ++ List.replicate k' true) :
    s.length = s'.length := by
  have hcount : ∀ {s : Bytes} {k : Nat}, k < 8 →
      ((bits s ++ List.replicate k true).foldl huffStep ⟨0, 0, 0⟩).n = s.length := by
    intro s k hk
    have hall := huffSteps_within hk s 0 (bits s ++ List.replicate k true).length
    rw [List.take_length, Nat.zero_add, symbolsWithin_all] at hall
    · exact hall
    · rw [List.length_append]
      omega
  rw [← hcount hk, h, hcount hk']

/-- The bits of a string can be told from those of any other one, padding or not. -/
theorem bits_inj {s s' : Bytes} {k k' : Nat} (hk : k < 8) (hk' : k' < 8)
    (h : bits s ++ List.replicate k true = bits s' ++ List.replicate k' true) : s = s' := by
  have hlen := bits_length_eq hk hk' h
  induction s generalizing s' with
  | nil => exact (List.length_eq_zero_iff.mp hlen.symm).symm
  | cons c s ih =>
    obtain ⟨d, s', rfl⟩ := List.exists_cons_of_length_eq_add_one hlen.symm
    rw [bits_cons, bits_cons, List.append_assoc, List.append_assoc] at h
    have hboth : codeOf c = codeOf d ∧
        bits s ++ List.replicate k true = bits s' ++ List.replicate k' true := by
      rcases Nat.le_total (codeOf c).1 (codeOf d).1 with hle | hle
      · exact codeBits_split (codeOf_mem c) (codeOf_mem d) h hle
      · obtain ⟨hc, hrest⟩ := codeBits_split (codeOf_mem d) (codeOf_mem c) h.symm hle
        exact ⟨hc.symm, hrest.symm⟩
    rw [codeOf_inj hboth.1, ih hboth.2 (Nat.succ.inj hlen)]

theorem encode_inj {s s' : Bytes} (h : encode s = encode s') : s = s' := by
  obtain ⟨k, hk, hbits⟩ := pack_bits (bits s)
  obtain ⟨k', hk', hbits'⟩ := pack_bits (bits s')
  refine bits_inj hk hk' ?_
  rw [← hbits, ← hbits']
  exact congrArg (List.flatMap byteBits) h

/-- The bytes a string is sent as, Huffman coded or not. -/
def wireForm (huff : Bool) (s : Bytes) : Bytes := if huff then encode s else s

theorem wireForm_inj {huff : Bool} {s s' : Bytes} (h : wireForm huff s = wireForm huff s') :
    s = s' := by
  cases huff with
  | false => exact h
  | true => exact encode_inj h

theorem wireForm_eq_nil {huff : Bool} {s : Bytes} : wireForm huff s = [] ↔ s = [] := by
  have hnil : wireForm huff [] = [] := by cases huff <;> rfl
  constructor
  · intro h
    exact wireForm_inj (h.trans hnil.symm)
  · rintro rfl
    exact hnil

/-- The Huffman code of RFC 7541, as the encoder of names. -/
abbrev huffmanCode : Bytes → Option Bytes := fun s => some (encode s)

variable {rd : Rodata} {captures : List (Bytes × MatchId)} {m : MatchId}

/-- A name is matched in either form exactly if it is captured. -/
theorem Attached.matchHeaderKey_wire (h : Attached huffmanCode captures rd) (huff : Bool)
    (name : Bytes) : matchHeaderKey rd (wireForm huff name) huff = some m ↔
      name ≠ [] ∧ (name, m) ∈ captures := by
  rw [h.matchHeaderKey_iff, ne_eq, wireForm_eq_nil]
  refine and_congr_right fun _ => ?_
  have hform : ∀ s, nameForm huffmanCode huff s = some (wireForm huff s) := by
    intro s
    cases huff <;> rfl
  constructor
  · rintro ⟨s, hs, he⟩
    rw [hform] at he
    rwa [← wireForm_inj (Option.some.inj he)]
  · intro hm
    exact ⟨name, hm, hform name⟩

/-- Every captured name has a match id of its own. -/
theorem Attached.name_inj {encode : Bytes → Option Bytes} (h : Attached encode captures rd)
    {name name' : Bytes} (hm : (name, m) ∈ captures) (hm' : (name', m) ∈ captures) :
    name = name' := by
  obtain ⟨p, order, hc, rfl, -⟩ := h
  exact (hc.namesOk.name_inj _ hm _ hm').mpr rfl

theorem Attached.match_lt {encode : Bytes → Option Bytes} (h : Attached encode captures rd)
    {name : Bytes} (hm : (name, m) ∈ captures) : m < maxMatches := by
  obtain ⟨p, order, hc, rfl, -⟩ := h
  exact Nat.lt_of_lt_of_le (hc.namesOk.lt _ hm) hc.namesOk.limit

/-- The number of bytes a kept string was before it was coded. -/
theorem decodedLen_wire {hf : Http2HdrField} {isVal : Bool} {s : Bytes}
    (hsrc : (if isVal then hf.val else hf.key) = encode s)
    (hlen : (encode s).length ≤ headerFieldMaxlen) :
    hpackHuffmanDecodedLen hf isVal (encode s).length = s.length := by
  obtain ⟨k, hk, hpad⟩ := pack_bits (bits s)
  unfold hpackHuffmanDecodedLen
  simp only
  rw [hsrc, Nat.min_eq_left hlen, List.take_length]
  unfold encode
  have hall := huffSteps_within hk s 0 (bits s ++ List.replicate k true).length
  rw [List.take_length, symbolsWithin_all, Nat.zero_add] at hall
  · rw [hpad]
    exact hall
  · rw [List.length_append]
    omega

end Beeper.Http2
