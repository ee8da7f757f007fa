import Beeper.HpackTypes

namespace Beeper.Http2

/-- The length of the longest code of the HPACK Huffman code. -/
def hpackHuffMaxlen : Nat := 30

/-- The number of symbols per code length. -/
def huffCount : List Nat :=
  [0, 0, 0, 0, 0, 10, 26, 32, 6, 0, 5, 3, 2, 6, 2, 3,
   0, 0, 0, 3, 8, 13, 26, 29, 12, 4, 15, 19, 29, 0, 4, 0]

/-- The first code of each length. -/
def huffFirstCode : List Nat :=
  [0, 0, 0, 0, 0, 0, 20, 92, 248, 508, 1016, 2042, 4090, 8184, 16380, 32764,
   65534, 131068, 262136, 524272, 1048550, 2097116, 4194258, 8388568, 16777194,
   33554412, 67108832, 134217694, 268435426, 536870910, 1073741820, 0]

/-- The local variables of `hpack_huffman_decoded_len`: the bits read of the current code, how
many they are, and the symbols counted so far. -/
structure HuffState where
  code : Nat
  len : Nat
  n : Nat
deriving DecidableEq

/-- `HPACK_HUFF_STEP`, which consumes one bit. -/
def huffStep (st : HuffState) (bit : Bool) : HuffState :=
  let code := u32 (2 * st.code + bit.toNat)
  let len := st.len + 1
  if hpackHuffMaxlen < len then ⟨0, 0, st.n⟩
  else
    let rel := u32Sub code (huffFirstCode.getD len 0)
    if rel < huffCount.getD len 0 then ⟨0, 0, st.n + 1⟩ else ⟨code, len, st.n⟩

/-- The bits of a byte, the most significant one first. -/
def byteBits (c : UInt8) : List Bool :=
  [7, 6, 5, 4, 3, 2, 1, 0].map fun b => c.toNat.testBit b

/-- The number of characters the first `srcLen` bytes of the Huffman encoded key or value
decode to. -/
def hpackHuffmanDecodedLen (hf : Http2HdrField) (isVal : Bool) (srcLen : Nat) : Nat :=
  let src := if isVal then hf.val else hf.key
  (((src.take (min srcLen headerFieldMaxlen)).flatMap byteBits).foldl huffStep ⟨0, 0, 0⟩).n

end Beeper.Http2
