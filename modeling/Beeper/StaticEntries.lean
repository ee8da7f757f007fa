import Beeper.HuffmanForms
import Beeper.StaticFields

namespace Beeper.Http2

open HeaderDecoder (staticFields)
open Huffman (encode)

/-- A string of a header: its text, and whether it is sent Huffman coded. -/
structure Coded where
  text : Bytes
  huff : Bool
deriving DecidableEq

instance : Measured Coded := ⟨fun s => s.text.length⟩

/-- The bytes it is sent as. -/
def Coded.wire (s : Coded) : Bytes := wireForm s.huff s.text

/-- The string literal it is sent in. -/
def Coded.str (s : Coded) : Str := ⟨s.huff, s.wire⟩

/-- The fields of the static table, the way the parser keeps them. -/
def codedFields : List (HeaderField Coded) :=
  staticFields.map fun f => ⟨⟨f.name, true⟩, ⟨f.value, true⟩⟩

theorem codedFields_length : codedFields.length = staticTableSize := by
  rw [codedFields, List.length_map, HeaderDecoder.staticFields_length]
  rfl

variable {code : Bytes → Option Bytes} {headers : List (Nat × Bytes × Option Bytes)}
  {table : Fin (staticTableSize + 1) → Http2HdrField} {rd : Rodata}
  {captures : List (Bytes × MatchId)} {n : Nat}

/-- Each index holds the field that comes with it. -/
theorem populateStaticTable_find (h : populateStaticTable code headers = .ok table)
    {i : Fin (staticTableSize + 1)} {idx : Nat} {key : Bytes} {val : Option Bytes}
    (hf : headers.find? (fun x => x.1 == i.val) = some (idx, key, val)) :
    staticField code key val = .ok (table i) := by
  induction headers generalizing table with
  | nil => cases hf
  | cons x headers ih =>
    obtain ⟨idx', key', val'⟩ := x
    simp only [populateStaticTable, bind, Except.bind] at h
    split at h
    · cases h
    next rest hrest =>
    split at h
    · cases h
    next field hfield =>
    cases h
    by_cases hi : i.val = idx'
    · rw [List.find?_cons_of_pos (by simp [hi])] at hf
      cases hf
      simp only [if_pos hi, hfield]
    · rw [List.find?_cons_of_neg (by simpa using Ne.symm hi)] at hf
      simp only [if_neg hi]
      exact ih hrest hf

/-- The fields of the table that is written out, and the room their codes take. -/
theorem staticHeaders_find : ∀ x ∈ staticFields.zipIdx 1,
    staticHeaders.find? (fun y => y.1 == x.2) =
      some (x.2, x.1.name, if x.1.value = [] then none else some x.1.value) ∧
    (encode x.1.name).length ≤ headerFieldMaxlen ∧ (encode x.1.value).length ≤ headerFieldMaxlen := by
  decide +kernel

/-- An entry keeps a field of RFC 7541 as a whole. -/
structure Holding (hf : Http2HdrField) (f : HeaderField Coded) : Prop where
  key : hf.key = f.name.wire
  keyHuff : hf.keyHuff = f.name.huff
  val : hf.val = f.value.wire
  valHuff : hf.valHuff = f.value.huff

/-- An entry of the static table is a field of RFC 7541, Huffman coded. -/
theorem Attached.lookupStatic (h : Attached huffmanCode captures rd) (hpos : 0 < n)
    (hn : n ≤ staticTableSize) : ∃ f hf, codedFields[n - 1]? = some f ∧
      rd.lookupStatic n = some hf ∧ Holding hf f := by
  obtain ⟨p, order, -, -, -, hat⟩ := h
  obtain ⟨inj, -, -, -, htable⟩ := attach_ok hat
  have hlen : n - 1 < staticFields.length := by
    rw [HeaderDecoder.staticFields_length]
    unfold staticTableSize at hn
    omega
  obtain ⟨f, hf⟩ : ∃ f, staticFields[n - 1]? = some f := ⟨_, List.getElem?_eq_getElem hlen⟩
  have hmem : (f, n) ∈ staticFields.zipIdx 1 :=
    List.mem_zipIdx_iff_le_and_getElem?_sub.mpr ⟨hpos, hf⟩
  obtain ⟨hfind, hkey, hval⟩ := staticHeaders_find _ hmem
  have hlt : n < staticTableSize + 1 := by omega
  have hfield := @populateStaticTable_find huffmanCode _ _ htable ⟨n, hlt⟩ _ _ _ hfind
  refine ⟨⟨⟨f.name, true⟩, ⟨f.value, true⟩⟩, rd.staticTable ⟨n, hlt⟩, ?_, ?_, ?_⟩
  · rw [codedFields, List.getElem?_map, hf]
    rfl
  · unfold Rodata.lookupStatic
    rw [dif_pos hlt]
  · generalize rd.staticTable ⟨n, hlt⟩ = hf' at hfield
    have hcoded : ((if f.value = [] then none else some f.value).map huffmanCode).getD (some []) =
        some (encode f.value) := by
      by_cases hnil : f.value = []
      · rw [if_pos hnil, hnil]
        rfl
      · rw [if_neg hnil]
        rfl
    unfold staticField at hfield
    rw [hcoded] at hfield
    cases hfield
    exact ⟨List.take_of_length_le hkey, rfl, List.take_of_length_le hval, rfl⟩

end Beeper.Http2
