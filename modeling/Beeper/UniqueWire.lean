import Beeper.BlockStrings
import Beeper.HookReads

namespace Beeper.Http2

variable {bs bs' r r' : Bytes} {bits max n n' : Nat}

/-- No integer starts another one. -/
theorem ContWire.cancel (h : ContWire bs n) (h' : ContWire bs' n') (he : bs ++ r = bs' ++ r') :
    bs = bs' ∧ n = n' := by
  induction h generalizing bs' n' with
  | last c hc =>
    cases h' with
    | last d hd =>
      obtain ⟨rfl, -⟩ := List.cons.inj he
      exact ⟨rfl, rfl⟩
    | more d hd h' =>
      obtain ⟨rfl, -⟩ := List.cons.inj he
      exact absurd hd (Nat.not_le.mpr hc)
  | more c hc h ih =>
    cases h' with
    | last d hd =>
      obtain ⟨rfl, -⟩ := List.cons.inj he
      exact absurd hc (Nat.not_le.mpr hd)
    | more d hd h' =>
      obtain ⟨rfl, hrest⟩ := List.cons.inj he
      obtain ⟨rfl, rfl⟩ := ih h' hrest
      exact ⟨rfl, rfl⟩

theorem IntWire.cancel (h : IntWire bits max bs n) (h' : IntWire bits max bs' n')
    (he : bs ++ r = bs' ++ r') : bs = bs' ∧ n = n' := by
  cases h with
  | short c hv hc =>
    cases h' with
    | short d hv' hd =>
      obtain ⟨rfl, -⟩ := List.cons.inj he
      exact ⟨rfl, by omega⟩
    | long d hd h' =>
      obtain ⟨rfl, -⟩ := List.cons.inj he
      omega
  | long c hc h =>
    cases h' with
    | short d hv' hd =>
      obtain ⟨rfl, -⟩ := List.cons.inj he
      omega
    | long d hd h' =>
      obtain ⟨rfl, hrest⟩ := List.cons.inj he
      obtain ⟨rfl, rfl⟩ := h.cancel h' hrest
      exact ⟨rfl, rfl⟩

/-- The first byte of an integer. -/
theorem IntWire.head (h : IntWire bits max bs n) : ∃ c rest, bs = c :: rest ∧
    bits ≤ c.toNat ∧ c.toNat ≤ bits + max ∧ (0 < max → 0 < n → bits < c.toNat) := by
  cases h with
  | short c hv hc => exact ⟨c, [], rfl, by omega, by omega, fun _ _ => by omega⟩
  | long c hc h => exact ⟨c, _, rfl, by omega, by omega, fun _ _ => by omega⟩

/-- The length of a string tells whether it is coded. -/
theorem huff_cancel {huff huff' : Bool} (h : IntWire (huffBit huff) 0x7F bs n)
    (h' : IntWire (huffBit huff') 0x7F bs' n') (he : bs ++ r = bs' ++ r') : huff = huff' := by
  obtain ⟨c, rest, rfl, hlo, hhi, -⟩ := h.head
  obtain ⟨d, rest', rfl, hlo', hhi', -⟩ := h'.head
  obtain ⟨rfl, -⟩ := List.cons.inj he
  cases huff <;> cases huff' <;> simp only [huffBit, if_true, Bool.false_eq_true, if_false] at * <;>
    omega

section Openings

variable {mode mode' : Indexing} {name name' : Name} {opening opening' : Bytes}

theorem Indexing.pos (mode : Indexing) : 0 < mode.max := by
  cases mode <;> decide

/-- The first byte of a literal field tells what is done with it, and an index from a name. -/
theorem Opens.head (h : Opens mode name n opening) : ∃ c rest, opening = c :: rest ∧
    mode.bits ≤ c.toNat ∧ c.toNat ≤ mode.bits + mode.max := by
  cases h with
  | idx hi hint =>
    obtain ⟨c, rest, rfl, hlo, hhi, -⟩ := hint.head
    exact ⟨c, rest, rfl, hlo, hhi⟩
  | lit c hc hint hlen => exact ⟨c, _, rfl, Nat.le_of_eq hc.symm, by omega⟩

theorem Opens.mode_cancel (h : Opens mode name n opening) (h' : Opens mode' name' n' opening')
    (he : opening ++ r = opening' ++ r') : mode = mode' := by
  obtain ⟨c, rest, rfl, hlo, hhi⟩ := h.head
  obtain ⟨d, rest', rfl, hlo', hhi'⟩ := h'.head
  obtain ⟨rfl, -⟩ := List.cons.inj he
  cases mode <;> cases mode' <;> simp only [Indexing.bits, Indexing.max] at * <;> omega

theorem Opens.cancel (h : Opens mode name n opening) (h' : Opens mode' name' n' opening')
    (he : opening ++ r = opening' ++ r') : opening = opening' ∧ n = n' ∧ name.size = name'.size := by
  obtain rfl := h.mode_cancel h' he
  cases h with
  | idx hi hint =>
    cases h' with
    | idx hi' hint' => exact ⟨(hint.cancel hint' he).1, rfl, rfl⟩
    | lit d hd hint' hlen' =>
      obtain ⟨c, rest, rfl, -, -, hpos⟩ := hint.head
      obtain ⟨rfl, -⟩ := List.cons.inj he
      exact absurd hd (Nat.ne_of_gt (hpos mode.pos hi))
  | lit c hc hint hlen =>
    cases h' with
    | idx hi' hint' =>
      obtain ⟨d, rest, rfl, -, -, hpos⟩ := hint'.head
      obtain ⟨rfl, -⟩ := List.cons.inj he
      exact absurd hc (Nat.ne_of_gt (hpos mode.pos hi'))
    | @lit d hd s' int' n' hint' hlen' =>
      simp only [List.cons_append, List.append_assoc] at he
      obtain ⟨rfl, hrest⟩ := List.cons.inj he
      rw [huff_cancel hint hint' hrest] at hint
      obtain ⟨rfl, rfl⟩ := hint.cancel hint' hrest
      have hraw := List.append_inj (List.append_cancel_left hrest) (hlen.symm.trans hlen')
      exact ⟨by rw [hraw.1], rfl, congrArg List.length hraw.1⟩

end Openings

section Blocks

variable {rep rep' : Rep} {reps reps' : List Rep} {mode : Indexing} {name : Name} {value : Str}
  {opening int back block front : Bytes} {huff : Bool} {m : Nat}

/-- Only a literal field starts as one. -/
theorem Opens.not_int (h : Opens mode name n opening) (hbits : IntWire bits max bs m)
    (hout : bits + max < mode.bits ∨ mode.bits + mode.max < bits)
    (he : bs ++ r = opening ++ r') : False := by
  obtain ⟨c, rest, rfl, hlo, hhi⟩ := h.head
  obtain ⟨d, rest', rfl, hlo', hhi', -⟩ := hbits.head
  obtain ⟨rfl, -⟩ := List.cons.inj he
  omega

theorem Opens.not_indexed (h : Opens mode name n opening) (hi : IntWire 0x80 0x7F bs m)
    (he : bs ++ r = opening ++ r') : False :=
  h.not_int hi (.inr (by cases mode <;> decide)) he

theorem Opens.not_tableSize (h : Opens mode name n opening) (hi : IntWire 0x20 0x1F bs m)
    (he : bs ++ r = opening ++ r') : False := by
  cases mode with
  | incremental => exact h.not_int hi (.inl (by decide)) he
  | without => exact h.not_int hi (.inr (by decide)) he
  | never => exact h.not_int hi (.inr (by decide)) he

/-- No representation starts another one. -/
theorem RepWire.cancel (h : RepWire readLen rep bs) (h' : RepWire readLen rep' bs')
    (he : bs ++ r = bs' ++ r') : bs = bs' := by
  cases rep with
  | indexed i =>
    cases h with
    | indexed hi hint =>
    cases rep' with
    | indexed i' =>
      cases h' with
      | indexed hi' hint' => exact (hint.cancel hint' he).1
    | literal mode name value =>
      obtain ⟨nameLength, opening, int, n, hopens, -, -, rfl⟩ := h'.literal
      rw [List.append_assoc] at he
      exact (hopens.not_indexed hint he).elim
    | tableSize n' =>
      cases h' with
      | tableSize hint' =>
      obtain ⟨c, rest, rfl, hlo, -⟩ := hint.head
      obtain ⟨d, rest', rfl, -, hhi, -⟩ := hint'.head
      obtain ⟨rfl, -⟩ := List.cons.inj he
      omega
  | literal mode name value =>
    obtain ⟨nameLength, opening, int, n, hopens, hint, hlen, rfl⟩ := h.literal
    cases rep' with
    | indexed i' =>
      cases h' with
      | indexed hi' hint' =>
      rw [List.append_assoc] at he
      exact (hopens.not_indexed hint' he.symm).elim
    | literal mode' name' value' =>
      obtain ⟨nameLength', opening', int', n', hopens', hint', hlen', rfl⟩ := h'.literal
      simp only [List.append_assoc] at he
      obtain ⟨rfl, -, -⟩ := hopens.cancel hopens' he
      have hvalue := List.append_cancel_left he
      rw [huff_cancel hint hint' hvalue] at hint
      obtain ⟨rfl, rfl⟩ := hint.cancel hint' hvalue
      rw [(List.append_inj (List.append_cancel_left hvalue) (hlen.symm.trans hlen')).1]
    | tableSize n' =>
      cases h' with
      | tableSize hint' =>
      rw [List.append_assoc] at he
      exact (hopens.not_tableSize hint' he.symm).elim
  | tableSize n =>
    cases h with
    | tableSize hint =>
    cases rep' with
    | indexed i' =>
      cases h' with
      | indexed hi' hint' =>
      obtain ⟨c, rest, rfl, -, hhi, -⟩ := hint.head
      obtain ⟨d, rest', rfl, hlo, -⟩ := hint'.head
      obtain ⟨rfl, -⟩ := List.cons.inj he
      omega
    | literal mode name value =>
      obtain ⟨nameLength, opening, int, n, hopens, -, -, rfl⟩ := h'.literal
      rw [List.append_assoc] at he
      exact (hopens.not_tableSize hint he).elim
    | tableSize n' =>
      cases h' with
      | tableSize hint' => exact (hint.cancel hint' he).1

/-- The lengths of a short literal field are those of its strings. -/
theorem RepWire.lengths (h : RepWire id (.literal mode name value) bs) (hl : bs.length ≤ maxBytes) :
    ∃ opening int, Opens mode name name.size opening ∧
      IntWire (huffBit value.huff) 0x7F int value.raw.length ∧ bs = opening ++ (int ++ value.raw) := by
  cases h with
  | named hi hint hv =>
    cases hv with
    | mk hlen heq => exact ⟨_, _, .idx hi hint, heq ▸ hlen, rfl⟩
  | @new _ s _ _ _ c hc hn hv =>
    cases hn with
    | mk hname hneq =>
    cases hv with
    | mk hlen heq =>
    rw [id_eq] at hneq heq
    subst hneq heq
    refine ⟨_, _, .lit c hc hname (Nat.mod_eq_of_lt ?_), hlen, by
      simp only [List.cons_append, List.append_assoc]⟩
    unfold maxBytes at hl
    simp only [List.length_cons, List.length_append] at hl
    show s.raw.length < 2 ^ 15
    omega

/-- What follows the first representations of a block are its others. -/
theorem BlockWire.cut (h : BlockWire id reps (front ++ back)) (hl : (front ++ back).length ≤ maxBytes)
    (hf : BlockWire readLen reps' front) : ∃ reps'', BlockWire id reps'' back := by
  induction hf generalizing reps with
  | nil => exact ⟨reps, h⟩
  | @cons rep reps' bs rest hr _ ih =>
    generalize hb : bs ++ rest ++ back = block at h
    cases h with
    | nil => exact absurd hb (by simp [hr.ne_nil])
    | @cons rep' reps bs' rest' hr' hrest' =>
      rw [List.append_assoc] at hb hl
      rw [hb] at hl
      rw [List.length_append] at hl
      have hread : RepWire readLen rep' bs' := hr'.congr fun n hn => Nat.mod_eq_of_lt (by
        unfold maxBytes at hl
        rw [id_eq] at hn
        omega)
      obtain rfl := hr.cancel hread hb
      obtain rfl := List.append_cancel_left hb
      exact ih hrest' (by omega)

/-- No string of a short well-formed block is announced to be longer than what is left of it. -/
theorem BlockWire.inside (h : BlockWire id reps block) (hl : block.length ≤ maxBytes)
    (f : ValueAt block) : f.Inside 0 := by
  have hsplit := f.split
  rw [hsplit] at h hl
  obtain ⟨reps', hback⟩ := h.cut hl f.fields
  rw [List.length_append] at hl
  generalize hb : f.opening ++ (f.int ++ f.back) = bs at hback
  rw [hb] at hl
  cases hback with
  | nil =>
    have hnil := (List.append_eq_nil_iff.mp (List.append_eq_nil_iff.mp hb).2).1
    exact absurd hnil f.wire.ne_nil
  | @cons rep reps bs rest hr _ =>
    rw [List.length_append] at hl
    cases rep with
    | indexed i =>
      cases hr with
      | indexed hi hint => exact (f.opens.not_indexed hint hb.symm).elim
    | tableSize n =>
      cases hr with
      | tableSize hint => exact (f.opens.not_tableSize hint hb.symm).elim
    | literal mode name value =>
      obtain ⟨opening, int, hopens, hint, rfl⟩ := hr.lengths (by omega)
      simp only [List.append_assoc] at hb
      obtain ⟨hopening, hname, hsize⟩ := f.opens.cancel hopens hb
      rw [hopening] at hb
      have hvalue := List.append_cancel_left hb
      have hwire := f.wire
      rw [huff_cancel hwire hint hvalue] at hwire
      obtain ⟨hint', hlength⟩ := hwire.cancel hint hvalue
      rw [hint'] at hvalue
      have hraw := congrArg List.length (List.append_cancel_left hvalue)
      rw [List.length_append] at hraw
      exact ⟨by omega, by omega⟩

end Blocks

end Beeper.Http2
