import Beeper.TableRefinement

namespace Beeper.Http2

open HeaderDecoder (Instr lookup)

/-- What is to be read of a captured name behind the fields `fs`: the value of the last of them with
the name, the way it was sent, or what was read before. -/
def readOf (name : Bytes) (before : Except Errno Bytes) (fs : List (HeaderField Coded)) :
    Except Errno Bytes :=
  fs.foldl (fun value f => if f.name.text = name then .ok f.value.wire else value) before

/-- The entry that an indexed field refers to has a key that a match can hold, and is there at the
end. -/
structure Lasting (conn : Ip4Conn) (entries : DynamicTableMap) (t : DynamicTable) (rep : Rep) :
    Prop where
  slot : ∀ i, rep = .indexed i → SlotHolds t.info i
  kept : ∀ i, rep = .indexed i → staticTableSize < i →
    (entries.lookup ⟨conn, entryKey t.info i⟩).isSome

variable {rd : Rodata} {captures : List (Bytes × MatchId)} {conn : Ip4Conn} {t t' : DynamicTable}
  {q q' : HeaderTable Coded} {cs : Captures} {rep : Rep} {x : Instr Coded} {limit i m d off : Nat}
  {o : Option (HeaderField Coded)} {f : HeaderField Coded} {fs : List (HeaderField Coded)}
  {reps : List Rep} {xs : List (Instr Coded)} {name : Bytes} {items new : List DynamicTableEntry}
  {maps : Maps} {b : Sent} {p : Parsed} {value : Nat → Except Errno Bytes}

/-- The name of the field that an index stands for matches as it does when it is sent as a string. -/
theorem Kept.refCapture_iff (h : Kept conn t q) (ha : Attached huffmanCode captures rd)
    (hl : lookup codedFields q i = some f) :
    refCapture rd conn t (u32 i) = some m ↔ f.name.text ≠ [] ∧ (f.name.text, m) ∈ captures := by
  obtain ⟨hu, -, -, hf, hg, hshown⟩ := h.mirrored.lookup_some h.clean ha hl
  rw [hu, refCapture, hg, Option.bind_some, hshown.key, hshown.keyHuff,
    List.take_of_length_le (lookup_kept h.all hl).1]
  exact ha.matchHeaderKey_wire f.name.huff f.name.text

/-- A representation is captured exactly if the name of its field is. -/
theorem Kept.repCapture_iff (h : Kept conn t q) (ha : Attached huffmanCode captures rd)
    (hm : Means rep x) (hx : HeaderDecoder.step codedFields limit q x = some (q', o)) :
    repCapture rd conn t rep = some m ↔
      ∃ f, o = some f ∧ f.name.text ≠ [] ∧ (f.name.text, m) ∈ captures := by
  cases hm with
  | indexed i =>
    obtain ⟨-, f, hl, rfl⟩ := HeaderDecoder.step_indexed_some hx
    simpa [repCapture, nameCapture] using h.refCapture_iff ha hl
  | tableSize n =>
    obtain ⟨-, -, rfl⟩ := HeaderDecoder.step_resize_some hx
    simp [repCapture]
  | named mode i value =>
    obtain ⟨name, hname, -, rfl⟩ := HeaderDecoder.step_literal_some hx
    obtain ⟨f, hl, rfl⟩ := Option.map_eq_some_iff.mp hname
    simpa [repCapture, nameCapture] using h.refCapture_iff ha hl
  | new mode name value =>
    obtain ⟨name', hname, -, rfl⟩ := HeaderDecoder.step_literal_some hx
    cases hname
    simpa [repCapture, nameCapture, Coded.str, Coded.wire] using
      ha.matchHeaderKey_wire name.huff name.text

/-- What is read of a field that was captured by its index, once the entries have moved on. -/
theorem Kept.indexed (h : Kept conn t q) (ha : Attached huffmanCode captures rd)
    (hl : lookup codedFields q i = some f) (hi : Holds conn t items)
    (hsl : Slid conn t items t' new d) (hnew : new.length < 2 ^ 31)
    (hlast : Lasting conn t'.entries t (.indexed i)) :
    slotValue rd conn t'.entries (slotOf t.info (u32 i)) = .ok f.value.wire := by
  obtain ⟨hu, hpos, hle, hf, hg, hshown⟩ := h.mirrored.lookup_some h.clean ha hl
  have hstays := hsl.stays hi hnew hpos hle (hlast.slot i rfl) hg
  rw [hu, hstays.kept (hlast.kept i rfl), hshown.val, List.take_of_length_le (lookup_kept h.all hl).2]

/-- What is read of a capture at the end changes by the field of a representation. -/
theorem Kept.captured (h : Kept conn t q) (ha : Attached huffmanCode captures rd)
    (hm : Means rep x) (hx : HeaderDecoder.step codedFields limit q x = some (q', o))
    (hname : (name, m) ∈ captures) (hne : name ≠ []) (hi : Holds conn t items)
    (hsl : Slid conn t items t' new d) (hnew : new.length < 2 ^ 31)
    (hlast : Lasting conn t'.entries t rep) :
    captureValue rd conn t'.entries ((meaning rd conn t cs rep).2 (Fin.ofNat maxMatches m)) =
      readOf name (captureValue rd conn t'.entries (cs (Fin.ofNat maxMatches m))) o.toList := by
  have hiff := @Kept.repCapture_iff rd captures conn t q q' rep x limit m o h ha hm hx
  by_cases hcap : repCapture rd conn t rep = some m
  · obtain ⟨f, rfl, -, hf⟩ := hiff.mp hcap
    have hfname : f.name.text = name := ha.name_inj hf hname
    rw [Option.toList_some, readOf, List.foldl_cons, List.foldl_nil, if_pos hfname]
    cases hm with
    | tableSize n => cases hcap
    | indexed i =>
      obtain ⟨-, g, hl, hg⟩ := HeaderDecoder.step_indexed_some hx
      cases hg
      have hset : refCapture rd conn t (u32 i) = some m := hcap
      simp only [meaning, hset, capture, Function.update_self, captureValue]
      exact h.indexed ha hl hi hsl hnew hlast
    | named mode i value =>
      obtain ⟨s, -, -, hf⟩ := HeaderDecoder.step_literal_some hx
      cases hf
      have hset : nameCapture rd conn t (.idx i) = some m := hcap
      simp only [meaning, hset, capture, Function.update_self, captureValue, Coded.str]
    | new mode s value =>
      obtain ⟨s', hs', -, hf⟩ := HeaderDecoder.step_literal_some hx
      cases hs'
      cases hf
      have hset : nameCapture rd conn t (.lit s.str) = some m := hcap
      simp only [meaning, hset, capture, Function.update_self, captureValue]
      rfl
  · rw [meaning_passes (ha.match_lt hname) hcap]
    cases o with
    | none => rfl
    | some f =>
      have hother : f.name.text ≠ name := fun heq =>
        hcap (hiff.mpr ⟨f, rfl, heq ▸ hne, heq ▸ hname⟩)
      rw [Option.toList_some, readOf, List.foldl_cons, List.foldl_nil, if_neg hother]

/-- What is read of a captured name at the end of a block is the value of the last field with it. -/
theorem Kept.blockCaptured (h : Kept conn t q) (ha : Attached huffmanCode captures rd)
    (hd : Decodes limit q reps xs q' fs) (hs : ∀ rep ∈ reps, rep.Short) (hlen : reps.length < 2 ^ 31)
    (hlimit : limit < 2 ^ 32) (hname : (name, m) ∈ captures) (hne : name ≠ [])
    (ht : (blockMeaning rd conn reps t cs).1 = t')
    (hok : Along rd conn limit (fun t _ rep x =>
      Storable rd conn t rep ∧ Keepable x ∧ Lasting conn t'.entries t rep) t q reps xs) :
    captureValue rd conn t'.entries ((blockMeaning rd conn reps t cs).2 (Fin.ofNat maxMatches m)) =
      readOf name (captureValue rd conn t'.entries (cs (Fin.ofNat maxMatches m))) fs := by
  induction reps generalizing t q cs xs fs with
  | nil =>
    have hmeans := hd.means
    cases hmeans
    cases hd.decoded
    rfl
  | cons rep reps ih =>
    obtain ⟨x, xs, q1, o, gs, rfl, hm, hx, hrest, rfl⟩ := hd.uncons
    obtain ⟨⟨hst, hk, hlast⟩, hoks⟩ := hok
    have hrs := hs rep List.mem_cons_self
    obtain ⟨items, hi, -⟩ := id h.mirrored
    obtain ⟨new, d, hnew, hsl⟩ := @blockMeaning_slid conn t items rd cs (rep :: reps) hi hs
    rw [ht] at hsl
    have hcap := @Kept.captured rd captures conn t t' q q1 cs rep x limit m d o name items new h ha hm
      hx hname hne hi hsl (Nat.lt_of_le_of_lt hnew hlen) hlast
    have h1 := @Kept.step rd captures conn t q q1 limit cs rep x o h ha hm hrs hst hk hlimit hx
    have hcs : (meaning rd conn t cs rep).1 = (meaning rd conn t (fun _ => none) rep).1 :=
      meaning_table cs _
    have hrec := @ih (meaning rd conn t cs rep).1 q1 (meaning rd conn t cs rep).2 gs xs h1 hrest
      (fun r hr => hs r (List.mem_cons_of_mem rep hr)) (Nat.lt_of_succ_lt hlen) ht (by
        rw [hcs]
        exact hoks q1 o hx)
    rw [readOf, List.foldl_append]
    rw [hcap] at hrec
    exact hrec

/-- A block that the parser accepts, and whose end fits 16 bits, is captured as what it means: each
captured name reads the value of the last field with it, or nothing. -/
theorem captured_last (ha : Attached huffmanCode captures rd) (h : Kept conn (maps.tableOf conn) q)
    (hk : Hooked rd maps b conn off p value) (hc : Carried b reps)
    (hret : Accepted maps conn off b p) (hend : b.EndFits)
    (hd : Decodes limit q reps xs q' fs) (hlimit : limit < 2 ^ 32)
    (hok : Along rd conn limit (fun t _ rep x =>
      Storable rd conn t rep ∧ Keepable x ∧ Lasting conn p.maps.dynamicTable t rep)
      (maps.tableOf conn) q reps xs)
    (hname : (name, m) ∈ captures) (hne : name ≠ []) :
    value m = readOf name (.error .ENOENT) fs := by
  obtain ⟨hs, info, map, hg, hsame, hvalue⟩ := hk.tableOf ha.readsReps hc ⟨hret, hend⟩
  obtain ⟨n, hn⟩ := hret
  obtain ⟨hfit, -⟩ := hk.accepted ha.readsReps hc.sid hc.sized hend hn hc.wire
  have hlen : reps.length < 2 ^ 31 := by
    have hle := hc.wire.length_le
    unfold maxBytes at hfit
    omega
  have hentries : p.maps.dynamicTable =
      (blockMeaning rd conn reps (maps.tableOf conn) fun _ => none).1.entries := hsame.entries
  rw [hentries] at hok
  have hcap := h.blockCaptured ha hd hs hlen hlimit hname hne rfl hok
  rw [hvalue, valueAt, if_neg (Nat.not_le.mpr (ha.match_lt hname)), hentries, hcap]
  rfl

theorem newTable_kept : Kept tableConn (Maps.init.tableOf tableConn) newDecoder :=
  .init rfl fun _ => BoundedMap.lookup_empty _

/-- The entries of the static table stay where they are. -/
theorem lasting_static {entries : DynamicTableMap}
    (h : ∀ i, rep = .indexed i → i ≤ staticTableSize) : Lasting conn entries t rep :=
  ⟨fun i hi hlt => absurd (h i hi) (Nat.not_le.mpr hlt),
    fun i hi hlt => absurd (h i hi) (Nat.not_le.mpr hlt)⟩

theorem readOf_same {c : Bytes} (hf : ∀ f ∈ fs, f.name.text ≠ c) (before : Except Errno Bytes) :
    readOf c before fs = before := by
  induction fs generalizing before with
  | nil => rfl
  | cons f fs ih =>
    rw [readOf, List.foldl_cons, if_neg (hf f List.mem_cons_self)]
    exact ih (fun g hg => hf g (List.mem_cons_of_mem f hg)) before

/-- A block whose end is just past what 16 bits hold is accepted, but nothing of it is captured. -/
theorem captured_lost : ∃ rd q fs, Attached huffmanCode [([0x61], 0)] rd ∧
    Kept tableConn (Maps.init.tableOf tableConn) newDecoder ∧
    let block := longBlock (2 ^ 16 - 14)
    let p := readBlock rd .init tableConn block
    Accepted .init tableConn 0 (sentAlone block) p.toParsed ∧
    Decodes 4096 newDecoder (longReps (2 ^ 16 - 14)) (longInstrs (2 ^ 16 - 14)) q fs ∧
    BlockWire id (longReps (2 ^ 16 - 14)) block ∧
    Along rd tableConn 4096 (fun t _ rep x => Storable rd tableConn t rep ∧ Keepable x ∧
      Lasting tableConn p.maps.dynamicTable t rep) (Maps.init.tableOf tableConn) newDecoder
      (longReps (2 ^ 16 - 14)) (longInstrs (2 ^ 16 - 14)) ∧
    getMatchMsg rd p.maps p.msg p.pres 0 = .error .ENOENT ∧
    readOf [0x61] (.error .ENOENT) fs = .ok [0x62] := by
  obtain ⟨rd, ha⟩ := attached_letter
  have hlen := longBlock_length (2 ^ 16 - 14)
  obtain ⟨hret, htable, hpres⟩ := @readBlock_wrapped rd .init tableConn (longBlock (2 ^ 16 - 14))
    (by rw [hlen]; decide) (.inr (by decide))
  refine ⟨rd, _, _, ha, newTable_kept, ⟨_, hret⟩, longBlock_decodes _, longBlock_wire _, ?_, ?_, ?_⟩
  · refine (longBlock_along rd _).mono fun t q rep x hm h => ⟨h.1, h.2.1, ?_⟩
    refine lasting_static fun i hi => ?_
    rcases List.mem_cons.mp hm with rfl | hm
    · cases hi
    · cases (List.eq_of_mem_replicate hm).symm.trans hi
      decide
  · unfold getMatchMsg
    rw [hpres]
    rfl
  · rw [readOf, List.foldl_cons]
    refine readOf_same (fun f hf => ?_) _
    rw [List.eq_of_mem_replicate hf]
    decide

/-- A field that was added under the name of the one it evicted, and sent again by its index. -/
theorem captured_evicting : ∃ rd, Attached huffmanCode [([0x61], 0)] rd ∧
    let p := readBlock rd .init tableConn evictingBlock
    getMatchMsg rd p.maps p.msg p.pres 0 = .ok [0x63] := by
  obtain ⟨rd, ha⟩ := attached_letter
  obtain ⟨hacc, htable, -⟩ := @readBlock_reads rd .init tableConn evictingBlock evictingReps ha.readsReps
    evictingBlock_wire (by decide) (.inr (by decide))
  have hentries : (readBlock rd .init tableConn evictingBlock).maps.dynamicTable =
      evictedTable.entries :=
    congrArg DynamicTable.entries (htable.trans (evictingReps_meaning rd rfl _))
  refine ⟨rd, ha, captured_last ha newTable_kept (readBlock_hooked rd .init tableConn evictingBlock)
    (sentAlone_carried evictingBlock_wire (by decide)) hacc.1 hacc.2 evictingBlock_decodes (by decide)
    ?_ (List.mem_singleton.mpr rfl) (by decide)⟩
  refine (evictingBlock_along rd rfl).mono fun t q rep x _ h => ⟨h.1, h.2.1, ?_⟩
  have hkey : entryKey evictedTable.info 62 = 63 := by decide +kernel
  refine ⟨fun i hi _ => ?_, fun i hi _ => ?_⟩
  · obtain ⟨rfl, rfl⟩ := h.2.2.2.2 i hi
    rw [hkey]
    decide
  · obtain ⟨rfl, rfl⟩ := h.2.2.2.2 i hi
    rw [hkey]
    refine (congrArg (fun e : DynamicTableMap => (e.lookup ⟨tableConn, 63⟩).isSome) hentries).trans ?_
    decide +kernel

end Beeper.Http2
