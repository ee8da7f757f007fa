import Beeper.PlainMessages
import Beeper.SizeBound

namespace Beeper.Http2

open HeaderDecoder (Instr lookup)
open WeightedQueue (total)

/-- The table `t` of `conn` is the one of a decoder that keeps `q`, names and values included. -/
structure Refines (rd : Rodata) (conn : Ip4Conn) (t : DynamicTable) (q : HeaderTable Coded) :
    Prop where
  count : t.info.count = q.items.length
  size : t.info.size = total HeaderField.size q.items
  maxSize : t.info.maxSize = q.cap
  lookup : ∀ n, Option.Rel Holding (getTableEntry rd conn t n) (lookup codedFields q n)

/-- Each index of the table `t` of `conn` names what it names for a decoder that keeps `q`, as far as
entries keep it. -/
structure InStep (rd : Rodata) (conn : Ip4Conn) (t : DynamicTable) (q : HeaderTable Coded) :
    Prop where
  count : t.info.count = q.items.length
  size : t.info.size = total HeaderField.size q.items
  lookup : ∀ n, Option.Rel Shown (getTableEntry rd conn t n) (lookup codedFields q n)

variable {rd : Rodata} {captures : List (Bytes × MatchId)} {maps : Maps} {qs : Decoders}
  {conn c : Ip4Conn} {t t' : DynamicTable} {q q' : HeaderTable Coded} {limit : Nat} {reps : List Rep}
  {xs : List (Instr Coded)} {fs : List (HeaderField Coded)} {type : Nat} {ann : Option Nat}
  {p : Parsed} {cs : Captures} {rep : Rep} {x : Instr Coded} {o : Option (HeaderField Coded)}

theorem Mirrored.inStep (h : Mirrored conn t q) (hd : t.info.dirty = 0)
    (ha : Attached huffmanCode captures rd) : InStep rd conn t q := by
  obtain ⟨items, hi, hrel⟩ := id h
  have hitems := hrel hd
  exact ⟨hi.count.trans hitems.length_eq,
    hi.size.trans (WeightedQueue.total_related (fun _ _ hst => hst.size) hitems), h.lookup hd ha⟩

/-- What a run keeps in which entries keep whole fields. -/
structure Kept (conn : Ip4Conn) (t : DynamicTable) (q : HeaderTable Coded) : Prop where
  mirrored : Mirrored conn t q
  clean : t.info.dirty = 0
  maxSize : t.info.maxSize = q.cap
  all : AllKept q

theorem Kept.refines (h : Kept conn t q) (ha : Attached huffmanCode captures rd) :
    Refines rd conn t q := by
  have hin := h.mirrored.inStep h.clean ha
  refine ⟨hin.count, hin.size, h.maxSize, fun n => ?_⟩
  have hrel := hin.lookup n
  generalize getTableEntry rd conn t n = e at hrel ⊢
  cases hl : lookup codedFields q n with
  | none =>
    rw [hl] at hrel
    cases hrel
    exact .none
  | some f =>
    rw [hl] at hrel
    obtain ⟨hkey, hval⟩ := lookup_kept h.all hl
    cases hrel with
    | some hs =>
      refine .some ⟨?_, hs.keyHuff, ?_, hs.valHuff⟩
      · rw [hs.key, List.take_of_length_le hkey]
      · rw [hs.val, List.take_of_length_le hval]

theorem Kept.step (h : Kept conn t q) (ha : Attached huffmanCode captures rd) (hm : Means rep x)
    (hs : rep.Short) (hst : Storable rd conn t rep) (hk : Keepable x) (hlimit : limit < 2 ^ 32)
    (hx : HeaderDecoder.step codedFields limit q x = some (q', o)) :
    Kept conn (meaning rd conn t cs rep).1 q' := by
  obtain ⟨items, hi, -⟩ := id h.mirrored
  refine ⟨h.mirrored.meaning ha hm hs hst (fun i value f _ _ hl => (lookup_kept h.all hl).1)
    (fun _ _ _ _ => h.maxSize) hlimit hx, ?_, meaning_maxSize hi hm hs hlimit hx h.maxSize, ?_⟩
  · exact meaning_clean h.mirrored h.clean ha hm hst h.all hk hx
  · exact h.all.step hk hx

theorem Kept.block (h : Kept conn t q) (ha : Attached huffmanCode captures rd)
    (hd : Decodes limit q reps xs q' fs) (hs : ∀ rep ∈ reps, rep.Short) (hlimit : limit < 2 ^ 32)
    (hok : Along rd conn limit (fun t _ rep x => Storable rd conn t rep ∧ Keepable x) t q reps xs)
    (cs : Captures) : Kept conn (blockMeaning rd conn reps t cs).1 q' := by
  exact hd.invariant (fun t q rep x q' o hI hm hsr hokr hx => hI.step ha hm hsr hokr.1 hokr.2 hlimit hx)
    hs hok h

theorem Kept.init (hi : t.info = .new) (he : ∀ idx, t.entries.lookup ⟨conn, idx⟩ = none) :
    Kept conn t newDecoder := by
  refine ⟨mirrored_new hi he, ?_, ?_, fun f hf => absurd hf List.not_mem_nil⟩
  · rw [hi]
    rfl
  · rw [hi]
    rfl

theorem SameTable.kept (h : SameTable conn t t') (hk : Kept conn t q) : Kept conn t' q :=
  ⟨h.mirrored hk.mirrored, h.info ▸ hk.clean, h.info ▸ hk.maxSize, hk.all⟩

/-- In a run of blocks whose ends fit 16 bits, and whose strings fit an entry where they are added,
the table of each connection is the one its decoder keeps. -/
theorem tracked_refines (ha : Attached huffmanCode captures rd)
    (h : Tracked rd Unchanging AcceptedWhole
      (fun conn t _ rep x => Storable rd conn t rep ∧ Keepable x) maps qs) (conn : Ip4Conn) :
    Refines rd conn (maps.tableOf conn) (qs conn) := by
  refine ((h.invariant (I := Kept) SameTable.kept Kept.init ?_ ?_ ha.readsReps).2 conn).refines ha
  · intro c t q ann hann hk
    rw [hann.setMaxSize]
    exact hk
  · exact fun hk hd hs hlimit hok => hk.block ha hd hs hlimit hok _

/-- A block that adds the field `a: b` and goes on with `n` fields of the static table. -/
def longBlock (n : Nat) : Bytes := [0x40, 0x01, 0x61, 0x01, 0x62] ++ List.replicate n 0x82

def longReps (n : Nat) : List Rep := shortRep 0x61 0x62 :: List.replicate n (.indexed 2)

def shortField (c d : UInt8) : HeaderField Coded := ⟨⟨[c], false⟩, ⟨[d], false⟩⟩

def shortInstr (c d : UInt8) : Instr Coded := .literal true (.lit ⟨[c], false⟩) ⟨[d], false⟩

def longInstrs (n : Nat) : List (Instr Coded) :=
  shortInstr 0x61 0x62 :: List.replicate n (.indexed 2)

theorem shortRep_means (c d : UInt8) : Means (shortRep c d) (shortInstr c d) :=
  .new .incremental ⟨[c], false⟩ ⟨[d], false⟩

theorem longBlock_wire (n : Nat) : BlockWire id (longReps n) (longBlock n) := by
  have hrest : BlockWire id (List.replicate n (.indexed 2)) (List.replicate n 0x82) := by
    induction n with
    | zero => exact .nil
    | succ n ih =>
      exact .cons (.indexed (by decide) (.short 0x82 (by decide) (by decide))) ih
  exact .cons (shortRep_wire 0x61 0x62 rfl) hrest

theorem longBlock_length (n : Nat) : (longBlock n).length = 5 + n := by
  rw [longBlock, List.length_append, List.length_replicate]
  rfl

/-- The field with the index 2. -/
def secondField : HeaderField Coded :=
  ⟨⟨HeaderDecoder.textBytes ":method", true⟩, ⟨HeaderDecoder.textBytes "GET", true⟩⟩

theorem longBlock_decodes (n : Nat) : Decodes 4096 newDecoder (longReps n) (longInstrs n)
    (newDecoder.push (shortField 0x61 0x62)) (shortField 0x61 0x62 :: List.replicate n secondField) := by
  have hmeans : List.Forall₂ Means (List.replicate n (.indexed 2)) (List.replicate n (.indexed 2)) := by
    induction n with
    | zero => exact .nil
    | succ n ih => exact .cons (.indexed 2) ih
  have hrest : HeaderDecoder.decode codedFields 4096 (newDecoder.push (shortField 0x61 0x62))
      (List.replicate n (.indexed 2)) =
        some (newDecoder.push (shortField 0x61 0x62), List.replicate n secondField) := by
    clear hmeans
    induction n with
    | zero => rfl
    | succ n ih =>
      have hstep : HeaderDecoder.step codedFields 4096 (newDecoder.push (shortField 0x61 0x62))
          (.indexed 2) = some (newDecoder.push (shortField 0x61 0x62), some secondField) := rfl
      rw [List.replicate_succ, HeaderDecoder.decode, hstep, Option.bind_some, ih]
      rfl
  have hstep : HeaderDecoder.step codedFields 4096 newDecoder (shortInstr 0x61 0x62) =
      some (newDecoder.push (shortField 0x61 0x62), some (shortField 0x61 0x62)) := rfl
  refine ⟨.cons (shortRep_means 0x61 0x62) hmeans, ?_⟩
  rw [longInstrs, HeaderDecoder.decode, hstep, Option.bind_some, hrest]
  rfl

/-- Fields of the static table are no concern of the dynamic one. -/
theorem along_static (rd : Rodata) (conn : Ip4Conn)
    {ok : DynamicTable → HeaderTable Coded → Rep → Instr Coded → Prop}
    (hok : ∀ t q, ok t q (.indexed 2) (.indexed 2)) (n : Nat) (t : DynamicTable)
    (q : HeaderTable Coded) : Along rd conn limit ok t q (List.replicate n (.indexed 2))
      (List.replicate n (.indexed 2)) := by
  induction n with
  | zero => exact trivial
  | succ n ih =>
    refine ⟨hok t q, fun q' o hx => ?_⟩
    obtain ⟨rfl, -⟩ := HeaderDecoder.step_indexed_some hx
    exact ih

theorem newTable_room : (Maps.init.tableOf tableConn).entries.card < mapMaxEntries := by decide

theorem longBlock_along (rd : Rodata) (n : Nat) : Along rd tableConn 4096
    (fun t q rep x => Storable rd tableConn t rep ∧ Keepable x ∧ NameKept t q x)
    (Maps.init.tableOf tableConn) newDecoder (longReps n) (longInstrs n) := by
  refine along_cons ⟨storable_new newTable_room, ?_, fun i value f hx => by cases hx⟩ rfl rfl ?_
  · intro name value hx
    cases hx
    refine ⟨by decide, fun s hs => ?_⟩
    cases hs
    decide
  · refine along_static rd tableConn (fun t q => ⟨storable_indexed, ?_, ?_⟩) n _ _
    · exact fun name value hx => by cases hx
    · exact fun i value f hx => by cases hx

theorem Along.mono {ok ok' : DynamicTable → HeaderTable Coded → Rep → Instr Coded → Prop}
    (h : Along rd conn limit ok t q reps xs)
    (hok : ∀ t q rep x, rep ∈ reps → ok t q rep x → ok' t q rep x) :
    Along rd conn limit ok' t q reps xs := by
  induction reps generalizing t q xs with
  | nil => exact trivial
  | cons rep reps ih =>
    cases xs with
    | nil => exact trivial
    | cons x xs =>
      refine ⟨hok _ _ _ _ List.mem_cons_self h.1, fun q' o hx => ih (h.2 q' o hx) ?_⟩
      exact fun t q r x hm => hok t q r x (List.mem_cons_of_mem rep hm)

/-- A block whose end is just past what 16 bits hold is accepted, but never read. -/
theorem refines_lost : ∃ rd maps qs, Attached huffmanCode [] rd ∧
    Tracked rd Unchanging Accepted (fun conn t _ rep x => Storable rd conn t rep ∧ Keepable x)
      maps qs ∧ ¬Refines rd tableConn (maps.tableOf tableConn) (qs tableConn) := by
  obtain ⟨rd, ha⟩ : ∃ rd, Attached huffmanCode [] rd := attached_exists fun s => ⟨_, rfl⟩
  have hlen := longBlock_length (2 ^ 16 - 14)
  obtain ⟨hret, htable, -⟩ := @readBlock_wrapped rd .init tableConn (longBlock (2 ^ 16 - 14))
    (by rw [hlen]; decide) (.inr (by decide))
  have hrun : Tracked rd Unchanging Accepted
      (fun conn t _ rep x => Storable rd conn t rep ∧ Keepable x) _ _ :=
    Tracked.init.read (longBlock_wire _) (by rw [hlen]; decide) ⟨_, hret⟩ (by decide)
      (longBlock_decodes _) ((longBlock_along rd _).mono fun t q rep x _ h => ⟨h.1, h.2.1⟩)
  refine ⟨rd, _, _, ha, hrun, fun hr => ?_⟩
  have hcount := hr.count
  rw [Function.update_self, htable] at hcount
  exact absurd hcount (by decide)

/-- A field that takes its name from the one it evicts. -/
def evictingReps : List Rep :=
  shortFront ++ [.literal .incremental (.idx 62) ⟨false, [0x63]⟩, .indexed 62]

def evictingInstrs : List (Instr Coded) :=
  [.resize 34, shortInstr 0x61 0x62, .literal true (.idx 62) ⟨[0x63], false⟩, .indexed 62]

def evictingBlock : Bytes :=
  [0x3f, 0x03, 0x40, 0x01, 0x61, 0x01, 0x62, 0x7e, 0x01, 0x63, 0xbe]

def evictingDecoder : HeaderTable Coded :=
  ((newDecoder.resize 34).push (shortField 0x61 0x62)).push (shortField 0x61 0x63)

theorem evictingBlock_wire : BlockWire id evictingReps evictingBlock := by
  have hsize : IntWire 0x20 0x1F [0x3f, 0x03] 34 := .long 0x3f (by decide) (.last 0x03 (by decide))
  have hname : IntWire Indexing.incremental.bits Indexing.incremental.max [0x7e] 62 :=
    .short 0x7e (by decide) (by decide)
  have hvalue : StrWire id ⟨false, [0x63]⟩ ([0x01] ++ [0x63]) := letter_wire 0x63 rfl
  have hindex : IntWire 0x80 0x7F [0xbe] 62 := .short 0xbe (by decide) (by decide)
  exact .cons (.tableSize hsize) (.cons (shortRep_wire 0x61 0x62 rfl)
    (.cons (.named (by decide) hname hvalue) (.cons (.indexed (by decide) hindex) .nil)))

theorem evictingBlock_decodes : Decodes 4096 newDecoder evictingReps evictingInstrs evictingDecoder
    [shortField 0x61 0x62, shortField 0x61 0x63, shortField 0x61 0x63] :=
  ⟨.cons (.tableSize 34) (.cons (shortRep_means 0x61 0x62)
    (.cons (.named .incremental 62 ⟨[0x63], false⟩) (.cons (.indexed 62) .nil))), rfl⟩

/-- The table behind the block. -/
def evictedTable : DynamicTable :=
  addField tableConn shortTable (some ([0x61], false)) ⟨false, [0x63]⟩

theorem shortTable_nameBytes (rd : Rodata) :
    nameBytes rd tableConn shortTable (.idx 62) = some ([0x61], false) := by
  rw [nameBytes, slotField, if_pos (by decide +kernel)]
  decide +kernel

theorem evictingReps_meaning (rd : Rodata)
    (ht : resized tableConn t 34 = resized tableConn (Maps.init.tableOf tableConn) 34)
    (cs : Captures) : (blockMeaning rd tableConn evictingReps t cs).1 = evictedTable := by
  have hu : u32 34 = 34 := u32_of_lt (by decide)
  rw [evictedTable, ← shortTable_nameBytes rd]
  unfold blockMeaning evictingReps shortFront shortRep
  simp only [List.cons_append, List.nil_append, List.foldl_cons, List.foldl_nil, meaning, if_true, hu, ht]
  rfl

theorem evictingBlock_along (rd : Rodata)
    (ht : resized tableConn t 34 = resized tableConn (Maps.init.tableOf tableConn) 34) :
    Along rd tableConn 4096
      (fun t q rep x => Storable rd tableConn t rep ∧ Keepable x ∧ NameKept t q x ∧ SameMax t q x ∧
        ∀ i, rep = .indexed i → i = 62 ∧ t = evictedTable)
      t newDecoder evictingReps evictingInstrs := by
  have hsmall : shortTable.entries.card < mapMaxEntries := by decide +kernel
  have hfirst : (resized tableConn (Maps.init.tableOf tableConn) 34).entries.card < mapMaxEntries := by
    decide +kernel
  have hsize : (meaning rd tableConn t (fun _ => none) (.tableSize 34)).1 =
      resized tableConn (Maps.init.tableOf tableConn) 34 :=
    (congrArg (resized tableConn _) (u32_of_lt (by decide))).trans ht
  have hnamed : (meaning rd tableConn shortTable (fun _ => none)
      (.literal .incremental (.idx 62) ⟨false, [0x63]⟩)).1 = evictedTable := by
    rw [evictedTable, ← shortTable_nameBytes rd]
    rfl
  refine along_cons ⟨storable_tableSize, fun _ _ hx => (by cases hx), fun _ _ _ hx => (by cases hx),
    fun _ _ hx => (by cases hx), fun _ hx => by cases hx⟩ rfl hsize ?_
  refine along_cons ⟨storable_new hfirst, ?_, fun _ _ _ hx => (by cases hx), ?_,
    fun _ hx => by cases hx⟩ rfl (show _ = shortTable from rfl) ?_
  · intro name value hx
    cases hx
    exact ⟨by decide, fun s hs => by cases hs; decide⟩
  · exact fun _ _ _ _ => by decide +kernel
  refine along_cons ⟨storable_named hsmall shortTable_slot, ?_, ?_, ?_, fun _ hx => by cases hx⟩ rfl
    hnamed ?_
  · intro name value hx
    cases hx
    exact ⟨by decide, fun s hs => by cases hs⟩
  · intro i value f hx _ hl
    cases hx
    cases hl
    decide
  · exact fun _ _ _ _ => by decide +kernel
  refine ⟨⟨storable_indexed, fun _ _ hx => (by cases hx), fun _ _ _ hx => (by cases hx),
    fun _ _ hx => (by cases hx), fun i hx => ?_⟩, fun _ _ _ => trivial⟩
  cases hx
  exact ⟨rfl, rfl⟩

theorem refines_evicting : ∃ rd, Attached huffmanCode [] rd ∧
    Refines rd tableConn ((readBlock rd .init tableConn evictingBlock).maps.tableOf tableConn)
      evictingDecoder := by
  obtain ⟨rd, ha⟩ : ∃ rd, Attached huffmanCode [] rd := attached_exists fun s => ⟨_, rfl⟩
  obtain ⟨hacc, -, -⟩ := @readBlock_reads rd .init tableConn evictingBlock evictingReps ha.readsReps
    evictingBlock_wire (by decide) (.inr (by decide))
  have hr := tracked_refines ha (Tracked.init.read evictingBlock_wire (by decide) hacc (by decide)
    evictingBlock_decodes ((evictingBlock_along rd rfl).mono fun t q rep x _ h => ⟨h.1, h.2.1⟩)) tableConn
  rw [Function.update_self] at hr
  exact ⟨rd, ha, hr⟩

/-- What a run keeps whatever is added. -/
structure Sized (conn : Ip4Conn) (t : DynamicTable) (q : HeaderTable Coded) : Prop where
  mirrored : Mirrored conn t q
  maxSize : t.info.maxSize = q.cap

theorem Sized.block (h : Sized conn t q) (ha : Attached huffmanCode captures rd)
    (hd : Decodes limit q reps xs q' fs) (hs : ∀ rep ∈ reps, rep.Short) (hlimit : limit < 2 ^ 32)
    (hok : Along rd conn limit (fun t q rep x => Storable rd conn t rep ∧ NameKept t q x) t q reps xs)
    (cs : Captures) : Sized conn (blockMeaning rd conn reps t cs).1 q' := by
  refine hd.invariant (fun t q rep x q' o hI hm hsr hokr hx => ?_) hs hok h
  obtain ⟨items, hi, -⟩ := id hI.mirrored
  exact ⟨hI.mirrored.meaning ha hm hsr hokr.1 hokr.2 (fun _ _ _ _ => hI.maxSize) hlimit hx,
    meaning_maxSize hi hm hsr hlimit hx hI.maxSize⟩

theorem Tracked.sized (ha : Attached huffmanCode captures rd)
    (h : Tracked rd Unchanging AcceptedWhole
      (fun conn t q rep x => Storable rd conn t rep ∧ NameKept t q x) maps qs) (conn : Ip4Conn) :
    Sized conn (maps.tableOf conn) (qs conn) := by
  refine (h.invariant (I := Sized) ?_ ?_ ?_ ?_ ha.readsReps).2 conn
  · exact fun hsame hk => ⟨hsame.mirrored hk.mirrored, hsame.info ▸ hk.maxSize⟩
  · exact fun hi he => ⟨mirrored_new hi he, by rw [hi]; rfl⟩
  · intro c t q ann hann hk
    rw [hann.setMaxSize]
    exact hk
  · exact fun hk hd hs hlimit hok => hk.block ha hd hs hlimit hok _

/-- In a run of blocks whose ends fit 16 bits, in which fields are added under the names of others
only if those names fit an entry, the size of a table is the one the peer counts, or the table is
dirty. -/
theorem tracked_size (ha : Attached huffmanCode captures rd)
    (h : Tracked rd Unchanging AcceptedWhole
      (fun conn t q rep x => Storable rd conn t rep ∧ NameKept t q x) maps qs) (conn : Ip4Conn) :
    (maps.infoOf conn).dirty ≠ 0 ∨ (maps.infoOf conn).size = total HeaderField.size (qs conn).items := by
  by_cases hd : (maps.infoOf conn).dirty = 0
  · exact .inr ((h.sized ha conn).mirrored.inStep hd ha).size
  · exact .inl hd

/-- A name that is longer than an entry keeps. -/
def longName : Bytes := List.replicate 129 0x61

/-- A field with the name, and another one under the name of its entry. -/
def renamedReps (name : Bytes) (value : Bytes) : List Rep :=
  [.literal .incremental (.lit ⟨false, name⟩) ⟨false, value⟩,
    .literal .incremental (.idx 62) ⟨false, [0x63]⟩]

def renamedInstrs (name : Bytes) (value : Bytes) : List (Instr Coded) :=
  [.literal true (.lit ⟨name, false⟩) ⟨value, false⟩, .literal true (.idx 62) ⟨[0x63], false⟩]

theorem renamedReps_means (name value : Bytes) :
    List.Forall₂ Means (renamedReps name value) (renamedInstrs name value) :=
  .cons (.new .incremental ⟨name, false⟩ ⟨value, false⟩)
    (.cons (.named .incremental 62 ⟨[0x63], false⟩) .nil)

/-- The decoder's table behind the first field. -/
def namedDecoder (name value : Bytes) : HeaderTable Coded :=
  newDecoder.push ⟨⟨name, false⟩, ⟨value, false⟩⟩

def renamedDecoder (name value : Bytes) : HeaderTable Coded :=
  (namedDecoder name value).push ⟨⟨name, false⟩, ⟨[0x63], false⟩⟩

theorem namedDecoder_lookup {name value : Bytes} (h : name.length + value.length + 32 ≤ 4096) :
    lookup codedFields (namedDecoder name value) 62 = some ⟨⟨name, false⟩, ⟨value, false⟩⟩ :=
  HeaderDecoder.lookup_push h

theorem renamedReps_decodes {name value : Bytes} (h : name.length + value.length + 32 ≤ 4096) :
    Decodes 4096 newDecoder (renamedReps name value) (renamedInstrs name value)
      (renamedDecoder name value)
      [⟨⟨name, false⟩, ⟨value, false⟩⟩, ⟨⟨name, false⟩, ⟨[0x63], false⟩⟩] := by
  have hnew : HeaderDecoder.step codedFields 4096 newDecoder
      (.literal true (.lit ⟨name, false⟩) ⟨value, false⟩) =
        some (namedDecoder name value, some ⟨⟨name, false⟩, ⟨value, false⟩⟩) := rfl
  have hnamed : HeaderDecoder.step codedFields 4096 (namedDecoder name value)
      (.literal true (.idx 62) ⟨[0x63], false⟩) =
        some (renamedDecoder name value, some ⟨⟨name, false⟩, ⟨[0x63], false⟩⟩) := by
    simp only [HeaderDecoder.step, HeaderDecoder.nameOf, namedDecoder_lookup h, Option.map_some,
      if_true]
    rfl
  refine ⟨renamedReps_means name value, ?_⟩
  rw [renamedInstrs, HeaderDecoder.decode, hnew, Option.bind_some, HeaderDecoder.decode, hnamed]
  rfl

theorem renamedReps_wire {name value ns vs : Bytes} (hn : StrWire id ⟨false, name⟩ ns)
    (hv : StrWire id ⟨false, value⟩ vs) :
    BlockWire id (renamedReps name value) (0x40 :: (ns ++ vs) ++ [0x7e, 0x01, 0x63]) := by
  have hname : IntWire Indexing.incremental.bits Indexing.incremental.max [0x7e] 62 :=
    .short 0x7e (by decide) (by decide)
  have hvalue : StrWire id ⟨false, [0x63]⟩ ([0x01] ++ [0x63]) := letter_wire 0x63 rfl
  exact .cons (.new 0x40 rfl hn hv) (.cons (.named (by decide) hname hvalue) .nil)

/-- The table in front of the second field. -/
def renamedTable (name value : Bytes) : DynamicTable :=
  addField tableConn (Maps.init.tableOf tableConn) (some (name, false)) ⟨false, value⟩

theorem renamedReps_meaning (rd : Rodata) (name value : Bytes) (cs : Captures) :
    (blockMeaning rd tableConn (renamedReps name value) (Maps.init.tableOf tableConn) cs).1 =
      addField tableConn (renamedTable name value)
        (nameBytes rd tableConn (renamedTable name value) (.idx 62)) ⟨false, [0x63]⟩ := rfl

theorem renamedReps_along (rd : Rodata) {name value : Bytes}
    {ok : DynamicTable → HeaderTable Coded → Rep → Instr Coded → Prop}
    (hok : ∀ t q rep x, Storable rd tableConn t rep →
      (name.length ≤ headerFieldMaxlen → NameKept t q x) → ok t q rep x)
    (hfit : name.length + value.length + 32 ≤ 4096)
    (hroom : (renamedTable name value).entries.card < mapMaxEntries)
    (hkey : entryKey (renamedTable name value).info 62 = 62) :
    Along rd tableConn 4096 ok (Maps.init.tableOf tableConn) newDecoder (renamedReps name value)
      (renamedInstrs name value) := by
  have hslot : SlotHolds (renamedTable name value).info 62 := by
    intro _
    rw [hkey]
    decide
  refine along_cons (hok _ _ _ _ (storable_new newTable_room) fun _ _ _ _ hx => (by cases hx)) rfl
    (show _ = renamedTable name value from rfl) ⟨hok _ _ _ _ (storable_named hroom hslot) ?_,
      fun _ _ _ => trivial⟩
  intro hlen i v f hx _ hf
  cases hx
  cases (namedDecoder_lookup hfit).symm.trans hf
  exact hlen

/-- A run of both fields, the name of the second of which is read as `key`. -/
theorem renamed_tracked (ha : Attached huffmanCode captures rd)
    (ok : Ip4Conn → DynamicTable → HeaderTable Coded → Rep → Instr Coded → Prop)
    {name value ns vs key : Bytes}
    (hok : ∀ t q rep x, Storable rd tableConn t rep →
      (name.length ≤ headerFieldMaxlen → NameKept t q x) → ok tableConn t q rep x)
    (hn : StrWire id ⟨false, name⟩ ns) (hv : StrWire id ⟨false, value⟩ vs)
    (hlen : ns.length + vs.length ≤ 4096) (hfit : name.length + value.length + 32 ≤ 4096)
    (hroom : (renamedTable name value).entries.card < mapMaxEntries)
    (hkey : entryKey (renamedTable name value).info 62 = 62)
    (hname : nameBytes rd tableConn (renamedTable name value) (.idx 62) = some (key, false)) :
    ∃ maps qs, Tracked rd Unchanging Readable ok maps qs ∧
      maps.infoOf tableConn = (addField tableConn (renamedTable name value) (some (key, false))
        ⟨false, [0x63]⟩).info ∧ qs tableConn = renamedDecoder name value := by
  have hw := renamedReps_wire hn hv
  have hblock : (0x40 :: (ns ++ vs) ++ [0x7e, 0x01, 0x63]).length ≤ 4100 := by
    simp only [List.length_append, List.length_cons, List.length_nil]
    omega
  have hsmall : http2FrameHdrLen + (0x40 :: (ns ++ vs) ++ [0x7e, 0x01, 0x63]).length ≤ maxBytes := by
    unfold http2FrameHdrLen maxBytes
    omega
  have hroom' : (Maps.init.dynamicTableInfo.lookup tableConn).isSome ∨
      Maps.init.dynamicTableInfo.card < mapMaxEntries := .inr (by decide)
  obtain ⟨-, htable, -⟩ := readBlock_reads ha.readsReps hw hsmall hroom'
  have hrun := (@Tracked.init rd Unchanging Readable ok).read hw (by omega)
    (readBlock_readable hsmall hroom' _) (by decide) (renamedReps_decodes hfit)
    (renamedReps_along rd hok hfit hroom hkey)
  rw [renamedReps_meaning, hname] at htable
  refine ⟨_, _, hrun, ?_, Function.update_self ..⟩
  rw [← Maps.tableOf_info, htable]

theorem renamed_nameBytes (rd : Rodata) {name value key : Bytes}
    (hslot : dynamicTableBase ≤ slotOf (renamedTable name value).info (u32 62))
    (he : ((renamedTable name value).entries.lookup
      ⟨tableConn, slotOf (renamedTable name value).info (u32 62)⟩).map
        (fun e => (e.field.key, e.field.keyHuff)) = some (key, false)) :
    nameBytes rd tableConn (renamedTable name value) (.idx 62) = some (key, false) := by
  rw [nameBytes, slotField, if_pos hslot, Option.map_map]
  exact he

theorem longName_wire : StrWire id ⟨false, longName⟩ ([0x7f, 0x02] ++ longName) :=
  .mk (.long 0x7f (by decide) (.last 0x02 (by decide))) (List.length_replicate ..).symm

/-- The size of an entry is counted by what is kept of the name it got by index. -/
theorem size_lost : ∃ rd maps qs, Attached huffmanCode [] rd ∧
    Tracked rd Unchanging AcceptedWhole (fun conn t _ rep _ => Storable rd conn t rep) maps qs ∧
      (maps.infoOf tableConn).dirty = 0 ∧ (maps.infoOf tableConn).size = 323 ∧
        total HeaderField.size (qs tableConn).items = 324 := by
  obtain ⟨rd, ha⟩ : ∃ rd, Attached huffmanCode [] rd := attached_exists fun s => ⟨_, rfl⟩
  have hname : nameBytes rd tableConn (renamedTable longName [0x62]) (.idx 62) =
      some (longName.take headerFieldMaxlen, false) :=
    renamed_nameBytes rd (by decide +kernel) (by decide +kernel)
  obtain ⟨maps, qs, hrun, hinfo, hq⟩ := renamed_tracked ha
    (fun conn t _ rep _ => Storable rd conn t rep) (fun _ _ _ _ hs _ => hs) longName_wire
    (letter_wire 0x62 rfl) (by decide +kernel) (by decide +kernel) (by decide +kernel)
    (by decide +kernel) hname
  have hadded : (addField tableConn (renamedTable longName [0x62])
      (some (longName.take headerFieldMaxlen, false)) ⟨false, [0x63]⟩).info = ⟨2, 323, 4096, 0, 0⟩ := by
    decide +kernel
  rw [hadded] at hinfo
  refine ⟨rd, maps, qs, ha, hrun.accepted ha.readsReps, by rw [hinfo], by rw [hinfo], ?_⟩
  rw [hq]
  decide +kernel

/-- A value that an entry does not keep as a whole is no harm. -/
theorem renamed_sized (ha : Attached huffmanCode captures rd) : ∃ maps qs,
    Tracked rd Unchanging Readable
      (fun conn t q rep x => Storable rd conn t rep ∧ NameKept t q x) maps qs ∧
        maps.infoOf tableConn = ⟨2, 196, 4096, 0, 0⟩ := by
  have hname : nameBytes rd tableConn (renamedTable [0x61] longName) (.idx 62) =
      some ([0x61], false) :=
    renamed_nameBytes rd (by decide +kernel) (by decide +kernel)
  obtain ⟨maps, qs, hrun, hinfo, -⟩ := renamed_tracked ha
    (fun conn t q rep x => Storable rd conn t rep ∧ NameKept t q x)
    (fun _ _ _ _ hs hk => ⟨hs, hk (by decide)⟩) (letter_wire 0x61 rfl) longName_wire
    (by decide +kernel) (by decide +kernel) (by decide +kernel) (by decide +kernel) hname
  have hadded : (addField tableConn (renamedTable [0x61] longName) (some ([0x61], false))
      ⟨false, [0x63]⟩).info = ⟨2, 196, 4096, 0, 0⟩ := by
    decide +kernel
  exact ⟨maps, qs, hrun, hinfo.trans hadded⟩

theorem size_renamed : ∃ (rd : Rodata) (maps : Maps) (qs : Decoders), Attached huffmanCode [] rd ∧
    (maps.infoOf tableConn).count = 2 ∧ ((maps.infoOf tableConn).dirty ≠ 0 ∨
      (maps.infoOf tableConn).size = total HeaderField.size (qs tableConn).items) := by
  obtain ⟨rd, ha⟩ : ∃ rd, Attached huffmanCode [] rd := attached_exists fun s => ⟨_, rfl⟩
  obtain ⟨maps, qs, hrun, hinfo⟩ := renamed_sized ha
  exact ⟨rd, maps, qs, ha, by rw [hinfo], tracked_size ha (hrun.accepted ha.readsReps) tableConn⟩

/-- In such a run of blocks that end within what is read, a table that is not the one its decoder keeps
is dirty. -/
theorem tracked_inStep (ha : Attached huffmanCode captures rd)
    (h : Tracked rd Unchanging Readable
      (fun conn t q rep x => Storable rd conn t rep ∧ NameKept t q x) maps qs) (conn : Ip4Conn)
    (hd : (maps.infoOf conn).dirty = 0) : InStep rd conn (maps.tableOf conn) (qs conn) :=
  ((h.accepted ha.readsReps).sized ha conn).mirrored.inStep hd ha

/-- A block that is refused for its size may have added an entry, and the table is not dirty. -/
theorem inStep_lost : ∃ rd maps qs, Attached huffmanCode [] rd ∧
    Tracked rd Unchanging (fun _ _ _ _ p => p.ret = .error .E2BIG)
      (fun conn t q rep x => Storable rd conn t rep ∧ NameKept t q x) maps qs ∧
        (maps.infoOf tableConn).dirty = 0 ∧
          ¬InStep rd tableConn (maps.tableOf tableConn) (qs tableConn) := by
  obtain ⟨rd, ha⟩ : ∃ rd, Attached huffmanCode [] rd := attached_exists fun s => ⟨_, rfl⟩
  have hlen := longBlock_length (2 ^ 15)
  obtain ⟨hret, hmaps⟩ := @readBlock_tooBig rd .init tableConn (longBlock (2 ^ 15))
    (by rw [hlen]; decide) (by rw [hlen]; decide)
  have hrun : Tracked rd Unchanging (fun _ _ _ _ p => p.ret = .error .E2BIG)
      (fun conn t q rep x => Storable rd conn t rep ∧ NameKept t q x) _ _ :=
    Tracked.init.read (longBlock_wire _) (by rw [hlen]; decide) hret (by decide)
      (longBlock_decodes _) ((longBlock_along rd _).mono fun t q rep x _ h => ⟨h.1, h.2.2⟩)
  rw [hmaps] at hrun
  refine ⟨rd, .init, _, ha, hrun, rfl, fun hin => ?_⟩
  have hcount := hin.count
  rw [Function.update_self] at hcount
  exact absurd hcount (by decide)

theorem inStep_renamed : ∃ (rd : Rodata) (maps : Maps) (qs : Decoders), Attached huffmanCode [] rd ∧
    (maps.infoOf tableConn).count = 2 ∧ InStep rd tableConn (maps.tableOf tableConn) (qs tableConn) := by
  obtain ⟨rd, ha⟩ : ∃ rd, Attached huffmanCode [] rd := attached_exists fun s => ⟨_, rfl⟩
  obtain ⟨maps, qs, hrun, hinfo⟩ := renamed_sized ha
  exact ⟨rd, maps, qs, ha, by rw [hinfo], tracked_inStep ha hrun tableConn (by rw [hinfo])⟩

/-- The maps once `parse_msg` read a SETTINGS frame with a HEADER_TABLE_SIZE of `v`. -/
def announced (rd : Rodata) (v : UInt8) : Maps :=
  (parseMsg rd .init (linearMsg (tableSizeFrame v) tableConn true) .zero (newHttp2Frame [] 0)).maps

end Beeper.Http2
