import Beeper.BlockMirror
import Beeper.Refusals

namespace Beeper.Http2

open HeaderDecoder (Instr lookup)

/-- The table of `conn`, which is empty as long as nothing was read. -/
def Maps.tableOf (maps : Maps) (conn : Ip4Conn) : DynamicTable := maps.table (maps.infoOf conn)

theorem Maps.tableOf_info (maps : Maps) (conn : Ip4Conn) :
    (maps.tableOf conn).info = maps.infoOf conn := rfl

/-- The tables that the decoders of all connections keep. -/
abbrev Decoders := Ip4Conn → HeaderTable Coded

/-- The table a decoder starts with. -/
def newDecoder : HeaderTable Coded := .new _ 4096

/-- A call of either hook, by its connection, the type of the frame it starts with, and the size of
the table that it announces. -/
inductive Called (rd : Rodata) (maps : Maps) : Ip4Conn → Nat → Option Nat → Parsed → Prop
  | msg (msg : SkMsg) (pres : HttpParseRes) (frame : Http2Frame) :
      Called rd maps msg.conn (hdrType msg.bytes 0) (msgTableSize msg)
        (parseMsg rd maps msg pres frame).toParsed
  | skb (skb : SkBuff) (off : Nat) (pres : HttpParseRes) (frame : Http2Frame) (p : Option Nat) :
      Called rd maps skb.conn (hdrType skb.bytes off) (skbTableSize skb off p)
        (parseSkb rd maps skb off pres frame p).toParsed

/-- A message that carries a header block of whole representations, on a stream. -/
structure Carried (b : Sent) (reps : List Rep) : Prop where
  sid : b.sid ≠ 0
  sized : b.Sized
  wire : BlockWire id reps b.block

/-- The parser accepts what was sent. -/
def Accepted (_ : Maps) (_ : Ip4Conn) (_ : Nat) (_ : Sent) (p : Parsed) : Prop := ∃ n, p.ret = .ok n

/-- The parser accepts what was sent, and can tell the end of the block. -/
def AcceptedWhole (maps : Maps) (conn : Ip4Conn) (off : Nat) (b : Sent) (p : Parsed) : Prop :=
  Accepted maps conn off b p ∧ b.EndFits

/-- What was sent ends within what is read, and there is a table for it. -/
structure Readable (maps : Maps) (conn : Ip4Conn) (off : Nat) (b : Sent) (_ : Parsed) : Prop where
  fits : b.FitsAt off
  room : (maps.dynamicTableInfo.lookup conn).isSome ∨ maps.dynamicTableInfo.card < mapMaxEntries

/-- The states of the maps that the valid messages of any connections lead to, along with the tables
that the decoders of these connections keep by then: each message with a header block comes to
something that meets `blk` and consists of representations that meet `ok`, and what other messages
announce meets `stg`. -/
inductive Tracked (rd : Rodata) (stg : DynamicTableInfo → Option Nat → Prop)
    (blk : Maps → Ip4Conn → Nat → Sent → Parsed → Prop)
    (ok : Ip4Conn → DynamicTable → HeaderTable Coded → Rep → Instr Coded → Prop) :
    Maps → Decoders → Prop
  | init : Tracked rd stg blk ok .init fun _ => newDecoder
  | block {maps : Maps} {qs : Decoders} {b : Sent} {conn : Ip4Conn} {off : Nat} {p : Parsed}
      {value : Nat → Except Errno Bytes} {limit : Nat} {reps : List Rep} {xs : List (Instr Coded)}
      {q : HeaderTable Coded} {fs : List (HeaderField Coded)} (h : Tracked rd stg blk ok maps qs)
      (hk : Hooked rd maps b conn off p value) (hc : Carried b reps) (hb : blk maps conn off b p)
      (hlimit : limit < 2 ^ 32) (hd : Decodes limit (qs conn) reps xs q fs)
      (hok : Along rd conn limit (ok conn) (maps.tableOf conn) (qs conn) reps xs) :
      Tracked rd stg blk ok p.maps (Function.update qs conn q)
  | other {maps : Maps} {qs : Decoders} {conn : Ip4Conn} {type : Nat} {ann : Option Nat} {p : Parsed}
      (h : Tracked rd stg blk ok maps qs) (hc : Called rd maps conn type ann p)
      (ht : type ≠ http2HeadersFrame) (hs : stg (maps.infoOf conn) ann) :
      Tracked rd stg blk ok p.maps qs
  | refused {maps : Maps} {qs : Decoders} {conn : Ip4Conn} {type : Nat} {ann : Option Nat}
      {p : Parsed} (h : Tracked rd stg blk ok maps qs) (hc : Called rd maps conn type ann p)
      (hr : p.ret = .error .EAGAIN ∨ p.ret = .error .EPROTO) : Tracked rd stg blk ok p.maps qs
  | forget {maps maps' : Maps} {qs : Decoders} (h : Tracked rd stg blk ok maps qs) (conn : Ip4Conn)
      (hf : forgetConn maps conn = some maps') :
      Tracked rd stg blk ok maps' (Function.update qs conn newDecoder)

/-- An announcement that leaves the maximum size as it is. -/
def Unchanging (info : DynamicTableInfo) (ann : Option Nat) : Prop :=
  ∀ n, ann = some n → n = info.maxSize

variable {rd : Rodata} {captures : List (Bytes × MatchId)} {maps maps' m : Maps} {qs : Decoders}
  {b : Sent} {conn c : Ip4Conn} {p : Parsed} {value : Nat → Except Errno Bytes} {reps : List Rep}
  {xs : List (Instr Coded)} {q q' : HeaderTable Coded} {fs : List (HeaderField Coded)} {limit off : Nat}
  {info : DynamicTableInfo} {t t' : DynamicTable} {type : Nat} {ann : Option Nat}
  {stg : DynamicTableInfo → Option Nat → Prop}
  {blk : Maps → Ip4Conn → Nat → Sent → Parsed → Prop}
  {ok : Ip4Conn → DynamicTable → HeaderTable Coded → Rep → Instr Coded → Prop}

/-- The table `t'` of `conn` is the table `t`, whatever entries other connections have. -/
structure SameTable (conn : Ip4Conn) (t t' : DynamicTable) : Prop where
  info : t'.info = t.info
  entries : ∀ idx, t'.entries.lookup ⟨conn, idx⟩ = t.entries.lookup ⟨conn, idx⟩

theorem SameConn.table (h : SameConn conn maps maps') :
    SameTable conn (maps.tableOf conn) (maps'.tableOf conn) :=
  ⟨h.infoOf, h.entries⟩

theorem SameTables.sameConn (h : SameTables maps maps') (conn : Ip4Conn) : SameConn conn maps maps' :=
  ⟨by rw [h.infos], fun idx => by rw [h.entries]⟩

theorem SameTables.storeOk (h : SameTables maps maps') (hs : StoreOk maps) : StoreOk maps' :=
  ⟨fun c => (h.sameConn c).stored (hs.stored c), h.errors.trans hs.errors⟩

theorem getDynamicTable_tableOf (h : getDynamicTable maps conn = (some info, m)) :
    m.table info = maps.tableOf conn := by
  obtain ⟨he, hr, -, -, hi, -⟩ := getDynamicTable_some h
  unfold Maps.tableOf Maps.table
  rw [he, hr, hi]
  rfl

theorem setTable_tableOf (h : getDynamicTable maps conn = (some info, m)) (t : DynamicTable) :
    (m.setTable conn t).tableOf conn = t := by
  obtain ⟨-, -, -, hl, -, -⟩ := getDynamicTable_some h
  rw [Maps.tableOf, Maps.infoOf, setTable_lookup hl]
  rfl

theorem SameTables.tableOf (h : SameTables maps maps') (conn : Ip4Conn) :
    maps'.tableOf conn = maps.tableOf conn := by
  unfold Maps.tableOf Maps.table Maps.infoOf
  rw [h.entries, h.infos, h.errors]

theorem Called.step (h : Called rd maps conn type ann p) :
    MapsStep conn (type = http2HeadersFrame) ann maps p.maps := by
  cases h with
  | msg msg pres frame => exact parseMsg_step rd maps msg pres frame
  | skb skb off pres frame np => exact parseSkb_step rd maps skb off pres frame np

theorem Called.refused (h : Called rd maps conn type ann p)
    (hr : p.ret = .error .EAGAIN ∨ p.ret = .error .EPROTO) : SameTables maps p.maps := by
  have hlate : ∃ e, p.ret = .error e ∧ ¬LateError e := by
    rcases hr with hr | hr
    · exact ⟨_, hr, fun hl => hl.ne.1 rfl⟩
    · exact ⟨_, hr, fun hl => hl.ne.2.1 rfl⟩
  obtain ⟨e, he, hl⟩ := hlate
  cases h with
  | msg msg pres frame => exact (parseMsg_refused he hl).tables
  | skb skb off pres frame np => exact (parseSkb_refused he hl).tables

theorem Hooked.step (h : Hooked rd maps b conn off p value) :
    ∃ header ann, MapsStep conn header ann maps p.maps := by
  cases h with
  | @msg msg post r frame hm h9 hpull hp =>
    rw [hp]
    exact ⟨_, _, parseMsg_step rd maps msg .zero frame⟩
  | @skb skb pre post r frame hs hpull hp =>
    rw [hp]
    exact ⟨_, _, parseSkb_step rd maps skb pre.length .zero frame none⟩

/-- A call that starts with no header block changes a maximum size at most. -/
theorem MapsStep.other {header : Prop} (h : MapsStep conn header ann maps maps') (hh : ¬header) :
    maps'.tableOf conn = maps.tableOf conn ∨
      maps'.tableOf conn = (maps.tableOf conn).setMaxSize (ann.getD (maps.infoOf conn).maxSize) := by
  cases h with
  | same buf => exact .inl rfl
  | walk hheader _ _ _ => exact absurd hheader hh
  | @settings info m hg =>
    obtain ⟨-, -, -, -, hi, -⟩ := getDynamicTable_some hg
    refine .inr ?_
    rw [setTable_tableOf hg, getDynamicTable_tableOf hg, hi]
    rfl

/-- What an accepted message with a header block does to the table of its connection. -/
theorem Hooked.tableOf (hk : Hooked rd maps b conn off p value) (hrd : ReadsReps rd)
    (hc : Carried b reps) (hb : AcceptedWhole maps conn off b p) : (∀ rep ∈ reps, rep.Short) ∧
      ∃ info m, getDynamicTable maps conn = (some info, m) ∧
        SameTables (m.setTable conn
          (blockMeaning rd conn reps (maps.tableOf conn) fun _ => none).1) p.maps ∧
        ∀ idx, value idx = valueAt rd conn p.maps.dynamicTable
          (blockMeaning rd conn reps (maps.tableOf conn) fun _ => none).2 idx := by
  obtain ⟨⟨n, hret⟩, hend⟩ := hb
  obtain ⟨hfit, hreads⟩ := hk.accepted hrd hc.sid hc.sized hend hret hc.wire
  refine ⟨(hc.wire.fits hfit).short, ?_⟩
  cases hg : getDynamicTable maps conn with
  | mk found m =>
    cases found with
    | none =>
      have hfull := (hreads.full m hg).1
      rw [hret] at hfull
      cases hfull
    | some info =>
      obtain ⟨-, hsame, hvalue⟩ := hreads.read info m hg
      rw [getDynamicTable_tableOf hg] at hsame hvalue
      exact ⟨info, m, rfl, hsame, hvalue⟩

theorem getDynamicTable_room (h : (maps.dynamicTableInfo.lookup conn).isSome ∨
    maps.dynamicTableInfo.card < mapMaxEntries) :
    ∃ info m, getDynamicTable maps conn = (some info, m) := by
  cases hi : maps.dynamicTableInfo.lookup conn with
  | some info => exact ⟨info, maps, by unfold getDynamicTable; rw [hi]⟩
  | none =>
    obtain ⟨infos, hu⟩ := BoundedMap.update_isSome (v := DynamicTableInfo.new) h
    have hl := BoundedMap.lookup_update hu conn
    rw [if_pos rfl] at hl
    refine ⟨.new, { maps with dynamicTableInfo := infos }, ?_⟩
    unfold getDynamicTable
    simp only [hi, hu, Option.getD_some, hl]

theorem Sent.FitsAt.endFits (h : b.FitsAt off) : b.EndFits := by
  cases b with
  | whole w =>
    have hle : off + w.stop ≤ maxBytes := h
    show w.stop < 2 ^ 16
    unfold maxBytes at hle
    omega
  | cut f => exact trivial

/-- What ends within what is read is accepted. -/
theorem Readable.accepted (hr : Readable maps conn off b p) (hk : Hooked rd maps b conn off p value)
    (hrd : ReadsReps rd) (hc : Carried b reps) : AcceptedWhole maps conn off b p := by
  obtain ⟨info, m, hg⟩ := getDynamicTable_room hr.room
  obtain ⟨hret, -, -⟩ := (hk.reads hrd hc.sid hc.sized hr.fits hc.wire).read info m hg
  exact ⟨⟨_, hret⟩, hr.fits.endFits⟩

/-- Runs of messages that the parser reads are runs of messages that it accepts. -/
theorem Tracked.accepted (hrd : ReadsReps rd) (h : Tracked rd stg Readable ok maps qs) :
    Tracked rd stg AcceptedWhole ok maps qs := by
  induction h with
  | init => exact .init
  | block h hk hc hb hlimit hd hok ih =>
    exact ih.block hk hc (hb.accepted hk hrd hc) hlimit hd hok
  | other h hc ht hs ih => exact ih.other hc ht hs
  | refused h hc hr ih => exact ih.refused hc hr
  | forget h conn hf ih => exact ih.forget conn hf

/-- What holds of new tables and is kept by every block and every announcement holds in every run. -/
theorem Tracked.invariant {I : Ip4Conn → DynamicTable → HeaderTable Coded → Prop}
    (hsame : ∀ {c t t' q}, SameTable c t t' → I c t q → I c t' q)
    (hnew : ∀ {c t}, t.info = .new → (∀ idx, t.entries.lookup ⟨c, idx⟩ = none) → I c t newDecoder)
    (hstg : ∀ {c t q ann}, stg t.info ann → I c t q →
      I c (t.setMaxSize (ann.getD t.info.maxSize)) q)
    (hblock : ∀ {c limit t q reps xs q' fs}, I c t q → Decodes limit q reps xs q' fs →
      (∀ rep ∈ reps, rep.Short) → limit < 2 ^ 32 → Along rd c limit (ok c) t q reps xs →
      I c (blockMeaning rd c reps t fun _ => none).1 q')
    (hrd : ReadsReps rd) (h : Tracked rd stg AcceptedWhole ok maps qs) :
    StoreOk maps ∧ ∀ c, I c (maps.tableOf c) (qs c) := by
  induction h with
  | init => exact ⟨.init, fun c => hnew rfl fun _ => BoundedMap.lookup_empty _⟩
  | @block maps qs b conn off p value limit reps xs q fs h hk hc hb hlimit hd hok ih =>
    obtain ⟨hs, hI⟩ := ih
    obtain ⟨header, ann, hstep⟩ := hk.step
    obtain ⟨hs', hother⟩ := hstep.storeOk hs
    obtain ⟨hshort, info, m, hg, hread, -⟩ := hk.tableOf hrd hc hb
    refine ⟨hs', fun c => ?_⟩
    by_cases hcc : c = conn
    · subst hcc
      rw [Function.update_self, hread.tableOf, setTable_tableOf hg]
      exact hblock (hI c) hd hshort hlimit hok
    · rw [Function.update_of_ne hcc]
      exact hsame (hother c hcc).table (hI c)
  | @other maps qs conn type ann p h hc ht hann ih =>
    obtain ⟨hs, hI⟩ := ih
    obtain ⟨hs', hother⟩ := hc.step.storeOk hs
    refine ⟨hs', fun c => ?_⟩
    by_cases hcc : c = conn
    · subst hcc
      rcases hc.step.other ht with htable | htable
      · rw [htable]
        exact hI c
      · rw [htable]
        exact hstg hann (hI c)
    · exact hsame (hother c hcc).table (hI c)
  | refused h hc hr ih =>
    have hsame' := hc.refused hr
    refine ⟨hsame'.storeOk ih.1, fun c => ?_⟩
    rw [hsame'.tableOf]
    exact ih.2 c
  | @forget maps maps' qs h conn hf ih =>
    obtain ⟨hn, he, hother, -⟩ := forgetConn_spec ih.1 hf
    refine ⟨forgetConn_storeOk ih.1 hf, fun c => ?_⟩
    by_cases hcc : c = conn
    · subst hcc
      rw [Function.update_self]
      refine hnew ?_ he
      show maps'.infoOf c = .new
      unfold Maps.infoOf
      rw [hn]
      rfl
    · rw [Function.update_of_ne hcc]
      exact hsame (hother c hcc).table (ih.2 c)

theorem SameTable.holds (h : SameTable conn t t') {items : List DynamicTableEntry}
    (hi : Holds conn t items) : Holds conn t' items := by
  refine ⟨?_, ?_, ?_, hi.sizes, ?_⟩
  · rw [h.info]
    exact hi.store.ext h.entries
  · rw [h.info]
    exact hi.count
  · rw [h.info]
    exact hi.size
  · rw [h.info]
    exact hi.deleted_lt

theorem SameTable.mirrored (h : SameTable conn t t') (hm : Mirrored conn t q) : Mirrored conn t' q := by
  obtain ⟨items, hi, hrel⟩ := hm
  exact ⟨items, h.holds hi, fun hd => hrel (h.info ▸ hd)⟩

theorem mirrored_new (hi : t.info = .new) (he : ∀ idx, t.entries.lookup ⟨conn, idx⟩ = none) :
    Mirrored conn t newDecoder := by
  refine ⟨[], ⟨RingStore.holds_nil he, ?_, ?_, fun e hm => absurd hm List.not_mem_nil, ?_⟩,
    fun _ => .nil⟩
  · rw [hi]
    rfl
  · rw [hi]
    rfl
  · rw [hi]
    decide

theorem Mirrored.setMaxSize (h : Mirrored conn t q) (n : Nat) : Mirrored conn (t.setMaxSize n) q := by
  obtain ⟨items, hi, hrel⟩ := h
  exact ⟨items, hi.setMaxSize n, hrel⟩

theorem Unchanging.setMaxSize (h : Unchanging t.info ann) :
    t.setMaxSize (ann.getD t.info.maxSize) = t := by
  cases ann with
  | none => rfl
  | some n =>
    rw [Option.getD_some, h n rfl]
    rfl

end Beeper.Http2
