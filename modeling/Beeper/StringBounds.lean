import Beeper.HookWalks
import Beeper.IndexWraps
import Beeper.MirrorRuns
import Beeper.UniqueWire

namespace Beeper.Http2

variable {rd : Rodata} {v : View} {block : Bytes} {t : DynamicTable} {items : List DynamicTableEntry}
  {c : UInt8} {sa sb : HdrState} {e : Option Errno}

/-- A string that is captured comes behind all that was captured before. -/
theorem Shows.ne_at {front : Bytes} {m : HttpMatch} {cap : Option Capture} (h : Shows v front m cap)
    {i len : Nat} {huff : Bool} (hi : front.length < i) (hs : v.base + i < 2 ^ 16)
    (hsrc : v.src ≠ .table) : v.at i len huff ≠ m := by
  have hidx : (v.at i len huff).idx.toNat = v.base + i := toNat_ofNat_of_lt hs
  cases h with
  | unset =>
    intro heq
    rw [heq] at hidx
    exact Nat.ne_of_lt (show 0 < v.base + i by omega) hidx
  | entry => exact fun heq => hsrc (congrArg HttpMatch.source heq)
  | @str j s hp hj hslice hl =>
    intro heq
    rw [heq, View.at, toNat_ofNat_of_lt (by omega)] at hidx
    omega

theorem ValueAt.start_bounds (f : ValueAt block) :
    f.front.length < f.start ∧ f.start ≤ block.length := by
  have hint := List.length_pos_iff.mpr f.wire.ne_nil
  have hblock := congrArg List.length f.split
  simp only [ValueAt.start, List.length_append] at hblock ⊢
  omega

/-- The byte `c` behind `pre` is the last one of the length. -/
def ValueAt.EndsAt (f : ValueAt block) (pre : Bytes) (c : UInt8) : Prop :=
  f.front ++ (f.opening ++ f.int) = pre ++ [c]

theorem ValueAt.EndsAt.split {f : ValueAt block} {pre : Bytes} (h : f.EndsAt pre c) :
    block = pre ++ c :: f.back :=
  calc block = f.front ++ (f.opening ++ (f.int ++ f.back)) := f.split
    _ = f.front ++ (f.opening ++ f.int) ++ f.back := by simp only [List.append_assoc]
    _ = pre ++ c :: f.back := by rw [show _ = pre ++ [c] from h, List.append_assoc]; rfl

/-- The parser records the value at the last byte of its length if the name of the field is captured,
and adds the field if it can read the value there. -/
theorem ValueAt.writes (f : ValueAt block) (hrd : ReadsReps rd) (hv : Legible rd v block)
    (hi : Holds v.ctx.conn t items) : ∃ pre c sa sb, f.EndsAt pre c ∧
      feed rd v.ctx v.buf (pre.zipIdx v.base) ⟨t, .zero, newHttp2ParseState v.src⟩ = (none, sa) ∧
      feed rd v.ctx v.buf ((pre ++ [c]).zipIdx v.base) ⟨t, .zero, newHttp2ParseState v.src⟩ =
        (none, sb) ∧ (Writes sa sb ↔ f.Taken rd v t) := by
  obtain ⟨pres, key, st, ps, hbefore, hst, hafter, hkey, hshows⟩ := f.reads hrd hv t
  generalize hsb : (⟨added rd v.ctx v.buf _ _ key (f.located v), _, ps⟩ : HdrState) = sb at hafter
  obtain ⟨int, c, hint⟩ := List.eq_nil_or_concat f.int |>.resolve_left f.wire.ne_nil
  rw [List.concat_eq_append] at hint
  obtain ⟨ps', hfront⟩ := feed_int_front v.ctx v.buf hrd (valLenRow f.huff) f.wire
    (v.base + (f.front ++ f.opening).length) hst.s hst.skip hint (List.cons_ne_nil c [])
  have hends : f.EndsAt (f.front ++ f.opening ++ int) c := by
    rw [ValueAt.EndsAt, hint]
    simp only [List.append_assoc]
  have hsa : feed rd v.ctx v.buf ((f.front ++ f.opening ++ int).zipIdx v.base)
      ⟨t, .zero, newHttp2ParseState v.src⟩ = (none, ⟨st.table, st.pres, ps'⟩) := by
    rw [List.zipIdx_append, feed_append, hbefore]
    exact hfront
  have hfeed : feed rd v.ctx v.buf ((f.front ++ f.opening ++ int ++ [c]).zipIdx v.base)
      ⟨t, .zero, newHttp2ParseState v.src⟩ = (none, sb) := by
    rw [← hends, ← List.append_assoc, List.zipIdx_append, feed_append, hbefore]
    exact hafter
  refine ⟨_, c, _, sb, hends, hsa, hfeed, ?_⟩
  obtain ⟨new, d, -, hsl⟩ := @blockMeaning_slid v.ctx.conn t items rd (fun _ => none) f.reps hi
    f.fields.short
  obtain ⟨hlt, hle⟩ := f.start_bounds
  have hsmall := hv.small
  have hfresh : ∀ i, f.located v ≠ pres.ms i := fun i =>
    (hshows i).elim fun _ h => h.ne_at hlt (by omega) hv.src
  have hadds := @Holds.adds_iff rd v.ctx v.buf _ _ hsl.holds key (f.located v)
  unfold Writes ValueAt.Taken
  rw [← hsb, hst.table, hst.pres]
  refine or_congr ?_ ?_
  · cases nameCapture rd v.ctx.conn (f.table rd v.ctx.conn t) f.name with
    | none => simp [captured]
    | some mid =>
      simp only [captured, ne_eq, reduceCtorEq, not_false_eq_true, iff_true]
      have hset : (pres.set mid (f.located v)).ms (Fin.ofNat maxMatches mid) = f.located v :=
        Function.update_self ..
      refine ⟨Fin.ofNat maxMatches mid, ?_, ?_⟩
      · rw [hset]
        exact hfresh _
      · rw [hset]
        exact hv.src
  · unfold added
    by_cases hmode : f.mode = .incremental
    · simp only [hmode, decide_true, if_true, true_and]
      rw [← hkey]
      exact hadds
    · simp only [hmode, decide_false, Bool.false_eq_true, if_false, false_and, iff_false, not_not]
      exact newEntries_self _

/-- The value of a captured name is recorded however few of its bytes are in the block. -/
theorem ValueAt.recorded (f : ValueAt block) (hrd : ReadsReps rd) (hv : Legible rd v block)
    (t : DynamicTable) (hback : f.back = []) {mid : Nat}
    (hcap : nameCapture rd v.ctx.conn (f.table rd v.ctx.conn t) f.name = some mid) :
    ∃ st, feed rd v.ctx v.buf (block.zipIdx v.base) ⟨t, .zero, newHttp2ParseState v.src⟩ = (none, st) ∧
      st.pres.get mid = f.located v := by
  obtain ⟨pres, key, st, ps, hbefore, -, hafter, -, -⟩ := f.reads hrd hv t
  have hsplit : block = f.front ++ f.opening ++ f.int := by
    rw [List.append_assoc, ← List.append_nil f.int, ← hback]
    exact f.split
  have hbytes : block.zipIdx v.base = (f.front ++ f.opening).zipIdx v.base ++
      f.int.zipIdx (v.base + (f.front ++ f.opening).length) :=
    (congrArg (List.zipIdx · v.base) hsplit).trans List.zipIdx_append
  rw [hcap] at hafter
  have hwhole : feed rd v.ctx v.buf (block.zipIdx v.base) ⟨t, .zero, newHttp2ParseState v.src⟩ =
      feed rd v.ctx v.buf (f.int.zipIdx (v.base + (f.front ++ f.opening).length)) st := by
    rw [hbytes, feed_append, hbefore]
  exact ⟨_, hwhole.trans hafter, Function.update_self ..⟩

/-- The fields of a block are read one after another. -/
theorem feed_fields (hrd : ReadsReps rd) (hi : Holds v.ctx.conn t items) {front : Bytes}
    (hf : Complete readLen front) : ∃ t' pres st items',
      feed rd v.ctx v.buf (front.zipIdx v.base) ⟨t, .zero, newHttp2ParseState v.src⟩ = (none, st) ∧
        AtField v.src t' pres st ∧ Holds v.ctx.conn t' items' := by
  obtain ⟨t', pres, st, hfeed, hst⟩ := feed_complete hrd hf v.ctx v.buf v.base
    (show AtField v.src t .zero ⟨t, .zero, newHttp2ParseState v.src⟩ from ⟨rfl, rfl, rfl, rfl, rfl⟩)
  have hwalk := feed_walk rd v.ctx v.buf (front.zipIdx v.base) ⟨t, .zero, newHttp2ParseState v.src⟩
  rw [hfeed] at hwalk
  obtain ⟨items', hi'⟩ := (hwalk.holds hi).1
  exact ⟨t', pres, st, items', hfeed, hst, hst.table ▸ hi'⟩

/-- The index 0 changes nothing. -/
theorem zeroIndex_not_writes (hrd : ReadsReps rd) {src : HttpMatchSource} {pres : HttpParseRes}
    (h : AtField src t pres sa) {ctx : MsgCtx} {buf : BlockBuf} {base : Nat}
    (hf : feed rd ctx buf [(0x80, base)] sa = (e, sb)) : ¬Writes sa sb := by
  have he := parseHdrByte_rep ctx buf hrd { sa with ps := { sa.ps with i := base } } 0x80 (t := sDead)
    (a := ⟨.err, 0, 0⟩) (by simp only [h.s]; decide) h.skip (by simp only [h.s]; decide)
  simp only [reduceCtorEq, if_false, runAction] at he
  rw [feed_single, he] at hf
  obtain ⟨-, rfl⟩ := Prod.mk.inj hf
  rintro (⟨j, hne, -⟩ | hnew)
  · exact hne rfl
  · exact hnew (newEntries_self _)

/-- Strings are recorded and entries are added at the length of a value only. -/
theorem writes_valueAt (hrd : ReadsReps rd) (hi : Holds v.ctx.conn t items) {pre post : Bytes}
    (hb : block = pre ++ c :: post)
    (ha : feed rd v.ctx v.buf (pre.zipIdx v.base) ⟨t, .zero, newHttp2ParseState v.src⟩ = (none, sa))
    (hstep : feed rd v.ctx v.buf ((pre ++ [c]).zipIdx v.base)
      ⟨t, .zero, newHttp2ParseState v.src⟩ = (e, sb)) (hw : Writes sa sb) :
    ∃ f : ValueAt block, f.EndsAt pre c := by
  have hpart {reps : List Rep} {more : Bytes} (hwire : BlockWire readLen reps (pre ++ c :: more)) :
      ∃ f : ValueAt block, f.EndsAt pre c := by
    obtain ⟨reps', front, part, rep, rest, rfl, hreps, hrep⟩ := hwire.at
    obtain ⟨t', pres, st, items', hfeed, hst, hi'⟩ := @feed_fields rd v t items hrd hi front
      ⟨reps', hreps⟩
    rw [List.zipIdx_append, feed_append, hfeed] at ha
    rw [List.append_assoc, List.zipIdx_append, feed_append, hfeed] at hstep
    obtain ⟨mode, name, nameLength, opening, huff, n, int, hopens, hint, hsplit⟩ :=
      hrep.writes hrd hst hi' ha hstep hw
    refine ⟨⟨reps', front, mode, name, nameLength, opening, huff, n, int, post, hreps, hopens, hint,
      ?_⟩, ?_⟩
    · rw [hb, ← List.append_assoc opening, ← hsplit]
      simp only [List.append_assoc, List.singleton_append]
    · show front ++ (opening ++ int) = front ++ part ++ [c]
      rw [← hsplit, List.append_assoc]
  rcases block_cases readLen (pre ++ [c]) with ⟨reps, hwire⟩ | ⟨more, -, reps, hwire⟩ |
    ⟨front, back, hf, hzero⟩
  · exact hpart hwire
  · rw [List.append_assoc] at hwire
    exact hpart hwire
  · exfalso
    obtain ⟨t', pres, st, -, hfeed, hst, -⟩ := @feed_fields rd v t items hrd hi front hf
    rcases append_cons_cases hzero with ⟨m, rfl, -⟩ | ⟨m, rfl, hm⟩
    · have hbad := feed_zeroIndex hrd ⟨front, m, hf, rfl⟩ v.ctx v.buf v.base
        (show AtField v.src t .zero ⟨t, .zero, newHttp2ParseState v.src⟩ from ⟨rfl, rfl, rfl, rfl, rfl⟩)
      rw [ha] at hbad
      cases hbad
    · cases m with
      | cons d m => simp at hm
      | nil =>
        obtain ⟨rfl, rfl⟩ := List.cons.inj hm
        rw [List.append_nil] at hfeed
        rw [ha] at hfeed
        obtain ⟨-, rfl⟩ := Prod.mk.inj hfeed
        rw [List.zipIdx_append, feed_append, ha] at hstep
        exact zeroIndex_not_writes hrd hst hstep hw

/-- A field is only ever made of the bytes of its own block: whenever the parser records a string of
the block, or adds an entry, it is at the length of a value, and neither the value nor the name in
front of it is announced to be longer than what is left of the block then. -/
def Confined (rd : Rodata) (v : View) (t : DynamicTable) (block : Bytes) (unread : Nat) : Prop :=
  ∀ pre c post e sa sb, block = pre ++ c :: post →
    feed rd v.ctx v.buf (pre.zipIdx v.base) ⟨t, .zero, newHttp2ParseState v.src⟩ = (none, sa) →
    feed rd v.ctx v.buf ((pre ++ [c]).zipIdx v.base) ⟨t, .zero, newHttp2ParseState v.src⟩ =
      (e, sb) → Writes sa sb →
    (∃ f : ValueAt block, f.EndsAt pre c) ∧ ∀ f : ValueAt block, f.EndsAt pre c → f.Inside unread

theorem confined_iff (hrd : ReadsReps rd) (hv : Legible rd v block) (hi : Holds v.ctx.conn t items)
    (unread : Nat) : Confined rd v t block unread ↔
      ∀ f : ValueAt block, f.Taken rd v t → f.Inside unread := by
  constructor
  · intro h f htaken
    obtain ⟨pre, c, sa, sb, hends, ha, hb, hwrites⟩ := f.writes hrd hv hi
    exact (h pre c f.back none sa sb hends.split ha hb (hwrites.mpr htaken)).2 f hends
  · intro h pre c post e sa sb hsplit ha hb hw
    refine ⟨writes_valueAt hrd hi hsplit ha hb hw, fun f hends => h f ?_⟩
    obtain ⟨pre', c', sa', sb', hends', ha', hb', hwrites⟩ := f.writes hrd hv hi
    obtain ⟨rfl, hc⟩ := List.append_inj' (hends.symm.trans hends') rfl
    obtain rfl := List.singleton_inj.mp hc
    obtain ⟨-, rfl⟩ := Prod.mk.inj (ha.symm.trans ha')
    obtain ⟨-, rfl⟩ := Prod.mk.inj (hb.symm.trans hb')
    exact hwrites.mp hw

/-- What a hook reads of a header block is confined to it, unless it captures or adds a field with a
string that is announced to be longer than what is left of the block. -/
theorem parse_confined_iff {encode : Bytes → Option Bytes} {captures : List (Bytes × MatchId)}
    (ha : Attached encode captures rd) {maps : Maps} {ins : Ip4Conn → Nat} (hr : Run rd maps ins)
    {b : Sent} {conn : Ip4Conn} {off : Nat} {p : Parsed} {value : Nat → Except Errno Bytes}
    (hk : Hooked rd maps b conn off p value) (hs : b.Sized) :
    ((∃ e, p.ret = .error e) ∧ Untouched maps .zero p) ∨
      ∃ v k total, v.ctx.conn = conn ∧ (b.EndFits → k = b.block.length) ∧
        Legible rd v (b.block.take k) ∧ BlockRead rd maps (b.block.take k) total v p ∧
        ∀ info m, getDynamicTable maps conn = (some info, m) →
          (Confined rd v (m.table info) (b.block.take k) (b.block.length - k) ↔
            ∀ f : ValueAt (b.block.take k), f.Taken rd v (m.table info) →
              f.Inside (b.block.length - k)) := by
  cases hk.walks hs with
  | refused hret hu => exact .inl ⟨⟨_, hret⟩, hu⟩
  | read v k total hconn hall hv h =>
    refine .inr ⟨v, k, total, hconn, hall, hv, h, fun info m hg => ?_⟩
    obtain ⟨items, hi⟩ := (hr.invariant.1.stored conn).holds hg
    subst hconn
    exact confined_iff ha.readsReps hv hi _

theorem fivePadding_lt : ([0, 0, 0, 0, 0] : Bytes).length < 256 := by
  decide

/-- A header block in a padded frame. -/
def paddedFrame (block : Bytes) : Whole where
  head := ⟨1, 0xc, false, 1, firstStream_lt⟩
  payload := ⟨(plainFrame []).payload.priority, block, [0, 0, 0, 0, 0],
    (plainFrame []).payload.priority_length, fivePadding_lt⟩
  head_type := rfl
  head_flags := by decide

theorem paddedFrame_parts (block : Bytes) : (paddedFrame block).Parts [5] [0, 0, 0, 0, 0] := by
  have hflags : (paddedFrame block).head.flags = 0xc := rfl
  refine ⟨?_, ?_, fun hp => ?_, fun _ => ⟨[], rfl, by decide⟩⟩
  · rw [HeadersPayload.bytes, hflags, if_pos (by decide), if_neg (by decide), if_pos (by decide),
      List.append_nil]
    rfl
  · rw [hflags]
    decide
  · rw [hflags] at hp
    exact absurd hp (by decide)

theorem paddedFrame_stop (block : Bytes) :
    (paddedFrame block).stop = http2FrameHdrLen + (block.length + 1) :=
  Whole.stop_eq (paddedFrame_parts block)

/-- A field behind two bytes and in front of padding and another byte. -/
def roomySkb : SkBuff where
  bytes := [0x55, 0x55] ++ ((paddedFrame [0x40, 0x01, 0x61, 0x01, 0x62]).bytes ++ [0x88])
  linear := 5
  conn := tableConn
  pullable := true
  linear_le := by decide

/-- A field that is captured and added is one of its own block. -/
theorem parse_confined_single : ∃ rd, Attached huffmanCode [([0x61], 0)] rd ∧
    let p := parseSkb rd .init roomySkb 2 .zero (newHttp2Frame [] 0) none
    (∃ n, p.ret = .ok n) ∧ p.maps.tableOf tableConn = singleTable ∧
    ∃ v total m, BlockRead rd .init [0x40, 0x01, 0x61, 0x01, 0x62] total v p.toParsed ∧
      getDynamicTable .init tableConn = (some .new, m) ∧
      Confined rd v (m.table .new) [0x40, 0x01, 0x61, 0x01, 0x62] 0 := by
  obtain ⟨rd, ha⟩ := attached_letter
  refine ⟨rd, ha, ?_⟩
  intro p
  have hk : Hooked rd .init (.whole (paddedFrame [0x40, 0x01, 0x61, 0x01, 0x62])) tableConn 2 p.toParsed
      (getMatchSkb rd p.maps p.skb p.pres) :=
    @Hooked.skb rd .init _ roomySkb [0x55, 0x55] [0x88] p (newHttp2Frame [] 0) rfl rfl rfl
  have hw : BlockWire id [shortRep 0x61 0x62] [0x40, 0x01, 0x61, 0x01, 0x62] :=
    .cons (shortRep_wire 0x61 0x62 rfl) .nil
  have hc : Carried (.whole (paddedFrame [0x40, 0x01, 0x61, 0x01, 0x62])) [shortRep 0x61 0x62] :=
    ⟨by decide, show _ < _ by decide, hw⟩
  have hfits : Readable .init tableConn 2 (.whole (paddedFrame [0x40, 0x01, 0x61, 0x01, 0x62]))
      p.toParsed := by
    refine ⟨?_, .inr (by decide)⟩
    rw [Sent.FitsAt, paddedFrame_stop]
    decide
  have hacc := hfits.accepted hk ha.readsReps hc
  obtain ⟨n, hret⟩ := hacc.1
  obtain ⟨m, hg, hm⟩ := getDynamicTable_fresh tableConn
  refine ⟨⟨n, hret⟩, ?_, ?_⟩
  · obtain ⟨-, info, m', hg', hmaps, -⟩ := hk.tableOf ha.readsReps hc hacc
    rw [show p.maps.tableOf tableConn = _ from hmaps.tableOf tableConn, setTable_tableOf hg',
      ← getDynamicTable_tableOf hg, hm]
    rfl
  · rcases parse_confined_iff ha .init hk hc.sized with ⟨⟨e, he⟩, -⟩ |
      ⟨v, k, total, -, hall, -, hread, hiff⟩
    · rw [hret] at he
      cases he
    · obtain rfl := hall hacc.2
      rw [List.take_length] at hread hiff
      refine ⟨v, total, m, hread, hg, ?_⟩
      have hconfined := (hiff .new m hg).mpr
      rw [Nat.sub_self] at hconfined
      exact hconfined fun f _ => hw.inside (by decide) f

/-- A block that ends with the length of a value. -/
def overlongBlock : Bytes := [0x00, 0x01, 0x61, 0x05]

theorem overlong_value : ∃ f : ValueAt overlongBlock, f.name = .lit ⟨false, [0x61]⟩ ∧ f.start = 4 ∧
    f.huff = false ∧ f.length = 5 ∧ f.back = [] :=
  ⟨⟨[], [], .without, .lit ⟨false, [0x61]⟩, 1, [0x00, 0x01, 0x61], false, 5, [0x05], [], .nil,
    .lit 0x00 rfl (.short 0x01 (by decide) (by decide)) rfl, .short 0x05 (by decide) (by decide), rfl⟩,
    rfl, rfl, rfl, rfl, rfl⟩

/-- The frame with the length of a value, and with padding for it. -/
def overlongMsg : SkMsg := linearMsg (paddedFrame overlongBlock).bytes tableConn true

def overlongView : View := ⟨newMsgCtx overlongMsg, Maps.init.blockBuf, .msg, 10⟩

theorem overlong_read (rd : Rodata) :
    let p := parseMsg rd .init overlongMsg .zero (newHttp2Frame [] 0)
    Legible rd overlongView overlongBlock ∧ BlockRead rd .init overlongBlock 19 overlongView p.toParsed ∧
      newMsgCtx p.msg = overlongView.ctx := by
  have hp := paddedFrame_parts overlongBlock
  have hmsg : overlongMsg.bytes = (paddedFrame overlongBlock).bytes ++ [] := (List.append_nil _).symm
  have hctx : newMsgCtx overlongMsg = ⟨(paddedFrame overlongBlock).bytes, tableConn⟩ :=
    congrArg (MsgCtx.mk · tableConn) List.take_length
  have hdata : (newMsgCtx overlongMsg).data = [] ++ ((paddedFrame overlongBlock).bytes ++ []) := by
    rw [hctx, List.append_nil, List.nil_append]
  have hstop : ([] : Bytes).length + (paddedFrame overlongBlock).stop ≤ maxBytes := by
    rw [paddedFrame_stop]
    decide
  obtain ⟨msg', hmsg', hparse⟩ := (paddedFrame overlongBlock).parsed rd .init (newHttp2Frame [] 0)
    hmsg (by decide) rfl (by decide) (by decide)
  have hread := (paddedFrame overlongBlock).readAt rd .init (newHttp2Frame overlongMsg.bytes 0) hdata hp
    hstop
  refine ⟨Whole.legible hp hdata hstop _, ?_, ?_⟩
  · rw [hparse]
    exact hread.map 19
  · rw [hparse]
    exact hmsg'

/-- A value of which no byte is in the block is read out of the padding. -/
theorem overlong_captured : ∃ rd, Attached huffmanCode [([0x61], 0)] rd ∧
    let p := parseMsg rd .init overlongMsg .zero (newHttp2Frame [] 0)
    p.ret = .ok 19 ∧ getMatchMsg rd p.maps p.msg p.pres 0 = .ok [0, 0, 0, 0, 0] ∧
    ∃ v m, getDynamicTable .init v.ctx.conn = (some .new, m) ∧
      BlockRead rd .init overlongBlock 19 v p.toParsed ∧
      ¬Confined rd v (m.table .new) overlongBlock 0 := by
  obtain ⟨rd, ha⟩ := attached_letter
  refine ⟨rd, ha, ?_⟩
  intro p
  obtain ⟨hv, hread, hctx⟩ := overlong_read rd
  obtain ⟨m, hg⟩ := getDynamicTable_init overlongView.ctx.conn
  obtain ⟨items, hi⟩ := (StoreOk.init.stored overlongView.ctx.conn).holds hg
  obtain ⟨f, hname, hstart, hhuff, hlength, hback⟩ := overlong_value
  have hcap : nameCapture rd overlongView.ctx.conn
      (f.table rd overlongView.ctx.conn (m.table .new)) f.name = some 0 := by
    rw [hname]
    exact (ha.matchHeaderKey_iff 0).mpr ⟨by decide, [0x61], List.mem_singleton.mpr rfl, rfl⟩
  obtain ⟨st, hfeed, hmatch⟩ := f.recorded ha.readsReps hv (m.table .new) hback hcap
  have hlocated : f.located overlongView = ⟨14, 5, .msg, false⟩ := by
    rw [ValueAt.located, hstart, hhuff, hlength]
    rfl
  obtain ⟨hret, -, hpres⟩ := hread.walk .new m hg
  rw [hfeed] at hret hpres
  refine ⟨hret, ?_, overlongView, m, hg, hread, ?_⟩
  · have hget : p.pres.get 0 = ⟨14, 5, .msg, false⟩ := by
      rw [show p.pres = st.pres from hpres, hmatch, hlocated]
    unfold getMatchMsg getStr
    rw [hget, if_neg (by decide), if_neg (by decide), show newMsgCtx p.msg = _ from hctx]
    rfl
  · intro h
    have hinside := ((confined_iff ha.readsReps hv hi 0).mp h f (.inl (by rw [hcap]; simp))).2
    rw [hlength, hback] at hinside
    exact absurd hinside (by decide)

end Beeper.Http2
