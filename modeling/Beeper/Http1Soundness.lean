import Beeper.Http1Fields

namespace Beeper.Http1

variable {items : List (Item × MatchId)} {l : Label} {n line : Bytes} {o s : Nat} {r : HttpMatch}
  {rd : Rodata} {m : MatchId}

/-- Where the value of a field is, the line of which starts at `o`. -/
def Field.offset (f : Field items n line) (o : Nat) : Nat := o + f.name.length + 1 + f.blanks.length

def Field.range (f : Field items n line) (o : Nat) : HttpMatch :=
  ⟨UInt16.ofNat (f.offset o), UInt16.ofNat f.value.length, .msg, false⟩

theorem rangeTo_value {len : Nat} (h : 0 < len) (o : Nat) :
    rangeTo o (o + len - 1) = ⟨UInt16.ofNat o, UInt16.ofNat len, .msg, false⟩ := by
  have hle : o ≤ o + len - 1 := by omega
  have hlen : o + len - 1 - o + 1 = len := by omega
  rw [rangeTo, u32Sub_of_le hle, hlen]

/-- A line that has the field is captured, whatever was captured before. -/
theorem Named.run_field (h : Named items) (hn : Captures items (.header n))
    (hlf : ∀ c ∈ line, c ≠ 0x0a) (f : Field items n line) :
    ∃ l' s', viewRun items n o line ⟨.name [], s, r⟩ = (none, ⟨l', s', f.range o⟩) := by
  have hname : viewRun items n o f.name ⟨.name [], s, r⟩ = (none, ⟨.name n, s, r⟩) :=
    h.run_spells hn o f.spells (List.prefix_refl n)
  have hcolon : viewRun items n o (f.name ++ [0x3a]) ⟨.name [], s, r⟩ =
      (none, ⟨.colon n, o + f.name.length + 1, r⟩) := viewRun_concat hname (h.view_colon hn)
  have hblanks := h.run_blanks (r := r) hn (o + f.name.length + 1) f.isBlank
  have hoffset : o + f.name.length + 1 + f.blanks.length = f.offset o := rfl
  rw [hoffset] at hblanks
  have hvalue := h.run_value (r := r) hn (f.offset o) f.value_ne f.first fun c hc =>
    ⟨f.noCr c hc, hlf c (by rw [f.line_eq]; simp [hc])⟩
  have hrest : ∃ l' s', viewRun items n (f.offset o + f.value.length) f.rest
      ⟨.value n, f.offset o, f.range o⟩ = (none, ⟨l', s', f.range o⟩) := by
    cases hr : f.rest with
    | nil => exact ⟨_, _, rfl⟩
    | cons c rest =>
      obtain rfl := f.rest_cr c (by rw [hr]; rfl)
      have hedge : (.value n, (0x0d : UInt8).toNat) ∈ edges items :=
        edge_value.mpr ⟨hn, .inr (.inl rfl)⟩
      have hgoto : (Label.value n).goto (0x0d : UInt8).toNat = .valueCr n := rfl
      have hstep := h.view_own (l := .value n) (n := n) (i := f.offset o + f.value.length)
        (s := f.offset o) (r := f.range o) trivial (by decide) hedge (by simp [header_opens_iff])
      rw [hgoto] at hstep
      have hvalueCr : Off n (.valueCr n) := ⟨trivial, by simp, by simp, by simp⟩
      have hmem : ∀ d ∈ rest, d ≠ 0x0a := fun d hd => hlf d (by rw [f.line_eq, hr]; simp [hd])
      obtain ⟨l', hoff, -⟩ := h.run_off (s := f.offset o) (r := f.range o)
        (f.offset o + f.value.length + 1) hvalueCr hmem
      refine ⟨l', f.offset o, ?_⟩
      rw [← List.singleton_append, viewRun_append (viewRun_one hstep)]
      exact hoff
  obtain ⟨l', s', hrest⟩ := hrest
  refine ⟨l', s', ?_⟩
  have hpos := List.length_pos_iff.mpr f.value_ne
  rw [rangeTo_value hpos] at hvalue
  have hline : line = f.name ++ [0x3a] ++ f.blanks ++ f.value ++ f.rest := by
    conv_lhs => rw [f.line_eq]
    simp
  conv_lhs => rw [hline, List.append_assoc, List.append_assoc]
  rw [viewRun_append hcolon]
  have hoff : o + (f.name ++ [0x3a]).length = o + f.name.length + 1 := by
    rw [List.length_append, List.length_singleton, Nat.add_assoc]
  rw [hoff, viewRun_append hblanks, hoffset, viewRun_append hvalue]
  exact hrest

/-- No field starts or ends with a line feed. -/
theorem lf_idle (hl : l.InHeader) {x : Label × Nat}
    (hx : edgeOf items l (0x0a : UInt8).toNat = some x) :
    ¬(Item.header n).opens x ∧ ¬(Item.header n).closes x := by
  have hx2 : x.2 = lfInput := by
    rcases edgeOf_cases hx with ⟨rfl, -⟩ | ⟨rfl, hno, hany⟩ | ⟨rfl, -⟩
    · rfl
    · exact absurd (edge_lf_of_any hl hany) hno
    · rfl
  rw [header_opens_iff, header_closes_iff]
  constructor
  · rintro (rfl | rfl | rfl)
    · exact absurd hx2 (show colonInput ≠ lfInput by decide)
    · exact absurd hx2 (show tabInput ≠ lfInput by decide)
    · exact absurd hx2 (show spaceInput ≠ lfInput by decide)
  · have hany : anyInput ≠ lfInput := by decide
    rintro (rfl | rfl)
    · exact absurd hx2 hany
    · exact absurd hx2 hany

/-- The end of a line that is not empty. -/
theorem Named.view_lf (h : Named items) (hl : l.InHeader) (h1 : l ≠ .name []) (h2 : l ≠ .lfCr) {i : Nat} :
    viewStep items (.header n) i 0x0a ⟨l, s, r⟩ = (⟨.name [], s, r⟩, false) := by
  have hdone : ¬∃ x, edgeOf items l (0x0a : UInt8).toNat = some x ∧ stops items x := by
    rw [h.stops_iff hl]
    rintro ⟨-, heq | heq⟩
    · exact h1 heq
    · exact h2 heq
  refine Prod.ext ?_ (Bool.eq_false_iff.mpr (mt (labelStep_done (i := i)).mp hdone))
  rw [viewStep_idle fun x hx => lf_idle hl hx]
  exact congrArg (View.mk · s r) (h.readLabel_lf hl h1 h2)

theorem Reading.ends (h : Named items) {v : View} (hr : Reading items n line r v) (h1 : line ≠ [])
    (h2 : line ≠ cr) : v.label.InHeader ∧ v.label ≠ .name [] ∧ v.label ≠ .lfCr := by
  cases hr with
  | @name t s hs ht =>
    refine ⟨trivial, fun heq => h1 ?_, by simp⟩
    cases heq
    exact h.spells_nil hs
  | colon heq hs hb => exact ⟨trivial, by simp, by simp⟩
  | value hf => exact ⟨trivial, by simp, by simp⟩
  | off ho hcr hr => exact ⟨ho.inHeader, ho.name [], fun heq => h2 (hcr heq)⟩

/-- What is captured of a line, up to its end. -/
theorem Named.run_text (h : Named items) (hn : Captures items (.header n))
    (hlf : ∀ c ∈ line, c ≠ 0x0a) :
    ∃ v, viewRun items n o line ⟨.name [], s, r⟩ = (none, v) ∧ Reading items n line r v ∧
      (∀ f : Field items n line, v.range = f.range o) ∧
      (IsEmpty (Field items n line) → v.range = r) := by
  obtain ⟨v, hrun, hr⟩ := h.reading_run (s := s) (r := r) hn o hlf
  refine ⟨v, hrun, hr, fun f => ?_, fun hno => ?_⟩
  · obtain ⟨l', s', hf⟩ := h.run_field (s := s) (r := r) (o := o) hn hlf f
    rw [hrun] at hf
    cases hf
    rfl
  · cases hr with
    | name hs ht => rfl
    | colon heq hs hb => rfl
    | value hf => exact (hno.false hf.some).elim
    | off ho hcr hr => exact hr.resolve_right fun hf => hno.false hf.some

/-- A whole line with what it captures. -/
theorem Named.run_line (h : Named items) (hn : Captures items (.header n))
    (hlf : ∀ c ∈ line, c ≠ 0x0a) (h1 : line ≠ []) (h2 : line ≠ cr) :
    ∃ s' r', viewRun items n o (line ++ lf) ⟨.name [], s, r⟩ = (none, ⟨.name [], s', r'⟩) ∧
      (∀ f : Field items n line, r' = f.range o) ∧ (IsEmpty (Field items n line) → r' = r) := by
  obtain ⟨⟨l', s', r'⟩, hrun, hr, hsome, hnone⟩ := h.run_text (s := s) (r := r) (o := o) hn hlf
  obtain ⟨hl, hne, hne'⟩ := hr.ends h h1 h2
  exact ⟨s', r', viewRun_concat hrun (h.view_lf hl hne hne'), hsome, hnone⟩

/-- The text of whole lines. -/
def joinLines (ls : List Bytes) : Bytes := ls.flatMap fun line => line ++ lf

theorem joinLines_cons (line : Bytes) (ls : List Bytes) :
    joinLines (line :: ls) = line ++ lf ++ joinLines ls := List.flatMap_cons

theorem joinLines_nil : joinLines [] = [] := rfl

theorem joinLines_append (a b : List Bytes) : joinLines (a ++ b) = joinLines a ++ joinLines b :=
  List.flatMap_append

/-- The lines of a header block, none of which is empty. -/
theorem Named.run_lines (h : Named items) (hn : Captures items (.header n)) {ls : List Bytes}
    (hls : ∀ line ∈ ls, (∀ c ∈ line, c ≠ 0x0a) ∧ line ≠ [] ∧ line ≠ cr) :
    ∃ s' r', viewRun items n o (joinLines ls) ⟨.name [], s, r⟩ = (none, ⟨.name [], s', r'⟩) ∧
      (∀ a line b (f : Field items n line), ls = a ++ line :: b →
        (∀ x ∈ b, IsEmpty (Field items n x)) → r' = f.range (o + (joinLines a).length)) ∧
      ((∀ x ∈ ls, IsEmpty (Field items n x)) → r' = r) := by
  induction ls generalizing o s r with
  | nil =>
    refine ⟨s, r, rfl, fun a line b f heq => ?_, fun _ => rfl⟩
    exact absurd heq (by simp)
  | cons x ls ih =>
    obtain ⟨hlf, h1, h2⟩ := hls x List.mem_cons_self
    obtain ⟨s1, r1, hrun, hsome, hnone⟩ := h.run_line (o := o) (s := s) (r := r) hn hlf h1 h2
    obtain ⟨s', r', hrun', hsome', hnone'⟩ := ih (o := o + (x ++ lf).length) (s := s1) (r := r1)
      fun y hy => hls y (List.mem_cons_of_mem _ hy)
    refine ⟨s', r', ?_, fun a line b f heq hb => ?_, fun hall => ?_⟩
    · rw [joinLines_cons, viewRun_append hrun]
      exact hrun'
    · cases a with
      | nil =>
        obtain ⟨rfl, rfl⟩ := List.cons.inj heq
        rw [hnone' hb, hsome f]
        rfl
      | cons y a =>
        obtain ⟨rfl, rfl⟩ := List.cons.inj heq
        rw [hsome' a line b f rfl hb, joinLines_cons, @List.length_append _ (x ++ lf),
          Nat.add_assoc]
    · rw [hnone' fun y hy => hall y (List.mem_cons_of_mem _ hy), hnone (hall x List.mem_cons_self)]

/-- The last line feed of a run. -/
theorem viewRun_last {a : Bytes} {v : View} (h : viewRun items n o a v = (none, ⟨l, s, r⟩))
    (hl : l.InHeader) : (viewRun items n o (a ++ lf) v).2.range = r := by
  have hstep : (viewStep items (.header n) (o + a.length) 0x0a ⟨l, s, r⟩).1.range = r := by
    rw [viewStep_idle fun x hx => lf_idle hl hx]
  have hlf : lf = [0x0a] := rfl
  rw [viewRun_append h, hlf, viewRun]
  cases hd : (viewStep items (.header n) (o + a.length) 0x0a ⟨l, s, r⟩).2 with
  | true =>
    rw [Scan.run_done hd]
    exact hstep
  | false =>
    rw [Scan.run_next hd]
    exact hstep

theorem HeadersOnly.view_start (ho : HeadersOnly items) {i : Nat} {c : UInt8} {t : Bytes} :
    (viewStep items (.header n) i c ⟨.start t, s, r⟩).1 = ⟨again c.toNat, s, r⟩ := by
  rw [viewStep_idle]
  · exact congrArg (View.mk · s r) (ho.readLabel_start t c.toNat)
  · intro x hx
    rcases edgeOf_cases hx with ⟨-, he⟩ | ⟨-, -, he⟩ | ⟨rfl, -⟩
    · exact absurd he (ho.not_edge t _)
    · exact absurd he (ho.not_edge t _)
    · simp [header_opens_iff, header_closes_iff]

/-- Nothing is captured on the first line. -/
theorem Named.run_firstLine (h : Named items) (ho : HeadersOnly items) {line : Bytes}
    (hlf : ∀ c ∈ line, c ≠ 0x0a) : ∃ l, viewRun items n 0 line .init = (none, ⟨l, 0, .zero⟩) ∧
      (l = .start [] ∨ Off n l ∧ l ≠ .lfCr) := by
  induction line using List.reverseRecOn with
  | nil => exact ⟨.start [], rfl, .inl rfl⟩
  | append_singleton line c ih =>
    obtain ⟨l, hrun, hl⟩ := ih fun d hd => hlf d (List.mem_append_left _ hd)
    have hc := hlf c (by simp)
    rcases hl with rfl | ⟨hoff, hne⟩
    · have hclf : c.toNat ≠ lfInput := fun hx => hc (toNat_eq_lf.mp hx)
      refine ⟨again c.toNat, viewRun_concat hrun (Prod.ext ?_ ?_), .inr ⟨again_off hc, ?_⟩⟩
      · exact ho.view_start
      · exact Bool.eq_false_iff.mpr
          (mt (labelStep_done (i := 0 + line.length)).mp (ho.not_stops_start [] _))
      · rw [again, if_neg hclf]
        split <;> simp
    · exact ⟨_, viewRun_concat hrun (h.view_off hoff hc), .inr ⟨off_readLabel hoff hc,
        h.readLabel_ne_lfCr hoff.inHeader (hoff.name []) hc⟩⟩

/-- The first line with its end. -/
theorem Named.run_first (h : Named items) (ho : HeadersOnly items) {line : Bytes}
    (hlf : ∀ c ∈ line, c ≠ 0x0a) :
    viewRun items n 0 (line ++ lf) .init = (none, ⟨.name [], 0, .zero⟩) := by
  obtain ⟨l, hrun, rfl | ⟨hoff, hne⟩⟩ := h.run_firstLine (n := n) ho hlf
  · refine viewRun_concat hrun (Prod.ext ho.view_start ?_)
    exact Bool.eq_false_iff.mpr
      (mt (labelStep_done (i := 0 + line.length)).mp (ho.not_stops_start [] _))
  · exact viewRun_concat hrun (h.view_lf hoff.inHeader (hoff.name []) hne)

/-- The lines of a text. -/
def lines : Bytes → List Bytes
  | [] => []
  | c :: bytes =>
    if c = 0x0a then [] :: lines bytes
    else match lines bytes with
      | [] => [[c]]
      | line :: ls => (c :: line) :: ls

theorem lines_line {line : Bytes} (h : ∀ c ∈ line, c ≠ 0x0a) (rest : Bytes) :
    lines (line ++ lf ++ rest) = line :: lines rest := by
  induction line with
  | nil => rfl
  | cons c line ih =>
    have hc := h c List.mem_cons_self
    rw [List.cons_append, List.cons_append, lines, if_neg hc,
      ih fun d hd => h d (List.mem_cons_of_mem _ hd)]

theorem lines_joinLines {ls : List Bytes} (h : ∀ line ∈ ls, ∀ c ∈ line, c ≠ 0x0a) :
    lines (joinLines ls) = ls := by
  induction ls with
  | nil => rfl
  | cons line ls ih =>
    rw [joinLines_cons, lines_line (h line List.mem_cons_self),
      ih fun x hx => h x (List.mem_cons_of_mem _ hx)]

/-- Every text is made of lines, the last of which may still be going on. -/
theorem exists_joinLines (bytes : Bytes) : ∃ ls tail, bytes = joinLines ls ++ tail ∧
    (∀ line ∈ ls, ∀ c ∈ line, c ≠ 0x0a) ∧ ∀ c ∈ tail, c ≠ 0x0a := by
  induction bytes with
  | nil => exact ⟨[], [], rfl, by simp, by simp⟩
  | cons c bytes ih =>
    obtain ⟨ls, tail, rfl, hls, htail⟩ := ih
    by_cases hc : c = 0x0a
    · subst hc
      refine ⟨[] :: ls, tail, rfl, fun line hline => ?_, htail⟩
      rcases List.mem_cons.mp hline with rfl | hline
      · simp
      · exact hls line hline
    · cases ls with
      | nil =>
        refine ⟨[], c :: tail, rfl, by simp, fun d hd => ?_⟩
        rcases List.mem_cons.mp hd with rfl | hd
        · exact hc
        · exact htail d hd
      | cons line ls =>
        refine ⟨(c :: line) :: ls, tail, rfl, fun x hx d hd => ?_, htail⟩
        rcases List.mem_cons.mp hx with rfl | hx
        · rcases List.mem_cons.mp hd with rfl | hd
          · exact hc
          · exact hls line List.mem_cons_self d hd
        · exact hls x (List.mem_cons_of_mem _ hx) d hd

theorem exists_joinLines_of_lf (bytes : Bytes) : ∃ ls, bytes ++ lf = joinLines ls ∧ ls ≠ [] ∧
    ∀ line ∈ ls, ∀ c ∈ line, c ≠ 0x0a := by
  obtain ⟨ls, tail, rfl, hls, htail⟩ := exists_joinLines bytes
  refine ⟨ls ++ [tail], ?_, by simp, fun line hline => ?_⟩
  · rw [joinLines_append, joinLines_cons, List.append_assoc]
    exact congrArg _ (List.append_nil _).symm
  · rcases List.mem_append.mp hline with hline | hline
    · exact hls line hline
    · rw [List.mem_singleton.mp hline]
      exact htail

/-- A header block: its first line, the lines with fields, and the empty line it ends with. -/
structure Block (bytes first : Bytes) (fields : List Bytes) (last : Bytes) : Prop where
  bytes_eq : bytes = joinLines (first :: fields) ++ (last ++ lf)
  first : ∀ c ∈ first, c ≠ 0x0a
  fields : ∀ line ∈ fields, (∀ c ∈ line, c ≠ 0x0a) ∧ line ≠ [] ∧ line ≠ cr
  last : last = [] ∨ last = cr

theorem lf_suffix_joinLines {ls : List Bytes} (h : ls ≠ []) : ∃ front, joinLines ls = front ++ lf := by
  induction ls using List.reverseRecOn with
  | nil => exact absurd rfl h
  | append_singleton ls line _ =>
    refine ⟨joinLines ls ++ line, ?_⟩
    rw [joinLines_append, joinLines_cons, joinLines_nil, List.append_nil, List.append_assoc]

theorem EndsEmptyLine.split {bytes : Bytes} (h : EndsEmptyLine bytes) :
    ∃ front last, bytes = front ++ lf ++ (last ++ lf) ∧ (last = [] ∨ last = cr) := by
  rcases h with ⟨front, rfl⟩ | ⟨front, rfl⟩
  · exact ⟨front, [], by simp, .inl rfl⟩
  · exact ⟨front, cr, by simp, .inr rfl⟩

theorem endsEmptyLine_joinLines {ls : List Bytes} {last : Bytes} (h : ls ≠ [])
    (hl : last = [] ∨ last = cr) : EndsEmptyLine (joinLines ls ++ (last ++ lf)) := by
  obtain ⟨front, hfront⟩ := lf_suffix_joinLines h
  rw [hfront]
  rcases hl with rfl | rfl
  · exact .inl ⟨front, by simp⟩
  · exact .inr ⟨front, by simp⟩

/-- What the first empty line of a message ends is a header block. -/
theorem FirstEmptyLine.block {bytes : Bytes} {k : Nat} (h : FirstEmptyLine bytes k) :
    ∃ first fields last, Block (bytes.take k) first fields last := by
  obtain ⟨front, last, heq, hlast⟩ := h.here.split
  obtain ⟨ls, hls, hne, hlf⟩ := exists_joinLines_of_lf front
  obtain ⟨first, fields, rfl⟩ := List.exists_cons_of_ne_nil hne
  rw [hls] at heq
  refine ⟨first, fields, last, heq, hlf first List.mem_cons_self, fun line hline => ?_, hlast⟩
  -- an empty line in front of the last one would have been the first
  have hfirst : ¬(line = [] ∨ line = cr) := by
    intro hempty
    obtain ⟨a, b, rfl⟩ := List.append_of_mem hline
    have hsplit : bytes.take k =
        joinLines (first :: a) ++ (line ++ lf) ++ (joinLines b ++ (last ++ lf)) := by
      rw [heq]
      simp only [joinLines_cons, joinLines_append, List.append_assoc]
    have hlen := congrArg List.length hsplit
    rw [List.length_take_of_le h.le, List.length_append] at hlen
    have hpos : 0 < (joinLines b ++ (last ++ lf)).length := by
      have hone : lf.length = 1 := rfl
      simp only [List.length_append, hone]
      omega
    apply h.first (joinLines (first :: a) ++ (line ++ lf)).length (by omega)
    have htake : bytes.take (joinLines (first :: a) ++ (line ++ lf)).length =
        joinLines (first :: a) ++ (line ++ lf) := by
      have hmin := List.take_take (i := (joinLines (first :: a) ++ (line ++ lf)).length) (j := k)
        (l := bytes)
      rw [Nat.min_eq_left (by omega)] at hmin
      rw [← hmin, hsplit, List.take_left]
    rw [htake]
    exact endsEmptyLine_joinLines (by simp) hempty
  exact ⟨hlf line (List.mem_cons_of_mem _ hline), fun hnil => hfirst (.inl hnil),
    fun hcr => hfirst (.inr hcr)⟩

/-- What is captured in a header block, once its first line was read. -/
theorem Named.run_fields (h : Named items) (hn : Captures items (.header n))
    {bytes first last : Bytes} {fields : List Bytes} (hb : Block bytes first fields last)
    (hfirst : viewRun items n 0 (first ++ lf) .init = (none, ⟨.name [], 0, .zero⟩)) :
    (∀ a line b (f : Field items n line), fields = a ++ line :: b →
      (∀ x ∈ b, IsEmpty (Field items n x)) →
        (viewRun items n 0 bytes .init).2.range = f.range (joinLines (first :: a)).length) ∧
      ((∀ x ∈ fields, IsEmpty (Field items n x)) →
        (viewRun items n 0 bytes .init).2.range = .zero) := by
  obtain ⟨s', r', hrun, hsome, hnone⟩ := h.run_lines (o := 0 + (first ++ lf).length) (s := 0)
    (r := .zero) hn hb.fields
  have hlines : viewRun items n 0 (joinLines (first :: fields)) .init = (none, ⟨.name [], s', r'⟩) := by
    rw [joinLines_cons, viewRun_append hfirst]
    exact hrun
  have hrange : (viewRun items n 0 bytes .init).2.range = r' := by
    rw [hb.bytes_eq]
    rcases hb.last with rfl | rfl
    · exact viewRun_last hlines trivial
    · have hedge : (.name [], (0x0d : UInt8).toNat) ∈ edges items := h.edge_name_cr.mpr rfl
      have hgoto : (Label.name []).goto (0x0d : UInt8).toNat = .lfCr := rfl
      have hstep := h.view_own (l := .name []) (n := n) (s := s') (r := r')
        (i := 0 + (joinLines (first :: fields)).length) trivial (by decide) hedge
        (by simp [header_opens_iff, colonInput])
      rw [hgoto] at hstep
      rw [← List.append_assoc]
      exact viewRun_last (viewRun_concat hlines hstep) trivial
  refine ⟨fun a line b f heq hb' => ?_, fun hall => ?_⟩
  · rw [hrange, hsome a line b f heq hb', joinLines_cons, Nat.zero_add,
      @List.length_append _ (first ++ lf)]
  · rw [hrange, hnone hall]

/-- What is captured in a header block. -/
theorem Named.run_block (h : Named items) (ho : HeadersOnly items)
    (hn : Captures items (.header n)) {bytes first last : Bytes} {fields : List Bytes}
    (hb : Block bytes first fields last) :
    (∀ a line b (f : Field items n line), fields = a ++ line :: b →
      (∀ x ∈ b, IsEmpty (Field items n x)) →
        (viewRun items n 0 bytes .init).2.range = f.range (joinLines (first :: a)).length) ∧
      ((∀ x ∈ fields, IsEmpty (Field items n x)) →
        (viewRun items n 0 bytes .init).2.range = .zero) :=
  h.run_fields hn hb (h.run_first ho hb.first)

/-- What a parser that succeeds has read and captured. -/
theorem Attached.parsed (h : Attached items rd) (ho : HeadersOnly items)
    (hm : (.header n, m) ∈ items) {msg : SkMsg} (hp : msg.pullable) {k : Nat}
    (hk : (parseMsg rd msg .zero).ret = .ok k) : FirstEmptyLine msg.bytes k ∧ k ≤ maxBytes + 1 ∧
      (parseMsg rd msg .zero).pres.get m = (viewRun items n 0 (msg.bytes.take k) .init).2.range := by
  obtain ⟨hret, hpres⟩ := parseMsg_eq rd .zero hp
  have hwalk : (walk rd 0 (msg.bytes.take (reach msg)) (.start .zero)).1 = some k := by
    rw [hk] at hret
    unfold walkRet at hret
    split at hret
    next j hj =>
      cases hret
      exact hj
    next => cases hret
  have hle := (Scan.run_bounds hwalk).2
  have hreach : reach msg ≤ maxBytes + 1 := by
    unfold reach
    split <;> [skip; split] <;> omega
  rw [Nat.zero_add, List.length_take] at hle
  have htake : ∀ j ≤ k, (msg.bytes.take (reach msg)).take j = msg.bytes.take j := by
    intro j hj
    rw [List.take_take, Nat.min_eq_left (by omega)]
  refine ⟨?_, by omega, ?_⟩
  · have hend := hwalk
    rw [walk_headerEnd, headerEnd_iff h ho] at hend
    refine ⟨by omega, ?_, fun j hj => ?_⟩
    · rw [← htake k (Nat.le_refl k)]
      exact hend.here
    · rw [← htake j (Nat.le_of_lt hj)]
      exact hend.first j hj
  · obtain ⟨hdone, hrange⟩ := h.walk_view hm 0 (msg.bytes.take (reach msg))
    rw [hdone] at hwalk
    have hrun := Scan.run_take hwalk
    rw [Nat.sub_zero, htake k (Nat.le_refl k)] at hrun
    rw [hpres, hrange, viewRun, hrun]

/-- The name of the field is all there is in front of its colon, other than whitespace, and the line
ends with the value. -/
structure Field.Whole (f : Field items n line) : Prop where
  name : ∃ name blanks, f.name = name ++ blanks ∧ lowercase name = n ∧ ∀ c ∈ blanks, IsBlank c
  rest : f.rest = [] ∨ f.rest = cr

/-- The range lies within the first `k` bytes, it starts behind the name, and ends with its line. -/
structure SoundCapture (n bytes : Bytes) (k : Nat) (m : HttpMatch) : Prop where
  pos : 0 < m.len.toNat
  le : m.idx.toNat + m.len.toNat ≤ k
  noLf : ∀ c ∈ slice bytes m.idx.toNat m.len.toNat, c ≠ 0x0a
  before : ∃ front name blanks blanks', bytes.take m.idx.toNat =
    front ++ lf ++ (name ++ blanks) ++ 0x3a :: blanks' ∧ lowercase name = n ∧
      (∀ c ∈ blanks, IsBlank c) ∧ ∀ c ∈ blanks', IsBlank c
  behind : lf <+: bytes.drop (m.idx.toNat + m.len.toNat) ∨
    cr ++ lf <+: bytes.drop (m.idx.toNat + m.len.toNat)

/-- The lines of a header block that can hold fields. -/
def fieldLines (block : Bytes) : List Bytes := (lines block).tail.dropLast

theorem Block.fieldLines {bytes first last : Bytes} {fields : List Bytes}
    (hb : Block bytes first fields last) : fieldLines bytes = fields := by
  have hlast : ∀ c ∈ last, c ≠ 0x0a := by
    rcases hb.last with rfl | rfl
    · simp
    · decide +kernel
  have hjoin : bytes = joinLines (first :: fields ++ [last]) := by
    rw [hb.bytes_eq, joinLines_append, joinLines_cons last, joinLines_nil, List.append_nil]
  have hlines : ∀ line ∈ first :: fields ++ [last], ∀ c ∈ line, c ≠ 0x0a := by
    intro line hline
    rcases List.mem_append.mp hline with hline | hline
    · rcases List.mem_cons.mp hline with rfl | hline
      · exact hb.first
      · exact (hb.fields line hline).1
    · rw [List.mem_singleton.mp hline]
      exact hlast
  rw [Http1.fieldLines, hjoin, lines_joinLines hlines]
  simp

/-- What stands in front of the last occurrence of a byte, and what behind it. -/
theorem append_cons_inj_last {a a' b b' : Bytes} {c : UInt8} (hb : ∀ d ∈ b, d ≠ c)
    (hb' : ∀ d ∈ b', d ≠ c) (h : a ++ c :: b = a' ++ c :: b') : a = a' ∧ b = b' := by
  induction a generalizing a' with
  | nil =>
    cases a' with
    | nil => exact ⟨rfl, (List.cons.inj h).2⟩
    | cons d a' =>
      have heq := (List.cons.inj h).2
      exact absurd rfl (hb c (by rw [heq]; simp))
  | cons d a ih =>
    cases a' with
    | nil =>
      have heq := (List.cons.inj h).2
      exact absurd rfl (hb' c (by rw [← heq]; simp))
    | cons d' a' =>
      obtain ⟨rfl, heq⟩ := List.cons.inj h
      obtain ⟨rfl, rfl⟩ := ih heq
      exact ⟨rfl, rfl⟩

theorem mem_lowercase_ne (hn : HeaderName n) {name : Bytes} (h : lowercase name = n) :
    ∀ c ∈ name, c ≠ 0x0a := by
  rintro c hc rfl
  have hmem : lowerByte 0x0a ∈ n := by
    rw [← h]
    exact List.mem_map_of_mem hc
  exact absurd (hn.byte _ hmem) (by decide)

theorem Field.length_eq (f : Field items n line) :
    line.length = f.name.length + 1 + f.blanks.length + f.value.length + f.rest.length := by
  have hlen := congrArg List.length f.line_eq
  simp only [List.length_append, List.length_cons] at hlen
  omega

/-- A field is captured soundly exactly if it is one of the name it is captured under, and its
value takes all of the line. -/
theorem Field.soundCapture_iff (f : Field items n line) (hn : HeaderName n) {front post : Bytes}
    (hlf : ∀ c ∈ line, c ≠ 0x0a) (hfront : lf <:+ front) {k : Nat}
    (hk : (front ++ line ++ lf).length ≤ k) (hsmall : k < 2 ^ 16) :
    SoundCapture n (front ++ line ++ lf ++ post) k (f.range front.length) ↔ f.Whole := by
  have hpos := List.length_pos_iff.mpr f.value_ne
  have hlen := f.length_eq
  have hone : lf.length = 1 := rfl
  simp only [List.length_append, hone] at hk
  have hoffset : f.offset front.length = front.length + f.name.length + 1 + f.blanks.length := rfl
  have hidx : (f.range front.length).idx.toNat = f.offset front.length :=
    UInt16.toNat_ofNat_of_lt' (show f.offset front.length < 2 ^ 16 by omega)
  have hvalue : (f.range front.length).len.toNat = f.value.length :=
    UInt16.toNat_ofNat_of_lt' (show f.value.length < 2 ^ 16 by omega)
  have hbytes : front ++ line ++ lf ++ post =
      (front ++ f.name ++ 0x3a :: f.blanks) ++ (f.value ++ (f.rest ++ lf ++ post)) := by
    conv_lhs => rw [f.line_eq]
    simp
  have hfrontLen : (front ++ f.name ++ 0x3a :: f.blanks).length = f.offset front.length := by
    simp only [List.length_append, List.length_cons]
    omega
  have htake : (front ++ line ++ lf ++ post).take (f.offset front.length) =
      front ++ f.name ++ 0x3a :: f.blanks := by
    rw [hbytes, ← hfrontLen, List.take_left]
  have hdrop : (front ++ line ++ lf ++ post).drop (f.offset front.length) =
      f.value ++ (f.rest ++ lf ++ post) := by
    rw [hbytes, ← hfrontLen, List.drop_left]
  have hrest : (front ++ line ++ lf ++ post).drop (f.offset front.length + f.value.length) =
      f.rest ++ lf ++ post := by
    rw [← List.drop_drop, hdrop, List.drop_left]
  have hline : ∀ c ∈ f.name ++ 0x3a :: (f.blanks ++ f.value ++ f.rest), c ≠ 0x0a := by
    rw [← f.line_eq]
    exact hlf
  have hname : ∀ c ∈ f.name, c ≠ 0x0a := fun c hc => hline c (by simp [hc])
  have hblank : ∀ blanks : Bytes, (∀ c ∈ blanks, IsBlank c) → ∀ c ∈ blanks, c ≠ 0x0a ∧ c ≠ 0x3a := by
    intro blanks hb c hc
    rcases hb c hc with rfl | rfl <;> decide
  constructor
  · intro h
    obtain ⟨front', name, blanks, blanks', heq, hlow, hb, hb'⟩ := h.before
    rw [hidx, htake] at heq
    obtain ⟨heq, -⟩ := append_cons_inj_last (fun c hc => (hblank _ f.isBlank c hc).2)
      (fun c hc => (hblank _ hb' c hc).2) heq
    obtain ⟨z, rfl⟩ := hfront
    have hspelt : ∀ c ∈ name ++ blanks, c ≠ 0x0a := by
      intro c hc
      rcases List.mem_append.mp hc with hc | hc
      · exact mem_lowercase_ne hn hlow c hc
      · exact (hblank _ hb c hc).1
    have hlfs : lf = [0x0a] := rfl
    simp only [hlfs, List.append_assoc, List.singleton_append] at heq
    obtain ⟨-, hsame⟩ := append_cons_inj_last hname hspelt heq
    refine ⟨⟨name, blanks, hsame, hlow, hb⟩, ?_⟩
    have hbehind := h.behind
    rw [hidx, hvalue, hrest] at hbehind
    cases hr : f.rest with
    | nil => exact .inl rfl
    | cons c rest =>
      obtain rfl := f.rest_cr c (by rw [hr]; rfl)
      right
      rw [hr] at hbehind
      rcases hbehind with ⟨t, ht⟩ | ⟨t, ht⟩
      · exact absurd (List.cons.inj ht).1 (by decide)
      · cases rest with
        | nil => rfl
        | cons d rest =>
          have hd := (List.cons.inj (List.cons.inj ht).2).1
          exact absurd hd.symm (hline d (by rw [hr]; simp))
  · rintro ⟨⟨name, blanks, hsame, hlow, hb⟩, hend⟩
    refine ⟨by rw [hvalue]; exact hpos, by rw [hidx, hvalue]; omega, fun c hc => ?_, ?_, ?_⟩
    · rw [hidx, hvalue, slice, hdrop, List.take_left] at hc
      exact hline c (by simp [hc])
    · obtain ⟨z, rfl⟩ := hfront
      exact ⟨z, name, blanks, f.blanks, by rw [hidx, htake, hsame], hlow, hb, f.isBlank⟩
    · rw [hidx, hvalue, hrest]
      rcases hend with hr | hr
      · rw [hr, List.nil_append]
        exact .inl (List.prefix_append _ _)
      · rw [hr]
        exact .inr (List.prefix_append _ _)

theorem exists_last (P : Bytes → Prop) (ls : List Bytes) : (∀ x ∈ ls, ¬P x) ∨
    ∃ a line b, ls = a ++ line :: b ∧ P line ∧ ∀ x ∈ b, ¬P x := by
  induction ls with
  | nil => exact .inl (by simp)
  | cons x ls ih =>
    rcases ih with hnone | ⟨a, line, b, rfl, hline, hb⟩
    · by_cases hx : P x
      · exact .inr ⟨[], x, ls, rfl, hx, hnone⟩
      · left
        intro y hy
        rcases List.mem_cons.mp hy with rfl | hy
        · exact hx
        · exact hnone y hy
    · exact .inr ⟨x :: a, line, b, rfl, hline, hb⟩

/-- Every range that is reported is sound exactly if, of every name, the last line that gives it a
value is a whole field. -/
theorem parseMsg_sound_iff (h : Attached items rd) (ho : HeadersOnly items) {msg : SkMsg}
    (hp : msg.pullable) {k : Nat} (hk : (parseMsg rd msg .zero).ret = .ok k) :
    (∀ n m, (.header n, m) ∈ items → (parseMsg rd msg .zero).pres.get m ≠ .zero →
      SoundCapture n msg.bytes k ((parseMsg rd msg .zero).pres.get m)) ↔
    ∀ n, Captures items (.header n) → ∀ a line b,
      fieldLines (msg.bytes.take k) = a ++ line :: b → (∀ x ∈ b, IsEmpty (Field items n x)) →
        ∀ f : Field items n line, f.Whole := by
  -- what is captured of a name is the last field of that name
  have hlast : ∀ n m, (.header n, m) ∈ items → ∀ a line b,
      fieldLines (msg.bytes.take k) = a ++ line :: b → (∀ x ∈ b, IsEmpty (Field items n x)) →
        ∀ f : Field items n line, (parseMsg rd msg .zero).pres.get m ≠ .zero ∧
          (SoundCapture n msg.bytes k ((parseMsg rd msg .zero).pres.get m) ↔ f.Whole) := by
    intro n m hm a line b heq hb f
    obtain ⟨hfirst, hmax, hrange⟩ := h.parsed ho hm hp hk
    obtain ⟨first, fields, last, hblock⟩ := hfirst.block
    rw [hblock.fieldLines] at heq
    have hspec := (h.named.run_block ho ⟨m, hm⟩ hblock).1 a line b f heq hb
    have hline := (hblock.fields line (by rw [heq]; simp)).1
    rw [hrange, hspec]
    obtain ⟨front, hfront⟩ := @lf_suffix_joinLines (first :: a) (by simp)
    have hbytes : msg.bytes.take k =
        joinLines (first :: a) ++ line ++ lf ++ (joinLines b ++ (last ++ lf)) := by
      rw [hblock.bytes_eq, heq]
      simp only [joinLines_cons, joinLines_append, List.append_assoc]
    have hlen := congrArg List.length hbytes
    rw [List.length_take_of_le hfirst.le, List.length_append] at hlen
    have hsmall : k < 2 ^ 16 := by
      unfold maxBytes at hmax
      omega
    have hall : msg.bytes = joinLines (first :: a) ++ line ++ lf ++
        (joinLines b ++ (last ++ lf) ++ msg.bytes.drop k) := by
      conv_lhs => rw [← List.take_append_drop k msg.bytes, hbytes]
      simp only [List.append_assoc]
    constructor
    · intro hzero
      have hpos := List.length_pos_iff.mpr f.value_ne
      have hflen := f.length_eq
      have hvalue : (f.range (joinLines (first :: a)).length).len.toNat = f.value.length := by
        refine UInt16.toNat_ofNat_of_lt' (show f.value.length < 2 ^ 16 from ?_)
        simp only [List.length_append] at hlen
        omega
      rw [hzero] at hvalue
      exact absurd hvalue (by simp [HttpMatch.zero]; omega)
    · rw [hall]
      exact f.soundCapture_iff (h.named n ⟨m, hm⟩) hline ⟨front, hfront.symm⟩ (by omega) hsmall
  constructor
  · rintro hsound n ⟨m, hm⟩ a line b heq hb f
    obtain ⟨hne, hiff⟩ := hlast n m hm a line b heq hb f
    exact hiff.mp (hsound n m hm hne)
  · intro hwhole n m hm hne
    -- a range that is reported belongs to some field, and so to a last one
    rcases exists_last (fun x => Nonempty (Field items n x)) (fieldLines (msg.bytes.take k)) with
      hnone | ⟨a, line, b, heq, ⟨f⟩, hb⟩
    · obtain ⟨hfirst, -, hrange⟩ := h.parsed ho hm hp hk
      obtain ⟨first, fields, last, hblock⟩ := hfirst.block
      rw [hblock.fieldLines] at hnone
      have hzero := (h.named.run_block ho ⟨m, hm⟩ hblock).2 fun x hx =>
        not_nonempty_iff.mp (hnone x hx)
      exact absurd (hrange.trans hzero) hne
    · have hb : ∀ x ∈ b, IsEmpty (Field items n x) := fun x hx => not_nonempty_iff.mp (hb x hx)
      exact (hlast n m hm a line b heq hb f).2.mpr (hwhole n ⟨m, hm⟩ a line b heq hb f)

/-- A value with a CR in it, which a parser of the field `a` reads up to the CR only. -/
def cutValue : Bytes := ascii "G\na: b\rc\n\n"

theorem parseMsg_cutValue : ∃ rd, Attached [(.header (ascii "a"), 0)] rd ∧
    (parseMsg rd (wholeMsg cutValue ⟨⟨1, 1⟩, ⟨2, 2⟩⟩) .zero).ret = .ok 10 ∧
      (parseMsg rd (wholeMsg cutValue ⟨⟨1, 1⟩, ⟨2, 2⟩⟩) .zero).pres.get 0 ≠ .zero ∧
        ¬SoundCapture (ascii "a") cutValue 10
          ((parseMsg rd (wholeMsg cutValue ⟨⟨1, 1⟩, ⟨2, 2⟩⟩) .zero).pres.get 0) := by
  obtain ⟨rd, hrd, hcheck⟩ := @attached_of_check [.captureHdr (ascii "a")]
    [(.header (ascii "a"), 0)]
    (P := fun rd => decide ((parseMsg rd (wholeMsg cutValue ⟨⟨1, 1⟩, ⟨2, 2⟩⟩) .zero).ret = .ok 10 ∧
      (parseMsg rd (wholeMsg cutValue ⟨⟨1, 1⟩, ⟨2, 2⟩⟩) .zero).pres.get 0 = ⟨5, 1, .msg, false⟩))
    (by decide +kernel) (by decide +kernel)
  obtain ⟨hret, hget⟩ := of_decide_eq_true hcheck
  refine ⟨rd, hrd, hret, ?_, ?_⟩
  · rw [hget]
    decide
  · rw [hget]
    intro h
    exact absurd h.behind (by decide)

/-- A field that takes all of its line, and the parser that captures it. -/
theorem parseMsg_sound_wholeValue : ∃ rd, Attached [(.header (ascii "a"), 0)] rd ∧
    ((∀ n m, (.header n, m) ∈ [(Item.header (ascii "a"), 0)] →
      (parseMsg rd (wholeMsg (ascii "G\na: b\n\n") ⟨⟨1, 1⟩, ⟨2, 2⟩⟩) .zero).pres.get m ≠ .zero →
        SoundCapture n (ascii "G\na: b\n\n") 8
          ((parseMsg rd (wholeMsg (ascii "G\na: b\n\n") ⟨⟨1, 1⟩, ⟨2, 2⟩⟩) .zero).pres.get m)) ↔
    ∀ n, Captures [(.header (ascii "a"), 0)] (.header n) → ∀ a line b,
      fieldLines ((ascii "G\na: b\n\n").take 8) = a ++ line :: b →
        (∀ x ∈ b, IsEmpty (Field [(.header (ascii "a"), 0)] n x)) →
          ∀ f : Field [(.header (ascii "a"), 0)] n line, f.Whole) := by
  obtain ⟨rd, hrd, hcheck⟩ := @attached_of_check [.captureHdr (ascii "a")]
    [(.header (ascii "a"), 0)]
    (P := fun rd => decide
      ((parseMsg rd (wholeMsg (ascii "G\na: b\n\n") ⟨⟨1, 1⟩, ⟨2, 2⟩⟩) .zero).ret = .ok 8))
    (by decide +kernel) (by decide +kernel)
  have hheaders : HeadersOnly [(.header (ascii "a"), 0)] := by
    rintro it ⟨m, hm⟩
    obtain ⟨rfl, rfl⟩ := Prod.mk.inj (List.mem_singleton.mp hm)
    exact ⟨_, rfl⟩
  exact ⟨rd, hrd, parseMsg_sound_iff hrd hheaders rfl (of_decide_eq_true hcheck)⟩

end Beeper.Http1
