import Beeper.Http1WellFormed

namespace Beeper.Http1

variable {items : List (Item × MatchId)} {l : Label} {line n t w : Bytes} {c : UInt8} {i o : Nat}
  {rd : Rodata} {m : MatchId}

instance (c : UInt8) : Decidable (IsBlank c) := inferInstanceAs (Decidable (_ ∨ _))

/-- A line of the header block, without its end. -/
structure FieldLine where
  name : Bytes
  blanks : Bytes
  text : Bytes
  name_ne : name ≠ []
  isToken : ∀ c ∈ name, isTokenChar c
  isBlank : ∀ c ∈ blanks, IsBlank c
  text_free : ∀ c ∈ text, c ≠ 0x0d ∧ c ≠ 0x0a

def FieldLine.bytes (f : FieldLine) : Bytes := f.name ++ f.blanks ++ 0x3a :: f.text

/-- The value, which the whitespace behind the colon is no part of. -/
def FieldLine.value (f : FieldLine) : Bytes := f.text.dropWhile fun c => decide (IsBlank c)

/-- The line gives the field `n` a value. -/
structure FieldLine.Gives (f : FieldLine) (n : Bytes) : Prop where
  name : lowercase f.name = n
  value : f.value ≠ []

/-- A message: its first line, the lines with fields, the empty line, and the body. The flags say
which of the line ends are a CR LF. -/
structure HttpMessage where
  start : Bytes
  startCr : Bool
  fields : List (FieldLine × Bool)
  lastCr : Bool
  body : Bytes
  isStart : StartLine start

def FieldLine.sent (f : FieldLine × Bool) : Bytes := f.1.bytes ++ endCr f.2

/-- The first line and some of the lines behind it. -/
def HttpMessage.front (x : HttpMessage) (fields : List (FieldLine × Bool)) : Bytes :=
  joinLines ((x.start ++ endCr x.startCr) :: fields.map FieldLine.sent)

def HttpMessage.block (x : HttpMessage) : Bytes := x.front x.fields ++ (endCr x.lastCr ++ lf)

def HttpMessage.bytes (x : HttpMessage) : Bytes := x.block ++ x.body

theorem Named.label_not_done (h : Named items) (hl : l.InHeader) (hc : c ≠ 0x0a) :
    labelStep items i c l = (readLabel items l c.toNat, false) := by
  refine Prod.ext rfl (Bool.eq_false_iff.mpr fun hd => hc ?_)
  exact toNat_eq_lf.mp ((h.stops_iff hl).mp (labelStep_done.mp hd)).1

/-- What a walk has made of the front of a line. -/
theorem Named.label_inside (h : Named items) (hlf : ∀ c ∈ line, c ≠ 0x0a) :
    ∃ l, Scan.run (labelStep items) o line (.name []) = (none, l) ∧ l.InHeader ∧
      (l = .name [] → line = []) ∧ (l = .lfCr → line = cr) := by
  induction line using List.reverseRecOn with
  | nil => exact ⟨_, rfl, trivial, fun _ => rfl, fun heq => by cases heq⟩
  | append_singleton line c ih =>
    obtain ⟨l, hrun, hl, hname, -⟩ := ih fun d hd => hlf d (List.mem_append_left _ hd)
    have hc := hlf c (by simp)
    refine ⟨_, Scan.run_concat hrun (h.label_not_done hl hc), ?_⟩
    by_cases hcr : c = 0x0d
    · subst hcr
      obtain ⟨hin, hne, hiff⟩ := h.readLabel_cr hl
      refine ⟨hin, fun heq => absurd heq hne, fun heq => ?_⟩
      rw [hname (hiff.mp heq)]
      rfl
    · obtain ⟨hin, hne, hne'⟩ := h.readLabel_inside hl c.toNat_lt
        (fun heq => hcr (toNat_eq_cr.mp heq)) (fun heq => hc (toNat_eq_lf.mp heq))
      exact ⟨hin, fun heq => absurd heq hne, fun heq => absurd heq hne'⟩

/-- A line that is not empty leads to the start of the next one. -/
theorem Named.label_line (h : Named items) (hlf : ∀ c ∈ line, c ≠ 0x0a) (h1 : line ≠ [])
    (h2 : line ≠ cr) : Scan.run (labelStep items) o (line ++ lf) (.name []) = (none, .name []) := by
  obtain ⟨l, hrun, hl, hname, hcr⟩ := h.label_inside (o := o) hlf
  have hne : l ≠ .name [] ∧ l ≠ .lfCr := ⟨fun heq => h1 (hname heq), fun heq => h2 (hcr heq)⟩
  refine Scan.run_concat hrun (Prod.ext (h.readLabel_lf hl hne.1 hne.2) ?_)
  refine Bool.eq_false_iff.mpr fun hd => ?_
  rcases ((h.stops_iff hl).mp (labelStep_done.mp hd)).2 with heq | heq
  · exact hne.1 heq
  · exact hne.2 heq

theorem Named.label_lines (h : Named items) {ls : List Bytes}
    (hls : ∀ line ∈ ls, (∀ c ∈ line, c ≠ 0x0a) ∧ line ≠ [] ∧ line ≠ cr) :
    Scan.run (labelStep items) o (joinLines ls) (.name []) = (none, .name []) := by
  induction ls generalizing o with
  | nil => rfl
  | cons line ls ih =>
    obtain ⟨hlf, h1, h2⟩ := hls line List.mem_cons_self
    rw [joinLines_cons, Scan.run_append (h.label_line hlf h1 h2)]
    exact ih fun x hx => hls x (List.mem_cons_of_mem _ hx)

theorem Named.label_done (h : Named items) (hl : l = .name [] ∨ l = .lfCr) :
    (labelStep items i 0x0a l).2 = true := by
  have hin : l.InHeader := by rcases hl with rfl | rfl <;> trivial
  exact labelStep_done.mpr ((h.stops_iff hin).mpr ⟨rfl, hl⟩)

/-- The DFA is done with the empty line. -/
theorem Named.label_last (h : Named items) (b : Bool) :
    (Scan.run (labelStep items) o (endCr b ++ lf) (.name [])).1 =
      some (o + (endCr b ++ lf).length) := by
  have hlf : lf = [0x0a] := rfl
  cases b with
  | true =>
    have hcr : Scan.run (labelStep items) o ([] ++ [0x0d]) (.name []) = (none, .lfCr) := by
      refine Scan.run_concat rfl ?_
      rw [h.label_not_done (l := .name []) trivial (by decide)]
      exact congrArg (·, false) ((h.readLabel_cr (l := .name []) trivial).2.2.mpr rfl)
    have hone : endCr true = [] ++ [0x0d] := rfl
    rw [hone, Scan.run_append hcr, hlf, Scan.run_done (h.label_done (.inr rfl))]
    rfl
  | false =>
    have hnone : endCr false ++ lf = [0x0a] := rfl
    rw [hnone, Scan.run_done (h.label_done (.inl rfl))]
    rfl

theorem endCr_cases (b : Bool) : endCr b = [] ∨ endCr b = cr := by cases b <;> simp [endCr]

/-- The labels of a walk do not depend on what it captures. -/
theorem view_labels (items : List (Item × MatchId)) (it : Item) (o : Nat) (w : Bytes) (v : View) :
    (Scan.run (labelStep items) o w v.label).1 = (Scan.run (viewStep items it) o w v).1 ∧
      (Scan.run (viewStep items it) o w v).2.label = (Scan.run (labelStep items) o w v.label).2 := by
  apply Scan.run_lockstep (R := fun (v : View) l => v.label = l)
  · rintro j c v l rfl
    exact ⟨rfl, rfl⟩
  · rfl

theorem StartLine.label_run (h : StartLine line) (b : Bool) :
    Scan.run (labelStep items) 0 (line ++ endCr b ++ lf) (.start []) = (none, .name []) := by
  have hview := @StartLine.run items line [] h b
  have hlabel := view_labels items (.header []) 0 (line ++ endCr b ++ lf) .init
  rw [viewRun] at hview
  rw [hview] at hlabel
  exact Prod.ext hlabel.1 hlabel.2.symm

variable {f : FieldLine} {x : HttpMessage}

theorem FieldLine.bytes_free (f : FieldLine) : ∀ c ∈ f.bytes, c ≠ 0x0d ∧ c ≠ 0x0a := by
  intro c hc
  simp only [FieldLine.bytes, List.mem_append, List.mem_cons] at hc
  rcases hc with (hc | hc) | rfl | hc
  · obtain ⟨-, hcr, hlf, -⟩ := isTokenChar_ne (f.isToken c hc)
    exact ⟨hcr, hlf⟩
  · rcases f.isBlank c hc with rfl | rfl <;> decide
  · decide
  · exact f.text_free c hc

theorem not_mem_endCr (b : Bool) : ∀ c ∈ endCr b, c = 0x0d := by
  cases b <;> simp [endCr, cr, ascii]

/-- What is sent of a field is a line that is not empty. -/
theorem FieldLine.sent_line (f : FieldLine × Bool) :
    (∀ c ∈ sent f, c ≠ 0x0a) ∧ sent f ≠ [] ∧ sent f ≠ cr := by
  obtain ⟨c, w, hname⟩ := List.exists_cons_of_ne_nil f.1.name_ne
  have hhead : sent f = c :: (w ++ f.1.blanks ++ 0x3a :: f.1.text ++ endCr f.2) := by
    simp [sent, FieldLine.bytes, hname]
  refine ⟨fun d hd => ?_, ?_, ?_⟩
  · rcases List.mem_append.mp hd with hd | hd
    · exact (f.1.bytes_free d hd).2
    · rw [not_mem_endCr _ d hd]
      decide
  · rw [hhead]
    exact List.cons_ne_nil _ _
  · rw [hhead]
    intro heq
    have hc := (List.cons.inj heq).1
    exact (f.1.bytes_free c (by simp [FieldLine.bytes, hname])).1 hc

/-- The block of a message is a header block. -/
theorem HttpMessage.isBlock (x : HttpMessage) :
    Block x.block (x.start ++ endCr x.startCr) (x.fields.map FieldLine.sent) (endCr x.lastCr) where
  bytes_eq := rfl
  first c hc := by
    rcases List.mem_append.mp hc with hc | hc
    · exact (x.isStart.not_end c hc).2
    · rw [not_mem_endCr _ c hc]
      decide
  fields line hline := by
    obtain ⟨f, -, rfl⟩ := List.mem_map.mp hline
    exact FieldLine.sent_line f
  last := endCr_cases x.lastCr

theorem HttpMessage.headerEnd (h : Attached items rd) (x : HttpMessage) :
    headerEnd rd x.bytes = some x.block.length := by
  have hblock : Http1.headerEnd rd x.block = some x.block.length := by
    rw [h.headerEnd_eq, HttpMessage.block, HttpMessage.front, joinLines_cons, List.append_assoc,
      Scan.run_append (x.isStart.label_run x.startCr),
      Scan.run_append (h.named.label_lines x.isBlock.fields), h.named.label_last]
    simp only [List.length_append, Nat.zero_add, Nat.add_assoc]
  exact headerEnd_append hblock x.body

theorem isTokenChar_not_blank (h : isTokenChar c = true) : ¬IsBlank c := by
  obtain ⟨hs, -, -, -, ht⟩ := isTokenChar_ne h
  exact fun hb => hb.elim ht hs

/-- A captured name, spelled in whatever case, and the whitespace behind it. -/
theorem spells_name (hn : Captures items (.header n)) {name blanks : Bytes}
    (hname : lowercase name = n) (hb : ∀ c ∈ blanks, IsBlank c) : Spells items n (name ++ blanks) := by
  have hspell : ∀ w : Bytes, Spells items (lowercase w) w := by
    intro w
    induction w using List.reverseRecOn with
    | nil => exact .nil
    | append_singleton w c ih =>
      have heq : lowercase (w ++ [c]) = lowercase w ++ [lowerByte c] := List.map_append
      rw [heq]
      exact .char c ih
  induction blanks using List.reverseRecOn with
  | nil =>
    rw [List.append_nil, ← hname]
    exact hspell name
  | append_singleton blanks c ih =>
    rw [← List.append_assoc]
    exact .blank (ih fun d hd => hb d (List.mem_append_left _ hd)) hn (hb c (by simp))

/-- Without the whitespace, what spells a name is the name. -/
theorem Spells.name (h : Spells items t w) (ht : ∀ c ∈ t, ¬IsBlank c) :
    lowercase (w.filter fun c => decide (¬IsBlank c)) = t := by
  induction h with
  | nil => rfl
  | @char t w c h ih =>
    have hc : ¬IsBlank c := by
      intro hb
      have hlow : lowerByte c = c := by rcases hb with rfl | rfl <;> rfl
      exact ht (lowerByte c) (by simp) (hlow.symm ▸ hb)
    have heq : ∀ a b : Bytes, lowercase (a ++ b) = lowercase a ++ lowercase b := fun _ _ => List.map_append
    rw [List.filter_append, heq, ih fun d hd => ht d (List.mem_append_left _ hd)]
    simp [hc, lowercase]
  | @blank t w c h hcap hb ih =>
    rw [List.filter_append, List.filter_singleton]
    simpa [hb] using ih ht

theorem HeaderName.not_blank (h : HeaderName n) : ∀ c ∈ n, ¬IsBlank c := by
  intro c hc hb
  have hno := h.byte c hc
  rcases hb with rfl | rfl <;> exact absurd hno (by decide)

/-- A line that gives a field a value has the field. -/
def FieldLine.field (f : FieldLine) (h : f.Gives n) (hn : Captures items (.header n)) (b : Bool) :
    Field items n (FieldLine.sent (f, b)) where
  name := f.name ++ f.blanks
  blanks := f.text.takeWhile fun c => decide (IsBlank c)
  value := f.value
  rest := endCr b
  line_eq := by
    have htext : (f.text.takeWhile fun c => decide (IsBlank c)) ++ f.value = f.text :=
      List.takeWhile_append_dropWhile
    rw [htext]
    simp [sent, FieldLine.bytes]
  spells := spells_name hn h.name f.isBlank
  isBlank c hc := by
    have hb := List.mem_takeWhile_imp hc
    exact of_decide_eq_true hb
  value_ne := h.value
  first c hc := by
    have hno := List.head?_dropWhile_not (fun c => decide (IsBlank c)) f.text
    have hhead : (f.text.dropWhile fun c => decide (IsBlank c)).head? = some c := hc
    rw [hhead] at hno
    exact of_decide_eq_false hno
  noCr c hc := (f.text_free c ((List.dropWhile_suffix _).subset hc)).1
  rest_cr c hc := not_mem_endCr b c (List.mem_of_mem_head? hc)

/-- The first colon of a line is where it is. -/
theorem split_colon {w w' z z' : Bytes} (hw : ∀ c ∈ w, c ≠ 0x3a) (hw' : ∀ c ∈ w', c ≠ 0x3a)
    (h : w ++ 0x3a :: z = w' ++ 0x3a :: z') : w = w' ∧ z = z' := by
  have hfirst : ∀ {w z : Bytes}, (∀ c ∈ w, c ≠ 0x3a) →
      ((w ++ 0x3a :: z).takeWhile fun c => decide (c ≠ 0x3a)) = w := by
    intro w z hw
    rw [List.takeWhile_append_of_pos fun c hc => decide_eq_true (hw c hc)]
    simp
  have heq := congrArg (fun x : Bytes => x.takeWhile fun c => decide (c ≠ 0x3a)) h
  simp only [hfirst hw, hfirst hw'] at heq
  subst heq
  exact ⟨rfl, (List.cons.inj (List.append_cancel_left h)).2⟩

/-- A character that spells a colon is one. -/
theorem lowerByte_colon : lowerByte c = 0x3a ↔ c = 0x3a := by
  have h3a : (0x3a : UInt8).toNat = 58 := rfl
  rw [lowerByte_eq_iff, ← UInt8.toNat_inj]
  omega

/-- What spells a name has a colon only where the name has one. -/
theorem Spells.colon (h : Spells items t w) (hw : 0x3a ∈ w) : 0x3a ∈ t := by
  induction h with
  | nil => exact hw
  | @char t w c h ih =>
    rcases List.mem_append.mp hw with hw | hw
    · exact List.mem_append_left _ (ih hw)
    · rw [← List.mem_singleton.mp hw]
      exact List.mem_append_right _ (by decide)
  | @blank t w c h hcap hb ih =>
    rcases List.mem_append.mp hw with hw | hw
    · exact ih hw
    · rw [← List.mem_singleton.mp hw] at hb
      exact absurd hb (by decide)

/-- A name that starts with a colon is spelled with one. -/
theorem Spells.head (h : Spells items t w) (hn : Named items) :
    (w = [] ∧ t = []) ∨ ∃ c w' t', w = c :: w' ∧ t = lowerByte c :: t' := by
  induction h with
  | nil => exact .inl ⟨rfl, rfl⟩
  | @char t w c h ih =>
    rcases ih with ⟨rfl, rfl⟩ | ⟨d, w', t', rfl, rfl⟩
    · exact .inr ⟨c, [], [], rfl, rfl⟩
    · exact .inr ⟨d, w' ++ [c], t' ++ [lowerByte c], rfl, rfl⟩
  | @blank t w c h hcap hb ih =>
    rcases ih with ⟨rfl, rfl⟩ | ⟨d, w', t', rfl, rfl⟩
    · exact absurd rfl (hn [] hcap).ne_nil
    · exact .inr ⟨d, w' ++ [c], t', rfl, rfl⟩

theorem FieldLine.name_free (f : FieldLine) : ∀ c ∈ f.name ++ f.blanks, c ≠ 0x3a := by
  intro c hc
  rcases List.mem_append.mp hc with hc | hc
  · exact (isTokenChar_ne (f.isToken c hc)).2.2.2.1
  · rcases f.isBlank c hc with rfl | rfl <;> decide

/-- No other line has the field. -/
theorem FieldLine.gives (hn : Named items) (hc : Captures items (.header n)) {b : Bool}
    (g : Field items n (sent (f, b))) : f.Gives n := by
  have hline : g.name ++ 0x3a :: (g.blanks ++ g.value ++ g.rest) =
      (f.name ++ f.blanks) ++ 0x3a :: (f.text ++ endCr b) := by
    rw [← g.line_eq]
    simp [sent, FieldLine.bytes]
  have hfree : ∀ c ∈ g.name, c ≠ 0x3a := by
    rintro c hmem rfl
    -- such a name starts with the colon, as none of those on a line do
    have hmemn := g.spells.colon hmem
    rcases g.spells.head hn with ⟨hnil, -⟩ | ⟨d, w', t', hd, ht⟩
    · rw [hnil] at hmem
      cases hmem
    obtain ⟨a, name, ha⟩ := List.exists_cons_of_ne_nil f.name_ne
    rw [hd, ha] at hline
    have had : d = a := (List.cons.inj hline).1
    have hcolon : d = 0x3a := by
      rw [ht] at hmemn
      rcases List.mem_cons.mp hmemn with heq | htail
      · exact lowerByte_colon.mp heq.symm
      · exact absurd rfl ((hn n hc).colon 0x3a (by rw [ht]; exact htail))
    exact f.name_free a (by simp [ha]) (had.symm.trans hcolon)
  obtain ⟨hname, htext⟩ := split_colon hfree f.name_free hline
  refine ⟨?_, fun hnil => ?_⟩
  · have hspells := g.spells
    rw [hname] at hspells
    have hlow := hspells.name (hn n hc).not_blank
    have hfilter : ((f.name ++ f.blanks).filter fun c => decide (¬IsBlank c)) = f.name := by
      have hkeep : f.name.filter (fun c => decide (¬IsBlank c)) = f.name :=
        List.filter_eq_self.mpr fun c hmem => decide_eq_true (isTokenChar_not_blank (f.isToken c hmem))
      have hdrop : f.blanks.filter (fun c => decide (¬IsBlank c)) = [] :=
        List.filter_eq_nil_iff.mpr fun c hmem => by simp [f.isBlank c hmem]
      rw [List.filter_append, hkeep, hdrop, List.append_nil]
    rwa [hfilter] at hlow
  · obtain ⟨c, value, hvalue⟩ := List.exists_cons_of_ne_nil g.value_ne
    have hmem : c ∈ f.text ++ endCr b := by
      rw [← htext, hvalue]
      simp
    rcases List.mem_append.mp hmem with hmem | hmem
    · exact g.first c (by rw [hvalue]; rfl)
        (of_decide_eq_true (List.dropWhile_eq_nil_iff.mp hnil c hmem))
    · exact g.noCr c (by rw [hvalue]; simp) (not_mem_endCr b c hmem)

/-- The range is the value of the last line that gives the field one. -/
structure FieldExact (x : HttpMessage) (n : Bytes) (m : HttpMatch) : Prop where
  last : ∀ a f b, x.fields = a ++ f :: b → f.1.Gives n → (∀ g ∈ b, ¬g.1.Gives n) →
    Reports m ((x.front a).length + (f.1.bytes.length - f.1.value.length)) f.1.value.length ∧
      slice x.bytes m.idx.toNat m.len.toNat = f.1.value
  none : (∀ f ∈ x.fields, ¬f.1.Gives n) → m = .zero

theorem FieldLine.value_suffix (f : FieldLine) : ∃ z, f.bytes = z ++ f.value := by
  obtain ⟨y, hy⟩ := List.dropWhile_suffix (l := f.text) fun c => decide (IsBlank c)
  refine ⟨f.name ++ f.blanks ++ 0x3a :: y, ?_⟩
  have htext : y ++ f.value = f.text := hy
  rw [FieldLine.bytes, ← htext]
  simp

theorem HttpMessage.front_append (x : HttpMessage) (a b : List (FieldLine × Bool)) :
    x.front (a ++ b) = x.front a ++ joinLines (b.map FieldLine.sent) := by
  rw [front, front, List.map_append, ← List.cons_append, joinLines_append]

/-- Where a line is within its header block. -/
theorem HttpMessage.block_eq (x : HttpMessage) {a b : List (FieldLine × Bool)}
    {f : FieldLine × Bool} (h : x.fields = a ++ f :: b) :
    ∃ y, x.block = x.front a ++ f.1.bytes ++ y := by
  refine ⟨endCr f.2 ++ lf ++ joinLines (b.map FieldLine.sent) ++ (endCr x.lastCr ++ lf), ?_⟩
  rw [block, h, front_append, List.map_cons, joinLines_cons, FieldLine.sent]
  simp only [List.append_assoc]

theorem HttpMessage.block_line (x : HttpMessage) {a b : List (FieldLine × Bool)}
    {f : FieldLine × Bool} (h : x.fields = a ++ f :: b) :
    (x.front a).length + f.1.bytes.length ≤ x.block.length := by
  obtain ⟨y, hy⟩ := x.block_eq h
  rw [hy, List.length_append, List.length_append]
  omega

theorem HttpMessage.bytes_line (x : HttpMessage) {a b : List (FieldLine × Bool)}
    {f : FieldLine × Bool} (h : x.fields = a ++ f :: b) :
    ∃ y, x.bytes = x.front a ++ f.1.bytes ++ y := by
  obtain ⟨y, hy⟩ := x.block_eq h
  exact ⟨y ++ x.body, by rw [bytes, hy, List.append_assoc]⟩

theorem HttpMessage.slice_value (x : HttpMessage) {a b : List (FieldLine × Bool)}
    {f : FieldLine × Bool} (h : x.fields = a ++ f :: b) :
    slice x.bytes ((x.front a).length + (f.1.bytes.length - f.1.value.length)) f.1.value.length =
      f.1.value := by
  obtain ⟨z, hz⟩ := f.1.value_suffix
  obtain ⟨y, hy⟩ := x.bytes_line h
  have hlen : f.1.bytes.length - f.1.value.length = z.length := by
    rw [hz, List.length_append, Nat.add_sub_cancel]
  have hsplit : x.front a ++ (z ++ f.1.value) ++ y = (x.front a ++ z) ++ (f.1.value ++ y) := by
    simp only [List.append_assoc]
  rw [hlen, hy, hz, hsplit, slice, ← List.length_append, List.drop_left, List.take_left]

/-- The range of the field of a line. -/
theorem FieldLine.range_reports (hv : f.Gives n) (hn : Captures items (.header n)) (b : Bool)
    (hlt : o + f.bytes.length < 2 ^ 16) : Reports ((f.field hv hn b).range o)
      (o + (f.bytes.length - f.value.length)) f.value.length := by
  have htext : (f.text.takeWhile fun c => decide (IsBlank c)).length + f.value.length =
      f.text.length := by
    rw [← List.length_append]
    exact congrArg List.length List.takeWhile_append_dropWhile
  have hbytes : f.bytes.length = f.name.length + f.blanks.length + 1 + f.text.length := by
    rw [FieldLine.bytes, List.length_append, List.length_append, List.length_cons]
    omega
  have hoffset : (f.field hv hn b).offset o = o + (f.bytes.length - f.value.length) := by
    show o + (f.name ++ f.blanks).length + 1 + (f.text.takeWhile fun c => decide (IsBlank c)).length = _
    rw [List.length_append]
    omega
  refine ⟨?_, ?_⟩
  · rw [Field.range, hoffset]
    exact UInt16.toNat_ofNat_of_lt' (show o + (f.bytes.length - f.value.length) < 2 ^ 16 by omega)
  · exact UInt16.toNat_ofNat_of_lt' (show f.value.length < 2 ^ 16 by omega)

/-- What a message comes to whose header block is read. -/
theorem Attached.message (h : Attached items rd) (x : HttpMessage) (hlen : x.block.length ≤ maxBytes)
    (conn : Ip4Conn) :
    (parseMsg rd (wholeMsg x.bytes conn) .zero).ret = .ok x.block.length ∧
      (parseMsg rd (wholeMsg x.bytes conn) .zero).pres =
        (walk rd 0 x.block (.start .zero)).2.pres ∧
      ∀ n m, (.header n, m) ∈ items →
        FieldExact x n ((parseMsg rd (wholeMsg x.bytes conn) .zero).pres.get m) := by
  have hend := x.headerEnd h
  have htake : x.bytes.take x.block.length = x.block := List.take_left
  have hpres : (parseMsg rd (wholeMsg x.bytes conn) .zero).pres =
      (walk rd 0 x.block (.start .zero)).2.pres := by
    rw [parseMsg_whole_pres hend (by omega), htake]
  refine ⟨parseMsg_whole_ok_iff.mpr ⟨hend, by omega⟩, hpres, fun n m hm => ?_⟩
  have hcap : Captures items (.header n) := ⟨m, hm⟩
  obtain ⟨hsome, hnone⟩ := h.named.run_fields hcap x.isBlock (x.isStart.run x.startCr)
  have hempty : ∀ g : FieldLine × Bool, ¬g.1.Gives n → IsEmpty (Field items n (FieldLine.sent g)) :=
    fun g hg => ⟨fun fld => hg (FieldLine.gives h.named hcap fld)⟩
  have hrange : (parseMsg rd (wholeMsg x.bytes conn) .zero).pres.get m =
      (viewRun items n 0 x.block .init).2.range := by
    rw [hpres]
    exact (h.walk_view hm 0 x.block).2
  rw [hrange]
  refine ⟨fun a f b hf hgives hlast => ?_, fun hall => hnone ?_⟩
  · have hfield := hsome (a.map FieldLine.sent) (FieldLine.sent f) (b.map FieldLine.sent)
      (f.1.field hgives hcap f.2) (by rw [hf, List.map_append, List.map_cons]) fun y hy => by
        obtain ⟨g, hg, rfl⟩ := List.mem_map.mp hy
        exact hempty g (hlast g hg)
    have hsmall : (x.front a).length + f.1.bytes.length < 2 ^ 16 := by
      have hle := x.block_line hf
      unfold maxBytes at hlen
      omega
    have hr := FieldLine.range_reports hgives hcap f.2 hsmall
    have hfront : (joinLines ((x.start ++ endCr x.startCr) :: a.map FieldLine.sent)).length =
        (x.front a).length := rfl
    rw [hfront] at hfield
    rw [hfield]
    refine ⟨hr, ?_⟩
    rw [hr.1, hr.2]
    exact x.slice_value hf
  · intro y hy
    obtain ⟨g, hg, rfl⟩ := List.mem_map.mp hy
    exact hempty g (hall g hg)

/-- What is returned for a message is the length of its header block, and what is captured of a field
is the value of the last line that gives it one. -/
theorem parseMsg_exact (h : Attached items rd) (x : HttpMessage) (hlen : x.bytes.length < maxBytes)
    (conn : Ip4Conn) : (parseMsg rd (wholeMsg x.bytes conn) .zero).ret = .ok x.block.length ∧
      ∀ n m, (.header n, m) ∈ items →
        FieldExact x n ((parseMsg rd (wholeMsg x.bytes conn) .zero).pres.get m) := by
  have hblock : x.block.length ≤ x.bytes.length := by
    rw [HttpMessage.bytes, List.length_append]
    omega
  obtain ⟨hret, -, hfields⟩ := h.message x (by omega) conn
  exact ⟨hret, hfields⟩

theorem startLine_small : StartLine (ascii "G / HTTP/1.0") := by
  have hline : ascii "G / HTTP/1.0" =
      ascii "G" ++ 0x20 :: (ascii "/" ++ 0x20 :: versionText 0x31 0x30) := by decide
  have hdigit : IsDigit 0x31 ∧ IsDigit 0x30 := by decide
  rw [hline]
  exact .request (by decide) (by decide +kernel) (by decide) (by decide +kernel) hdigit.1 hdigit.2
    (by decide +kernel)

/-- The field `a` of a request, whose name is sent in upper case first and without a value then. -/
theorem parseMsg_exact_small : ∃ rd x, Attached [(.header (ascii "a"), 0)] rd ∧
    HttpMessage.bytes x = ascii "G / HTTP/1.0\r\nA: b\na :\r\n\nx" ∧
    (parseMsg rd (wholeMsg x.bytes ⟨⟨1, 1⟩, ⟨2, 2⟩⟩) .zero).ret = .ok x.block.length ∧
      ∀ n m, (.header n, m) ∈ [(Item.header (ascii "a"), 0)] →
        FieldExact x n ((parseMsg rd (wholeMsg x.bytes ⟨⟨1, 1⟩, ⟨2, 2⟩⟩) .zero).pres.get m) := by
  obtain ⟨rd, hrd, -⟩ := @attached_of_check [.captureHdr (ascii "a")] [(.header (ascii "a"), 0)]
    (P := fun _ => true) (by decide +kernel) (by decide +kernel)
  let f : FieldLine := ⟨ascii "A", [], ascii " b", by decide, by decide +kernel, by simp,
    by decide +kernel⟩
  let g : FieldLine := ⟨ascii "a", ascii " ", [], by decide, by decide +kernel, by decide +kernel,
    by simp⟩
  let x : HttpMessage := ⟨ascii "G / HTTP/1.0", true, [(f, false), (g, true)], false, ascii "x",
    startLine_small⟩
  have hbytes : x.bytes = ascii "G / HTTP/1.0\r\nA: b\na :\r\n\nx" := by decide
  have hlen : x.bytes.length < maxBytes := by
    rw [hbytes]
    decide
  exact ⟨rd, x, hrd, hbytes, parseMsg_exact hrd x hlen _⟩

end Beeper.Http1
