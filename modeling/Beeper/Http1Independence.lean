import Beeper.Http1FirstEnd
import Beeper.Http1Offsets

namespace Beeper.Http1

variable {A B : List (Item × MatchId)} {items : List (Item × MatchId)} {it : Item} {l : Label}
  {line t text bytes n : Bytes} {c : UInt8} {i o s : Nat} {r : HttpMatch} {rdA rdB : Rodata}
  {mA mB : MatchId}

/-- A first line, with its end, that leaves two parsers in the same place: where it is cut short
within what one of them reads of a first line, the other one reads it as well. -/
structure FirstAlike (A B : List (Item × MatchId)) (text : Bytes) : Prop where
  target : OpenTarget text → (ReadsRequests A ↔ ReadsRequests B)
  code : OpenCode text → (Captures A .status ↔ Captures B .status)
  preface : Captures A .preface ∧ PrefaceFront A text ↔ Captures B .preface ∧ PrefaceFront B text

/-- Whatever stands between a line feed and a colon spells the name to both parsers, or to neither. -/
def NamesAlike (A B : List (Item × MatchId)) (n bytes : Bytes) : Prop :=
  ∀ front name rest, bytes = front ++ lf ++ (name ++ 0x3a :: rest) →
    (Spells A n name ↔ Spells B n name)

open Classical in
theorem FirstAlike.same (h : FirstAlike A B text) : firstEnd A text = firstEnd B text := by
  have htarget : ReadsRequests A ∧ OpenTarget text ↔ ReadsRequests B ∧ OpenTarget text :=
    and_congr_left h.target
  have hcode : Captures A .status ∧ OpenCode text ↔ Captures B .status ∧ OpenCode text :=
    and_congr_left h.code
  simp only [firstEnd, htarget, hcode, h.preface]

/-- The labels that two parsers cannot be told apart from. -/
def Label.Shared (A B : List (Item × MatchId)) : Label → Prop
  | .start t => 0x0a ∈ t ∧ Captures A .preface ∧ Captures B .preface
  | .target => ReadsRequests A ∧ ReadsRequests B
  | .version _ => ReadsRequests A ∧ ReadsRequests B
  | .versionCr => ReadsRequests A ∧ ReadsRequests B
  | .code _ => Captures A .status ∧ Captures B .status
  | .codeCr => Captures A .status ∧ Captures B .status
  | .any => True
  | .anyCr => True
  | _ => False

theorem FirstAlike.shared (h : FirstAlike A B text) (hlf : 0x0a ∈ upper text) :
    firstEnd A text = .name [] ∨ (firstEnd A text).Shared A B := by
  unfold firstEnd
  split
  next hr => exact .inr ⟨hr.1, (h.target hr.2).mp hr.1⟩
  next =>
    split
    next hs => exact .inr ⟨hs.1, (h.code hs.2).mp hs.1⟩
    next =>
      split
      next hc => exact .inr ⟨hlf, hc.1, (h.preface.mp hc).1⟩
      next => exact .inl rfl

/-- Behind a line feed, no text at the start of a message is read but the preface. -/
theorem edge_start_lf (h : 0x0a ∈ t) : (.start t, i) ∈ edges items ↔
    Captures items .preface ∧ i < 256 ∧ t ++ [UInt8.ofNat i] <+: http2Preface := by
  have hmem : ∀ {p : Bytes} {d : UInt8}, t ++ [d] <+: p → 0x0a ∈ p :=
    fun hp => hp.subset (List.mem_append_left _ h)
  have hmethods : ∀ m ∈ methods, 0x0a ∉ m := by decide +kernel
  rw [edge_start]
  constructor
  · rintro (⟨-, ⟨-, m, hm, hp⟩ | ⟨rfl, -⟩ | ⟨rfl, -⟩⟩ | ⟨-, ⟨-, hp⟩ | ⟨rfl, -⟩⟩ | h)
    · exact absurd (hmem hp) (hmethods m hm)
    · exact absurd h (by decide)
    · exact absurd h (by decide)
    · exact absurd (hmem hp) (by decide)
    · exact absurd h (by decide)
    · exact h
  · exact fun h => .inr (.inr h)

namespace Label.Shared

theorem edge (h : l.Shared A B) (i : Nat) : (l, i) ∈ edges A ↔ (l, i) ∈ edges B := by
  cases l with
  | start t => rw [edge_start_lf h.1, edge_start_lf h.1, iff_true_intro h.2.1, iff_true_intro h.2.2]
  | target => rw [edge_target, edge_target, iff_true_intro h.1, iff_true_intro h.2]
  | version t => rw [edge_version, edge_version, iff_true_intro h.1, iff_true_intro h.2]
  | versionCr => rw [edge_versionCr, edge_versionCr, iff_true_intro h.1, iff_true_intro h.2]
  | code n => rw [edge_code, edge_code, iff_true_intro h.1, iff_true_intro h.2]
  | codeCr => rw [edge_codeCr, edge_codeCr, iff_true_intro h.1, iff_true_intro h.2]
  | any => rw [edge_any, edge_any]
  | anyCr => rw [edge_anyCr, edge_anyCr]
  | _ => exact h.elim

open Classical in
theorem edgeOf (h : l.Shared A B) (i : Nat) : edgeOf A l i = edgeOf B l i := by
  simp only [Http1.edgeOf, h.edge, edge_any]

theorem readLabel (h : l.Shared A B) (i : Nat) : readLabel A l i = readLabel B l i := by
  rw [Http1.readLabel, Http1.readLabel, h.edgeOf]

theorem stops (h : l.Shared A B) {x : Label × Nat} (hx : Http1.edgeOf A l c.toNat = some x) :
    stops A x ↔ stops B x := by
  have hcap : Item.preface.closes x → (Captures A .preface ↔ Captures B .preface) := by
    intro hcl
    obtain ⟨t, ht, -⟩ := preface_closes_iff.mp hcl
    rcases edgeOf_fst hx with heq | heq
    · rw [← heq, ht] at h
      exact iff_of_true h.2.1 h.2.2
    · cases heq.symm.trans ht
  exact or_congr_right (and_congr_left hcap)

open Classical in
/-- One byte makes the same of both walks. -/
theorem viewStep (h : l.Shared A B) :
    viewStep A it i c ⟨l, s, r⟩ = viewStep B it i c ⟨l, s, r⟩ := by
  have hstops : (∃ x, Http1.edgeOf B l c.toNat = some x ∧ Http1.stops A x) ↔
      ∃ x, Http1.edgeOf B l c.toNat = some x ∧ Http1.stops B x := by
    rw [← h.edgeOf]
    exact exists_congr fun x => and_congr_right fun hx => h.stops hx
  simp only [Http1.viewStep, labelStep, h.readLabel, h.edgeOf, hstops]

theorem of_again : (again c.toNat).Shared A B ∨ c = 0x0a ∧ again c.toNat = .name [] := by
  by_cases hlf : c = 0x0a
  · subst hlf
    exact .inr ⟨rfl, rfl⟩
  · left
    rw [again, if_neg fun h => hlf (toNat_eq_lf.mp h)]
    split <;> trivial

/-- Where an edge of the byte itself leads. -/
theorem own_next (h : l.Shared A B) (he : (l, c.toNat) ∈ edges A) :
    (l.goto c.toNat).Shared A B ∨ c = 0x0a ∧ l.goto c.toNat = .name [] := by
  have hend : c.toNat = lfInput → ∀ l', l' = Label.name [] →
      l'.Shared A B ∨ c = 0x0a ∧ l' = .name [] := fun hc l' hl => .inr ⟨toNat_eq_lf.mp hc, hl⟩
  cases l with
  | start t =>
    have hmem : 0x0a ∈ t ++ [upperByte c] := List.mem_append_left _ h.1
    have hno : ∀ m ∈ methods, 0x0a ∉ m := by decide +kernel
    rw [goto_start_of_lt c.toNat_lt, UInt8.ofNat_toNat, if_neg fun hm => hno _ hm hmem]
    exact .inl ⟨hmem, h.2⟩
  | target =>
    rw [Label.goto, if_neg (ne_anyInput c.toNat_lt)]
    exact .inl h
  | version t =>
    rw [Label.goto]
    split
    next hc => exact hend hc _ rfl
    next => split <;> exact .inl h
  | versionCr => exact hend (edge_versionCr.mp he).2 _ rfl
  | code n =>
    rw [Label.goto]
    split
    next hc => exact hend hc _ rfl
    next =>
      split
      next => exact .inl h
      next => split <;> exact .inl h
  | codeCr => exact hend (edge_codeCr.mp he).2 _ rfl
  | any =>
    rw [Label.goto]
    split
    next hc => exact hend hc _ rfl
    next => exact .inl trivial
  | anyCr => exact hend (edge_anyCr.mp he) _ rfl
  | _ => exact h.elim

/-- An edge for any byte leads on. -/
theorem any_next (h : l.Shared A B) (hany : (l, anyInput) ∈ edges A) :
    (l.goto anyInput).Shared A B := by
  have hlt : ¬anyInput < 256 := Nat.lt_irrefl 256
  have hlf : anyInput ≠ lfInput := by decide
  cases l with
  | start t => exact absurd ((edge_start_lf h.1).mp hany).2.1 hlt
  | target => exact h
  | version t =>
    obtain ⟨-, ⟨hi, -⟩ | ⟨-, hi | hi⟩⟩ := edge_version.mp hany
    · exact absurd hi hlt
    · exact absurd hi (by decide)
    · exact absurd hi hlf
  | versionCr => exact absurd (edge_versionCr.mp hany).2 hlf
  | code n =>
    rw [Label.goto, if_neg hlf, if_neg (by decide)]
    split <;> exact h
  | codeCr => exact absurd (edge_codeCr.mp hany).2 hlf
  | any => exact absurd hany not_mem_any_any
  | anyCr => exact absurd (edge_anyCr.mp hany) hlf
  | _ => exact h.elim

/-- A line feed ends what is read alike, if anything does. -/
theorem next (h : l.Shared A B) (c : UInt8) : (Http1.readLabel A l c.toNat).Shared A B ∨
    c = 0x0a ∧ Http1.readLabel A l c.toNat = .name [] := by
  by_cases hown : (l, c.toNat) ∈ edges A
  · rw [readLabel_own hown]
    exact h.own_next hown
  by_cases hany : (l, anyInput) ∈ edges A
  · rw [readLabel_any hown hany]
    exact .inl (h.any_next hany)
  · rw [readLabel_again hown hany]
    exact of_again

theorem ne_field (h : l.Shared A B) : l ≠ .name n ∧ l ≠ .colon n ∧ l ≠ .value n := by
  cases l <;> simp_all [Shared]

end Label.Shared

/-- What both names are spelled by makes the same field. -/
def Field.spelled (f : Field A n line) (h : Spells B n f.name) : Field B n line :=
  ⟨f.name, f.blanks, f.value, f.rest, f.line_eq, h, f.isBlank, f.value_ne, f.first, f.noCr, f.rest_cr⟩

/-- What two parsers capture of a line that gives the field to both, or to neither. -/
theorem sameField {rA rB : HttpMatch}
    (h : ∀ name rest, line = name ++ 0x3a :: rest → (Spells A n name ↔ Spells B n name))
    (hA : ∀ f : Field A n line, rA = f.range o) (hA' : IsEmpty (Field A n line) → rA = r)
    (hB : ∀ f : Field B n line, rB = f.range o) (hB' : IsEmpty (Field B n line) → rB = r) :
    rA = rB := by
  rcases isEmpty_or_nonempty (Field A n line) with hno | ⟨⟨f⟩⟩
  · have hno' : IsEmpty (Field B n line) :=
      ⟨fun g => hno.false (g.spelled ((h _ _ g.line_eq).mpr g.spells))⟩
    rw [hA' hno, hB' hno']
  · rw [hA f, hB (f.spelled ((h _ _ f.line_eq).mp f.spells))]
    rfl

/-- The header block ends with a line feed. -/
theorem Named.run_end (h : Named items) (hl : l = .name [] ∨ l = .lfCr) (rest : Bytes) :
    (viewRun items n o (lf ++ rest) ⟨l, s, r⟩).2.range = r := by
  have hin : l.InHeader := by rcases hl with rfl | rfl <;> trivial
  have hdone : (viewStep items (.header n) o 0x0a ⟨l, s, r⟩).2 = true :=
    viewStep_done.mpr ((h.stops_iff hin).mpr ⟨rfl, hl⟩)
  have hlf : lf ++ rest = 0x0a :: rest := rfl
  rw [viewRun, hlf, Scan.run_done hdone, viewStep_idle fun x hx => lf_idle hin hx]

theorem Named.run_empty (h : Named items) (hl : line = [] ∨ line = cr) (rest : Bytes) :
    (viewRun items n o (line ++ lf ++ rest) ⟨.name [], s, r⟩).2.range = r := by
  rcases hl with rfl | rfl
  · exact h.run_end (.inl rfl) rest
  · have hedge : (.name [], (0x0d : UInt8).toNat) ∈ edges items := h.edge_name_cr.mpr rfl
    have hgoto : (Label.name []).goto (0x0d : UInt8).toNat = .lfCr := rfl
    have hstep := h.view_own (l := .name []) (n := n) (s := s) (r := r) (i := o) trivial (by decide)
      hedge (by simp [header_opens_iff, colonInput])
    rw [hgoto] at hstep
    have hcr : cr = [0x0d] := rfl
    rw [List.append_assoc, hcr, viewRun_append (viewRun_one hstep)]
    exact h.run_end (.inr rfl) rest

/-- From the start of a line on, two parsers capture the same. -/
theorem lines_alike (hA : Named A) (hB : Named B) (hnA : Captures A (.header n))
    (hnB : Captures B (.header n)) (front : Bytes) {ls : List Bytes} {tail : Bytes} {sA sB : Nat}
    (hls : ∀ line ∈ ls, ∀ c ∈ line, c ≠ 0x0a) (htail : ∀ c ∈ tail, c ≠ 0x0a)
    (hnames : NamesAlike A B n (front ++ lf ++ (joinLines ls ++ tail))) :
    (viewRun A n o (joinLines ls ++ tail) ⟨.name [], sA, r⟩).2.range =
      (viewRun B n o (joinLines ls ++ tail) ⟨.name [], sB, r⟩).2.range := by
  induction ls generalizing front o sA sB r with
  | nil =>
    obtain ⟨vA, hrunA, -, hsomeA, hnoneA⟩ := hA.run_text (s := sA) (r := r) (o := o) hnA htail
    obtain ⟨vB, hrunB, -, hsomeB, hnoneB⟩ := hB.run_text (s := sB) (r := r) (o := o) hnB htail
    rw [joinLines_nil, List.nil_append] at hnames ⊢
    rw [hrunA, hrunB]
    refine sameField (fun name rest heq => ?_) hsomeA hnoneA hsomeB hnoneB
    exact hnames front name rest (by rw [heq])
  | cons line ls ih =>
    have hlf := hls line List.mem_cons_self
    have hrest : joinLines (line :: ls) ++ tail = line ++ lf ++ (joinLines ls ++ tail) := by
      rw [joinLines_cons, List.append_assoc]
    rw [hrest] at hnames ⊢
    by_cases hempty : line = [] ∨ line = cr
    · rw [hA.run_empty hempty, hB.run_empty hempty]
    obtain ⟨h1, h2⟩ := not_or.mp hempty
    obtain ⟨sA', rA, hrunA, hsomeA, hnoneA⟩ := hA.run_line (o := o) (s := sA) (r := r) hnA hlf h1 h2
    obtain ⟨sB', rB, hrunB, hsomeB, hnoneB⟩ := hB.run_line (o := o) (s := sB) (r := r) hnB hlf h1 h2
    have hsame : rA = rB := by
      refine sameField (fun name rest heq => ?_) hsomeA hnoneA hsomeB hnoneB
      exact hnames front name (rest ++ lf ++ (joinLines ls ++ tail)) (by rw [heq]; simp)
    subst hsame
    rw [viewRun_append hrunA, viewRun_append hrunB]
    refine ih (front ++ lf ++ line) (fun x hx => hls x (List.mem_cons_of_mem _ hx)) ?_
    intro front' name rest heq
    exact hnames front' name rest (by rw [← heq]; simp)

theorem text_alike (hA : Named A) (hB : Named B) (hnA : Captures A (.header n))
    (hnB : Captures B (.header n)) (front : Bytes) {sA sB : Nat}
    (hnames : NamesAlike A B n (front ++ lf ++ bytes)) :
    (viewRun A n o bytes ⟨.name [], sA, r⟩).2.range =
      (viewRun B n o bytes ⟨.name [], sB, r⟩).2.range := by
  obtain ⟨ls, tail, rfl, hls, htail⟩ := exists_joinLines bytes
  exact lines_alike hA hB hnA hnB front hls htail hnames

/-- What is read alike is captured alike, as is what follows. -/
theorem shared_run (hA : Named A) (hB : Named B) (hnA : Captures A (.header n))
    (hnB : Captures B (.header n)) (front : Bytes) (h : l.Shared A B)
    (hnames : NamesAlike A B n (front ++ bytes)) :
    (viewRun A n o bytes ⟨l, s, r⟩).2.range = (viewRun B n o bytes ⟨l, s, r⟩).2.range := by
  induction bytes generalizing front l o with
  | nil => rfl
  | cons c bytes ih =>
    have hidle : (viewStep A (.header n) o c ⟨l, s, r⟩).1 = ⟨readLabel A l c.toNat, s, r⟩ :=
      viewStep_idle fun x hx => header_idle h.ne_field hx
    have hsame : viewStep A (.header n) o c ⟨l, s, r⟩ = viewStep B (.header n) o c ⟨l, s, r⟩ :=
      h.viewStep
    rw [viewRun, viewRun]
    cases hdone : (viewStep A (.header n) o c ⟨l, s, r⟩).2 with
    | true =>
      rw [Scan.run_done hdone, Scan.run_done (hsame ▸ hdone), hsame]
    | false =>
      rw [Scan.run_next hdone, Scan.run_next (hsame ▸ hdone), ← hsame, hidle]
      rcases h.next c with hnext | ⟨rfl, hend⟩
      · exact ih (front ++ [c]) hnext (by rwa [List.append_assoc, List.singleton_append])
      · rw [hend]
        refine text_alike hA hB hnA hnB front ?_
        rwa [List.append_assoc]

/-- Where the first line leaves both parsers alike, they capture the same of what follows. -/
theorem header_alike (hA : Named A) (hB : Named B) (hnA : Captures A (.header n))
    (hnB : Captures B (.header n))
    (hfirst : ∀ line rest, (∀ c ∈ line, c ≠ 0x0a) → bytes = line ++ lf ++ rest →
      FirstAlike A B (line ++ lf)) (hnames : NamesAlike A B n bytes) :
    (viewRun A n o bytes .init).2.range = (viewRun B n o bytes .init).2.range := by
  obtain ⟨ls, tail, rfl, hls, htail⟩ := exists_joinLines bytes
  cases ls with
  | nil => rw [joinLines_nil, List.nil_append, (Heads.run o htail).1, (Heads.run o htail).1]
  | cons line ls =>
    have hlf := hls line List.mem_cons_self
    have hbytes : joinLines (line :: ls) ++ tail = line ++ lf ++ (joinLines ls ++ tail) := by
      rw [joinLines_cons, List.append_assoc]
    have halike := hfirst line _ hlf hbytes
    rw [hbytes] at hnames ⊢
    rw [viewRun_append (Heads.run_line o hlf), viewRun_append (Heads.run_line o hlf),
      textLabel_first hlf, textLabel_first hlf, ← halike.same]
    rcases halike.shared (upper_line_lf line) with hend | hshared
    · rw [hend]
      exact text_alike hA hB hnA hnB line hnames
    · exact shared_run hA hB hnA hnB (line ++ lf) hshared hnames

/-- What a message has to be like for two parsers to capture the same of an item. -/
def Alike (A B : List (Item × MatchId)) (it : Item) (bytes : Bytes) : Prop :=
  match it with
  | .header n => (∀ line rest, (∀ c ∈ line, c ≠ 0x0a) → bytes = line ++ lf ++ rest →
      FirstAlike A B (line ++ lf)) ∧ NamesAlike A B n bytes
  | .preface => lowerPreface <+: bytes → (ReadsRequests A ↔ ReadsRequests B)
  | _ => True

open Classical in
theorem item_alike (hA : Named A) (hB : Named B) (hcA : Captures A it) (hcB : Captures B it)
    (h : Alike A B it bytes) : (Scan.run (viewStep A it) o bytes .init).2.range =
      (Scan.run (viewStep B it) o bytes .init).2.range := by
  cases it with
  | header n => exact header_alike hA hB hcA hcB h.1 h.2
  | method => rw [method_run (.inl hcA), method_run (.inl hcB)]
  | path => rw [path_run (.inr hcA), path_run (.inr hcB)]
  | status => rw [status_run hcA, status_run hcB]
  | preface =>
    have hstarts : StartsPreface A bytes ↔ StartsPreface B bytes := or_congr_right (and_congr_left h)
    rw [preface_run hcA, preface_run hcB]
    simp only [prefaceRange, hstarts]

theorem spells_congr (h : ∀ t, Captures A (.header t) → Captures B (.header t))
    (hs : Spells A n t) : Spells B n t := by
  induction hs with
  | nil => exact .nil
  | char c _ ih => exact .char c ih
  | blank _ hc hb ih => exact .blank ih (h _ hc) hb

/-- In which order the same items are captured makes no difference. -/
theorem alike_of_same (h : ∀ it, Captures A it ↔ Captures B it) (it : Item) (bytes : Bytes) :
    Alike A B it bytes := by
  have hr : ReadsRequests A ↔ ReadsRequests B := or_congr (h .method) (h .path)
  cases it with
  | header n =>
    refine ⟨fun line rest _ _ => ⟨fun _ => hr, fun _ => h .status, and_congr (h .preface) ?_⟩, ?_⟩
    · exact or_congr_right (and_congr_left fun _ => hr)
    · exact fun _ _ _ _ => ⟨spells_congr fun t => (h (.header t)).mp,
        spells_congr fun t => (h (.header t)).mpr⟩
  | preface => exact fun _ => hr
  | _ => trivial

/-- Outside the bytes that are parsed, nothing is captured. -/
theorem parseSkb_outside {rd : Rodata} {skb : SkBuff} {off : Nat} {pres : HttpParseRes}
    {np : Option Nat} (h : ¬(off < maxBytes ∧ off < skb.bytes.length)) : (parseSkb rd skb off pres np).pres = pres := by
  unfold parseSkb
  by_cases h1 : maxBytes ≤ off
  · simp only [if_pos h1]
  by_cases h2 : skb.bytes.length < off
  · simp only [if_neg h1, if_pos h2]
  · have h3 : off = skb.bytes.length := by omega
    simp only [if_neg h1, if_neg h2, if_pos h3]

/-- Captures do not depend on each other, other than through a first line that is cut short and names
that are spelled with whitespace. -/
theorem captures_independent (hA : Attached A rdA) (hB : Attached B rdB) (hmA : (it, mA) ∈ A)
    (hmB : (it, mB) ∈ B) :
    ((∀ it, Captures A it ↔ Captures B it) → ∀ bytes, Alike A B it bytes) ∧
    (∀ msg : SkMsg, msg.pullable → Alike A B it (msg.bytes.take (reach msg)) →
      (parseMsg rdA msg .zero).pres.get mA = (parseMsg rdB msg .zero).pres.get mB) ∧
    ∀ (skb : SkBuff) (off : Nat), skb.pullable →
      Alike A B it ((skb.bytes.take (maxBytes + 1)).drop off) →
        (parseSkb rdA skb off .zero none).pres.get mA = (parseSkb rdB skb off .zero none).pres.get mB := by
  refine ⟨fun h => alike_of_same h it, fun msg hp h => ?_, fun skb off hp h => ?_⟩
  · rw [(parseMsg_eq rdA .zero hp).2, (parseMsg_eq rdB .zero hp).2, (hA.walk_view hmA 0 _).2,
      (hB.walk_view hmB 0 _).2]
    exact item_alike hA.named hB.named ⟨mA, hmA⟩ ⟨mB, hmB⟩ h
  · by_cases hoff : off < maxBytes ∧ off < skb.bytes.length
    · rw [(parseSkb_eq rdA .zero hp hoff.1 hoff.2).2, (parseSkb_eq rdB .zero hp hoff.1 hoff.2).2,
        (hA.walk_view hmA off _).2, (hB.walk_view hmB off _).2]
      exact item_alike hA.named hB.named ⟨mA, hmA⟩ ⟨mB, hmB⟩ h
    · rw [parseSkb_outside hoff, parseSkb_outside hoff]
      rfl

def fieldA : Bytes := ascii "GET / HTTP/1.1\r\na: b\r\n\r\n"

/-- Bytes of another message in front of it. -/
def behindOther : SkBuff := ⟨ascii "zzz" ++ fieldA, 0, ⟨⟨1, 1⟩, ⟨2, 2⟩⟩, true, Nat.zero_le _⟩

theorem alike_fieldA : Alike [(.path, 1), (.header (ascii "a"), 0)]
    [(.header (ascii "a"), 2), (.preface, 1), (.path, 0)] (.header (ascii "a")) fieldA := by
  refine ⟨fun line rest _ heq => ⟨fun _ => ?_, fun _ => ?_, ?_⟩, fun _ _ _ _ => ⟨?_, ?_⟩⟩
  · exact iff_of_true (.inr ⟨1, by simp⟩) (.inr ⟨0, by simp⟩)
  · exact iff_of_false (by simp [Captures]) (by simp [Captures])
  · -- the first line does not start like the preface
    have hhead : (line ++ lf).head? = some 0x47 := by
      have h := congrArg List.head? heq
      rw [List.head?_append_of_ne_nil _ (by simp [lf, ascii])] at h
      exact h.symm
    refine iff_of_false (by simp [Captures]) ?_
    rintro ⟨-, ⟨z, hz⟩ | ⟨-, z, hz⟩⟩
    · have h := congrArg List.head? hz
      rw [List.head?_append, hhead, Option.some_or] at h
      exact absurd h (by decide)
    · have h := congrArg List.head? hz
      rw [List.head?_append, hhead, Option.some_or] at h
      exact absurd h (by decide)
  · exact spells_congr fun t => by simp [Captures]
  · exact spells_congr fun t => by simp [Captures]

theorem captures_independent_fieldA : ∃ rdA rdB,
    Attached [(.path, 1), (.header (ascii "a"), 0)] rdA ∧
    Attached [(.header (ascii "a"), 2), (.preface, 1), (.path, 0)] rdB ∧
    (parseMsg rdA (wholeMsg fieldA ⟨⟨1, 1⟩, ⟨2, 2⟩⟩) .zero).pres.get 0 =
      (parseMsg rdB (wholeMsg fieldA ⟨⟨1, 1⟩, ⟨2, 2⟩⟩) .zero).pres.get 2 ∧
    (parseSkb rdA behindOther 3 .zero none).pres.get 0 =
      (parseSkb rdB behindOther 3 .zero none).pres.get 2 := by
  obtain ⟨rdA, hA, -⟩ := @attached_of_check [.captureHdr pseudoPath, .captureHdr (ascii "a")]
    [(.path, 1), (.header (ascii "a"), 0)] (fun _ => true) (by decide +kernel) (by decide +kernel)
  obtain ⟨rdB, hB, -⟩ := @attached_of_check
    [.captureHdr (ascii "a"), .matchHttp2Preface, .captureHdr pseudoPath]
    [(.header (ascii "a"), 2), (.preface, 1), (.path, 0)] (fun _ => true) (by decide +kernel)
    (by decide +kernel)
  obtain ⟨-, hmsg, hskb⟩ := @captures_independent _ _ (.header (ascii "a")) rdA rdB 0 2 hA hB
    (by decide) (by decide)
  have hread : (wholeMsg fieldA ⟨⟨1, 1⟩, ⟨2, 2⟩⟩).bytes.take
      (reach (wholeMsg fieldA ⟨⟨1, 1⟩, ⟨2, 2⟩⟩)) = fieldA := by decide
  have hbehind : (behindOther.bytes.take (maxBytes + 1)).drop 3 = fieldA := by decide
  refine ⟨rdA, rdB, hA, hB, hmsg _ rfl ?_, hskb _ 3 rfl ?_⟩
  · rw [hread]
    exact alike_fieldA
  · rw [hbehind]
    exact alike_fieldA

/-- Two parsers do not report the same of a message that is sent to both. -/
def Differ (A B : List (Item × MatchId)) (mA mB : MatchId) (bytes : Bytes) : Prop :=
  ∃ rdA rdB, Attached A rdA ∧ Attached B rdB ∧
    (parseMsg rdA (wholeMsg bytes ⟨⟨1, 1⟩, ⟨2, 2⟩⟩) .zero).pres.get mA ≠
      (parseMsg rdB (wholeMsg bytes ⟨⟨1, 1⟩, ⟨2, 2⟩⟩) .zero).pres.get mB

theorem differ_of_check {callsA callsB : List Call} {bytes : Bytes}
    (hvA : ValidCalls callsA) (hvB : ValidCalls callsB) (r : HttpMatch)
    (hA : checkLoad callsA A (fun rd => decide
      ((parseMsg rd (wholeMsg bytes ⟨⟨1, 1⟩, ⟨2, 2⟩⟩) .zero).pres.get mA = r)) = true)
    (hB : checkLoad callsB B (fun rd => decide
      ((parseMsg rd (wholeMsg bytes ⟨⟨1, 1⟩, ⟨2, 2⟩⟩) .zero).pres.get mB ≠ r)) = true) :
    Differ A B mA mB bytes := by
  obtain ⟨rdA, ha, heq⟩ := attached_of_check hvA hA
  obtain ⟨rdB, hb, hne⟩ := attached_of_check hvB hB
  refine ⟨rdA, rdB, ha, hb, fun h => of_decide_eq_true hne ?_⟩
  rw [← h]
  exact of_decide_eq_true heq

/-- A line end within the target, within a status code and within the preface, a name with whitespace
in it, and the preface in another case. -/
theorem captures_dependent :
    Differ [(.header (ascii "a"), 0)] [(.path, 1), (.header (ascii "a"), 0)] 0 0
      (ascii "GET /\na: b\n\n") ∧
    Differ [(.header (ascii "a"), 0)] [(.status, 1), (.header (ascii "a"), 0)] 0 0
      (ascii "HTTP/1.1 200\na: b\n\n") ∧
    Differ [(.header (ascii "a"), 0)] [(.preface, 1), (.header (ascii "a"), 0)] 0 0
      (ascii "PRI * HTTP/2.0\r\na: b\n\n") ∧
    Differ [(.header (ascii "ab"), 0)] [(.header (ascii "a"), 1), (.header (ascii "ab"), 0)] 0 0
      (ascii "G\na b: c\n\n") ∧
    Differ [(.preface, 0)] [(.method, 1), (.preface, 0)] 0 0 lowerPreface := by
  refine ⟨?_, ?_, ?_, ?_, ?_⟩
  · exact @differ_of_check _ _ _ _ [.captureHdr (ascii "a")]
      [.captureHdr pseudoPath, .captureHdr (ascii "a")] _ (by decide +kernel) (by decide +kernel)
      ⟨9, 1, .msg, false⟩ (by decide +kernel) (by decide +kernel)
  · exact @differ_of_check _ _ _ _ [.captureHdr (ascii "a")]
      [.captureHdr pseudoStatus, .captureHdr (ascii "a")] _ (by decide +kernel) (by decide +kernel)
      ⟨16, 1, .msg, false⟩ (by decide +kernel) (by decide +kernel)
  · exact @differ_of_check _ _ _ _ [.captureHdr (ascii "a")]
      [.matchHttp2Preface, .captureHdr (ascii "a")] _ (by decide +kernel) (by decide +kernel)
      ⟨19, 1, .msg, false⟩ (by decide +kernel) (by decide +kernel)
  · exact @differ_of_check _ _ _ _ [.captureHdr (ascii "ab")]
      [.captureHdr (ascii "a"), .captureHdr (ascii "ab")] _ (by decide +kernel) (by decide +kernel)
      .zero (by decide +kernel) (by decide +kernel)
  · exact @differ_of_check _ _ _ _ [.matchHttp2Preface]
      [.captureHdr pseudoMethod, .matchHttp2Preface] _ (by decide +kernel) (by decide +kernel)
      .zero (by decide +kernel) (by decide +kernel)

end Beeper.Http1
