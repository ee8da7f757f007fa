import Beeper.Http1Reads

namespace Beeper.Http1

variable {items : List (Item × MatchId)} {l : Label} {c i : Nat} {n t : Bytes}

def Named (items : List (Item × MatchId)) : Prop :=
  ∀ n, Captures items (.header n) → HeaderName n

theorem Attached.named {rd : Rodata} (h : Attached items rd) : Named items := by
  obtain ⟨num, hl⟩ := h.loaded
  rintro n ⟨m, hm⟩
  exact hl.named _ m hm

/-- The labels of a walk that is past the first line. -/
def Label.InHeader : Label → Prop
  | .any => True
  | .anyCr => True
  | .name _ => True
  | .lfCr => True
  | .colon _ => True
  | .colonCr _ => True
  | .value _ => True
  | .valueCr _ => True
  | _ => False

theorem edge_any : (.any, i) ∈ edges items ↔ i = crInput ∨ i = lfInput := by
  rw [mem_edges]
  simp only [headerEdge, requestEdge, statusEdge, prefaceEdge, doneEdge, and_false, false_or]
  constructor
  · rintro (⟨n, -, rfl⟩ | ⟨-, rfl⟩ | ⟨-, rfl⟩ | h)
    · exact .inr rfl
    · exact .inr rfl
    · exact .inr rfl
    · exact h
  · intro h
    exact .inr (.inr (.inr h))

theorem edge_anyCr : (.anyCr, i) ∈ edges items ↔ i = lfInput := by
  simp [mem_edges, headerEdge, requestEdge, statusEdge, prefaceEdge, doneEdge]

theorem edge_lfCr : (.lfCr, i) ∈ edges items ↔ i = lfInput := by
  simp [mem_edges, headerEdge, requestEdge, statusEdge, prefaceEdge, doneEdge]

theorem edge_name : (.name t, i) ∈ edges items ↔
    (i < 256 ∧ ∃ n, Captures items (.header n) ∧ t ++ [lowerByte (UInt8.ofNat i)] <+: n) ∨
      Captures items (.header t) ∧ (i = tabInput ∨ i = spaceInput ∨ i = colonInput) ∨
        t = [] ∧ (i = crInput ∨ i = lfInput) := by
  rw [mem_edges]
  simp only [headerEdge, requestEdge, statusEdge, prefaceEdge, doneEdge, and_false, false_or]
  constructor
  · rintro (⟨n, hn, ⟨hi, hp⟩ | ⟨rfl, hi⟩⟩ | h)
    · exact .inl ⟨hi, n, hn, hp⟩
    · exact .inr (.inl ⟨hn, hi⟩)
    · exact .inr (.inr h)
  · rintro (⟨hi, n, hn, hp⟩ | ⟨hn, hi⟩ | h)
    · exact .inl ⟨n, hn, .inl ⟨hi, hp⟩⟩
    · exact .inl ⟨t, hn, .inr ⟨rfl, hi⟩⟩
    · exact .inr h

theorem edge_colon : (.colon n, i) ∈ edges items ↔ Captures items (.header n) ∧
    (i = tabInput ∨ i = spaceInput ∨ i = anyInput ∨ i = crInput ∨ i = lfInput) := by
  simp [mem_edges, headerEdge, requestEdge, statusEdge, prefaceEdge, doneEdge]

theorem edge_value : (.value n, i) ∈ edges items ↔ Captures items (.header n) ∧
    (i = anyInput ∨ i = crInput ∨ i = lfInput) := by
  simp [mem_edges, headerEdge, requestEdge, statusEdge, prefaceEdge, doneEdge]

theorem edge_colonCr : (.colonCr n, i) ∈ edges items ↔
    Captures items (.header n) ∧ i = lfInput := by
  simp [mem_edges, headerEdge, requestEdge, statusEdge, prefaceEdge, doneEdge]

theorem edge_valueCr : (.valueCr n, i) ∈ edges items ↔
    Captures items (.header n) ∧ i = lfInput := by
  simp [mem_edges, headerEdge, requestEdge, statusEdge, prefaceEdge, doneEdge]

theorem readLabel_own (h : (l, c) ∈ edges items) : readLabel items l c = l.goto c := by
  rw [readLabel, edgeOf_own h]

theorem readLabel_any (h : (l, c) ∉ edges items) (hany : (l, anyInput) ∈ edges items) :
    readLabel items l c = l.goto anyInput := by
  rw [readLabel, edgeOf_any h hany]

/-- Where the fallback state leads. -/
def again (c : Nat) : Label :=
  if c = lfInput then .name [] else if c = crInput then .anyCr else .any

theorem readLabel_again (h : (l, c) ∉ edges items) (hany : (l, anyInput) ∉ edges items) :
    readLabel items l c = again c := by
  unfold again
  by_cases hlf : c = lfInput
  · rw [readLabel, edgeOf_again h hany (edge_any.mpr (.inr hlf)), if_pos hlf]
    exact if_pos hlf
  by_cases hcr : c = crInput
  · rw [readLabel, edgeOf_again h hany (edge_any.mpr (.inl hcr)), if_neg hlf, if_pos hcr]
    exact if_neg hlf
  · have hno : (.any, c) ∉ edges items := fun hc => (edge_any.mp hc).elim hcr hlf
    rw [readLabel, edgeOf_none h hany hno, if_neg hlf, if_neg hcr]

/-- A byte that is no part of any header name. -/
theorem Named.not_separator (h : Named items) (hn : Captures items (.header n))
    (hp : t ++ [lowerByte (UInt8.ofNat i)] <+: n) :
    i ≠ tabInput ∧ i ≠ spaceInput ∧ i ≠ crInput ∧ i ≠ lfInput ∧ (i = colonInput → t = []) := by
  obtain ⟨-, hsep, hcolon⟩ := (h n hn).char hp
  simp only [List.mem_cons, List.not_mem_nil, or_false, not_or] at hsep
  obtain ⟨htab, hlf, hcr, hspace⟩ := hsep
  refine ⟨?_, ?_, ?_, ?_, ?_⟩
  · rintro rfl
    exact htab rfl
  · rintro rfl
    exact hspace rfl
  · rintro rfl
    exact hcr rfl
  · rintro rfl
    exact hlf rfl
  · rintro rfl
    exact hcolon rfl

theorem edge_name_any : (.name t, anyInput) ∉ edges items := by
  rw [edge_name]
  simp [anyInput, tabInput, spaceInput, colonInput, crInput, lfInput]

theorem Named.edge_name_lf (h : Named items) : (.name t, lfInput) ∈ edges items ↔ t = [] := by
  rw [edge_name]
  constructor
  · rintro (⟨-, n, hn, hp⟩ | ⟨-, hi⟩ | ⟨ht, -⟩)
    · exact absurd rfl (h.not_separator hn hp).2.2.2.1
    · exact absurd hi (by decide)
    · exact ht
  · intro ht
    exact .inr (.inr ⟨ht, .inr rfl⟩)

theorem Named.edge_name_cr (h : Named items) : (.name t, crInput) ∈ edges items ↔ t = [] := by
  rw [edge_name]
  constructor
  · rintro (⟨-, n, hn, hp⟩ | ⟨-, hi⟩ | ⟨ht, -⟩)
    · exact absurd rfl (h.not_separator hn hp).2.2.1
    · exact absurd hi (by decide)
    · exact ht
  · intro ht
    exact .inr (.inr ⟨ht, .inl rfl⟩)

/-- Where any byte goes on, so does a line feed. -/
theorem edge_lf_of_any (hl : l.InHeader) (hany : (l, anyInput) ∈ edges items) :
    (l, lfInput) ∈ edges items := by
  cases l with
  | any => exact absurd hany not_mem_any_any
  | anyCr => cases edge_anyCr.mp hany
  | lfCr => cases edge_lfCr.mp hany
  | name t => exact absurd hany edge_name_any
  | colon n => exact edge_colon.mpr ⟨(edge_colon.mp hany).1, .inr (.inr (.inr (.inr rfl)))⟩
  | value n => exact edge_value.mpr ⟨(edge_value.mp hany).1, .inr (.inr rfl)⟩
  | colonCr n => cases (edge_colonCr.mp hany).2
  | valueCr n => cases (edge_valueCr.mp hany).2
  | _ => exact hl.elim

/-- A line feed leads to a new line from everywhere but an empty one. -/
theorem Named.readLabel_lf (h : Named items) (hl : l.InHeader) (h1 : l ≠ .name [])
    (h2 : l ≠ .lfCr) : readLabel items l lfInput = .name [] := by
  by_cases hedge : (l, lfInput) ∈ edges items
  · rw [readLabel_own hedge]
    cases l with
    | name t => exact absurd (h.edge_name_lf.mp hedge) (fun ht => h1 (by rw [ht]))
    | lfCr => exact absurd rfl h2
    | any => rfl
    | anyCr => rfl
    | colon n => rfl
    | colonCr n => rfl
    | value n => rfl
    | valueCr n => rfl
    | _ => exact hl.elim
  · rw [readLabel_again hedge fun hany => hedge (edge_lf_of_any hl hany)]
    exact if_pos rfl

theorem edgeOf_inHeader {x : Label × Nat} (hl : l.InHeader) (h : edgeOf items l c = some x) :
    x.1.InHeader := by
  rcases edgeOf_cases h with ⟨rfl, -⟩ | ⟨rfl, -⟩ | ⟨rfl, -⟩
  · exact hl
  · exact hl
  · trivial

theorem not_closes_preface {x : Label × Nat} (h : x.1.InHeader) : ¬Item.preface.closes x := by
  obtain ⟨l, i⟩ := x
  cases l <;> simp_all [Item.closes, Item.act, prefaceAct, Label.InHeader]

/-- The edges that end the header block. -/
theorem doneAct_iff : doneAct l i .done ↔ i = lfInput ∧ (l = .name [] ∨ l = .lfCr) := by
  cases l <;> simp [doneAct, and_comm]

/-- The DFA is done with the line feed of an empty line, and with nothing else. -/
theorem Named.stops_iff (h : Named items) (hl : l.InHeader) :
    (∃ x, edgeOf items l c = some x ∧ stops items x) ↔
      c = lfInput ∧ (l = .name [] ∨ l = .lfCr) := by
  constructor
  · rintro ⟨x, hx, hstop⟩
    have hdone := hstop.resolve_right fun hp => not_closes_preface (edgeOf_inHeader hl hx) hp.2
    obtain ⟨hi, hlabel⟩ := doneAct_iff.mp hdone
    rcases edgeOf_cases hx with ⟨rfl, -⟩ | ⟨rfl, -⟩ | ⟨rfl, -⟩
    · exact ⟨hi, hlabel⟩
    · exact absurd (show anyInput = lfInput from hi) (by decide)
    · exact absurd hlabel (by simp)
  · rintro ⟨rfl, rfl | rfl⟩
    · exact ⟨_, edgeOf_own (h.edge_name_lf.mpr rfl), .inl ⟨rfl, rfl, rfl⟩⟩
    · exact ⟨_, edgeOf_own (edge_lfCr.mpr rfl), .inl ⟨rfl, rfl⟩⟩

/-- Where a byte other than a line end leads from a name. -/
theorem readLabel_blank (h : Captures items (.header t)) (hc : c = tabInput ∨ c = spaceInput) :
    readLabel items (.name t) c = .name t := by
  have hedge : (.name t, c) ∈ edges items :=
    edge_name.mpr (.inr (.inl ⟨h, hc.elim .inl fun hs => .inr (.inl hs)⟩))
  rw [readLabel_own hedge]
  rcases hc with rfl | rfl <;> rfl

theorem Named.readLabel_colon (h : Named items) (hn : Captures items (.header n)) :
    readLabel items (.name n) colonInput = .colon n := by
  have hedge : (.name n, colonInput) ∈ edges items :=
    edge_name.mpr (.inr (.inl ⟨hn, .inr (.inr rfl)⟩))
  rw [readLabel_own hedge]
  have hne := (h n hn).ne_nil
  simp [Label.goto, colonInput, lfInput, crInput, tabInput, spaceInput, hne]

theorem Named.readLabel_char (h : Named items) (hn : Captures items (.header n)) (hc : c < 256)
    (hp : t ++ [lowerByte (UInt8.ofNat c)] <+: n) :
    readLabel items (.name t) c = .name (t ++ [lowerByte (UInt8.ofNat c)]) := by
  have hedge : (.name t, c) ∈ edges items := edge_name.mpr (.inl ⟨hc, n, hn, hp⟩)
  obtain ⟨htab, hspace, hcr, hlf, hcolon⟩ := h.not_separator hn hp
  rw [readLabel_own hedge]
  have hno : ¬(c = colonInput ∧ t ≠ []) := fun hc => hc.2 (hcolon hc.1)
  simp only [Label.goto, htab, hspace, hcr, hlf, hno, or_self, if_false]

theorem readLabel_lost (hc : (.name t, c) ∉ edges items) :
    readLabel items (.name t) c = again c := readLabel_again hc edge_name_any

theorem readLabel_colon_blank (hn : Captures items (.header n))
    (hc : c = tabInput ∨ c = spaceInput) : readLabel items (.colon n) c = .colon n := by
  have hedge : (.colon n, c) ∈ edges items :=
    edge_colon.mpr ⟨hn, hc.elim .inl fun hs => .inr (.inl hs)⟩
  rw [readLabel_own hedge]
  rcases hc with rfl | rfl <;> rfl

theorem edgeOf_colon_other (hn : Captures items (.header n)) (hc : c < 256)
    (hne : c ∉ [tabInput, spaceInput, crInput, lfInput]) :
    edgeOf items (.colon n) c = some (.colon n, anyInput) := by
  simp only [List.mem_cons, List.not_mem_nil, or_false, not_or] at hne
  apply edgeOf_any
  · intro hedge
    have := (edge_colon.mp hedge).2
    have := ne_anyInput hc
    tauto
  · exact edge_colon.mpr ⟨hn, .inr (.inr (.inl rfl))⟩

theorem edgeOf_value_other (hn : Captures items (.header n)) (hc : c < 256)
    (hne : c ∉ [crInput, lfInput]) :
    edgeOf items (.value n) c = some (.value n, anyInput) := by
  simp only [List.mem_cons, List.not_mem_nil, or_false, not_or] at hne
  apply edgeOf_any
  · intro hedge
    have := (edge_value.mp hedge).2
    have := ne_anyInput hc
    tauto
  · exact edge_value.mpr ⟨hn, .inl rfl⟩

/-- A byte within a line stays within it. -/
theorem Named.readLabel_inside (h : Named items) (hl : l.InHeader) (hc : c < 256)
    (hcr : c ≠ crInput) (hlf : c ≠ lfInput) : (readLabel items l c).InHeader ∧
      readLabel items l c ≠ .name [] ∧ readLabel items l c ≠ .lfCr := by
  have hagain : again c = .any := by rw [again, if_neg hlf, if_neg hcr]
  have hlost : (l, c) ∉ edges items → (l, anyInput) ∉ edges items →
      (readLabel items l c).InHeader ∧ readLabel items l c ≠ .name [] ∧
        readLabel items l c ≠ .lfCr := by
    intro hno hany
    rw [readLabel_again hno hany, hagain]
    simp [Label.InHeader]
  cases l with
  | any => exact hlost (fun he => (edge_any.mp he).elim hcr hlf) not_mem_any_any
  | anyCr => exact hlost (fun he => hlf (edge_anyCr.mp he)) fun he => by cases edge_anyCr.mp he
  | lfCr => exact hlost (fun he => hlf (edge_lfCr.mp he)) fun he => by cases edge_lfCr.mp he
  | colonCr n =>
    exact hlost (fun he => hlf (edge_colonCr.mp he).2) fun he => by cases (edge_colonCr.mp he).2
  | valueCr n =>
    exact hlost (fun he => hlf (edge_valueCr.mp he).2) fun he => by cases (edge_valueCr.mp he).2
  | name t =>
    by_cases hedge : (.name t, c) ∈ edges items
    · rcases edge_name.mp hedge with ⟨-, n, hn, hp⟩ | ⟨hn, hi⟩ | ⟨-, hi⟩
      · rw [h.readLabel_char hn hc hp]
        simp [Label.InHeader]
      · by_cases hcolon : c = colonInput
        · subst hcolon
          rw [h.readLabel_colon hn]
          simp [Label.InHeader]
        · rw [readLabel_blank hn (by tauto)]
          simp [Label.InHeader, (h t hn).ne_nil]
      · exact absurd hi (by tauto)
    · exact hlost hedge edge_name_any
  | colon n =>
    by_cases hn : Captures items (.header n)
    · by_cases hb : c = tabInput ∨ c = spaceInput
      · rw [readLabel_colon_blank hn hb]
        simp [Label.InHeader]
      · rw [readLabel, edgeOf_colon_other hn hc (by simp; tauto)]
        simp [Label.InHeader, Label.goto, anyInput, lfInput, crInput, tabInput, spaceInput]
    · exact hlost (fun he => hn (edge_colon.mp he).1) fun he => hn (edge_colon.mp he).1
  | value n =>
    by_cases hn : Captures items (.header n)
    · rw [readLabel, edgeOf_value_other hn hc (by simp; tauto)]
      simp [Label.InHeader, Label.goto, anyInput, lfInput, crInput]
    · exact hlost (fun he => hn (edge_value.mp he).1) fun he => hn (edge_value.mp he).1
  | _ => exact hl.elim

/-- A carriage return leads to the end of an empty line from its start only. -/
theorem Named.readLabel_cr (h : Named items) (hl : l.InHeader) :
    (readLabel items l crInput).InHeader ∧ readLabel items l crInput ≠ .name [] ∧
      (readLabel items l crInput = .lfCr ↔ l = .name []) := by
  by_cases hedge : (l, crInput) ∈ edges items
  · rw [readLabel_own hedge]
    cases l with
    | name t =>
      rw [h.edge_name_cr.mp hedge]
      simp [Label.goto, crInput, lfInput, Label.InHeader]
    | anyCr => cases edge_anyCr.mp hedge
    | lfCr => cases edge_lfCr.mp hedge
    | colonCr n => cases (edge_colonCr.mp hedge).2
    | valueCr n => cases (edge_valueCr.mp hedge).2
    | any => simp [Label.goto, crInput, lfInput, Label.InHeader]
    | colon n => simp [Label.goto, crInput, lfInput, Label.InHeader]
    | value n => simp [Label.goto, crInput, lfInput, Label.InHeader]
    | _ => exact hl.elim
  · have hne : l ≠ .name [] := by
      rintro rfl
      exact hedge (h.edge_name_cr.mpr rfl)
    have hany : (l, anyInput) ∉ edges items := by
      intro hany
      cases l with
      | any => exact not_mem_any_any hany
      | anyCr => cases edge_anyCr.mp hany
      | lfCr => cases edge_lfCr.mp hany
      | name t => exact edge_name_any hany
      | colon n => exact hedge (edge_colon.mpr ⟨(edge_colon.mp hany).1, .inr (.inr (.inr (.inl rfl)))⟩)
      | value n => exact hedge (edge_value.mpr ⟨(edge_value.mp hany).1, .inr (.inl rfl)⟩)
      | colonCr n => cases (edge_colonCr.mp hany).2
      | valueCr n => cases (edge_valueCr.mp hany).2
      | _ => exact hl.elim
    rw [readLabel_again hedge hany]
    simp [again, crInput, lfInput, Label.InHeader, hne]

end Beeper.Http1
