import Beeper.Http1HeaderEnd
import Mathlib.Data.List.Induction

namespace Beeper.Http1

variable {items : List (Item × MatchId)} {l : Label} {n t w : Bytes} {c : UInt8} {i s : Nat}
  {r : HttpMatch} {x : Label × Nat}

def IsBlank (c : UInt8) : Prop := c = 0x09 ∨ c = 0x20

theorem isBlank_iff : IsBlank c ↔ c.toNat = tabInput ∨ c.toNat = spaceInput := by
  rw [IsBlank, ← UInt8.toNat_inj, ← UInt8.toNat_inj]
  rfl

theorem toNat_eq_colon : c.toNat = colonInput ↔ c = 0x3a := by
  rw [← UInt8.toNat_inj]
  rfl

/-- The text `w` spells `t`, as the DFA reads it: in either case, and with whitespace behind
everything that is itself captured. -/
inductive Spells (items : List (Item × MatchId)) : Bytes → Bytes → Prop
  | nil : Spells items [] []
  | char {t w : Bytes} (c : UInt8) (h : Spells items t w) :
      Spells items (t ++ [lowerByte c]) (w ++ [c])
  | blank {t w : Bytes} {c : UInt8} (h : Spells items t w) (ht : Captures items (.header t))
      (hc : IsBlank c) : Spells items t (w ++ [c])

/-- A line that starts with the name `n` and gives it a value. The value ends with the line, or
with the first CR. -/
structure Field (items : List (Item × MatchId)) (n line : Bytes) where
  name : Bytes
  blanks : Bytes
  value : Bytes
  rest : Bytes
  line_eq : line = name ++ 0x3a :: (blanks ++ value ++ rest)
  spells : Spells items n name
  isBlank : ∀ c ∈ blanks, IsBlank c
  value_ne : value ≠ []
  first : ∀ c ∈ value.head?, ¬IsBlank c
  noCr : ∀ c ∈ value, c ≠ 0x0d
  rest_cr : ∀ c ∈ rest.head?, c = 0x0d

theorem header_opens_iff : (Item.header n).opens x ↔
    x = (.name n, colonInput) ∨ x = (.colon n, tabInput) ∨ x = (.colon n, spaceInput) := by
  obtain ⟨l, i⟩ := x
  cases l <;> simp [Item.opens, Item.act, headerAct, and_or_left]

theorem header_closes_iff : (Item.header n).closes x ↔
    x = (.colon n, anyInput) ∨ x = (.value n, anyInput) := by
  obtain ⟨l, i⟩ := x
  cases l <;> simp [Item.closes, Item.act, headerAct]

/-- A step that takes an edge, or none, without an action for the item. -/
theorem viewStep_idle {it : Item} {v : View} (h : ∀ x, edgeOf items v.label c.toNat = some x →
    ¬it.opens x ∧ ¬it.closes x) :
    (viewStep items it i c v).1 = ⟨readLabel items v.label c.toNat, v.start, v.range⟩ := by
  have hopens : ¬∃ x, edgeOf items v.label c.toNat = some x ∧ it.opens x :=
    not_exists.mpr fun x hx => (h x hx.1).1 hx.2
  have hcloses : ¬∃ x, edgeOf items v.label c.toNat = some x ∧ it.closes x :=
    not_exists.mpr fun x hx => (h x hx.1).2 hx.2
  simp only [viewStep, labelStep, if_neg hopens, if_neg hcloses]

theorem viewStep_opens {it : Item} {v : View} (hx : edgeOf items v.label c.toNat = some x)
    (ho : it.opens x) (hc : ¬it.closes x) :
    (viewStep items it i c v).1 = ⟨readLabel items v.label c.toNat, i + 1, v.range⟩ := by
  have hcloses : ¬∃ x, edgeOf items v.label c.toNat = some x ∧ it.closes x :=
    not_exists.mpr fun y hy => hc (Option.some.inj (hx.symm.trans hy.1) ▸ hy.2)
  simp only [viewStep, labelStep, if_neg hcloses]
  rw [if_pos ⟨x, hx, ho⟩]

theorem viewStep_closes {it : Item} {v : View} (hx : edgeOf items v.label c.toNat = some x)
    (ho : ¬it.opens x) (hc : it.closes x) :
    (viewStep items it i c v).1 =
      ⟨readLabel items v.label c.toNat, v.start, rangeTo v.start i⟩ := by
  have hopens : ¬∃ x, edgeOf items v.label c.toNat = some x ∧ it.opens x :=
    not_exists.mpr fun y hy => ho (Option.some.inj (hx.symm.trans hy.1) ▸ hy.2)
  simp only [viewStep, labelStep, if_neg hopens]
  rw [if_pos ⟨x, hx, hc⟩]

/-- The DFA is not done within a line. -/
theorem Named.not_done (h : Named items) (hl : l.InHeader) (hc : c ≠ 0x0a) {it : Item} :
    (viewStep items it i c ⟨l, s, r⟩).2 = false := by
  have hno := mt (h.stops_iff hl).mp fun hend => hc (toNat_eq_lf.mp hend.1)
  exact Bool.eq_false_iff.mpr (mt (labelStep_done (i := i)).mp hno)

theorem edgeOf_name (h : (.name t, c.toNat) ∈ edges items) :
    edgeOf items (.name t) c.toNat = some (.name t, c.toNat) := edgeOf_own h

/-- The byte that goes on with a name. -/
theorem Named.view_char (h : Named items) {n' : Bytes} (hn : Captures items (.header n'))
    (hp : t ++ [lowerByte c] <+: n') (hne : n ≠ []) : viewStep items (.header n) i c ⟨.name t, s, r⟩ =
      (⟨.name (t ++ [lowerByte c]), s, r⟩, false) := by
  have hp' : t ++ [lowerByte (UInt8.ofNat c.toNat)] <+: n' := by rwa [UInt8.ofNat_toNat]
  obtain ⟨-, -, -, hlf, hcolon⟩ := h.not_separator hn hp'
  have hedge : (.name t, c.toNat) ∈ edges items := edge_name.mpr (.inl ⟨c.toNat_lt, n', hn, hp'⟩)
  refine Prod.ext ?_ (h.not_done (by trivial) fun hc => hlf (toNat_eq_lf.mpr hc))
  rw [viewStep_idle]
  · show View.mk (readLabel items (.name t) c.toNat) s r = _
    rw [h.readLabel_char hn c.toNat_lt hp', UInt8.ofNat_toNat]
  · intro x hx
    cases (edgeOf_name hedge).symm.trans hx
    rw [header_opens_iff, header_closes_iff]
    simp only [Prod.mk.injEq, Label.name.injEq, reduceCtorEq, false_and, or_false, not_false_eq_true,
      and_true]
    rintro ⟨rfl, hc⟩
    exact hne (hcolon hc)

/-- Whitespace behind something that is captured. -/
theorem Named.view_blank (h : Named items) (ht : Captures items (.header t)) (hc : IsBlank c) :
    viewStep items (.header n) i c ⟨.name t, s, r⟩ = (⟨.name t, s, r⟩, false) := by
  have hb := isBlank_iff.mp hc
  have hedge : (.name t, c.toNat) ∈ edges items :=
    edge_name.mpr (.inr (.inl ⟨ht, hb.elim .inl fun hs => .inr (.inl hs)⟩))
  refine Prod.ext ?_ (h.not_done (by trivial) ?_)
  · rw [viewStep_idle]
    · show View.mk (readLabel items (.name t) c.toNat) s r = _
      rw [readLabel_blank ht hb]
    · intro x hx
      cases (edgeOf_name hedge).symm.trans hx
      rw [header_opens_iff, header_closes_iff]
      rcases hc with rfl | rfl <;> simp [tabInput, spaceInput, colonInput]
  · rcases hc with rfl | rfl <;> decide

/-- The colon behind the name. -/
theorem Named.view_colon (h : Named items) (hn : Captures items (.header n)) :
    viewStep items (.header n) i 0x3a ⟨.name n, s, r⟩ = (⟨.colon n, i + 1, r⟩, false) := by
  have hedge : (.name n, (0x3a : UInt8).toNat) ∈ edges items :=
    edge_name.mpr (.inr (.inl ⟨hn, .inr (.inr rfl)⟩))
  refine Prod.ext ?_ (h.not_done (by trivial) (by decide))
  rw [viewStep_opens (edgeOf_name hedge) (header_opens_iff.mpr (.inl rfl))
    (by simp [header_closes_iff])]
  exact congrArg (View.mk · _ _) (h.readLabel_colon hn)

theorem Named.view_colon_blank (h : Named items) (hn : Captures items (.header n))
    (hc : IsBlank c) :
    viewStep items (.header n) i c ⟨.colon n, s, r⟩ = (⟨.colon n, i + 1, r⟩, false) := by
  have hb := isBlank_iff.mp hc
  have hedge : (.colon n, c.toNat) ∈ edges items :=
    edge_colon.mpr ⟨hn, hb.elim .inl fun hs => .inr (.inl hs)⟩
  refine Prod.ext ?_ (h.not_done (by trivial) ?_)
  · rw [viewStep_opens (edgeOf_own hedge)]
    · exact congrArg (View.mk · _ _) (readLabel_colon_blank hn hb)
    · rw [header_opens_iff]
      rcases hb with hb | hb <;> simp [hb]
    · rw [header_closes_iff]
      rcases hc with rfl | rfl <;> simp [anyInput]
  · rcases hc with rfl | rfl <;> decide

/-- The first byte of a value. -/
theorem Named.view_colon_value (h : Named items) (hn : Captures items (.header n))
    (hb : ¬IsBlank c) (hcr : c ≠ 0x0d) (hlf : c ≠ 0x0a) :
    viewStep items (.header n) i c ⟨.colon n, s, r⟩ = (⟨.value n, s, rangeTo s i⟩, false) := by
  have hne : c.toNat ∉ [tabInput, spaceInput, crInput, lfInput] := by
    rw [isBlank_iff, not_or] at hb
    rw [ne_eq, ← toNat_eq_cr] at hcr
    rw [ne_eq, ← toNat_eq_lf] at hlf
    simp only [List.mem_cons, List.not_mem_nil, or_false, not_or]
    exact ⟨hb.1, hb.2, hcr, hlf⟩
  have hx := edgeOf_colon_other hn c.toNat_lt hne
  refine Prod.ext ?_ (h.not_done (by trivial) hlf)
  rw [viewStep_closes hx (by simp [header_opens_iff, anyInput, tabInput, spaceInput])
    (header_closes_iff.mpr (.inl rfl))]
  show View.mk (readLabel items (.colon n) c.toNat) s (rangeTo s i) = _
  rw [readLabel, hx]
  rfl

theorem Named.view_value (h : Named items) (hn : Captures items (.header n))
    (hcr : c ≠ 0x0d) (hlf : c ≠ 0x0a) :
    viewStep items (.header n) i c ⟨.value n, s, r⟩ = (⟨.value n, s, rangeTo s i⟩, false) := by
  have hne : c.toNat ∉ [crInput, lfInput] := by
    rw [ne_eq, ← toNat_eq_cr] at hcr
    rw [ne_eq, ← toNat_eq_lf] at hlf
    simp only [List.mem_cons, List.not_mem_nil, or_false, not_or]
    exact ⟨hcr, hlf⟩
  have hx := edgeOf_value_other hn c.toNat_lt hne
  refine Prod.ext ?_ (h.not_done (by trivial) hlf)
  rw [viewStep_closes hx (by simp [header_opens_iff]) (header_closes_iff.mpr (.inr rfl))]
  show View.mk (readLabel items (.value n) c.toNat) s (rangeTo s i) = _
  rw [readLabel, hx]
  rfl

/-- The labels from which the rest of a line cannot be part of the field `n`. -/
structure Off (n : Bytes) (l : Label) : Prop where
  inHeader : l.InHeader
  name : ∀ t, l ≠ .name t
  colon : l ≠ .colon n
  value : l ≠ .value n

theorem again_off (hlf : c ≠ 0x0a) : Off n (again c.toNat) := by
  have hc : c.toNat ≠ lfInput := fun hc => hlf (toNat_eq_lf.mp hc)
  rw [again, if_neg hc]
  split <;> exact ⟨trivial, by simp, by simp, by simp⟩

theorem off_readLabel (ho : Off n l) (hlf : c ≠ 0x0a) : Off n (readLabel items l c.toNat) := by
  have hc : c.toNat ≠ lfInput := fun hc => hlf (toNat_eq_lf.mp hc)
  have hlost : (l, c.toNat) ∉ edges items → (l, anyInput) ∉ edges items →
      Off n (readLabel items l c.toNat) := by
    intro hno hany
    rw [readLabel_again hno hany]
    exact again_off hlf
  cases l with
  | any =>
    by_cases hcr : c.toNat = crInput
    · rw [readLabel_own (edge_any.mpr (.inl hcr)), Label.goto, if_neg hc]
      exact ⟨trivial, by simp, by simp, by simp⟩
    · exact hlost (fun he => (edge_any.mp he).elim hcr hc) not_mem_any_any
  | anyCr => exact hlost (fun he => hc (edge_anyCr.mp he)) fun he => by cases edge_anyCr.mp he
  | lfCr => exact hlost (fun he => hc (edge_lfCr.mp he)) fun he => by cases edge_lfCr.mp he
  | colonCr n' =>
    exact hlost (fun he => hc (edge_colonCr.mp he).2) fun he => by cases (edge_colonCr.mp he).2
  | valueCr n' =>
    exact hlost (fun he => hc (edge_valueCr.mp he).2) fun he => by cases (edge_valueCr.mp he).2
  | name t => exact absurd rfl (ho.name t)
  | colon n' =>
    have hne : n' ≠ n := fun heq => ho.colon (by rw [heq])
    have hgoto : ∀ i, i ≠ lfInput → Off n ((Label.colon n').goto i) := by
      intro i hi
      rw [Label.goto, if_neg hi]
      split <;> [skip; split] <;> exact ⟨trivial, by simp, by simp [hne], by simp [hne]⟩
    by_cases hown : (.colon n', c.toNat) ∈ edges items
    · rw [readLabel_own hown]
      exact hgoto _ hc
    by_cases hany : (.colon n', anyInput) ∈ edges items
    · rw [readLabel_any hown hany]
      exact hgoto _ (by decide)
    · exact hlost hown hany
  | value n' =>
    have hne : n' ≠ n := fun heq => ho.value (by rw [heq])
    have hgoto : ∀ i, i ≠ lfInput → Off n ((Label.value n').goto i) := by
      intro i hi
      rw [Label.goto, if_neg hi]
      split <;> exact ⟨trivial, by simp, by simp, by simp [hne]⟩
    by_cases hown : (.value n', c.toNat) ∈ edges items
    · rw [readLabel_own hown]
      exact hgoto _ hc
    by_cases hany : (.value n', anyInput) ∈ edges items
    · rw [readLabel_any hown hany]
      exact hgoto _ (by decide)
    · exact hlost hown hany
  | _ => exact ho.inHeader.elim

/-- Once the field cannot be read any more, nothing happens until the line ends. -/
theorem Named.view_off (h : Named items) (ho : Off n l) (hlf : c ≠ 0x0a) :
    viewStep items (.header n) i c ⟨l, s, r⟩ = (⟨readLabel items l c.toNat, s, r⟩, false) := by
  refine Prod.ext ?_ (h.not_done ho.inHeader hlf)
  rw [viewStep_idle]
  intro x hx
  have hlabel : x.1 = l ∨ x.1 = .any := by
    rcases edgeOf_cases hx with ⟨rfl, -⟩ | ⟨rfl, -⟩ | ⟨rfl, -⟩
    · exact .inl rfl
    · exact .inl rfl
    · exact .inr rfl
  have hne : x.1 ≠ .name n ∧ x.1 ≠ .colon n ∧ x.1 ≠ .value n := by
    rcases hlabel with heq | heq
    · rw [heq]
      exact ⟨ho.name n, ho.colon, ho.value⟩
    · rw [heq]
      simp
  rw [header_opens_iff, header_closes_iff]
  refine ⟨?_, ?_⟩
  · rintro (rfl | rfl | rfl)
    · exact hne.1 rfl
    · exact hne.2.1 rfl
    · exact hne.2.1 rfl
  · rintro (rfl | rfl)
    · exact hne.2.1 rfl
    · exact hne.2.2 rfl

/-- The run over bytes that are numbered from the first argument on. -/
noncomputable abbrev viewRun (items : List (Item × MatchId)) (n : Bytes) :
    Nat → Bytes → View → Option Nat × View := Scan.run (viewStep items (.header n))

theorem viewRun_append {i : Nat} {a b : Bytes} {v v' : View}
    (h : viewRun items n i a v = (none, v')) :
    viewRun items n i (a ++ b) v = viewRun items n (i + a.length) b v' := Scan.run_append h b

theorem viewRun_one {v v' : View} (h : viewStep items (.header n) i c v = (v', false)) :
    viewRun items n i [c] v = (none, v') := by
  rw [viewRun, Scan.run_next (by rw [h]), h]
  rfl

/-- A step that always leads on to a state of the same kind. -/
theorem viewRun_concat {a : Bytes} {v v' v'' : View} (h : viewRun items n i a v = (none, v'))
    (hc : viewStep items (.header n) (i + a.length) c v' = (v'', false)) :
    viewRun items n i (a ++ [c]) v = (none, v'') := Scan.run_concat h hc

/-- What spells a name is read up to the name. -/
theorem Named.run_spells (h : Named items) (hn : Captures items (.header n)) (o : Nat)
    (hs : Spells items t w) (ht : t <+: n) :
    viewRun items n o w ⟨.name [], s, r⟩ = (none, ⟨.name t, s, r⟩) := by
  induction hs with
  | nil => rfl
  | @char t w c hs ih =>
    apply viewRun_concat (ih ((List.prefix_append _ _).trans ht))
    exact h.view_char hn ht (h n hn).ne_nil
  | @blank t w c hs hc hb ih =>
    apply viewRun_concat (ih ht)
    exact h.view_blank hc hb

theorem Named.run_blanks (h : Named items) (hn : Captures items (.header n)) (o : Nat)
    {blanks : Bytes} (hb : ∀ c ∈ blanks, IsBlank c) :
    viewRun items n o blanks ⟨.colon n, o, r⟩ = (none, ⟨.colon n, o + blanks.length, r⟩) := by
  induction blanks using List.reverseRecOn with
  | nil => rfl
  | append_singleton blanks c ih =>
    have hrun := ih fun d hd => hb d (List.mem_append_left _ hd)
    rw [List.length_append, List.length_singleton, ← Nat.add_assoc]
    apply viewRun_concat hrun
    exact h.view_colon_blank hn (hb c (by simp))

/-- The range of a value, which starts at `o`. -/
theorem Named.run_value (h : Named items) (hn : Captures items (.header n)) (o : Nat)
    {value : Bytes} (hne : value ≠ []) (hfirst : ∀ c ∈ value.head?, ¬IsBlank c)
    (hv : ∀ c ∈ value, c ≠ 0x0d ∧ c ≠ 0x0a) :
    viewRun items n o value ⟨.colon n, o, r⟩ =
      (none, ⟨.value n, o, rangeTo o (o + value.length - 1)⟩) := by
  induction value using List.reverseRecOn with
  | nil => exact absurd rfl hne
  | append_singleton value c ih =>
    obtain ⟨hcr, hlf⟩ := hv c (by simp)
    have hlen : o + (value ++ [c]).length - 1 = o + value.length := by
      rw [List.length_append, List.length_singleton]
      omega
    rw [hlen]
    by_cases hnil : value = []
    · subst hnil
      apply viewRun_one
      exact h.view_colon_value hn (hfirst c rfl) hcr hlf
    · have hhead : ∀ d ∈ value.head?, ¬IsBlank d := by
        intro d hd
        apply hfirst d
        rw [List.head?_append, hd]
        rfl
      have hrun := ih hnil hhead fun d hd => hv d (List.mem_append_left _ hd)
      apply viewRun_concat hrun
      exact h.view_value hn hcr hlf

theorem Named.run_off (h : Named items) {bytes : Bytes} (o : Nat) (ho : Off n l)
    (hlf : ∀ c ∈ bytes, c ≠ 0x0a) :
    ∃ l', viewRun items n o bytes ⟨l, s, r⟩ = (none, ⟨l', s, r⟩) ∧ Off n l' := by
  induction bytes using List.reverseRecOn with
  | nil => exact ⟨l, rfl, ho⟩
  | append_singleton bytes c ih =>
    obtain ⟨l', hrun, ho'⟩ := ih fun d hd => hlf d (List.mem_append_left _ hd)
    have hc := hlf c (by simp)
    exact ⟨_, viewRun_concat hrun (h.view_off ho' hc), off_readLabel ho' hc⟩

/-- A field stays one as its line goes on. -/
theorem Field.extend {line : Bytes} (f : Field items n line) (c : UInt8) :
    Nonempty (Field items n (line ++ [c])) := by
  by_cases hrest : f.rest = []
  · by_cases hc : c = 0x0d
    · refine ⟨⟨f.name, f.blanks, f.value, [c], ?_, f.spells, f.isBlank, f.value_ne, f.first, f.noCr,
        fun d hd => ?_⟩⟩
      · conv_lhs => rw [f.line_eq]
        simp [hrest]
      · cases hd
        exact hc
    · refine ⟨⟨f.name, f.blanks, f.value ++ [c], [], ?_, f.spells, f.isBlank, by simp, fun d hd => ?_,
        fun d hd => ?_, fun d hd => by cases hd⟩⟩
      · conv_lhs => rw [f.line_eq]
        simp [hrest]
      · apply f.first d
        rwa [List.head?_append_of_ne_nil _ f.value_ne] at hd
      · rcases List.mem_append.mp hd with hd | hd
        · exact f.noCr d hd
        · rw [List.mem_singleton.mp hd]
          exact hc
  · refine ⟨⟨f.name, f.blanks, f.value, f.rest ++ [c], ?_, f.spells, f.isBlank, f.value_ne, f.first,
      f.noCr, fun d hd => ?_⟩⟩
    · conv_lhs => rw [f.line_eq]
      simp
    · apply f.rest_cr d
      rwa [List.head?_append_of_ne_nil _ hrest] at hd

/-- A field with the first byte of its value. -/
theorem Field.ofByte {blanks : Bytes} (hs : Spells items n w) (hb : ∀ c ∈ blanks, IsBlank c)
    (hc : ¬IsBlank c) (hcr : c ≠ 0x0d) : Nonempty (Field items n (w ++ 0x3a :: blanks ++ [c])) := by
  refine ⟨⟨w, blanks, [c], [], by simp, hs, hb, by simp, fun d hd => ?_, fun d hd => ?_,
    fun d hd => by cases hd⟩⟩
  · cases hd
    exact hc
  · rw [List.mem_singleton.mp hd]
    exact hcr

/-- What a walk has made of the front of a line, which may still become a field. -/
inductive Reading (items : List (Item × MatchId)) (n line : Bytes) (r : HttpMatch) : View → Prop
  | name {t : Bytes} {s : Nat} (hs : Spells items t line)
      (ht : t = [] ∨ ∃ n', Captures items (.header n') ∧ t <+: n') :
      Reading items n line r ⟨.name t, s, r⟩
  | colon {w blanks : Bytes} {s : Nat} (heq : line = w ++ 0x3a :: blanks) (hs : Spells items n w)
      (hb : ∀ c ∈ blanks, IsBlank c) : Reading items n line r ⟨.colon n, s, r⟩
  | value {s : Nat} {r' : HttpMatch} (h : Nonempty (Field items n line)) :
      Reading items n line r ⟨.value n, s, r'⟩
  | off {l : Label} {s : Nat} {r' : HttpMatch} (ho : Off n l) (hcr : l = .lfCr → line = cr)
      (hr : r' = r ∨ Nonempty (Field items n line)) : Reading items n line r ⟨l, s, r'⟩

theorem Named.spells_nil (h : Named items) (hs : Spells items [] w) : w = [] := by
  generalize ht : ([] : Bytes) = t at hs
  induction hs with
  | nil => rfl
  | @char t w c hs ih =>
    have := congrArg List.length ht
    simp at this
  | @blank t w c hs hc hb ih => exact absurd ht.symm (h t hc).ne_nil

/-- An edge of the byte itself that carries no action for the field. -/
theorem Named.view_own (h : Named items) (hl : l.InHeader) (hlf : c ≠ 0x0a)
    (he : (l, c.toNat) ∈ edges items) (ho : ¬(Item.header n).opens (l, c.toNat)) :
    viewStep items (.header n) i c ⟨l, s, r⟩ = (⟨l.goto c.toNat, s, r⟩, false) := by
  refine Prod.ext ?_ (h.not_done hl hlf)
  rw [viewStep_idle]
  · exact congrArg (View.mk · s r) (readLabel_own he)
  · intro x hx
    cases (edgeOf_own he).symm.trans hx
    refine ⟨ho, fun hc => ?_⟩
    have hany := ne_anyInput c.toNat_lt
    rw [header_closes_iff] at hc
    simp only [Prod.mk.injEq] at hc
    exact hc.elim (fun h => hany h.2) fun h => hany h.2

theorem Named.readLabel_ne_lfCr (h : Named items) (hl : l.InHeader) (hne : l ≠ .name [])
    (hlf : c ≠ 0x0a) : readLabel items l c.toNat ≠ .lfCr := by
  by_cases hcr : c.toNat = crInput
  · rw [hcr]
    exact mt (h.readLabel_cr hl).2.2.mp hne
  · exact (h.readLabel_inside hl c.toNat_lt hcr fun hc => hlf (toNat_eq_lf.mp hc)).2.2

theorem Named.reading_name (h : Named items) (hn : Captures items (.header n)) (hlf : c ≠ 0x0a)
    {line : Bytes} (hs : Spells items t line)
    (ht : t = [] ∨ ∃ n', Captures items (.header n') ∧ t <+: n') :
    (viewStep items (.header n) i c ⟨.name t, s, r⟩).2 = false ∧
      Reading items n (line ++ [c]) r (viewStep items (.header n) i c ⟨.name t, s, r⟩).1 := by
  have hclf : c.toNat ≠ lfInput := fun hc => hlf (toNat_eq_lf.mp hc)
  by_cases hchar : ∃ n', Captures items (.header n') ∧ t ++ [lowerByte c] <+: n'
  · obtain ⟨n', hn', hp⟩ := hchar
    rw [h.view_char hn' hp (h n hn).ne_nil]
    exact ⟨rfl, .name (.char c hs) (.inr ⟨n', hn', hp⟩)⟩
  by_cases hblank : Captures items (.header t) ∧ IsBlank c
  · rw [h.view_blank hblank.1 hblank.2]
    exact ⟨rfl, .name (.blank hs hblank.1 hblank.2) ht⟩
  by_cases hcolon : Captures items (.header t) ∧ c = 0x3a
  · obtain ⟨hcap, rfl⟩ := hcolon
    by_cases heq : t = n
    · subst heq
      rw [h.view_colon hn]
      exact ⟨rfl, @Reading.colon _ _ _ _ _ [] _ rfl hs fun d hd => absurd hd List.not_mem_nil⟩
    · have hedge : (.name t, (0x3a : UInt8).toNat) ∈ edges items :=
        edge_name.mpr (.inr (.inl ⟨hcap, .inr (.inr rfl)⟩))
      have hgoto : (Label.name t).goto (0x3a : UInt8).toNat = .colon t :=
        (readLabel_own hedge).symm.trans (h.readLabel_colon hcap)
      rw [h.view_own (l := .name t) (n := n) trivial hlf hedge (by simp [header_opens_iff, heq]),
        hgoto]
      exact ⟨rfl, .off ⟨trivial, by simp, by simp [heq], by simp⟩ (by simp) (.inl rfl)⟩
  by_cases hcr : t = [] ∧ c = 0x0d
  · obtain ⟨rfl, rfl⟩ := hcr
    have hedge : (.name [], (0x0d : UInt8).toNat) ∈ edges items := h.edge_name_cr.mpr rfl
    have hline := h.spells_nil hs
    subst hline
    have hgoto : (Label.name []).goto (0x0d : UInt8).toNat = .lfCr := rfl
    rw [h.view_own (l := .name []) (n := n) trivial hlf hedge
      (by simp [header_opens_iff, colonInput]), hgoto]
    exact ⟨rfl, .off ⟨trivial, by simp, by simp, by simp⟩ (fun _ => rfl) (.inl rfl)⟩
  · have hedge : (.name t, c.toNat) ∉ edges items := by
      intro he
      rcases edge_name.mp he with ⟨-, n', hn', hp⟩ | ⟨hcap, hi⟩ | ⟨hnil, hi⟩
      · rw [UInt8.ofNat_toNat] at hp
        exact hchar ⟨n', hn', hp⟩
      · rcases hi with hi | hi | hi
        · exact hblank ⟨hcap, isBlank_iff.mpr (.inl hi)⟩
        · exact hblank ⟨hcap, isBlank_iff.mpr (.inr hi)⟩
        · exact hcolon ⟨hcap, toNat_eq_colon.mp hi⟩
      · exact hi.elim (fun hi => hcr ⟨hnil, toNat_eq_cr.mp hi⟩) hclf
    have hstep : viewStep items (.header n) i c ⟨.name t, s, r⟩ = (⟨again c.toNat, s, r⟩, false) := by
      refine Prod.ext ?_ (h.not_done (l := .name t) trivial hlf)
      rw [viewStep_idle]
      · exact congrArg (View.mk · s r) (readLabel_lost hedge)
      · intro x hx
        rcases edgeOf_cases hx with ⟨-, he⟩ | ⟨-, -, he⟩ | ⟨rfl, -⟩
        · exact absurd he hedge
        · exact absurd he edge_name_any
        · simp [header_opens_iff, header_closes_iff]
    rw [hstep]
    refine ⟨rfl, .off (again_off hlf) (fun heq => ?_) (.inl rfl)⟩
    rw [again, if_neg hclf] at heq
    split at heq <;> cases heq

/-- One more byte of a line. -/
theorem Named.reading_step (h : Named items) (hn : Captures items (.header n)) (hlf : c ≠ 0x0a)
    {line : Bytes} {v : View} (hr : Reading items n line r v) :
    (viewStep items (.header n) i c v).2 = false ∧
      Reading items n (line ++ [c]) r (viewStep items (.header n) i c v).1 := by
  cases hr with
  | name hs ht => exact h.reading_name hn hlf hs ht
  | @colon w blanks s heq hs hb =>
    subst heq
    by_cases hblank : IsBlank c
    · rw [h.view_colon_blank hn hblank]
      refine ⟨rfl, @Reading.colon _ _ _ _ _ (blanks ++ [c]) _ (by simp) hs fun d hd => ?_⟩
      rcases List.mem_append.mp hd with hd | hd
      · exact hb d hd
      · rw [List.mem_singleton.mp hd]
        exact hblank
    by_cases hcr : c = 0x0d
    · subst hcr
      have hedge : (.colon n, (0x0d : UInt8).toNat) ∈ edges items :=
        edge_colon.mpr ⟨hn, .inr (.inr (.inr (.inl rfl)))⟩
      rw [h.view_own (l := .colon n) (n := n) trivial hlf hedge
        (by simp [header_opens_iff, tabInput, spaceInput])]
      exact ⟨rfl, .off ⟨trivial, by simp [Label.goto, lfInput, crInput],
        by simp [Label.goto, lfInput, crInput], by simp [Label.goto, lfInput, crInput]⟩
        (by simp [Label.goto, lfInput, crInput]) (.inl rfl)⟩
    · rw [h.view_colon_value hn hblank hcr hlf]
      exact ⟨rfl, .value (Field.ofByte hs hb hblank hcr)⟩
  | @value s r' hf =>
    obtain ⟨f⟩ := hf
    by_cases hcr : c = 0x0d
    · subst hcr
      have hedge : (.value n, (0x0d : UInt8).toNat) ∈ edges items :=
        edge_value.mpr ⟨hn, .inr (.inl rfl)⟩
      rw [h.view_own (l := .value n) (n := n) trivial hlf hedge (by simp [header_opens_iff])]
      exact ⟨rfl, .off ⟨trivial, by simp [Label.goto, lfInput, crInput],
        by simp [Label.goto, lfInput, crInput], by simp [Label.goto, lfInput, crInput]⟩
        (by simp [Label.goto, lfInput, crInput]) (.inr (f.extend 0x0d))⟩
    · rw [h.view_value hn hcr hlf]
      exact ⟨rfl, .value (f.extend c)⟩
  | @off l s r' ho hcr hr =>
    rw [h.view_off ho hlf]
    refine ⟨rfl, .off (off_readLabel ho hlf) (fun heq => ?_) ?_⟩
    · exact absurd heq (h.readLabel_ne_lfCr ho.inHeader (ho.name []) hlf)
    · rcases hr with rfl | ⟨⟨f⟩⟩
      · exact .inl rfl
      · exact .inr (f.extend c)

/-- A line, up to its end. -/
theorem Named.reading_run (h : Named items) (hn : Captures items (.header n)) (o : Nat)
    {line : Bytes} (hlf : ∀ c ∈ line, c ≠ 0x0a) :
    ∃ v, viewRun items n o line ⟨.name [], s, r⟩ = (none, v) ∧ Reading items n line r v := by
  induction line using List.reverseRecOn with
  | nil => exact ⟨_, rfl, .name .nil (.inl rfl)⟩
  | append_singleton line c ih =>
    obtain ⟨v, hrun, hr⟩ := ih fun d hd => hlf d (List.mem_append_left _ hd)
    obtain ⟨hdone, hr'⟩ := h.reading_step (i := o + line.length) hn (hlf c (by simp)) hr
    exact ⟨_, viewRun_concat hrun (Prod.ext rfl hdone), hr'⟩

end Beeper.Http1
