import Beeper.Http1Requests

namespace Beeper.Http1

variable {items : List (Item × MatchId)} {l : Label} {t front line n st mt tgt : Bytes} {c d : UInt8}
  {i s : Nat} {r : HttpMatch} {x : Label × Nat}

/-- What a front of the first line can lead to. -/
inductive Heads : Bytes → Label → Prop
  | text {front : Bytes} : Heads front (.start (upper front))
  | method {mt : Bytes} (h : upper mt ∈ methods) : Heads mt (.start options)
  | space {mt : Bytes} (h : upper mt ∈ methods) : Heads (mt ++ [0x20]) (.start afterMethod)
  | target {mt tgt : Bytes} {d : UInt8} (h : upper mt ∈ methods) (ht : ∀ e ∈ tgt, e ≠ 0x20) :
      Heads (mt ++ 0x20 :: d :: tgt) .target
  | version {front t : Bytes} : Heads front (.version t)
  | versionCr {front : Bytes} : Heads front .versionCr
  | code {st w : Bytes} {n : Nat} (h : upper st = statusStart) (hn : n = min w.length 4) :
      Heads (st ++ w) (.code n)
  | codeCr {front : Bytes} : Heads front .codeCr
  | any {front : Bytes} : Heads front .any
  | anyCr {front : Bytes} : Heads front .anyCr

theorem again_any (hcr : c ≠ 0x0d) (hlf : c ≠ 0x0a) : again c.toNat = .any := by
  rw [again, if_neg fun h => hlf (toNat_eq_lf.mp h), if_neg fun h => hcr (toNat_eq_cr.mp h)]

theorem heads_again (hlf : c ≠ 0x0a) : Heads (front ++ [c]) (again c.toNat) := by
  by_cases hcr : c = 0x0d
  · subst hcr
    exact .anyCr
  · rw [again_any hcr hlf]
    exact .any

theorem heads_startWith : Heads (front ++ [c]) (startWith (upper front) c) := by
  unfold startWith
  rw [← upper_concat]
  split
  next hm => exact .method (List.contains_iff_mem.mp hm)
  next => exact .text

/-- A label that a byte within the line does not lead on from. -/
theorem heads_lost (hlf : c ≠ 0x0a) (hown : (l, c.toNat) ∉ edges items)
    (hany : (l, anyInput) ∉ edges items) : Heads (front ++ [c]) (readLabel items l c.toNat) := by
  rw [readLabel_again hown hany]
  exact heads_again hlf

theorem heads_text (hlf : c ≠ 0x0a) :
    Heads (front ++ [c]) (readLabel items (.start (upper front)) c.toNat) := by
  by_cases hown : (.start (upper front), c.toNat) ∈ edges items
  · rw [readLabel_startWith hown]
    exact heads_startWith
  · rcases readLabel_start_lost hown with ⟨heq, ht, -⟩ | ⟨heq, ht, -⟩ | heq
    · have hsplit : afterMethod = options ++ space := by decide
      rw [hsplit] at ht
      obtain ⟨mt, sp, rfl, hmt, hsp⟩ := upper_eq_append ht
      rw [heq, upper_eq_space.mp hsp, List.append_assoc]
      exact .target (by rw [hmt]; decide) (by simp)
    · rw [heq]
      exact .code ht rfl
    · rw [heq]
      exact heads_again hlf

theorem heads_method (h : upper mt ∈ methods) (hlf : c ≠ 0x0a) :
    Heads (mt ++ [c]) (readLabel items (.start options) c.toNat) := by
  by_cases hown : (.start options, c.toNat) ∈ edges items
  · obtain rfl := toNat_eq_space.mp (edge_options.mp hown).2
    rw [readLabel_startWith hown]
    exact .space h
  · exact heads_lost hlf hown fun hany => absurd (edge_options.mp hany).2 (by decide)

theorem heads_space (h : upper mt ∈ methods) (hlf : c ≠ 0x0a) :
    Heads (mt ++ [0x20] ++ [c]) (readLabel items (.start afterMethod) c.toNat) := by
  have hown : (.start afterMethod, c.toNat) ∉ edges items :=
    fun he => ne_anyInput c.toNat_lt (edge_afterMethod.mp he).2
  by_cases hany : (.start afterMethod, anyInput) ∈ edges items
  · rw [readLabel_any hown hany, List.append_assoc]
    exact .target h (by simp)
  · exact heads_lost hlf hown hany

theorem heads_target (h : upper mt ∈ methods) (ht : ∀ e ∈ tgt, e ≠ 0x20) (hlf : c ≠ 0x0a) :
    Heads (mt ++ 0x20 :: d :: tgt ++ [c]) (readLabel items .target c.toNat) := by
  by_cases hown : (.target, c.toNat) ∈ edges items
  · have hgoto : Label.goto .target c.toNat = .version space := if_neg (ne_anyInput c.toNat_lt)
    rw [readLabel_own hown, hgoto]
    exact .version
  by_cases hany : (.target, anyInput) ∈ edges items
  · have hfront : mt ++ 0x20 :: d :: tgt ++ [c] = mt ++ 0x20 :: d :: (tgt ++ [c]) := by simp
    rw [readLabel_any hown hany, hfront]
    refine .target h fun e he => ?_
    rcases List.mem_append.mp he with he | he
    · exact ht e he
    · rw [List.mem_singleton.mp he]
      rintro rfl
      exact hown (edge_target.mpr ⟨(edge_target.mp hany).1, .inr rfl⟩)
  · exact heads_lost hlf hown hany

theorem heads_version (hlf : c ≠ 0x0a) :
    Heads (front ++ [c]) (readLabel items (.version t) c.toNat) := by
  by_cases hown : (.version t, c.toNat) ∈ edges items
  · rw [readLabel_own hown, Label.goto, if_neg fun h => hlf (toNat_eq_lf.mp h)]
    split
    next => exact .versionCr
    next => exact .version
  · refine heads_lost hlf hown fun hany => ?_
    obtain ⟨-, ⟨hi, -⟩ | ⟨-, hi | hi⟩⟩ := edge_version.mp hany
    · exact Nat.lt_irrefl 256 hi
    · exact absurd hi (by decide)
    · exact absurd hi (by decide)

theorem heads_code {w : Bytes} {n : Nat} (h : upper st = statusStart) (hn : n = min w.length 4)
    (hlf : c ≠ 0x0a) : Heads (st ++ w ++ [c]) (readLabel items (.code n) c.toNat) := by
  have hclf : ¬c.toNat = lfInput := fun h => hlf (toNat_eq_lf.mp h)
  by_cases hown : (.code n, c.toNat) ∈ edges items
  · obtain ⟨-, ⟨-, hi⟩ | ⟨-, hi | hi⟩⟩ := edge_code.mp hown
    · exact absurd hi (ne_anyInput c.toNat_lt)
    · rw [readLabel_own hown, Label.goto, if_neg hclf, if_pos hi]
      exact .codeCr
    · exact absurd hi hclf
  by_cases hany : (.code n, anyInput) ∈ edges items
  · rw [readLabel_any hown hany, List.append_assoc]
    have hgoto : (Label.code n).goto anyInput = .code (min (w ++ [c]).length 4) := by
      rw [Label.goto, if_neg (by decide), if_neg (by decide), List.length_append,
        List.length_singleton]
      split <;> congr 1 <;> omega
    rw [hgoto]
    exact .code h rfl
  · exact heads_lost hlf hown hany

theorem heads_any (hlf : c ≠ 0x0a) : Heads (front ++ [c]) (readLabel items .any c.toNat) := by
  by_cases hown : (.any, c.toNat) ∈ edges items
  · rw [readLabel_own hown, Label.goto, if_neg fun h => hlf (toNat_eq_lf.mp h)]
    exact .anyCr
  · exact heads_lost hlf hown not_mem_any_any

/-- A label that only a line feed leads on from. -/
theorem heads_lineEnd (hlf : c ≠ 0x0a) (h : ∀ i, (l, i) ∈ edges items → i = lfInput) :
    Heads (front ++ [c]) (readLabel items l c.toNat) :=
  heads_lost hlf (fun he => hlf (toNat_eq_lf.mp (h _ he))) fun he => absurd (h _ he) (by decide)

/-- One more byte of the first line. -/
theorem Heads.step (h : Heads front l) (hlf : c ≠ 0x0a) :
    Heads (front ++ [c]) (readLabel items l c.toNat) := by
  cases h with
  | text => exact heads_text hlf
  | method h => exact heads_method h hlf
  | space h => exact heads_space h hlf
  | target h ht => exact heads_target h ht hlf
  | version => exact heads_version hlf
  | versionCr => exact heads_lineEnd hlf fun i he => (edge_versionCr.mp he).2
  | code h hn => exact heads_code h hn hlf
  | codeCr => exact heads_lineEnd hlf fun i he => (edge_codeCr.mp he).2
  | any => exact heads_any hlf
  | anyCr => exact heads_lineEnd hlf fun i he => edge_anyCr.mp he

def IsDigit (c : UInt8) : Prop := 0x30 ≤ c ∧ c ≤ 0x39

instance (c : UInt8) : Decidable (IsDigit c) := inferInstanceAs (Decidable (_ ∧ _))

def versionText (a b : UInt8) : Bytes := ascii "HTTP/" ++ [a, 0x2e, b]

/-- The first line of the preface. -/
def prefaceLine : Bytes := ascii "PRI * HTTP/2.0"

/-- The first line of a request or of a response. -/
inductive StartLine : Bytes → Prop
  | request {method target : Bytes} {a b : UInt8} (hm : method ≠ []) (htok : ∀ c ∈ method, isTokenChar c)
      (ht : target ≠ []) (hfree : ∀ c ∈ target, c ∉ ascii " \r\n") (ha : IsDigit a) (hb : IsDigit b)
      (hpri : upper (method ++ 0x20 :: (target ++ 0x20 :: versionText a b)) ≠ prefaceLine) :
      StartLine (method ++ 0x20 :: (target ++ 0x20 :: versionText a b))
  | status {digits reason : Bytes} {a b : UInt8} (ha : IsDigit a) (hb : IsDigit b)
      (hlen : digits.length = 3) (hd : ∀ c ∈ digits, IsDigit c)
      (hr : ∀ c ∈ reason, c ≠ 0x0d ∧ c ≠ 0x0a) :
      StartLine (versionText a b ++ 0x20 :: (digits ++ 0x20 :: reason))

theorem IsDigit.ne (h : IsDigit c) : c ≠ 0x20 ∧ c ≠ 0x0d ∧ c ≠ 0x0a := by
  refine ⟨?_, ?_, ?_⟩ <;> rintro rfl <;> exact absurd h.1 (by decide)

theorem mem_versionText {a b : UInt8} (ha : IsDigit a) (hb : IsDigit b) (h : c ∈ versionText a b) :
    c ≠ 0x20 ∧ c ≠ 0x0d ∧ c ≠ 0x0a := by
  rcases List.mem_append.mp h with h | h
  · have hall : ∀ c ∈ ascii "HTTP/", c ≠ 0x20 ∧ c ≠ 0x0d ∧ c ≠ 0x0a := by decide +kernel
    exact hall c h
  · simp only [List.mem_cons, List.not_mem_nil, or_false] at h
    rcases h with rfl | rfl | rfl
    · exact ha.ne
    · decide
    · exact hb.ne

theorem isTokenChar_ne (h : isTokenChar c = true) : c ≠ 0x20 ∧ c ≠ 0x0d ∧ c ≠ 0x0a ∧ c ≠ 0x3a ∧
    c ≠ 0x09 := by
  refine ⟨?_, ?_, ?_, ?_, ?_⟩ <;> rintro rfl <;> exact absurd h (by decide)

theorem target_ne (h : c ∉ ascii " \r\n") : c ≠ 0x20 ∧ c ≠ 0x0d ∧ c ≠ 0x0a := by
  refine ⟨?_, ?_, ?_⟩ <;> rintro rfl <;> exact absurd (by decide) h

/-- There are two spaces in a first line, the second of which is not right behind the first. -/
theorem StartLine.split (h : StartLine line) : ∃ w z, line = w ++ 0x20 :: z ∧ (∀ c ∈ w, c ≠ 0x20) ∧
    (∃ e z', z = e :: z' ∧ 0x20 ∈ z') ∧ 4 ≤ z.length := by
  cases h with
  | @request method target a b hm htok ht hfree ha hb hpri =>
    refine ⟨method, _, rfl, fun c hc => (isTokenChar_ne (htok c hc)).1, ?_, ?_⟩
    · obtain ⟨e, t, rfl⟩ := List.exists_cons_of_ne_nil ht
      exact ⟨e, _, rfl, by simp⟩
    · have hlen : (versionText a b).length = 8 := rfl
      rw [List.length_append, List.length_cons, hlen]
      omega
  | @status digits reason a b ha hb hlen hd hr =>
    refine ⟨versionText a b, _, rfl, fun c hc => (mem_versionText ha hb hc).1, ?_, ?_⟩
    · cases digits with
      | nil => cases hlen
      | cons e digits => exact ⟨e, _, rfl, by simp⟩
    · rw [List.length_append, List.length_cons, hlen]
      omega

theorem StartLine.not_end (h : StartLine line) : ∀ c ∈ line, c ≠ 0x0d ∧ c ≠ 0x0a := by
  intro c hc
  cases h with
  | request hm htok ht hfree ha hb hpri =>
    simp only [List.mem_append, List.mem_cons] at hc
    rcases hc with hc | rfl | hc | rfl | hc
    · obtain ⟨-, hcr, hlf, -⟩ := isTokenChar_ne (htok c hc)
      exact ⟨hcr, hlf⟩
    · decide
    · exact (target_ne (hfree c hc)).2
    · decide
    · exact (mem_versionText ha hb hc).2
  | status ha hb hlen hd hr =>
    simp only [List.mem_append, List.mem_cons] at hc
    rcases hc with hc | rfl | hc | rfl | hc
    · exact (mem_versionText ha hb hc).2
    · decide
    · exact (hd c hc).ne.2
    · decide
    · exact hr c hc

theorem StartLine.ne_prefaceLine (h : StartLine line) : upper line ≠ prefaceLine := by
  cases h with
  | request hm htok ht hfree ha hb hpri => exact hpri
  | status ha hb hlen hd hr =>
    intro heq
    have hhead : some (upperByte 0x48) = some 0x50 := congrArg List.head? heq
    exact absurd hhead (by decide)

/-- The labels that a line can end from. -/
inductive Closing (items : List (Item × MatchId)) : Label → Prop
  | start {t : Bytes} (hcr : (.start t, crInput) ∉ edges items) (hlf : (.start t, lfInput) ∉ edges items)
      (hany : (.start t, anyInput) ∉ edges items) : Closing items (.start t)
  | version {t : Bytes} : Closing items (.version t)
  | versionCr : Closing items .versionCr
  | code : Closing items (.code 4)
  | codeCr : Closing items .codeCr
  | any : Closing items .any
  | anyCr : Closing items .anyCr

theorem Closing.not_inHeader_name (h : Closing items l) :
    l ≠ .name [] ∧ l ≠ .lfCr ∧ ∀ n, l ≠ .name n ∧ l ≠ .colon n ∧ l ≠ .value n := by
  cases h <;> simp

/-- No line is done with from there. -/
theorem Closing.not_stops (h : Closing items l) :
    ¬∃ x, edgeOf items l (0x0a : UInt8).toNat = some x ∧ stops items x := by
  intro hstop
  rcases stops_cases hstop with heq | heq | ⟨t, rfl, hpre, hcap⟩
  · exact h.not_inHeader_name.1 heq
  · exact h.not_inHeader_name.2.1 heq
  · cases h with
    | start hcr hlf hany =>
      apply hlf
      rw [edge_start]
      exact .inr (.inr ⟨hcap, by decide, hpre ▸ List.prefix_refl _⟩)

/-- Where any byte goes on, so do the line ends. -/
theorem Closing.any_edge (h : Closing items l) (hany : (l, anyInput) ∈ edges items) :
    (l, crInput) ∈ edges items ∧ (l, lfInput) ∈ edges items := by
  cases h with
  | start hcr hlf hno => exact absurd hany hno
  | version =>
    obtain ⟨-, ⟨hi, -⟩ | ⟨-, hi | hi⟩⟩ := edge_version.mp hany
    · exact absurd hi (Nat.lt_irrefl 256)
    · exact absurd hi (by decide)
    · exact absurd hi (by decide)
  | versionCr => exact absurd (edge_versionCr.mp hany).2 (by decide)
  | code =>
    have hs := (edge_code.mp hany).1
    exact ⟨edge_code.mpr ⟨hs, .inr ⟨rfl, .inl rfl⟩⟩, edge_code.mpr ⟨hs, .inr ⟨rfl, .inr rfl⟩⟩⟩
  | codeCr => exact absurd (edge_codeCr.mp hany).2 (by decide)
  | any => exact absurd hany not_mem_any_any
  | anyCr => exact absurd (edge_anyCr.mp hany) (by decide)

theorem Closing.readLabel_lf (h : Closing items l) : readLabel items l lfInput = .name [] := by
  by_cases hown : (l, lfInput) ∈ edges items
  · rw [readLabel_own hown]
    cases h with
    | start hcr hlf hany => exact absurd hown hlf
    | _ => rfl
  · rw [readLabel_again hown fun hany => hown (h.any_edge hany).2]
    rfl

theorem Closing.readLabel_cr (h : Closing items l) : Closing items (readLabel items l crInput) := by
  by_cases hown : (l, crInput) ∈ edges items
  · rw [readLabel_own hown]
    cases h with
    | start hcr hlf hany => exact absurd hown hcr
    | version => exact .versionCr
    | versionCr => exact absurd (edge_versionCr.mp hown).2 (by decide)
    | code => exact .codeCr
    | codeCr => exact absurd (edge_codeCr.mp hown).2 (by decide)
    | any => exact .anyCr
    | anyCr => exact absurd (edge_anyCr.mp hown) (by decide)
  · rw [readLabel_again hown fun hany => hown (h.any_edge hany).1]
    exact .anyCr

/-- What stands in front of the first line end. -/
def untilEnd (w : Bytes) : Bytes := w.takeWhile fun c => decide (c ≠ 0x0d ∧ c ≠ 0x0a)

theorem untilEnd_append {y : Bytes} (hend : ∀ c ∈ t, c ≠ 0x0d ∧ c ≠ 0x0a) (hc : c = 0x0d ∨ c = 0x0a) :
    untilEnd (t ++ c :: y) = t := by
  rw [untilEnd, List.takeWhile_append_of_pos fun d hd => decide_eq_true (hend d hd)]
  rcases hc with rfl | rfl <;> simp

/-- A text at the start of a message that a line can end from. -/
theorem closing_text (hend : ∀ c ∈ t, c ≠ 0x0d ∧ c ≠ 0x0a) (hpre : t ≠ prefaceLine)
    (h1 : t ≠ afterMethod) (h2 : t ≠ statusStart) : Closing items (.start t) := by
  have hmethods : ∀ m ∈ methods, ∀ c ∈ m, c ≠ 0x0d ∧ c ≠ 0x0a := by decide +kernel
  have hstatus : ∀ c ∈ statusStart, c ≠ 0x0d ∧ c ≠ 0x0a := by decide +kernel
  have hno : ∀ c : UInt8, c = 0x0d ∨ c = 0x0a → (.start t, c.toNat) ∉ edges items := by
    intro c hc hedge
    have hup : upperByte c = c ∧ c ≠ 0x20 := by rcases hc with rfl | rfl <;> decide
    have hmem : ∀ p : Bytes, t ++ [c] <+: p → c ∈ p := fun p hp => hp.subset (by simp)
    rw [edge_start, UInt8.ofNat_toNat, hup.1] at hedge
    rcases hedge with ⟨-, ⟨-, m, hm, hp⟩ | ⟨-, hi⟩ | ⟨-, hi⟩⟩ | ⟨-, ⟨-, hp⟩ | ⟨-, hi⟩⟩ | ⟨-, -, hp⟩
    · have hne := hmethods m hm c (hmem m hp)
      exact hc.elim hne.1 hne.2
    · exact hup.2 (toNat_eq_space.mp hi)
    · exact ne_anyInput c.toNat_lt hi
    · have hne := hstatus c (hmem _ hp)
      exact hc.elim hne.1 hne.2
    · exact ne_anyInput c.toNat_lt hi
    · obtain ⟨y, hy⟩ := hp
      rw [List.append_assoc, List.singleton_append] at hy
      have huntil : untilEnd http2Preface = prefaceLine := by decide
      rw [← hy, untilEnd_append hend hc] at huntil
      exact hpre huntil
  refine .start (hno 0x0d (.inl rfl)) (hno 0x0a (.inr rfl)) fun hany => ?_
  have hbig : ¬anyInput < 256 := Nat.lt_irrefl 256
  rcases edge_start.mp hany with ⟨-, ⟨hi, -⟩ | ⟨-, hi⟩ | ⟨ht, -⟩⟩ | ⟨-, ⟨hi, -⟩ | ⟨ht, -⟩⟩ | ⟨-, hi, -⟩
  · exact hbig hi
  · exact absurd hi (by decide)
  · exact h1 ht
  · exact hbig hi
  · exact h2 ht
  · exact hbig hi

theorem of_upper_not_space {w : Bytes} (h : ∀ c ∈ upper w, c ≠ 0x20) : ∀ c ∈ w, c ≠ 0x20 := by
  intro c hc heq
  exact h _ (List.mem_map_of_mem hc) (upperByte_space.mpr heq)

theorem upper_not_end {w : Bytes} (h : ∀ c ∈ w, c ≠ 0x0d ∧ c ≠ 0x0a) :
    ∀ c ∈ upper w, c ≠ 0x0d ∧ c ≠ 0x0a := by
  intro c hc
  obtain ⟨d, hd, rfl⟩ := List.mem_map.mp hc
  obtain ⟨hcr, hlf⟩ := h d hd
  have h0d : (0x0d : UInt8).toNat = 13 := rfl
  have h0a : (0x0a : UInt8).toNat = 10 := rfl
  rw [ne_eq, ← UInt8.toNat_inj] at hcr hlf
  rw [ne_eq, ne_eq, upperByte_eq_iff, upperByte_eq_iff]
  omega

/-- The first space of a text is where it is. -/
theorem split_space {w w' z z' : Bytes} (hw : ∀ c ∈ w, c ≠ 0x20) (hw' : ∀ c ∈ w', c ≠ 0x20)
    (h : w ++ 0x20 :: z = w' ++ 0x20 :: z') : w = w' ∧ z = z' := by
  have heq := congrArg (fun x : Bytes => x.takeWhile fun c => decide (c ≠ 0x20)) h
  simp only [not_mem_takeWhile hw, not_mem_takeWhile hw'] at heq
  subst heq
  exact ⟨rfl, (List.cons.inj (List.append_cancel_left h)).2⟩

/-- Behind the first line of a message, the line can end. -/
theorem Heads.closing (h : Heads line l) (hline : StartLine line) : Closing items l := by
  have hend := upper_not_end hline.not_end
  have hpre := hline.ne_prefaceLine
  obtain ⟨w, z, heq, hw, ⟨e, z', rfl, hz⟩, hlen⟩ := hline.split
  -- no text ends with the first space of the line
  have htext : ∀ t, (∀ c ∈ t, c ≠ 0x20) → upper line ≠ t ++ [0x20] := by
    intro t ht hup
    rw [heq, upper_append] at hup
    exact absurd (split_space (upper_not_space hw) ht hup).2 (List.cons_ne_nil _ _)
  cases h with
  | text =>
    exact closing_text hend hpre (htext options (by decide +kernel))
      (htext (ascii "HTTP/1.1") (by decide +kernel))
  | method h =>
    have hno : ∀ i, i ≠ spaceInput → (.start options, i) ∉ edges items :=
      fun i hi he => hi (edge_options.mp he).2
    exact .start (hno _ (by decide)) (hno _ (by decide)) (hno _ (by decide))
  | @space mt h =>
    have hmt := of_upper_not_space (methods_no_space _ h)
    exact absurd (split_space hmt hw heq).2.symm (List.cons_ne_nil _ _)
  | @target mt tgt d h ht =>
    have hmt := of_upper_not_space (methods_no_space _ h)
    have htgt := (List.cons.inj (split_space hmt hw heq).2).2
    rw [← htgt] at hz
    exact absurd rfl (ht _ hz)
  | version => exact .version
  | @code st w' n h hn =>
    have hsplit : statusStart = ascii "HTTP/1.1" ++ Http1.space := by decide
    rw [hsplit] at h
    obtain ⟨v, sp, rfl, hv, hsp⟩ := upper_eq_append h
    have hno : ∀ c ∈ upper v, c ≠ 0x20 := by
      rw [hv]
      decide +kernel
    rw [upper_eq_space.mp hsp, List.append_assoc] at heq
    have hw' : w' = e :: z' := (split_space (of_upper_not_space hno) hw heq).2
    have hfour : n = 4 := by
      rw [hn, hw']
      omega
    rw [hfour]
    exact .code
  | versionCr => exact .versionCr
  | codeCr => exact .codeCr
  | any => exact .any
  | anyCr => exact .anyCr

theorem Heads.ne_field (h : Heads front l) : l ≠ .name [] ∧ l ≠ .lfCr ∧
    ∀ n, l ≠ .name n ∧ l ≠ .colon n ∧ l ≠ .value n := by
  cases h <;> simp

/-- No field is captured where its name has not been read. -/
theorem header_idle {c : Nat} (h : l ≠ .name n ∧ l ≠ .colon n ∧ l ≠ .value n)
    (hx : edgeOf items l c = some x) : ¬(Item.header n).opens x ∧ ¬(Item.header n).closes x := by
  obtain ⟨h1, h2, h3⟩ := h
  have hfst := edgeOf_fst hx
  rw [header_opens_iff, header_closes_iff]
  have hno : ∀ l', l' ≠ .any → l ≠ l' → x.1 ≠ l' := by
    intro l' hany hne heq
    rcases hfst with hl | hl
    · exact hne (hl.symm.trans heq)
    · exact hany (heq.symm.trans hl)
  have hname := hno (.name n) (by simp) h1
  have hcolon := hno (.colon n) (by simp) h2
  have hvalue := hno (.value n) (by simp) h3
  refine ⟨?_, ?_⟩
  · rintro (rfl | rfl | rfl)
    · exact hname rfl
    · exact hcolon rfl
    · exact hcolon rfl
  · rintro (rfl | rfl)
    · exact hcolon rfl
    · exact hvalue rfl

/-- Only a line feed ends a header block, or the preface. -/
theorem not_stops_of_ne_lf (h1 : l ≠ .name []) (h2 : l ≠ .lfCr) (hlf : c ≠ 0x0a) :
    ¬∃ x, edgeOf items l c.toNat = some x ∧ stops items x := by
  intro hstop
  rcases stops_cases hstop with heq | heq | ⟨t, heq, hpre, -⟩
  · exact h1 heq
  · exact h2 heq
  · have hlast := congrArg List.getLast? hpre
    rw [List.getLast?_concat] at hlast
    have hp : http2Preface.getLast? = some 0x0a := by decide
    exact hlf (Option.some.inj (hlast.trans hp))

/-- A byte of the first line. -/
theorem Heads.view (h : Heads front l) (hlf : c ≠ 0x0a) :
    viewStep items (.header n) i c ⟨l, s, r⟩ = (⟨readLabel items l c.toNat, s, r⟩, false) := by
  obtain ⟨h1, h2, h3⟩ := h.ne_field
  exact Prod.ext (viewStep_idle fun x hx => header_idle (h3 n) hx)
    (viewStep_not_done (not_stops_of_ne_lf h1 h2 hlf))

/-- The label that a text at the start of a message leads to. -/
noncomputable def textLabel (items : List (Item × MatchId)) (text : Bytes) : Label :=
  text.foldl (fun l c => readLabel items l c.toNat) (.start [])

theorem textLabel_concat : textLabel items (front ++ [c]) =
    readLabel items (textLabel items front) c.toNat := List.foldl_concat ..

theorem Heads.run {line : Bytes} (o : Nat) (h : ∀ c ∈ line, c ≠ 0x0a) :
    viewRun items n o line .init = (none, ⟨textLabel items line, 0, .zero⟩) ∧
      Heads line (textLabel items line) := by
  induction line using List.reverseRecOn with
  | nil => exact ⟨rfl, .text⟩
  | append_singleton line c ih =>
    obtain ⟨hrun, hl⟩ := ih fun d hd => h d (List.mem_append_left _ hd)
    have hlf := h c (by simp)
    rw [textLabel_concat]
    exact ⟨viewRun_concat hrun (hl.view hlf), hl.step hlf⟩

/-- The CR that the end of a line may start with. -/
def endCr (b : Bool) : Bytes := if b then cr else []

theorem Closing.view_cr (h : Closing items l) :
    viewStep items (.header n) i 0x0d ⟨l, s, r⟩ = (⟨readLabel items l crInput, s, r⟩, false) := by
  obtain ⟨h1, h2, h3⟩ := h.not_inHeader_name
  exact Prod.ext (viewStep_idle fun x hx => header_idle (h3 n) hx)
    (viewStep_not_done (not_stops_of_ne_lf h1 h2 (by decide)))

theorem Closing.view_lf (h : Closing items l) :
    viewStep items (.header n) i 0x0a ⟨l, s, r⟩ = (⟨.name [], s, r⟩, false) := by
  refine Prod.ext ?_ (viewStep_not_done h.not_stops)
  rw [viewStep_idle fun x hx => header_idle (h.not_inHeader_name.2.2 n) hx]
  exact congrArg (View.mk · s r) h.readLabel_lf

/-- The first line with its end. -/
theorem StartLine.run (h : StartLine line) (b : Bool) :
    viewRun items n 0 (line ++ endCr b ++ lf) .init = (none, ⟨.name [], 0, .zero⟩) := by
  obtain ⟨hrun, hl⟩ := @Heads.run items n line 0 fun c hc => (h.not_end c hc).2
  have hclosing : Closing items (textLabel items line) := hl.closing h
  cases b with
  | true => exact viewRun_concat (viewRun_concat hrun hclosing.view_cr) hclosing.readLabel_cr.view_lf
  | false =>
    have hnil : line ++ endCr false = line := List.append_nil line
    rw [hnil]
    exact viewRun_concat hrun hclosing.view_lf

end Beeper.Http1
