import Beeper.Http1WellFormed

namespace Beeper.Http1

variable {items : List (Item × MatchId)} {it : Item} {l : Label} {line t text st w : Bytes} {c : UInt8}
  {n : Nat}

/-- What is known of a walk until it is settled is known of the label of every text. -/
theorem textLabel_settles {P : Label → Prop} {spec : Bytes → HttpMatch} {R : Bytes → View → Prop}
    (hb : Behind items it P)
    (hstep : ∀ front c v, R front v →
      (viewStep items it (0 + front.length) c v).2 = false ∧
          R (front ++ [c]) (viewStep items it (0 + front.length) c v).1 ∨
        Settled P spec (front ++ [c]) (viewStep items it (0 + front.length) c v).1)
    (h : R [] .init) (text : Bytes) :
    ∃ v : View, v.label = textLabel items text ∧ (R text v ∨ Settled P spec text v) := by
  induction text using List.reverseRecOn with
  | nil => exact ⟨.init, rfl, .inl h⟩
  | append_singleton text c ih =>
    obtain ⟨v, hlabel, hv⟩ := ih
    refine ⟨(viewStep items it (0 + text.length) c v).1, ?_, ?_⟩
    · rw [textLabel_concat, ← hlabel]
      rfl
    · rcases hv with hv | hv
      · exact (hstep text c v hv).imp_left And.right
      · exact .inr (hv.step hb)

/-- The first line of a request that is cut short within its target. -/
def OpenTarget (text : Bytes) : Prop :=
  ∃ mt tgt d, upper mt ∈ methods ∧ text = mt ++ 0x20 :: d :: tgt ∧ ∀ e ∈ tgt, e ≠ 0x20

/-- The first line of a response that is cut short within its code, or right behind it. -/
def OpenCode (text : Bytes) : Prop :=
  ∃ st w, upper st = statusStart ∧ text = st ++ w ∧ w ≠ [] ∧ w.length ≤ 4

/-- One byte more makes another range. -/
theorem rangeTo_succ_ne {a e : Nat} (h : a ≤ e) : rangeTo a e ≠ rangeTo a (e + 1) := by
  intro heq
  have hlen := congrArg HttpMatch.len heq
  simp only [rangeTo, u32Sub_of_le h, u32Sub_of_le (Nat.le_succ_of_le h)] at hlen
  have hnat := congrArg UInt16.toNat hlen
  rw [UInt16.toNat_ofNat', UInt16.toNat_ofNat'] at hnat
  omega

theorem textLabel_path (hr : ReadsRequests items) (text : Bytes) : ∃ v : View,
    v.label = textLabel items text ∧ (ReadingPath 0 text v ∨ Settled PastPath (pathRange 0) text v) :=
  textLabel_settles behindPath (fun _ c _ h => h.step hr c)
    (.text ⟨options, by decide, by decide, by decide⟩) text

/-- A byte only leads into a target where requests are read. -/
theorem readsRequests_of_target (h : readLabel items l c.toNat = .target) : ReadsRequests items := by
  by_cases hl : l.Started
  · by_contra hr
    refine readLabel_ne_target hl ?_ _ h
    rintro rfl
    have hno : ∀ i, (.target, i) ∉ edges items := fun i he => hr (edge_target.mp he).1
    exact again_ne_target _ ((readLabel_again (hno _) (hno _)).symm.trans h)
  · obtain ⟨t, rfl⟩ := not_forall_not.mp hl
    by_cases hown : (.start t, c.toNat) ∈ edges items
    · rw [readLabel_startWith hown] at h
      unfold startWith at h
      split at h <;> cases h
    · rcases readLabel_start_lost hown with ⟨-, -, hr⟩ | ⟨heq, -⟩ | heq
      · exact hr
      · cases heq.symm.trans h
      · exact absurd (heq.symm.trans h) (again_ne_target _)

theorem textLabel_target_iff :
    textLabel items text = .target ↔ ReadsRequests items ∧ OpenTarget text := by
  constructor
  · intro h
    have hr : ReadsRequests items := by
      cases text using List.reverseRecOn with
      | nil => cases h
      | append_singleton text c =>
        rw [textLabel_concat] at h
        exact readsRequests_of_target h
    obtain ⟨v, hlabel, hv⟩ := textLabel_path hr text
    rw [h] at hlabel
    refine ⟨hr, ?_⟩
    rcases hv with hv | hv
    · cases hv with
      | target hm ht => exact ⟨_, _, _, hm, rfl, ht⟩
      | _ => cases hlabel
    · exact absurd hlabel hv.label.target
  · rintro ⟨hr, mt, tgt, d, hm, rfl, ht⟩
    obtain ⟨v, hlabel, hv⟩ := textLabel_path hr (mt ++ 0x20 :: d :: tgt)
    rw [← hlabel]
    have hmt := of_upper_not_space (methods_no_space _ hm)
    have hfront : upper mt <+: upper (mt ++ 0x20 :: d :: tgt) := by
      rw [upper_append]
      exact List.prefix_append _ _
    rcases hv with hv | hv
    · generalize htext : mt ++ 0x20 :: d :: tgt = text at hv hfront
      cases hv with
      | text hf => exact absurd hfront (hf.no_method _ hm)
      | method hm' =>
        have hlen := congrArg List.length (methods_eq hm hm' hfront (List.prefix_refl _))
        rw [upper_length, upper_length, ← htext, List.length_append, List.length_cons] at hlen
        omega
      | space hm' =>
        have hmt' := of_upper_not_space (methods_no_space _ hm')
        cases (split_space hmt hmt' htext).2
      | target => rfl
    · -- one more byte of the target would make its range longer
      have h0 := hv.range []
      have h1 := hv.range [0x21]
      rw [List.append_nil, pathRange_target hm, takeWhile_target ht] at h0
      have hgrow : mt ++ 0x20 :: d :: tgt ++ [0x21] = mt ++ 0x20 :: d :: (tgt ++ [0x21]) := by simp
      have hfree : ∀ e ∈ tgt ++ [0x21], e ≠ 0x20 := by
        intro e he
        rcases List.mem_append.mp he with he | he
        · exact ht e he
        · rw [List.mem_singleton.mp he]
          decide
      rw [hgrow, pathRange_target hm, takeWhile_target hfree, List.length_append,
        List.length_singleton] at h1
      exact absurd (h0.trans h1.symm) (rangeTo_succ_ne (Nat.le_add_right _ _))

theorem textLabel_statusStart (hs : Captures items .status) (h : upper st = statusStart) :
    textLabel items st = .start statusStart := by
  have hlen : st.length = 9 := by rw [← upper_length, h, statusStart_length]
  obtain ⟨v, hlabel, hv⟩ := textLabel_settles (R := ReadingStatus 0) behindStatus
    (fun _ c _ h => h.step hs c) (.text (by decide)) st
  rw [← hlabel]
  rcases hv with hv | hv
  · cases hv with
    | text hlt => omega
    | started => rfl
    | one h' =>
      rw [List.length_append, ← upper_length, h', statusStart_length, List.length_singleton] at hlen
      omega
    | two h' =>
      rw [List.length_append, List.length_append, ← upper_length, h', statusStart_length,
        List.length_singleton, List.length_singleton] at hlen
      omega
  · -- three more bytes would be a code
    have h0 := hv.range []
    have h3 := hv.range [0, 0, 0]
    have hp : statusStart <+: upper (st ++ [0, 0, 0]) := by
      rw [upper_append, h]
      exact List.prefix_append _ _
    have hlong : (st ++ [0, 0, 0]).length = 12 := by rw [List.length_append, hlen]; rfl
    rw [List.append_nil, statusRange, if_neg fun hx => by omega] at h0
    rw [statusRange, if_pos ⟨hp, by omega⟩, ← h0] at h3
    exact absurd h3 (by decide)

theorem textLabel_code (hs : Captures items .status) (h : upper st = statusStart) (hne : w ≠ [])
    (hle : w.length ≤ 4) : textLabel items (st ++ w) = .code w.length := by
  induction w using List.reverseRecOn with
  | nil => exact absurd rfl hne
  | append_singleton w c ih =>
    rw [List.length_append, List.length_singleton] at hle ⊢
    rw [← List.append_assoc, textLabel_concat]
    by_cases hw : w = []
    · subst hw
      rw [List.append_nil, textLabel_statusStart hs h, readLabel, edgeOf_statusStart hs]
      rfl
    · have hpos := List.length_pos_iff.mpr hw
      rw [ih hw (by omega)]
      refine readLabel_code hs ?_ c
      simp only [List.mem_cons, List.not_mem_nil, or_false]
      omega

theorem textLabel_preface (hc : Captures items .preface) (text : Bytes) : ∃ v : View,
    v.label = textLabel items text ∧
      (ReadingPreface items text v ∨ Settled PastPreface (prefaceRange items 0) text v) :=
  textLabel_settles behindPreface (fun _ c _ h => h.step hc c) ⟨rfl, prefaceFront_nil, by decide⟩ text

theorem textLabel_prefaceFront (hc : Captures items .preface) (h : PrefaceFront items text) :
    textLabel items text = .start (upper text) := by
  induction text using List.reverseRecOn with
  | nil => rfl
  | append_singleton text c ih =>
    have hfront : PrefaceFront items text :=
      h.imp (List.prefix_append _ _).trans fun hx => ⟨hx.1, (List.prefix_append _ _).trans hx.2⟩
    have hp := h.upper_prefix
    rw [upper_concat] at hp
    rw [textLabel_concat, ih hfront, readLabel_startWith (hfront.edge hc h), startWith_preface hp,
      upper_concat]

/-- A line feed that nothing but the end of a line is for. -/
theorem readLabel_lineEnd (hany : (l, anyInput) ∉ edges items)
    (h : (l, lfInput) ∈ edges items → l.goto lfInput = .name []) :
    readLabel items l lfInput = .name [] := by
  by_cases hown : (l, lfInput) ∈ edges items
  · rw [readLabel_own hown, h hown]
  · exact readLabel_again hown hany

/-- What a line feed can make of the first line. -/
inductive LineFeeds (items : List (Item × MatchId)) (text : Bytes) : Label → Prop
  | target : LineFeeds items text .target
  | code {n : Nat} (hs : Captures items .status) (h : OpenCode text) : LineFeeds items text (.code n)
  | preface {t : Bytes} (hc : Captures items .preface) (ht : t = upper text)
      (h : t <+: http2Preface) : LineFeeds items text (.start t)
  | name : LineFeeds items text (.name [])

theorem lineFeeds_text :
    LineFeeds items (line ++ lf) (readLabel items (.start (upper line)) lfInput) := by
  have hlf : lf = [0x0a] := rfl
  show LineFeeds items (line ++ lf) (readLabel items (.start (upper line)) (0x0a : UInt8).toNat)
  by_cases hown : (.start (upper line), (0x0a : UInt8).toNat) ∈ edges items
  · have hmem : ∀ p : Bytes, upper line ++ [0x0a] <+: p → 0x0a ∈ p := fun p hp => hp.subset (by simp)
    rw [edge_start, UInt8.ofNat_toNat] at hown
    rcases id hown with ⟨-, ⟨-, m, hm, hp⟩ | ⟨-, hi⟩ | ⟨-, hi⟩⟩ | ⟨-, ⟨-, hp⟩ | ⟨-, hi⟩⟩ | ⟨hc, -, hp⟩
    · have hno : ∀ m ∈ methods, 0x0a ∉ m := by decide +kernel
      exact absurd (hmem m hp) (hno m hm)
    · exact absurd hi (by decide)
    · exact absurd hi (by decide)
    · exact absurd (hmem _ hp) (by decide)
    · exact absurd hi (by decide)
    · have hedge : (.start (upper line), (0x0a : UInt8).toNat) ∈ edges items := by
        rw [edge_start, UInt8.ofNat_toNat]
        exact hown
      have hlabel := (readLabel_startWith hedge).trans (startWith_preface hp)
      have htext : upper line ++ [upperByte 0x0a] = upper (line ++ lf) := (upper_concat line 0x0a).symm
      rw [htext] at hlabel
      rw [hlabel]
      exact .preface hc rfl (by rw [← htext]; exact hp)
  · rcases readLabel_start_lost hown with ⟨heq, -⟩ | ⟨heq, ht, hs⟩ | heq
    · rw [heq]
      exact .target
    · rw [heq]
      exact .code hs ⟨line, lf, ht, rfl, by simp [hlf], by simp [hlf]⟩
    · rw [heq]
      exact .name

theorem lineFeeds_code {n : Nat} (h : upper st = statusStart) (hn : n = min w.length 4) :
    LineFeeds items (st ++ w ++ lf) (readLabel items (.code n) lfInput) := by
  by_cases hown : (.code n, lfInput) ∈ edges items
  · rw [readLabel_own hown]
    exact .name
  by_cases hany : (.code n, anyInput) ∈ edges items
  · have hs := (edge_code.mp hany).1
    have hne : n ≠ 4 := fun h4 => hown (edge_code.mpr ⟨hs, .inr ⟨h4, .inr rfl⟩⟩)
    have hlf : lf.length = 1 := rfl
    rw [readLabel_any hown hany, Label.goto, if_neg (by decide), if_neg (by decide), if_neg hne]
    refine .code hs ⟨st, w ++ lf, h, List.append_assoc .., ?_, ?_⟩
    · exact List.append_ne_nil_of_right_ne_nil _ (List.cons_ne_nil _ _)
    · rw [List.length_append, hlf]
      omega
  · rw [readLabel_again hown hany]
    exact .name

/-- Where a line feed leads from the first line. -/
theorem Heads.lineFeed (h : Heads line l) :
    LineFeeds items (line ++ lf) (readLabel items l lfInput) := by
  have hend : (l, anyInput) ∉ edges items → l.goto lfInput = .name [] →
      LineFeeds items (line ++ lf) (readLabel items l lfInput) := by
    intro hany hgoto
    rw [readLabel_lineEnd hany fun _ => hgoto]
    exact .name
  cases h with
  | text => exact lineFeeds_text
  | method h =>
    have hno : ∀ i, i ≠ spaceInput → (.start options, i) ∉ edges items :=
      fun i hi he => hi (edge_options.mp he).2
    rw [readLabel_again (hno _ (by decide)) (hno _ (by decide))]
    exact .name
  | space h =>
    have hown : (.start afterMethod, lfInput) ∉ edges items :=
      fun he => absurd (edge_afterMethod.mp he).2 (by decide)
    by_cases hany : (.start afterMethod, anyInput) ∈ edges items
    · rw [readLabel_any hown hany]
      exact .target
    · rw [readLabel_again hown hany]
      exact .name
  | target h ht =>
    have hown : (.target, lfInput) ∉ edges items :=
      fun he => absurd (edge_target.mp he).2 (by decide)
    by_cases hany : (.target, anyInput) ∈ edges items
    · rw [readLabel_any hown hany]
      exact .target
    · rw [readLabel_again hown hany]
      exact .name
  | version =>
    refine hend (fun hany => ?_) rfl
    obtain ⟨-, ⟨hi, -⟩ | ⟨-, hi | hi⟩⟩ := edge_version.mp hany
    · exact Nat.lt_irrefl 256 hi
    · exact absurd hi (by decide)
    · exact absurd hi (by decide)
  | versionCr => exact hend (fun hany => absurd (edge_versionCr.mp hany).2 (by decide)) rfl
  | code h hn => exact lineFeeds_code h hn
  | codeCr => exact hend (fun hany => absurd (edge_codeCr.mp hany).2 (by decide)) rfl
  | any => exact hend not_mem_any_any rfl
  | anyCr => exact hend (fun hany => absurd (edge_anyCr.mp hany) (by decide)) rfl

open Classical in
/-- Where the DFA stands behind the first line, in terms of the line itself. -/
noncomputable def firstEnd (items : List (Item × MatchId)) (text : Bytes) : Label :=
  if ReadsRequests items ∧ OpenTarget text then .target
  else if Captures items .status ∧ OpenCode text then .code (text.length - 9)
  else if Captures items .preface ∧ PrefaceFront items text then .start (upper text)
  else .name []

/-- The preface is not over with its first line. -/
theorem firstLine_short (hlf : ∀ c ∈ line, c ≠ 0x0a) (hp : upper (line ++ lf) <+: http2Preface) :
    (upper (line ++ lf)).length < 24 := by
  by_contra hlen
  have heq := hp.eq_of_length_le (by rw [http2Preface_length]; omega)
  have hsplit : upper (line ++ lf) = upper line ++ [0x0a] := upper_concat line 0x0a
  rw [hsplit] at heq
  have hmem : 0x0a ∈ upper line := by
    rw [← @List.dropLast_concat _ (upper line) 0x0a, heq]
    decide
  obtain ⟨c, hc, hup⟩ := List.mem_map.mp hmem
  refine hlf c hc ?_
  rw [upperByte_eq_iff] at hup
  rw [← UInt8.toNat_inj]
  have h0a : (0x0a : UInt8).toNat = 10 := rfl
  omega

/-- A text that reads as a front of the preface is one. -/
theorem prefaceFront_of_label (hc : Captures items .preface)
    (h : textLabel items text = .start t) (hp : t <+: http2Preface) (hlt : t.length < 24) :
    PrefaceFront items text := by
  obtain ⟨v, hlabel, hv⟩ := textLabel_preface hc text
  rw [h] at hlabel
  rcases hv with hv | hv
  · exact hv.reads
  · exact absurd ⟨hp, hlt⟩ (hv.label t hlabel)

theorem textLabel_first (hlf : ∀ c ∈ line, c ≠ 0x0a) :
    textLabel items (line ++ lf) = firstEnd items (line ++ lf) := by
  have hlabel : textLabel items (line ++ lf) = readLabel items (textLabel items line) lfInput :=
    textLabel_concat
  have hfeed : LineFeeds items (line ++ lf) (textLabel items (line ++ lf)) := by
    rw [hlabel]
    exact (@Heads.run items [] line 0 hlf).2.lineFeed
  unfold firstEnd
  split
  next h => exact textLabel_target_iff.mpr h
  next htarget =>
    split
    next h =>
      obtain ⟨hs, st, w, hst, heq, hne, hle⟩ := h
      have hlen : st.length = 9 := by rw [← upper_length, hst, statusStart_length]
      rw [heq, textLabel_code hs hst hne hle, List.length_append, hlen, Nat.add_sub_cancel_left]
    next hcode =>
      split
      next h => exact textLabel_prefaceFront h.1 h.2
      next hpreface =>
        generalize hl : textLabel items (line ++ lf) = l at hfeed
        cases hfeed with
        | target => exact absurd (textLabel_target_iff.mp hl) htarget
        | code hs h => exact absurd ⟨hs, h⟩ hcode
        | preface hc ht hp =>
          have hshort := firstLine_short hlf (ht ▸ hp)
          rw [← ht] at hshort
          exact absurd ⟨hc, prefaceFront_of_label hc hl hp hshort⟩ hpreface
        | name => rfl

theorem upper_line_lf (line : Bytes) : 0x0a ∈ upper (line ++ lf) := by
  have hsplit : upper (line ++ lf) = upper line ++ [0x0a] := upper_concat line 0x0a
  rw [hsplit]
  exact List.mem_append_right _ (List.mem_singleton.mpr rfl)

/-- The parser is not done with the first line. -/
theorem Heads.not_stops (h : Heads line l) (hlf : ∀ c ∈ line, c ≠ 0x0a) :
    ¬∃ x, edgeOf items l (0x0a : UInt8).toNat = some x ∧ stops items x := by
  intro hstop
  rcases stops_cases hstop with heq | heq | ⟨t, rfl, hpre, -⟩
  · exact h.ne_field.1 heq
  · exact h.ne_field.2.1 heq
  · cases h with
    | text =>
      have htext : upper (line ++ lf) = http2Preface := (upper_concat line 0x0a).trans hpre
      have hshort := firstLine_short hlf (htext ▸ List.prefix_refl _)
      rw [htext] at hshort
      exact absurd hshort (by decide)
    | method => exact absurd hpre (by decide)
    | space => exact absurd hpre (by decide)

/-- No field is captured on the first line. -/
theorem Heads.run_line {n : Bytes} (o : Nat) (hlf : ∀ c ∈ line, c ≠ 0x0a) :
    viewRun items n o (line ++ lf) .init = (none, ⟨textLabel items (line ++ lf), 0, .zero⟩) := by
  obtain ⟨hrun, hl⟩ := @Heads.run items n line o hlf
  have hlabel : textLabel items (line ++ lf) =
      readLabel items (textLabel items line) (0x0a : UInt8).toNat := textLabel_concat
  rw [hlabel]
  refine viewRun_concat hrun (Prod.ext ?_ (viewStep_not_done (hl.not_stops hlf)))
  exact viewStep_idle fun x hx => header_idle (hl.ne_field.2.2 n) hx

end Beeper.Http1
