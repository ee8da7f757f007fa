import Beeper.Http1StatusRange

namespace Beeper.Http1

variable {items : List (Item × MatchId)} {l : Label} {t w bytes front : Bytes} {c : UInt8} {i o : Nat}
  {x : Label × Nat} {v : View}

/-- The preface as it is read where the methods are: its first letter in either case. -/
def lowerPreface : Bytes := 0x70 :: http2Preface.tail

/-- The texts that a preface is seen in. -/
def PrefaceFront (items : List (Item × MatchId)) (front : Bytes) : Prop :=
  front <+: http2Preface ∨ ReadsRequests items ∧ front <+: lowerPreface

def StartsPreface (items : List (Item × MatchId)) (bytes : Bytes) : Prop :=
  http2Preface <+: bytes ∨ ReadsRequests items ∧ lowerPreface <+: bytes

open Classical in
noncomputable def prefaceRange (items : List (Item × MatchId)) (o : Nat) (bytes : Bytes) : HttpMatch :=
  if StartsPreface items bytes then rangeTo 0 (o + 23) else .zero

theorem http2Preface_cons : http2Preface = 0x50 :: http2Preface.tail := by decide

theorem http2Preface_length : http2Preface.length = 24 := by decide

theorem lowerPreface_length : lowerPreface.length = 24 := by decide

theorem upper_of_prefix {p : Bytes} (hp : upper p = p) (h : w <+: p) : upper w = w := by
  obtain ⟨z, rfl⟩ := h
  rw [upper_append] at hp
  exact (List.append_inj hp (upper_length w)).1

theorem upper_http2Preface : upper http2Preface = http2Preface := by decide

/-- How a front of the preface, as it is read, goes on. -/
theorem prefaceFront_concat (h : PrefaceFront items front) : PrefaceFront items (front ++ [c]) ↔
    upper front ++ [c] <+: http2Preface ∨ ReadsRequests items ∧ front = [] ∧ c = 0x70 := by
  have htail : upper http2Preface.tail = http2Preface.tail := by decide
  unfold PrefaceFront lowerPreface
  cases front with
  | nil =>
    have hnil : upper [] = [] := rfl
    rw [hnil, List.nil_append, List.cons_prefix_cons]
    simp [List.nil_prefix]
  | cons b w =>
    have hne : b :: w ≠ [] := List.cons_ne_nil b w
    rw [PrefaceFront, lowerPreface] at h
    have hp : ∀ w' : Bytes, ∀ b', b' :: w' <+: http2Preface ↔ b' = 0x50 ∧ w' <+: http2Preface.tail := by
      intro w' b'
      conv_lhs => rw [http2Preface_cons, List.cons_prefix_cons]
    have hup : upper (b :: w) = upperByte b :: upper w := rfl
    rw [hup, List.cons_append, List.cons_append, hp, hp, List.cons_prefix_cons]
    rw [hp, List.cons_prefix_cons] at h
    have hw : upper w = w := by
      rcases h with ⟨-, h⟩ | ⟨-, -, h⟩
      · exact upper_of_prefix htail h
      · exact upper_of_prefix htail h
    rw [hw]
    have hcase : upperByte 0x50 = 0x50 ∧ upperByte 0x70 = 0x50 := by decide
    have hdiff : (0x50 : UInt8) ≠ 0x70 := by decide
    rcases h with ⟨rfl, -⟩ | ⟨hr, rfl, -⟩
    · simp [hcase.1, hdiff, hne]
    · simp [hcase.2, hdiff.symm, hr]

theorem PrefaceFront.upper_prefix (h : PrefaceFront items front) : upper front <+: http2Preface := by
  have hlower : upper lowerPreface = http2Preface := by decide
  rcases h with h | ⟨-, h⟩
  · rwa [ upper_of_prefix upper_http2Preface h]
  · rw [← hlower]
    exact h.map upperByte

theorem prefaceFront_nil : PrefaceFront items [] := .inl List.nil_prefix

theorem startsPreface_append {rest : Bytes} (h : StartsPreface items (front ++ rest))
    (hle : front.length ≤ 24) : PrefaceFront items front := by
  have hof : ∀ p : Bytes, p.length = 24 → p <+: front ++ rest → front <+: p := fun p hp hpre =>
    List.prefix_of_prefix_length_le (List.prefix_append _ _) hpre (by rw [hp]; exact hle)
  exact h.imp (hof _ http2Preface_length) fun h => ⟨h.1, hof _ lowerPreface_length h.2⟩

theorem startsPreface_iff (h : front.length = 24) {rest : Bytes} :
    StartsPreface items (front ++ rest) ↔ PrefaceFront items front := by
  refine ⟨fun hs => startsPreface_append hs (Nat.le_of_eq h), fun hf => ?_⟩
  have hof : ∀ p : Bytes, p.length = 24 → front <+: p → p <+: front ++ rest := by
    intro p hp hpre
    rw [hpre.eq_of_length (h.trans hp.symm)]
    exact List.prefix_append _ _
  exact hf.imp (hof _ http2Preface_length) fun h => ⟨h.1, hof _ lowerPreface_length h.2⟩

/-- A walk that has read a part of the preface so far. -/
structure ReadingPreface (items : List (Item × MatchId)) (front : Bytes) (v : View) : Prop where
  view : v = ⟨.start (upper front), 0, .zero⟩
  reads : PrefaceFront items front
  short : front.length < 24

/-- The labels that no preface ends behind. -/
def PastPreface (l : Label) : Prop := ∀ t, l = .start t → ¬(t <+: http2Preface ∧ t.length < 24)

theorem pastPreface_started (h : l.Started) : PastPreface l := fun t ht => absurd ht (h t)

theorem pastPreface_startWith
    (h : ¬(t ++ [upperByte c] <+: http2Preface ∧ t.length + 1 < 24)) : PastPreface (startWith t c) := by
  intro t' ht'
  unfold startWith at ht'
  split at ht'
  next =>
    cases ht'
    decide
  next =>
    cases ht'
    rwa [List.length_append, List.length_singleton]

theorem pastPreface_readLabel (h : PastPreface l) (c : UInt8) :
    PastPreface (readLabel items l c.toNat) := by
  by_cases hl : l.Started
  · exact pastPreface_started (started_readLabel hl _)
  · obtain ⟨t, ht⟩ := not_forall_not.mp hl
    rw [ht]
    rcases readLabel_start_cases items t c with ⟨-, heq⟩ | hs
    · rw [heq]
      refine pastPreface_startWith fun hp => h t ht ⟨(List.prefix_append _ _).trans hp.1, ?_⟩
      exact Nat.lt_of_succ_lt hp.2
    · exact pastPreface_started hs

theorem behindPreface : Behind items .preface PastPreface where
  next _ c h := pastPreface_readLabel h c
  open_ l c h x hx hcl := by
    obtain ⟨t, ht, -, heq⟩ := preface_closes_iff.mp hcl
    rcases edgeOf_fst hx with hfst | hfst
    · refine h t (hfst.symm.trans ht) ⟨?_, ?_⟩
      · rw [← heq]
        exact List.prefix_append _ _
      · rw [← http2Preface_length, ← heq, List.length_append, List.length_singleton]
        exact Nat.lt_succ_self _
    · rw [hfst] at ht
      cases ht

/-- The edge of a byte that the preface goes on with. -/
theorem PrefaceFront.edge (h : PrefaceFront items front) (hc : Captures items .preface)
    (hnext : PrefaceFront items (front ++ [c])) : (.start (upper front), c.toNat) ∈ edges items := by
  rw [edge_start, UInt8.ofNat_toNat]
  rcases (prefaceFront_concat h).mp hnext with hp | ⟨hr, rfl, rfl⟩
  · exact .inr (.inr ⟨hc, c.toNat_lt, hp⟩)
  · exact .inl ⟨hr, .inl ⟨by decide, ascii "POST", by decide, by decide⟩⟩

theorem startWith_preface (h : t ++ [upperByte c] <+: http2Preface) :
    startWith t c = .start (t ++ [upperByte c]) := by
  have hno : ∀ m ∈ methods, ¬m <+: http2Preface := by decide +kernel
  exact startWith_not_mem fun hm => hno _ hm h

theorem take_prefix {p : Bytes} {n : Nat} (h : w <+: p) (hn : n ≤ w.length) : p.take n <+: w := by
  obtain ⟨z, rfl⟩ := h
  rw [List.take_append_of_le_length hn]
  exact List.take_prefix n w

/-- All that the preface has in common with a method. -/
theorem preface_common {m : Bytes} (hm : m ∈ methods) (h : t ++ [c] <+: m)
    (hp : t ++ [c] <+: http2Preface) : t = [] ∧ c = 0x50 := by
  have hno : ∀ m ∈ methods, ¬http2Preface.take 2 <+: m := by decide +kernel
  cases t with
  | nil =>
    rw [http2Preface_cons, List.nil_append, List.cons_prefix_cons] at hp
    exact ⟨rfl, hp.1⟩
  | cons b t =>
    refine absurd (( take_prefix hp ?_).trans h) (hno m hm)
    rw [List.length_append, List.length_cons, List.length_singleton]
    omega

/-- A byte that the preface does not go on with leads away from it. -/
theorem PrefaceFront.lost (h : PrefaceFront items front) (hno : ¬PrefaceFront items (front ++ [c])) :
    PastPreface (readLabel items (.start (upper front)) c.toNat) := by
  rcases readLabel_start_cases items (upper front) c with ⟨hedge, heq⟩ | hs
  · rw [heq]
    refine pastPreface_startWith fun hp => hno ?_
    have hany := ne_anyInput c.toNat_lt
    have hstatus : ¬http2Preface.take 1 <+: statusStart := by decide
    have hoptions : ¬options <+: http2Preface := by decide
    rw [prefaceFront_concat h]
    rw [edge_start, UInt8.ofNat_toNat] at hedge
    rcases hedge with ⟨hr, ⟨-, m, hm, hpre⟩ | ⟨heq, -⟩ | ⟨-, hi⟩⟩ | ⟨-, ⟨-, hpre⟩ | ⟨-, hi⟩⟩ |
      ⟨-, -, hpre⟩
    · obtain ⟨hnil, hup⟩ := preface_common hm hpre hp.1
      have hfront : front = [] := List.map_eq_nil_iff.mp hnil
      subst hfront
      have hcase : c = 0x50 ∨ c = 0x70 := by
        rw [upperByte_eq_iff] at hup
        rw [← UInt8.toNat_inj, ← UInt8.toNat_inj]
        have h50 : (0x50 : UInt8).toNat = 80 := rfl
        have h70 : (0x70 : UInt8).toNat = 112 := rfl
        omega
      rcases hcase with rfl | rfl
      · exact .inl (by decide)
      · exact .inr ⟨hr, rfl, rfl⟩
    · rw [heq] at hp
      exact absurd ((List.prefix_append _ _).trans hp.1) hoptions
    · exact absurd hi hany
    · refine absurd (( take_prefix hp.1 ?_).trans hpre) hstatus
      rw [List.length_append, List.length_singleton]
      omega
    · exact absurd hi hany
    · exact .inl hpre
  · exact pastPreface_started hs

/-- An edge that ends the preface is the byte's own. -/
theorem edgeOf_preface (hx : edgeOf items (.start t) c.toNat = some x)
    (hcl : Item.preface.closes x) : t ++ [c] = http2Preface := by
  obtain ⟨t', ht, hlt, heq⟩ := preface_closes_iff.mp hcl
  rcases edgeOf_fst hx with hfst | hfst
  · rw [hfst] at ht
    cases ht
    rcases edgeOf_snd hx with hn | hn
    · rwa [hn, UInt8.ofNat_toNat] at heq
    · rw [hn] at hlt
      exact absurd hlt (Nat.lt_irrefl 256)
  · rw [hfst] at ht
    cases ht

theorem ReadingPreface.step (h : ReadingPreface items front v) (hc : Captures items .preface)
    (c : UInt8) : (viewStep items .preface (o + front.length) c v).2 = false ∧
        ReadingPreface items (front ++ [c]) (viewStep items .preface (o + front.length) c v).1 ∨
      Settled PastPreface (prefaceRange items o) (front ++ [c])
        (viewStep items .preface (o + front.length) c v).1 := by
  obtain ⟨rfl, hreads, hshort⟩ := h
  by_cases hnext : PrefaceFront items (front ++ [c])
  · have hedge := hreads.edge hc hnext
    have hp := hnext.upper_prefix
    rw [upper_concat] at hp
    have hlabel := (readLabel_startWith hedge).trans (startWith_preface hp)
    have hlen : (front ++ [c]).length = front.length + 1 := by
      rw [List.length_append, List.length_singleton]
    -- the last byte of the preface is a line feed, which has no other case
    have hlast : front.length + 1 = 24 → upper front ++ [c] = http2Preface := by
      intro hfull
      rcases (prefaceFront_concat hreads).mp hnext with hpre | ⟨-, rfl, -⟩
      · apply hpre.eq_of_length
        rw [List.length_append, List.length_singleton, upper_length, hfull, http2Preface_length]
      · exact absurd hfull (by decide)
    by_cases hfull : front.length + 1 = 24
    · right
      have hcl : Item.preface.closes (.start (upper front), c.toNat) :=
        preface_closes_iff.mpr ⟨_, rfl, c.toNat_lt, by rw [UInt8.ofNat_toNat]; exact hlast hfull⟩
      rw [viewStep_closes (edgeOf_own hedge) not_opens_preface hcl]
      have hend : o + front.length = o + 23 := by omega
      refine ⟨?_, fun rest => ?_⟩
      · show PastPreface (readLabel items (.start (upper front)) c.toNat)
        rw [hlabel]
        rintro t ht ⟨-, hlt⟩
        cases ht
        rw [← upper_concat, upper_length, hlen] at hlt
        omega
      · rw [hend]
        exact if_pos ((startsPreface_iff (hlen.trans hfull)).mpr hnext)
    · left
      have hne : upper front ++ [c] ≠ http2Preface := by
        intro heq
        have h24 := congrArg List.length heq
        rw [List.length_append, List.length_singleton, upper_length, http2Preface_length] at h24
        exact hfull h24
      have hdone : (viewStep items .preface (o + front.length) c
          ⟨.start (upper front), 0, .zero⟩).2 = false := by
        refine viewStep_not_done (not_stops_start fun heq => ?_)
        have h23 := congrArg List.length heq
        rw [upper_length, List.length_dropLast, http2Preface_length] at h23
        omega
      rw [viewStep_idle fun x hx => ⟨not_opens_preface, fun hcl => hne (edgeOf_preface hx hcl)⟩, hlabel,
        ← upper_concat]
      exact ⟨hdone, rfl, hnext, by omega⟩
  · right
    have hne : upper front ++ [c] ≠ http2Preface := fun heq =>
      hnext ((prefaceFront_concat hreads).mpr (.inl (heq ▸ List.prefix_refl _)))
    rw [viewStep_idle fun x hx => ⟨not_opens_preface, fun hcl => hne (edgeOf_preface hx hcl)⟩]
    refine ⟨hreads.lost hnext, fun rest => ?_⟩
    refine if_neg fun hs => hnext (startsPreface_append hs ?_)
    rw [List.length_append, List.length_singleton]
    exact hshort

theorem preface_run (hc : Captures items .preface) (o : Nat) (bytes : Bytes) :
    (Scan.run (viewStep items .preface) o bytes .init).2.range = prefaceRange items o bytes := by
  apply run_settles (R := ReadingPreface items) behindPreface (fun front c v h => h.step hc c)
  · rintro front v ⟨rfl, -, hshort⟩
    refine if_neg fun hs => ?_
    have hle : 24 ≤ front.length := by
      rcases hs with hs | ⟨-, hs⟩
      · rw [← http2Preface_length]
        exact hs.length_le
      · rw [← lowerPreface_length]
        exact hs.length_le
    omega
  · exact ⟨rfl, prefaceFront_nil, by decide⟩

end Beeper.Http1
