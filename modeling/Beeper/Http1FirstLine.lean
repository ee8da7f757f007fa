import Beeper.Http1Soundness

namespace Beeper.Http1

variable {items : List (Item × MatchId)} {l : Label} {t w : Bytes} {c : UInt8} {i : Nat}
  {x : Label × Nat}

def upper (w : Bytes) : Bytes := w.map upperByte

theorem upper_append (a b : Bytes) : upper (a ++ b) = upper a ++ upper b := List.map_append

theorem upper_length (w : Bytes) : (upper w).length = w.length := List.length_map _

/-- A text whose front reads `a` and whose rest reads `b`. -/
theorem upper_eq_append {a b : Bytes} (h : upper w = a ++ b) :
    ∃ w1 w2, w = w1 ++ w2 ∧ upper w1 = a ∧ upper w2 = b := List.map_eq_append_iff.mp h

theorem upperByte_space : upperByte c = 0x20 ↔ c = 0x20 := by
  rw [upperByte_eq_iff, ← UInt8.toNat_inj]
  have h : (0x20 : UInt8).toNat = 32 := rfl
  omega

theorem upper_eq_space : upper w = space ↔ w = space := by
  have hs : space = [0x20] := rfl
  rw [hs, upper, List.map_eq_singleton_iff]
  constructor
  · rintro ⟨c, rfl, hc⟩
    rw [upperByte_space.mp hc]
  · rintro rfl
    exact ⟨0x20, rfl, rfl⟩

/-- The configurations that read the first line of a request. -/
def ReadsRequests (items : List (Item × MatchId)) : Prop :=
  Captures items .method ∨ Captures items .path

theorem edge_start : (.start t, i) ∈ edges items ↔
    (ReadsRequests items ∧ ((i < 256 ∧ ∃ m ∈ methods, t ++ [upperByte (UInt8.ofNat i)] <+: m) ∨
      t = options ∧ i = spaceInput ∨ t = afterMethod ∧ i = anyInput)) ∨
    (Captures items .status ∧ ((i < 256 ∧ t ++ [upperByte (UInt8.ofNat i)] <+: statusStart) ∨
      t = statusStart ∧ i = anyInput)) ∨
    (Captures items .preface ∧ i < 256 ∧ t ++ [UInt8.ofNat i] <+: http2Preface) := by
  simp [mem_edges, headerEdge, requestEdge, statusEdge, prefaceEdge, doneEdge, ReadsRequests]

theorem edge_target : (.target, i) ∈ edges items ↔
    ReadsRequests items ∧ (i = anyInput ∨ i = spaceInput) := by
  simp [mem_edges, headerEdge, requestEdge, statusEdge, prefaceEdge, doneEdge, ReadsRequests]

theorem edge_version : (.version t, i) ∈ edges items ↔ ReadsRequests items ∧
    ((i < 256 ∧ t ≠ [] ∧ t ++ [upperByte (UInt8.ofNat i)] <+: httpVersion) ∨
      t = httpVersion ∧ (i = crInput ∨ i = lfInput)) := by
  simp [mem_edges, headerEdge, requestEdge, statusEdge, prefaceEdge, doneEdge, ReadsRequests]

theorem edge_versionCr : (.versionCr, i) ∈ edges items ↔ ReadsRequests items ∧ i = lfInput := by
  simp [mem_edges, headerEdge, requestEdge, statusEdge, prefaceEdge, doneEdge, ReadsRequests]

theorem edge_code {n : Nat} : (.code n, i) ∈ edges items ↔ Captures items .status ∧
    (n ∈ [1, 2, 3, 4] ∧ i = anyInput ∨ n = 4 ∧ (i = crInput ∨ i = lfInput)) := by
  simp [mem_edges, headerEdge, requestEdge, statusEdge, prefaceEdge, doneEdge]

theorem edge_codeCr : (.codeCr, i) ∈ edges items ↔ Captures items .status ∧ i = lfInput := by
  simp [mem_edges, headerEdge, requestEdge, statusEdge, prefaceEdge, doneEdge]

/-- Any byte is part of a code, up to its fourth. -/
theorem readLabel_code {n : Nat} (h : Captures items .status) (hn : n ∈ [1, 2, 3]) (c : UInt8) :
    readLabel items (.code n) c.toNat = .code (n + 1) := by
  have hne := ne_anyInput c.toNat_lt
  simp only [List.mem_cons, List.not_mem_nil, or_false] at hn
  rw [readLabel_any]
  · simp only [Label.goto]
    rw [if_neg (by decide), if_neg (by decide), if_neg (by omega)]
  · rw [edge_code]
    omega
  · rw [edge_code]
    refine ⟨h, .inl ⟨?_, rfl⟩⟩
    simp only [List.mem_cons, List.not_mem_nil, or_false]
    omega

/-- The label behind a byte of the text a message starts with. -/
def startWith (t : Bytes) (c : UInt8) : Label :=
  if methods.contains (t ++ [upperByte c]) then .start options else .start (t ++ [upperByte c])

theorem startWith_mem (h : t ++ [upperByte c] ∈ methods) : startWith t c = .start options :=
  if_pos (List.contains_iff_mem.mpr h)

theorem startWith_not_mem (h : t ++ [upperByte c] ∉ methods) :
    startWith t c = .start (t ++ [upperByte c]) :=
  if_neg (mt List.contains_iff_mem.mp h)

theorem readLabel_startWith (h : (.start t, c.toNat) ∈ edges items) :
    readLabel items (.start t) c.toNat = startWith t c := by
  rw [readLabel_own h, goto_start_of_lt c.toNat_lt, UInt8.ofNat_toNat]
  by_cases hm : t ++ [upperByte c] ∈ methods
  · rw [startWith_mem hm, if_pos hm]
  · rw [startWith_not_mem hm, if_neg hm]

/-- Where a byte leads that the text cannot go on with. -/
theorem readLabel_start_lost (h : (.start t, c.toNat) ∉ edges items) :
    readLabel items (.start t) c.toNat = .target ∧ t = afterMethod ∧ ReadsRequests items ∨
      readLabel items (.start t) c.toNat = .code 1 ∧ t = statusStart ∧ Captures items .status ∨
        readLabel items (.start t) c.toNat = again c.toNat := by
  by_cases hany : (.start t, anyInput) ∈ edges items
  · rw [readLabel_any h hany]
    have hbig : ¬anyInput < 256 := Nat.lt_irrefl 256
    have hspace : anyInput ≠ spaceInput := by decide
    rcases edge_start.mp hany with ⟨hr, ⟨hi, -⟩ | ⟨-, hi⟩ | ⟨rfl, -⟩⟩ | ⟨hs, ⟨hi, -⟩ | ⟨rfl, -⟩⟩ |
      ⟨-, hi, -⟩
    · exact absurd hi hbig
    · exact absurd hi hspace
    · exact .inl ⟨rfl, rfl, hr⟩
    · exact absurd hi hbig
    · exact .inr (.inl ⟨rfl, rfl, hs⟩)
    · exact absurd hi hbig
  · exact .inr (.inr (readLabel_again h hany))

theorem again_ne_start (c : Nat) (t : Bytes) : again c ≠ .start t := by
  unfold again
  split <;> [skip; split] <;> simp

/-- The labels that are past the text a message starts with. -/
def Label.Started (l : Label) : Prop := ∀ t, l ≠ .start t

theorem started_again (c : Nat) : (again c).Started := again_ne_start c

theorem started_goto (h : l.Started) (i : Nat) : (l.goto i).Started := by
  intro t
  cases l with
  | start t' => exact absurd rfl (h t')
  | _ =>
    simp only [Label.goto]
    repeat' split
    all_goals simp

theorem started_readLabel (h : l.Started) (c : Nat) : (readLabel items l c).Started := by
  by_cases hown : (l, c) ∈ edges items
  · rw [readLabel_own hown]
    exact started_goto h c
  by_cases hany : (l, anyInput) ∈ edges items
  · rw [readLabel_any hown hany]
    exact started_goto h anyInput
  · rw [readLabel_again hown hany]
    exact started_again c

/-- A byte at the start of a message goes on with its text, or leaves it. -/
theorem readLabel_start_cases (items : List (Item × MatchId)) (t : Bytes) (c : UInt8) :
    (.start t, c.toNat) ∈ edges items ∧ readLabel items (.start t) c.toNat = startWith t c ∨
      (readLabel items (.start t) c.toNat).Started := by
  by_cases h : (.start t, c.toNat) ∈ edges items
  · exact .inl ⟨h, readLabel_startWith h⟩
  · right
    rcases readLabel_start_lost h with ⟨heq, -⟩ | ⟨heq, -⟩ | heq
    · rw [heq]
      intro t
      simp
    · rw [heq]
      intro t
      simp
    · rw [heq]
      exact started_again c.toNat

/-- An edge that a byte takes leaves the label, or else the fallback state. -/
theorem edgeOf_fst {n : Nat} (h : edgeOf items l n = some x) : x.1 = l ∨ x.1 = .any := by
  rcases edgeOf_cases h with ⟨rfl, -⟩ | ⟨rfl, -⟩ | ⟨rfl, -⟩
  · exact .inl rfl
  · exact .inl rfl
  · exact .inr rfl

theorem edgeOf_snd {n : Nat} (h : edgeOf items l n = some x) : x.2 = n ∨ x.2 = anyInput := by
  rcases edgeOf_cases h with ⟨rfl, -⟩ | ⟨rfl, -⟩ | ⟨rfl, -⟩
  · exact .inl rfl
  · exact .inr rfl
  · exact .inl rfl

theorem not_opens_method : ¬Item.method.opens x := by
  obtain ⟨l, i⟩ := x
  cases l <;> simp [Item.opens, Item.act, methodAct]

theorem method_closes_iff : Item.method.closes x ↔
    ∃ t, x.1 = .start t ∧ x.2 < 256 ∧ t ++ [upperByte (UInt8.ofNat x.2)] ∈ methods := by
  obtain ⟨l, i⟩ := x
  cases l <;> simp [Item.closes, Item.act, methodAct]

theorem path_opens_iff : Item.path.opens x ↔ x = (.start options, spaceInput) := by
  obtain ⟨l, i⟩ := x
  cases l <;> simp [Item.opens, Item.act, pathAct]

theorem path_closes_iff : Item.path.closes x ↔
    x = (.start afterMethod, anyInput) ∨ x = (.target, anyInput) := by
  obtain ⟨l, i⟩ := x
  cases l <;> simp [Item.closes, Item.act, pathAct]

theorem status_opens_iff : Item.status.opens x ↔
    ∃ t, x.1 = .start t ∧ x.2 < 256 ∧ t ++ [upperByte (UInt8.ofNat x.2)] = statusStart := by
  obtain ⟨l, i⟩ := x
  cases l <;> simp [Item.opens, Item.act, statusAct]

theorem status_closes_iff : Item.status.closes x ↔ x = (.code 2, anyInput) := by
  obtain ⟨l, i⟩ := x
  cases l <;> simp [Item.closes, Item.act, statusAct]

theorem not_opens_preface : ¬Item.preface.opens x := by
  obtain ⟨l, i⟩ := x
  cases l <;> simp [Item.opens, Item.act, prefaceAct]

theorem preface_closes_iff : Item.preface.closes x ↔
    ∃ t, x.1 = .start t ∧ x.2 < 256 ∧ t ++ [UInt8.ofNat x.2] = http2Preface := by
  obtain ⟨l, i⟩ := x
  cases l <;> simp [Item.closes, Item.act, prefaceAct]

/-- Where the DFA is done: behind an empty line, or behind the preface. -/
theorem stops_cases (h : ∃ x, edgeOf items l c.toNat = some x ∧ stops items x) :
    l = .name [] ∨ l = .lfCr ∨
      ∃ t, l = .start t ∧ t ++ [c] = http2Preface ∧ Captures items .preface := by
  obtain ⟨x, hx, hstop⟩ := h
  have hfst := edgeOf_fst hx
  rcases hstop with hdone | ⟨hcap, hcl⟩
  · obtain ⟨-, hname⟩ := doneAct_iff.mp hdone
    rcases hfst with heq | heq
    · rw [heq] at hname
      exact hname.elim .inl fun h => .inr (.inl h)
    · rw [heq] at hname
      simp at hname
  · obtain ⟨t, hstart, hlt, ht⟩ := preface_closes_iff.mp hcl
    rcases hfst with heq | heq
    · rcases edgeOf_snd hx with hc | hc
      · rw [hc, UInt8.ofNat_toNat] at ht
        exact .inr (.inr ⟨t, heq.symm.trans hstart, ht, hcap⟩)
      · rw [hc] at hlt
        exact absurd hlt (Nat.lt_irrefl 256)
    · rw [heq] at hstart
      cases hstart

variable {it : Item} {v : View}

theorem viewStep_done : (viewStep items it i c v).2 = true ↔
    ∃ x, edgeOf items v.label c.toNat = some x ∧ stops items x :=
  labelStep_done (i := i)

/-- A step that does not end the range of the item. -/
theorem viewStep_keeps (h : ∀ x, edgeOf items v.label c.toNat = some x → ¬it.closes x) :
    (viewStep items it i c v).1.range = v.range := by
  have hcloses : ¬∃ x, edgeOf items v.label c.toNat = some x ∧ it.closes x :=
    not_exists.mpr fun x hx => h x hx.1 hx.2
  simp only [viewStep, if_neg hcloses]

/-- From these labels on, a walk does not come to an edge that ends the range of the item. -/
structure Behind (items : List (Item × MatchId)) (it : Item) (P : Label → Prop) : Prop where
  next : ∀ l (c : UInt8), P l → P (readLabel items l c.toNat)
  open_ : ∀ l (c : UInt8), P l → ∀ x, edgeOf items l c.toNat = some x → ¬it.closes x

/-- Whatever follows, what is captured of the item stays as it is. -/
structure Settled (P : Label → Prop) (spec : Bytes → HttpMatch) (front : Bytes) (v : View) : Prop where
  label : P v.label
  range : ∀ rest, spec (front ++ rest) = v.range

theorem Settled.step {P : Label → Prop} {spec : Bytes → HttpMatch} {front : Bytes}
    (h : Settled P spec front v) (hb : Behind items it P) :
    Settled P spec (front ++ [c]) (viewStep items it i c v).1 := by
  refine ⟨hb.next v.label c h.label, fun rest => ?_⟩
  rw [List.append_assoc, h.range, viewStep_keeps (hb.open_ v.label c h.label)]

/-- What is captured of an item within the first line of a message. `R` is what holds of a walk until
it is settled. -/
theorem run_settles {P : Label → Prop} {spec : Bytes → HttpMatch} {R : Bytes → View → Prop}
    {o : Nat} (hb : Behind items it P)
    (hstep : ∀ front c v, R front v →
      (viewStep items it (o + front.length) c v).2 = false ∧
          R (front ++ [c]) (viewStep items it (o + front.length) c v).1 ∨
        Settled P spec (front ++ [c]) (viewStep items it (o + front.length) c v).1)
    (hend : ∀ front v, R front v → spec front = v.range) (h : R [] .init) (bytes : Bytes) :
    (Scan.run (viewStep items it) o bytes .init).2.range = spec bytes := by
  have hrun : (Scan.run (viewStep items it) (o + ([] : Bytes).length) bytes .init).2.range =
      spec ([] ++ bytes) := Scan.run_front
    (R := fun front v => R front v ∨ Settled P spec front v) (D := fun front v => v.range = spec front)
    (fun front c v hv => by
      have hnext : (viewStep items it (o + front.length) c v).2 = false ∧
            R (front ++ [c]) (viewStep items it (o + front.length) c v).1 ∨
          Settled P spec (front ++ [c]) (viewStep items it (o + front.length) c v).1 := by
        rcases hv with hv | hv
        · exact hstep front c v hv
        · exact .inr (hv.step hb)
      rcases hnext with ⟨hdone, hr⟩ | hs
      · refine ⟨fun _ => .inl hr, fun hd => ?_⟩
        rw [hdone] at hd
        cases hd
      · refine ⟨fun _ => .inr hs, fun _ rest => ?_⟩
        rw [← hs.range rest, List.append_assoc]
        rfl)
    (fun front v hv => by
      rcases hv with hv | hv
      · exact (hend front v hv).symm
      · rw [← hv.range [], List.append_nil])
    (.inl h)
  exact hrun

end Beeper.Http1
