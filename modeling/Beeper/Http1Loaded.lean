import Beeper.Http1StartLine
import Beeper.Http1Inject

namespace Beeper.Http1

variable {items : List (Item × MatchId)} {p p' : Parser} {mid : MatchId} {n : Bytes}
  {dfa dfa' : Dfa Action} {rd : Rodata}

/-- The pattern of an item. -/
def Item.pattern (dfa : Dfa Action) (mid : MatchId) : Item → Option (Dfa Action)
  | .header name => headerPattern dfa name mid
  | .method => methodPattern dfa mid
  | .path => pathPattern dfa mid
  | .status => statusPattern dfa mid
  | .preface => prefacePattern dfa mid

def Item.Named : Item → Prop
  | .header name => HeaderName name
  | _ => True

theorem Item.pattern_adds {it : Item} (hn : it.Named) (hp : it.pattern dfa mid = some dfa') :
    Adds dfa dfa' it.edge (it.act mid) := by
  cases it with
  | header name => exact headerPattern_adds hn hp
  | method => exact methodPattern_adds hp
  | path => exact pathPattern_adds hp
  | status => exact statusPattern_adds hp
  | preface => exact prefacePattern_adds hp

/-- The edges all items put into the DFA, and the actions on them. -/
def itemEdges (items : List (Item × MatchId)) : Set (Label × Nat) :=
  {x | ∃ y ∈ items, y.1.edge x.1 x.2}

def itemActs (items : List (Item × MatchId)) : Set (Label × Nat × Action) :=
  {x | ∃ y ∈ items, y.1.act y.2 x.1 x.2.1 x.2.2}

theorem itemEdges_cons (y : Item × MatchId) :
    itemEdges (y :: items) = itemEdges items ∪ {x | y.1.edge x.1 x.2} := by
  ext x
  simp only [itemEdges, List.mem_cons, exists_eq_or_imp, Set.mem_ofPred_eq, Set.mem_union]
  exact or_comm

theorem itemActs_cons (y : Item × MatchId) :
    itemActs (y :: items) = itemActs items ∪ {x | y.1.act y.2 x.1 x.2.1 x.2.2} := by
  ext x
  simp only [itemActs, List.mem_cons, exists_eq_or_imp, Set.mem_ofPred_eq, Set.mem_union]
  exact or_comm

/-- A DFA without edges. -/
theorem represents_new : Represents shape (∅ : Set (Label × Nat)) (∅ : Set (Label × Nat × Action))
    Label.root (Dfa.new : Dfa Action) := by
  have hlookup : ∀ s i, (Dfa.new : Dfa Action).lookup s i = none := fun s i => rfl
  have hroot : ∀ l s, Label.root l = some s → l = .start [] ∧ s = initState ∨
      l = .any ∧ s = anyState := by
    intro l s h
    unfold Label.root at h
    split at h
    · exact .inl ⟨rfl, (Option.some.inj h).symm⟩
    · exact .inr ⟨rfl, (Option.some.inj h).symm⟩
    · cases h
  refine ⟨fun l s h => h, fun l s h => ?_, fun l l' s h h' => ?_, fun l s h => .inl h,
    fun s i e he => ?_, fun l s i e _ he => ?_, fun l i h => h.elim, fun l i a h => h.elim⟩
  · have hnum : (Dfa.new : Dfa Action).numStates = 2 := rfl
    rw [hnum]
    rcases hroot l s h with ⟨-, rfl⟩ | ⟨-, rfl⟩ <;> decide
  · rcases hroot l s h with ⟨rfl, rfl⟩ | ⟨rfl, rfl⟩ <;>
      rcases hroot l' _ h' with ⟨rfl, hs⟩ | ⟨rfl, hs⟩
    · rfl
    · exact absurd hs (by decide)
    · exact absurd hs (by decide)
    · rfl
  · rw [hlookup] at he
    cases he
  · rw [hlookup] at he
    cases he

theorem lowercase_char (c : UInt8) (h : isTokenChar c = true) :
    lowerByte (lowerByte c) = lowerByte c ∧
      (lowerByte c).toNat ∉ [tabInput, lfInput, crInput, spaceInput] ∧
      (lowerByte c).toNat ≠ colonInput := by
  have hall : ∀ n < 256, isTokenChar (UInt8.ofNat n) = true →
      lowerByte (lowerByte (UInt8.ofNat n)) = lowerByte (UInt8.ofNat n) ∧
        (lowerByte (UInt8.ofNat n)).toNat ∉ [tabInput, lfInput, crInput, spaceInput] ∧
        (lowerByte (UInt8.ofNat n)).toNat ≠ colonInput := by
    decide +kernel
  have hc := hall c.toNat c.toNat_lt
  rw [UInt8.ofNat_toNat] at hc
  exact hc h

theorem headerName_of_token (hne : n ≠ []) (h : ∀ c ∈ n, isTokenChar c = true) :
    HeaderName (lowercase n) := by
  refine ⟨fun hnil => hne (List.map_eq_nil_iff.mp hnil), fun c hc => ?_, fun c hc => ?_,
    fun c hc => ?_⟩
  · obtain ⟨d, hd, rfl⟩ := List.mem_map.mp hc
    exact (lowercase_char d (h d hd)).1
  · obtain ⟨d, hd, rfl⟩ := List.mem_map.mp hc
    exact (lowercase_char d (h d hd)).2.1
  · obtain ⟨d, hd, rfl⟩ := List.mem_map.mp (List.mem_of_mem_tail hc)
    exact (lowercase_char d (h d hd)).2.2

theorem ofName_header {name : Bytes} (h : Item.ofName name = .header n) :
    n = name ∧ name ∉ [pseudoMethod, pseudoPath, pseudoStatus] := by
  unfold Item.ofName at h
  split at h
  · cases h
  split at h
  · cases h
  split at h
  · cases h
  next h1 h2 h3 =>
    cases h
    exact ⟨rfl, by simp [h1, h2, h3]⟩

theorem ofName_named {name : Bytes} (hv : ValidName name) : (Item.ofName (lowercase name)).Named := by
  cases hit : Item.ofName (lowercase name) with
  | header n =>
    obtain ⟨rfl, hpseudo⟩ := ofName_header hit
    rcases hv with ⟨hne, htoken⟩ | hv
    · exact headerName_of_token hne htoken
    · simp only [List.mem_cons, List.not_mem_nil, or_false, not_or] at hv hpseudo
      have hrest := ((hv.resolve_left hpseudo.1).resolve_left hpseudo.2.1).resolve_left hpseudo.2.2
      show HeaderName (lowercase name)
      rcases hrest with heq | heq
      · rw [heq]
        exact ⟨by decide, by decide +kernel, by decide +kernel, by decide +kernel⟩
      · rw [heq]
        exact ⟨by decide, by decide +kernel, by decide +kernel, by decide +kernel⟩
  | method => trivial
  | path => trivial
  | status => trivial
  | preface => trivial

/-- The name an item is captured under. -/
def Item.name : Item → Bytes
  | .header name => name
  | .method => pseudoMethod
  | .path => pseudoPath
  | .status => pseudoStatus
  | .preface => []

theorem name_ofName (name : Bytes) : (Item.ofName name).name = name := by
  unfold Item.ofName
  split
  next h => exact h.symm
  split
  next h => exact h.symm
  split
  next h => exact h.symm
  next => rfl

theorem capturePattern_ok {pattern : Dfa Action → MatchId → Option (Dfa Action)}
    (h : p.capturePattern pattern = .ok (mid, p')) :
    mid = p.numMatches ∧ p.numMatches < maxMatches ∧ p'.numMatches = p.numMatches + 1 ∧
      p'.captures = p.captures ∧ pattern p.dfa mid = some p'.dfa := by
  obtain ⟨⟨mid0, p0⟩, h0, h⟩ := bind_ok h
  unfold Parser.newMatch at h0
  split at h0
  · cases h0
  next hlt =>
    cases h0
    obtain ⟨dfa, h1, h2⟩ := bind_ok h
    cases h2
    unfold orPanic at h1
    split at h1
    next hsome =>
      cases h1
      exact ⟨rfl, Nat.lt_of_not_le hlt, rfl, rfl, hsome⟩
    next => cases h1

theorem captureNewHdr_eq (p : Parser) (name : Bytes) : p.captureNewHdr name =
    p.capturePattern fun dfa mid => (Item.ofName name).pattern dfa mid := by
  unfold Parser.captureNewHdr Parser.captureStatusLine Parser.captureStatusCode Item.ofName
  have hne : pseudoPath ≠ pseudoMethod := by decide
  by_cases h1 : name = pseudoMethod
  · subst h1
    simp only [true_or, if_true]
    rfl
  by_cases h2 : name = pseudoPath
  · subst h2
    simp only [or_true, if_true, if_neg hne]
    rfl
  by_cases h3 : name = pseudoStatus
  · subst h3
    simp only [h1, h2, or_self, if_false, if_true]
    rfl
  · simp only [h1, h2, h3, or_self, if_false]
    rfl

/-- What is known of a parser that captures `items`. -/
structure Configuration (items : List (Item × MatchId)) (p : Parser) : Prop where
  named : ∀ it m, (it, m) ∈ items → it.Named
  represents : ∃ num, Represents shape (itemEdges items) (itemActs items) num p.dfa
  mid_lt : ∀ it m, (it, m) ∈ items → m < p.numMatches
  numMatches_le : p.numMatches ≤ maxMatches
  mids_nodup : (items.map Prod.snd).Nodup
  nodup : (items.map Prod.fst).Nodup
  captures : ∀ it m, (it, m) ∈ items → it ≠ .preface → p.captures.lookup it.name = some m

theorem Configuration.new : Configuration [] .new := by
  refine ⟨nofun, ⟨Label.root, ?_⟩, nofun, by decide, List.nodup_nil, List.nodup_nil, nofun⟩
  have hedges : itemEdges [] = ∅ := by
    ext x
    simp [itemEdges]
  have hacts : itemActs [] = ∅ := by
    ext x
    simp [itemActs]
  rw [hedges, hacts]
  exact represents_new

/-- One more item. -/
theorem Configuration.add {it : Item} {captures : List (Bytes × MatchId)}
    (h : Configuration items p) (hn : it.Named) (hnew : it ∉ items.map Prod.fst)
    (hc : p.capturePattern (fun dfa mid => it.pattern dfa mid) = .ok (mid, p'))
    (hcap : ∀ it' m, (it', m) ∈ (it, mid) :: items → it' ≠ .preface →
      captures.lookup it'.name = some m) :
    Configuration ((it, mid) :: items) { p' with captures := captures } := by
  obtain ⟨rfl, hlt, hnum, -, hp⟩ := capturePattern_ok hc
  obtain ⟨num, hrep⟩ := h.represents
  obtain ⟨num', -, hrep'⟩ := it.pattern_adds hn hp _ _ num hrep
  refine ⟨fun it' m hm => ?_, ⟨num', ?_⟩, fun it' m hm => ?_, ?_, ?_, ?_, hcap⟩
  · rcases List.mem_cons.mp hm with heq | hm
    · cases heq
      exact hn
    · exact h.named it' m hm
  · rw [itemEdges_cons, itemActs_cons]
    exact hrep'
  · show m < p'.numMatches
    rw [hnum]
    rcases List.mem_cons.mp hm with heq | hm
    · cases heq
      exact Nat.lt_succ_self _
    · exact Nat.lt_succ_of_lt (h.mid_lt it' m hm)
  · show p'.numMatches ≤ maxMatches
    rw [hnum]
    exact hlt
  · rw [List.map_cons, List.nodup_cons]
    refine ⟨fun hm => ?_, h.mids_nodup⟩
    obtain ⟨⟨it', m⟩, hm, hmid⟩ := List.mem_map.mp hm
    have hlt' := h.mid_lt it' m hm
    have hmid : m = p.numMatches := hmid
    rw [hmid] at hlt'
    exact absurd hlt' (Nat.lt_irrefl _)
  · rw [List.map_cons, List.nodup_cons]
    exact ⟨hnew, h.nodup⟩

theorem Configured.configuration (h : Configured items p) : Configuration items p := by
  induction h with
  | new => exact .new
  | @capture items p p' name mid h hv hn hc ih =>
    unfold Parser.captureHdr at hc
    rw [hn] at hc
    obtain ⟨⟨mid0, p0⟩, h0, heq⟩ := bind_ok hc
    cases heq
    rw [captureNewHdr_eq] at h0
    -- the new name is told from the ones captured before
    have hfresh : ∀ it m, (it, m) ∈ items → it ≠ .preface → it.name ≠ lowercase name := by
      intro it m hm hne hname
      have hl := ih.captures it m hm hne
      rw [hname, hn] at hl
      cases hl
    apply ih.add (ofName_named hv) _ h0
    · intro it m hm hne
      rcases List.mem_cons.mp hm with heq | hm
      · cases heq
        rw [name_ofName]
        exact List.lookup_cons_self
      · have hne' : (it.name == lowercase name) = false := beq_eq_false_iff_ne.mpr (hfresh it m hm hne)
        rw [List.lookup_cons, hne', (capturePattern_ok h0).2.2.2.1]
        exact ih.captures it m hm hne
    · intro hm
      obtain ⟨⟨it, m⟩, hm, hit⟩ := List.mem_map.mp hm
      have hit : it = .ofName (lowercase name) := hit
      apply hfresh it m hm
      · rw [hit]
        exact ofName_ne_preface _
      · rw [hit, name_ofName]
  | again h hv hn hc ih =>
    unfold Parser.captureHdr at hc
    rw [hn] at hc
    cases hc
    exact ih
  | @preface items p p' mid h hn hc ih =>
    have hcaps := (capturePattern_ok hc).2.2.2.1
    apply @Configuration.add _ _ p' _ .preface p'.captures ih trivial _ hc
    · intro it m hm hne
      rcases List.mem_cons.mp hm with heq | hm
      · cases heq
        exact absurd rfl hne
      · rw [hcaps]
        exact ih.captures it m hm hne
    · intro hm
      obtain ⟨⟨it, m⟩, hm, hit⟩ := List.mem_map.mp hm
      have hit : it = .preface := hit
      exact hn m (hit ▸ hm)

/-- The edges of the DFA a parser is loaded with, and the actions on them. -/
def edges (items : List (Item × MatchId)) : Set (Label × Nat) :=
  itemEdges items ∪ {x | doneEdge x.1 x.2}

def acts (items : List (Item × MatchId)) : Set (Label × Nat × Action) :=
  itemActs items ∪ {x | doneAct x.1 x.2.1 x.2.2}

/-- What is known of the data a parser that captures `items` is loaded with. -/
structure Loaded (items : List (Item × MatchId)) (num : Label → Option StateId) (rd : Rodata) :
    Prop where
  named : ∀ it m, (it, m) ∈ items → it.Named
  mid_lt : ∀ it m, (it, m) ∈ items → m < maxMatches
  mids_nodup : (items.map Prod.snd).Nodup
  nodup : (items.map Prod.fst).Nodup
  runs : ∃ dfa, Represents shape (edges items) (acts items) num dfa ∧ Runs dfa rd

theorem Attached.loaded (h : Attached items rd) : ∃ num, Loaded items num rd := by
  obtain ⟨p, p', hc, hdone, hinj⟩ := h
  have hconf := hc.configuration
  obtain ⟨num, hrep⟩ := hconf.represents
  obtain ⟨dfa, hp, heq⟩ := bind_ok hdone
  cases heq
  unfold orPanic at hp
  split at hp
  next hsome =>
    cases hp
    obtain ⟨num', -, hrep'⟩ := donePattern_adds hsome _ _ num hrep
    exact ⟨num', hconf.named,
      fun it m hm => Nat.lt_of_lt_of_le (hconf.mid_lt it m hm) hconf.numMatches_le,
      hconf.mids_nodup, hconf.nodup, _, hrep', hinj.runs⟩
  next => cases hp

end Beeper.Http1
