import Beeper.BuilderEdges
import Beeper.PatternPaths

namespace Beeper

namespace DfaBuilder

variable {A : Type} [DecidableEq A] {b b' : DfaBuilder A} {s t u x : Nat} {i : Input} {cs : Bool}
  {to? : Option StateId} {p : OptionalPrefix}

theorem pushEdgeFrom_bytewise (h : b.dfa.Bytewise) (hs : s < b.dfa.numStates) (hany : s ≠ anyState)
    (hi : (i : Nat) < 256) (hto : ∀ x, to? = some x → (x : Nat) < b.dfa.numStates ∧ x ≠ anyState)
    (hp : b.pushEdgeFrom s i to? cs = some (u, b')) :
    b'.dfa.Bytewise ∧ u < b'.dfa.numStates ∧ u ≠ anyState ∧
      b.dfa.numStates ≤ b'.dfa.numStates := by
  have hpushed := pushEdgeFrom_some hp
  have htwo := h.two_le
  have hn := hpushed.same.ext.numStates
  have hu : u < b'.dfa.numStates ∧ u ≠ anyState := by
    rcases hpushed.alloc with ⟨e, he, rfl, -, -⟩ | ⟨-, rfl, hnum⟩
    · exact ⟨Nat.lt_of_lt_of_le (h.target _ _ _ he).1 hn, (h.target _ _ _ he).2⟩
    · cases to? with
      | none =>
        refine ⟨?_, Nat.ne_of_gt htwo⟩
        rw [hnum]
        exact Nat.lt_succ_self _
      | some x => exact ⟨Nat.lt_of_lt_of_le (hto x rfl).1 hn, (hto x rfl).2⟩
  refine ⟨⟨Nat.le_trans htwo hn, fun s' i' e he => ?_, fun s' i' e he => ?_⟩, hu.1, hu.2, hn⟩
  · rcases hpushed.back s' i' e he with hold | ⟨rfl, rfl, hcase, -⟩
    · obtain ⟨hlt, hrest⟩ := h.edge s' i' e hold
      exact ⟨Nat.lt_of_lt_of_le hlt hn, hrest⟩
    · exact ⟨Nat.lt_of_lt_of_le hs hn, hcase.lt hi, rfl, hany⟩
  · rcases hpushed.back s' i' e he with hold | ⟨rfl, -⟩
    · obtain ⟨hlt, hne⟩ := h.target s' i' e hold
      exact ⟨Nat.lt_of_lt_of_le hlt hn, hne⟩
    · exact hu

theorem pushEdgeFrom_grown (h : b.dfa.Bytewise) (hx : x < b.dfa.numStates) (hany : x ≠ anyState)
    (hi : (i : Nat) < 256) (hleaf : ∀ i, b.dfa.lookup x i = none)
    (hp : b.pushEdgeFrom x i none cs = some (u, b')) : b.dfa.Grown b'.dfa x i cs u := by
  have hpushed := pushEdgeFrom_some hp
  obtain ⟨hbytes, hlt, hne, -⟩ := pushEdgeFrom_bytewise h hx hany hi (fun _ hx => by cases hx) hp
  have hu : u = b.dfa.numStates := by
    rcases hpushed.alloc with ⟨e, he, -⟩ | ⟨-, hu, -⟩
    · rw [hleaf] at he
      cases he
    · exact hu
  have hxe : ∀ i' e, b'.dfa.lookup x i' = some e → CaseOf cs i i' := by
    intro i' e he
    rcases hpushed.back x i' e he with hold | ⟨-, -, hcase, -⟩
    · rw [hleaf] at hold
      cases hold
    · exact hcase
  refine ⟨hbytes, hu, hlt, hne, fun j => ?_, hxe, hpushed.edge, hpushed.forth, fun q j e he => ?_⟩
  · cases he : b'.dfa.lookup u j with
    | none => rfl
    | some e =>
      rcases hpushed.back u j e he with hold | ⟨-, rfl, -, -⟩
      · exact absurd (h.edge u j e hold).1 (hu ▸ Nat.lt_irrefl _)
      · exact absurd hx (hu ▸ Nat.lt_irrefl _)
  · rcases hpushed.back q j e he with hold | ⟨rfl, rfl, -, -⟩
    · exact .inl hold
    · exact .inr ⟨rfl, rfl⟩

theorem pushPrefixInputs_branched {source : StateId} {ws : Bytes} (hr : p.repeats = false)
    (hcs : p.caseSensitive = true) (h : b.dfa.Bytewise) (hx : x < b.dfa.numStates)
    (hany : x ≠ anyState) (hleaf : ∀ i, b.dfa.lookup x i = none)
    (hp : pushPrefixInputs source p (ws.map UInt8.toNat) x b = some (u, b')) :
    b.dfa.Branched b'.dfa x ws u := by
  induction ws generalizing x b with
  | nil =>
    obtain ⟨rfl, rfl⟩ := Prod.mk.inj (Option.some.inj hp)
    exact .refl h hx hany hleaf
  | cons c ws ih =>
    cases ws with
    | nil =>
      simp only [List.map_cons, List.map_nil, pushPrefixInputs, hr, hcs, Bool.false_eq_true,
        if_false] at hp
      have hgrown := pushEdgeFrom_grown
        (b := { b with lastEdges := b.lastEdges ++ [(x, c.toNat, true)] }) h hx hany c.toNat_lt hleaf
        hp
      exact hgrown.branched h hx (.refl hgrown.bytewise hgrown.lt hgrown.any hgrown.leaf)
    | cons d ws =>
      simp only [List.map_cons, pushPrefixInputs, hcs, Option.bind_eq_bind,
        Option.bind_eq_some_iff] at hp
      obtain ⟨⟨t, b1⟩, h1, h2⟩ := hp
      have hgrown := pushEdgeFrom_grown h hx hany c.toNat_lt hleaf h1
      exact hgrown.branched h hx (ih hgrown.bytewise hgrown.lt hgrown.any hgrown.leaf h2)

/-- A prefix that repeats is a loop at its source. -/
theorem pushPrefixInputs_loop {ws : Bytes} (hr : p.repeats = true) (hcs : p.caseSensitive = true)
    (h : b.dfa.Bytewise) (hx : x < b.dfa.numStates) (hany : x ≠ anyState)
    (hleaf : ∀ i, b.dfa.lookup x i = none) (hs : s < b.dfa.numStates) (hs' : s ≠ anyState)
    (hne : ws ≠ []) (hp : pushPrefixInputs s p (ws.map UInt8.toNat) x b = some (u, b')) :
    b'.dfa.Bytewise ∧
      (∀ (q : Nat) i, q < b.dfa.numStates → q ≠ x → b'.dfa.lookup q i = b.dfa.lookup q i) ∧
      b'.dfa.Loop s x ws := by
  induction ws generalizing x b with
  | nil => exact absurd rfl hne
  | cons c ws ih =>
    cases ws with
    | nil =>
      simp only [List.map_cons, List.map_nil, pushPrefixInputs, hr, hcs, if_true] at hp
      have hpushed := pushEdgeFrom_some hp
      obtain ⟨hbytes, -⟩ := pushEdgeFrom_bytewise
        (b := { b with lastEdges := b.lastEdges ++ [(x, c.toNat, true)] }) h hx hany c.toNat_lt
        (fun y hy => by cases Option.some.inj hy; exact ⟨hs, hs'⟩) hp
      obtain rfl := pushEdgeFrom_target hp
      refine ⟨hbytes, fun q i hq hne => ?_, ?_⟩
      · cases hold : b.dfa.lookup q i with
        | some e => exact hpushed.forth q i e hold
        | none =>
          cases he : b'.dfa.lookup q i with
          | none => rfl
          | some e =>
            rcases hpushed.back q i e he with hold' | ⟨-, rfl, -, -⟩
            · cases hold.symm.trans hold'
            · exact absurd rfl hne
      · obtain ⟨e, he, htarget⟩ := hpushed.edge c.toNat (.refl _ _)
        refine ⟨e, he, fun i e' he' => ?_, fun _ => rfl, htarget⟩
        rcases hpushed.back x i e' he' with hold | ⟨-, -, hcase, -⟩
        · cases (hleaf i).symm.trans hold
        · rcases hcase with rfl | ⟨hcase, -⟩
          · rfl
          · cases hcase
    | cons d ws =>
      simp only [List.map_cons, pushPrefixInputs, hcs, Option.bind_eq_bind,
        Option.bind_eq_some_iff] at hp
      obtain ⟨⟨t, b1⟩, h1, h2⟩ := hp
      have hgrown := pushEdgeFrom_grown h hx hany c.toNat_lt hleaf h1
      have hn := (pushEdgeFrom_pushed h1).ext.numStates
      obtain ⟨hbytes, hsame, hloop⟩ := ih hgrown.bytewise hgrown.lt hgrown.any hgrown.leaf
        (Nat.lt_of_lt_of_le hs hn) (List.cons_ne_nil _ _) h2
      have ht : ∀ q < b.dfa.numStates, q ≠ t := fun q hq => hgrown.new ▸ Nat.ne_of_lt hq
      refine ⟨hbytes, fun q i hq hne => ?_, ?_⟩
      · rw [hsame q i (Nat.lt_of_lt_of_le hq hn) (ht q hq), hgrown.same hne]
      · have hxs : ∀ i, b'.dfa.lookup x i = b1.dfa.lookup x i := fun i =>
          hsame x i (Nat.lt_of_lt_of_le hx hn) (ht x hx)
        obtain ⟨e, he, htarget⟩ := hgrown.edge _ (.refl _ _)
        refine ⟨e, by rw [hxs, he], fun i e' he' => ?_, fun heq => ?_, ?_⟩
        · rw [hxs] at he'
          rcases hgrown.case i e' he' with rfl | ⟨hcase, -⟩
          · rfl
          · cases hcase
        · exact absurd (heq.symm.trans htarget) (ht s hs)
        · rw [htarget]
          exact hloop

/-- What letting an input follow other states comes to. -/
theorem pushStates_some {states : List StateId} (h : b.dfa.Bytewise)
    (ht : t < b.dfa.numStates) (hany : t ≠ anyState) (hi : (i : Nat) < 256)
    (hs : ∀ q ∈ states, (q : Nat) < b.dfa.numStates ∧ q ≠ anyState)
    (hp : pushStates i t cs states b = some b') :
    b'.dfa.Bytewise ∧ b.dfa.numStates ≤ b'.dfa.numStates ∧
      (∀ q j e, b.dfa.lookup q j = some e → b'.dfa.lookup q j = some e) ∧
      (∀ q j e, b'.dfa.lookup q j = some e → b.dfa.lookup q j = some e ∨
        e.target = t ∧ q ∈ states ∧ CaseOf cs i j) ∧
      (∀ q ∈ states, ∀ j, CaseOf cs i j → ∃ e, b'.dfa.lookup q j = some e ∧ e.target = t) ∧
      b'.optionalStates = b.optionalStates ∧ b'.optionalPrefixes = b.optionalPrefixes ∧
      b'.lastEdges = b.lastEdges ++ states.map fun q => (q, i, cs) := by
  induction states generalizing b with
  | nil =>
    cases Option.some.inj hp
    exact ⟨h, Nat.le_refl _, fun _ _ _ he => he, fun _ _ _ he => .inl he,
      fun q hq => absurd hq List.not_mem_nil, rfl, rfl, (List.append_nil _).symm⟩
  | cons q states ih =>
    simp only [pushStates, Option.bind_eq_bind, Option.bind_eq_some_iff] at hp
    obtain ⟨⟨y, b1⟩, h1, h2⟩ := hp
    obtain rfl := pushEdgeFrom_target h1
    have hpushed := pushEdgeFrom_some h1
    obtain ⟨hlt, hne⟩ := hs q List.mem_cons_self
    obtain ⟨hbytes, -, -, hn⟩ := pushEdgeFrom_bytewise h hlt hne hi
      (fun z hz => by cases Option.some.inj hz; exact ⟨ht, hany⟩) h1
    obtain ⟨hbytes', hn', hforth, hback, hedge, hopts, hpre, hlast⟩ := ih
      (b := { b1 with lastEdges := b1.lastEdges ++ [(q, i, cs)] }) hbytes
      (Nat.lt_of_lt_of_le ht hn) (fun z hz => ⟨Nat.lt_of_lt_of_le
        (hs z (List.mem_cons_of_mem _ hz)).1 hn, (hs z (List.mem_cons_of_mem _ hz)).2⟩) h2
    refine ⟨hbytes', Nat.le_trans hn hn', fun s j e he => hforth s j e (hpushed.forth s j e he),
      fun s j e he => ?_, fun s hm j hcase => ?_, hopts.trans hpushed.same.optionalStates,
      hpre.trans hpushed.same.optionalPrefixes, ?_⟩
    · rcases hback s j e he with he1 | ⟨htarget, hm, hcase⟩
      · rcases hpushed.back s j e he1 with hold | ⟨rfl, rfl, hcase, -⟩
        · exact .inl hold
        · exact .inr ⟨rfl, List.mem_cons_self, hcase⟩
      · exact .inr ⟨htarget, List.mem_cons_of_mem _ hm, hcase⟩
    · rcases List.mem_cons.mp hm with rfl | hm
      · obtain ⟨e, he, htarget⟩ := hpushed.edge j hcase
        exact ⟨e, hforth _ _ _ he, htarget⟩
      · exact hedge s hm j hcase
    · rw [hlast, hpushed.same.lastEdges, List.map_cons, List.append_assoc]
      rfl

/-- The bytes an input stands for, in either case unless it is case sensitive. -/
def letter (cs : Bool) (c : UInt8) : Language UInt8 :=
  {w | ∃ d, w = [d] ∧ CaseOf cs c.toNat d.toNat}

/-- The input `c` can be pushed: nothing follows the states it has to follow in its place, and the
strings that lead to one of them are those of `L`. -/
structure Ready (b : DfaBuilder A) (c : UInt8) (L : Language UInt8) : Prop where
  bytewise : b.dfa.Bytewise
  prefixes : b.optionalPrefixes = []
  sources : ∀ q ∈ b.state :: b.optionalStates, (q : Nat) < b.dfa.numStates ∧ q ≠ anyState ∧
    ∀ j, CaseOf false c.toNat j → b.dfa.lookup q j = none
  reads : ∀ w, (∃ q ∈ b.state :: b.optionalStates, b.dfa.walk initState w = some q) ↔ w ∈ L

/-- The pattern has been built up to a state that nothing leads out of, which the strings of `L`
lead to. -/
structure Spells (b : DfaBuilder A) (L : Language UInt8) : Prop where
  bytewise : b.dfa.Bytewise
  prefixes : b.optionalPrefixes = []
  options : b.optionalStates = []
  lt : (b.state : Nat) < b.dfa.numStates
  any : b.state ≠ anyState
  leaf : ∀ j, b.dfa.lookup b.state j = none
  last : ∀ q j e, b.dfa.lookup q j = some e →
    (e.target = b.state ↔ ∃ x ∈ b.lastEdges, x.1 = q ∧ CaseOf x.2.2 x.2.1 j)
  spells : ∀ w, b.dfa.walk initState w = some b.state ↔ w ∈ L

theorem Ready.pushEdge {c : UInt8} {L : Language UInt8} (h : b.Ready c L)
    (hp : b.pushEdge c.toNat none cs = some b') : b'.Spells (L * letter cs c) := by
  unfold DfaBuilder.pushEdge at hp
  rw [pushOptionalPrefixes_nil h.prefixes] at hp
  simp only [Option.bind_eq_bind, Option.bind_some, Option.bind_eq_some_iff] at hp
  obtain ⟨⟨t, b1⟩, h1, b2, h2, heq⟩ := hp
  cases Option.some.inj heq
  obtain ⟨hslt, hsany, hsnone⟩ := h.sources b.state List.mem_cons_self
  have hpushed := pushEdgeFrom_some h1
  obtain ⟨hbytes, htlt, htany, hn⟩ := pushEdgeFrom_bytewise h.bytewise hslt hsany c.toNat_lt
    (fun _ hx => by cases hx) h1
  have ht : t = b.dfa.numStates := by
    rcases hpushed.alloc with ⟨e, he, -⟩ | ⟨-, ht, -⟩
    · rw [hsnone _ (.refl _ _)] at he
      cases he
    · exact ht
  rw [hpushed.same.optionalStates, hpushed.same.state] at h2
  obtain ⟨hbytes2, hn2, hforth, hback, hedge, hopts, hpre, hlast⟩ := pushStates_some
    (b := { b1 with state := b.state, lastEdges := [(b.state, c.toNat, cs)], optionalStates := [] })
    hbytes htlt htany c.toNat_lt (fun q hq => by
      obtain ⟨hlt, hany, -⟩ := h.sources q (List.mem_cons_of_mem _ hq)
      exact ⟨Nat.lt_of_lt_of_le hlt hn, hany⟩) h2
  have hforth' : ∀ q j e, b.dfa.lookup q j = some e → b2.dfa.lookup q j = some e :=
    fun q j e he => hforth q j e (hpushed.forth q j e he)
  -- the edges that are new lead from the sources to the new state
  have hback' : ∀ q j e, b2.dfa.lookup q j = some e → b.dfa.lookup q j = some e ∨
      e.target = t ∧ q ∈ b.state :: b.optionalStates ∧ CaseOf cs c.toNat j := by
    intro q j e he
    rcases hback q j e he with he1 | ⟨htarget, hm, hcase⟩
    · rcases hpushed.back q j e he1 with hold | ⟨rfl, rfl, hcase, -⟩
      · exact .inl hold
      · exact .inr ⟨rfl, List.mem_cons_self, hcase⟩
    · exact .inr ⟨htarget, List.mem_cons_of_mem _ hm, hcase⟩
  have hedge' : ∀ q ∈ b.state :: b.optionalStates, ∀ j, CaseOf cs c.toNat j →
      ∃ e, b2.dfa.lookup q j = some e ∧ e.target = t := by
    intro q hq j hcase
    rcases List.mem_cons.mp hq with rfl | hq
    · obtain ⟨e, he, htarget⟩ := hpushed.edge j hcase
      exact ⟨e, hforth _ _ _ he, htarget⟩
    · exact hedge q hq j hcase
  have hinto : ∀ q j e, b2.dfa.lookup q j = some e → e.target = t →
      q ∈ b.state :: b.optionalStates ∧ CaseOf cs c.toNat j := by
    intro q j e he htarget
    rcases hback' q j e he with hold | ⟨-, hm, hcase⟩
    · exact absurd (h.bytewise.target q j e hold).1 (htarget ▸ ht ▸ Nat.lt_irrefl _)
    · exact ⟨hm, hcase⟩
  have hleaf : ∀ j, b2.dfa.lookup t j = none := by
    intro j
    cases he : b2.dfa.lookup t j with
    | none => rfl
    | some e =>
      rcases hback' t j e he with hold | ⟨-, hm, -⟩
      · exact absurd (h.bytewise.edge t j e hold).1 (ht ▸ Nat.lt_irrefl _)
      · exact absurd (h.sources t hm).1 (ht ▸ Nat.lt_irrefl _)
  have hinit : initState ≠ t := by
    rw [ht]
    exact Nat.ne_of_lt (Nat.lt_of_lt_of_le Nat.two_pos h.bytewise.two_le)
  refine ⟨hbytes2, hpre.trans (hpushed.same.optionalPrefixes.trans h.prefixes), hopts,
    Nat.lt_of_lt_of_le htlt hn2, htany, hleaf, fun q j e he => ?_, fun w => ?_⟩
  · show e.target = t ↔ ∃ x ∈ b2.lastEdges, _
    rw [hlast]
    constructor
    · intro htarget
      obtain ⟨hm, hcase⟩ := hinto q j e he htarget
      refine ⟨(q, c.toNat, cs), ?_, rfl, hcase⟩
      exact List.mem_map_of_mem (f := fun q => (q, c.toNat, cs)) hm
    · rintro ⟨x, hx, rfl, hcase⟩
      obtain ⟨q, hq, rfl⟩ := List.mem_map.mp
        (show x ∈ (b.state :: b.optionalStates).map fun q => (q, c.toNat, cs) from hx)
      obtain ⟨e', he', htarget⟩ := hedge' q hq j hcase
      cases Option.some.inj (he.symm.trans he')
      exact htarget
  · show b2.dfa.walk initState w = some t ↔ _
    rw [Dfa.walk_leaf hforth' (fun q j e he => (hback' q j e he).imp_right And.left) hleaf hinit]
    constructor
    · rintro ⟨v, d, q, rfl, hv, e, he, htarget⟩
      obtain ⟨hm, hcase⟩ := hinto q _ e he htarget
      exact Language.append_mem_mul ((h.reads v).mp ⟨q, hm, hv⟩) ⟨d, rfl, hcase⟩
    · rintro hw
      obtain ⟨v, hv, x, ⟨d, rfl, hcase⟩, rfl⟩ := Language.mem_mul.mp hw
      obtain ⟨q, hm, hq⟩ := (h.reads v).mpr hv
      obtain ⟨e, he, htarget⟩ := hedge' q hm _ hcase
      exact ⟨v, d, q, rfl, hq, e, he, htarget⟩

omit [DecidableEq A] in
theorem Spells.ready {L : Language UInt8} (h : b.Spells L) (c : UInt8) : b.Ready c L := by
  refine ⟨h.bytewise, h.prefixes, fun q hq => ?_, fun w => ?_⟩
  · rw [h.options] at hq
    rw [List.mem_singleton.mp hq]
    exact ⟨h.lt, h.any, fun j _ => h.leaf j⟩
  · rw [h.options, ← h.spells w]
    simp only [List.mem_singleton, exists_eq_left]

/-- The strings a literal stands for. -/
def literalLanguage (cs : Bool) (bytes : Bytes) : Language UInt8 :=
  {w | if cs then w = bytes else SameText bytes w}

theorem literalLanguage_nil (cs : Bool) : literalLanguage cs [] = 1 := by
  ext w
  rw [Language.mem_one]
  cases cs with
  | true => exact Iff.rfl
  | false => exact List.forall₂_nil_left_iff

theorem literalLanguage_cons (cs : Bool) (c : UInt8) (bytes : Bytes) :
    literalLanguage cs (c :: bytes) = letter cs c * literalLanguage cs bytes := by
  ext w
  rw [Language.mem_mul]
  cases cs with
  | true =>
    constructor
    · rintro rfl
      exact ⟨[c], ⟨c, rfl, .refl _ _⟩, bytes, rfl, rfl⟩
    · rintro ⟨x, ⟨d, rfl, hd⟩, y, rfl, rfl⟩
      rcases hd with heq | ⟨hcs, -⟩
      · rw [UInt8.toNat_inj.mp heq]
        rfl
      · cases hcs
  | false =>
    constructor
    · intro hw
      obtain ⟨d, y, hcd, hy, rfl⟩ := List.forall₂_cons_left_iff.mp hw
      refine ⟨[d], ⟨d, rfl, ?_⟩, y, hy, rfl⟩
      exact hcd.imp (fun heq => by rw [heq]) fun ho => ⟨rfl, ho⟩
    · rintro ⟨x, ⟨d, rfl, hd⟩, y, hy, rfl⟩
      exact .cons (hd.imp (fun heq => (UInt8.toNat_inj.mp heq).symm) And.right) hy

theorem Spells.pushInner {L : Language UInt8} {bytes : Bytes} (h : b.Spells L)
    (hp : pushInner bytes cs b = some b') : b'.Spells (L * literalLanguage cs bytes) := by
  induction bytes generalizing b L with
  | nil =>
    cases Option.some.inj hp
    rw [literalLanguage_nil, mul_one]
    exact h
  | cons c bytes ih =>
    simp only [DfaBuilder.pushInner, Option.bind_eq_bind, Option.bind_eq_some_iff] at hp
    obtain ⟨b1, h1, h2⟩ := hp
    rw [literalLanguage_cons, ← mul_assoc]
    exact ih ((h.ready c).pushEdge h1) h2

/-- The strings an optional input stands for. -/
def optionalLanguage (w : Bytes) (repeats : Bool) : Language UInt8 :=
  if repeats then KStar.kstar {w} else 1 + {w}

theorem optionalLanguage_nil (repeats : Bool) : optionalLanguage [] repeats = 1 := by
  have hone : ({[]} : Language UInt8) = 1 := rfl
  unfold optionalLanguage
  rw [hone]
  split
  · exact kstar_one
  · exact add_idem 1

/-- The optional string starts unlike the input behind it, in either case. -/
def Differs (w : Bytes) (c : UInt8) : Prop := ∀ d ∈ w.head?, ¬CaseOf false c.toNat d.toNat

omit [DecidableEq A] in
/-- One optional string ends in a side state. -/
theorem Spells.skipped {L : Language UInt8} {w : Bytes} {c : UInt8} (b1 : DfaBuilder A)
    (h : b.Spells L) (hd : Differs w c) (hw : w ≠ []) (hb : b.dfa.Branched b1.dfa b.state w u)
    (hpre : b1.optionalPrefixes = []) (hstate : b1.state = b.state)
    (hopts : b1.optionalStates = [u]) : b1.Ready c (L * (1 + {w})) := by
  have hle : b.dfa.numStates ≤ u := hb.new.resolve_left fun hnil => hw hnil.2
  refine ⟨hb.bytewise, hpre, fun q hq => ?_, fun v => ?_⟩
  · rw [hstate, hopts] at hq
    rcases List.mem_cons.mp hq with rfl | hq
    · refine ⟨Nat.lt_of_lt_of_le h.lt hb.le, h.any, fun j hcase => ?_⟩
      cases he : b1.dfa.lookup b.state j with
      | none => rfl
      | some e =>
        obtain ⟨d, hhead, rfl⟩ := hb.first j e he
        exact absurd hcase (hd d hhead)
    · rw [List.mem_singleton.mp hq]
      exact ⟨hb.lt, hb.any, fun j _ => hb.leaf j⟩
  · rw [hstate, hopts, mul_add, mul_one, Language.mem_add]
    simp only [List.mem_cons, List.not_mem_nil, or_false, exists_eq_or_imp, exists_eq_left]
    refine or_congr ?_ ?_
    · rw [hb.old v b.state h.lt, h.spells]
    · rw [hb.walk v]
      constructor
      · rintro ⟨v0, rfl, hv⟩
        exact Language.append_mem_mul ((h.spells v0).mp hv) rfl
      · intro hv
        obtain ⟨v0, hv0, x, rfl, rfl⟩ := Language.mem_mul.mp hv
        exact ⟨v0, rfl, (h.spells v0).mpr hv0⟩

omit [DecidableEq A] in
/-- A repeating one is a loop at the state. -/
theorem Spells.looped {L : Language UInt8} {w : Bytes} {c : UInt8} {b1 : DfaBuilder A}
    (h : b.Spells L) (hd : Differs w c) (hw : w ≠ []) (hbytes : b1.dfa.Bytewise)
    (hext : b.dfa.Extends b1.dfa)
    (hsame : ∀ (q : Nat) i, q < b.dfa.numStates → q ≠ b.state →
      b1.dfa.lookup q i = b.dfa.lookup q i)
    (hloop : b1.dfa.Loop b.state b.state w) (hpre : b1.optionalPrefixes = [])
    (hstate : b1.state = b.state) (hopts : b1.optionalStates = []) :
    b1.Ready c (L * KStar.kstar {w}) := by
  refine ⟨hbytes, hpre, fun q hq => ?_, fun v => ?_⟩
  · rw [hstate, hopts] at hq
    rw [List.mem_singleton.mp hq]
    refine ⟨Nat.lt_of_lt_of_le h.lt hext.numStates, h.any, fun j hcase => ?_⟩
    cases he : b1.dfa.lookup b.state j with
    | none => rfl
    | some e =>
      cases w with
      | nil => exact absurd rfl hw
      | cons d w =>
        obtain ⟨e', -, honly, -⟩ := hloop
        obtain rfl := honly j e he
        exact absurd hcase (hd d rfl)
  · rw [hstate, hopts]
    simp only [List.mem_singleton, exists_eq_left]
    constructor
    · intro hv
      have hinit : (initState : Nat) < b.dfa.numStates :=
        Nat.lt_of_lt_of_le Nat.two_pos h.bytewise.two_le
      obtain ⟨v0, x, rfl, hv0, hx⟩ := h.bytewise.walk_split hsame hinit hv
      exact Language.append_mem_mul ((h.spells v0).mp hv0) ((hloop.walk_kstar hw).mp hx)
    · intro hv
      obtain ⟨v0, hv0, x, hx, rfl⟩ := Language.mem_mul.mp hv
      rw [Dfa.walk_append, hext.walk ((h.spells v0).mpr hv0)]
      exact (hloop.walk_kstar hw).mpr hx

theorem Spells.optional {L : Language UInt8} {w : Bytes} {repeats : Bool} {c : UInt8}
    {b1 : DfaBuilder A} (h : b.Spells L) (hd : Differs w c)
    (hp : (b.pushOptional w repeats).pushOptionalPrefixes = some b1) :
    b1.Ready c (L * optionalLanguage w repeats) := by
  have hpre : (b.pushOptional w repeats).optionalPrefixes = [⟨w.map UInt8.toNat, true, repeats⟩] := by
    unfold DfaBuilder.pushOptional
    rw [h.prefixes]
    rfl
  unfold pushOptionalPrefixes at hp
  rw [hpre] at hp
  by_cases hw : w = []
  · subst hw
    rw [pushPrefixes_nil fun p hp => by rw [List.mem_singleton.mp hp]; rfl] at hp
    cases Option.some.inj hp
    rw [optionalLanguage_nil, mul_one]
    have hr := h.ready c
    exact ⟨hr.bytewise, rfl, hr.sources, hr.reads⟩
  obtain ⟨hstate, hnil⟩ := pushPrefixes_same hp
  have hopts : (b.pushOptional w repeats).optionalStates = [] := h.options
  simp only [pushPrefixes, hopts, pushPrefixSources, Option.bind_eq_bind,
    Option.bind_eq_some_iff] at hp
  obtain ⟨b2, ⟨⟨u, b3⟩, h3, h2⟩, heq⟩ := hp
  cases Option.some.inj heq
  obtain ⟨hstate3, hopts3, hpre3⟩ := pushPrefixInputs_same h3
  have hext := pushPrefixInputs_extends h3
  cases repeats with
  | true =>
    simp only [not_true_eq_false, false_and, if_false] at h2
    cases Option.some.inj h2
    obtain ⟨hbytes, hsame, hloop⟩ := pushPrefixInputs_loop rfl rfl (by exact h.bytewise)
      (by exact h.lt) h.any (by exact h.leaf) (by exact h.lt) h.any hw h3
    exact h.looped hd hw hbytes hext hsame hloop hnil hstate hopts3
  | false =>
    have hb := pushPrefixInputs_branched rfl rfl (by exact h.bytewise) (by exact h.lt) h.any
      (by exact h.leaf) h3
    have hne : u ≠ b3.state := by
      rw [hstate3]
      exact Nat.ne_of_gt (Nat.lt_of_lt_of_le h.lt (hb.new.resolve_left fun hnil => hw hnil.2))
    have hopts3' : b3.optionalStates = [] := hopts3
    rw [if_pos ⟨Bool.false_ne_true, hne, by rw [hopts3']; exact List.not_mem_nil⟩] at h2
    cases Option.some.inj h2
    exact h.skipped { b3 with optionalStates := b3.optionalStates ++ [u] } hd hw hb hnil
      hstate (by rw [hopts3']; rfl)

/-- The edges in `P` got the action, and nothing else changed. -/
def Marked (action : A) (P : StateId → Input → Prop) (dfa dfa' : Dfa A) : Prop :=
  ∀ q j e, dfa.lookup q j = some e → ∃ e', dfa'.lookup q j = some e' ∧ e'.target = e.target ∧
    (P q j → e'.action = some action) ∧ (¬P q j → e'.action = e.action)

section Marked

variable {action : A} {dfa dfa' dfa'' : Dfa A} {P Q R : StateId → Input → Prop}

omit [DecidableEq A] in
theorem Marked.refl (hP : ∀ q j, ¬P q j) : Marked action P dfa dfa := fun q j e he =>
  ⟨e, he, rfl, fun h => absurd h (hP q j), fun _ => rfl⟩

omit [DecidableEq A] in
theorem Marked.trans (h : Marked action P dfa dfa') (h' : Marked action Q dfa' dfa'')
    (hR : ∀ q j, R q j ↔ P q j ∨ Q q j) : Marked action R dfa dfa'' := by
  intro q j e he
  obtain ⟨e1, he1, ht1, hp1, hn1⟩ := h q j e he
  obtain ⟨e2, he2, ht2, hp2, hn2⟩ := h' q j e1 he1
  refine ⟨e2, he2, ht2.trans ht1, fun hr => ?_, fun hr => ?_⟩
  · by_cases hq : Q q j
    · exact hp2 hq
    · rw [hn2 hq]
      exact hp1 (((hR q j).mp hr).resolve_right hq)
  · rw [hn2 fun hq => hr ((hR q j).mpr (.inr hq))]
    exact hn1 fun hp => hr ((hR q j).mpr (.inl hp))

theorem addAction_marked {s : StateId} (h : dfa.addAction s i action = some dfa') :
    Marked action (fun q j => q = s ∧ j = i) dfa dfa' := by
  have hadded := Dfa.addAction_some h
  intro q j e he
  by_cases heq : (q, j) = (s, i)
  · obtain ⟨rfl, rfl⟩ := Prod.mk.inj heq
    obtain ⟨old, hold, -, hnew⟩ := hadded.edge
    cases Option.some.inj (he.symm.trans hold)
    exact ⟨_, hnew, rfl, fun _ => rfl, fun hnot => absurd ⟨rfl, rfl⟩ hnot⟩
  · refine ⟨e, by rw [hadded.others q j heq, he], rfl, fun hP => ?_, fun _ => rfl⟩
    exact absurd (Prod.ext hP.1 hP.2) heq

theorem addOther_marked {s : StateId} (h : dfa.addOther s i action cs = some dfa') :
    Marked action (fun q j => q = s ∧ cs = false ∧ otherCase i = some j) dfa dfa' := by
  unfold Dfa.addOther at h
  split at h
  next hcs =>
    cases Option.some.inj h
    exact .refl fun q j hP => by
      rw [hP.2.1] at hcs
      cases hcs
  next hcs =>
    have hcs : cs = false := by simpa using hcs
    split at h
    next o ho =>
      have hone := addAction_marked h
      intro q j e he
      obtain ⟨e', he', ht, hp, hn⟩ := hone q j e he
      refine ⟨e', he', ht, fun hP => hp ⟨hP.1, ?_⟩, fun hnot => hn fun hP => hnot ⟨hP.1, hcs, ?_⟩⟩
      · exact Option.some.inj (hP.2.2.symm.trans ho)
      · rw [hP.2]
        exact ho
    next ho =>
      cases Option.some.inj h
      exact .refl fun q j hP => by
        rw [hP.2.2] at ho
        cases ho

/-- The action is attached to the edges of the list, in both cases unless they are case
sensitive. -/
theorem addActions_marked {edges : List (StateId × Input × Bool)}
    (h : addActions action edges dfa = some dfa') :
    Marked action (fun q j => ∃ x ∈ edges, x.1 = q ∧ CaseOf x.2.2 x.2.1 j) dfa dfa' := by
  induction edges generalizing dfa with
  | nil =>
    cases Option.some.inj h
    refine .refl fun q j hP => ?_
    obtain ⟨x, hx, -⟩ := hP
    exact absurd hx List.not_mem_nil
  | cons x edges ih =>
    obtain ⟨s, i, cs⟩ := x
    simp only [addActions, Option.bind_eq_bind, Option.bind_eq_some_iff] at h
    obtain ⟨d1, h1, d2, h2, h3⟩ := h
    have hone := (addAction_marked h1).trans (addOther_marked h2)
      (R := fun q j => s = q ∧ CaseOf cs i j) fun q j => by
        unfold CaseOf
        rw [and_or_left, eq_comm]
    refine hone.trans (ih h3) fun q j => ?_
    simp only [List.mem_cons, exists_eq_or_imp]

end Marked

end DfaBuilder

/-- A step of a pattern: a literal, with an optional string in front of it. -/
structure PatternStep where
  optional : Option (Bytes × Bool)
  literal : Bytes
  caseSensitive : Bool

namespace PatternStep

/-- There is a literal, and the optional string starts unlike it, in either case. -/
structure Valid (st : PatternStep) : Prop where
  nonempty : st.literal ≠ []
  differs : ∀ w repeats c, st.optional = some (w, repeats) → c ∈ st.literal.head? →
    DfaBuilder.Differs w c

/-- The strings of a step: the optional string, if any, and the literal. -/
def language (st : PatternStep) : Language UInt8 :=
  match st.optional with
  | none => DfaBuilder.literalLanguage st.caseSensitive st.literal
  | some (w, repeats) =>
    DfaBuilder.optionalLanguage w repeats * DfaBuilder.literalLanguage st.caseSensitive st.literal

variable {A : Type} [DecidableEq A]

/-- The calls for a step. -/
def push (st : PatternStep) (b : DfaBuilder A) : Option (DfaBuilder A) :=
  let b := match st.optional with
    | none => b
    | some (w, repeats) => b.pushOptional w repeats
  if st.caseSensitive then b.push st.literal else b.pushCi st.literal

def pushAll : List PatternStep → DfaBuilder A → Option (DfaBuilder A)
  | [], b => some b
  | st :: sts, b => do
    let b ← st.push b
    pushAll sts b

variable {b b' : DfaBuilder A} {L : Language UInt8}

theorem push_spells {st : PatternStep} (h : b.Spells L) (hst : st.Valid)
    (hp : st.push b = some b') : b'.Spells (L * st.language) := by
  obtain ⟨optional, literal, cs⟩ := st
  have hpush : ∀ {b : DfaBuilder A}, (if cs then b.push literal else b.pushCi literal) = some b' →
      DfaBuilder.pushInner literal cs b = some b' := by
    intro b hb
    cases cs with
    | true => exact hb
    | false => exact hb
  cases optional with
  | none => exact h.pushInner (hpush hp)
  | some o =>
    obtain ⟨w, repeats⟩ := o
    have hp := hpush hp
    cases literal with
    | nil => exact absurd rfl hst.nonempty
    | cons c literal =>
      simp only [DfaBuilder.pushInner, Option.bind_eq_bind, Option.bind_eq_some_iff] at hp
      obtain ⟨b1, h1, h2⟩ := hp
      obtain ⟨b0, h0, -⟩ := Option.bind_eq_some_iff.mp h1
      have hready := h.optional (hst.differs w repeats c rfl rfl) h0
      have hspells := (hready.pushEdge (DfaBuilder.pushEdge_built h0 h1)).pushInner h2
      rw [language, DfaBuilder.literalLanguage_cons, ← mul_assoc, ← mul_assoc]
      exact hspells

theorem pushAll_spells {sts : List PatternStep} (h : b.Spells L) (hsts : ∀ st ∈ sts, st.Valid)
    (hp : pushAll sts b = some b') : b'.Spells (L * (sts.map language).prod) := by
  induction sts generalizing b L with
  | nil =>
    cases Option.some.inj hp
    rw [List.map_nil, List.prod_nil, mul_one]
    exact h
  | cons st sts ih =>
    simp only [pushAll, Option.bind_eq_bind, Option.bind_eq_some_iff] at hp
    obtain ⟨b1, h1, h2⟩ := hp
    rw [List.map_cons, List.prod_cons, ← mul_assoc]
    exact ih (push_spells h (hsts st List.mem_cons_self) h1)
      (fun x hx => hsts x (List.mem_cons_of_mem _ hx)) h2

end PatternStep

variable {A : Type} [DecidableEq A] {b b' : DfaBuilder A}

omit [DecidableEq A] in
theorem DfaBuilder.Spells.init (reserved : Nat) :
    ((Dfa.withReservedStates reserved : Dfa A).startPattern initState).Spells 1 := by
  have hnone : ∀ q j, (Dfa.withReservedStates reserved : Dfa A).lookup q j = none := fun q j => by
    rw [Dfa.withReservedStates, Dfa.lookup_empty]
  have htwo : 2 ≤ (Dfa.withReservedStates reserved : Dfa A).numStates := Nat.le_max_right _ _
  refine ⟨⟨htwo, fun q j e he => ?_, fun q j e he => ?_⟩, rfl, rfl,
    Nat.lt_of_lt_of_le Nat.two_pos htwo, Nat.zero_ne_one, hnone initState, fun q j e he => ?_, fun w => ?_⟩
  · cases (hnone q j).symm.trans he
  · cases (hnone q j).symm.trans he
  · cases (hnone q j).symm.trans he
  · rw [Language.mem_one]
    cases w with
    | nil => exact iff_of_true rfl rfl
    | cons c w =>
      rw [Dfa.walk]
      refine iff_of_false (fun hw => ?_) (List.cons_ne_nil _ _)
      rw [show (((Dfa.withReservedStates reserved : Dfa A).startPattern initState).dfa).lookup
        initState c.toNat = none from hnone _ _] at hw
      cases hw

/-- A single pattern builds its language, for walks along its edges as well as for those that fall
back where no edge goes on, and the edges into its last state are those that carry its action. -/
theorem pattern_language {reserved : Nat} {sts : List PatternStep} {action : A}
    (hsts : ∀ st ∈ sts, st.Valid)
    (hb : PatternStep.pushAll sts ((Dfa.withReservedStates reserved).startPattern initState) = some b)
    (hb' : b.withAction action = some b') :
    (∀ w, b'.dfa.walk initState w = some b'.state ↔ w ∈ (sts.map PatternStep.language).prod) ∧
      (∀ w, b'.dfa.read initState w = b'.state ↔ w ∈ (sts.map PatternStep.language).prod) ∧
      ∀ s i e, b'.dfa.lookup s i = some e →
        e.action = if e.target = b'.state then some action else none := by
  have hspells := PatternStep.pushAll_spells (.init reserved) hsts hb
  rw [one_mul] at hspells
  unfold DfaBuilder.withAction at hb'
  rw [pushOptionalPrefixes_nil hspells.prefixes] at hb'
  simp only [Option.bind_eq_bind, Option.bind_some, Option.bind_eq_some_iff] at hb'
  obtain ⟨dfa, hadd, heq⟩ := hb'
  cases Option.some.inj heq
  have htargets := (DfaBuilder.addActions_targets hadd).2
  have hwalk : ∀ w, dfa.walk initState w = some b.state ↔ w ∈ (sts.map PatternStep.language).prod :=
    fun w => by rw [Dfa.walk_retarget htargets, hspells.spells]
  have hedge : ∀ s i e, dfa.lookup s i = some e →
      ∃ e0, b.dfa.lookup s i = some e0 ∧ e0.target = e.target := by
    intro s i e he
    have hs := htargets s i
    rw [he] at hs
    exact Option.map_eq_some_iff.mp hs.symm
  refine ⟨hwalk, fun w => ?_, fun s i e he => ?_⟩
  · have hany : ∀ s, dfa.lookup s anyInput = none := fun s => by
      cases he : dfa.lookup s anyInput with
      | none => rfl
      | some e =>
        obtain ⟨e0, he0, -⟩ := hedge s _ e he
        exact absurd (hspells.bytewise.edge s _ e0 he0).2.1 (Nat.lt_irrefl _)
    have hfall : ∀ i, dfa.lookup anyState i = none := fun i => by
      cases he : dfa.lookup anyState i with
      | none => rfl
      | some e =>
        obtain ⟨e0, he0, -⟩ := hedge _ i e he
        exact absurd rfl (hspells.bytewise.edge _ i e0 he0).2.2.2
    show dfa.read initState w = b.state ↔ _
    rw [← hwalk w, Dfa.read_eq hany hfall]
    cases dfa.walk initState w with
    | none => exact iff_of_false (Ne.symm hspells.any) nofun
    | some q => exact Option.some_inj.symm
  · obtain ⟨e0, he0, ht0⟩ := hedge s i e he
    obtain ⟨e', he', ht', hmarked, hrest⟩ := DfaBuilder.addActions_marked hadd s i e0 he0
    cases Option.some.inj (he.symm.trans he')
    have hlast := hspells.last s i e0 he0
    rw [ht0] at hlast
    split
    next heq => exact hmarked (hlast.mp heq)
    next hne =>
      rw [hrest fun hx => hne (hlast.mpr hx)]
      exact (hspells.bytewise.edge s i e0 he0).2.2.1

/-- Spaces that may repeat in front of a colon. -/
theorem pattern_languageSpaces : ∃ b : DfaBuilder Nat, ∀ w,
    b.dfa.walk initState w = some b.state ↔
      w ∈ DfaBuilder.optionalLanguage [0x20] true * DfaBuilder.literalLanguage true [0x3a] := by
  have hvalid : ∀ st ∈ [(⟨some ([0x20], true), [0x3a], true⟩ : PatternStep)], st.Valid := by
    intro st hst
    rw [List.mem_singleton.mp hst]
    refine ⟨List.cons_ne_nil _ _, fun w repeats c hw hc => ?_⟩
    cases hw
    cases hc
    intro d hd
    cases hd
    rintro (heq | ⟨-, ho⟩)
    · cases heq
    · cases ho
  have hbuilt : ((PatternStep.pushAll [⟨some ([0x20], true), [0x3a], true⟩]
      ((Dfa.withReservedStates 2 : Dfa Nat).startPattern initState)).bind fun b =>
        b.withAction 7).isSome = true := by decide +kernel
  obtain ⟨b', hb⟩ := Option.isSome_iff_exists.mp hbuilt
  obtain ⟨b, hb, hb'⟩ := Option.bind_eq_some_iff.mp hb
  have hlanguage := (pattern_language hvalid hb hb').1
  rw [List.map_singleton, List.prod_singleton] at hlanguage
  exact ⟨b', hlanguage⟩

end Beeper
