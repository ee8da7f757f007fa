import Beeper.BuilderTrees
import Mathlib.Computability.Language

namespace Beeper

variable {A : Type} {dfa dfa' : Dfa A} {s t q : StateId} {w : Bytes}

/-- Only bytes lead on, without any action so far, and never from or to the fallback state. -/
structure Dfa.Bytewise (dfa : Dfa A) : Prop where
  two_le : 2 ≤ dfa.numStates
  edge : ∀ (s : Nat) i e, dfa.lookup s i = some e →
    s < dfa.numStates ∧ i < 256 ∧ e.action = none ∧ s ≠ anyState
  target : ∀ s i e, dfa.lookup s i = some e → e.target < dfa.numStates ∧ e.target ≠ anyState

/-- The state a string leads to, where the fallback state is entered if nothing goes on. -/
def Dfa.read (dfa : Dfa A) (s : StateId) (w : Bytes) : StateId :=
  w.foldl (fun s c => (dfa.transition s c.toNat).1) s

theorem Dfa.read_eq (hany : ∀ s, dfa.lookup s anyInput = none)
    (hfall : ∀ i, dfa.lookup anyState i = none) :
    dfa.read s w = (dfa.walk s w).getD anyState := by
  induction w generalizing s with
  | nil => rfl
  | cons c w ih =>
    have hstep : dfa.read s (c :: w) = dfa.read (dfa.transition s c.toNat).1 w := rfl
    rw [hstep, Dfa.walk, Dfa.transition]
    cases he : dfa.lookup s c.toNat with
    | some e => exact ih
    | none =>
      simp only [hany]
      rw [ih]
      cases w with
      | nil => rfl
      | cons d w =>
        rw [Dfa.walk, hfall]
        rfl

theorem Dfa.walk_retarget
    (hl : ∀ s i, (dfa'.lookup s i).map Edge.target = (dfa.lookup s i).map Edge.target) :
    dfa'.walk s w = dfa.walk s w := by
  induction w generalizing s with
  | nil => rfl
  | cons c w ih =>
    have hbind : ∀ (d : Dfa A) (s : StateId), d.walk s (c :: w) =
        ((d.lookup s c.toNat).map Edge.target).bind fun q => d.walk q w := by
      intro d s
      rw [Option.bind_map]
      rfl
    rw [hbind, hbind, hl]
    congr 1
    funext q
    exact ih

/-- A state that nothing leads out of is only passed at the end of a walk. -/
theorem Dfa.walk_old (hforth : ∀ s i e, dfa.lookup s i = some e → dfa'.lookup s i = some e)
    (hback : ∀ s i e, dfa'.lookup s i = some e → dfa.lookup s i = some e ∨ e.target = t)
    (hleaf : ∀ i, dfa'.lookup t i = none) (hq : q ≠ t) :
    dfa'.walk s w = some q ↔ dfa.walk s w = some q := by
  constructor
  · intro hw
    induction w generalizing s with
    | nil => exact hw
    | cons c w ih =>
      obtain ⟨e, he, hrest⟩ := Option.bind_eq_some_iff.mp hw
      rcases hback s _ e he with hold | htarget
      · exact Option.bind_eq_some_iff.mpr ⟨e, hold, ih hrest⟩
      · rw [htarget] at hrest
        cases w with
        | nil => exact absurd (Option.some.inj hrest).symm hq
        | cons d w =>
          rw [Dfa.walk, hleaf] at hrest
          cases hrest
  · intro hw
    induction w generalizing s with
    | nil => exact hw
    | cons c w ih =>
      obtain ⟨e, he, hrest⟩ := Option.bind_eq_some_iff.mp hw
      exact Option.bind_eq_some_iff.mpr ⟨e, hforth s _ e he, ih hrest⟩

/-- The walks to such a state are those to the states that lead into it, with one more byte. -/
theorem Dfa.walk_leaf (hforth : ∀ s i e, dfa.lookup s i = some e → dfa'.lookup s i = some e)
    (hback : ∀ s i e, dfa'.lookup s i = some e → dfa.lookup s i = some e ∨ e.target = t)
    (hleaf : ∀ i, dfa'.lookup t i = none) (hs : s ≠ t) :
    dfa'.walk s w = some t ↔ ∃ v c q, w = v ++ [c] ∧ dfa.walk s v = some q ∧
      ∃ e, dfa'.lookup q c.toNat = some e ∧ e.target = t := by
  constructor
  · intro hw
    rcases List.eq_nil_or_concat w with rfl | ⟨v, c, rfl⟩
    · exact absurd (Option.some.inj hw) hs
    · rw [List.concat_eq_append, Dfa.walk_append] at hw
      obtain ⟨q, hv, hc⟩ := Option.bind_eq_some_iff.mp hw
      obtain ⟨e, he, htarget⟩ := Option.bind_eq_some_iff.mp hc
      have hq : q ≠ t := by
        rintro rfl
        rw [hleaf] at he
        cases he
      exact ⟨v, c, q, List.concat_eq_append, (Dfa.walk_old hforth hback hleaf hq).mp hv, e, he,
        Option.some.inj htarget⟩
  · rintro ⟨v, c, q, rfl, hv, e, he, rfl⟩
    have hq : q ≠ e.target := by
      intro heq
      rw [heq, hleaf] at he
      cases he
    rw [Dfa.walk_append, (Dfa.walk_old hforth hback hleaf hq).mpr hv, Option.bind_some]
    exact Option.bind_eq_some_iff.mpr ⟨e, he, rfl⟩

/-- The state `u` was added behind `x`, for the input `i`. -/
structure Dfa.Grown (dfa dfa' : Dfa A) (x : Nat) (i : Input) (cs : Bool) (u : Nat) : Prop where
  bytewise : dfa'.Bytewise
  new : u = dfa.numStates
  lt : u < dfa'.numStates
  any : u ≠ anyState
  leaf : ∀ i, dfa'.lookup u i = none
  case : ∀ i' e, dfa'.lookup x i' = some e → CaseOf cs i i'
  edge : ∀ i', CaseOf cs i i' → ∃ e, dfa'.lookup x i' = some e ∧ e.target = u
  forth : ∀ s i e, dfa.lookup s i = some e → dfa'.lookup s i = some e
  back : ∀ s i e, dfa'.lookup s i = some e → dfa.lookup s i = some e ∨ e.target = u ∧ s = x

/-- The states for the bytes `ws` were added behind `x`, one behind the other. -/
structure Dfa.Branched (dfa dfa' : Dfa A) (x : Nat) (ws : Bytes) (u : Nat) : Prop where
  bytewise : dfa'.Bytewise
  le : dfa.numStates ≤ dfa'.numStates
  lt : u < dfa'.numStates
  any : u ≠ anyState
  new : u = x ∧ ws = [] ∨ dfa.numStates ≤ u
  leaf : ∀ i, dfa'.lookup u i = none
  first : ∀ i e, dfa'.lookup x i = some e → ∃ c ∈ ws.head?, i = c.toNat
  same : ∀ (q : Nat) i, q < dfa.numStates → q ≠ x → dfa'.lookup q i = dfa.lookup q i
  old : ∀ v (q : Nat), q < dfa.numStates →
    (dfa'.walk initState v = some q ↔ dfa.walk initState v = some q)
  walk : ∀ v, dfa'.walk initState v = some u ↔ ∃ v0, v = v0 ++ ws ∧ dfa.walk initState v0 = some x

theorem Dfa.Branched.refl {x : Nat} (h : dfa.Bytewise) (hx : x < dfa.numStates) (hany : x ≠ anyState)
    (hleaf : ∀ i, dfa.lookup x i = none) : dfa.Branched dfa x [] x := by
  refine ⟨h, Nat.le_refl _, hx, hany, .inl ⟨rfl, rfl⟩, hleaf, fun i e he => ?_, fun _ _ _ _ => rfl,
    fun _ _ _ => Iff.rfl, fun v => ⟨fun hv => ⟨v, (List.append_nil v).symm, hv⟩, ?_⟩⟩
  · rw [hleaf] at he
    cases he
  · rintro ⟨v0, rfl, hv⟩
    rw [List.append_nil]
    exact hv

namespace Dfa.Grown

variable {dfa'' : Dfa A} {x u : Nat} {c : UInt8} {cs : Bool} {i : Input}

theorem same (hg : dfa.Grown dfa' x i cs u) {q : Nat} (hne : q ≠ x) (j : Input) :
    dfa'.lookup q j = dfa.lookup q j := by
  cases hold : dfa.lookup q j with
  | some e => exact hg.forth q j e hold
  | none =>
    cases he : dfa'.lookup q j with
    | none => rfl
    | some e =>
      rcases hg.back q j e he with hold' | ⟨-, rfl⟩
      · exact absurd (hold.symm.trans hold') nofun
      · exact absurd rfl hne

theorem old (hg : dfa.Grown dfa' x i cs u) {q : Nat} (hq : q < dfa.numStates) :
    dfa'.walk initState w = some q ↔ dfa.walk initState w = some q :=
  Dfa.walk_old hg.forth (fun s i e he => (hg.back s i e he).imp_right And.left) hg.leaf
    (hg.new ▸ Nat.ne_of_lt hq)

theorem walk (hg : dfa.Grown dfa' x i cs u) (h : dfa.Bytewise) :
    dfa'.walk initState w = some u ↔
      ∃ v c, w = v ++ [c] ∧ CaseOf cs i c.toNat ∧ dfa.walk initState v = some x := by
  have hinit : initState ≠ u := by
    rw [hg.new]
    exact Nat.ne_of_lt (Nat.lt_of_lt_of_le Nat.two_pos h.two_le)
  rw [Dfa.walk_leaf hg.forth (fun s i e he => (hg.back s i e he).imp_right And.left) hg.leaf hinit]
  constructor
  · rintro ⟨v, c, q, rfl, hv, e, he, htarget⟩
    have hq : q = x := by
      rcases hg.back q _ e he with hold | ⟨-, hq⟩
      · exact absurd (h.target q _ e hold).1 (htarget ▸ hg.new ▸ Nat.lt_irrefl _)
      · exact hq
    subst hq
    exact ⟨v, c, rfl, hg.case _ e he, hv⟩
  · rintro ⟨v, c, rfl, hcase, hv⟩
    obtain ⟨e, he, htarget⟩ := hg.edge _ hcase
    exact ⟨v, c, x, rfl, hv, e, he, htarget⟩

theorem branched {ws : Bytes} {t : Nat} (hg : dfa.Grown dfa' x c.toNat true t) (h : dfa.Bytewise)
    (hx : x < dfa.numStates) (hb : dfa'.Branched dfa'' t ws u) :
    dfa.Branched dfa'' x (c :: ws) u := by
  have hn : dfa.numStates ≤ dfa'.numStates := by
    have hlt := hg.lt
    rw [hg.new] at hlt
    exact Nat.le_of_lt hlt
  have ht : ∀ q < dfa.numStates, q ≠ t := fun q hq => hg.new ▸ Nat.ne_of_lt hq
  have hu : dfa.numStates ≤ u := by
    rcases hb.new with ⟨rfl, -⟩ | hle
    · exact Nat.le_of_eq hg.new.symm
    · exact Nat.le_trans hn hle
  refine ⟨hb.bytewise, Nat.le_trans hn hb.le, hb.lt, hb.any, .inr hu, hb.leaf, fun i e he => ?_,
    fun q i hq hne => ?_, fun v q hq => ?_, fun v => ?_⟩
  · rw [hb.same x i (Nat.lt_of_lt_of_le hx hn) (ht x hx)] at he
    refine ⟨c, rfl, ?_⟩
    rcases hg.case i e he with rfl | ⟨hcs, -⟩
    · rfl
    · cases hcs
  · rw [hb.same q i (Nat.lt_of_lt_of_le hq hn) (ht q hq), hg.same hne]
  · rw [hb.old v q (Nat.lt_of_lt_of_le hq hn), hg.old hq]
  · rw [hb.walk v]
    constructor
    · rintro ⟨v0, rfl, hv⟩
      obtain ⟨v1, d, rfl, hcase, hv1⟩ := (hg.walk h).mp hv
      refine ⟨v1, ?_, hv1⟩
      rcases hcase with heq | ⟨hcs, -⟩
      · rw [UInt8.toNat_inj.mp heq, List.append_assoc]
        rfl
      · cases hcs
    · rintro ⟨v0, rfl, hv⟩
      exact ⟨v0 ++ [c], by simp, (hg.walk h).mpr ⟨v0, c, rfl, .refl _ _, hv⟩⟩

end Dfa.Grown

/-- A walk that comes to `s` in a DFA that differs in nothing else but what is behind `s` comes to
it along the edges of the other one first. -/
theorem Dfa.Bytewise.walk_split {x : Nat} (h : dfa.Bytewise)
    (hsame : ∀ (q : Nat) i, q < dfa.numStates → q ≠ s → dfa'.lookup q i = dfa.lookup q i)
    (hx : x < dfa.numStates) (hw : dfa'.walk x w = some s) :
    ∃ u v, w = u ++ v ∧ dfa.walk x u = some s ∧ dfa'.walk s v = some s := by
  induction w generalizing x with
  | nil =>
    cases Option.some.inj hw
    exact ⟨[], [], rfl, rfl, rfl⟩
  | cons c w ih =>
    by_cases heq : x = s
    · subst heq
      exact ⟨[], c :: w, rfl, rfl, hw⟩
    · obtain ⟨e, he, hrest⟩ := Option.bind_eq_some_iff.mp hw
      rw [hsame x _ hx heq] at he
      obtain ⟨u, v, rfl, hu, hv⟩ := ih (h.target x _ e he).1 hrest
      exact ⟨c :: u, v, rfl, Option.bind_eq_some_iff.mpr ⟨e, he, hu⟩, hv⟩

/-- The bytes lead back to `s`, and no others lead on from the states in between. -/
def Dfa.Loop (dfa : Dfa A) (s : StateId) : StateId → Bytes → Prop
  | x, [] => x = s
  | x, c :: cs => ∃ e, dfa.lookup x c.toNat = some e ∧
      (∀ i e', dfa.lookup x i = some e' → i = c.toNat) ∧ (e.target = s → cs = []) ∧
      dfa.Loop s e.target cs

theorem Dfa.Loop.walk {x : StateId} {cs : Bytes} (h : dfa.Loop s x cs) :
    dfa.walk x cs = some s := by
  induction cs generalizing x with
  | nil => exact congrArg some h
  | cons c cs ih =>
    obtain ⟨e, he, -, -, hrest⟩ := h
    exact Option.bind_eq_some_iff.mpr ⟨e, he, ih hrest⟩

/-- A walk along a loop that comes back goes round at least once. -/
theorem Dfa.Loop.walk_back {x : StateId} {cs : Bytes} (h : dfa.Loop s x cs)
    (hw : dfa.walk x w = some s) :
    w = [] ∧ x = s ∨ ∃ v, w = cs ++ v ∧ dfa.walk s v = some s := by
  induction cs generalizing x w with
  | nil =>
    obtain rfl : x = s := h
    exact .inr ⟨w, rfl, hw⟩
  | cons c cs ih =>
    obtain ⟨e, he, honly, hlast, hrest⟩ := h
    cases w with
    | nil => exact .inl ⟨rfl, Option.some.inj hw⟩
    | cons d w =>
      obtain ⟨e', he', hw'⟩ := Option.bind_eq_some_iff.mp hw
      obtain rfl := UInt8.toNat_inj.mp (honly _ e' he')
      cases Option.some.inj (he.symm.trans he')
      rcases ih hrest hw' with ⟨rfl, hs⟩ | ⟨v, rfl, hv⟩
      · rw [hlast hs]
        exact .inr ⟨[], rfl, rfl⟩
      · exact .inr ⟨v, rfl, hv⟩

open Computability in
/-- The walks round a loop spell the string any number of times. -/
theorem Dfa.Loop.walk_kstar {cs : Bytes} (h : dfa.Loop s s cs) (hne : cs ≠ []) :
    dfa.walk s w = some s ↔ w ∈ ({cs} : Language UInt8)∗ := by
  constructor
  · intro hw
    induction hn : w.length using Nat.strongRecOn generalizing w with
    | _ n ih =>
      rcases h.walk_back hw with ⟨rfl, -⟩ | ⟨v, rfl, hv⟩
      · exact Language.nil_mem_kstar _
      · have hlt : v.length < n := by
          rw [← hn, List.length_append]
          have hpos := List.length_pos_iff.mpr hne
          omega
        have hmem : cs ++ v ∈ ({cs} : Language UInt8) * ({cs} : Language UInt8)∗ :=
          Language.append_mem_mul rfl (ih v.length hlt hv rfl)
        have hle : ({cs} : Language UInt8) * ({cs} : Language UInt8)∗ ≤ ({cs} : Language UInt8)∗ :=
          mul_kstar_le_kstar
        exact hle hmem
  · intro hw
    obtain ⟨ws, rfl, hws⟩ := Language.mem_kstar.mp hw
    clear hw
    induction ws with
    | nil => rfl
    | cons v ws ih =>
      obtain rfl : v = cs := hws v List.mem_cons_self
      rw [List.flatten_cons, Dfa.walk_append, h.walk]
      exact ih fun y hy => hws y (List.mem_cons_of_mem _ hy)

end Beeper
