import Beeper.Huffman
import Beeper.Http2Parser

namespace Beeper.Http2

/-- The actions of the rows of the representations. -/
def repActions : List Action :=
  ([sField, sKeyLen, sValLen].flatMap fun s => (List.range 256).map fun c => (repEdge s c).2) ++
    repStates.flatMap fun s => [(repEdge s 0).2, (repEdge s 0x80).2]

theorem repActions_length : repActions.length = 790 := by decide +kernel

theorem mem_repActions : ∀ s ∈ repStates, ∀ c < 256, (repEdge s c).2 ∈ repActions := by
  intro s hs c hc
  have hcases : s ∈ [sField, sKeyLen, sValLen] ∨ ∀ c < 256,
      (repEdge s c).2 = (repEdge s 0).2 ∨ (repEdge s c).2 = (repEdge s 0x80).2 := by
    revert s
    decide +kernel
  rcases hcases with hrow | hcont
  · exact List.mem_append_left _ (List.mem_flatMap.mpr ⟨s, hrow,
      List.mem_map.mpr ⟨c, List.mem_range.mpr hc, rfl⟩⟩)
  · refine List.mem_append_right _ (List.mem_flatMap.mpr ⟨s, hs, ?_⟩)
    rcases hcont c hc with h | h <;> simp [h]

variable {encode : Bytes → Option Bytes}

theorem populateStaticTable_exists (he : ∀ s, ∃ enc, encode s = some enc)
    (headers : List (Nat × Bytes × Option Bytes)) :
    ∃ table, populateStaticTable encode headers = .ok table := by
  induction headers with
  | nil => exact ⟨_, rfl⟩
  | cons x headers ih =>
    obtain ⟨idx, key, val⟩ := x
    obtain ⟨table, ht⟩ := ih
    obtain ⟨k, hk⟩ := he key
    have hfield : ∃ field, staticField encode key val = .ok field := by
      unfold staticField
      cases val with
      | none =>
        rw [hk]
        exact ⟨_, rfl⟩
      | some val =>
        obtain ⟨v, hv⟩ := he val
        simp only [hk, Option.map_some, Option.getD_some, hv]
        exact ⟨_, rfl⟩
    obtain ⟨field, hf⟩ := hfield
    simp only [populateStaticTable, ht, hf, bind, Except.bind]
    exact ⟨_, rfl⟩

/-- What the edges of a DFA carry, and where. -/
def EdgesCarry (acts : List Action) (dfa : Dfa Action) : Prop :=
  ∀ s i e, dfa.lookup s i = some e → (∀ a ∈ e.action, a ∈ acts) ∧ i < 256

variable {p : Parser} {acts : List Action} {dfa : Dfa Action}

theorem IsHpackDfa.edgesCarry (h : IsHpackDfa dfa) : EdgesCarry repActions dfa := by
  intro s i e he
  by_cases hm : s ∈ repStates ∧ i < 256
  · rw [h.edge s hm.1 i hm.2] at he
    cases he
    refine ⟨fun a ha => ?_, hm.2⟩
    cases ha
    exact mem_repActions s hm.1 i hm.2
  · rw [h.others s i hm] at he
    cases he

/-- A parser whose DFA fits the parser program can be loaded. -/
theorem attach_exists (hs : p.dfa.numStates ≤ maxStates) (hl : acts.length + 1 ≤ maxActions)
    (hacts : EdgesCarry acts p.dfa) (he : ∀ s, ∃ enc, encode s = some enc) :
    ∃ rd, p.attach encode p.dfa.transitions = .ok rd := by
  obtain ⟨inj, hinj⟩ : ∃ inj, inject limits p.dfa p.dfa.transitions = .ok inj :=
    @inject_exists _ _ limits p.dfa acts hs hl hacts _ (List.Perm.refl _)
  obtain ⟨table, ht⟩ := populateStaticTable_exists he staticHeaders
  have hat : p.attach encode p.dfa.transitions =
      .ok ⟨inj.states, fun id => readAction (inj.action id), table⟩ := by
    simp only [Parser.attach, hinj, ht, bind, Except.bind]
  exact ⟨_, hat⟩

/-- A new parser. -/
theorem new_exists : ∃ p, Parser.new = .ok p := by
  obtain ⟨dfa, hd⟩ := hpackDfa_exists
  refine ⟨⟨dfa, 0, []⟩, ?_⟩
  unfold Parser.new
  rw [hd]
  rfl

/-- A parser that captures nothing can be loaded. -/
theorem attached_exists (he : ∀ s, ∃ enc, encode s = some enc) : ∃ rd, Attached encode [] rd := by
  obtain ⟨p, hp⟩ := new_exists
  obtain ⟨hdfa, -, hcs⟩ := new_ok hp
  obtain ⟨rd, hrd⟩ := attach_exists (by rw [hdfa.numStates]; decide)
    (by rw [repActions_length]; decide) hdfa.edgesCarry he
  exact ⟨rd, p, _, .new hp, hcs, List.Perm.refl _, hrd⟩

end Beeper.Http2
