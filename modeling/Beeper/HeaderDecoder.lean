import Beeper.WeightedQueue
import Mathlib.Data.List.Forall2

universe u v

namespace WeightedQueue

variable {α : Type u} {β : Type v} {weight : α → Nat} {weight' : β → Nat} {R : α → β → Prop}
  {xs : List α} {ys : List β} {room cap : Nat}

theorem total_related (hR : ∀ x y, R x y → weight x = weight' y) (h : List.Forall₂ R xs ys) :
    total weight xs = total weight' ys := by
  induction h with
  | nil => rfl
  | cons hxy _ ih => rw [total_cons, total_cons, ih, hR _ _ hxy]

/-- Items of the same weights are dropped alike. -/
theorem trim_related (hR : ∀ x y, R x y → weight x = weight' y) (h : List.Forall₂ R xs ys) :
    List.Forall₂ R (trim weight room cap xs) (trim weight' room cap ys) := by
  induction h with
  | nil => exact .nil
  | @cons x y xs ys hxy h ih =>
    have htotal := total_related hR (.cons hxy h)
    unfold trim
    rw [htotal]
    split
    next => exact .cons hxy h
    next => exact ih

theorem recent_eq (q : WeightedQueue weight) (n : Nat) : q.recent n = q.items.reverse[n]? := by
  unfold recent
  by_cases hn : n < q.items.length
  · rw [if_pos hn, List.getElem?_reverse hn]
  · rw [if_neg hn, List.getElem?_eq_none (by rw [List.length_reverse]; omega)]

theorem mem_recent {q : WeightedQueue weight} {n : Nat} {x : α} (h : q.recent n = some x) :
    x ∈ q.items := by
  rw [recent_eq] at h
  exact List.mem_reverse.mp (List.mem_of_getElem? h)

theorem mem_push {q : WeightedQueue weight} {x y : α} (h : y ∈ (q.push x).items) :
    y ∈ q.items ∨ y = x := by
  rw [push_items] at h
  split at h
  next =>
    rcases List.mem_append.mp h with h | h
    · exact .inl ((trim_suffix q.items).subset h)
    · exact .inr (List.mem_singleton.mp h)
  next => exact absurd h List.not_mem_nil

theorem mem_resize {q : WeightedQueue weight} {n : Nat} {y : α} (h : y ∈ (q.resize n).items) :
    y ∈ q.items :=
  (trim_suffix q.items).subset h

end WeightedQueue

/-- Strings that stand for a number of octets, however they are written. -/
class Measured (σ : Type u) where
  octets : σ → Nat

/-- A field of a header. -/
structure HeaderField (σ : Type u) where
  name : σ
  value : σ
deriving DecidableEq

/-- What a field accounts for in a table, see section 4.1 of RFC 7541. -/
def HeaderField.size {σ : Type u} [Measured σ] (f : HeaderField σ) : Nat :=
  Measured.octets f.name + Measured.octets f.value + 32

/-- The fields a decoder remembers, the one that was added first in front. -/
abbrev HeaderTable (σ : Type u) [Measured σ] := WeightedQueue (@HeaderField.size σ _)

namespace HeaderDecoder

/-- The name of a field that is not sent as a whole by an index. -/
inductive NameRef (σ : Type u)
  | idx (i : Nat)
  | lit (s : σ)

/-- The instructions a header block is made of, see section 6 of RFC 7541. -/
inductive Instr (σ : Type u)
  | indexed (i : Nat)
  | literal (add : Bool) (name : NameRef σ) (value : σ)
  | resize (n : Nat)

variable {σ : Type u} [Measured σ] (static : List (HeaderField σ)) (limit : Nat)

/-- The field with the index `i`: the static table comes first, then the other one, backwards. -/
def lookup (t : HeaderTable σ) (i : Nat) : Option (HeaderField σ) :=
  if i = 0 then none
  else if i ≤ static.length then static[i - 1]?
  else t.recent (i - static.length - 1)

def nameOf (t : HeaderTable σ) : NameRef σ → Option σ
  | .idx i => (lookup static t i).map HeaderField.name
  | .lit s => some s

/-- The table and the field that an instruction comes to, unless it breaks the rules. -/
def step (t : HeaderTable σ) : Instr σ → Option (HeaderTable σ × Option (HeaderField σ))
  | .indexed i => (lookup static t i).map fun f => (t, some f)
  | .literal add name value => (nameOf static t name).map fun s =>
      (if add then t.push ⟨s, value⟩ else t, some ⟨s, value⟩)
  | .resize n => if n ≤ limit then some (t.resize n, none) else none

/-- The table and the fields that a whole block comes to. -/
def decode : HeaderTable σ → List (Instr σ) → Option (HeaderTable σ × List (HeaderField σ))
  | t, [] => some (t, [])
  | t, x :: xs => (step static limit t x).bind fun r =>
      (decode r.1 xs).map fun r' => (r'.1, r.2.toList ++ r'.2)

variable {static limit} {t t' : HeaderTable σ} {x : Instr σ} {xs : List (Instr σ)}
  {o : Option (HeaderField σ)} {f : HeaderField σ} {fs gs : List (HeaderField σ)}

theorem step_indexed_some {i : Nat} (h : step static limit t (.indexed i) = some (t', o)) :
    t' = t ∧ ∃ f, lookup static t i = some f ∧ o = some f := by
  obtain ⟨f, hl, hf⟩ := Option.map_eq_some_iff.mp h
  cases hf
  exact ⟨rfl, f, hl, rfl⟩

theorem step_literal_some {add : Bool} {name : NameRef σ} {value : σ}
    (h : step static limit t (.literal add name value) = some (t', o)) :
    ∃ s, nameOf static t name = some s ∧ t' = (if add then t.push ⟨s, value⟩ else t) ∧
      o = some ⟨s, value⟩ := by
  obtain ⟨s, hs, hf⟩ := Option.map_eq_some_iff.mp h
  cases hf
  exact ⟨s, hs, rfl, rfl⟩

theorem step_resize_some {n : Nat} (h : step static limit t (.resize n) = some (t', o)) :
    n ≤ limit ∧ t' = t.resize n ∧ o = none := by
  simp only [step] at h
  split at h
  next hn =>
    cases h
    exact ⟨hn, rfl, rfl⟩
  next => cases h

theorem decode_cons_some (h : decode static limit t (x :: xs) = some (t', fs)) :
    ∃ t1 o gs, step static limit t x = some (t1, o) ∧ decode static limit t1 xs = some (t', gs) ∧
      fs = o.toList ++ gs := by
  obtain ⟨⟨t1, o⟩, hs, h⟩ := Option.bind_eq_some_iff.mp h
  obtain ⟨⟨t2, gs⟩, hd, he⟩ := Option.map_eq_some_iff.mp h
  cases he
  exact ⟨t1, o, gs, hs, hd, rfl⟩

/-- The fields of a table are those of the table before, and the one an instruction has added. -/
theorem step_mem (h : step static limit t x = some (t', o)) (hf : f ∈ t'.items) :
    f ∈ t.items ∨ ∃ name value, x = .literal true name value ∧
      nameOf static t name = some f.name ∧ value = f.value := by
  cases x with
  | indexed i =>
    obtain ⟨rfl, -⟩ := step_indexed_some h
    exact .inl hf
  | resize n =>
    obtain ⟨-, rfl, -⟩ := step_resize_some h
    exact .inl (WeightedQueue.mem_resize hf)
  | literal add name value =>
    obtain ⟨s, hs, rfl, -⟩ := step_literal_some h
    cases add with
    | false => exact .inl hf
    | true =>
      rcases WeightedQueue.mem_push hf with hf | rfl
      · exact .inl hf
      · exact .inr ⟨name, value, rfl, hs, rfl⟩

theorem lookup_mem {i : Nat} (h : lookup static t i = some f) : f ∈ static ∨ f ∈ t.items := by
  unfold lookup at h
  split at h
  · cases h
  split at h
  · exact .inl (List.mem_of_getElem? h)
  · exact .inr (WeightedQueue.mem_recent h)

/-- A field that was just added has the first index behind the static table. -/
theorem lookup_push (h : f.size ≤ t.cap) : lookup static (t.push f) (static.length + 1) = some f := by
  have hlast : static.length + 1 - static.length - 1 = 0 := by omega
  unfold lookup
  rw [if_neg (Nat.succ_ne_zero _), if_neg (Nat.not_le.mpr (Nat.lt_succ_self _)), hlast,
    WeightedQueue.recent_eq, WeightedQueue.push_items, if_pos h, List.reverse_append]
  rfl

end HeaderDecoder
