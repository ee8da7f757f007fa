import Mathlib.Data.List.Nodup
import Mathlib.Data.Nat.ModEq

universe u

namespace RingStore

variable {α : Type u}

/-- A store whose keys count modulo `w` holds `items`, the first one under the key `base`, each
of the others under the next key, and nothing else. -/
def Holds (w : Nat) (store : Nat → Option α) (base : Nat) (items : List α) : Prop :=
  ∀ k x, store k = some x ↔ ∃ j, k = (base + j) % w ∧ items[j]? = some x

variable {w base : Nat} {store : Nat → Option α} {items : List α}

theorem key_inj {j j' : Nat} (hj : j < w) (hj' : j' < w)
    (h : (base + j) % w = (base + j') % w) : j = j' := by
  have hm : j ≡ j' [MOD w] := Nat.ModEq.add_left_cancel' base h
  rw [← Nat.mod_eq_of_lt hj, ← Nat.mod_eq_of_lt hj']
  exact hm

theorem Holds.congr {base' : Nat} (h : Holds w store base items) (hb : base % w = base' % w) :
    Holds w store base' items := by
  intro k x
  rw [h k x]
  have hk : ∀ j, (base + j) % w = (base' + j) % w := fun j =>
    Nat.ModEq.add_right j hb
  simp only [hk]

theorem Holds.lookup {j : Nat} {x : α} (h : Holds w store base items)
    (hj : items[j]? = some x) : store ((base + j) % w) = some x :=
  (h _ _).mpr ⟨j, rfl, hj⟩

theorem Holds.lookup_eq {j : Nat} (h : Holds w store base items) (hj : j < items.length) :
    store ((base + j) % w) = items[j]? := by
  rw [List.getElem?_eq_getElem hj]
  exact h.lookup (List.getElem?_eq_getElem hj)

theorem Holds.absent {k : Nat} (h : Holds w store base items)
    (hk : ∀ j < items.length, k ≠ (base + j) % w) : store k = none := by
  cases hs : store k with
  | none => rfl
  | some x =>
    obtain ⟨j, hj, hx⟩ := (h k x).mp hs
    exact absurd hj (hk j (List.getElem?_eq_some_iff.mp hx).1)

theorem Holds.isSome_iff {k : Nat} (h : Holds w store base items) :
    (store k).isSome ↔ ∃ j < items.length, k = (base + j) % w := by
  constructor
  · intro hs
    obtain ⟨x, hx⟩ := Option.isSome_iff_exists.mp hs
    obtain ⟨j, hj, hi⟩ := (h k x).mp hx
    exact ⟨j, (List.getElem?_eq_some_iff.mp hi).1, hj⟩
  · rintro ⟨j, hj, rfl⟩
    rw [h.lookup_eq hj, List.getElem?_eq_getElem hj]
    rfl

/-- Keys that do not wrap around are a plain interval. -/
theorem Holds.isSome_iff_of_le {k : Nat} (h : Holds w store base items)
    (hw : base + items.length ≤ w) :
    (store k).isSome ↔ base ≤ k ∧ k < base + items.length := by
  rw [h.isSome_iff]
  constructor
  · rintro ⟨j, hj, rfl⟩
    rw [Nat.mod_eq_of_lt (by omega)]
    omega
  · rintro ⟨hb, hk⟩
    exact ⟨k - base, by omega, by rw [Nat.mod_eq_of_lt (by omega)]; omega⟩

theorem holds_nil (h : ∀ k, store k = none) : Holds w store base [] := by
  intro k x
  simp [h k]

theorem Holds.ext {store' : Nat → Option α} (h : Holds w store base items)
    (he : ∀ k, store' k = store k) : Holds w store' base items := by
  intro k x
  rw [he k]
  exact h k x

/-- Dropping the first item. -/
theorem Holds.pop {x : α} (h : Holds w store base (x :: items)) (store' : Nat → Option α)
    (hw : items.length < w) (he : ∀ k, store' k = if k = base % w then none else store k) :
    Holds w store' (base + 1) items := by
  intro k y
  rw [he k]
  have hne : ∀ j, items[j]? = some y → (base + 1 + j) % w ≠ base % w := by
    intro j hj hk
    have hlt := (List.getElem?_eq_some_iff.mp hj).1
    rw [show base + 1 + j = base + (j + 1) by omega] at hk
    have h0 : j + 1 = 0 := key_inj (by omega) (by omega) hk
    omega
  constructor
  · intro hs
    split at hs
    next => simp at hs
    next hk =>
      obtain ⟨j, hj, hi⟩ := (h k y).mp hs
      cases j with
      | zero => exact absurd hj hk
      | succ j => exact ⟨j, by rw [hj]; congr 1; omega, hi⟩
  · rintro ⟨j, rfl, hi⟩
    rw [if_neg (hne j hi)]
    exact (h _ y).mpr ⟨j + 1, by congr 1; omega, hi⟩

/-- Appending an item under the key behind the last one. -/
theorem Holds.push {x : α} (h : Holds w store base items) (hw : items.length < w)
    {store' : Nat → Option α}
    (he : ∀ k, store' k = if k = (base + items.length) % w then some x else store k) :
    Holds w store' base (items ++ [x]) := by
  intro k y
  rw [he k]
  constructor
  · intro hs
    split at hs
    next hk => exact ⟨items.length, hk, by simpa using hs⟩
    next hk =>
      obtain ⟨j, hj, hi⟩ := (h k y).mp hs
      have hlt := (List.getElem?_eq_some_iff.mp hi).1
      exact ⟨j, hj, by rw [List.getElem?_append_left hlt]; exact hi⟩
  · rintro ⟨j, rfl, hi⟩
    have hlt := (List.getElem?_eq_some_iff.mp hi).1
    simp only [List.length_append, List.length_singleton] at hlt
    by_cases hj : j = items.length
    · subst j
      simpa using hi
    · have hjl : j < items.length := by omega
      rw [List.getElem?_append_left hjl] at hi
      rw [if_neg fun hk => hj (key_inj (by omega) hw hk)]
      exact h.lookup hi

/-- A ring of no more than `w` items holds each under a key of its own. -/
theorem keys_nodup (base : Nat) {n : Nat} (hn : n ≤ w) :
    ((List.range n).map fun j => (base + j) % w).Nodup := by
  apply List.Nodup.map_on _ List.nodup_range
  intro j hj j' hj' h
  exact key_inj (by have := List.mem_range.mp hj; omega) (by have := List.mem_range.mp hj'; omega) h

end RingStore
