import Mathlib.Data.List.AList

universe u v

/-- A finite map that holds at most `cap` keys. -/
structure BoundedMap (K : Type u) (V : Type v) (cap : Nat) where
  entries : AList (fun _ : K => V)
  card_le : entries.keys.length ≤ cap

namespace BoundedMap

variable {K : Type u} {V : Type v} {cap : Nat}

def card (m : BoundedMap K V cap) : Nat := m.entries.keys.length

def empty : BoundedMap K V cap := ⟨∅, by simp⟩

variable [DecidableEq K]

def lookup (m : BoundedMap K V cap) (k : K) : Option V := m.entries.lookup k

theorem keys_insert_length (s : AList (fun _ : K => V)) (k : K) (v : V) :
    (s.insert k v).keys.length = if k ∈ s then s.keys.length else s.keys.length + 1 := by
  rw [AList.keys_insert, List.length_cons]
  split
  next h =>
    have hk := AList.mem_keys.mp h
    have := List.length_pos_of_mem hk
    rw [List.length_erase_of_mem hk]
    omega
  next h => rw [List.erase_of_not_mem (fun hk => h (AList.mem_keys.mpr hk))]

/-- Sets the value of a key, unless that takes a key more than the map holds. -/
def update (m : BoundedMap K V cap) (k : K) (v : V) : Option (BoundedMap K V cap) :=
  if h : k ∈ m.entries ∨ m.card < cap then
    some ⟨m.entries.insert k v, by
      rw [keys_insert_length]
      have := m.card_le
      unfold card at h
      split
      · omega
      · rcases h with h | h
        · contradiction
        · omega⟩
  else none

/-- Sets the value of a key the map holds, and nothing else. -/
def write (m : BoundedMap K V cap) (k : K) (v : V) : BoundedMap K V cap :=
  if h : k ∈ m.entries then ⟨m.entries.insert k v, by
    rw [keys_insert_length, if_pos h]
    exact m.card_le⟩
  else m

def erase (m : BoundedMap K V cap) (k : K) : BoundedMap K V cap :=
  ⟨m.entries.erase k, by
    rw [AList.keys_erase]
    exact Nat.le_trans List.length_erase_le m.card_le⟩

@[simp] theorem lookup_empty (k : K) : (empty : BoundedMap K V cap).lookup k = none :=
  AList.lookup_empty k

theorem lookup_update {m m' : BoundedMap K V cap} {k : K} {v : V} (h : m.update k v = some m')
    (k' : K) : m'.lookup k' = if k' = k then some v else m.lookup k' := by
  unfold update at h
  split at h
  next =>
    cases Option.some.inj h
    split
    next he => subst k'; exact AList.lookup_insert _
    next hne => exact AList.lookup_insert_ne hne
  next => simp at h

theorem update_isSome {m : BoundedMap K V cap} {k : K} {v : V}
    (h : (m.lookup k).isSome ∨ m.card < cap) : ∃ m', m.update k v = some m' := by
  unfold update lookup at *
  rw [AList.lookup_isSome] at h
  exact ⟨_, dif_pos h⟩

theorem update_eq_none {m : BoundedMap K V cap} {k : K} {v : V} (h : m.update k v = none) :
    m.lookup k = none ∧ m.card = cap := by
  unfold update at h
  split at h
  next => simp at h
  next hn =>
    obtain ⟨hk, hc⟩ := not_or.mp hn
    exact ⟨AList.lookup_eq_none.mpr hk, Nat.le_antisymm m.card_le (Nat.not_lt.mp hc)⟩

/-- A key is only added where there is room for it. -/
theorem card_lt_of_update {m m' : BoundedMap K V cap} {k : K} {v : V} (h : m.update k v = some m')
    (hk : m.lookup k = none) : m.card < cap := by
  unfold update at h
  split at h
  next hroom => exact hroom.resolve_left (AList.lookup_eq_none.mp hk)
  next => cases h

theorem card_update_le {m m' : BoundedMap K V cap} {k : K} {v : V} (h : m.update k v = some m') :
    m'.card ≤ m.card + 1 := by
  unfold update at h
  split at h
  next =>
    cases Option.some.inj h
    simp only [card, keys_insert_length]
    split <;> omega
  next => cases h

section Put

variable {m : BoundedMap K V cap} {k k' : K} {v : V}

/-- An update that may fail leaves every key there was. -/
theorem put_kept (h : (m.lookup k').isSome) : (((m.update k v).getD m).lookup k').isSome := by
  cases hu : m.update k v with
  | none => exact h
  | some m' =>
    rw [Option.getD_some, lookup_update hu]
    split
    · rfl
    · exact h

theorem put_sound (h : (((m.update k v).getD m).lookup k').isSome) :
    k' = k ∨ (m.lookup k').isSome := by
  cases hu : m.update k v with
  | none =>
    rw [hu] at h
    exact .inr h
  | some m' =>
    rw [hu, Option.getD_some, lookup_update hu] at h
    split at h
    · exact .inl (by assumption)
    · exact .inr h

theorem put_added (h : m.card < cap) : (((m.update k v).getD m).lookup k).isSome := by
  obtain ⟨m', hu⟩ := update_isSome (m := m) (k := k) (v := v) (.inr h)
  rw [hu, Option.getD_some, lookup_update hu, if_pos rfl]
  rfl

theorem put_card_le : ((m.update k v).getD m).card ≤ m.card + 1 := by
  cases hu : m.update k v with
  | none => exact Nat.le_succ _
  | some m' => exact card_update_le hu

end Put

theorem card_erase_le (m : BoundedMap K V cap) (k : K) : (m.erase k).card ≤ m.card := by
  unfold card erase
  rw [AList.keys_erase]
  exact List.length_erase_le

@[simp] theorem lookup_erase (m : BoundedMap K V cap) (k k' : K) :
    (m.erase k).lookup k' = if k' = k then none else m.lookup k' := by
  split
  next he => subst k'; exact AList.lookup_erase k m.entries
  next hne => exact AList.lookup_erase_ne hne

theorem lookup_write {m : BoundedMap K V cap} {k : K} {v : V} (h : (m.lookup k).isSome) (k' : K) :
    (m.write k v).lookup k' = if k' = k then some v else m.lookup k' := by
  have hk : k ∈ m.entries := AList.lookup_isSome.mp h
  unfold write
  rw [dif_pos hk]
  split
  next he => subst k'; exact AList.lookup_insert _
  next hne => exact AList.lookup_insert_ne hne

theorem lookup_write_ne {m : BoundedMap K V cap} {k k' : K} {v : V} (h : k' ≠ k) :
    (m.write k v).lookup k' = m.lookup k' := by
  unfold write
  split
  next => exact AList.lookup_insert_ne h
  next => rfl

/-- The number of keys with the property `p`. -/
def countKeys (p : K → Bool) (m : BoundedMap K V cap) : Nat := (m.entries.keys.filter p).length

theorem card_eq_countKeys_add (p : K → Bool) (m : BoundedMap K V cap) :
    m.card = m.countKeys p + m.countKeys (fun k => !p k) :=
  List.length_eq_length_filter_add p

theorem mem_keys_iff {m : BoundedMap K V cap} {k : K} :
    k ∈ m.entries.keys ↔ (m.lookup k).isSome := by
  unfold lookup
  rw [AList.lookup_isSome]
  exact AList.mem_keys.symm

/-- Two lists of distinct keys with the same members are equally long. -/
theorem countKeys_eq_length {m : BoundedMap K V cap} {p : K → Bool} {ks : List K} (hn : ks.Nodup)
    (h : ∀ k, k ∈ ks ↔ p k ∧ (m.lookup k).isSome) : m.countKeys p = ks.length := by
  apply List.Perm.length_eq
  rw [List.perm_ext_iff_of_nodup (m.entries.keys_nodup.filter p) hn]
  intro k
  rw [h k, List.mem_filter, mem_keys_iff, and_comm]

theorem countKeys_congr {m m' : BoundedMap K V cap} {p : K → Bool}
    (h : ∀ k, p k → m'.lookup k = m.lookup k) : m'.countKeys p = m.countKeys p := by
  apply countKeys_eq_length (m.entries.keys_nodup.filter p)
  intro k
  rw [List.mem_filter, mem_keys_iff, and_comm]
  constructor
  · rintro ⟨hp, hk⟩
    exact ⟨hp, by rwa [h k hp]⟩
  · rintro ⟨hp, hk⟩
    exact ⟨hp, by rwa [h k hp] at hk⟩

/-- Distinct keys the map holds are no more than it has room for. -/
theorem length_le_card {m : BoundedMap K V cap} {ks : List K} (hn : ks.Nodup)
    (hm : ∀ k ∈ ks, (m.lookup k).isSome) : ks.length ≤ m.card := by
  apply (List.subperm_of_subset hn _).length_le
  intro k hk
  exact AList.mem_keys.mp (AList.lookup_isSome.mp (hm k hk))

/-- A map whose keys are below its capacity has room for all of them. -/
theorem update_below {m : BoundedMap Nat V cap} (hm : ∀ i, (m.lookup i).isSome → i < cap) {k : Nat}
    (hk : k < cap) (v : V) : ∃ m', m.update k v = some m' := by
  apply update_isSome
  by_cases h : (m.lookup k).isSome
  · exact .inl h
  · right
    have hnot : k ∉ m.entries.keys := fun hmem => h (mem_keys_iff.mp hmem)
    have hsub : k :: m.entries.keys ⊆ List.range cap := by
      intro i hi
      rcases List.mem_cons.mp hi with rfl | hi
      · exact List.mem_range.mpr hk
      · exact List.mem_range.mpr (hm i (mem_keys_iff.mp hi))
    have hle := (List.subperm_of_subset (List.nodup_cons.mpr ⟨hnot, m.entries.keys_nodup⟩) hsub).length_le
    rw [List.length_cons, List.length_range] at hle
    exact hle

end BoundedMap
