import Beeper.Http1Requests

namespace Beeper.Http1

variable {items : List (Item × MatchId)} {l : Label} {n bytes : Bytes} {c : UInt8} {i k o off : Nat}
  {rd : Rodata} {it : Item} {x : Label × Nat}

/-- What is reported of an item once its message stands behind `k` other bytes. The captures of the
method and of the preface have no start of their own. -/
def Item.behind (it : Item) (k : Nat) (r : HttpMatch) : HttpMatch :=
  if r.len = 0 then r
  else match it with
  | .method | .preface => { r with len := r.len + UInt16.ofNat k }
  | _ => { r with idx := r.idx + UInt16.ofNat k }

/-- The range lies within the first `size` bytes. -/
def Within (r : HttpMatch) (size : Nat) : Prop := r.idx.toNat + r.len.toNat ≤ size

theorem rangeTo_add (s i k : Nat) : rangeTo (s + k) (i + k) =
    { rangeTo s i with idx := (rangeTo s i).idx + UInt16.ofNat k } := by
  have hsub : u32Sub (i + k) (s + k) = u32Sub i s := by
    unfold u32Sub
    split <;> split <;> omega
  rw [rangeTo, rangeTo, hsub, UInt16.ofNat_add]

theorem rangeTo_zero_add (i k : Nat) : rangeTo 0 (i + k) =
    { rangeTo 0 i with len := (rangeTo 0 i).len + UInt16.ofNat k } := by
  have hsub : u32Sub (i + k) 0 + 1 = u32Sub i 0 + 1 + k := by
    rw [u32Sub_of_le (Nat.zero_le _), u32Sub_of_le (Nat.zero_le _)]
    omega
  rw [rangeTo, rangeTo, hsub, UInt16.ofNat_add]

theorem rangeTo_within {s size : Nat} (hs : s ≤ i) (hi : i < size) (hsize : size < 2 ^ 16) :
    (rangeTo s i).len ≠ 0 ∧ Within (rangeTo s i) size := by
  obtain ⟨hidx, hlen⟩ := @rangeTo_reports s i hs (by omega)
  refine ⟨fun hz => ?_, ?_⟩
  · rw [hz] at hlen
    have h0 : (0 : UInt16).toNat = 0 := rfl
    omega
  · unfold Within
    omega

theorem zero_behind : it.behind k .zero = .zero := if_pos rfl

theorem zero_within (size : Nat) : Within .zero size := Nat.zero_le size

theorem behind_method (h : (rangeTo 0 i).len ≠ 0) (hit : it = .method ∨ it = .preface) :
    it.behind k (rangeTo 0 i) = rangeTo 0 (i + k) := by
  unfold Item.behind
  rw [if_neg h, rangeTo_zero_add]
  rcases hit with rfl | rfl <;> rfl

theorem behind_other {s : Nat} (h : (rangeTo s i).len ≠ 0) (hm : it ≠ .method) (hp : it ≠ .preface) :
    it.behind k (rangeTo s i) = rangeTo (s + k) (i + k) := by
  unfold Item.behind
  rw [if_neg h, rangeTo_add]
  cases it with
  | method => exact absurd rfl hm
  | preface => exact absurd rfl hp
  | _ => rfl

/-- The labels in which the capture of a field has been opened. -/
def Label.Opened (n : Bytes) (l : Label) : Prop := l = .colon n ∨ l = .value n

/-- Every edge to one of them leaves one of them, or opens the capture. -/
theorem opened_goto (h : (l.goto i).Opened n) (ho : ¬(Item.header n).opens (l, i)) : l.Opened n := by
  rw [header_opens_iff] at ho
  unfold Label.Opened at h ⊢
  cases l with
  | name t =>
    simp only [Label.goto] at h
    repeat' split at h
    all_goals simp at h
    next hi =>
      obtain ⟨rfl, -⟩ := hi
      subst h
      exact absurd (.inl rfl) ho
  | colon t =>
    simp only [Label.goto] at h
    repeat' split at h
    all_goals simp at h
    all_goals exact .inl (congrArg Label.colon h)
  | value t =>
    simp only [Label.goto] at h
    repeat' split at h
    all_goals simp at h
    exact .inr (congrArg Label.value h)
  | _ =>
    simp only [Label.goto] at h
    repeat' split at h
    all_goals simp at h

theorem opened_readLabel (h : (readLabel items l c.toNat).Opened n)
    (ho : ∀ x, edgeOf items l c.toNat = some x → ¬(Item.header n).opens x) : l.Opened n := by
  unfold readLabel at h
  split at h
  next x hx =>
    have hx1 := opened_goto h (ho x hx)
    rcases edgeOf_fst hx with heq | heq
    · rwa [heq] at hx1
    · rw [heq] at hx1
      rcases hx1 with hno | hno <;> cases hno
  next => rcases h with hno | hno <;> cases hno

theorem opened_of_closes (hx : edgeOf items l c.toNat = some x) (hc : (Item.header n).closes x) :
    l.Opened n := by
  have hfst := edgeOf_fst hx
  rcases header_closes_iff.mp hc with rfl | rfl
  · rcases hfst with heq | heq
    · exact .inl heq.symm
    · cases heq
  · rcases hfst with heq | heq
    · exact .inr heq.symm
    · cases heq

/-- Two walks over the same bytes, the second of which numbers them `k` higher. -/
structure InStep (n : Bytes) (k i : Nat) (v v' : View) : Prop where
  label : v'.label = v.label
  start : v.label.Opened n → v.start ≤ i ∧ v'.start = v.start + k
  range : v.range = .zero ∧ v'.range = .zero ∨
    ∃ s e, s ≤ e ∧ e < i ∧ v.range = rangeTo s e ∧ v'.range = rangeTo (s + k) (e + k)

theorem InStep.step {v v' : View} (h : InStep n k i v v') (c : UInt8) :
    InStep n k (i + 1) (viewStep items (.header n) i c v).1
        (viewStep items (.header n) (i + k) c v').1 ∧
      (viewStep items (.header n) (i + k) c v').2 = (viewStep items (.header n) i c v).2 := by
  obtain ⟨l0, s0, r⟩ := v
  obtain ⟨l, s0', r'⟩ := v'
  obtain ⟨hlabel, hstart, hrange⟩ := h
  simp only at hlabel hstart hrange
  subst hlabel
  refine ⟨⟨rfl, fun hopen => ?_, ?_⟩, rfl⟩
  · simp only [viewStep]
    by_cases ho : ∃ x, edgeOf items l c.toNat = some x ∧ (Item.header n).opens x
    · rw [if_pos ho, if_pos ho]
      exact ⟨Nat.le_refl _, by omega⟩
    · rw [if_neg ho, if_neg ho]
      obtain ⟨hle, heq⟩ := hstart (opened_readLabel hopen fun x hx hox => ho ⟨x, hx, hox⟩)
      exact ⟨Nat.le_succ_of_le hle, heq⟩
  · simp only [viewStep]
    by_cases hc : ∃ x, edgeOf items l c.toNat = some x ∧ (Item.header n).closes x
    · rw [if_pos hc, if_pos hc]
      obtain ⟨x, hx, hcx⟩ := hc
      obtain ⟨hle, heq⟩ := hstart (opened_of_closes hx hcx)
      exact .inr ⟨s0, i, hle, Nat.lt_succ_self i, rfl, by rw [heq]⟩
    · rw [if_neg hc, if_neg hc]
      refine hrange.imp_right ?_
      rintro ⟨s, e, hse, he, hr, hr'⟩
      exact ⟨s, e, hse, Nat.lt_succ_of_lt he, hr, hr'⟩

/-- What is captured of a field further on. -/
theorem header_behind (n bytes : Bytes) (k : Nat) (hlen : bytes.length < 2 ^ 16) :
    let r := (Scan.run (viewStep items (.header n)) 0 bytes .init).2.range
    (Scan.run (viewStep items (.header n)) k bytes .init).2.range = (Item.header n).behind k r ∧
      Within r bytes.length := by
  have hinit : InStep n k 0 .init .init := by
    refine ⟨rfl, fun ho => ?_, .inl ⟨rfl, rfl⟩⟩
    rcases ho with ho | ho <;> cases ho
  have hsim : _ ∧ ∃ j ≤ 0 + bytes.length, InStep n k j
      (Scan.run (viewStep items (.header n)) 0 bytes .init).2
      (Scan.run (viewStep items (.header n)) (0 + k) bytes .init).2 :=
    Scan.run_sim_at k (fun i c v v' hv => hv.step c) hinit
  obtain ⟨-, j, hj, hend⟩ := hsim
  rw [Nat.zero_add] at hj hend
  rcases hend.range with ⟨hz, hz'⟩ | ⟨s, e, hse, he, hr, hr'⟩
  · simp only [hz, hz', zero_behind, zero_within, and_self]
  · obtain ⟨hne, hin⟩ := rangeTo_within hse (show e < bytes.length by omega) hlen
    have hother : (Item.header n).behind k (rangeTo s e) = rangeTo (s + k) (e + k) :=
      behind_other hne (by simp) (by simp)
    simp only [hr, hr', hother, hin, and_self]

theorem methodRange_behind (bytes : Bytes) (k : Nat) (hlen : bytes.length < 2 ^ 16) :
    methodRange k bytes = Item.method.behind k (methodRange 0 bytes) ∧
      Within (methodRange 0 bytes) bytes.length := by
  unfold methodRange
  split
  next m hm =>
    have hpos : 0 < m.length := by
      have hall : ∀ m ∈ methods, 0 < m.length := by decide +kernel
      exact hall m (List.mem_of_find?_eq_some hm)
    have hle : m.length ≤ bytes.length := by
      have hp := List.find?_some hm
      rw [← upper_length bytes]
      exact (of_decide_eq_true hp).length_le
    have hend : k + m.length - 1 = 0 + m.length - 1 + k := by omega
    obtain ⟨hne, hin⟩ := rangeTo_within (Nat.zero_le _)
      (show 0 + m.length - 1 < bytes.length by omega) hlen
    exact ⟨by rw [behind_method hne (.inl rfl), hend], hin⟩
  next => exact ⟨zero_behind.symm, zero_within _⟩

theorem pathRange_behind (bytes : Bytes) (k : Nat) (hlen : bytes.length < 2 ^ 16) :
    pathRange k bytes = Item.path.behind k (pathRange 0 bytes) ∧
      Within (pathRange 0 bytes) bytes.length := by
  unfold pathRange
  split
  next m hm =>
    split
    next c target hdrop =>
      have hsize := congrArg List.length hdrop
      rw [List.length_drop, List.length_cons] at hsize
      have hle := (List.takeWhile_prefix (l := target) fun c => decide (c ≠ 0x20)).length_le
      obtain ⟨hne, hin⟩ := rangeTo_within
        (Nat.le_add_right (0 + m.length + 1) (target.takeWhile fun c => decide (c ≠ 0x20)).length)
        (show _ < bytes.length by omega) hlen
      refine ⟨?_, hin⟩
      rw [behind_other hne (by simp) (by simp)]
      congr 1 <;> omega
    next => exact ⟨zero_behind.symm, zero_within _⟩
  next => exact ⟨zero_behind.symm, zero_within _⟩

theorem statusRange_behind (bytes : Bytes) (k : Nat) (hlen : bytes.length < 2 ^ 16) :
    statusRange k bytes = Item.status.behind k (statusRange 0 bytes) ∧
      Within (statusRange 0 bytes) bytes.length := by
  unfold statusRange
  split
  next h =>
    obtain ⟨hne, hin⟩ := rangeTo_within (show 0 + 9 ≤ 0 + 11 by decide)
      (show 0 + 11 < bytes.length by omega) hlen
    refine ⟨?_, hin⟩
    rw [behind_other hne (by simp) (by simp)]
    congr 1 <;> omega
  next => exact ⟨zero_behind.symm, zero_within _⟩

theorem prefaceRange_behind (bytes : Bytes) (k : Nat) (hlen : bytes.length < 2 ^ 16) :
    prefaceRange items k bytes = Item.preface.behind k (prefaceRange items 0 bytes) ∧
      Within (prefaceRange items 0 bytes) bytes.length := by
  unfold prefaceRange
  split
  next h =>
    have hle : 24 ≤ bytes.length := by
      rcases h with h | ⟨-, h⟩
      · exact http2Preface_length ▸ h.length_le
      · exact lowerPreface_length ▸ h.length_le
    obtain ⟨hne, hin⟩ := rangeTo_within (Nat.zero_le (0 + 23))
      (show 0 + 23 < bytes.length by omega) hlen
    have hend : k + 23 = 0 + 23 + k := by omega
    exact ⟨by rw [behind_method hne (.inr rfl), hend], hin⟩
  next => exact ⟨zero_behind.symm, zero_within _⟩

/-- What is captured of the start line, whatever else is captured. -/
noncomputable def Item.startRange (items : List (Item × MatchId)) (it : Item) (o : Nat)
    (bytes : Bytes) : Option HttpMatch :=
  match it with
  | .header _ => none
  | .method => some (methodRange o bytes)
  | .path => some (pathRange o bytes)
  | .status => some (statusRange o bytes)
  | .preface => some (prefaceRange items o bytes)

theorem startRange_run {r : HttpMatch} (hc : Captures items it)
    (h : it.startRange items o bytes = some r) :
    (Scan.run (viewStep items it) o bytes .init).2.range = r := by
  cases it with
  | header n => cases h
  | method => exact Option.some.inj h ▸ method_run (.inl hc) o bytes
  | path => exact Option.some.inj h ▸ path_run (.inr hc) o bytes
  | status => exact Option.some.inj h ▸ status_run hc o bytes
  | preface => exact Option.some.inj h ▸ preface_run hc o bytes

/-- What is captured of an item further on. -/
theorem item_behind (hc : Captures items it) (bytes : Bytes) (k : Nat)
    (hlen : bytes.length < 2 ^ 16) : let r := (Scan.run (viewStep items it) 0 bytes .init).2.range
    (Scan.run (viewStep items it) k bytes .init).2.range = it.behind k r ∧
      Within r bytes.length := by
  cases it with
  | header n => exact header_behind n bytes k hlen
  | method =>
    rw [method_run (.inl hc), method_run (.inl hc)]
    exact methodRange_behind bytes k hlen
  | path =>
    rw [path_run (.inr hc), path_run (.inr hc)]
    exact pathRange_behind bytes k hlen
  | status =>
    rw [status_run hc, status_run hc]
    exact statusRange_behind bytes k hlen
  | preface =>
    rw [preface_run hc, preface_run hc]
    exact prefaceRange_behind bytes k hlen

/-- Where a walk ends does not depend on where it starts. -/
theorem Attached.walk_behind (h : Attached items rd) (bytes : Bytes) (k : Nat) :
    (walk rd k bytes (.start .zero)).1 = (walk rd 0 bytes (.start .zero)).1.map (· + k) := by
  obtain ⟨num, hl⟩ := h.loaded
  have hstart : num (.start []) = some sInit := (hl.sees_start 0).state
  have hsim : ∀ k, (walk rd (0 + k) bytes (.start .zero)).1 =
      (Scan.run (labelStep items) 0 bytes (.start [])).1.map (· + k) := fun k =>
    (Scan.run_sim_at (R := fun _ l w => num l = some (Walk.s w)) k
      (fun i c l w hs => ⟨(hl.follow hs c.toNat).1, hl.done hs c⟩) hstart).1
  have h0 := hsim 0
  have hk := hsim k
  simp only [Nat.add_zero, Option.map_id'] at h0
  rw [Nat.zero_add] at hk
  rw [hk, h0]

/-- Where no byte is skipped, the loop is the one without a prefix. -/
theorem parseLoop_unskipped {data : Bytes} {np : Option Nat}
    (h : ∀ j, o ≤ j → data[j]? = some 0 → np ≠ some j) (rounds : Nat) (w : Walk) :
    parseLoop rd data rounds o w np = ((parseLoop rd data rounds o w none).1,
      (parseLoop rd data rounds o w none).2.1, np) := by
  induction rounds generalizing o w with
  | zero => rfl
  | succ rounds ih =>
    unfold parseLoop
    cases hd : data[o]? with
    | none => rfl
    | some c =>
      have hskip : ¬(c = 0 ∧ np = some o) := by
        rintro ⟨rfl, hnp⟩
        exact h o (Nat.le_refl o) hd hnp
      have hnone : ¬(c = 0 ∧ (none : Option Nat) = some o) := by simp
      simp only [if_neg hskip, if_neg hnone]
      split
      · rfl
      · exact ih (fun j hj => h j (Nat.le_of_succ_le hj)) _

/-- The loop passes over the bytes of a prefix. -/
theorem parseLoop_nulls {data : Bytes} {j : Nat} (hj : j ≤ k) (h : ∀ i < k, data[i]? = some 0)
    (rounds : Nat) (w : Walk) : parseLoop rd data (rounds + (k - j)) j w (some j) =
      parseLoop rd data rounds k w (some k) := by
  induction hd : k - j generalizing j with
  | zero =>
    obtain rfl : j = k := by omega
    rfl
  | succ d ih =>
    rw [← Nat.add_assoc, parseLoop, h j (by omega)]
    simp only [and_self, if_true]
    exact ih (by omega) (by omega)

variable {skb skb0 : SkBuff}

theorem parseSkb_nothing (hp : off < maxBytes) (h : skb.bytes.length = off) (np : Option Nat) :
    parseSkb rd skb off .zero np = ⟨.error .EAGAIN, .zero, np, skb⟩ := by
  unfold parseSkb
  simp only [if_neg (Nat.not_le.mpr hp), h, Nat.lt_irrefl, if_false, if_true]

/-- A message that stands behind other bytes is parsed as it is on its own. -/
theorem parseSkb_behind (h : Attached items rd) (hp : skb.pullable) (hp0 : skb0.pullable) (p : Bytes)
    (hb : skb.bytes = p ++ skb0.bytes) (hlen : skb.bytes.length < maxBytes) :
    (parseSkb rd skb p.length .zero none).ret = (parseSkb rd skb0 0 .zero none).ret ∧
      ∀ it m, (it, m) ∈ items → (parseSkb rd skb p.length .zero none).pres.get m =
          it.behind p.length ((parseSkb rd skb0 0 .zero none).pres.get m) ∧
        Within ((parseSkb rd skb0 0 .zero none).pres.get m) skb0.bytes.length := by
  have hsum : skb.bytes.length = p.length + skb0.bytes.length := by rw [hb, List.length_append]
  have hmax : maxBytes < 2 ^ 16 := by decide
  by_cases hnil : skb0.bytes.length = 0
  · rw [parseSkb_nothing (by omega) (show skb.bytes.length = p.length by omega),
      parseSkb_nothing (by decide) hnil]
    exact ⟨rfl, fun it m _ => ⟨zero_behind.symm, zero_within _⟩⟩
  have htake : (skb.bytes.take (maxBytes + 1)).drop p.length = skb0.bytes := by
    rw [List.take_of_length_le (by omega), hb, List.drop_left]
  have htake0 : (skb0.bytes.take (maxBytes + 1)).drop 0 = skb0.bytes := by
    rw [List.take_of_length_le (by omega), List.drop_zero]
  obtain ⟨hret, hpres⟩ := parseSkb_eq rd .zero hp (show p.length < maxBytes by omega) (by omega)
  obtain ⟨hret0, hpres0⟩ := parseSkb_eq rd .zero hp0 (show 0 < maxBytes by decide) (by omega)
  rw [htake] at hret hpres
  rw [htake0] at hret0 hpres0
  refine ⟨?_, fun it m hm => ?_⟩
  · rw [hret, hret0, h.walk_behind]
    have hagain : ¬maxBytes ≤ skb.bytes.length ∧ ¬maxBytes ≤ skb0.bytes.length := by omega
    cases (walk rd 0 skb0.bytes (.start .zero)).1 with
    | none => simp only [skbRet, Option.map_none, if_neg hagain.1, if_neg hagain.2]
    | some n => simp only [skbRet, Option.map_some, Nat.add_sub_cancel, Nat.sub_zero]
  · rw [hpres, hpres0, (h.walk_view hm _ _).2, (h.walk_view hm 0 _).2]
    exact item_behind ⟨m, hm⟩ skb0.bytes p.length (by omega)

/-- A TLS header that was zeroed out is passed over like other bytes in front of the message. -/
theorem parseSkb_nullPrefix (rd : Rodata) (hp : skb.pullable) {m : Bytes}
    (hb : skb.bytes = List.replicate k 0 ++ m) (hm : ∀ c ∈ m.head?, c ≠ 0)
    (hlen : skb.bytes.length < maxBytes) :
    (parseSkb rd skb 0 .zero (some 0)).ret = (parseSkb rd skb k .zero none).ret.map (· + k) ∧
      (parseSkb rd skb 0 .zero (some 0)).pres = (parseSkb rd skb k .zero none).pres ∧
      (parseSkb rd skb 0 .zero (some 0)).nullPrefix = some k := by
  have hsum : skb.bytes.length = k + m.length := by
    rw [hb, List.length_append, List.length_replicate]
  have hnull : ∀ i < k, skb.bytes[i]? = some 0 := by
    intro i hi
    rw [hb, List.getElem?_append_left (by rwa [List.length_replicate]), List.getElem?_replicate,
      if_pos hi]
  have hstop : ∀ j, k ≤ j → skb.bytes[j]? = some 0 → some k ≠ some j := by
    rintro j hj hd heq
    cases heq
    rw [hb, List.getElem?_append_right (by rw [List.length_replicate]), List.length_replicate,
      Nat.sub_self] at hd
    refine hm 0 ?_ rfl
    rw [List.head?_eq_getElem?]
    exact hd
  by_cases hz : skb.bytes.length = 0
  · have hk : k = 0 := by omega
    subst hk
    rw [parseSkb_nothing (by decide) hz, parseSkb_nothing (by decide) hz]
    exact ⟨rfl, rfl, rfl⟩
  have hrounds : min skb.bytes.length maxBytes + 1 - 0 = m.length + 1 + (k - 0) := by omega
  have hskip : parseLoop rd skb.bytes (min skb.bytes.length maxBytes + 1 - 0) 0 (.start .zero)
      (some 0) = ((parseLoop rd skb.bytes (m.length + 1) k (.start .zero) none).1,
        (parseLoop rd skb.bytes (m.length + 1) k (.start .zero) none).2.1, some k) := by
    rw [hrounds, parseLoop_nulls (Nat.zero_le k) hnull, parseLoop_unskipped hstop]
  have hwalk := parseLoop_eq_walk rd skb.bytes (m.length + 1) k (.start .zero)
  have hpos : ∀ n, (parseLoop rd skb.bytes (m.length + 1) k (.start .zero) none).1 = some n → k < n := by
    intro n hn
    rw [hwalk] at hn
    exact (Scan.run_bounds hn).1
  obtain ⟨hret, hpres, hnp⟩ := parseSkb_loop rd .zero hp (show 0 < maxBytes by decide) (by omega)
    fun n hn => by
      rw [hskip] at hn
      exact Nat.zero_lt_of_lt (hpos n hn)
  rw [hskip] at hret hpres hnp
  rw [hret, hpres, hnp]
  by_cases hnil : m.length = 0
  · rw [parseSkb_nothing (by omega) (show skb.bytes.length = k by omega), hwalk, slice,
      List.drop_eq_nil_of_le (by omega)]
    have hagain : ¬maxBytes ≤ skb.bytes.length := by omega
    refine ⟨?_, rfl, rfl⟩
    show (Except.error (if maxBytes ≤ skb.bytes.length then Errno.E2BIG else .EAGAIN) : Except Errno Nat) = _
    rw [if_neg hagain]
    rfl
  · have hrest : min skb.bytes.length maxBytes + 1 - k = m.length + 1 := by omega
    obtain ⟨hret', hpres', -⟩ := parseSkb_loop rd .zero hp (show k < maxBytes by omega) (by omega)
      fun n hn => by
        rw [hrest] at hn
        exact Nat.zero_lt_of_lt (hpos n hn)
    rw [hrest] at hret' hpres'
    rw [hret', hpres']
    refine ⟨?_, rfl, rfl⟩
    cases hloop : (parseLoop rd skb.bytes (m.length + 1) k (.start .zero) none).1 with
    | none => rfl
    | some n =>
      have hn := hpos n hloop
      have hsub : n - 0 = n - k + k := by omega
      simp only [skbRet, Except.map, hsub]

/-- What is reported of the start line depends on its bytes alone, and for the preface on whether
requests are read as well. -/
theorem parse_startRange (h : Attached items rd) {m : MatchId} (hm : (it, m) ∈ items) :
    (∀ msg : SkMsg, msg.pullable → ∀ r ∈ it.startRange items 0 (msg.bytes.take (reach msg)),
      (parseMsg rd msg .zero).pres.get m = r) ∧
    ∀ (skb : SkBuff) (off : Nat), skb.pullable → off < maxBytes → off < skb.bytes.length →
      ∀ r ∈ it.startRange items off ((skb.bytes.take (maxBytes + 1)).drop off),
        (parseSkb rd skb off .zero none).pres.get m = r := by
  constructor
  · intro msg hp r hr
    rw [(parseMsg_eq rd .zero hp).2, (h.walk_view hm 0 _).2]
    exact startRange_run ⟨m, hm⟩ hr
  · intro skb off hp hoff hlt r hr
    rw [(parseSkb_eq rd .zero hp hoff hlt).2, (h.walk_view hm off _).2]
    exact startRange_run ⟨m, hm⟩ hr

theorem parse_startRange_method : ∃ rd, Attached startItems rd ∧
    (∀ msg : SkMsg, msg.pullable →
      ∀ r ∈ Item.method.startRange startItems 0 (msg.bytes.take (reach msg)),
        (parseMsg rd msg .zero).pres.get 0 = r) ∧
    ∀ (skb : SkBuff) (off : Nat), skb.pullable → off < maxBytes → off < skb.bytes.length →
      ∀ r ∈ Item.method.startRange startItems off ((skb.bytes.take (maxBytes + 1)).drop off),
        (parseSkb rd skb off .zero none).pres.get 0 = r := by
  obtain ⟨rd, hrd, -⟩ := attached_start
  exact ⟨rd, hrd, parse_startRange hrd (by decide)⟩

end Beeper.Http1
