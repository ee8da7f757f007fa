import Beeper.BlockMeaning
import Beeper.BlockRead

namespace Beeper.Http2

/-- The value of the match `idx`, once `cs` was captured. -/
def valueAt (rd : Rodata) (conn : Ip4Conn) (entries : DynamicTableMap) (cs : Captures) (idx : Nat) :
    Except Errno Bytes :=
  if maxMatches ≤ idx then .error .EINVAL
  else captureValue rd conn entries (cs (Fin.ofNat maxMatches idx))

/-- What a parse comes to that reads a block of whole representations, `total` bytes long. -/
structure ReadsAs (rd : Rodata) (maps : Maps) (conn : Ip4Conn) (reps : List Rep) (total : Nat)
    (p : Parsed) (value : Nat → Except Errno Bytes) : Prop where
  full : ∀ m, getDynamicTable maps conn = (none, m) →
    p.ret = .error .ENOSPC ∧ SameTables m p.maps ∧
      ∀ idx, value idx = valueAt rd conn p.maps.dynamicTable (fun _ => none) idx
  read : ∀ info m, getDynamicTable maps conn = (some info, m) →
    let r := blockMeaning rd conn reps (m.table info) fun _ => none
    p.ret = .ok total ∧ SameTables (m.setTable conn r.1) p.maps ∧
      ∀ idx, value idx = valueAt rd conn p.maps.dynamicTable r.2 idx

variable {rd : Rodata} {maps : Maps} {block : Bytes} {total : Nat} {v : View} {p : Parsed}

/-- What the matches of a parse are read as. -/
theorem Shows.value (hv : Legible rd v block) {cs : Captures} {pres : HttpParseRes}
    (hp : ∀ i, Shows v block (pres.ms i) (cs i)) (hbuf : maps.blockBuf = v.buf) (idx : Nat) :
    (if maxMatches ≤ idx then .error .EINVAL
      else if ¬isCaptured (pres.get idx) then .error .ENOENT
      else getStr rd v.ctx maps (pres.get idx)) =
      valueAt rd v.ctx.conn maps.dynamicTable cs idx := by
  unfold valueAt getStr
  rw [hbuf]
  split
  · rfl
  · exact (hp (Fin.ofNat maxMatches idx)).read hv maps.dynamicTable

theorem BlockRead.readsAs {value : Nat → Except Errno Bytes} (h : BlockRead rd maps block total v p)
    (hrd : ReadsReps rd) (hv : Legible rd v block) {reps : List Rep}
    (hw : BlockWire readLen reps block)
    (hvalue : ∀ idx, value idx = if maxMatches ≤ idx then .error .EINVAL
      else if ¬isCaptured (p.pres.get idx) then .error .ENOENT
      else getStr rd v.ctx p.maps (p.pres.get idx)) :
    ReadsAs rd maps v.ctx.conn reps total p value := by
  refine ⟨fun m hg => ?_, fun info m hg => ?_⟩
  · obtain ⟨hret, hmaps, hpres⟩ := h.full m hg
    have hzero : ∀ i, Shows v block (p.pres.ms i) none := by
      intro i
      rw [hpres]
      exact .unset
    refine ⟨hret, hmaps, fun idx => ?_⟩
    rw [hvalue, ← Shows.value hv hzero h.buf idx]
  · obtain ⟨hret, hmaps, hpres⟩ := h.walk info m hg
    obtain ⟨hnone, htable, hshow⟩ := feed_block hrd hv hw (m.table info)
    rw [hnone] at hret
    rw [htable] at hmaps
    refine ⟨hret, hmaps, fun idx => ?_⟩
    rw [hvalue, ← Shows.value hv (hpres ▸ hshow) h.buf idx]

/-- Parses of the same representations come to the same, whatever they are read out of. -/
theorem ReadsAs.same {conn : Ip4Conn} {reps : List Rep} {p' : Parsed}
    {value value' : Nat → Except Errno Bytes} (h : ReadsAs rd maps conn reps total p value)
    (h' : ReadsAs rd maps conn reps total p' value') :
    p'.ret = p.ret ∧ SameTables p.maps p'.maps ∧ ∀ idx, value' idx = value idx := by
  cases hg : getDynamicTable maps conn with
  | mk info m =>
    cases info with
    | none =>
      obtain ⟨hret, hmaps, hvalue⟩ := h.full m hg
      obtain ⟨hret', hmaps', hvalue'⟩ := h'.full m hg
      have hsame := hmaps.symm.trans hmaps'
      refine ⟨hret'.trans hret.symm, hsame, fun idx => ?_⟩
      rw [hvalue, hvalue', hsame.entries]
    | some info =>
      obtain ⟨hret, hmaps, hvalue⟩ := h.read info m hg
      obtain ⟨hret', hmaps', hvalue'⟩ := h'.read info m hg
      have hsame := hmaps.symm.trans hmaps'
      refine ⟨hret'.trans hret.symm, hsame, fun idx => ?_⟩
      rw [hvalue, hvalue', hsame.entries]

end Beeper.Http2
