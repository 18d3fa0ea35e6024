import Mathlib.Logic.Function.Basic
import Mathlib.Data.List.Nodup

/-!
# Redo logs

A disk is a function from block numbers to contents.  A redo log keeps, in a
header, the numbers of the blocks a transaction writes; the new contents of the
`i`-th of them is in block `slot i`, outside the blocks it logs.  Recovery
copies every slot to its home block.  What recovery would find, `recovered`, is
the abstract contents of the disk: it does not change while home blocks that
are in the header are overwritten, so that recovery may be interrupted and
repeated.

## Main results

* `recovered_home` — a write to a logged home block is invisible.
* `recovered_commit` — writing the header installs the new contents at once.
* `recovered_erase` — after every slot has been copied the header may go.
-/

namespace OsWork.Verified.RedoLog

universe u

variable {B : Type u}

/-! ## Lists of writes -/

/-- The disk after the writes of a list, first to last. -/
def applyWrites (ws : List (Nat × B)) (d : Nat → B) : Nat → B :=
  ws.foldl (fun d w => Function.update d w.1 w.2) d

@[simp] theorem applyWrites_nil (d : Nat → B) : applyWrites [] d = d := rfl

theorem applyWrites_append (ws vs : List (Nat × B)) (d : Nat → B) :
    applyWrites (ws ++ vs) d = applyWrites vs (applyWrites ws d) := by
  simp [applyWrites]

theorem applyWrites_snoc (ws : List (Nat × B)) (b : Nat) (v : B) (d : Nat → B) :
    applyWrites (ws ++ [(b, v)]) d = Function.update (applyWrites ws d) b v := by
  rw [applyWrites_append]
  rfl

/-! ## Recovery -/

/-- The contents recovery finds for a block: that of its slot when the header
names it. -/
def recovered (slot : Nat → Nat) (hdr : List Nat) (d : Nat → B) (b : Nat) : B :=
  if b ∈ hdr then d (slot (hdr.idxOf b)) else d b

section Recovered

variable {slot : Nat → Nat} {hdr : List Nat} {d : Nat → B} {b c : Nat} {v : B}

@[simp] theorem recovered_nil : recovered slot [] d b = d b := by
  simp [recovered]

theorem recovered_of_not_mem (hb : b ∉ hdr) : recovered slot hdr d b = d b := by
  simp [recovered, hb]

/-- The `i`-th block of the header is recovered from slot `i`. -/
theorem recovered_getElem (hnodup : hdr.Nodup) {i : Nat} (hi : i < hdr.length) :
    recovered slot hdr d hdr[i] = d (slot i) := by
  have hmem : hdr[i] ∈ hdr := List.getElem_mem hi
  rw [recovered, if_pos hmem, hnodup.idxOf_getElem i hi]

/-- A write to a block that is named by the header, and is no slot, is invisible. -/
theorem recovered_home (hc : c ∈ hdr) (hslot : ∀ i, i < hdr.length → slot i ≠ c) :
    recovered slot hdr (Function.update d c v) b = recovered slot hdr d b := by
  unfold recovered
  by_cases hb : b ∈ hdr
  · have hne := hslot _ (List.idxOf_lt_length_of_mem hb)
    rw [if_pos hb, if_pos hb, Function.update_of_ne hne]
  · have hne : b ≠ c := by
      intro heq
      rw [heq] at hb
      exact hb hc
    rw [if_neg hb, if_neg hb, Function.update_of_ne hne]

/-- Writing the header installs the new contents `l` at once, when the slots
hold them and the other blocks have them already. -/
theorem recovered_commit {l : Nat → B} (hnodup : hdr.Nodup)
    (hslots : ∀ (i : Nat) (hi : i < hdr.length), d (slot i) = l hdr[i])
    (hrest : b ∉ hdr → d b = l b) : recovered slot hdr d b = l b := by
  by_cases hb : b ∈ hdr
  · obtain ⟨i, hi, rfl⟩ := List.getElem_of_mem hb
    rw [recovered_getElem hnodup hi, hslots i hi]
  · rw [recovered_of_not_mem hb, hrest hb]

/-- Once every slot has been copied to its home block, the header may be erased. -/
theorem recovered_erase (hnodup : hdr.Nodup)
    (hcopied : ∀ (i : Nat) (hi : i < hdr.length), d hdr[i] = d (slot i)) :
    d b = recovered slot hdr d b := by
  by_cases hb : b ∈ hdr
  · obtain ⟨i, hi, rfl⟩ := List.getElem_of_mem hb
    rw [recovered_getElem hnodup hi, hcopied i hi]
  · rw [recovered_of_not_mem hb]

end Recovered

end OsWork.Verified.RedoLog
