import Mathlib.Data.List.Basic
import Mathlib.Logic.Function.Basic

/-!
# Strings in memory

`CString nul m adr l`: the bytes at `adr` in the memory `m` are those of `l`,
followed by the terminator `nul`, which is not in `l`. The string at an address is
unique, and it only depends on its own bytes.
-/

namespace Lib

variable {B : Type*} {nul c : B} {m m' : Nat → B} {adr : Nat} {l l' : List B}

/-- The string `l` is stored at `adr`. -/
structure CString (nul : B) (m : Nat → B) (adr : Nat) (l : List B) : Prop where
  byte : ∀ i (h : i < l.length), m (adr + i) = l[i]
  notMem : nul ∉ l
  terminator : m (adr + l.length) = nul

namespace CString

theorem nil (h : m adr = nul) : CString nul m adr [] := ⟨nofun, List.not_mem_nil, h⟩

theorem nil_iff : CString nul m adr [] ↔ m adr = nul := ⟨fun h => h.terminator, nil⟩

theorem cons_iff :
    CString nul m adr (c :: l) ↔ m adr = c ∧ c ≠ nul ∧ CString nul m (adr + 1) l := by
  constructor
  · intro h
    refine ⟨h.byte 0 (by simp), fun hc => h.notMem (hc ▸ List.mem_cons_self), ?_, ?_, ?_⟩
    · intro i hi
      have hb := h.byte (i + 1) (by simpa using hi)
      rw [Nat.add_assoc, Nat.add_comm 1]
      exact hb
    · exact fun hm => h.notMem (List.mem_cons_of_mem _ hm)
    · have ht := h.terminator
      rw [Nat.add_assoc, Nat.add_comm 1]
      exact ht
  · rintro ⟨h0, hne, h⟩
    refine ⟨?_, ?_, ?_⟩
    · intro i hi
      cases i with
      | zero => exact h0
      | succ i =>
        have hb := h.byte i (by simpa using hi)
        rw [Nat.add_assoc, Nat.add_comm 1] at hb
        exact hb
    · exact fun hm => (List.mem_cons.mp hm).elim (fun hc => hne hc.symm) h.notMem
    · have ht := h.terminator
      rw [Nat.add_assoc, Nat.add_comm 1] at ht
      exact ht

/-- The string at an address is unique. -/
theorem unique (h : CString nul m adr l) (h' : CString nul m adr l') : l = l' := by
  induction l generalizing adr l' with
  | nil =>
    cases l' with
    | nil => rfl
    | cons c l' =>
      obtain ⟨hc, hne, -⟩ := cons_iff.mp h'
      exact absurd (hc.symm.trans (nil_iff.mp h)) hne
  | cons c l ih =>
    obtain ⟨hc, hne, hl⟩ := cons_iff.mp h
    cases l' with
    | nil => exact absurd (hc.symm.trans (nil_iff.mp h')) hne
    | cons c' l' =>
      obtain ⟨hc', -, hl'⟩ := cons_iff.mp h'
      rw [← hc, ← hc', ih hl hl']

/-- The string only depends on its own bytes. -/
theorem congr (h : CString nul m adr l) (hm : ∀ i ≤ l.length, m' (adr + i) = m (adr + i)) :
    CString nul m' adr l where
  byte i hi := (hm i (Nat.le_of_lt hi)).trans (h.byte i hi)
  notMem := h.notMem
  terminator := (hm _ (Nat.le_refl _)).trans h.terminator

end CString

end Lib
