import Mathlib.Algebra.BigOperators.Group.Finset.Basic
import Mathlib.Algebra.Order.Group.Multiset
import Mathlib.Data.Multiset.Filter
import Mathlib.Logic.Function.Basic
import Mathlib.Tactic.Abel

/-!
# Ledgers of allocated blocks

A heap maps the address of each allocated block to its length. `Ledger heap owned`
says that the blocks of the heap are exactly those of the multiset `owned`, each
owned once: nothing is leaked and nothing is shared. Allocation adds a block to
both, freeing takes one from both, and a change of owner leaves the sum alone.
-/

namespace Lib

variable {A N : Type*} {heap : A → Option N} {owned owned' : Multiset (A × N)} {a : A} {n : N}

/-- The allocated blocks are exactly the owned ones, each owned once. -/
structure Ledger (heap : A → Option N) (owned : Multiset (A × N)) : Prop where
  unique : (owned.map Prod.fst).Nodup
  exact : ∀ a n, heap a = some n ↔ (a, n) ∈ owned

namespace Ledger

theorem empty : Ledger (fun _ : A => (none : Option N)) 0 :=
  ⟨Multiset.nodup_zero, fun _ _ => ⟨nofun, fun h => absurd h (Multiset.notMem_zero _)⟩⟩

/-- An address that owns a block is allocated. -/
theorem ne_none (h : Ledger heap owned) (ha : a ∈ owned.map Prod.fst) : heap a ≠ none := by
  obtain ⟨⟨b, n⟩, hb, rfl⟩ := Multiset.mem_map.mp ha
  rw [(h.exact b n).mpr hb]
  exact Option.some_ne_none n

variable [DecidableEq A]

theorem alloc (h : Ledger heap owned) (ha : heap a = none) :
    Ledger (Function.update heap a (some n)) ((a, n) ::ₘ owned) where
  unique := by
    rw [Multiset.map_cons, Multiset.nodup_cons]
    exact ⟨fun hm => h.ne_none hm ha, h.unique⟩
  exact b m := by
    rw [Function.update_apply, Multiset.mem_cons]
    split
    · next hb =>
      subst hb
      have hsans : (b, m) ∉ owned := fun hm => by
        have := (h.exact b m).mpr hm
        rw [ha] at this
        cases this
      rw [or_iff_left hsans, Option.some.injEq, Prod.mk.injEq, eq_comm]
      exact (and_iff_right rfl).symm
    · next hb =>
      rw [h.exact, or_iff_right fun he => hb (Prod.mk.inj he).1]

theorem free (h : Ledger heap ((a, n) ::ₘ owned)) : Ledger (Function.update heap a none) owned := by
  have hu := h.unique
  rw [Multiset.map_cons, Multiset.nodup_cons] at hu
  refine ⟨hu.2, fun b m => ?_⟩
  rw [Function.update_apply]
  split
  · next hb =>
    subst hb
    refine ⟨nofun, fun hm => ?_⟩
    exact absurd (Multiset.mem_map_of_mem Prod.fst hm) hu.1
  · next hb =>
    rw [h.exact, Multiset.mem_cons, or_iff_right fun he => hb (Prod.mk.inj he).1]

end Ledger

/-- A sum in which one term changes. -/
theorem sum_update {I M : Type*} [AddCommMonoid M] {s : Finset I} {f g : I → M} {i : I}
    (hi : i ∈ s) (h : ∀ j, j ≠ i → f j = g j) : ∑ j ∈ s, f j + g i = ∑ j ∈ s, g j + f i := by
  classical
  rw [← Finset.add_sum_erase s f hi, ← Finset.add_sum_erase s g hi,
    Finset.sum_congr rfl fun j hj => h j (Finset.ne_of_mem_erase hj)]
  abel

end Lib
