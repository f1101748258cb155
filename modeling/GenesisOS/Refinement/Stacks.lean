import GenesisOS.Refinement.Primitives
import Mathlib.Data.List.Pairwise

/-!
# GenesisOS — the user stack heap

The blocks of the user stack heap lie apart, guard words included. Freeing one of them
leaves the words of the others as they were, and a block is returned with the guard
words that are checked when it is freed.
-/

namespace GenesisOS

open Lib

section

variable {t : TasUser} {b c : PileUser} {m : Nat → UInt8} {a adr n : Nat} {w : BitVec 32}

-- ---------------------------------------------------------------------------
-- Blocks
-- ---------------------------------------------------------------------------

namespace PileUser

theorem not_separe (b : PileUser) : ¬ b.Separe b := by
  have hmots : 4 ≤ b.mots := Nat.le_add_left _ _
  unfold Separe fin
  omega

instance : Std.Symm Separe := ⟨fun _ _ h => h.symm⟩

end PileUser

namespace TasUser

theorem blocs_ajoute (h : t.Libre b) : (t.ajoute b).blocs = b :: t.blocs := by
  rw [ajoute, dif_pos h]

theorem Libre.notMem (h : t.Libre b) : b ∉ t.blocs := fun hb => b.not_separe (h.2 b hb)

theorem mem_retire : c ∈ (t.retire b).blocs ↔ c ∈ t.blocs ∧ c ≠ b := by
  rw [retire, List.mem_filter, decide_eq_true_eq]

theorem retire_ajoute (h : t.Libre b) : (t.ajoute b).retire b = t := by
  ext1
  show (t.ajoute b).blocs.filter (· ≠ b) = t.blocs
  rw [blocs_ajoute h, List.filter_cons_of_neg (by simp), List.filter_eq_self]
  exact fun c hc => decide_eq_true fun hx => h.notMem (hx ▸ hc)

theorem separe (hb : b ∈ t.blocs) (hc : c ∈ t.blocs) (hne : b ≠ c) : b.Separe c :=
  t.separes.forall hb hc hne

end TasUser

-- ---------------------------------------------------------------------------
-- Words of memory
-- ---------------------------------------------------------------------------

theorem motA_congr {m' : Nat → UInt8} (h : ∀ i < 4, m' (a + i) = m (a + i)) :
    motA m' a = motA m a := by
  have h0 := h 0 (by omega)
  rw [Nat.add_zero] at h0
  rw [motA, motA, h 3 (by omega), h 2 (by omega), h 1 (by omega), h0]

theorem motA_memsetZero (h : a + 4 ≤ adr ∨ adr + n ≤ a) : motA (memsetZero m adr n) a = motA m a :=
  motA_congr fun i hi => if_neg (by omega)

theorem motA_poserMot_of_ne (h : a + 4 ≤ adr ∨ adr + 4 ≤ a) :
    motA (poserMot m adr w) a = motA m a :=
  motA_congr fun i hi => if_neg (by omega)

/-- The word at `a` is not one of those stored. -/
theorem motA_foldl_of_ne {l : List (Nat × BitVec 32)}
    (h : ∀ g ∈ l, a + 4 ≤ g.1 ∨ g.1 + 4 ≤ a) :
    motA (l.foldl (fun m g => poserMot m g.1 g.2) m) a = motA m a := by
  induction l generalizing m with
  | nil => rfl
  | cons g l ih =>
    rw [List.foldl_cons, ih fun x hx => h x (List.mem_cons_of_mem _ hx)]
    exact motA_poserMot_of_ne (h g List.mem_cons_self)

/-- Words stored at addresses that lie apart are all read back. -/
theorem motA_foldl {l : List (Nat × BitVec 32)} {g : Nat × BitVec 32}
    (h : l.Pairwise fun x y => x.1 + 4 ≤ y.1 ∨ y.1 + 4 ≤ x.1) (hg : g ∈ l) :
    motA (l.foldl (fun m g => poserMot m g.1 g.2) m) g.1 = g.2 := by
  induction l generalizing m with
  | nil => cases hg
  | cons x l ih =>
    obtain ⟨hx, hl⟩ := List.pairwise_cons.mp h
    rw [List.foldl_cons]
    rcases List.mem_cons.mp hg with rfl | hg
    · rw [motA_foldl_of_ne hx, motA_poserMot]
    · exact ih hl hg

-- ---------------------------------------------------------------------------
-- Guard words
-- ---------------------------------------------------------------------------

namespace PileUser

/-- Freeing another block. -/
theorem Separe.motA (h : b.Separe c) (ha : b.debut ≤ a) (ha' : a + 4 ≤ b.fin) :
    motA (memsetZero m c.debut (4 * c.mots)) a = motA m a := by
  refine motA_memsetZero ?_
  rcases h with h | h
  · exact .inl (ha'.trans h)
  · exact .inr (h.trans ha)

/-- The guard words are in the block, around the zone. -/
theorem Loge.garde (h : b.Loge) {g : Nat × BitVec 32} (hg : g ∈ b.gardes) :
    b.debut ≤ g.1 ∧ g.1 + 4 ≤ b.fin ∧ (g.1 + 4 ≤ b.zone ∨ b.zone + 4 * (b.mots - 4) ≤ g.1) := by
  obtain ⟨-, hz, -⟩ := h
  have hmots : 4 ≤ b.mots := Nat.le_add_left _ _
  have hdeb : b.debut + 8 = b.zone := Nat.sub_add_cancel ((Nat.le_add_left _ _).trans hz)
  have hfin : b.fin = b.debut + 4 * b.mots := rfl
  simp only [gardes, List.mem_cons, List.not_mem_nil, or_false] at hg
  rcases hg with rfl | rfl | rfl | rfl <;> dsimp only <;> omega

/-- The allocator accepts back a block that has not been overwritten. -/
theorem Loge.intacte_prepare (h : b.Loge) : b.Intacte (b.prepare m) := fun g hg => by
  obtain ⟨-, -, hz⟩ := h.garde hg
  have hmots : 4 ≤ b.mots := Nat.le_add_left _ _
  have hfin : b.fin = b.debut + 4 * b.mots := rfl
  rw [prepare, motA_memsetZero hz]
  refine motA_foldl ?_ hg
  simp only [gardes, List.pairwise_cons, List.mem_cons, List.not_mem_nil, or_false, forall_eq_or_imp,
    forall_eq, false_imp_iff, implies_true, List.Pairwise.nil, and_true]
  omega

end PileUser

/-- `user_stack_free` of an allocated block stops only when a guard word has been
overwritten. -/
theorem wp_userStackFree_garde {E : Faute → Prop} {Q : Unit → Kernel → Prop} {s : Kernel} {l : Lieu}
    {z : Nat} (hb : ⟨z, n⟩ ∈ s.tasUser.blocs)
    (hE : ¬ (PileUser.mk z n).Intacte s.memoire → E (.memBug l))
    (hQ : (PileUser.mk z n).Intacte s.memoire → Q () { s with
      tasUser := s.tasUser.retire ⟨z, n⟩
      memoire := memsetZero s.memoire (PileUser.mk z n).debut (4 * (PileUser.mk z n).mots) }) :
    wp E (userStackFree l z n) Q s := by
  rw [userStackFree, if_neg (s.tasUser.loges _ hb).1.ne', wp_bind, wp_get]
  split
  · next h => exact hQ h.2
  · next h => exact hE fun hi => h ⟨hb, hi⟩

end

end GenesisOS
