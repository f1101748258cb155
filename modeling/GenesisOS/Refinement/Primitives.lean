import GenesisOS.Abstract.Invariant

/-!
# GenesisOS — rules for the primitives of the kernel code

`Raffine C m s`: run in the state `s`, the kernel code `m` ends with the
effect of a `Segment C`, or stops at a fault that `C` tolerates. The rules
below give, for each primitive of `Model/Memory.lean`, what its continuation
may assume: the scheduling part of the state after it, as an equation, and
nothing of the rest of the machine.
-/

namespace GenesisOS

open Lib

/-- Faults that do not depend on the coherence of the kernel variables: memory
runs out, a pointer argument leads outside user memory, a user stack has been
overwritten, the history of the console is not there, the machine is stopped. -/
def Faute.permise : Faute → Bool
  | .assertion _ | .boucle _ => false
  | .accesLibere l => l ∈ [.console, .keyboardData]
  | .accesNul l => l ∈ [.initOrdonnanceur, .addPid, .addFils, .addFid, .addMsg, .pcreate, .addSid,
      .console, .keyboardData, .consRead]
  | .page _ | .horsBornes _ | .memBug _ | .panique | .arret => true

/-- The faults a step within `C` may stop at. -/
def Cadre.tolere (C : Cadre) (f : Faute) : Prop := f.permise = true ∨ C.faute f

/-- The code `m` has the effect of a segment within `C`. -/
def Raffine (C : Cadre) (m : M Suite) (s : Kernel) : Prop :=
  wp C.tolere m (fun r s' => Segment C r s.toCore s'.toCore) s

section Rules

variable {C : Cadre} {E : Faute → Prop} {s : Kernel} {l : Lieu} {p : Ptr} {t : Tete} {α : Type}
  {Q : α → Kernel → Prop} {R : Unit → Kernel → Prop}

-- ---------------------------------------------------------------------------
-- Accesses
-- ---------------------------------------------------------------------------

theorem wp_surCore {f : Core → Core} (h : ∀ s', s'.toCore = f s.toCore → R () s') :
    wp E (surCore f) R s := h _ rfl

theorem wp_note {e : Evenement} (h : ∀ s', s'.toCore = s.toCore.note e → R () s') :
    wp E (note e) R s := h _ rfl

theorem wp_lire {Q : Processus → Kernel → Prop} (hv : s.vivant p = true) (h : Q (s.tas p) s) :
    wp E (lire l p) Q s := by
  simp only [lire, wp_bind, wp_get, hv, if_true, wp_pure]
  exact h

theorem wp_ecrire {f : Processus → Processus} (hv : s.vivant p = true)
    (h : ∀ s', s'.toCore = s.toCore.maj p f → R () s') : wp E (ecrire l p f) R s := by
  simp only [ecrire, wp_bind, wp_get, hv, if_true]
  exact h _ rfl

theorem wp_assertion {c : Bool} (hc : c = true) (h : R () s) :
    wp E (assertion l c) R s := by
  simp only [assertion, hc, if_true]
  exact h

-- ---------------------------------------------------------------------------
-- Lists
-- ---------------------------------------------------------------------------

theorem wp_queueAdd {cle : Processus → Int} (hl : s.lien p = none)
    (h : ∀ s', s'.toCore = s.toCore.ajoute t p cle → R () s') :
    wp E (queueAdd p t cle) R s := by
  simp only [queueAdd, wp_bind, wp_get, hl, if_true]
  exact h _ rfl

theorem wp_queueDel (hl : s.lien p = some t)
    (h : ∀ s', s'.toCore = s.toCore.retire p → R () s') : wp E (queueDel p) R s := by
  simp only [queueDel, wp_bind, wp_get, hl, reduceCtorEq, if_false]
  exact h _ rfl

theorem wp_queueOut {Q : Option Ptr → Kernel → Prop} (hnone : s.chainage.top t = none → Q none s)
    (hsome : ∀ p s', s.chainage.top t = some p → s'.toCore = s.toCore.retire p → Q (some p) s') :
    wp E (queueOut t) Q s := by
  simp only [queueOut, wp_bind, wp_get]
  cases hp : s.chainage.top t with
  | none => exact hnone hp
  | some p => exact hsome p _ hp rfl

theorem queueOut_vide (h : s.chainage.top t = none) : queueOut t s = .ok (none, s) := by
  obtain ⟨_, _, hrun, rfl, rfl⟩ := wp_exists (m := queueOut t) (s := s)
    (Q := fun r s' => r = none ∧ s' = s)
    (wp_queueOut (fun _ => ⟨rfl, rfl⟩) fun p _ hp _ => by rw [h] at hp; cases hp)
  exact hrun

-- ---------------------------------------------------------------------------
-- Kernel heap
-- ---------------------------------------------------------------------------

theorem wp_memAlloc {Q : Option Ptr → Kernel → Prop} {n : Nat}
    (h : ∀ r s', (∀ p, r = some p → p = s.prochain) →
      s'.toCore = s.toCore.alloue (s.prochain + 1) → Q r s') : wp C.tolere (memAlloc n) Q s := by
  simp only [memAlloc, wp_bind, wp_get]
  split
  · exact h _ _ (fun p hp => (Option.some.inj hp).symm) rfl
  · exact h _ _ (fun p hp => by cases hp) rfl

theorem wp_memAllocNonNul {Q : Ptr → Kernel → Prop} {n : Nat}
    (h : ∀ s', s'.toCore = s.toCore.alloue (s.prochain + 1) → Q s.prochain s')
    (hl : (Faute.accesNul l).permise = true) :
    wp C.tolere (memAllocNonNul l n) Q s := by
  simp only [memAllocNonNul, wp_bind]
  refine wp_memAlloc ?_
  intro r s' hr hs'
  cases r with
  | none => exact .inl hl
  | some p =>
    rw [hr p rfl]
    exact h s' hs'

theorem wp_memFree {z n : Nat} (h : ∀ s', s'.toCore = s.toCore → R () s') :
    wp C.tolere (memFree l z n) R s := by
  simp only [memFree, wp_bind, wp_get]
  split
  · exact h _ rfl
  · exact .inl rfl

theorem wp_userStackAlloc {Q : Option Nat → Kernel → Prop} {n : Nat}
    (h : ∀ r s', s'.toCore = s.toCore → Q r s') : wp C.tolere (userStackAlloc n) Q s := by
  simp only [userStackAlloc, wp_bind, wp_get]
  split
  · split
    · exact h _ _ rfl
    · exact h _ _ rfl
  · exact h _ _ rfl

theorem wp_userStackFree {z n : Nat} (h : ∀ s', s'.toCore = s.toCore → R () s') :
    wp C.tolere (userStackFree l z n) R s := by
  simp only [userStackFree]
  split
  · exact h s rfl
  · rw [wp_bind, wp_get]
    split
    · exact h _ rfl
    · exact .inl rfl

-- ---------------------------------------------------------------------------
-- User memory and devices
-- ---------------------------------------------------------------------------

theorem octets_mot (w : BitVec 32) : (octetMot w 3).toBitVec ++ (octetMot w 2).toBitVec ++
    (octetMot w 1).toBitVec ++ (octetMot w 0).toBitVec = w := by
  refine BitVec.eq_of_getLsbD_eq ?_
  intro i hi
  simp only [octetMot, BitVec.getLsbD_append, BitVec.getLsbD_extractLsb']
  -- the byte that holds the bit `i`
  rcases (by omega : i < 8 ∨ 8 ≤ i ∧ i < 16 ∨ 16 ≤ i ∧ i < 24 ∨ 24 ≤ i) with h | h | h | h
  · rw [if_pos h, decide_eq_true h, Bool.true_and]
    congr 1
    omega
  · rw [if_neg (by omega), if_pos (by omega), decide_eq_true (by omega), Bool.true_and]
    congr 1
    omega
  · rw [if_neg (by omega), if_neg (by omega), if_pos (by omega), decide_eq_true (by omega), Bool.true_and]
    congr 1
    omega
  · rw [if_neg (by omega), if_neg (by omega), if_neg (by omega), decide_eq_true (by omega), Bool.true_and]
    congr 1
    omega

/-- A stored word is read back. -/
theorem motA_poserMot (m : Nat → UInt8) (adr : Nat) (w : BitVec 32) :
    motA (poserMot m adr w) adr = w := by
  have h : ∀ i < 4, poserMot m adr w (adr + i) = octetMot w i := by
    intro i hi
    rw [poserMot, if_pos ⟨by omega, by omega⟩, Nat.add_sub_cancel_left]
  have h0 := h 0 (by omega)
  rw [Nat.add_zero] at h0
  rw [motA, h 3 (by omega), h 2 (by omega), h 1 (by omega), h0]
  exact octets_mot w

/-- The code `m` does not touch the scheduling part of the state. -/
def Inerte (m : M α) : Prop :=
  ∀ (C : Cadre) (Q : α → Kernel → Prop) (s : Kernel),
    (∀ a s', s'.toCore = s.toCore → Q a s') → wp C.tolere m Q s

theorem wp_ecrireMot {adr : Nat} {w : BitVec 32}
    (h : ∀ s', s'.toCore = s.toCore.note (.ecriture s.procElu adr w) → R () s') :
    wp C.tolere (ecrireMot adr w) R s := by
  simp only [ecrireMot]
  split
  · exact h _ rfl
  · exact .inl rfl

/-- A store that ends has not gone through a null pointer. -/
theorem wp_ecrit {adr : Nat} {w : BitVec 32} (h : ∀ s', s'.toCore = s.toCore.ecrit adr w → R () s') :
    wp C.tolere (ecrireMot adr w) R s := by
  by_cases h0 : adr = 0
  · subst h0
    exact .inl rfl
  · refine wp_ecrireMot ?_
    intro s' hs'
    exact h s' (by rw [hs', Core.ecrit_of_ne h0])

namespace Inerte

variable {β : Type} {m : M α} {k : α → M β}

theorem of_pure (a : α) : Inerte (pure a : M α) := fun _ _ _ h => h a _ rfl

theorem of_get : Inerte (get : M Kernel) := fun _ _ _ h => h _ _ rfl

theorem of_bind (hm : Inerte m) (hk : ∀ a, Inerte (k a)) : Inerte (m >>= k) := by
  intro C Q s h
  rw [wp_bind]
  refine hm C _ s ?_
  intro a s' hs'
  refine hk a C Q s' ?_
  intro b s'' hs''
  exact h b s'' (hs''.trans hs')

theorem of_throw {f : Faute} (hf : f.permise = true) :
    Inerte (throw f : M α) := fun _ _ _ _ => .inl hf

theorem of_ite {c : Prop} [Decidable c] {m m' : M α} (hm : Inerte m) (hm' : Inerte m') :
    Inerte (if c then m else m') := by
  split
  · exact hm
  · exact hm'

theorem of_modify {f : Kernel → Kernel} (hf : ∀ s, (f s).toCore = s.toCore) :
    Inerte (modify f : M Unit) := fun _ _ s h => h _ _ (hf s)

theorem of_forM {γ : Type} {l : List γ} {f : γ → M Unit} (hf : ∀ x, Inerte (f x)) :
    Inerte (l.forM f) := by
  induction l with
  | nil => exact of_pure _
  | cons x l ih => exact of_bind (hf x) fun _ => ih

end Inerte

end Rules

end GenesisOS
