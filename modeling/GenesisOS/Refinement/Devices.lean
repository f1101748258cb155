import GenesisOS.Refinement.Primitives

/-!
# GenesisOS — code that leaves scheduling alone

The display, the keyboard buffer, the history and the accesses to user memory
do not touch the scheduling part of the state: they are `Inerte`.
-/

namespace GenesisOS

open Lib

-- ---------------------------------------------------------------------------
-- Display
-- ---------------------------------------------------------------------------

theorem inerte_surConsole (f : Console → Option Console) : Inerte (surConsole f) := by
  intro C Q s h
  simp only [surConsole, wp_bind, wp_get]
  split
  · exact h _ _ rfl
  · exact .inl rfl

theorem inerte_traiteCar (c : UInt8) : Inerte (traiteCar c) := inerte_surConsole _

theorem inerte_printf (l : List UInt8) : Inerte (printf l) := .of_forM inerte_traiteCar

theorem inerte_ecritTemps (l : List UInt8) (n : Nat) : Inerte (ecritTemps l n) :=
  inerte_surConsole _

-- ---------------------------------------------------------------------------
-- User memory
-- ---------------------------------------------------------------------------

theorem inerte_lireOctet (adr : Nat) : Inerte (lireOctet adr) := by
  intro C Q s h
  simp only [lireOctet, wp_bind, wp_get]
  split
  · exact h _ _ rfl
  · exact .inl rfl

theorem inerte_ecrireOctet (adr : Nat) (v : UInt8) : Inerte (ecrireOctet adr v) := by
  intro C Q s h
  simp only [ecrireOctet]
  split
  · exact h _ _ rfl
  · exact .inl rfl

theorem inerte_memsetUser (adr n : Nat) : Inerte (memsetUser adr n) := by
  intro C Q s h
  simp only [memsetUser]
  split
  · exact h _ _ rfl
  · split
    · exact h _ _ rfl
    · exact .inl rfl

theorem inerte_lireChaineBornee (n adr : Nat) : Inerte (lireChaineBornee n adr) := by
  induction n generalizing adr with
  | zero => exact .of_pure _
  | succ n ih =>
    refine .of_bind (inerte_lireOctet adr) fun c => .of_ite (.of_pure _) ?_
    exact .of_bind (ih (adr + 1)) fun _ => .of_pure _

theorem inerte_lireChaine (adr : Nat) : Inerte (lireChaine adr) := inerte_lireChaineBornee _ _

theorem inerte_copie (nom : Nom) : Inerte nom.copie := by
  cases nom with
  | nul => exact .of_pure _
  | user adr => exact inerte_lireChaineBornee _ _
  | noyau texte => exact .of_pure _

theorem inerte_consWrite (n adr : Nat) : Inerte (consWrite n adr) := by
  induction n generalizing adr with
  | zero => exact .of_pure _
  | succ n ih =>
    exact .of_bind (inerte_lireOctet adr) fun c => .of_bind (inerte_traiteCar c) fun _ => ih _

-- ---------------------------------------------------------------------------
-- Keyboard buffer and history
-- ---------------------------------------------------------------------------

theorem inerte_surClavier (f : Clavier → Clavier) : Inerte (surClavier f) :=
  .of_modify fun _ => rfl

theorem inerte_memFree (l : Lieu) (z n : Nat) : Inerte (memFree l z n) :=
  fun _ _ _ h => wp_memFree fun s' hs' => h () s' hs'

theorem inerte_evince : Inerte evince := by
  refine .of_bind .of_get fun s => .of_ite ?_ (.of_pure _)
  cases s.clavier.history 0 with
  | none => exact .of_throw rfl
  | some h => exact .of_bind (inerte_memFree _ _ _) fun _ => inerte_surClavier _

theorem inerte_copieTampon (string n : Nat) : Inerte (copieTampon string n) :=
  .of_forM fun _ => .of_bind .of_get fun _ => inerte_ecrireOctet _ _

theorem inerte_afficherHistorique : Inerte afficherHistorique := by
  refine .of_bind .of_get fun s => .of_forM fun i => .of_bind .of_get fun s' => ?_
  cases s'.clavier.history i with
  | none => exact .of_throw rfl
  | some h => exact .of_ite (.of_throw rfl) (inerte_printf _)

/-- Saving a line only allocates. -/
theorem wp_memorise {C : Cadre} {s : Kernel} {R : Unit → Kernel → Prop} (string : Nat)
    (h : ∀ s', s'.toCore = s.toCore.alloue (s.prochain + 1) → R () s') :
    wp C.tolere (memorise string) R s := by
  simp only [memorise, wp_bind]
  refine inerte_evince C _ s ?_
  intro _ s₁ h₁
  refine inerte_lireChaine string C _ s₁ ?_
  intro texte s₂ h₂
  refine wp_memAllocNonNul ?_ rfl
  intro s₃ h₃
  refine inerte_surClavier _ C _ s₃ ?_
  intro _ s₄ h₄
  refine h s₄ ?_
  rw [h₄, h₃, h₂, h₁]

end GenesisOS
