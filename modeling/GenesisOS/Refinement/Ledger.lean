import GenesisOS.Lib.Ledger
import GenesisOS.Refinement.Frames
import GenesisOS.Refinement.Stacks
import Mathlib.Data.Finset.Image

/-!
# GenesisOS — who owns the kernel blocks

`Avoirs.possede` lists the blocks the kernel structures own: one cell for each free
identifier, the structure, the kernel stack and the cells of the children of each
process, and the blocks of the files, of the semaphores and of the history. `Bilan`
says that the heap holds exactly these blocks and the pending ones `d`, and that each
process owns its user stack. Kernel code keeps it (`Tenu`), except `waitpid`, which
forgets the cell of the child it takes (`compte_waitpidFin`).
-/

namespace GenesisOS

open Lib

-- ---------------------------------------------------------------------------
-- Owned blocks
-- ---------------------------------------------------------------------------

/-- The entries of a table of size `n`. -/
def entrees (n : Int) : Finset Int := (Finset.range n.toNat).map ⟨Int.ofNat, fun _ _ => Int.ofNat.inj⟩

theorem mem_entrees {n i : Int} (h0 : 0 ≤ i) (hn : i < n) : i ∈ entrees n := by
  refine Finset.mem_map.mpr ⟨i.toNat, Finset.mem_range.mpr (by omega), ?_⟩
  exact Int.toNat_of_nonneg h0

namespace Avoirs

variable (A : Avoirs)

/-- The blocks of a process; the idle process has no kernel stack. -/
def duProcessus (p : Ptr) : Multiset (Ptr × Nat) :=
  {(p, sizeofProcessus)} + (if p = A.procIdle then 0 else {(A.processus p).2.1}) +
    ((A.processus p).1.map fun f => (f.adr, sizeofFils) : List (Ptr × Nat))

/-- The cells of the free identifiers. -/
def desPids : Multiset (Ptr × Nat) :=
  (A.pidLibreTete.map fun cell => (cell.adr, sizeofPidLibre) : List (Ptr × Nat))

def desProcessus : Multiset (Ptr × Nat) :=
  ∑ p ∈ Finset.range A.prochain, if A.vivant p = true then A.duProcessus p else 0

def duFichier : Option File → Multiset (Ptr × Nat)
  | none => 0
  | some f => {(f.adr, sizeofFile)} +
      (f.queueMsg.map fun m => (m.adr, sizeofMessage) : List (Ptr × Nat))

def desFichiers : Multiset (Ptr × Nat) :=
  (A.fidListe.map fun cell => (cell.adr, sizeofFidLibre) : List (Ptr × Nat)) +
    ∑ i ∈ entrees NBQUEUE, duFichier (A.tableauFile i)

def duSemaphore : Option Ptr → Multiset (Ptr × Nat)
  | none => 0
  | some a => {(a, sizeofSemaphore)}

def desSemaphores : Multiset (Ptr × Nat) :=
  (A.sidListe.map fun cell => (cell.adr, sizeofSidLibre) : List (Ptr × Nat)) +
    ∑ i ∈ entrees NBSEM, duSemaphore (A.tableauSem i)

def deLaLigne : Option Ligne → Multiset (Ptr × Nat)
  | none => 0
  | some l => {(l.adr, l.texte.length + 1)}

def deLHistorique : Multiset (Ptr × Nat) :=
  ∑ j ∈ Finset.range A.indexHistory, deLaLigne (A.history j)

/-- All the blocks the kernel structures own. -/
def possede : Multiset (Ptr × Nat) :=
  A.desPids + A.desProcessus + A.desFichiers + A.desSemaphores + A.deLHistorique

/-- The user stack of a process. -/
def pile (p : Ptr) : PileUser := (A.processus p).2.2

/-- The live processes but the idle one own distinct blocks of the user stack heap. -/
structure Piles : Prop where
  alloue : ∀ p, A.vivant p = true → p ≠ A.procIdle → A.pile p ∈ A.tasUser.blocs
  distinctes : ∀ p q, A.vivant p = true → p ≠ A.procIdle → A.vivant q = true → q ≠ A.procIdle →
    A.pile p = A.pile q → p = q

/-- The block `b` is allocated, and no process but `p` owns it. -/
def Garde (p : Ptr) (b : PileUser) : Prop :=
  b ∈ A.tasUser.blocs ∧ ∀ q, A.vivant q = true → q ≠ A.procIdle → q ≠ p → A.pile q ≠ b

/-- After `mem_alloc`. -/
def alloue (n : Nat) : Avoirs :=
  { A with prochain := A.prochain + 1, blocs := Function.update A.blocs A.prochain (some n) }

/-- After a `mem_alloc` that returns `NULL`. -/
def refuse : Avoirs := { A with prochain := A.prochain + 1 }

/-- After `mem_free`. -/
def libere (a : Ptr) : Avoirs := { A with blocs := Function.update A.blocs a none }

/-- Without the process `p`. -/
def sans (p : Ptr) : Avoirs := { A with vivant := Function.update A.vivant p false }

variable {A}

/-- One more cell of a free process identifier. -/
theorem possede_pid {l l' : List PidLibre} {cell : PidLibre} (h : l.Perm (cell :: l')) :
    { A with pidLibreTete := l }.possede =
      (cell.adr, sizeofPidLibre) ::ₘ { A with pidLibreTete := l' }.possede := by
  have hp : ({ A with pidLibreTete := l } : Avoirs).desPids =
      (cell.adr, sizeofPidLibre) ::ₘ ({ A with pidLibreTete := l' } : Avoirs).desPids :=
    Multiset.coe_eq_coe.mpr (h.map _)
  unfold possede
  rw [hp, Multiset.cons_add, Multiset.cons_add, Multiset.cons_add, Multiset.cons_add]
  rfl

/-- One more cell of a free file identifier. -/
theorem possede_fid {l l' : List FidLibre} {cell : FidLibre} (h : l.Perm (cell :: l')) :
    { A with fidListe := l }.possede =
      (cell.adr, sizeofFidLibre) ::ₘ { A with fidListe := l' }.possede := by
  have hp : ({ A with fidListe := l } : Avoirs).desFichiers =
      (cell.adr, sizeofFidLibre) ::ₘ ({ A with fidListe := l' } : Avoirs).desFichiers := by
    have hl : ((l.map fun cell => (cell.adr, sizeofFidLibre) : List (Ptr × Nat)) : Multiset _) =
        (cell.adr, sizeofFidLibre) ::ₘ
          (l'.map fun cell => (cell.adr, sizeofFidLibre) : List (Ptr × Nat)) :=
      Multiset.coe_eq_coe.mpr (h.map _)
    unfold desFichiers
    rw [hl, Multiset.cons_add]
  unfold possede
  rw [hp, Multiset.add_cons, Multiset.cons_add, Multiset.cons_add]
  rfl

/-- One more cell of a free semaphore identifier. -/
theorem possede_sid {l l' : List SidLibre} {cell : SidLibre} (h : l.Perm (cell :: l')) :
    { A with sidListe := l }.possede =
      (cell.adr, sizeofSidLibre) ::ₘ { A with sidListe := l' }.possede := by
  have hp : ({ A with sidListe := l } : Avoirs).desSemaphores =
      (cell.adr, sizeofSidLibre) ::ₘ ({ A with sidListe := l' } : Avoirs).desSemaphores := by
    have hl : ((l.map fun cell => (cell.adr, sizeofSidLibre) : List (Ptr × Nat)) : Multiset _) =
        (cell.adr, sizeofSidLibre) ::ₘ
          (l'.map fun cell => (cell.adr, sizeofSidLibre) : List (Ptr × Nat)) :=
      Multiset.coe_eq_coe.mpr (h.map _)
    unfold desSemaphores
    rw [hl, Multiset.cons_add]
  unfold possede
  rw [hp, Multiset.add_cons, Multiset.cons_add]
  rfl

/-- The blocks of a live process, apart. -/
theorem possede_sans {p : Ptr} (hv : A.vivant p = true) (hlt : p < A.prochain) :
    (A.sans p).possede + A.duProcessus p = A.possede := by
  have hsum := Lib.sum_update (f := fun q => if (A.sans p).vivant q = true then A.duProcessus q else 0)
    (g := fun q => if A.vivant q = true then A.duProcessus q else 0)
    (Finset.mem_range.mpr hlt) fun q hq => by
      show (if Function.update A.vivant p false q = true then A.duProcessus q else 0) = _
      rw [Function.update_of_ne hq]
  have hp : (A.sans p).vivant p ≠ true := by
    show Function.update A.vivant p false p ≠ true
    rw [Function.update_self]
    decide
  simp only [if_neg hp, if_pos hv, add_zero] at hsum
  have hd : (A.sans p).desProcessus + A.duProcessus p = A.desProcessus := hsum
  have hposs : (A.sans p).possede = A.desPids + (A.sans p).desProcessus + A.desFichiers +
      A.desSemaphores + A.deLHistorique := rfl
  rw [hposs, Avoirs.possede, ← hd]
  abel

end Avoirs

/-- The blocks of the heap are those the kernel structures own, and the pending
ones `d`; user stacks are those of the processes. -/
structure Bilan (A : Avoirs) (d : Multiset (Ptr × Nat)) : Prop where
  ledger : Ledger A.blocs (A.possede + d)
  borne : ∀ a, A.blocs a ≠ none → 0 < a ∧ a < A.prochain
  ancien : ∀ p, A.vivant p = true → p < A.prochain
  idle : A.procIdle < A.prochain ∧ (A.processus A.procIdle).2.1.1 = 0
  piles : A.Piles

namespace Bilan

variable {A A' : Avoirs} {d d' : Multiset (Ptr × Nat)} {a p : Ptr} {n : Nat}

/-- Blocks change owner. -/
theorem transfere (h : Bilan A d) (hp : A'.possede + d' = A.possede + d)
    (hb : A'.blocs = A.blocs) (hn : A'.prochain = A.prochain) (hv : A'.vivant = A.vivant)
    (hi : A'.procIdle = A.procIdle) (ht : A'.tasUser = A.tasUser)
    (hpi : ∀ p, A.vivant p = true ∨ p = A.procIdle → (A'.processus p).2 = (A.processus p).2) :
    Bilan A' d' := by
  refine ⟨?_, ?_, ?_, ?_, ?_, ?_⟩
  · rw [hb, hp]
    exact h.ledger
  · rw [hb, hn]
    exact h.borne
  · rw [hv, hn]
    exact h.ancien
  · rw [hi, hn, hpi _ (.inr rfl)]
    exact h.idle
  · intro p hvp hpe
    rw [hv] at hvp
    rw [hi] at hpe
    rw [Avoirs.pile, hpi p (.inl hvp), ht]
    exact h.piles.alloue p hvp hpe
  · intro p q hvp hpe hvq hqe heq
    rw [hv] at hvp hvq
    rw [hi] at hpe hqe
    rw [Avoirs.pile, Avoirs.pile, hpi p (.inl hvp), hpi q (.inl hvq)] at heq
    exact h.piles.distinctes p q hvp hpe hvq hqe heq

theorem prochain_libre (h : Bilan A d) : A.blocs A.prochain = none := by
  by_contra hne
  exact absurd (h.borne _ hne).2 (lt_irrefl _)

theorem prochain_mort (h : Bilan A d) : A.vivant A.prochain ≠ true := fun hv =>
  absurd (h.ancien _ hv) (lt_irrefl _)

/-- A larger bound on the addresses adds no process. -/
theorem possede_refuse (h : Bilan A d) : A.refuse.possede = A.possede := by
  have hp : A.refuse.desProcessus = A.desProcessus := by
    show ∑ p ∈ Finset.range (A.prochain + 1), (if A.vivant p = true then A.duProcessus p else 0) = _
    rw [Finset.sum_range_succ, if_neg h.prochain_mort, add_zero]
    rfl
  show A.desPids + A.refuse.desProcessus + A.desFichiers + A.desSemaphores + A.deLHistorique = _
  rw [hp]
  rfl

theorem refuse (h : Bilan A d) : Bilan A.refuse d where
  ledger := by
    rw [h.possede_refuse]
    exact h.ledger
  borne a ha := ⟨(h.borne a ha).1, (h.borne a ha).2.trans (Nat.lt_succ_self _)⟩
  ancien p hp := (h.ancien p hp).trans (Nat.lt_succ_self _)
  idle := ⟨h.idle.1.trans (Nat.lt_succ_self _), h.idle.2⟩
  piles := ⟨h.piles.alloue, h.piles.distinctes⟩

theorem alloue (h : Bilan A d) (n : Nat) : Bilan (A.alloue n) ((A.prochain, n) ::ₘ d) where
  ledger := by
    have hl := h.ledger.alloc (n := n) h.prochain_libre
    have hp : (A.alloue n).possede = A.possede := h.possede_refuse
    rw [hp, Multiset.add_cons]
    exact hl
  borne a ha := by
    by_cases hx : a = A.prochain
    · rw [hx]
      exact ⟨(Nat.zero_le _).trans_lt h.idle.1, Nat.lt_succ_self _⟩
    · have hb : A.blocs a ≠ none := fun hx' => ha ((Function.update_of_ne hx _ _).trans hx')
      exact ⟨(h.borne a hb).1, (h.borne a hb).2.trans (Nat.lt_succ_self _)⟩
  ancien p hp := (h.ancien p hp).trans (Nat.lt_succ_self _)
  idle := ⟨h.idle.1.trans (Nat.lt_succ_self _), h.idle.2⟩
  piles := ⟨h.piles.alloue, h.piles.distinctes⟩

theorem libere (h : Bilan A ((a, n) ::ₘ d)) : Bilan (A.libere a) d where
  ledger := by
    have hl := h.ledger
    rw [Multiset.add_cons] at hl
    exact hl.free
  borne b hb := by
    refine h.borne b fun hx => hb ?_
    show Function.update A.blocs a none b = none
    rw [Function.update_apply]
    split
    · rfl
    · exact hx
  ancien := h.ancien
  idle := h.idle
  piles := ⟨h.piles.alloue, h.piles.distinctes⟩

/-- A pending block is allocated. -/
theorem blocs_eq (h : Bilan A ((a, n) ::ₘ d)) : A.blocs a = some n := by
  refine (h.ledger.exact a n).mpr ?_
  rw [Multiset.add_cons]
  exact Multiset.mem_cons_self _ _

end Bilan

-- ---------------------------------------------------------------------------
-- Code that keeps the balance
-- ---------------------------------------------------------------------------

/-- The code `m`, run from `s`, leaves no block behind and takes no child. -/
def TenuEn {α : Type} (m : M α) (s : Kernel) : Prop :=
  ∀ d, Bilan s.avoirs d → wp (fun _ => True) m
    (fun _ s' => Bilan s'.avoirs d ∧ s'.avoirs.recoltes = s.avoirs.recoltes) s

def Tenu {α : Type} (m : M α) : Prop := ∀ s, TenuEn m s

section

variable {α β : Type} {m : M α} {k : α → M β} {s : Kernel} {p a : Ptr} {n : Nat} {l : Lieu}
  {d : Multiset (Ptr × Nat)}

namespace TenuEn

theorem of_get {k : Kernel → M β} (h : TenuEn (k s) s) : TenuEn (get >>= k) s := by
  intro d hd
  rw [wp_bind, wp_get]
  exact h d hd

theorem of_bind (hm : TenuEn m s) (hk : ∀ a, Tenu (k a)) : TenuEn (m >>= k) s := by
  intro d hd
  rw [wp_bind]
  refine wp_imp (hm d hd) fun a s₁ h₁ => ?_
  exact wp_imp (hk a s₁ d h₁.1) fun _ _ h₂ => ⟨h₂.1, h₂.2.trans h₁.2⟩

/-- Code that leaves the owners alone, then code that depends on the state. -/
theorem of_keeps {E : Faute → Prop} (hm : Keeps E Kernel.avoirs m)
    (hk : ∀ a s', s'.avoirs = s.avoirs → TenuEn (k a) s') : TenuEn (m >>= k) s := by
  intro d hd
  rw [wp_bind]
  refine wp_mono (hm s) (fun _ _ => trivial) fun a s₁ h₁ => ?_
  have h := hk a s₁ h₁ d (by rw [h₁]; exact hd)
  rwa [h₁] at h

end TenuEn

namespace Tenu

theorem of_keeps {E : Faute → Prop} (h : Keeps E Kernel.avoirs m) : Tenu m := by
  intro s d hd
  refine wp_mono (h s) (fun _ _ => trivial) fun _ s' hs' => ?_
  rw [hs']
  exact ⟨hd, rfl⟩

theorem of_discret (h : Discret m) : Tenu m := .of_keeps h.avoirs

theorem of_pure (a : α) : Tenu (pure a : M α) := fun _ _ hd => ⟨hd, rfl⟩

theorem of_throw {f : Faute} : Tenu (throw f : M α) := fun _ _ _ => trivial

theorem of_get {k : Kernel → M β} (h : ∀ s, Tenu (k s)) : Tenu (get >>= k) := fun s =>
  .of_get (h s s)

theorem of_bind (hm : Tenu m) (hk : ∀ a, Tenu (k a)) : Tenu (m >>= k) := fun s =>
  (hm s).of_bind hk

theorem of_ite {c : Prop} [Decidable c] {m' : M α} (hm : Tenu m) (hm' : Tenu m') :
    Tenu (if c then m else m') := by
  split
  · exact hm
  · exact hm'

end Tenu

/-- An allocation adds a pending block. -/
theorem wp_memAlloc_bilan {Q : Option Ptr → Kernel → Prop} (hd : Bilan s.avoirs d)
    (hnone : ∀ s', s'.avoirs = s.avoirs.refuse → Bilan s'.avoirs d → Q none s')
    (hsome : ∀ s', s'.avoirs = s.avoirs.alloue n → Bilan s'.avoirs ((s.prochain, n) ::ₘ d) →
      Q (some s.prochain) s') : wp (fun _ => True) (memAlloc n) Q s := by
  simp only [memAlloc, wp_bind, wp_get]
  split
  · exact hsome _ rfl (hd.alloue n)
  · exact hnone _ rfl hd.refuse

theorem wp_memAllocNonNul_bilan {Q : Ptr → Kernel → Prop} (hd : Bilan s.avoirs d)
    (hsome : ∀ s', s'.avoirs = s.avoirs.alloue n → Bilan s'.avoirs ((s.prochain, n) ::ₘ d) →
      Q s.prochain s') : wp (fun _ => True) (memAllocNonNul l n) Q s := by
  rw [memAllocNonNul, wp_bind]
  exact wp_memAlloc_bilan hd (fun _ _ _ => trivial) hsome

/-- Freeing takes a pending block. -/
theorem wp_memFree_bilan {Q : Unit → Kernel → Prop} (hd : Bilan s.avoirs ((a, n) ::ₘ d))
    (hQ : ∀ s', s'.avoirs = s.avoirs.libere a → Bilan s'.avoirs d → Q () s') :
    wp (fun _ => True) (memFree l a n) Q s := by
  have hb : s.blocs a = some n := hd.blocs_eq
  simp only [memFree, wp_bind, wp_get, hb, if_true]
  exact hQ _ rfl hd.libere

-- ---------------------------------------------------------------------------
-- Free identifiers
-- ---------------------------------------------------------------------------

theorem tenu_newPid : Tenu newPid := by
  intro s
  refine .of_get ?_
  cases hl : s.pidLibreTete with
  | nil => exact Tenu.of_pure _ s
  | cons cell reste =>
    intro d hd
    simp only [surCore, wp_bind, wp_modify]
    refine wp_memFree_bilan (d := d) (hd.transfere ?_ rfl rfl rfl rfl rfl fun _ _ => rfl)
      fun s' h' hd' => ⟨hd', (congrArg Avoirs.recoltes h' :)⟩
    have hperm : s.pidLibreTete.Perm (cell :: reste) := by rw [hl]
    have hp := Avoirs.possede_pid (A := s.avoirs) hperm
    rw [Multiset.add_cons, ← Multiset.cons_add]
    exact congrArg (· + d) hp.symm

/-- `add_pid` gives the identifier a new cell. -/
theorem wp_addPid_avoirs (pid : Int) : wp (fun _ => True) (addPid pid) (fun _ s' =>
    s'.avoirs = { s.avoirs.alloue sizeofPidLibre with
      pidLibreTete := ⟨s.prochain, pid⟩ :: s.pidLibreTete }) s := by
  simp only [addPid, memAllocNonNul, memAlloc, surCore, wp_bind, wp_get]
  split
  · rfl
  · trivial

theorem Bilan.rendPid {A : Avoirs} (hd : Bilan A d) (pid : Int) :
    Bilan { A.alloue sizeofPidLibre with pidLibreTete := ⟨A.prochain, pid⟩ :: A.pidLibreTete } d := by
  refine (hd.alloue sizeofPidLibre).transfere ?_ rfl rfl rfl rfl rfl fun _ _ => rfl
  have hp := Avoirs.possede_pid (A := A.alloue sizeofPidLibre)
    (List.Perm.refl (PidLibre.mk A.prochain pid :: A.pidLibreTete))
  rw [hp, Multiset.add_cons, Multiset.cons_add]
  rfl

theorem tenu_addPid (pid : Int) : Tenu (addPid pid) := fun _ d hd =>
  wp_imp (wp_addPid_avoirs pid) fun _ _ hs' => by
    rw [hs']
    exact ⟨hd.rendPid pid, rfl⟩

theorem tenu_addFid (fid : Int) : Tenu (addFid fid) := by
  intro s d hd
  rw [addFid, wp_bind]
  refine wp_memAllocNonNul_bilan hd fun s₁ h₁ hd₁ => ⟨hd₁.transfere ?_ rfl rfl rfl rfl rfl fun _ _ => rfl,
    (congrArg Avoirs.recoltes h₁ :)⟩
  have hperm := List.perm_orderedInsert (fun a b => FidLibre.fid a ≤ FidLibre.fid b)
    (⟨s.prochain, fid⟩ : FidLibre) s₁.fidListe
  have hp := Avoirs.possede_fid (A := s₁.avoirs) hperm
  rw [Multiset.add_cons, ← Multiset.cons_add]
  exact congrArg (· + d) hp

theorem tenu_addSid (sid : Int) : Tenu (addSid sid) := by
  intro s d hd
  rw [addSid, wp_bind]
  refine wp_memAllocNonNul_bilan hd fun s₁ h₁ hd₁ => ⟨hd₁.transfere ?_ rfl rfl rfl rfl rfl fun _ _ => rfl,
    (congrArg Avoirs.recoltes h₁ :)⟩
  have hperm := List.perm_orderedInsert (fun a b => SidLibre.sid a ≤ SidLibre.sid b)
    (⟨s.prochain, sid⟩ : SidLibre) s₁.sidListe
  have hp := Avoirs.possede_sid (A := s₁.avoirs) hperm
  rw [Multiset.add_cons, ← Multiset.cons_add]
  exact congrArg (· + d) hp

/-- The last element of a list, apart. -/
theorem perm_dropLast {γ : Type} {l : List γ} {x : γ} (h : l.getLast? = some x) :
    l.Perm (x :: l.dropLast) := by
  have hl := List.dropLast_append_getLast? x h
  conv_lhs => rw [← hl]
  exact List.perm_append_singleton x l.dropLast

theorem tenu_newFid : Tenu newFid := by
  intro s
  refine .of_get ?_
  cases hl : s.fidListe.getLast? with
  | none => exact Tenu.of_pure _ s
  | some cell =>
    intro d hd
    simp only [surCore, wp_bind, wp_modify]
    refine wp_memFree_bilan (d := d) (hd.transfere ?_ rfl rfl rfl rfl rfl fun _ _ => rfl)
      fun s' h' hd' => ⟨hd', (congrArg Avoirs.recoltes h' :)⟩
    have hp := Avoirs.possede_fid (A := s.avoirs) (perm_dropLast hl)
    rw [Multiset.add_cons, ← Multiset.cons_add]
    exact congrArg (· + d) hp.symm

theorem tenu_newSid : Tenu newSid := by
  intro s
  refine .of_get ?_
  cases hl : s.sidListe.getLast? with
  | none => exact Tenu.of_pure _ s
  | some cell =>
    intro d hd
    simp only [surCore, wp_bind, wp_modify]
    refine wp_memFree_bilan (d := d) (hd.transfere ?_ rfl rfl rfl rfl rfl fun _ _ => rfl)
      fun s' h' hd' => ⟨hd', (congrArg Avoirs.recoltes h' :)⟩
    have hp := Avoirs.possede_sid (A := s.avoirs) (perm_dropLast hl)
    rw [Multiset.add_cons, ← Multiset.cons_add]
    exact congrArg (· + d) hp.symm

end

end GenesisOS
