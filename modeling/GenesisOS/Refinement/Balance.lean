import GenesisOS.Refinement.Ledger

/-!
# GenesisOS — kernel code keeps the balance

Each primitive of the kernel leaves the heap equal to the blocks its structures own.
The blocks of a process that is being built or freed are pending: they are counted
apart from its structure (`Avoirs.sans`) until it is complete, or from the moment it
leaves its list.
-/

namespace GenesisOS

open Lib

-- ---------------------------------------------------------------------------
-- One structure changes
-- ---------------------------------------------------------------------------

namespace Avoirs

variable {A A' : Avoirs} {p : Ptr} {i : Int}

/-- The cells of a list of children. -/
def desFils (l : List Fils) : Multiset (Ptr × Nat) :=
  (l.map fun f => (f.adr, sizeofFils) : List (Ptr × Nat))

/-- With other fields for the process `p`. -/
def avec (A : Avoirs) (p : Ptr) (x : List Fils × (Ptr × Nat) × PileUser) : Avoirs :=
  { A with processus := Function.update A.processus p x }

theorem duProcessus_avec (x : List Fils × (Ptr × Nat) × PileUser) :
    (A.avec p x).duProcessus p =
      {(p, sizeofProcessus)} + (if p = A.procIdle then 0 else {x.2.1}) + desFils x.1 := by
  unfold duProcessus avec
  dsimp only
  rw [Function.update_self]
  rfl

/-- The blocks of a dead process do not count. -/
theorem possede_avec_sans (x : List Fils × (Ptr × Nat) × PileUser) :
    ((A.avec p x).sans p).possede = (A.sans p).possede := by
  have hp : ((A.avec p x).sans p).desProcessus = (A.sans p).desProcessus := by
    refine Finset.sum_congr rfl fun q _ => ?_
    by_cases hq : q = p
    · have hmort : (A.sans p).vivant q ≠ true := by
        rw [hq]
        show Function.update A.vivant p false p ≠ true
        rw [Function.update_self]
        decide
      exact (if_neg hmort).trans (if_neg hmort).symm
    · have hdu : ((A.avec p x).sans p).duProcessus q = (A.sans p).duProcessus q := by
        unfold duProcessus sans avec
        dsimp only
        rw [Function.update_of_ne hq]
      show (if Function.update A.vivant p false q = true then _ else _) = _
      rw [hdu]
      rfl
  unfold possede
  rw [hp]
  rfl

theorem vivant_of_sans {q : Ptr} (h : (A.sans p).vivant q = true) : q ≠ p ∧ A.vivant q = true := by
  have h : Function.update A.vivant p false q = true := h
  rw [Function.update_apply] at h
  split at h
  · cases h
  · next hq => exact ⟨hq, h⟩

theorem sans_of_mort (h : A.vivant p ≠ true) : A.sans p = A := by
  have hv : Function.update A.vivant p false = A.vivant := by
    rw [Function.update_eq_self_iff]
    exact (Bool.eq_false_iff.mpr h).symm
  unfold sans
  rw [hv]

/-- Another file in an entry of the table. -/
theorem possede_fichier (h0 : 0 ≤ i) (hN : i < NBQUEUE) (x : Option File) :
    ({ A with tableauFile := Function.update A.tableauFile i x } : Avoirs).possede +
      duFichier (A.tableauFile i) = A.possede + duFichier x := by
  have hsum := Lib.sum_update (f := fun j => duFichier (Function.update A.tableauFile i x j))
    (g := fun j => duFichier (A.tableauFile j)) (mem_entrees h0 hN) fun j hj => by
      rw [Function.update_of_ne hj]
  simp only [Function.update_self] at hsum
  unfold possede desFichiers
  show A.desPids + A.desProcessus + (_ + ∑ j ∈ entrees NBQUEUE,
    duFichier (Function.update A.tableauFile i x j)) + A.desSemaphores + A.deLHistorique + _ = _
  calc _ = A.desPids + A.desProcessus + (A.fidListe.map fun cell => (cell.adr, sizeofFidLibre) :
          List (Ptr × Nat)) + (∑ j ∈ entrees NBQUEUE,
          duFichier (Function.update A.tableauFile i x j) + duFichier (A.tableauFile i)) +
          A.desSemaphores + A.deLHistorique := by abel
    _ = _ := by rw [hsum]; abel

/-- Another semaphore in an entry of the table. -/
theorem possede_semaphore (h0 : 0 ≤ i) (hN : i < NBSEM) (x : Option Ptr) :
    ({ A with tableauSem := Function.update A.tableauSem i x } : Avoirs).possede +
      duSemaphore (A.tableauSem i) = A.possede + duSemaphore x := by
  have hsum := Lib.sum_update (f := fun j => duSemaphore (Function.update A.tableauSem i x j))
    (g := fun j => duSemaphore (A.tableauSem j)) (mem_entrees h0 hN) fun j hj => by
      rw [Function.update_of_ne hj]
  simp only [Function.update_self] at hsum
  unfold possede desSemaphores
  show A.desPids + A.desProcessus + A.desFichiers + (_ + ∑ j ∈ entrees NBSEM,
    duSemaphore (Function.update A.tableauSem i x j)) + A.deLHistorique + _ = _
  calc _ = A.desPids + A.desProcessus + A.desFichiers +
          (A.sidListe.map fun cell => (cell.adr, sizeofSidLibre) : List (Ptr × Nat)) +
          (∑ j ∈ entrees NBSEM, duSemaphore (Function.update A.tableauSem i x j) +
          duSemaphore (A.tableauSem i)) + A.deLHistorique := by abel
    _ = _ := by rw [hsum]; abel

end Avoirs

namespace Bilan

variable {A : Avoirs} {d d' : Multiset (Ptr × Nat)} {p : Ptr} {b : PileUser}

/-- The blocks of a live process become pending. -/
theorem detache (h : Bilan A d) (hv : A.vivant p = true) :
    Bilan (A.sans p) (A.duProcessus p + d) where
  ledger := by
    have hl := h.ledger
    rw [← Avoirs.possede_sans hv (h.ancien p hv), add_assoc] at hl
    exact hl
  borne := h.borne
  ancien q hq := h.ancien q (Avoirs.vivant_of_sans hq).2
  idle := h.idle
  piles := ⟨fun q hq => h.piles.alloue q (Avoirs.vivant_of_sans hq).2, fun q r hq hqe hr =>
    h.piles.distinctes q r (Avoirs.vivant_of_sans hq).2 hqe (Avoirs.vivant_of_sans hr).2⟩

/-- The pending blocks of a process are counted with its structure. -/
theorem attache (h : Bilan (A.sans p) (A.duProcessus p + d)) (hv : A.vivant p = true)
    (hlt : p < A.prochain) (hb : p ≠ A.procIdle → A.Garde p (A.pile p)) : Bilan A d := by
  have hvs : ∀ q, A.vivant q = true → q ≠ p → (A.sans p).vivant q = true := fun q hq hqp =>
    (Function.update_of_ne hqp _ _).trans hq
  have hanc : ∀ q, A.vivant q = true → q < A.prochain := by
    intro q hq
    by_cases hqp : q = p
    · rw [hqp]
      exact hlt
    · exact h.ancien q (hvs q hq hqp)
  refine ⟨?_, h.borne, hanc, h.idle, ?_, ?_⟩
  · have hl := h.ledger
    rw [← add_assoc, Avoirs.possede_sans hv hlt] at hl
    exact hl
  · intro q hq hqe
    by_cases hqp : q = p
    · rw [hqp] at hqe ⊢
      exact (hb hqe).1
    · exact h.piles.alloue q (hvs q hq hqp) hqe
  · intro q r hq hqe hr hre heq
    by_cases hqp : q = p
    · rw [hqp] at hqe heq ⊢
      by_contra hne
      exact (hb hqe).2 r hr hre (Ne.symm hne) heq.symm
    · by_cases hrp : r = p
      · rw [hrp] at hre heq
        exact absurd heq ((hb hre).2 q hq hqe hqp)
      · exact h.piles.distinctes q r (hvs q hq hqp) hqe (hvs r hr hrp) hre heq

/-- Nobody else owns the user stack of a process. -/
theorem garde (h : Bilan A d) (hv : A.vivant p = true) (hp : p ≠ A.procIdle) :
    A.Garde p (A.pile p) :=
  ⟨h.piles.alloue p hv hp, fun q hq hqe hqp heq =>
    hqp (h.piles.distinctes q p hq hqe hv hp heq)⟩

/-- A new block of the user stack heap, for the process `p`. -/
theorem ajoutePile (h : Bilan (A.sans p) d) (hb : A.tasUser.Libre b) :
    Bilan ({ A with tasUser := A.tasUser.ajoute b }.sans p) d ∧
      { A with tasUser := A.tasUser.ajoute b }.Garde p b := by
  have hblocs := TasUser.blocs_ajoute hb
  refine ⟨⟨h.ledger, h.borne, h.ancien, h.idle, fun q hq hqe => ?_, h.piles.distinctes⟩, ?_, ?_⟩
  · show A.pile q ∈ (A.tasUser.ajoute b).blocs
    rw [hblocs]
    exact List.mem_cons_of_mem _ (h.piles.alloue q hq hqe)
  · show b ∈ (A.tasUser.ajoute b).blocs
    rw [hblocs]
    exact List.mem_cons_self
  · intro q hq hqe hqp heq
    have hm := h.piles.alloue q ((Function.update_of_ne hqp _ _).trans hq) hqe
    exact hb.notMem (heq ▸ hm)

/-- The block of the process `p` is freed. -/
theorem retirePile (h : Bilan (A.sans p) d) (hb : A.Garde p b) :
    Bilan ({ A with tasUser := A.tasUser.retire b }.sans p) d := by
  refine ⟨h.ledger, h.borne, h.ancien, h.idle, fun q hq hqe => ?_, h.piles.distinctes⟩
  obtain ⟨hqp, hv⟩ := Avoirs.vivant_of_sans hq
  exact TasUser.mem_retire.mpr ⟨h.piles.alloue q hq hqe, hb.2 q hv hqe hqp⟩

end Bilan

-- ---------------------------------------------------------------------------
-- Rules
-- ---------------------------------------------------------------------------

section

variable {α β : Type} {m : M α} {k : α → M β} {s : Kernel} {p a : Ptr} {n : Nat} {l : Lieu}
  {d : Multiset (Ptr × Nat)}

/-- Code that leaves the owners alone in this state, then code that depends on it. -/
theorem TenuEn.of_wp {E : Faute → Prop} (hm : wp E m (fun _ s' => s'.avoirs = s.avoirs) s)
    (hk : ∀ a s', s'.avoirs = s.avoirs → TenuEn (k a) s') : TenuEn (m >>= k) s := by
  intro d hd
  rw [wp_bind]
  refine wp_mono hm (fun _ _ => trivial) fun a s₁ h₁ => ?_
  have h := hk a s₁ h₁ d (by rw [h₁]; exact hd)
  rwa [h₁] at h

theorem TenuEn.of_ite {c : Prop} [Decidable c] {m' : M α} (hm : c → TenuEn m s)
    (hm' : ¬ c → TenuEn m' s) : TenuEn (if c then m else m') s := by
  split
  · next h => exact hm h
  · next h => exact hm' h

theorem Tenu.of_modify {f : Kernel → Kernel} (hf : ∀ s, (f s).avoirs = s.avoirs) :
    Tenu (modify f : M Unit) := .of_keeps (.of_modify hf : Keeps (fun _ => True) _ _)

theorem Tenu.of_forM {γ : Type} {f : γ → M Unit} (hf : ∀ x, Tenu (f x)) (l : List γ) :
    Tenu (l.forM f) := by
  induction l with
  | nil => exact .of_pure _
  | cons x l ih => exact .of_bind (hf x) fun _ => ih

theorem wp_memAlloc_avoirs {Q : Option Ptr → Kernel → Prop}
    (hnone : ∀ s', s'.avoirs = s.avoirs.refuse → Q none s')
    (hsome : ∀ s', s'.avoirs = s.avoirs.alloue n → Q (some s.prochain) s') :
    wp (fun _ => True) (memAlloc n) Q s := by
  simp only [memAlloc, wp_bind, wp_get]
  split
  · exact hsome _ rfl
  · exact hnone _ rfl

theorem wp_memFree_avoirs {Q : Unit → Kernel → Prop}
    (hQ : ∀ s', s.blocs a = some n → s'.avoirs = s.avoirs.libere a → Q () s') :
    wp (fun _ => True) (memFree l a n) Q s := by
  simp only [memFree, wp_bind, wp_get]
  split
  · next h => exact hQ _ h rfl
  · trivial

theorem avoirs_avec {f : Processus → Processus} :
    ({ s with toCore := s.toCore.maj p f } : Kernel).avoirs =
      s.avoirs.avec p (f (s.tas p)).avoirs := by
  have hp : (fun x => ((s.toCore.maj p f).tas x).avoirs) =
      Function.update (fun x => (s.tas x).avoirs) p (f (s.tas p)).avoirs := by
    funext x
    rw [Core.maj_tas, Function.update_apply, Function.update_apply]
    split <;> rfl
  show ({ s.avoirs with processus := fun x => ((s.toCore.maj p f).tas x).avoirs } : Avoirs) = _
  rw [hp]
  rfl

theorem wp_ecrire_avoirs {f : Processus → Processus} {Q : Unit → Kernel → Prop}
    (hQ : ∀ s', s.vivant p = true → s'.avoirs = s.avoirs.avec p (f (s.tas p)).avoirs →
      Q () s') : wp (fun _ => True) (ecrire l p f) Q s := by
  simp only [ecrire, surCore, wp_bind, wp_get]
  split
  · next h => exact hQ _ h avoirs_avec
  · trivial

theorem avoirs_processus (s : Kernel) (p : Ptr) : s.avoirs.processus p = (s.tas p).avoirs := rfl

-- ---------------------------------------------------------------------------
-- Children
-- ---------------------------------------------------------------------------

/-- A live process gets other children. -/
theorem Bilan.change_fils {A : Avoirs} {fils : List Fils} {d' : Multiset (Ptr × Nat)}
    (h : Bilan A d) (hv : A.vivant p = true)
    (hf : Avoirs.desFils fils + d' = Avoirs.desFils (A.processus p).1 + d) :
    Bilan (A.avec p (fils, (A.processus p).2)) d' := by
  have hi : ∀ q, ((A.avec p (fils, (A.processus p).2)).processus q).2 = (A.processus q).2 := by
    intro q
    show (Function.update A.processus p (fils, (A.processus p).2) q).2 = _
    rw [Function.update_apply]
    split
    · next he => rw [he]
    · rfl
  refine h.transfere ?_ rfl rfl rfl rfl rfl fun q _ => hi q
  have hlt := h.ancien p hv
  have h₁ := Avoirs.possede_sans (A := A.avec p (fils, (A.processus p).2)) hv hlt
  rw [Avoirs.possede_avec_sans, Avoirs.duProcessus_avec] at h₁
  rw [← h₁, ← Avoirs.possede_sans hv hlt]
  have hechange : ∀ x a f f' : Multiset (Ptr × Nat), f' + d' = f + d →
      x + (a + f') + d' = x + (a + f) + d := by
    intro x a f f' hf
    calc x + (a + f') + d' = x + a + (f' + d') := by abel
      _ = x + (a + f) + d := by rw [hf]; abel
  exact hechange _ _ _ _ hf

theorem tenu_addFils (pere fils : Ptr) : Tenu (addFils pere fils) := by
  intro s d hd
  rw [addFils, wp_bind]
  refine wp_memAllocNonNul_bilan hd fun s₁ h₁ hd₁ => ?_
  refine wp_ecrire_avoirs fun s₂ hv h₂ => ?_
  rw [h₂]
  refine ⟨hd₁.change_fils hv ?_, (congrArg Avoirs.recoltes h₁ :)⟩
  show ((s.prochain, sizeofFils) ::ₘ Avoirs.desFils _) + d = _
  rw [Multiset.cons_add, Multiset.add_cons]
  rfl

-- ---------------------------------------------------------------------------
-- The end of a process
-- ---------------------------------------------------------------------------

/-- `free_childs` frees the cell of the child. -/
theorem wp_freeChild_avoirs (f : Fils) : wp (fun _ => True) (freeChild f)
    (fun _ s' => s'.avoirs = s.avoirs.libere f.adr) s := by
  have hfree : ∀ s₁ : Kernel, s₁.avoirs = s.avoirs →
      wp (fun _ => True) (memFree .freeChilds f.adr sizeofFils)
        (fun _ s' => s'.avoirs = s.avoirs.libere f.adr) s₁ :=
    fun s₁ h₁ => wp_memFree_avoirs fun s' _ h => by rw [h, h₁]
  have hmarque : ∀ {m : M Unit}, Discret m → ∀ s₁ : Kernel, s₁.avoirs = s.avoirs →
      wp (fun _ => True) m (fun _ s' => s'.avoirs = s.avoirs) s₁ :=
    fun hm s₁ h₁ => wp_mono (hm.avoirs s₁) (fun _ _ => trivial) fun _ _ h => h.trans h₁
  rw [freeChild, wp_bind]
  refine wp_mono ((discret_lire _ _).avoirs s) (fun _ _ => trivial) fun c s₁ h₁ => ?_
  rw [wp_ite]
  refine ⟨fun _ => ?_, fun _ => ?_⟩
  · rw [wp_bind]
    refine wp_imp (hmarque (discret_ecrire _ _ _ (by intro _; rfl)) s₁ h₁) fun _ s₂ h₂ => ?_
    rw [wp_bind]
    exact wp_imp (hmarque (discret_queueAdd _ _ _) s₂ h₂) fun _ s₃ h₃ => hfree s₃ h₃
  · rw [wp_bind]
    exact wp_imp (hmarque (discret_ecrire _ _ _ (by intro _; rfl)) s₁ h₁) fun _ s₂ h₂ => hfree s₂ h₂

/-- The cells of the children are freed while the structure of the process is pending. -/
theorem wp_freeChilds_bilan (hv : Bilan (s.avoirs.sans p)
    (Avoirs.desFils (s.tas p).filsTete + d)) : wp (fun _ => True) (freeChilds p) (fun _ s' =>
      Bilan (s'.avoirs.sans p) d ∧ ∃ b, s'.avoirs = { s.avoirs with blocs := b }) s := by
  rw [freeChilds, wp_bind]
  simp only [lire, wp_bind, wp_get, wp_ite, wp_pure, wp_throw]
  refine ⟨fun _ => ?_, fun _ => trivial⟩
  refine wp_imp (wp_forM (I := fun (l : List Fils) s' =>
    Bilan (s'.avoirs.sans p) (Avoirs.desFils l + d) ∧ ∃ b, s'.avoirs = { s.avoirs with blocs := b })
    ?_ (s.tas p).filsTete ⟨hv, _, rfl⟩) ?_
  · rintro f l s₁ ⟨hd, b, hb⟩
    refine wp_imp (wp_freeChild_avoirs f) fun _ s₂ h₂ => ⟨?_, Function.update b f.adr none, ?_⟩
    · have hd' : Bilan (s₁.avoirs.sans p) ((f.adr, sizeofFils) ::ₘ (Avoirs.desFils l + d)) := by
        rw [← Multiset.cons_add]
        exact hd
      have hlib := hd'.libere
      rw [h₂]
      exact hlib
    · rw [h₂, hb]
      rfl
  · rintro _ s₁ ⟨hd, hb⟩
    have hnil : Avoirs.desFils [] + d = d := zero_add d
    rw [hnil] at hd
    exact ⟨hd, hb⟩

/-- `user_stack_free` of the block of the process `p`. -/
theorem wp_userStackFree_bilan {z : Nat} (hd : Bilan (s.avoirs.sans p) d)
    (hb : s.avoirs.Garde p ⟨z, n⟩) : wp (fun _ => True) (userStackFree l z n) (fun _ s' =>
      Bilan (s'.avoirs.sans p) d ∧ s'.avoirs.recoltes = s.avoirs.recoltes) s := by
  rw [userStackFree, wp_ite]
  refine ⟨fun _ => ⟨hd, rfl⟩, fun _ => ?_⟩
  rw [wp_bind, wp_get, wp_ite]
  exact ⟨fun _ => ⟨hd.retirePile hb, rfl⟩, fun _ => trivial⟩

theorem wp_libereProcessus_avoirs : wp (fun _ => True) (libereProcessus l p)
    (fun _ s' => s'.avoirs = (s.avoirs.sans p).libere p) s := by
  rw [libereProcessus, wp_bind]
  refine wp_memFree_avoirs fun s₁ _ h₁ => ?_
  show ({ s₁.avoirs with vivant := Function.update s₁.avoirs.vivant p false } : Avoirs) = _
  rw [h₁]
  rfl

theorem tenu_freeMourant (p : Ptr) : Tenu (freeMourant p) := by
  intro s d hd
  rw [freeMourant, wp_bind]
  by_cases hv : s.vivant p = true
  swap
  · rw [freeChilds, wp_bind]
    simp only [lire, wp_bind, wp_get, wp_ite, wp_pure, wp_throw]
    exact ⟨fun h => absurd h hv, fun _ => trivial⟩
  have hpile : Bilan (s.avoirs.sans p) (Avoirs.desFils (s.tas p).filsTete +
      ({(p, sizeofProcessus)} + (if p = s.procIdle then 0 else {(s.tas p).avoirs.2.1}) + d)) := by
    have h := hd.detache hv
    rw [show s.avoirs.duProcessus p = Avoirs.desFils (s.tas p).filsTete +
      ({(p, sizeofProcessus)} + if p = s.procIdle then 0 else {(s.tas p).avoirs.2.1}) from
        add_comm _ _, add_assoc] at h
    exact h
  refine wp_imp (wp_freeChilds_bilan hpile) ?_
  rintro _ s₁ ⟨hd₁, b, hb⟩
  have hproc : (s₁.tas p).avoirs = (s.tas p).avoirs := congrFun (congrArg Avoirs.processus hb) p
  simp only [lire, wp_bind, wp_get, wp_ite, wp_pure, wp_throw]
  refine ⟨fun _ => ?_, fun _ => trivial⟩
  simp only [surCore, wp_modify]
  refine wp_imp (wp_addPid_avoirs _) fun _ s₂ h₂ => ?_
  have hd₂ : Bilan (s₂.avoirs.sans p) ({(p, sizeofProcessus)} +
      (if p = s.procIdle then 0 else {(s.tas p).avoirs.2.1}) + d) := by
    rw [h₂]
    exact hd₁.rendPid _
  refine wp_memFree_avoirs fun s₃ hpk h₃ => ?_
  -- the idle process has no kernel stack that could be freed
  have hidle : p ≠ s.procIdle := by
    intro he
    have h0 : (s₁.tas p).pileKernel = 0 := by
      have hi := hd.idle.2
      rw [show s.avoirs.procIdle = p from he.symm, avoirs_processus, ← hproc] at hi
      exact hi
    have hpos := (hd₂.borne 0 (by
      have hb0 : s₂.avoirs.blocs 0 = some (s₁.tas p).pileSizeKernel := h0 ▸ hpk
      show s₂.avoirs.blocs 0 ≠ none
      rw [hb0]
      exact Option.some_ne_none _)).1
    exact lt_irrefl _ hpos
  have hpend : {(p, sizeofProcessus)} + (if p = s.procIdle then 0 else {(s.tas p).avoirs.2.1}) + d =
      ((s₁.tas p).pileKernel, (s₁.tas p).pileSizeKernel) ::ₘ (p, sizeofProcessus) ::ₘ d := by
    rw [if_neg hidle, ← hproc]
    show {(p, sizeofProcessus)} + {((s₁.tas p).pileKernel, (s₁.tas p).pileSizeKernel)} + d = _
    rw [add_comm {(p, sizeofProcessus)}, add_assoc, Multiset.singleton_add, Multiset.singleton_add]
  rw [hpend] at hd₂
  have hd₃ : Bilan (s₃.avoirs.sans p) ((p, sizeofProcessus) ::ₘ d) := by
    rw [h₃]
    exact hd₂.libere
  have hg : s₃.avoirs.Garde p ⟨(s₁.tas p).pileUser, (s₁.tas p).pileSizeUser⟩ := by
    have hg := hd.garde hv hidle
    rw [show s.avoirs.pile p = (s₁.tas p).pile from (congrArg (fun x => x.2.2) hproc).symm] at hg
    rw [h₃, h₂]
    have hb : s₁.avoirs.Garde p (s₁.tas p).pile := by rw [hb]; exact hg
    exact hb
  refine wp_imp (wp_userStackFree_bilan hd₃ hg) ?_
  rintro _ s₄ ⟨hd₄, hr₄⟩
  refine wp_imp wp_libereProcessus_avoirs fun _ s₅ h₅ => ?_
  have hd₅ : Bilan s₅.avoirs d := by
    rw [h₅]
    exact hd₄.libere
  refine wp_mono ((discret_note (.libere p) rfl).avoirs s₅) (fun _ _ => trivial) fun _ s₆ h₆ => ?_
  rw [h₆]
  refine ⟨hd₅, ?_⟩
  rw [h₅]
  refine hr₄.trans ?_
  rw [h₃, h₂]
  exact (congrArg Avoirs.recoltes hb :)

theorem tenu_freeMourantQueue : Tenu freeMourantQueue := by
  have tours : ∀ n, Tenu (freeMourantQueue.tours n) := by
    intro n
    induction n with
    | zero =>
      refine .of_bind (.of_discret (discret_queueOut _)) fun o => ?_
      cases o with
      | none => exact .of_pure _
      | some p => exact .of_throw
    | succ n ih =>
      refine .of_bind (.of_discret (discret_queueOut _)) fun o => ?_
      cases o with
      | none => exact .of_pure _
      | some p => exact .of_bind (tenu_freeMourant p) fun _ => ih
  exact .of_get fun s => tours _

theorem tenu_ordonnanceur (k : Reprise) : Tenu (ordonnanceur k) := by
  refine .of_get fun s => .of_bind (.of_discret (discret_ecrire _ _ _ fun _ => rfl)) fun _ => ?_
  refine .of_bind tenu_freeMourantQueue fun _ => ?_
  refine .of_bind (.of_discret (.of_bind .of_get fun _ => .of_pure _)) fun b => ?_
  exact .of_ite (.of_pure _) (.of_discret discret_commute)

theorem tenu_kill (pid : Int) : Tenu (kill pid) := by
  refine .of_get fun s => .of_ite (.of_pure _) ?_
  cases s.tableDesProcs pid with
  | none => exact .of_pure _
  | some p =>
    refine .of_bind (.of_discret (discret_lire _ _)) fun r => .of_ite (.of_pure _) ?_
    refine .of_bind (.of_discret (discret_note _ rfl)) fun _ => .of_ite ?_ ?_
    · cases r.pere with
      | none => exact .of_bind (.of_discret (discret_ecrire _ _ _ fun _ => rfl)) fun _ => .of_pure _
      | some pere => exact .of_bind (.of_discret (discret_ecrire _ _ _ fun _ => rfl)) fun _ => .of_pure _
    · refine .of_bind (.of_discret (discret_queueDel _)) fun _ => ?_
      cases r.pere with
      | none =>
        refine .of_bind (.of_discret (discret_ecrire _ _ _ fun _ => rfl)) fun _ => ?_
        refine .of_bind (.of_discret (discret_queueAdd _ _ _)) fun _ => ?_
        exact .of_bind tenu_freeMourantQueue fun _ => .of_pure _
      | some pere =>
        refine .of_bind (.of_discret (discret_ecrire _ _ _ fun _ => rfl)) fun _ => ?_
        refine .of_bind (.of_discret (discret_reveillePere _ _)) fun _ => ?_
        exact .of_bind tenu_freeMourantQueue fun _ => .of_pure _

-- ---------------------------------------------------------------------------
-- Taking a child
-- ---------------------------------------------------------------------------

/-- The code `m`, run from `s`, leaves one cell of a child behind for each child it
takes, and no other block. -/
def CompteEn (m : M α) (s : Kernel) : Prop :=
  ∀ d, Bilan s.avoirs d → wp (fun _ => True) m (fun _ s' => ∃ e, Bilan s'.avoirs (e + d) ∧
    (∀ x ∈ e, x.2 = sizeofFils) ∧ s'.avoirs.recoltes = s.avoirs.recoltes + Multiset.card e) s

theorem TenuEn.compte (h : TenuEn m s) : CompteEn m s := fun d hd =>
  wp_imp (h d hd) fun _ _ h' => ⟨0, by rw [zero_add]; exact h'.1, nofun, h'.2⟩

namespace CompteEn

theorem of_bind (hm : CompteEn m s) (hk : ∀ a s', CompteEn (k a) s') : CompteEn (m >>= k) s := by
  intro d hd
  rw [wp_bind]
  refine wp_imp (hm d hd) ?_
  rintro a s₁ ⟨e, hd₁, he, hr⟩
  refine wp_imp (hk a s₁ _ hd₁) ?_
  rintro _ s₂ ⟨e', hd₂, he', hr'⟩
  refine ⟨e' + e, by rw [add_assoc]; exact hd₂, fun x hx => ?_, ?_⟩
  · exact (Multiset.mem_add.mp hx).elim (he' x) (he x)
  · rw [hr', hr, Multiset.card_add]
    omega

theorem of_get {k : Kernel → M β} (h : CompteEn (k s) s) : CompteEn (get >>= k) s := by
  intro d hd
  rw [wp_bind, wp_get]
  exact h d hd

theorem of_ite {c : Prop} [Decidable c] {m' : M α} (hm : CompteEn m s) (hm' : CompteEn m' s) :
    CompteEn (if c then m else m') s := by
  split
  · exact hm
  · exact hm'

end CompteEn

/-- `waitpid` takes one cell out of the list of children. -/
theorem retireFils_perm {fs fs' : List Fils} (h : retireFils p fs = some fs') :
    ∃ f, fs.Perm (f :: fs') := by
  induction fs generalizing fs' with
  | nil => cases h
  | cons f fs ih =>
    rw [retireFils] at h
    split at h
    · cases h
      exact ⟨f, List.Perm.refl _⟩
    · obtain ⟨r, hr, rfl⟩ := Option.map_eq_some_iff.mp h
      obtain ⟨g, hg⟩ := ih hr
      exact ⟨g, (hg.cons f).trans (List.Perm.swap _ _ _)⟩

theorem keeps_ecrireMot_avoirs (adr : Nat) (w : BitVec 32) :
    Keeps (fun _ => True) Kernel.avoirs (ecrireMot adr w) := by
  unfold ecrireMot
  split
  · exact .of_modify fun _ => avoirs_note rfl
  · exact .of_throw trivial

/-- `waitpid` forgets the cell of the child it takes. -/
theorem compte_waitpidFin (p : Ptr) (retvalp : Nat) : CompteEn (waitpidFin p retvalp) s := by
  intro d hd
  rw [waitpidFin, wp_bind, wp_get, wp_bind]
  simp only [lire, wp_bind, wp_get, wp_ite, wp_pure, wp_throw]
  refine ⟨fun hv => ?_, fun _ => trivial⟩
  cases hr : retireFils p (s.tas s.procElu).filsTete with
  | none => trivial
  | some fs =>
    obtain ⟨f, hf⟩ := retireFils_perm hr
    rw [wp_bind]
    refine wp_ecrire_avoirs fun s₁ _ h₁ => ?_
    have hd₁ : Bilan s₁.avoirs ((f.adr, sizeofFils) ::ₘ d) := by
      rw [h₁]
      refine hd.change_fils hv ?_
      have hperm : Avoirs.desFils (s.tas s.procElu).filsTete =
          (f.adr, sizeofFils) ::ₘ Avoirs.desFils fs := Multiset.coe_eq_coe.mpr (hf.map _)
      rw [Multiset.add_cons]
      show _ = Avoirs.desFils (s.tas s.procElu).filsTete + d
      rw [hperm, Multiset.cons_add]
    have hr₁ : s₁.avoirs.recoltes = s.avoirs.recoltes := (congrArg Avoirs.recoltes h₁ :)
    rw [wp_bind]
    refine wp_mono ((discret_lire .waitpid p).avoirs s₁) (fun _ _ => trivial) fun r s₂ h₂ => ?_
    rw [wp_bind]
    show wp _ _ _ ({ s₂ with toCore := s₂.toCore.note (.recolte s.procElu p) } : Kernel)
    have h₃ : ({ s₂ with toCore := s₂.toCore.note (.recolte s.procElu p) } : Kernel).avoirs =
        { s₁.avoirs with recoltes := s.avoirs.recoltes + 1 } := by
      have hcount : (s₂.journal ++ [Evenement.recolte s.procElu p]).countP Evenement.estRecolte =
          s₂.avoirs.recoltes + 1 := List.countP_append
      rw [← hr₁, ← h₂, ← hcount]
      rfl
    have hd₃ : Bilan ({ s₂ with toCore := s₂.toCore.note (.recolte s.procElu p) } : Kernel).avoirs
        ((f.adr, sizeofFils) ::ₘ d) := by
      rw [h₃]
      exact hd₁.transfere rfl rfl rfl rfl rfl rfl fun _ _ => rfl
    have hsuite : ∀ {m : M Suite}, Tenu m → wp (fun _ => True) m (fun _ s' =>
        ∃ e, Bilan s'.avoirs (e + d) ∧ (∀ x ∈ e, x.2 = sizeofFils) ∧
          s'.avoirs.recoltes = s.avoirs.recoltes + Multiset.card e)
        { s₂ with toCore := s₂.toCore.note (.recolte s.procElu p) } := by
      intro m hm
      refine wp_imp (hm _ _ hd₃) fun _ s₄ h₄ => ⟨{(f.adr, sizeofFils)}, ?_, ?_, ?_⟩
      · rw [Multiset.singleton_add]
        exact h₄.1
      · intro x hx
        rw [Multiset.mem_singleton.mp hx]
      · rw [h₄.2, h₃, Multiset.card_singleton]
    refine hsuite (.of_bind (.of_discret (discret_ecrire _ _ _ fun _ => rfl)) fun _ => ?_)
    refine .of_bind (.of_discret (discret_queueAdd _ _ _)) fun _ => ?_
    refine .of_bind tenu_freeMourantQueue fun _ => .of_ite ?_ (.of_pure _)
    exact .of_bind (.of_keeps (keeps_ecrireMot_avoirs _ _)) fun _ => .of_pure _

theorem compte_waitpidBoucle (pid : Int) (p : Ptr) (retvalp : Nat) :
    CompteEn (waitpidBoucle pid p retvalp) s := by
  refine .of_bind (TenuEn.compte (Tenu.of_discret (discret_lire _ _) s)) fun r s₁ => .of_ite ?_ ?_
  · have h : Tenu (do
        let s ← get
        ecrire .waitpid s.procElu fun r => { r with etat := .attendFils }
        pure (.ordonnanceur (.waitpid pid p retvalp)) : M Suite) :=
      .of_get fun s => .of_bind (.of_discret (discret_ecrire _ _ _ fun _ => rfl)) fun _ => .of_pure _
    exact (h s₁).compte
  · exact compte_waitpidFin p retvalp

theorem compte_waitpidFilsBoucle (pid : Int) (retvalp : Nat) :
    CompteEn (waitpidFilsBoucle pid retvalp) s := by
  refine .of_get (.of_bind (TenuEn.compte (Tenu.of_discret (discret_lire _ _) s)) fun elu s₁ => ?_)
  refine .of_bind (TenuEn.compte (Tenu.of_discret (discret_premierZombie _) s₁)) fun o s₂ => ?_
  cases o with
  | some p => exact compte_waitpidFin p retvalp
  | none =>
    have h : Tenu (do
        ecrire .waitpid s.procElu fun r => { r with etat := .attendFils }
        pure (.ordonnanceur (.waitpidFils pid retvalp)) : M Suite) :=
      .of_bind (.of_discret (discret_ecrire _ _ _ fun _ => rfl)) fun _ => .of_pure _
    exact (h s₂).compte

theorem compte_waitpid (pid : Int) (retvalp : Nat) : CompteEn (waitpid pid retvalp) s := by
  refine .of_get (.of_bind (TenuEn.compte (Tenu.of_discret (discret_note _ rfl) s)) fun _ s₁ => ?_)
  refine .of_ite (Tenu.of_pure _ s₁).compte (.of_ite ?_ ?_)
  · cases s.tableDesProcs pid with
    | none => exact (Tenu.of_pure _ s₁).compte
    | some p =>
      refine .of_bind (TenuEn.compte (Tenu.of_discret (discret_lire _ _) s₁)) fun r s₂ => ?_
      exact .of_ite (Tenu.of_pure _ s₂).compte (compte_waitpidBoucle pid p retvalp)
  · refine .of_bind (TenuEn.compte (Tenu.of_discret (discret_lire _ _) s₁)) fun elu s₂ => ?_
    exact .of_ite (Tenu.of_pure _ s₂).compte (compte_waitpidFilsBoucle pid retvalp)

-- ---------------------------------------------------------------------------
-- A new process
-- ---------------------------------------------------------------------------

/-- The owners once the structure of a new process is allocated. -/
def Avoirs.concu (A : Avoirs) : Avoirs :=
  { (A.alloue sizeofProcessus).avec A.prochain ([], (0, 0), ⟨0, 0⟩) with
    vivant := Function.update A.vivant A.prochain true }

theorem wp_allocProcessus_avoirs {Q : Option Ptr → Kernel → Prop}
    (hnone : ∀ s', s'.avoirs = s.avoirs.refuse → Q none s')
    (hsome : ∀ s', s'.avoirs = s.avoirs.concu → Q (some s.prochain) s') :
    wp (fun _ => True) allocProcessus Q s := by
  rw [allocProcessus, wp_bind]
  refine wp_memAlloc_avoirs (fun s₁ h₁ => hnone _ h₁) fun s₁ h₁ => hsome _ ?_
  show ({ s₁.avoirs with
    processus := fun x => (Function.update s₁.tas s.prochain {} x).avoirs
    vivant := Function.update s₁.avoirs.vivant s.prochain true } : Avoirs) = _
  have hp : (fun x => (Function.update s₁.tas s.prochain {} x).avoirs) =
      Function.update s₁.avoirs.processus s.prochain ([], (0, 0), ⟨0, 0⟩) := by
    funext x
    rw [Function.update_apply, Function.update_apply]
    split <;> rfl
  rw [hp, h₁]
  rfl

/-- Its structure is pending. -/
theorem Bilan.concu {A : Avoirs} (h : Bilan A d) :
    Bilan (A.concu.sans A.prochain) ((A.prochain, sizeofProcessus) ::ₘ d) := by
  have hmort : (A.alloue sizeofProcessus).vivant A.prochain ≠ true := h.prochain_mort
  have hsans : A.concu.sans A.prochain =
      ((A.alloue sizeofProcessus).avec A.prochain ([], (0, 0), ⟨0, 0⟩)).sans A.prochain := by
    unfold Avoirs.concu Avoirs.sans
    dsimp only
    rw [Function.update_idem]
    rfl
  have hvivant : (((A.alloue sizeofProcessus).avec A.prochain ([], (0, 0), ⟨0, 0⟩)).sans
      A.prochain).vivant = (A.alloue sizeofProcessus).vivant :=
    (congrArg Avoirs.vivant (Avoirs.sans_of_mort hmort) :)
  rw [hsans]
  refine (h.alloue sizeofProcessus).transfere ?_ rfl rfl hvivant rfl rfl fun q hq => ?_
  · rw [Avoirs.possede_avec_sans, Avoirs.sans_of_mort hmort]
  · have hne : q ≠ A.prochain := by
      rintro rfl
      exact hq.elim hmort fun hx => absurd h.idle.1 hx.not_gt
    show (Function.update A.processus A.prochain _ q).2 = _
    rw [Function.update_of_ne hne]
    rfl

/-- The structure of the process takes over its blocks. -/
theorem Bilan.acheve {A : Avoirs} {x : Ptr × Nat} {b : PileUser}
    (h : Bilan (A.sans p) (x ::ₘ (p, sizeofProcessus) ::ₘ d)) (hv : A.vivant p = true)
    (hi : p ≠ A.procIdle) (hlt : p < A.prochain) (hb : A.Garde p b) :
    Bilan (A.avec p ([], x, b)) d := by
  have hautre : ∀ q, q ≠ p → (A.avec p ([], x, b)).processus q = A.processus q := fun q hq =>
    Function.update_of_ne hq _ _
  refine Bilan.attache (p := p) ?_ hv hlt fun _ => ?_
  swap
  · have hp : (A.avec p ([], x, b)).pile p = b := by
      show (Function.update A.processus p ([], x, b) p).2.2 = b
      rw [Function.update_self]
    rw [hp]
    refine ⟨hb.1, fun q hq hqe hqp => ?_⟩
    rw [Avoirs.pile, hautre q hqp]
    exact hb.2 q hq hqe hqp
  refine h.transfere ?_ rfl rfl rfl rfl rfl fun q hq => ?_
  · rw [Avoirs.possede_avec_sans, Avoirs.duProcessus_avec, if_neg hi]
    refine congrArg ((A.sans p).possede + ·) ?_
    show {(p, sizeofProcessus)} + {x} + 0 + d = _
    rw [add_zero, add_assoc, Multiset.singleton_add, Multiset.singleton_add, Multiset.cons_swap]
  · refine congrArg Prod.snd (hautre q ?_)
    rintro rfl
    exact hq.elim (fun hx => (Avoirs.vivant_of_sans hx).1 rfl) hi

theorem keeps_lireChaineBornee_avoirs (n adr : Nat) :
    Keeps (fun _ => True) Kernel.avoirs (lireChaineBornee n adr) := by
  induction n generalizing adr with
  | zero => exact .of_pure _
  | succ n ih =>
    refine .of_bind (.of_bind .of_get fun _ => .of_ite (.of_pure _) (.of_throw trivial)) fun c => ?_
    exact .of_ite (.of_pure _) (.of_bind (ih _) fun _ => .of_pure _)

theorem keeps_copie (name : Nom) : Keeps (fun _ => True) Kernel.avoirs name.copie := by
  cases name with
  | nul => exact .of_pure _
  | user adr => exact keeps_lireChaineBornee_avoirs _ _
  | noyau texte => exact .of_pure _

theorem wp_startProc_bilan {pid prio : Int} {taille pileUser : Nat} {name : Nom} {arg : BitVec 32}
    {pileKernel : Ptr} (hd : Bilan (s.avoirs.sans p)
      ((pileKernel, KERNEL_STACK_SIZE * 4) ::ₘ (p, sizeofProcessus) ::ₘ d))
    (hv : s.vivant p = true) (hf : (s.tas p).filsTete = []) (hi : p ≠ s.procIdle)
    (hlt : p < s.prochain) (hb : s.avoirs.Garde p ⟨pileUser, taille⟩) :
    wp (fun _ => True) (startProc pid taille prio name arg p pileUser pileKernel) (fun _ s' =>
      Bilan s'.avoirs d ∧ s'.avoirs.recoltes = s.avoirs.recoltes) s := by
  rw [startProc, wp_bind]
  refine wp_mono (keeps_copie name s) (fun _ _ => trivial) fun nom s₁ h₁ => ?_
  rw [wp_bind]
  refine wp_ecrire_avoirs fun s₂ hv₂ h₂ => ?_
  have hf₁ : (s₁.tas p).filsTete = [] :=
    (congrArg Prod.fst (congrFun (congrArg Avoirs.processus h₁) p)).trans hf
  have hd₂ : Bilan s₂.avoirs d := by
    rw [h₂, h₁]
    have hx := hd.acheve hv hi hlt hb
    rw [← hf₁] at hx
    exact hx
  have hr : s₂.avoirs.recoltes = s.avoirs.recoltes := by
    rw [h₂, h₁]
    rfl
  have hsuite : ∀ {m : M Suite}, Tenu m → wp (fun _ => True) m (fun _ s' =>
      Bilan s'.avoirs d ∧ s'.avoirs.recoltes = s.avoirs.recoltes) s₂ :=
    fun hm => wp_imp (hm s₂ d hd₂) fun _ _ h => ⟨h.1, h.2.trans hr⟩
  have hfin : ∀ elu : Ptr, Tenu (do
      queueAdd p .procActivables (·.prio)
      let elu ← lire .start elu
      if prio > elu.prio then pure (.ordonnanceur (.retour pid)) else pure (.retour pid) : M Suite) := by
    refine fun elu => .of_bind (.of_discret (discret_queueAdd _ _ _)) fun _ => ?_
    exact .of_bind (.of_discret (discret_lire _ _)) fun _ => .of_ite (.of_pure _) (.of_pure _)
  refine hsuite (.of_bind (.of_modify fun _ => rfl) fun _ => ?_)
  refine .of_bind (.of_discret (discret_ecrire _ _ _ fun _ => rfl)) fun _ => ?_
  refine .of_bind (.of_discret (discret_surCore fun _ => rfl)) fun _ => .of_get fun s => ?_
  dsimp only
  refine .of_ite ?_ ?_
  · refine .of_bind (.of_discret (discret_ecrire _ _ _ fun _ => rfl)) fun _ => ?_
    refine .of_bind (tenu_addFils _ _) fun _ => ?_
    exact .of_bind (.of_discret (discret_note _ rfl)) fun _ => hfin _
  · refine .of_bind (.of_discret (discret_ecrire _ _ _ fun _ => rfl)) fun _ => ?_
    exact .of_bind (.of_discret (discret_note _ rfl)) fun _ => hfin _

/-- The structure of a process that is not created is freed. -/
theorem wp_annule {pid : Int} (hd : Bilan (s.avoirs.sans p) ((p, sizeofProcessus) ::ₘ d))
    {m : M Unit} (hm : ∀ s₁ : Kernel, s₁.avoirs = { s.avoirs.alloue sizeofPidLibre with
        pidLibreTete := ⟨s.prochain, pid⟩ :: s.pidLibreTete } →
      Bilan (s₁.avoirs.sans p) ((p, sizeofProcessus) ::ₘ d) → wp (fun _ => True) m (fun _ s₂ =>
        Bilan (s₂.avoirs.sans p) ((p, sizeofProcessus) ::ₘ d) ∧
          s₂.avoirs.recoltes = s₁.avoirs.recoltes) s₁) :
    wp (fun _ => True) (do addPid pid; m; libereProcessus l p; pure (.retour (-1)) : M Suite)
      (fun _ s' => Bilan s'.avoirs d ∧ s'.avoirs.recoltes = s.avoirs.recoltes) s := by
  rw [wp_bind]
  refine wp_imp (wp_addPid_avoirs pid) fun _ s₁ h₁ => ?_
  have hd₁ : Bilan (s₁.avoirs.sans p) ((p, sizeofProcessus) ::ₘ d) := by
    rw [h₁]
    exact hd.rendPid pid
  rw [wp_bind]
  refine wp_imp (hm s₁ h₁ hd₁) ?_
  rintro _ s₂ ⟨hd₂, hr₂⟩
  rw [wp_bind]
  refine wp_imp wp_libereProcessus_avoirs fun _ s₃ h₃ => ?_
  rw [wp_pure, h₃]
  exact ⟨hd₂.libere, hr₂.trans (congrArg Avoirs.recoltes h₁ :)⟩

theorem wp_userStackAlloc_avoirs {Q : Option Nat → Kernel → Prop}
    (hnone : ∀ s', s'.avoirs = s.avoirs → Q none s')
    (hsome : ∀ adr s', s.tasUser.Libre ⟨adr, n⟩ →
      s'.avoirs = { s.avoirs with tasUser := s.tasUser.ajoute ⟨adr, n⟩ } → Q (some adr) s') :
    wp (fun _ => True) (userStackAlloc n) Q s := by
  rw [userStackAlloc, wp_bind, wp_get]
  cases s.materiel.userStackAlloc s.prochainUser with
  | none => exact hnone _ rfl
  | some adr =>
    dsimp only
    rw [wp_ite]
    exact ⟨fun h => hsome adr _ h rfl, fun _ => hnone _ rfl⟩

theorem tenu_start (ssize : Nat) (prio : Int) (name : Nom) (arg : BitVec 32) :
    Tenu (start ssize prio name arg) := by
  have hrefus : ∀ pid, Tenu (do addPid pid; pure (.retour (-1)) : M Suite) := fun pid =>
    .of_bind (tenu_addPid pid) fun _ => .of_pure _
  refine .of_bind tenu_newPid fun pid => .of_ite (.of_pure _) (.of_ite (hrefus pid) ?_)
  dsimp only
  refine .of_ite (hrefus pid) fun s d hd => ?_
  rw [wp_bind]
  refine wp_allocProcessus_avoirs (fun s₁ h₁ => ?_) fun s₁ h₁ => ?_
  · have hd₁ : Bilan s₁.avoirs d := by
      rw [h₁]
      exact hd.refuse
    refine wp_imp (hrefus pid s₁ d hd₁) fun _ _ h => ⟨h.1, h.2.trans ?_⟩
    exact (congrArg Avoirs.recoltes h₁ :)
  · -- the structure is pending until `startProc` completes it
    have hd₁ : Bilan (s₁.avoirs.sans s.prochain) ((s.prochain, sizeofProcessus) ::ₘ d) := by
      rw [h₁]
      exact hd.concu
    have hr₁ : s₁.avoirs.recoltes = s.avoirs.recoltes := (congrArg Avoirs.recoltes h₁ :)
    dsimp only
    rw [wp_bind]
    rw [← hr₁]
    refine wp_userStackAlloc_avoirs (fun s₂ h₂ => ?_) fun pileUser s₂ hlib h₂ => ?_
    · rw [← h₂] at hd₁ ⊢
      exact wp_annule hd₁ (m := pure ()) fun s₃ _ hd₃ => ⟨hd₃, rfl⟩
    · -- the stack belongs to the new process
      obtain ⟨hd₂, hg⟩ := hd₁.ajoutePile hlib
      have hd₂ : Bilan (s₂.avoirs.sans s.prochain) ((s.prochain, sizeofProcessus) ::ₘ d) := by
        rw [h₂]
        exact hd₂
      have hg : s₂.avoirs.Garde s.prochain ⟨pileUser, ssize + USER_STACK_SIZE * 4⟩ := by
        rw [h₂]
        exact hg
      have hr₂ : s₂.avoirs.recoltes = s₁.avoirs.recoltes := (congrArg Avoirs.recoltes h₂ :)
      rw [← hr₂]
      dsimp only
      rw [wp_bind]
      refine wp_memAlloc_avoirs (fun s₃ h₃ => ?_) fun s₃ h₃ => ?_
      · have hd₃ : Bilan (s₃.avoirs.sans s.prochain) ((s.prochain, sizeofProcessus) ::ₘ d) := by
          rw [h₃]
          exact hd₂.refuse
        refine wp_imp (wp_annule hd₃ fun s₄ h₄ hd₄ => wp_userStackFree_bilan hd₄ ?_) fun _ _ h =>
          ⟨h.1, h.2.trans ?_⟩
        · rw [h₄, h₃]
          exact hg
        · exact (congrArg Avoirs.recoltes h₃ :)
      · have hd₃ : Bilan (s₃.avoirs.sans s.prochain) ((s₂.prochain, KERNEL_STACK_SIZE * 4) ::ₘ
            (s.prochain, sizeofProcessus) ::ₘ d) := by
          rw [h₃]
          exact hd₂.alloue _
        have hA : s₃.avoirs = { s.avoirs.concu.alloue (KERNEL_STACK_SIZE * 4) with
            tasUser := s₁.tasUser.ajoute ⟨pileUser, ssize + USER_STACK_SIZE * 4⟩ } := by
          rw [h₃, h₂, h₁]
          rfl
        have hvivant : s₃.avoirs.vivant s.prochain = true := by
          rw [hA]
          exact Function.update_self _ _ _
        have hproc : s₃.avoirs.processus s.prochain = ([], (0, 0), ⟨0, 0⟩) := by
          rw [hA]
          exact Function.update_self _ _ _
        have hidle : s.prochain ≠ s₃.avoirs.procIdle := by
          rw [hA]
          exact hd.idle.1.ne'
        have hlt : s.prochain < s₃.avoirs.prochain := by
          rw [hA]
          exact Nat.lt_succ_of_lt (Nat.lt_succ_self _)
        have hg₃ : s₃.avoirs.Garde s.prochain ⟨pileUser, ssize + USER_STACK_SIZE * 4⟩ := by
          rw [h₃]
          exact hg
        refine wp_imp (wp_startProc_bilan hd₃ hvivant (congrArg Prod.fst hproc) hidle hlt hg₃)
          fun _ _ h => ⟨h.1, h.2.trans ?_⟩
        exact (congrArg Avoirs.recoltes h₃ :)

end

end GenesisOS
