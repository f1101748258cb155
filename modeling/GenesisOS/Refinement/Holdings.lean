import GenesisOS.Refinement.Balance
import GenesisOS.Refinement.History

/-!
# GenesisOS — the balance of files, semaphores and history

The remaining services keep the balance: messages, files and semaphores move between
the heap and their tables, and a full history frees its oldest entry for the new one.
Creating a file or a semaphore needs that a free identifier names an empty entry.
-/

namespace GenesisOS

open Lib

namespace Bilan

variable {A : Avoirs} {d d' : Multiset (Ptr × Nat)} {i : Int}

/-- Another file in an entry of the table. -/
theorem change_fichier {x : Option File} (h : Bilan A d) (h0 : 0 ≤ i) (hN : i < NBQUEUE)
    (hx : Avoirs.duFichier x + d' = Avoirs.duFichier (A.tableauFile i) + d) :
    Bilan { A with tableauFile := Function.update A.tableauFile i x } d' := by
  refine h.transfere (add_right_cancel (b := Avoirs.duFichier (A.tableauFile i)) ?_) rfl rfl rfl rfl rfl
    fun _ _ => rfl
  rw [add_right_comm, Avoirs.possede_fichier h0 hN, add_assoc, hx]
  abel

/-- Another semaphore in an entry of the table. -/
theorem change_semaphore {x : Option Ptr} (h : Bilan A d) (h0 : 0 ≤ i) (hN : i < NBSEM)
    (hx : Avoirs.duSemaphore x + d' = Avoirs.duSemaphore (A.tableauSem i) + d) :
    Bilan { A with tableauSem := Function.update A.tableauSem i x } d' := by
  refine h.transfere (add_right_cancel (b := Avoirs.duSemaphore (A.tableauSem i)) ?_) rfl rfl rfl rfl rfl
    fun _ _ => rfl
  rw [add_right_comm, Avoirs.possede_semaphore h0 hN, add_assoc, hx]
  abel

end Bilan

section

variable {α β : Type} {s : Kernel} {p a : Ptr} {n : Nat} {l : Lieu} {d : Multiset (Ptr × Nat)}
  {fid sid : Int} {f : File}

-- ---------------------------------------------------------------------------
-- Files
-- ---------------------------------------------------------------------------

/-- The blocks of a list of messages. -/
def Avoirs.desMessages (l : List Message) : Multiset (Ptr × Nat) :=
  (l.map fun m => (m.adr, sizeofMessage) : List (Ptr × Nat))

theorem Avoirs.duFichier_some (f : File) :
    Avoirs.duFichier (some f) = {(f.adr, sizeofFile)} + Avoirs.desMessages f.queueMsg := rfl

theorem fid_valide (h : isFidValideAndExist s fid = true) : 0 ≤ fid ∧ fid < NBQUEUE := by
  unfold isFidValideAndExist at h
  rw [Bool.and_eq_true, Bool.and_eq_true, decide_eq_true_eq, decide_eq_true_eq] at h
  exact h.1

/-- A message moves from the heap to the file. -/
theorem tenu_addMsg {v : Int} (h0 : 0 ≤ fid) (hN : fid < NBQUEUE)
    (hf : s.tableauFile fid = some f) : TenuEn (addMsg fid f v) s := by
  refine .of_wp ((discret_assertion _ _).avoirs s) fun _ s₁ h₁ d hd => ?_
  have hf₁ : s₁.avoirs.tableauFile fid = some f := h₁ ▸ hf
  rw [wp_bind]
  refine wp_memAllocNonNul_bilan hd fun s₂ h₂ hd₂ => ?_
  refine ⟨hd₂.change_fichier (x := some { f with
    queueMsg := insertByKey (fun _ => (0 : Int)) ⟨s₁.prochain, v⟩ f.queueMsg }) h0 hN ?_,
    (congrArg Avoirs.recoltes h₂ :)⟩
  have hperm : Avoirs.desMessages (insertByKey (fun _ => (0 : Int)) ⟨s₁.prochain, v⟩ f.queueMsg) =
      (s₁.prochain, sizeofMessage) ::ₘ Avoirs.desMessages f.queueMsg := by
    have hp := List.perm_orderedInsert (fun _ _ : Message => (0 : Int) ≤ 0)
      (⟨s₁.prochain, v⟩ : Message) f.queueMsg
    exact Multiset.coe_eq_coe.mpr (hp.map _)
  have hf₂ : s₂.avoirs.tableauFile fid = some f := by rw [h₂]; exact hf₁
  rw [hf₂, Avoirs.duFichier_some, Avoirs.duFichier_some, hperm, Multiset.add_cons,
    Multiset.cons_add, Multiset.add_cons]

/-- The oldest message moves back to the heap, and is freed. -/
theorem wp_retireMsg_bilan (h0 : 0 ≤ fid) (hN : fid < NBQUEUE) (hf : s.tableauFile fid = some f)
    (hd : Bilan s.avoirs d) : wp (fun _ => True) (retireMsg fid f) (fun x s' =>
      (Bilan s'.avoirs d ∧ s'.avoirs.recoltes = s.avoirs.recoltes) ∧
        s'.tableauFile fid = some x.1) s := by
  rw [retireMsg]
  cases hl : f.queueMsg.getLast? with
  | none => trivial
  | some msg =>
    simp only [ecrireFile, surCore, wp_bind, wp_modify]
    refine wp_memFree_bilan (d := d) (hd.change_fichier h0 hN ?_) fun s₁ h₁ hd₁ => ?_
    · have hf' : s.avoirs.tableauFile fid = some f := hf
      have hperm : Avoirs.desMessages f.queueMsg =
          (msg.adr, sizeofMessage) ::ₘ Avoirs.desMessages f.queueMsg.dropLast :=
        Multiset.coe_eq_coe.mpr ((perm_dropLast hl).map _)
      rw [hf', Avoirs.duFichier_some, Avoirs.duFichier_some, hperm, Multiset.add_cons,
        Multiset.add_cons, Multiset.cons_add]
    · refine ⟨⟨hd₁, (congrArg Avoirs.recoltes h₁ :)⟩, ?_⟩
      exact (congrFun (congrArg Avoirs.tableauFile h₁) fid).trans (Function.update_self _ _ _)

/-- All messages are freed while the file is being emptied. -/
theorem tenu_libereMessages (h0 : 0 ≤ fid) (hN : fid < NBQUEUE)
    (hf : s.tableauFile fid = some f) (hd : Bilan s.avoirs d) :
    wp (fun _ => True) (libereMessages fid f) (fun _ s' =>
      (Bilan s'.avoirs d ∧ s'.avoirs.recoltes = s.avoirs.recoltes) ∧
        s'.tableauFile fid = some { f with queueMsg := [] }) s := by
  have hd' : Bilan { s.avoirs with
      tableauFile := Function.update s.tableauFile fid (some { f with queueMsg := [] }) }
        (Avoirs.desMessages f.queueMsg.reverse + d) := by
    refine hd.change_fichier h0 hN ?_
    have hf' : s.avoirs.tableauFile fid = some f := hf
    have hperm : Avoirs.desMessages f.queueMsg.reverse = Avoirs.desMessages f.queueMsg :=
      Multiset.coe_eq_coe.mpr ((List.reverse_perm _).map _)
    rw [hf', Avoirs.duFichier_some, Avoirs.duFichier_some, hperm]
    show _ + 0 + _ = _
    abel
  rw [libereMessages, wp_bind]
  refine wp_imp (wp_forM (I := fun (l : List Message) s' => Bilan { s'.avoirs with
    tableauFile := Function.update s.tableauFile fid (some { f with queueMsg := [] }) }
      (Avoirs.desMessages l + d) ∧ s'.tableauFile = s.tableauFile ∧
        s'.avoirs.recoltes = s.avoirs.recoltes) ?_ f.queueMsg.reverse ⟨hd', rfl, rfl⟩) ?_
  · rintro msg l s₁ ⟨hd₁, ht, hr⟩
    refine wp_memFree_avoirs fun s₂ _ h₂ => ⟨?_, ?_, ?_⟩
    · have hc : Bilan { s₁.avoirs with
          tableauFile := Function.update s.tableauFile fid (some { f with queueMsg := [] }) }
            ((msg.adr, sizeofMessage) ::ₘ (Avoirs.desMessages l + d)) := by
        rw [← Multiset.cons_add]
        exact hd₁
      rw [h₂]
      exact hc.libere
    · exact (congrArg Avoirs.tableauFile h₂ :).trans ht
    · exact (congrArg Avoirs.recoltes h₂ :).trans hr
  · rintro _ s₁ ⟨hd₁, ht, hr⟩
    rw [show Avoirs.desMessages [] + d = d from zero_add d] at hd₁
    simp only [ecrireFile, surCore, wp_bind, wp_modify]
    refine wp_mono ((discret_note (.vide f.adr) rfl).avoirs _) (fun _ _ => trivial) fun _ s₂ h₂ => ?_
    rw [h₂]
    refine ⟨⟨?_, hr⟩, ?_⟩
    · rw [← ht] at hd₁
      exact hd₁
    · exact (congrFun (congrArg Avoirs.tableauFile h₂) fid).trans (Function.update_self _ _ _)

/-- An identifier that is taken names an entry of the table. -/
theorem wp_newFid_entree (h : ∀ c ∈ s.fidListe, s.tableauFile c.fid = none) :
    wp (fun _ => True) newFid (fun fid s' => fid = -1 ∨ s'.tableauFile fid = none) s := by
  rw [newFid, wp_bind, wp_get]
  cases hl : s.fidListe.getLast? with
  | none => exact .inl rfl
  | some cell =>
    simp only [surCore, wp_bind, wp_modify]
    refine wp_memFree_avoirs fun s₁ _ h₁ => .inr ?_
    exact (congrFun (congrArg Avoirs.tableauFile h₁) _).trans (h cell (List.mem_of_getLast? hl))

theorem tenu_pcreate (h : ∀ c ∈ s.fidListe, s.tableauFile c.fid = none) (n : Int) :
    TenuEn (pcreate n) s := by
  refine .of_ite (fun _ => Tenu.of_pure _ s) fun _ d hd => ?_
  rw [wp_bind]
  refine wp_imp (wp_and (tenu_newFid s d hd) (wp_newFid_entree h)) fun fid s₁ ⟨⟨hd₁, hr₁⟩, hfid⟩ => ?_
  rw [wp_ite]
  refine ⟨fun _ => ⟨hd₁, hr₁⟩, fun hval => ?_⟩
  have hval' : 0 ≤ fid ∧ fid < NBQUEUE := by
    unfold isFidValide at hval
    simpa using hval
  have hvide : s₁.tableauFile fid = none := hfid.resolve_left (by omega)
  rw [wp_bind]
  refine wp_memAllocNonNul_bilan hd₁ fun s₂ h₂ hd₂ => ?_
  have hvide₂ : s₂.avoirs.tableauFile fid = none := by rw [h₂]; exact hvide
  refine ⟨hd₂.change_fichier (x := some ⟨s₁.prochain, fid, n, []⟩) hval'.1 hval'.2 ?_, ?_⟩
  · rw [hvide₂, Avoirs.duFichier_some]
    show {(s₁.prochain, sizeofFile)} + 0 + d = 0 + (_ ::ₘ d)
    rw [add_zero, zero_add, Multiset.singleton_add]
  · exact (congrArg Avoirs.recoltes h₂ :).trans hr₁

/-- `pdelete` and `preset` up to the release of the messages. -/
theorem wp_vide_bilan {m : Bool → M Suite} (h : isFidValideAndExist s fid = true)
    (hf : s.tableauFile fid = some f) (hm : ∀ b s', s'.tableauFile fid =
      some { f with queueMsg := [] } → TenuEn (m b) s') : TenuEn (do
        let elu ← lire .noyau s.procElu
        let callOrdonnanceur ← echoueAttente fid f elu.prio
        libereMessages fid f
        m callOrdonnanceur) s := by
  obtain ⟨h0, hN⟩ := fid_valide h
  refine .of_wp ((discret_lire _ _).avoirs s) fun elu s₁ h₁ => ?_
  refine .of_wp ((discret_echoueAttente _ _ _).avoirs s₁) fun b s₂ h₂ d hd => ?_
  have hf₂ : s₂.tableauFile fid = some f :=
    (congrFun (congrArg Avoirs.tableauFile (h₂.trans h₁)) fid).trans hf
  rw [wp_bind]
  refine wp_imp (tenu_libereMessages h0 hN hf₂ hd) fun _ s₃ ⟨⟨hd₃, hr₃⟩, hf₃⟩ => ?_
  exact wp_imp (hm b s₃ hf₃ d hd₃) fun _ _ h => ⟨h.1, h.2.trans hr₃⟩

theorem tenu_pdelete (fid : Int) : Tenu (pdelete fid) := by
  intro s
  refine .of_get (.of_ite (fun _ => Tenu.of_pure _ s) fun h => ?_)
  have h : isFidValideAndExist s fid = true := by simpa using h
  obtain ⟨h0, hN⟩ := fid_valide h
  cases hf : s.tableauFile fid with
  | none => exact Tenu.of_throw s
  | some f =>
    refine wp_vide_bilan h hf fun b s₁ hf₁ d hd => ?_
    -- the structure of the file is pending until it is freed
    have hd' : Bilan ({ s₁ with toCore := { s₁.toCore with
        tableauFile := Function.update s₁.tableauFile fid none } } : Kernel).avoirs
          ((f.adr, sizeofFile) ::ₘ d) := by
      refine hd.change_fichier h0 hN ?_
      rw [show s₁.avoirs.tableauFile fid = some { f with queueMsg := [] } from hf₁,
        Avoirs.duFichier_some]
      show 0 + _ = {(f.adr, sizeofFile)} + 0 + d
      rw [zero_add, add_zero, Multiset.singleton_add]
    simp only [surCore, wp_bind, wp_modify]
    refine wp_imp (tenu_addFid fid _ _ hd') ?_
    rintro _ s₂ ⟨hd₂, hr₂⟩
    refine wp_memFree_bilan hd₂ fun s₃ h₃ hd₃ => ⟨hd₃, ?_⟩
    exact (congrArg Avoirs.recoltes h₃ :).trans hr₂

theorem tenu_preset (fid : Int) : Tenu (preset fid) := by
  intro s
  refine .of_get (.of_ite (fun _ => Tenu.of_pure _ s) fun h => ?_)
  have h : isFidValideAndExist s fid = true := by simpa using h
  cases hf : s.tableauFile fid with
  | none => exact Tenu.of_throw s
  | some f => exact wp_vide_bilan h hf fun b s₁ _ => Tenu.of_pure _ s₁

theorem tenu_psend (fid v : Int) : Tenu (psend fid v) := by
  intro s
  refine .of_get (.of_ite (fun _ => Tenu.of_pure _ s) fun h => ?_)
  have h : isFidValideAndExist s fid = true := by simpa using h
  obtain ⟨h0, hN⟩ := fid_valide h
  cases hf : s.tableauFile fid with
  | none => exact Tenu.of_throw s
  | some f =>
    refine .of_wp ((discret_lire _ _).avoirs s) fun elu s₁ h₁ => ?_
    refine .of_wp ((discret_note _ rfl).avoirs s₁) fun _ s₂ h₂ => ?_
    refine .of_wp ((discret_ecrire _ _ _ (by intro _; rfl)).avoirs s₂) fun _ s₃ h₃ => ?_
    have hf₃ : s₃.tableauFile fid = some f :=
      (congrFun (congrArg Avoirs.tableauFile (h₃.trans (h₂.trans h₁))) fid).trans hf
    refine .of_ite (fun _ => ?_) fun _ => .of_ite (fun _ => ?_) fun _ => ?_
    · refine Tenu.of_bind (.of_discret (discret_retireProc _)) (fun q => ?_) s₃
      refine .of_bind (.of_discret (discret_ecrire _ _ _ fun _ => rfl)) fun _ => ?_
      refine .of_bind (.of_discret (discret_note _ rfl)) fun _ => ?_
      refine .of_bind (.of_discret (discret_note _ rfl)) fun _ => ?_
      refine .of_bind (.of_discret (discret_queueAdd _ _ _)) fun _ => ?_
      exact .of_bind (.of_discret (discret_lire _ _)) fun _ => .of_pure _
    · exact Tenu.of_bind (.of_discret (discret_addProc _ _ _)) (fun _ => .of_pure _) s₃
    · refine (tenu_addMsg h0 hN hf₃).of_bind fun _ => ?_
      exact .of_bind (.of_discret (discret_note _ rfl)) fun _ => .of_pure _

theorem tenu_preceive (fid : Int) (message : Nat) : Tenu (preceive fid message) := by
  intro s
  refine .of_get (.of_ite (fun _ => Tenu.of_pure _ s) fun h => ?_)
  have h : isFidValideAndExist s fid = true := by simpa using h
  obtain ⟨h0, hN⟩ := fid_valide h
  cases hf : s.tableauFile fid with
  | none => exact Tenu.of_throw s
  | some f =>
    refine .of_wp ((discret_lire _ _).avoirs s) fun elu s₁ h₁ => ?_
    refine .of_wp ((discret_note _ rfl).avoirs s₁) fun _ s₂ h₂ => ?_
    refine .of_wp ((discret_ecrire _ _ _ (by intro _; rfl)).avoirs s₂) fun _ s₃ h₃ => ?_
    have hf₃ : s₃.tableauFile fid = some f :=
      (congrFun (congrArg Avoirs.tableauFile (h₃.trans (h₂.trans h₁))) fid).trans hf
    refine .of_ite (fun _ => ?_) fun _ d hd => ?_
    · exact Tenu.of_bind (.of_discret (discret_addProc _ _ _)) (fun _ => .of_pure _) s₃
    rw [wp_bind]
    refine wp_imp (wp_retireMsg_bilan h0 hN hf₃ hd) ?_
    rintro ⟨f', val⟩ s₄ ⟨⟨hd₄, hr₄⟩, hf₄⟩
    have hsuite : ∀ {m : M Suite}, TenuEn m s₄ → wp (fun _ => True) m (fun _ s' =>
        Bilan s'.avoirs d ∧ s'.avoirs.recoltes = s₃.avoirs.recoltes) s₄ :=
      fun hm => wp_imp (hm d hd₄) fun _ _ h => ⟨h.1, h.2.trans hr₄⟩
    have hlu : Keeps (fun _ => True) Kernel.avoirs
        (if message ≠ 0 then ecrireMot message (BitVec.ofInt 32 val) else pure ()) :=
      .of_ite (keeps_ecrireMot_avoirs _ _) (.of_pure _)
    -- the entry still holds the file when a blocked sender is let in
    have hfin : ∀ s₅ : Kernel, s₅.tableauFile fid = some f' → TenuEn (do
        let s ← get
        if s.elems (.file fid) ≠ [] then do
          let proc ← retireProc fid
          let r ← lire .preceive proc
          ecrire .preceive proc fun r => { r with fid := -1 }
          let _ ← addMsg fid f' r.fileValue
          note (.accepte f'.adr proc r.fileValue)
          ecrire .preceive proc fun r => { r with operationStatus := 1, etat := .activable }
          queueAdd proc .procActivables (·.prio)
          pure (finFile (r.prio > elu.prio))
        else pure (.retour 0) : M Suite) s₅ := by
      intro s₅ hf₅
      refine .of_get (.of_ite (fun _ => ?_) fun _ => Tenu.of_pure _ s₅)
      refine .of_wp ((discret_retireProc _).avoirs s₅) fun q s₆ h₆ => ?_
      refine .of_wp ((discret_lire _ _).avoirs s₆) fun r s₇ h₇ => ?_
      refine .of_wp ((discret_ecrire _ _ _ (by intro _; rfl)).avoirs s₇) fun _ s₈ h₈ => ?_
      have hf₈ : s₈.tableauFile fid = some f' :=
        (congrFun (congrArg Avoirs.tableauFile (h₈.trans (h₇.trans h₆))) fid).trans hf₅
      refine (tenu_addMsg h0 hN hf₈).of_bind fun _ => ?_
      refine .of_bind (.of_discret (discret_note _ rfl)) fun _ => ?_
      refine .of_bind (.of_discret (discret_ecrire _ _ _ fun _ => rfl)) fun _ => ?_
      exact .of_bind (.of_discret (discret_queueAdd _ _ _)) fun _ => .of_pure _
    refine hsuite (.of_wp ((discret_note _ rfl).avoirs s₄) fun _ s₅ h₅ => ?_)
    have hf₅ : s₅.tableauFile fid = some f' :=
      (congrFun (congrArg Avoirs.tableauFile h₅) fid).trans hf₄
    refine .of_ite (fun h => ?_) fun h => hfin s₅ hf₅
    refine .of_wp (keeps_ecrireMot_avoirs _ _ s₅) fun _ s₆ h₆ => hfin s₆ ?_
    exact (congrFun (congrArg Avoirs.tableauFile h₆) fid).trans hf₅

theorem tenu_preceiveReprise (message : Nat) : Tenu (preceiveReprise message) := by
  refine .of_get fun s => .of_bind (.of_discret (discret_lire _ _)) fun elu => ?_
  refine .of_ite (.of_pure _) ?_
  dsimp only
  refine .of_ite ?_ (.of_pure _)
  exact .of_bind (.of_keeps (keeps_ecrireMot_avoirs _ _)) fun _ => .of_pure _

theorem tenu_pcount (fid : Int) (count : Nat) : Tenu (pcount fid count) := by
  refine .of_get fun s => .of_ite (.of_pure _) ?_
  cases s.tableauFile fid with
  | none => exact .of_throw
  | some f =>
    refine .of_ite ?_ (.of_pure _)
    dsimp only
    refine .of_ite ?_ ?_
    · exact .of_bind (.of_keeps (keeps_ecrireMot_avoirs _ _)) fun _ => .of_pure _
    · exact .of_bind (.of_keeps (keeps_ecrireMot_avoirs _ _)) fun _ => .of_pure _

-- ---------------------------------------------------------------------------
-- Semaphores
-- ---------------------------------------------------------------------------

theorem sid_valide (h : isSidValideAndExist s sid = true) : 0 ≤ sid ∧ sid < NBSEM := by
  unfold isSidValideAndExist at h
  rw [Bool.and_eq_true, Bool.and_eq_true, decide_eq_true_eq, decide_eq_true_eq] at h
  exact h.1

/-- Another counter for a semaphore. -/
theorem tenu_ecrireSem {sem sem' : Semaphore} (hs : s.tableauSem sid = some sem)
    (ha : sem'.adr = sem.adr) :
    wp (fun _ => True) (ecrireSem sid sem') (fun _ s' => s'.avoirs = s.avoirs) s := by
  have ht : (fun i => (Function.update s.tableauSem sid (some sem') i).map Semaphore.adr) =
      fun i => (s.tableauSem i).map Semaphore.adr := by
    funext i
    by_cases hi : i = sid
    · rw [hi, Function.update_self, hs, Option.map_some, Option.map_some, ha]
    · rw [Function.update_of_ne hi]
  show ({ s.avoirs with tableauSem := fun i =>
    (Function.update s.tableauSem sid (some sem') i).map Semaphore.adr } : Avoirs) = _
  rw [ht]
  rfl

/-- The services that only change the counter of an existing semaphore. -/
theorem tenu_signal (sid : Int) : Tenu (signal sid) := by
  intro s
  refine .of_get (.of_ite (fun _ => Tenu.of_pure _ s) fun h => ?_)
  cases hs : s.tableauSem sid with
  | none => exact Tenu.of_throw s
  | some sem =>
    refine .of_ite (fun _ => Tenu.of_pure _ s) fun _ => ?_
    refine .of_wp (tenu_ecrireSem hs rfl) fun _ s₁ _ => ?_
    refine Tenu.of_bind (.of_discret (discret_note _ rfl)) (fun _ => .of_ite ?_ (.of_pure _)) s₁
    refine .of_bind (.of_discret (discret_queueOut _)) fun o => ?_
    cases o with
    | none => exact .of_throw
    | some q =>
      refine .of_bind (.of_discret (discret_ecrire _ _ _ fun _ => rfl)) fun _ => ?_
      refine .of_bind (.of_discret (discret_queueAdd _ _ _)) fun _ => ?_
      exact .of_bind (.of_discret (discret_note _ rfl)) fun _ => .of_pure _

theorem tenu_signalFois (sid : Int) (n : Nat) : Tenu (signalFois sid n) := by
  induction n with
  | zero => exact .of_pure _
  | succ n ih => exact .of_bind (tenu_signal sid) fun _ => ih

theorem tenu_signaln (sid n : Int) : Tenu (signaln sid n) := by
  refine .of_get fun s => .of_ite (.of_pure _) ?_
  cases s.tableauSem sid with
  | none => exact .of_throw
  | some sem => exact .of_ite (.of_pure _) (.of_bind (tenu_signalFois _ _) fun _ => .of_pure _)

theorem tenu_tryWait (sid : Int) : Tenu (tryWait sid) := by
  intro s
  refine .of_get (.of_ite (fun _ => Tenu.of_pure _ s) fun h => ?_)
  cases hs : s.tableauSem sid with
  | none => exact Tenu.of_throw s
  | some sem =>
    refine .of_ite (fun _ => Tenu.of_pure _ s) fun _ => .of_ite (fun _ => Tenu.of_pure _ s) fun _ => ?_
    refine .of_wp (tenu_ecrireSem hs rfl) fun _ s₁ _ => ?_
    refine Tenu.of_bind (.of_discret (discret_note _ rfl)) (fun _ => ?_) s₁
    exact .of_bind (.of_discret (discret_note _ rfl)) fun _ => .of_pure _

theorem tenu_wait (sid : Int) : Tenu (wait sid) := by
  intro s
  refine .of_get (.of_ite (fun _ => Tenu.of_pure _ s) fun h => ?_)
  cases hs : s.tableauSem sid with
  | none => exact Tenu.of_throw s
  | some sem =>
    refine .of_ite (fun _ => Tenu.of_pure _ s) fun _ => ?_
    refine .of_wp (tenu_ecrireSem hs rfl) fun _ s₁ _ => ?_
    refine Tenu.of_bind (.of_discret (discret_note _ rfl)) (fun _ => .of_ite ?_ ?_) s₁
    · refine .of_bind (.of_discret (discret_ecrire _ _ _ fun _ => rfl)) fun _ => ?_
      exact .of_bind (.of_discret (discret_queueAdd _ _ _)) fun _ => .of_pure _
    · exact .of_bind (.of_discret (discret_note _ rfl)) fun _ => .of_pure _

theorem tenu_sreset (sid n : Int) : Tenu (sreset sid n) := by
  intro s
  refine .of_get (.of_ite (fun _ => Tenu.of_pure _ s) fun h => ?_)
  cases hs : s.tableauSem sid with
  | none => exact Tenu.of_throw s
  | some sem =>
    refine .of_wp ((discret_rejetteAttente _ _ _).avoirs s) fun _ s₁ h₁ => ?_
    obtain ⟨sem₁, hs₁, ha⟩ : ∃ sem₁, s₁.tableauSem sid = some sem₁ ∧ sem.adr = sem₁.adr := by
      have h := congrFun (congrArg Avoirs.tableauSem h₁) sid
      have h' : (s₁.tableauSem sid).map Semaphore.adr = some sem.adr := by
        refine h.trans ?_
        show (s.tableauSem sid).map Semaphore.adr = _
        rw [hs]
        rfl
      obtain ⟨sem₁, hs₁, ha⟩ := Option.map_eq_some_iff.mp h'
      exact ⟨sem₁, hs₁, ha.symm⟩
    exact .of_wp (tenu_ecrireSem hs₁ ha) fun _ s₂ _ => Tenu.of_pure _ s₂

theorem wp_newSid_entree (h : ∀ c ∈ s.sidListe, 0 ≤ c.sid ∧ c.sid < NBSEM ∧
    s.tableauSem c.sid = none) : wp (fun _ => True) newSid (fun sid s' => sid = -1 ∨
      0 ≤ sid ∧ sid < NBSEM ∧ s'.avoirs.tableauSem sid = none) s := by
  rw [newSid, wp_bind, wp_get]
  cases hl : s.sidListe.getLast? with
  | none => exact .inl rfl
  | some cell =>
    obtain ⟨h0, hN, hs⟩ := h cell (List.mem_of_getLast? hl)
    simp only [surCore, wp_bind, wp_modify]
    refine wp_memFree_avoirs fun s₁ _ h₁ => .inr ⟨h0, hN, ?_⟩
    have ht : s₁.avoirs.tableauSem cell.sid = (s.tableauSem cell.sid).map Semaphore.adr :=
      congrFun (congrArg Avoirs.tableauSem h₁) _
    rw [ht, hs]
    rfl

theorem avoirs_ecrireSem (sem : Semaphore) :
    ({ s with toCore := { s.toCore with
      tableauSem := Function.update s.tableauSem sid (some sem) } } : Kernel).avoirs =
        { s.avoirs with
          tableauSem := Function.update s.avoirs.tableauSem sid (some sem.adr) } := by
  have ht : (fun i => (Function.update s.tableauSem sid (some sem) i).map Semaphore.adr) =
      Function.update s.avoirs.tableauSem sid (some sem.adr) := by
    funext i
    rw [Function.update_apply, Function.update_apply]
    split <;> rfl
  show ({ s.avoirs with tableauSem := fun i =>
    (Function.update s.tableauSem sid (some sem) i).map Semaphore.adr } : Avoirs) = _
  rw [ht]

theorem tenu_screate (h : ∀ c ∈ s.sidListe, 0 ≤ c.sid ∧ c.sid < NBSEM ∧
    s.tableauSem c.sid = none) (n : Int) : TenuEn (screate n) s := by
  rw [screate]
  refine .of_ite (fun _ => Tenu.of_pure _ s) fun _ d hd => ?_
  rw [wp_bind]
  refine wp_imp (wp_and (tenu_newSid s d hd) (wp_newSid_entree h)) fun sid s₁ ⟨⟨hd₁, hr₁⟩, hsid⟩ => ?_
  rw [wp_ite]
  refine ⟨fun _ => ⟨hd₁, hr₁⟩, fun hne => ?_⟩
  obtain ⟨h0, hN, hvide⟩ := hsid.resolve_left hne
  rw [wp_bind]
  refine wp_memAlloc_bilan hd₁ (fun s₂ h₂ hd₂ => ?_) fun s₂ h₂ hd₂ => ?_
  · have hr₂ : s₂.avoirs.recoltes = s₁.avoirs.recoltes := (congrArg Avoirs.recoltes h₂ :)
    refine wp_imp ((Tenu.of_bind (tenu_addSid sid) fun _ => .of_pure _) s₂ d hd₂) fun _ s₃ h₃ => ?_
    exact ⟨h₃.1, (h₃.2.trans hr₂).trans hr₁⟩
  · have hvide₂ : s₂.avoirs.tableauSem sid = none := by rw [h₂]; exact hvide
    have hr₂ : s₂.avoirs.recoltes = s.avoirs.recoltes :=
      (congrArg Avoirs.recoltes h₂ :).trans hr₁
    dsimp only
    rw [wp_bind]
    have hliste : ∀ t, Discret (initListHead t) := fun t => discret_surCore fun _ => rfl
    refine wp_mono ((hliste _).avoirs s₂) (fun _ _ => trivial) fun _ s₃ h₃ => ?_
    simp only [ecrireSem, surCore, wp_bind, wp_modify]
    refine wp_mono ((discret_note _ rfl).avoirs _) (fun _ _ => trivial) fun _ s₄ h₄ => ?_
    rw [wp_pure, h₄, avoirs_ecrireSem, h₃]
    refine ⟨hd₂.change_semaphore h0 hN ?_, hr₂⟩
    rw [hvide₂]
    show {(s₁.prochain, sizeofSemaphore)} + d = 0 + (_ ::ₘ d)
    rw [zero_add, Multiset.singleton_add]

theorem tenu_sdelete (sid : Int) : Tenu (sdelete sid) := by
  intro s
  refine .of_get (.of_ite (fun _ => Tenu.of_pure _ s) fun h => ?_)
  have h : isSidValideAndExist s sid = true := by simpa using h
  obtain ⟨h0, hN⟩ := sid_valide h
  cases hs : s.tableauSem sid with
  | none => exact Tenu.of_throw s
  | some sem =>
    refine .of_wp ((discret_rejetteAttente _ _ _).avoirs s) fun _ s₁ h₁ d hd => ?_
    have hs₁ : s₁.avoirs.tableauSem sid = some sem.adr := by
      rw [h₁]
      show (s.tableauSem sid).map Semaphore.adr = _
      rw [hs]
      rfl
    -- the entry is emptied once the structure is freed
    have hd' : Bilan { s₁.avoirs with
        tableauSem := Function.update s₁.avoirs.tableauSem sid none }
          ((sem.adr, sizeofSemaphore) ::ₘ d) := by
      refine hd.change_semaphore h0 hN ?_
      rw [hs₁]
      show 0 + (_ ::ₘ d) = {(sem.adr, sizeofSemaphore)} + d
      rw [zero_add, Multiset.singleton_add]
    rw [wp_bind]
    refine wp_memFree_avoirs fun s₂ _ h₂ => ?_
    simp only [surCore, wp_bind, wp_modify]
    have ht : ({ s₂ with toCore := { s₂.toCore with
        tableauSem := Function.update s₂.tableauSem sid none } } : Kernel).avoirs =
          { s₂.avoirs with
            tableauSem := Function.update s₂.avoirs.tableauSem sid none } := by
      have hx : (fun i => (Function.update s₂.tableauSem sid none i).map Semaphore.adr) =
          Function.update s₂.avoirs.tableauSem sid none := by
        funext i
        rw [Function.update_apply, Function.update_apply]
        split <;> rfl
      show ({ s₂.avoirs with tableauSem := fun i =>
        (Function.update s₂.tableauSem sid none i).map Semaphore.adr } : Avoirs) = _
      rw [hx]
    refine wp_imp (tenu_addSid sid _ d ?_) fun _ s₃ h₃ => ⟨h₃.1, h₃.2.trans ?_⟩
    · rw [ht, h₂]
      exact hd'.libere
    · rw [ht]
      exact (congrArg Avoirs.recoltes h₂ :)

-- ---------------------------------------------------------------------------
-- The history
-- ---------------------------------------------------------------------------

/-- The oldest entry of a full history, apart. -/
theorem possede_decale {h : Ligne} (hi : s.clavier.indexHistory = HISTORY_SIZE)
    (hh : s.clavier.history 0 = some h) : ({ s with clavier := s.clavier.decale } :
      Kernel).avoirs.possede + {(h.adr, h.texte.length + 1)} = s.avoirs.possede := by
  have hsum : ({ s with clavier := s.clavier.decale } : Kernel).avoirs.deLHistorique +
      {(h.adr, h.texte.length + 1)} = s.avoirs.deLHistorique := by
    show ∑ j ∈ Finset.range (s.clavier.indexHistory - 1),
      Avoirs.deLaLigne (s.clavier.decale.history j) + Avoirs.deLaLigne (some h) =
        ∑ j ∈ Finset.range s.clavier.indexHistory, Avoirs.deLaLigne (s.clavier.history j)
    rw [hi, show HISTORY_SIZE = HISTORY_SIZE - 1 + 1 from rfl, Finset.sum_range_succ', hh]
    refine congrArg (· + _) (Finset.sum_congr rfl fun j hj => ?_)
    rw [show s.clavier.decale.history j = s.clavier.history (j + 1) from
      if_pos (Finset.mem_range.mp hj)]
  unfold Avoirs.possede
  rw [← hsum]
  show s.avoirs.desPids + s.avoirs.desProcessus + s.avoirs.desFichiers + s.avoirs.desSemaphores +
    _ + _ = _
  abel

theorem tenu_evince : Tenu evince := by
  intro s
  refine .of_get ?_
  dsimp only
  refine .of_ite (fun hi => ?_) fun _ => Tenu.of_pure _ s
  cases hh : s.clavier.history 0 with
  | none => exact Tenu.of_throw s
  | some h =>
    intro d hd
    -- the entry is out of the history once its block is freed
    have hd' : Bilan ({ s with clavier := s.clavier.decale } : Kernel).avoirs
        ((h.adr, h.texte.length + 1) ::ₘ d) := by
      refine hd.transfere ?_ rfl rfl rfl rfl rfl fun _ _ => rfl
      rw [← possede_decale hi hh, add_assoc, Multiset.singleton_add]
    simp only [memFree, wp_bind, wp_get]
    split
    · exact ⟨hd'.libere, rfl⟩
    · trivial

/-- A new entry, with its block. -/
theorem possede_inscrit (k : Clavier) (a : Ptr) (texte : List UInt8) :
    ({ s with clavier := k.inscrit ⟨a, texte⟩ } : Kernel).avoirs.possede =
      (a, texte.length + 1) ::ₘ ({ s with clavier := k } : Kernel).avoirs.possede := by
  have hsum : ({ s with clavier := k.inscrit ⟨a, texte⟩ } : Kernel).avoirs.deLHistorique =
      ({ s with clavier := k } : Kernel).avoirs.deLHistorique + {(a, texte.length + 1)} := by
    show ∑ j ∈ Finset.range (k.indexHistory + 1), Avoirs.deLaLigne
      (Function.update k.history k.indexHistory (some ⟨a, texte⟩) j) =
        ∑ j ∈ Finset.range k.indexHistory, Avoirs.deLaLigne (k.history j) + _
    rw [Finset.sum_range_succ, Function.update_self]
    refine congrArg (· + _) (Finset.sum_congr rfl fun j hj => ?_)
    rw [Function.update_of_ne (Finset.mem_range.mp hj).ne]
  unfold Avoirs.possede
  rw [hsum, ← Multiset.singleton_add]
  show s.avoirs.desPids + s.avoirs.desProcessus + s.avoirs.desFichiers + s.avoirs.desSemaphores +
    _ = _ + (s.avoirs.desPids + s.avoirs.desProcessus + s.avoirs.desFichiers +
      s.avoirs.desSemaphores + _)
  abel

theorem tenu_pose (texte : List UInt8) : Tenu (pose texte) := by
  intro s d hd
  rw [pose, wp_bind]
  refine wp_memAllocNonNul_bilan hd fun s₁ h₁ hd₁ => ?_
  refine ⟨hd₁.transfere ?_ rfl rfl rfl rfl rfl fun _ _ => rfl,
    (congrArg Avoirs.recoltes h₁ :)⟩
  show ({ s₁ with clavier := s₁.clavier.inscrit ⟨s.prochain, texte⟩ } : Kernel).avoirs.possede + d =
    ({ s₁ with clavier := s₁.clavier } : Kernel).avoirs.possede + _
  rw [possede_inscrit, Multiset.add_cons, Multiset.cons_add]

theorem tenu_memorise (string : Nat) : Tenu (memorise string) := by
  have hmem : memorise string = evince >>= fun _ => lireChaine string >>= pose := rfl
  rw [hmem]
  refine .of_bind tenu_evince fun _ => .of_bind ?_ tenu_pose
  exact .of_keeps (keeps_lireChaineBornee_avoirs _ _)

theorem tenu_copieTampon (string n : Nat) : Tenu (copieTampon string n) := by
  refine .of_forM (fun i => .of_get fun s => ?_) _
  exact .of_ite (.of_modify fun _ => rfl) .of_throw

theorem tenu_consRead (string length : Nat) : Tenu (consRead string length) := by
  have hclavier : ∀ {f : Clavier → Clavier}, Paisible (surClavier f) → Tenu (surClavier f) :=
    fun h => .of_keeps (h.of_map Prod.fst)
  have hmemset : Tenu (memsetUser string length) :=
    .of_ite (.of_pure _) (.of_ite (.of_modify fun _ => rfl) .of_throw)
  refine .of_get fun s => ?_
  dsimp only
  refine .of_ite (.of_pure _) (.of_ite ?_ ?_)
  · refine .of_bind (.of_discret (discret_ecrire _ _ _ fun _ => rfl)) fun _ => ?_
    exact .of_bind (.of_discret (discret_queueAdd _ _ _)) fun _ => .of_pure _
  refine .of_bind hmemset fun _ => .of_bind (hclavier (paisible_surClavier fun _ => ⟨rfl, rfl⟩)) fun _ => ?_
  refine .of_bind (tenu_copieTampon _ _) fun _ => ?_
  have hfin : ∀ (f : Clavier → Clavier) (v : Int), Paisible (surClavier f) →
      Tenu (surClavier f >>= fun _ => pure (Suite.retour v)) := fun f v h =>
    .of_bind (hclavier h) fun _ => .of_pure _
  exact .of_ite
    (.of_bind (tenu_memorise _) fun _ => hfin _ _ (paisible_surClavier fun _ => ⟨rfl, rfl⟩))
    (hfin _ _ (paisible_surClavier fun _ => ⟨rfl, rfl⟩))

theorem tenu_keyboardBoucle (saute : Nat) (str : List UInt8) : Tenu (keyboardBoucle saute str) :=
  .of_keeps ((paisible_keyboardBoucle saute str).of_map Prod.fst)

end

end GenesisOS
