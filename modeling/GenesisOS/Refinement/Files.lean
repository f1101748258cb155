import GenesisOS.Refinement.Termination

/-!
# GenesisOS — message files refine the transitions

The calls of `psend` and `preceive` are also described exactly
(`AppelPsend`, `AppelPreceive` and what follows a block).
-/

namespace GenesisOS

open Lib

section

variable {C : Cadre} {s : Kernel} {R : Unit → Kernel → Prop}

-- ---------------------------------------------------------------------------
-- Identifiers and messages
-- ---------------------------------------------------------------------------

theorem isFidValideAndExist_eq (h : Coherent s.toCore) (fid : Int) :
    isFidValideAndExist s fid = (s.tableauFile fid).isSome := by
  unfold isFidValideAndExist
  cases hf : s.tableauFile fid with
  | none => simp
  | some f =>
    obtain ⟨h0, hN, -⟩ := h.file fid f hf
    simp [h0, hN]

theorem wp_addFid {fid : Int}
    (h : ∀ s', s'.toCore = { s.toCore with
      fidListe := insertByKey FidLibre.fid ⟨s.prochain, fid⟩ s.fidListe
      prochain := s.prochain + 1 } → R () s') : wp C.tolere (addFid fid) R s := by
  simp only [addFid, wp_bind]
  refine wp_memAllocNonNul ?_ rfl
  intro s₁ h₁
  refine wp_surCore ?_
  intro s₂ h₂
  refine h s₂ ?_
  rw [h₂, h₁]
  rfl

theorem wp_newFid {Q : Int → Kernel → Prop} (hnil : s.fidListe = [] → Q (-1) s)
    (hsnoc : ∀ l cell s', s.fidListe = l ++ [cell] →
      s'.toCore = { s.toCore with fidListe := l } → Q cell.fid s') :
    wp C.tolere newFid Q s := by
  simp only [newFid, wp_bind, wp_get]
  cases hl : s.fidListe.getLast? with
  | none => exact hnil (List.getLast?_eq_none_iff.mp hl)
  | some cell =>
    obtain ⟨l, hl⟩ := List.getLast?_eq_some_iff.mp hl
    simp only [wp_bind]
    refine wp_surCore ?_
    intro s₁ h₁
    refine wp_memFree ?_
    intro s₂ h₂
    refine hsnoc l cell s₂ hl ?_
    rw [h₂, h₁]
    simp [hl]

theorem wp_addMsg {Q : File → Kernel → Prop} {fid v : Int} {f : File} (hlt : getNbMsg f < f.maxMsg)
    (h : ∀ s', s'.toCore = (s.toCore.alloue (s.prochain + 1)).majFile fid
      (some { f with queueMsg := ⟨s.prochain, v⟩ :: f.queueMsg }) →
        Q { f with queueMsg := ⟨s.prochain, v⟩ :: f.queueMsg } s') :
    wp C.tolere (addMsg fid f v) Q s := by
  -- all `place` are equal, so that the new message comes first
  have hins : ∀ (m : Message) (l : List Message),
      insertByKey (fun _ => (0 : Int)) m l = m :: l := by
    intro m l
    cases l with
    | nil => rfl
    | cons x l => simp [insertByKey]
  simp only [addMsg, wp_bind]
  refine wp_assertion (by simpa using hlt) ?_
  refine wp_memAllocNonNul ?_ rfl
  intro s₁ h₁
  refine wp_surCore ?_
  intro s₂ h₂
  rw [wp_pure, hins]
  refine h s₂ ?_
  rw [h₂, h₁, hins]
  rfl

theorem wp_retireMsg {Q : File × Int → Kernel → Prop} {fid : Int} {f : File} {l : List Message}
    {msg : Message} (hl : f.queueMsg = l ++ [msg])
    (h : ∀ s', s'.toCore = s.toCore.majFile fid (some { f with queueMsg := l }) →
      Q ({ f with queueMsg := l }, msg.message) s') : wp C.tolere (retireMsg fid f) Q s := by
  have hlast : f.queueMsg.getLast? = some msg := by rw [hl]; simp
  have hdrop : f.queueMsg.dropLast = l := by rw [hl]; simp
  simp only [retireMsg, hlast, hdrop, wp_bind]
  refine wp_surCore ?_
  intro s₁ h₁
  refine wp_memFree ?_
  intro s₂ h₂
  rw [wp_pure]
  refine h s₂ ?_
  rw [h₂, h₁]
  rfl

theorem wp_retireProc {Q : Ptr → Kernel → Prop} {fid : Int} {p : Ptr}
    (hp : s.chainage.top (.file fid) = some p)
    (h : ∀ s', s'.toCore = s.toCore.retire p → Q p s') : wp C.tolere (retireProc fid) Q s := by
  have hpos : 0 < (s.elems (.file fid)).length := List.length_pos_of_mem (LinkedQueues.mem_of_top hp)
  simp only [retireProc, wp_bind, wp_get]
  refine wp_assertion (by simpa [getNbProcs] using hpos) ?_
  refine wp_queueOut ?_ ?_
  · intro hnone
    rw [hp] at hnone
    cases hnone
  · intro q s₁ hq h₁
    rw [hp] at hq
    cases hq
    exact h s₁ h₁

theorem wp_addProc {fid : Int} {f : File} (h : Coherent s.toCore) (he : s.toCore.EnCours)
    (hfid : f.fid = fid) (hR : ∀ s', s'.toCore = s.toCore.bloqueFile fid → R () s') :
    wp C.tolere (addProc fid f s.procElu) R s := by
  simp only [addProc, wp_bind]
  refine wp_queueAdd (h.lien_procElu he) ?_
  intro s₁ h₁
  refine wp_ecrire (by rw [h₁]; exact he.vivant) ?_
  intro s₂ h₂
  refine wp_ecrire (by rw [h₂, h₁]; exact he.vivant) ?_
  intro s₃ h₃
  refine hR s₃ ?_
  rw [h₃, h₂, h₁, hfid]
  rfl

-- ---------------------------------------------------------------------------
-- `pcount` and `pcreate`
-- ---------------------------------------------------------------------------

/-- What `pcount` stores. -/
def Core.compte (s : Core) (fid : Int) (f : File) : Int :=
  if getNbMsg f = 0 then -(s.elems (.file fid)).length
  else getNbMsg f + (s.elems (.file fid)).length

/-- A call of `pcount`. -/
theorem wp_pcount {Q : Suite → Kernel → Prop} (h : Coherent s.toCore) (fid : Int) (count : Nat)
    (hrefus : s.tableauFile fid = none ∨ count = 0 → Q (.retour (-1)) s)
    (hok : ∀ f s', s.tableauFile fid = some f → count ≠ 0 →
      s'.toCore = s.toCore.ecrit count (BitVec.ofInt 32 (s.toCore.compte fid f)) →
        Q (.retour 0) s') : wp C.tolere (pcount fid count) Q s := by
  simp only [pcount, wp_bind, wp_get, isFidValideAndExist_eq h]
  cases hf : s.tableauFile fid with
  | none => exact hrefus (.inl hf)
  | some f =>
    by_cases hcount : count = 0
    · simp only [hcount, Option.isSome_some, Bool.not_true, Bool.false_eq_true, if_false, ne_eq,
        not_true_eq_false, wp_pure]
      exact hrefus (.inr hcount)
    · simp only [Option.isSome_some, Bool.not_true, Bool.false_eq_true, if_false, ne_eq, hcount,
        not_false_eq_true, if_true]
      have fin : ∀ s', s'.toCore = s.toCore.note (.ecriture s.procElu count
          (BitVec.ofInt 32 (s.toCore.compte fid f))) → Q (.retour 0) s' := by
        intro s' hs'
        refine hok f s' hf hcount ?_
        rw [hs', Core.ecrit_of_ne hcount]
      split
      · next hnb =>
        rw [wp_bind]
        refine wp_ecrireMot ?_
        intro s' hs'
        refine fin s' ?_
        rw [hs', Core.compte, if_pos hnb]
        rfl
      · next hnb =>
        rw [wp_bind]
        refine wp_ecrireMot ?_
        intro s' hs'
        refine fin s' ?_
        rw [hs', Core.compte, if_neg hnb]
        rfl

theorem pcount_raffine (h : Stable s.toCore) (he : s.toCore.EnCours) (hC : C.trace) (fid : Int)
    (count : Nat) : Raffine C (pcount fid count) s := by
  refine wp_pcount h.coherent fid count (fun _ => .rien he) ?_
  intro f s' hf hcount hs'
  rw [hs']
  exact .un h he (.ecriture _ _) (Cadre.admetRetour_trace hC)

/-- A call of `pcreate`: the structure of the new file is at a new address. -/
inductive AppelPcreate (s : Core) (maxMsg : Int) : Suite → Core → Prop
  | refus : AppelPcreate s maxMsg (.retour (-1)) s
  | cree {l : List FidLibre} {cell : FidLibre} {adr : Ptr} {m : Nat} (hn : 0 < maxMsg)
      (hl : s.fidListe = l ++ [cell]) (h0 : 0 ≤ cell.fid) (hN : cell.fid < NBQUEUE)
      (hadr : s.prochain ≤ adr) (hm : adr < m) :
      AppelPcreate s maxMsg (.retour cell.fid)
        { s with
          fidListe := l
          prochain := m
          chainage := s.chainage.reset (.file cell.fid)
          tableauFile := Function.update s.tableauFile cell.fid
            (some { adr := adr, fid := cell.fid, maxMsg := maxMsg, queueMsg := [] }) }

theorem wp_pcreate {Q : Suite → Kernel → Prop} (h : Coherent s.toCore) (maxMsg : Int)
    (hQ : ∀ r s', AppelPcreate s.toCore maxMsg r s'.toCore → Q r s') :
    wp C.tolere (pcreate maxMsg) Q s := by
  simp only [pcreate]
  split
  · exact hQ _ s .refus
  next hmax =>
  simp only [wp_bind]
  refine wp_newFid (fun _ => hQ _ s .refus) ?_
  intro l cell s₁ hl h₁
  obtain ⟨h0, hN, -⟩ := h.fidLibre cell (by rw [hl]; simp)
  have hvalide : isFidValide cell.fid = true := by simp [isFidValide, h0, hN]
  simp only [hvalide, Bool.not_true, Bool.false_eq_true, if_false, wp_bind]
  refine wp_memAllocNonNul ?_ rfl
  intro s₂ h₂
  refine wp_surCore ?_
  intro s₃ h₃
  refine wp_surCore ?_
  intro s₄ h₄
  refine hQ _ s₄ ?_
  rw [h₄, h₃, h₂, h₁]
  exact .cree (by omega) hl h0 hN le_rfl (Nat.lt_succ_self _)

theorem AppelPcreate.segment {s s' : Core} {r : Suite} {n : Int} (h : Stable s) (he : s.EnCours)
    (ha : AppelPcreate s n r s') : Segment C r s s' := by
  cases ha with
  | refus => exact .rien he
  | cree hn hl h0 hN hadr hm =>
    exact .un h he (.creeFile hl rfl h0 hN hn hadr hm) Cadre.admetRetour_muette

theorem pcreate_raffine (h : Stable s.toCore) (he : s.toCore.EnCours) (maxMsg : Int) :
    Raffine C (pcreate maxMsg) s :=
  wp_pcreate h.coherent _ fun _ _ ha => ha.segment h he

-- ---------------------------------------------------------------------------
-- `preset` and `pdelete`
-- ---------------------------------------------------------------------------

theorem wp_echoueAttenteTours {Q : Bool → Kernel → Prop} {fid prio : Int} {f : File} (n : Nat)
    {b : Bool} (h : Stable s.toCore) (he : s.toCore.EnCours) (hf : s.tableauFile fid = some f)
    (hprio : prio = (s.tas s.procElu).prio) (hn : (s.elems (.file fid)).length = n)
    (hQ : ∀ b' s', (b = true → b' = true) → Calme (Veille (some (.file f.adr)) b') s.toCore s'.toCore →
      Relation.ReflTransGen (Echec fid f) s.toCore s'.toCore → s'.elems (.file fid) = [] →
        s'.tableauFile = s.tableauFile → Q b' s') :
    wp C.tolere (echoueAttente.tours fid f prio n b) Q s := by
  induction n generalizing s b with
  | zero => exact hQ b s id .refl .refl (List.length_eq_zero_iff.mp hn) rfl
  | succ n ih =>
    simp only [echoueAttente.tours, wp_bind]
    refine wp_queueOut ?_ ?_
    · intro hnone
      exact hQ b s id .refl .refl (List.getLast?_eq_none_iff.mp hnone) rfl
    intro p s₁ hp h₁
    have hl : s.lien p = some (.file fid) := LinkedQueues.link_of_top hp
    have hv := h.coherent.lie p _ hl
    have hpe : s.procElu ≠ p := (h.coherent.ne_procElu he hl).symm
    simp only [wp_bind]
    refine wp_ecrire (by rw [h₁]; exact hv) ?_
    intro s₂ h₂
    refine wp_queueAdd (by rw [h₂, h₁]; simp [Core.lien_retire]) ?_
    intro s₃ h₃
    refine wp_note ?_
    intro s₄ h₄
    have hs₄ : s₄.toCore = (s.toCore.eveille p
        fun r => { r with fid := -1, operationStatus := 0 }).note (.echec f.adr p) := by
      rw [h₄, h₃, h₂, h₁]
      rfl
    have q : Quiet { fort := s.fort p, efface := some (.file f.adr) } s.toCore s₄.toCore := by
      rw [hs₄]
      exact .echec hf hp
    refine wp_lire (by rw [hs₄]; exact hv) ?_
    have hpp : (s₄.tas p).prio = (s.tas p).prio := by
      rw [hs₄]
      simp [Core.eveille]
    have hlen : (s₄.elems (.file fid)).length = n := by
      have hrem : s₄.elems (.file fid) = (s.elems (.file fid)).erase p := by
        rw [hs₄]
        show ((s.chainage.remove p).add .procActivables p _).elems _ = _
        rw [LinkedQueues.elems_add (by simp), if_neg (by simp)]
        rfl
      rw [hrem, List.length_erase_of_mem (LinkedQueues.mem_of_top hp), hn]
      rfl
    refine ih (h.quiet he q) (h.enCours_quiet he q) ?_ ?_ hlen ?_
    · rw [hs₄]
      exact hf
    · rw [hprio, hs₄]
      simp [Core.eveille, hpe]
    · intro b' s' hb' hq hr hvide htab
      refine hQ b' s' (fun hb => hb' (by simp [hb]))
        (.head ⟨he, _, ⟨rfl, rfl, ?_, fun _ hx => hx, rfl, rfl⟩, q⟩ hq) (.head ⟨p, hp, hs₄⟩ hr) hvide ?_
      · intro hfort
        refine hb' ?_
        rw [hprio, hpp]
        simp only [Core.fort, decide_eq_true_eq] at hfort
        simp [hfort]
      · rw [htab, hs₄]
        rfl

theorem wp_echoueAttente {Q : Bool → Kernel → Prop} {fid : Int} {f : File} (h : Stable s.toCore)
    (he : s.toCore.EnCours) (hf : s.tableauFile fid = some f)
    (hQ : ∀ b s', Calme (Veille (some (.file f.adr)) b) s.toCore s'.toCore →
      Relation.ReflTransGen (Echec fid f) s.toCore s'.toCore → s'.elems (.file fid) = [] →
        s'.tableauFile = s.tableauFile → Q b s') :
    wp C.tolere (echoueAttente fid f (s.tas s.procElu).prio) Q s := by
  simp only [echoueAttente, wp_bind, wp_get]
  exact wp_echoueAttenteTours _ h he hf rfl rfl fun b s' _ => hQ b s'

theorem wp_libereMessages {fid : Int} {f : File}
    (h : ∀ s', s'.toCore = (s.toCore.majFile fid (some { f with queueMsg := [] })).note
      (.vide f.adr) → R () s') : wp C.tolere (libereMessages fid f) R s := by
  simp only [libereMessages, wp_bind]
  refine Inerte.of_forM (fun (m : Message) => inerte_memFree _ m.adr sizeofMessage) C _ s ?_
  intro _ s₁ h₁
  refine wp_surCore ?_
  intro s₂ h₂
  refine wp_note ?_
  intro s₃ h₃
  refine h s₃ ?_
  rw [h₃, h₂, h₁]
  rfl

/-- A call of `preset` or `pdelete`: the call of every waiting process fails,
then the messages are freed. -/
inductive AppelVideFile (s : Core) (fid : Int) : Suite → Core → Prop
  | refus (hf : s.tableauFile fid = none) : AppelVideFile s fid (.retour (-1)) s
  | preset {f : File} {s₁ : Core} {b : Bool} (hf : s.tableauFile fid = some f)
      (hr : Relation.ReflTransGen (Echec fid f) s s₁) (hvide : s₁.elems (.file fid) = [])
      (hf₁ : s₁.tableauFile fid = some f) (hq : Calme (Veille (some (.file f.adr)) b) s s₁) :
      AppelVideFile s fid (finFile b)
        ((s₁.majFile fid (some { f with queueMsg := [] })).note (.vide f.adr))
  | pdelete {f : File} {s₁ : Core} {b : Bool} {adr n : Nat} (hf : s.tableauFile fid = some f)
      (hr : Relation.ReflTransGen (Echec fid f) s s₁) (hvide : s₁.elems (.file fid) = [])
      (hf₁ : s₁.tableauFile fid = some f) (hq : Calme (Veille (some (.file f.adr)) b) s s₁)
      (hn : s₁.prochain ≤ n) :
      AppelVideFile s fid (finFile b)
        { (s₁.majFile fid (some { f with queueMsg := [] })).note (.vide f.adr) with
          tableauFile := Function.update
            (s₁.majFile fid (some { f with queueMsg := [] })).tableauFile fid none
          fidListe := Lib.insertByKey FidLibre.fid ⟨adr, fid⟩ s₁.fidListe
          prochain := n }

theorem wp_preset {Q : Suite → Kernel → Prop} (h : Stable s.toCore) (he : s.toCore.EnCours)
    (fid : Int) (hQ : ∀ r s', AppelVideFile s.toCore fid r s'.toCore → Q r s') :
    wp C.tolere (preset fid) Q s := by
  simp only [preset, wp_bind, wp_get, isFidValideAndExist_eq h.coherent]
  cases hf : s.tableauFile fid with
  | none => exact hQ _ s (.refus hf)
  | some f =>
    simp only [Option.isSome_some, Bool.not_true, Bool.false_eq_true, if_false, wp_bind]
    refine wp_lire he.vivant ?_
    refine wp_echoueAttente h he hf ?_
    intro b s₁ hq hr hvide htab
    refine wp_libereMessages ?_
    intro s₂ h₂
    rw [wp_pure]
    refine hQ _ s₂ ?_
    rw [h₂]
    exact .preset hf hr hvide (by rw [htab, hf]) hq

theorem wp_pdelete {Q : Suite → Kernel → Prop} (h : Stable s.toCore) (he : s.toCore.EnCours)
    (fid : Int) (hQ : ∀ r s', AppelVideFile s.toCore fid r s'.toCore → Q r s') :
    wp C.tolere (pdelete fid) Q s := by
  simp only [pdelete, wp_bind, wp_get, isFidValideAndExist_eq h.coherent]
  cases hf : s.tableauFile fid with
  | none => exact hQ _ s (.refus hf)
  | some f =>
    simp only [Option.isSome_some, Bool.not_true, Bool.false_eq_true, if_false, wp_bind]
    refine wp_lire he.vivant ?_
    refine wp_echoueAttente h he hf ?_
    intro b s₁ hq hr hvide htab
    refine wp_libereMessages ?_
    intro s₂ h₂
    refine wp_surCore ?_
    intro s₃ h₃
    refine wp_addFid ?_
    intro s₄ h₄
    refine wp_memFree ?_
    intro s₅ h₅
    rw [wp_pure]
    refine hQ _ s₅ ?_
    rw [h₅, h₄, h₃, h₂]
    exact .pdelete hf hr hvide (by rw [htab, hf]) hq (Nat.le_succ _)

theorem AppelVideFile.segment {s s' : Core} {fid : Int} {r : Suite} (h : Stable s) (he : s.EnCours)
    (hC : ∀ f, s.tableauFile fid = some f → C.efface (.file f.adr)) (ha : AppelVideFile s fid r s') :
    Segment C r s s' := by
  have fin : ∀ {f : File} {s₁ s' : Core} {b : Bool}, s.tableauFile fid = some f →
      Calme (Veille (some (.file f.adr)) b) s s₁ → Quiet { efface := some (.file f.adr) } s₁ s' →
        Calme (Veille (some (.file f.adr)) b) s s' :=
    fun _ hq q => hq.puis (h.enCours_calme he hq) q ⟨rfl, rfl, nofun, fun _ hx => hx, rfl, rfl⟩
  have efface : ∀ {f : File}, s.tableauFile fid = some f → ∀ x, some (Objet.file f.adr) = some x → C.efface x := by
    intro f hf x hx
    rw [← Option.some.inj hx]
    exact hC f hf
  cases ha with
  | refus _ => exact .rien he
  | preset hf hr hvide hf₁ hq =>
    exact .selon h he (efface hf) (fin hf hq (.vide hf₁ hvide)) rfl
  | @pdelete f s₁ b adr n hf hr hvide hf₁ hq hn =>
    have hq₂ := fin hf hq (.vide hf₁ hvide)
    exact .selon h he (efface hf)
      (hq₂.puis (h.enCours_calme he hq₂)
        (.supprimeFile (f := { f with queueMsg := [] }) (by simp) hvide hn)
          ⟨rfl, rfl, nofun, fun _ hx => hx, rfl, rfl⟩) rfl

-- ---------------------------------------------------------------------------
-- `psend`
-- ---------------------------------------------------------------------------

/-- A call of `psend`. -/
inductive AppelPsend (s : Core) (fid v : Int) : Suite → Core → Prop
  | refus (hf : s.tableauFile fid = none) : AppelPsend s fid v (.retour (-1)) s
  | remis {f : File} {p : Ptr} (hf : s.tableauFile fid = some f) (hvide : f.queueMsg = [])
      (hp : s.chainage.top (.file fid) = some p) :
      AppelPsend s fid v (finFile (s.fort p))
        ((((s.emet f v).eveille p fun r =>
          { r with fid := -1, fileValue := v, operationStatus := 1 }).note
            (.accepte f.adr s.procElu v)).note (.livre f.adr p v))
  | bloque {f : File} (hf : s.tableauFile fid = some f)
      (hnon : f.queueMsg ≠ [] ∨ s.elems (.file fid) = []) (hplein : f.maxMsg = getNbMsg f) :
      AppelPsend s fid v (.ordonnanceur .psend) ((s.emet f v).bloqueFile fid)
  | depose {f : File} {adr n : Nat} (hf : s.tableauFile fid = some f)
      (hnon : f.queueMsg ≠ [] ∨ s.elems (.file fid) = []) (hlt : getNbMsg f < f.maxMsg)
      (hn : s.prochain ≤ n) :
      AppelPsend s fid v (.retour 0)
        ((((s.emet f v).majFile fid (some { f with queueMsg := ⟨adr, v⟩ :: f.queueMsg })).alloue
          n).note (.accepte f.adr s.procElu v))

theorem getNbMsg_eq_zero {f : File} : getNbMsg f = 0 ↔ f.queueMsg = [] := by
  unfold getNbMsg
  rw [Int.natCast_eq_zero, List.length_eq_zero_iff]

theorem wp_psend {Q : Suite → Kernel → Prop} (h : Stable s.toCore) (he : s.toCore.EnCours)
    (fid v : Int) (hQ : ∀ r s', AppelPsend s.toCore fid v r s'.toCore → Q r s') :
    wp C.tolere (psend fid v) Q s := by
  have hc := h.coherent
  simp only [psend, wp_bind, wp_get, isFidValideAndExist_eq hc]
  cases hf : s.tableauFile fid with
  | none => exact hQ _ s (.refus hf)
  | some f =>
    obtain ⟨-, -, hfid, -, hle⟩ := hc.file fid f hf
    simp only [Option.isSome_some, Bool.not_true, Bool.false_eq_true, if_false, wp_bind]
    refine wp_lire he.vivant ?_
    refine wp_note ?_
    intro s₁ h₁
    refine wp_ecrire (by rw [h₁]; exact he.vivant) ?_
    intro s₂ h₂
    have hs₂ : s₂.toCore = s.toCore.emet f v := by rw [h₂, h₁]; rfl
    have he₂ : s₂.toCore.EnCours := by
      rw [hs₂]
      exact he.de rfl he.vivant (by simp [Core.emet])
    split
    · next hatt =>
      -- an empty file with a process waiting for a message
      obtain ⟨hvide, hne⟩ := hatt
      obtain ⟨p, hp⟩ := Option.isSome_iff_exists.mp (List.getLast?_isSome.mpr hne)
      have hl : s.lien p = some (.file fid) := LinkedQueues.link_of_top hp
      have hpe := hc.ne_procElu he hl
      simp only [wp_bind]
      refine wp_retireProc (p := p) (by rw [hs₂]; exact hp) ?_
      intro s₃ h₃
      have hv₃ : s₃.vivant p = true := by
        rw [h₃, hs₂]
        exact hc.lie p _ hl
      refine wp_ecrire hv₃ ?_
      intro s₄ h₄
      refine wp_note ?_
      intro s₅ h₅
      refine wp_note ?_
      intro s₆ h₆
      refine wp_queueAdd (by rw [h₆, h₅, h₄, h₃]; simp [Core.lien_retire]) ?_
      intro s₇ h₇
      refine wp_lire (by rw [h₇, h₆, h₅, h₄]; exact hv₃) ?_
      have hpr : (s₇.tas p).prio = (s.tas p).prio := by
        simp [h₇, h₆, h₅, h₄, h₃, hs₂, Core.emet, hpe]
      rw [wp_pure, hpr]
      refine hQ _ s₇ ?_
      have hs₇ : s₇.toCore = (((s.toCore.emet f v).eveille p fun r =>
          { r with fid := -1, fileValue := v, operationStatus := 1 }).note
            (.accepte f.adr s.procElu v)).note (.livre f.adr p v) := by
        rw [h₇, h₆, h₅, h₄, h₃, hs₂]
        rfl
      rw [hs₇]
      exact .remis hf (getNbMsg_eq_zero.mp hvide) hp
    next hatt =>
    have hnon : f.queueMsg ≠ [] ∨ s.elems (.file fid) = [] := by
      rcases not_and_or.mp hatt with hx | hx
      · exact .inl (getNbMsg_eq_zero.not.mp hx)
      · exact .inr (not_not.mp hx)
    split
    · next hplein =>
      simp only [wp_bind]
      have helu : s.procElu = s₂.procElu := by
        rw [hs₂]
        rfl
      rw [helu]
      refine wp_addProc ?_ he₂ hfid ?_
      · rw [hs₂]
        exact hc.emet he f v
      intro s₃ h₃
      rw [wp_pure]
      refine hQ _ s₃ ?_
      rw [h₃, hs₂]
      exact .bloque hf hnon hplein
    · next hplein =>
      have hlt : getNbMsg f < f.maxMsg := by omega
      simp only [wp_bind]
      refine wp_addMsg hlt ?_
      intro s₃ h₃
      refine wp_note ?_
      intro s₄ h₄
      rw [wp_pure]
      refine hQ _ s₄ ?_
      rw [h₄, h₃, hs₂]
      exact .depose hf hnon hlt (Nat.le_succ _)

theorem AppelPsend.segment {s s' : Core} {fid v : Int} {r : Suite} (h : Stable s) (he : s.EnCours)
    (hidle : s.procElu ≠ s.procIdle) (hC : C.trace) (ha : AppelPsend s fid v r s') :
    Segment C r s s' := by
  cases ha with
  | refus _ => exact .rien he
  | @remis f p hf hvide hp =>
    have q : Quiet { fort := s.fort p, trace := true } s _ := .remis hidle hf hvide hp (v := v)
    unfold finFile
    cases hfort : s.fort p with
    | true =>
      exact .ordonnanceur (.un he q (Cadre.admet_trace hC)) (h.enCours_quiet he q)
        (.suspend rfl) (fun hx => absurd rfl hx)
    | false =>
      refine .un h he q (Cadre.admetRetour_fort_trace ?_ hC)
      intro hx
      rw [show s.fort p = true from hx] at hfort
      cases hfort
  | bloque hf hnon hplein =>
    exact .ordonnanceur .refl he (.emission hidle hf hnon hplein) (fun hx => absurd rfl hx)
      fun _ => hC
  | depose hf hnon hlt hn =>
    exact .un h he (.depose hidle hf hnon hlt hn) (Cadre.admetRetour_trace hC)

/-- The end of a `psend` that blocked. -/
theorem wp_psendReprise {Q : Suite → Kernel → Prop} (he : s.toCore.EnCours)
    (hQ : Q (.retour (if (s.tas s.procElu).operationStatus = 0 then -1 else 0)) s) :
    wp C.tolere psendReprise Q s := by
  simp only [psendReprise, wp_bind, wp_get]
  refine wp_lire he.vivant ?_
  split
  · next h0 => rwa [if_pos h0] at hQ
  · next h0 => rwa [if_neg h0] at hQ

-- ---------------------------------------------------------------------------
-- `preceive`
-- ---------------------------------------------------------------------------

/-- A call of `preceive`. -/
inductive AppelPreceive (s : Core) (fid : Int) (m : Nat) : Suite → Core → Prop
  | refus (hf : s.tableauFile fid = none) : AppelPreceive s fid m (.retour (-1)) s
  | bloque {f : File} (hf : s.tableauFile fid = some f) (hvide : f.queueMsg = []) :
      AppelPreceive s fid m (.ordonnanceur (.preceive m)) ((s.recoit f m).bloqueFile fid)
  | prend {f : File} {l : List Message} {msg : Message} (hf : s.tableauFile fid = some f)
      (hl : f.queueMsg = l ++ [msg]) (hp : s.elems (.file fid) = []) :
      AppelPreceive s fid m (.retour 0)
        ((((s.recoit f m).majFile fid (some { f with queueMsg := l })).note
          (.livre f.adr s.procElu msg.message)).ecrit m (BitVec.ofInt 32 msg.message))
  | relaye {f : File} {l : List Message} {msg : Message} {p : Ptr} {adr n : Nat}
      (hf : s.tableauFile fid = some f) (hl : f.queueMsg = l ++ [msg])
      (hp : s.chainage.top (.file fid) = some p) (hn : s.prochain ≤ n) :
      AppelPreceive s fid m (finFile (s.fort p))
        ((((((((s.recoit f m).majFile fid
            (some { f with queueMsg := ⟨adr, (s.tas p).fileValue⟩ :: l })).alloue n).note
          (.livre f.adr s.procElu msg.message)).ecrit m (BitVec.ofInt 32 msg.message)).note
            (.accepte f.adr p (s.tas p).fileValue)).eveille
              p fun r => { r with fid := -1, operationStatus := 1 }))

theorem wp_preceive {Q : Suite → Kernel → Prop} (h : Stable s.toCore) (he : s.toCore.EnCours)
    (fid : Int) (m : Nat) (hQ : ∀ r s', AppelPreceive s.toCore fid m r s'.toCore → Q r s') :
    wp C.tolere (preceive fid m) Q s := by
  have hc := h.coherent
  simp only [preceive, wp_bind, wp_get, isFidValideAndExist_eq hc]
  cases hf : s.tableauFile fid with
  | none => exact hQ _ s (.refus hf)
  | some f =>
    obtain ⟨-, -, hfid, -, hle⟩ := hc.file fid f hf
    simp only [Option.isSome_some, Bool.not_true, Bool.false_eq_true, if_false, wp_bind]
    refine wp_lire he.vivant ?_
    refine wp_note ?_
    intro s₁ h₁
    refine wp_ecrire (by rw [h₁]; exact he.vivant) ?_
    intro s₂ h₂
    have hs₂ : s₂.toCore = s.toCore.recoit f m := by rw [h₂, h₁]; rfl
    have he₂ : s₂.toCore.EnCours := by
      rw [hs₂]
      exact he.de rfl he.vivant (by simp [Core.recoit])
    split
    · next hvide =>
      simp only [wp_bind]
      have helu : s.procElu = s₂.procElu := by
        rw [hs₂]
        rfl
      rw [helu]
      refine wp_addProc ?_ he₂ hfid ?_
      · rw [hs₂]
        exact hc.recoit he f m
      intro s₃ h₃
      rw [wp_pure]
      refine hQ _ s₃ ?_
      rw [h₃, hs₂]
      exact .bloque hf (getNbMsg_eq_zero.mp hvide)
    next hvide =>
    obtain ⟨l, msg, hl⟩ : ∃ l msg, f.queueMsg = l ++ [msg] := by
      have hne : f.queueMsg ≠ [] := fun hx => hvide (getNbMsg_eq_zero.mpr hx)
      exact ⟨_, _, (List.dropLast_append_getLast hne).symm⟩
    simp only [wp_bind]
    refine wp_retireMsg hl ?_
    intro s₃ h₃
    -- the message goes to the caller
    refine wp_note ?_
    intro s₄ h₄
    -- the message is stored, then the waiting queue is looked at
    have suite : ∀ s₅ : Kernel, s₅.toCore = (((s.toCore.recoit f m).majFile fid
        (some { f with queueMsg := l })).note (.livre f.adr s.procElu msg.message)).ecrit m
          (BitVec.ofInt 32 msg.message) →
        wp C.tolere (do
          let s' ← get
          if s'.elems (.file fid) ≠ [] then do
            let proc ← retireProc fid
            let r ← lire .preceive proc
            ecrire .preceive proc fun r => { r with fid := -1 }
            let _ ← addMsg fid { f with queueMsg := l } r.fileValue
            note (.accepte f.adr proc r.fileValue)
            ecrire .preceive proc fun r => { r with operationStatus := 1, etat := .activable }
            queueAdd proc .procActivables (·.prio)
            pure (finFile (r.prio > (s.tas s.procElu).prio))
          else pure (.retour 0)) Q s₅ := by
      intro s₅ h₅
      have helems : s₅.elems (.file fid) = s.elems (.file fid) := by rw [h₅]; rfl
      simp only [wp_bind, wp_get, helems]
      split
      · next hne =>
        obtain ⟨p, hp⟩ := Option.isSome_iff_exists.mp (List.getLast?_isSome.mpr hne)
        have hlp : s.lien p = some (.file fid) := LinkedQueues.link_of_top hp
        have hpe := hc.ne_procElu he hlp
        have hvp := hc.lie p _ hlp
        simp only [wp_bind]
        refine wp_retireProc (p := p) (by rw [h₅]; exact hp) ?_
        intro s₆ h₆
        refine wp_lire (by rw [h₆, h₅]; exact hvp) ?_
        have htas : s₆.tas p = s.tas p := by simp [h₆, h₅, Core.recoit, hpe]
        rw [htas]
        refine wp_ecrire (by rw [h₆, h₅]; exact hvp) ?_
        intro s₇ h₇
        have hlt : getNbMsg { f with queueMsg := l } < f.maxMsg := by
          unfold getNbMsg at hle ⊢
          rw [hl] at hle
          simp only [List.length_append, List.length_cons, List.length_nil] at hle
          show (l.length : Int) < f.maxMsg
          omega
        refine wp_addMsg hlt ?_
        intro s₈ h₈
        refine wp_note ?_
        intro s₉ h₉
        refine wp_ecrire (by rw [h₉, h₈, h₇, h₆, h₅]; exact hvp) ?_
        intro s₁₀ h₁₀
        refine wp_queueAdd ?_ ?_
        · rw [h₁₀, h₉, h₈, h₇, h₆]
          simp only [Core.lien_maj, Core.lien_note]
          exact Core.lien_retire.trans (if_pos rfl)
        intro s₁₁ h₁₁
        rw [wp_pure]
        refine hQ _ s₁₁ ?_
        have hpro : s₇.prochain = s.prochain := by rw [h₇, h₆, h₅]; rfl
        have hs₁₀ : s₁₀.toCore = (((((((s.toCore.recoit f m).majFile fid
            (some { f with queueMsg := ⟨s₇.prochain, (s.tas p).fileValue⟩ :: l })).alloue
              (s.prochain + 1)).note (.livre f.adr s.procElu msg.message)).ecrit m
                (BitVec.ofInt 32 msg.message)).note (.accepte f.adr p (s.tas p).fileValue)).retire
                  p).maj p fun r =>
                    { r with fid := -1, operationStatus := 1, etat := .activable } := by
          rw [h₁₀, h₉, h₈, hpro, h₇, h₆, h₅]
          refine Core.ext ?_ rfl rfl rfl rfl rfl rfl ?_ rfl rfl rfl rfl rfl
          · show Function.update (Function.update (s.toCore.recoit f m).tas p _) p
              { Function.update (s.toCore.recoit f m).tas p
                  { (s.toCore.recoit f m).tas p with fid := -1 } p with
                operationStatus := 1, etat := .activable } = _
            rw [Function.update_idem, Function.update_self]
            rfl
          · show Function.update (Function.update (s.toCore.recoit f m).tableauFile fid _) fid _ = _
            rw [Function.update_idem]
            rfl
        rw [h₁₁, hs₁₀]
        exact .relaye hf hl hp (Nat.le_succ _)
      · next hne =>
        rw [wp_pure]
        refine hQ _ s₅ ?_
        rw [h₅]
        exact .prend hf hl (not_not.mp hne)
    have hs₄ : s₄.toCore = ((s.toCore.recoit f m).majFile fid (some { f with queueMsg := l })).note
        (.livre f.adr s.procElu msg.message) := by rw [h₄, h₃, hs₂]
    split
    · next hm =>
      simp only [wp_bind]
      refine wp_ecrireMot ?_
      intro s₅ h₅
      have hs₅ := suite s₅ (by
        rw [h₅, hs₄, Core.ecrit_of_ne hm])
      simpa only [wp_bind] using hs₅
    · next hm =>
      have hs₅ := suite s₄ (by
        rw [hs₄, not_not.mp hm, Core.ecrit_zero])
      simpa only [wp_bind, wp_pure] using hs₅

theorem AppelPreceive.segment {s s' : Core} {fid : Int} {m : Nat} {r : Suite} (h : Stable s)
    (he : s.EnCours) (hidle : s.procElu ≠ s.procIdle) (hC : C.trace)
    (ha : AppelPreceive s fid m r s') : Segment C r s s' := by
  cases ha with
  | refus _ => exact .rien he
  | bloque hf hvide =>
    exact .ordonnanceur .refl he (.reception hidle hf hvide) (fun hx => absurd rfl hx) fun _ => hC
  | prend hf hl hp =>
    exact .un h he (.prend hidle hf hl hp) (Cadre.admetRetour_trace hC)
  | @relaye f l msg p adr n hf hl hp hn =>
    have q : Quiet { fort := s.fort p, trace := true } s _ :=
      .relaye (m := m) (a := adr) hidle hf hl hp hn
    unfold finFile
    cases hfort : s.fort p with
    | true =>
      exact .ordonnanceur (.un he q (Cadre.admet_trace hC)) (h.enCours_quiet he q)
        (.suspend rfl) (fun hx => absurd rfl hx)
    | false =>
      refine .un h he q (Cadre.admetRetour_fort_trace ?_ hC)
      intro hx
      rw [show s.fort p = true from hx] at hfort
      cases hfort

/-- The end of a `preceive` that blocked. -/
theorem wp_preceiveReprise {Q : Suite → Kernel → Prop} (he : s.toCore.EnCours) (m : Nat)
    (hechec : (s.tas s.procElu).operationStatus = 0 → Q (.retour (-1)) s)
    (hok : ∀ s', (s.tas s.procElu).operationStatus ≠ 0 →
      s'.toCore = s.toCore.ecrit m (BitVec.ofInt 32 (s.tas s.procElu).fileValue) →
        Q (.retour 0) s') : wp C.tolere (preceiveReprise m) Q s := by
  simp only [preceiveReprise, wp_bind, wp_get]
  refine wp_lire he.vivant ?_
  split
  · next h0 => exact hechec h0
  · next h0 =>
    by_cases hm : m = 0
    · simp only [hm, ne_eq, not_true_eq_false, if_false, wp_pure]
      refine hok s h0 ?_
      rw [hm, Core.ecrit_zero]
    · simp only [ne_eq, hm, not_false_eq_true, if_true, wp_bind]
      refine wp_ecrireMot ?_
      intro s₁ h₁
      rw [wp_pure]
      refine hok s₁ h0 ?_
      rw [h₁, Core.ecrit_of_ne hm]

end

end GenesisOS
