import GenesisOS.Abstract.Invariant

/-!
# GenesisOS — who waits on a message file

The queue of a file holds senders and receivers alike. `Homogene` says which:
receivers when the file is empty, senders when it is full, and nobody
otherwise. Every transition keeps it: the queue only loses processes, unless
the number of messages is known.
-/

namespace GenesisOS

open Lib

/-- A process waits on a file as a receiver when there are no messages, as a
sender when there is no room. -/
def Core.Homogene (s : Core) : Prop :=
  ∀ fid f p, s.tableauFile fid = some f → s.lien p = some (.file fid) →
    (f.queueMsg = [] ∧ ∃ m, (s.tas p).contexte = .preceive m) ∨
      (getNbMsg f = f.maxMsg ∧ (s.tas p).contexte = .psend)

/-- The queues of files only lose processes, and a file with waiting processes
keeps its number of messages. -/
structure MoinsFile (s s' : Core) : Prop where
  attente : ∀ fid p, s'.lien p = some (.file fid) →
    s.lien p = some (.file fid) ∧ (s'.tas p).contexte = (s.tas p).contexte
  file : ∀ fid f' p, s'.tableauFile fid = some f' → s'.lien p = some (.file fid) →
    ∃ f, s.tableauFile fid = some f ∧ getNbMsg f' = getNbMsg f ∧ f'.maxMsg = f.maxMsg

theorem Core.contexte_maj {s : Core} {p : Ptr} {f : Processus → Processus}
    (hf : ∀ r, (f r).contexte = r.contexte) (x : Ptr) :
    ((s.maj p f).tas x).contexte = (s.tas x).contexte := by
  rw [Core.tas_maj]
  split
  · next hx => rw [hf, hx]
  · rfl

theorem Core.contexte_emet {s : Core} {f : File} {v : Int} (x : Ptr) :
    ((s.emet f v).tas x).contexte = (s.tas x).contexte :=
  Core.contexte_maj (s := s) (p := s.procElu)
    (f := fun r => { r with fileValue := v, operationStatus := 1 }) (fun _ => rfl) x

theorem Core.contexte_recoit {s : Core} {f : File} {m : Nat} (x : Ptr) :
    ((s.recoit f m).tas x).contexte = (s.tas x).contexte :=
  Core.contexte_maj (s := s) (p := s.procElu)
    (f := fun r => { r with fileValue := -1, operationStatus := 1 }) (fun _ => rfl) x

namespace MoinsFile

variable {s s' s'' : Core}

theorem refl : MoinsFile s s :=
  ⟨fun _ _ hp => ⟨hp, rfl⟩, fun _ f' _ hf _ => ⟨f', hf, rfl, rfl⟩⟩

theorem trans (m : MoinsFile s s') (m' : MoinsFile s' s'') : MoinsFile s s'' := by
  refine ⟨?_, ?_⟩
  · intro fid p hp
    obtain ⟨hp', hc'⟩ := m'.attente fid p hp
    obtain ⟨hp'', hc⟩ := m.attente fid p hp'
    exact ⟨hp'', hc'.trans hc⟩
  · intro fid f'' p hf hp
    obtain ⟨f', hf', hnb', hmax'⟩ := m'.file fid f'' p hf hp
    obtain ⟨f, hf, hnb, hmax⟩ := m.file fid f' p hf' (m'.attente fid p hp).1
    exact ⟨f, hf, hnb'.trans hnb, hmax'.trans hmax⟩

/-- The files themselves do not change. -/
theorem of_attente (hf : s'.tableauFile = s.tableauFile)
    (ha : ∀ fid p, s'.lien p = some (.file fid) →
      s.lien p = some (.file fid) ∧ (s'.tas p).contexte = (s.tas p).contexte) : MoinsFile s s' := by
  refine ⟨ha, ?_⟩
  intro fid f' p hf' _
  rw [hf] at hf'
  exact ⟨f', hf', rfl, rfl⟩

/-- One process leaves its list for another one, not that of a file. -/
theorem de {p : Ptr} {t : Tete} (hf : s'.tableauFile = s.tableauFile) (ht : ∀ fid, t ≠ .file fid)
    (hl : ∀ x, s'.lien x = if x = p then some t else s.lien x)
    (hc : ∀ x, x ≠ p → (s'.tas x).contexte = (s.tas x).contexte) : MoinsFile s s' := by
  refine of_attente hf ?_
  intro fid x hx
  rw [hl] at hx
  split at hx
  · exact absurd (Option.some.inj hx) (ht fid)
  · next hne => exact ⟨hx, hc x hne⟩

theorem eveille {p : Ptr} {f : Processus → Processus} : MoinsFile s (s.eveille p f) := by
  refine de (p := p) rfl (by simp) (fun x => Core.lien_eveille f) ?_
  intro x hx
  rw [Core.tas_eveille, if_neg hx]

/-- Nothing that concerns the files changes. -/
theorem puis (m : MoinsFile s s') (hf : s''.tableauFile = s'.tableauFile)
    (hl : ∀ p, s''.lien p = s'.lien p) (ht : ∀ p, (s''.tas p).contexte = (s'.tas p).contexte) :
    MoinsFile s s'' := by
  refine m.trans (of_attente hf ?_)
  intro fid p hp
  exact ⟨(hl p).symm.trans hp, ht p⟩

theorem rejets {sid : Int} {sem : Semaphore} {status : Int}
    (hr : Relation.ReflTransGen (Rejet sid sem status) s s') : MoinsFile s s' := by
  induction hr with
  | refl => exact refl
  | tail _ hlast ih =>
    obtain ⟨p, hp, rfl⟩ := hlast
    exact (ih.trans eveille).puis rfl (fun _ => rfl) (fun _ => rfl)

/-- The father that the death of a child wakes is in no list. -/
theorem reveillePere {pere : Ptr}
    (hl : (s.tas pere).etat = .attendFils → s.lien pere = none) : MoinsFile s (s.reveillePere pere) := by
  unfold Core.reveillePere
  split
  · next he =>
    refine de (p := pere) rfl (by simp) (fun x => Core.lien_active (hl he)) ?_
    intro x hx
    rw [Core.tas_active, if_neg hx]
  · exact refl

theorem liberation_pas (h : Coherent s) (hl : Liberation s s') : MoinsFile s s' := by
  obtain ⟨p, adr, n, hp, hn, L⟩ := h.liberation_spec hl
  refine of_attente L.file ?_
  intro fid x hx
  rw [L.lien] at hx
  refine ⟨?_, (L.champs x).2.2.1⟩
  split at hx
  · cases hx
  · split at hx
    · cases hx
    · exact hx

theorem liberation (h : Coherent s) (hl : Relation.ReflTransGen Liberation s s') :
    MoinsFile s s' := by
  induction hl with
  | refl => exact refl
  | tail hrest hlast ih => exact ih.trans (liberation_pas (h.liberation hrest) hlast)

/-- The number of messages of a file stays. -/
theorem majFile {fid : Int} {f f' : File} (hf : s.tableauFile fid = some f)
    (hnb : getNbMsg f' = getNbMsg f) (hmax : f'.maxMsg = f.maxMsg) :
    MoinsFile s (s.majFile fid (some f')) := by
  refine ⟨fun _ _ hp => ⟨hp, rfl⟩, ?_⟩
  intro i f'' _ hi _
  by_cases hfi : i = fid
  · subst hfi
    obtain rfl : f' = f'' := by simpa using hi
    exact ⟨f, hf, hnb, hmax⟩
  · exact ⟨f'', by simpa [hfi] using hi, rfl, rfl⟩

/-- Leaving a list. -/
theorem retire {p : Ptr} : MoinsFile s (s.retire p) := by
  refine of_attente rfl ?_
  intro fid x hx
  rw [Core.lien_retire] at hx
  split at hx
  · cases hx
  · exact ⟨hx, rfl⟩

end MoinsFile

namespace Core.Homogene

variable {s s' : Core}

theorem moins (h : s.Homogene) (m : MoinsFile s s') : s'.Homogene := by
  intro fid f' p hf' hp
  obtain ⟨f, hf, hnb, hmax⟩ := m.file fid f' p hf' hp
  obtain ⟨hp', hc⟩ := m.attente fid p hp
  rw [hc, hmax, hnb]
  rcases h fid f p hf hp' with ⟨hvide, hm⟩ | hplein
  · refine .inl ⟨List.length_eq_zero_iff.mp ?_, hm⟩
    rw [getNbMsg, getNbMsg, hvide] at hnb
    simpa using hnb
  · exact .inr hplein

/-- Nobody waits while the file has messages and room. -/
theorem personne (h : s.Homogene) {fid : Int} {f : File} (hf : s.tableauFile fid = some f)
    (hnon : f.queueMsg ≠ [] ∨ s.elems (.file fid) = []) (hlt : getNbMsg f < f.maxMsg) (p : Ptr) :
    s.lien p ≠ some (.file fid) := by
  intro hp
  rcases hnon with hnon | hnil
  · rcases h fid f p hf hp with ⟨hvide, -⟩ | ⟨hplein, -⟩
    · exact hnon hvide
    · omega
  · have hm : p ∈ s.elems (.file fid) := (s.chainage.mem_iff p _).mpr hp
    rw [hnil] at hm
    cases hm

-- ---------------------------------------------------------------------------
-- Quiet transitions
-- ---------------------------------------------------------------------------

/-- The structure of one file changes, while nobody waits on it. -/
theorem fichier (h : s.Homogene) (fid : Int)
    (hautre : ∀ i, i ≠ fid → s'.tableauFile i = s.tableauFile i)
    (hl : ∀ p, p ∉ s'.elems (.file fid))
    (ha : ∀ i p, i ≠ fid → s'.lien p = some (.file i) →
      s.lien p = some (.file i) ∧ (s'.tas p).contexte = (s.tas p).contexte) : s'.Homogene := by
  intro i f p hf hp
  by_cases hi : i = fid
  · subst hi
    exact absurd ((s'.chainage.mem_iff p _).mpr hp) (hl p)
  · rw [hautre i hi] at hf
    obtain ⟨hp', hc⟩ := ha i p hi hp
    rw [hc]
    exact h i f p hf hp'

theorem quiet {l : Etiquette} (h : s.Homogene) (hst : Stable s) (he : s.EnCours)
    (q : Quiet l s s') : s'.Homogene := by
  have hc := hst.coherent
  have rien : MoinsFile s s := .refl
  cases q with
  | alloue hn => exact h.moins (rien.puis rfl (fun _ => rfl) fun _ => rfl)
  | ecriture adr w => exact h.moins (rien.puis rfl (fun _ => rfl) fun _ => rfl)
  | attente pid r => exact h.moins (rien.puis rfl (fun _ => rfl) fun _ => rfl)
  | rendPid hl hn ht =>
    refine h.moins (.of_attente rfl ?_)
    intro fid p hp
    exact ⟨hp, congrArg Processus.contexte (ht p (hc.ancien p (hc.lie p _ hp)))⟩
  | @cree _ p r cell reste adr n hl hp hn =>
    have C := hc.cree_spec he r reste adr n hp
    exact h.moins (.de (p := p) rfl (by simp) C.lien fun x hx => (C.champs x hx).2.2.1)
  | chprioElu hn hidle =>
    exact h.moins (rien.puis rfl (fun _ => rfl) (Core.contexte_maj fun _ => rfl))
  | @chprioActivable _ p n hn hv hpid hp he' =>
    refine h.moins (.de (p := p) rfl (by simp) (fun x => Core.lien_deplace rfl) ?_)
    exact fun x _ => Core.contexte_maj (s := s) (p := p) (f := fun r => { r with prio := n })
      (fun _ => rfl) x
  | @chprioFile _ p n hn hv hpid hp he' =>
    have hpl := hc.place p hv
    unfold Core.Place at hpl
    rw [he'] at hpl
    refine h.moins (rien.puis rfl ?_
      (Core.contexte_maj (s := s) (p := p) (f := fun r => { r with prio := n }) fun _ => rfl))
    intro x
    refine (Core.lien_deplace (s := s) (u := s.maj p fun r => { r with prio := n })
      (t := .file (s.tas p).fid) (k := (·.prio)) rfl).trans ?_
    split
    · next hx => exact hx ▸ hpl.symm
    · rfl
  | @chprioAutre _ p n hn hv hpid hp he' _ =>
    exact h.moins (rien.puis rfl (fun _ => rfl) (Core.contexte_maj fun _ => rfl))
  | @tueZombie _ p pere t hpid hp hz hm ht hpere =>
    have hvp := (hc.pere p pere (hc.lie p t ht) hm hpere).1
    have m : MoinsFile s (((s.note (.tue p)).retire p).maj p fun r => { r with etat := .zombie }) :=
      (MoinsFile.retire (s := s) (p := p)).puis rfl (fun _ => rfl)
        (Core.contexte_maj (s := s.retire p) (p := p) (f := fun r => { r with etat := .zombie })
          fun _ => rfl)
    refine h.moins (m.trans (.reveillePere ?_))
    intro hpe
    have hne : pere ≠ p := by
      rintro rfl
      simp at hpe
    rw [Core.tas_maj, if_neg hne] at hpe
    rw [Core.lien_maj, Core.lien_retire, if_neg hne]
    exact hc.lien_of_attendFils hvp hpe
  | @tueMourant _ p t hpid hp hz hm ht hpere =>
    refine h.moins (.de (p := p) (t := .procMourants) rfl (by simp) ?_ ?_)
    · exact fun x => Core.lien_deplace (s := s)
        (u := (s.note (.tue p)).maj p fun r => { r with etat := .mourant }) rfl
    · exact fun x _ => Core.contexte_maj (s := s) (p := p)
        (f := fun r => { r with etat := .mourant }) (fun _ => rfl) x
  | recolte hcf hz hl =>
    have R := hc.recolte_spec he hcf hz hl
    exact h.moins (.de rfl (by simp) R.lien fun x _ => (R.champs x).2.2.1)
  | liberation hlib hvide => exact h.moins (.liberation hc hlib)
  | reveil hp => exact h.moins .eveille
  | reveilEs hp => exact h.moins .eveille
  | @creeFile _ fid n adr l cell m hl hfid h0 hN hn hadr hm =>
    refine h.fichier fid (fun i hi => by simp [hi]) ?_ ?_
    · intro p hp
      rw [show (_ : Core).elems (.file fid) = [] from
        LinkedQueues.elems_reset.trans (if_pos rfl)] at hp
      cases hp
    · intro i p hi hp
      rw [show (_ : Core).lien p = _ from LinkedQueues.link_reset] at hp
      split at hp
      · cases hp
      · exact ⟨hp, rfl⟩
  | echec hf hp => exact h.moins (MoinsFile.eveille.puis rfl (fun _ => rfl) fun _ => rfl)
  | @vide _ fid f hf hp =>
    refine h.fichier fid (fun i hi => by simp [hi]) ?_ fun _ _ _ hp => ⟨hp, rfl⟩
    intro p hm
    exact List.not_mem_nil (hp ▸ (show p ∈ s.elems (.file fid) from hm))
  | @supprimeFile _ fid f adr n hf hp hn =>
    refine h.fichier fid (fun i hi => by simp [hi]) ?_ fun _ _ _ hp => ⟨hp, rfl⟩
    intro p hm
    exact List.not_mem_nil (hp ▸ (show p ∈ s.elems (.file fid) from hm))
  | @remis _ fid v f p hidle hf hvide hp =>
    have m : MoinsFile s (s.emet f v) := rien.puis rfl (fun _ => rfl) Core.contexte_emet
    exact h.moins ((m.trans .eveille).puis rfl (fun _ => rfl) fun _ => rfl)
  | @depose _ fid v f adr n hidle hf hnon hlt hn =>
    refine h.fichier fid (fun i hi => by simp [Core.emet, hi]) ?_ ?_
    · intro p hm
      exact h.personne hf hnon hlt p (LinkedQueues.link_of_mem hm)
    · intro i p _ hp
      exact ⟨hp, Core.contexte_emet p⟩
  | @prend _ fid f l msg m hidle hf hl hp =>
    refine h.fichier fid (fun i hi => by simp [Core.recoit, hi]) ?_ ?_
    · intro p hm
      exact List.not_mem_nil (hp ▸ (show p ∈ s.elems (.file fid) from hm))
    · intro i p _ hp
      exact ⟨hp, Core.contexte_recoit p⟩
  | @relaye _ fid f l msg p adr m n hidle hf hl hp hn =>
    have m₁ : MoinsFile s (s.recoit f m) := rien.puis rfl (fun _ => rfl) Core.contexte_recoit
    have m₂ : MoinsFile (s.recoit f m) ((s.recoit f m).majFile fid
        (some { f with queueMsg := ⟨adr, (s.tas p).fileValue⟩ :: l })) :=
      .majFile hf (by simp [getNbMsg, hl]) rfl
    refine h.moins (MoinsFile.trans ?_ .eveille)
    exact (m₁.trans m₂).puis rfl (fun _ => rfl) fun _ => rfl
  | @creeSem _ sid c adr l cell m sem hl hsid hcount hsem hadr hfrais hm =>
    refine h.moins (.of_attente rfl ?_)
    intro fid p hp
    rw [show (_ : Core).lien p = _ from LinkedQueues.link_reset] at hp
    split at hp
    · cases hp
    · exact ⟨hp, rfl⟩
  | rendSid hl hn => exact h.moins (rien.puis rfl (fun _ => rfl) fun _ => rfl)
  | sdelete hs hr hp hn hb =>
    exact h.moins ((MoinsFile.rejets hr).puis rfl (fun _ => rfl) fun _ => rfl)
  | sreset hs hr hp h0 hcount hb =>
    exact h.moins ((MoinsFile.rejets hr).puis rfl (fun _ => rfl) fun _ => rfl)
  | signale hs hmax hpos => exact h.moins (rien.puis rfl (fun _ => rfl) fun _ => rfl)
  | @signaleReveil _ sid sem p hs hmax hneg hp =>
    have m : MoinsFile s ((s.majSem sid (some (sem.setCount (sem.count + 1)))).note
        (.semUnite sem.adr s.procElu)) := rien.puis rfl (fun _ => rfl) fun _ => rfl
    exact h.moins ((m.trans .eveille).puis rfl (fun _ => rfl) fun _ => rfl)
  | prendSem hs hpos => exact h.moins (rien.puis rfl (fun _ => rfl) fun _ => rfl)

-- ---------------------------------------------------------------------------
-- Exit transitions and election
-- ---------------------------------------------------------------------------

/-- The elected process leaves with the return point `k`, and waits on no file. -/
theorem empile {k : Reprise} (h : s.Homogene) (m : MoinsFile s s')
    (hl : ∀ fid, s'.lien s'.procElu ≠ some (.file fid)) : (s'.empile k).Homogene := by
  refine h.moins (m.trans (.of_attente rfl ?_))
  intro fid p hp
  refine ⟨hp, ?_⟩
  rw [Core.empile, Core.tas_maj, if_neg]
  rintro rfl
  exact hl fid hp

/-- The elected process blocks on a file, as its number of messages says. -/
theorem bloque {k : Reprise} {fid : Int} {f : File} (h : s.Homogene)
    (hf : s.tableauFile fid = some f)
    (hk : f.queueMsg = [] ∧ (∃ m, k = .preceive m) ∨ getNbMsg f = f.maxMsg ∧ k = .psend)
    {s₁ : Core} (m : MoinsFile s s₁) (helu : s₁.procElu = s.procElu)
    (hfile : s₁.tableauFile = s.tableauFile) (hl₁ : s₁.lien s.procElu = none) :
    ((s₁.bloqueFile fid).empile k).Homogene := by
  have hlien : ∀ x, ((s₁.bloqueFile fid).empile k).lien x =
      if x = s.procElu then some (.file fid) else s₁.lien x := by
    intro x
    rw [← helu] at hl₁ ⊢
    exact Core.lien_ajoute hl₁
  have hctx : ∀ x, (((s₁.bloqueFile fid).empile k).tas x).contexte =
      if x = s.procElu then k else (s₁.tas x).contexte := by
    intro x
    by_cases hx : x = s.procElu <;> simp [Core.empile, Core.bloqueFile, helu, hx]
  intro i f' p hf' hp
  have hf' : s.tableauFile i = some f' := by rw [← hfile]; exact hf'
  rw [hlien] at hp
  rw [hctx]
  split
  · next hx =>
    rw [if_pos hx] at hp
    cases hp
    rw [hf] at hf'
    cases hf'
    exact hk
  · next hx =>
    rw [if_neg hx] at hp
    obtain ⟨hp', hc⟩ := m.attente i p hp
    rw [hc]
    exact h i f' p hf' hp'

theorem sortie {m : Motif} {k : Reprise} (h : s.Homogene) (hst : Stable s) (he : s.EnCours)
    (q : Sortie m k s s') : (s'.empile k).Homogene := by
  have hc := hst.coherent
  have hl := hc.lien_procElu he
  have rien : MoinsFile s s := .refl
  -- a process linked into a list that is not that of a file
  have lie : ∀ {s₁ : Core} {t : Tete}, s₁.tableauFile = s.tableauFile →
      s₁.procElu = s.procElu → (∀ fid, t ≠ .file fid) →
      (∀ x, s₁.lien x = if x = s.procElu then some t else s.lien x) →
      (∀ x, x ≠ s.procElu → (s₁.tas x).contexte = (s.tas x).contexte) → (s₁.empile k).Homogene := by
    intro s₁ t hfile helu ht hlien hctx
    refine h.empile (.de hfile ht hlien hctx) ?_
    intro fid
    rw [helu, hlien, if_pos rfl]
    exact fun hx => ht fid (Option.some.inj hx)
  -- a process that is in no list
  have libre : ∀ {s₁ : Core}, MoinsFile s s₁ → s₁.procElu = s.procElu →
      (s₁.empile k).Homogene := by
    intro s₁ m helu
    refine h.empile m ?_
    intro fid hx
    rw [helu] at hx
    rw [(m.attente fid _ hx).1] at hl
    cases hl
  cases q with
  | suspend hk => exact libre rien rfl
  | endort hidle =>
    refine lie (t := .procEndormis) rfl rfl (by simp) (fun x => Core.lien_ajoute hl) ?_
    intro x hx
    simp [hx]
  | @emission _ fid v f hidle hf hnon hplein =>
    have m₁ : MoinsFile s (s.emet f v) := rien.puis rfl (fun _ => rfl) Core.contexte_emet
    exact h.bloque hf (.inr ⟨hplein.symm, rfl⟩) m₁ rfl rfl hl
  | @reception _ fid f m hidle hf hvide =>
    have m₁ : MoinsFile s (s.recoit f m) := rien.puis rfl (fun _ => rfl) Core.contexte_recoit
    exact h.bloque hf (.inl ⟨hvide, m, rfl⟩) m₁ rfl rfl hl
  | @wait _ sid sem hidle hs hmin hneg =>
    refine lie (t := .semaphore sid) rfl rfl (by simp) (fun x => Core.lien_ajoute hl) ?_
    intro x hx
    simp [hx]
  | consRead hidle =>
    refine lie (t := .procBloqueEs) rfl rfl (by simp) (fun x => Core.lien_ajoute hl) ?_
    intro x hx
    simp [hx]
  | waitpid hidle hcf hpid h0 hz =>
    exact libre (rien.puis rfl (fun _ => rfl) (Core.contexte_maj (s := s)
      (f := fun r => { r with etat := .attendFils }) fun _ => rfl)) rfl
  | waitpidFils hidle hne hz h0 =>
    exact libre (rien.puis rfl (fun _ => rfl) (Core.contexte_maj (s := s)
      (f := fun r => { r with etat := .attendFils }) fun _ => rfl)) rfl
  | @exitZombie _ v pere hidle hpere =>
    have hvp := (hc.pere _ pere he.vivant (by rw [he.etat]; decide) hpere).1
    refine libre (MoinsFile.trans ?_ (.reveillePere ?_)) Stable.champs_reveillePere.1
    · refine rien.puis rfl (fun _ => rfl) fun x => ?_
      by_cases hx : x = s.procElu <;> simp [hx]
    · intro hpe
      have hne : pere ≠ s.procElu := by
        rintro rfl
        simp at hpe
      refine hc.lien_of_attendFils hvp ?_
      simpa [hne] using hpe
  | exitMourant hidle hpere =>
    refine libre (rien.puis rfl (fun _ => rfl) fun x => ?_) rfl
    by_cases hx : x = s.procElu <;> simp [hx]
  | suicideZombie hidle hpere =>
    exact libre (rien.puis rfl (fun _ => rfl) (Core.contexte_maj (s := s)
      (f := fun r => { r with etat := .zombie }) fun _ => rfl)) rfl
  | suicideMourant hidle hpere =>
    exact libre (rien.puis rfl (fun _ => rfl) (Core.contexte_maj (s := s)
      (f := fun r => { r with etat := .mourant }) fun _ => rfl)) rfl

theorem election (h : s.Homogene) (hst : Stable s) (hvide : s.elems .procMourants = [])
    (hna : (s.tas s.procElu).etat ≠ .activable) (hel : Election s s') : s'.Homogene := by
  cases hel with
  | aucune _ => exact h
  | @elit p hv hp =>
    have D := hst.depose hv hna hvide
    have m : MoinsFile s s.depose := by
      refine .of_attente s.depose_tables.1 ?_
      intro fid x hx
      have hm : x ∈ s.depose.elems (.file fid) := (s.depose.chainage.mem_iff x _).mpr hx
      rw [D.elems _ (by simp) (by simp)] at hm
      exact ⟨LinkedQueues.link_of_mem hm, by rw [D.champs x]⟩
    refine h.moins (m.trans ?_)
    exact (MoinsFile.retire (p := p)).puis rfl (fun _ => rfl)
      (Core.contexte_maj (s := s.depose) (p := p) (f := fun r => { r with etat := .elu })
        fun _ => rfl)

theorem conserve {C : Cadre} : Conserve C Core.Homogene where
  quiet hst he h _ q := h.quiet hst he q
  sortie hst he h _ q := h.sortie hst he q
  libere hc h hl := h.moins (.liberation_pas hc hl)
  election hst hvide hna h hel := h.election hst hvide hna hel
  retour _ _ _ h := h

/-- Popping the return point of a process just elected. -/
theorem depile (h : s.Homogene) (hst : Stable s) (he : s.Elu) {k : Reprise} :
    (s.empile k).Homogene := by
  refine h.empile .refl ?_
  intro fid hl
  have het : (s.tas s.procElu).etat = .attendFile := hst.coherent.etat_of_lien hl
  rw [he.etat] at het
  cases het

end Core.Homogene

end GenesisOS
