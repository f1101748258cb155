import GenesisOS.Abstract.Preservation

/-!
# GenesisOS — creating and reaping processes keep the coherence

The two transitions that change a family: `start`, which links a new process
to its father, and the end of `waitpid`, which unlinks a zombie from it.
-/

namespace GenesisOS

open Lib

-- ---------------------------------------------------------------------------
-- Unlinking a child
-- ---------------------------------------------------------------------------

theorem retireFils_eq {c : Ptr} {l l' : List Fils} (h : retireFils c l = some l') :
    l'.map Fils.procFils = (l.map Fils.procFils).erase c := by
  induction l generalizing l' with
  | nil => cases h
  | cons f l ih =>
    rw [retireFils] at h
    by_cases hf : f.procFils = c
    · rw [if_pos hf] at h
      cases h
      simp [hf]
    · rw [if_neg hf] at h
      obtain ⟨l₁, hl₁, rfl⟩ := Option.map_eq_some_iff.mp h
      rw [List.map_cons, List.map_cons, List.erase_cons_tail (by simpa using hf), ih hl₁]

theorem retireFils_isSome {c : Ptr} {l : List Fils} (hc : c ∈ l.map Fils.procFils) :
    ∃ l', retireFils c l = some l' := by
  induction l with
  | nil => cases hc
  | cons f l ih =>
    rw [retireFils]
    by_cases hf : f.procFils = c
    · exact ⟨l, if_pos hf⟩
    · rw [if_neg hf]
      rcases List.mem_cons.mp hc with hc | hc
      · exact absurd hc.symm hf
      · obtain ⟨l', hl'⟩ := ih hc
        exact ⟨f :: l', by rw [hl']; rfl⟩

namespace Core

variable {s : Core} {c x : Ptr} {l : List Fils}

theorem tas_recolte : (s.recolte c l).tas x =
    if x = c then
      { (if c = s.procElu then { s.tas s.procElu with filsTete := l } else s.tas c) with
        etat := .mourant, pere := none }
    else if x = s.procElu then { s.tas s.procElu with filsTete := l } else s.tas x := by
  simp [recolte, Function.update_apply]

theorem lien_recolte (hc : s.lien c = none) :
    (s.recolte c l).lien x = if x = c then some .procMourants else s.lien x := by
  unfold recolte
  rw [lien_ajoute (by simpa using hc)]
  rfl

end Core

namespace Coherent

variable {s s' : Core} {p q c f : Ptr}

theorem lien_of_zombie (h : Coherent s) (hv : s.vivant p = true) (hz : (s.tas p).etat = .zombie) :
    s.lien p = none := by
  have hpl := h.place p hv
  unfold Core.Place at hpl
  rwa [hz] at hpl

theorem lien_of_attendFils (h : Coherent s) (hv : s.vivant p = true)
    (he : (s.tas p).etat = .attendFils) : s.lien p = none := by
  have hpl := h.place p hv
  unfold Core.Place at hpl
  rwa [he] at hpl

theorem ne_procElu_of_zombie (he : s.EnCours) (hz : (s.tas c).etat = .zombie) :
    c ≠ s.procElu := by
  rintro rfl
  rw [he.etat] at hz
  cases hz

/-- What the end of `waitpid` does when it reaps the zombie `c`. -/
structure Recolte (c : Ptr) (s s' : Core) : Prop where
  champs : ∀ x, (s'.tas x).pid = (s.tas x).pid ∧ (s'.tas x).prio = (s.tas x).prio ∧
    (s'.tas x).contexte = (s.tas x).contexte ∧ (s'.tas x).fid = (s.tas x).fid ∧
    (s'.tas x).retval = (s.tas x).retval ∧ (s'.tas x).fileValue = (s.tas x).fileValue ∧
    (s'.tas x).operationStatus = (s.tas x).operationStatus
  etat : ∀ x, (s'.tas x).etat = if x = c then .mourant else (s.tas x).etat
  pere : ∀ x, (s'.tas x).pere = if x = c then none else (s.tas x).pere
  fils : ∀ x, s'.fils x = if x = s.procElu then (s.fils s.procElu).erase c else s.fils x
  lien : ∀ x, s'.lien x = if x = c then some .procMourants else s.lien x
  elems : ∀ t, t ≠ .procMourants → s'.elems t = s.elems t

theorem recolte_spec (h : Coherent s) (he : s.EnCours) (hc : c ∈ s.fils s.procElu)
    (hz : (s.tas c).etat = .zombie) {l : List Fils}
    (hl : retireFils c (s.tas s.procElu).filsTete = some l) : Recolte c s (s.recolte c l) := by
  have hcl := h.lien_of_zombie (h.fils _ c he.vivant hc).1 hz
  have hce : c ≠ s.procElu := ne_procElu_of_zombie he hz
  have htas : ∀ x, (s.recolte c l).tas x =
      if x = c then { s.tas c with etat := .mourant, pere := none }
      else if x = s.procElu then { s.tas s.procElu with filsTete := l } else s.tas x := by
    intro x
    rw [Core.tas_recolte, if_neg hce]
  refine ⟨?_, ?_, ?_, ?_, fun x => Core.lien_recolte hcl, ?_⟩
  · intro x
    rw [htas]
    by_cases hx : x = c
    · simp [hx]
    · by_cases hx' : x = s.procElu <;> simp [hx, hx', hce.symm]
  · intro x
    rw [htas]
    by_cases hx : x = c
    · simp [hx]
    · by_cases hx' : x = s.procElu <;> simp [hx, hx', hce.symm]
  · intro x
    rw [htas]
    by_cases hx : x = c
    · simp [hx]
    · by_cases hx' : x = s.procElu <;> simp [hx, hx', hce.symm]
  · intro x
    unfold Core.fils
    rw [htas]
    by_cases hx : x = c
    · subst hx
      simp [hce]
    · by_cases hx' : x = s.procElu
      · simp [hx', hce.symm, retireFils_eq hl]
      · simp [hx, hx']
  · intro t ht
    show (s.chainage.add .procMourants c _).elems t = _
    rw [LinkedQueues.elems_add hcl, if_neg ht]

theorem recolte (h : Coherent s) (he : s.EnCours) (hc : c ∈ s.fils s.procElu)
    (hz : (s.tas c).etat = .zombie) {l : List Fils}
    (hl : retireFils c (s.tas s.procElu).filsTete = some l) : Coherent (s.recolte c l) := by
  obtain ⟨hcv, hcp, -⟩ := h.fils _ c he.vivant hc
  have hci : c ≠ s.procIdle := h.ne_idle_of_etat (by rw [hz]; decide) (by rw [hz]; decide)
  have hei : s.procElu ≠ s.procIdle := h.ne_idle_of_pere he.vivant hc
  have R := h.recolte_spec he hc hz hl
  refine
    { place := ?_, lie := ?_, lieFile := ?_, lieSem := ?_, tri := ?_, file := h.file
      fidLibre := h.fidLibre, fidUnique := h.fidUnique, sem := h.sem, sidLibre := h.sidLibre
      sidUnique := h.sidUnique, table := ?_, inscrit := ?_, pid := ?_, pidLibre := h.pidLibre
      pidUnique := h.pidUnique, ancien := h.ancien, pere := ?_, fils := ?_, filsUnique := ?_
      orphelin := ?_, idle := ?_, idleEtat := ?_, idleContexte := ?_, prio := ?_, suspendu := ?_ }
  · intro p hv
    by_cases hp : p = c
    · subst hp
      unfold Core.Place
      rw [R.etat, if_pos rfl]
      exact .inl ((R.lien p).trans (if_pos rfl))
    · have hpl := h.place p hv
      unfold Core.Place at hpl ⊢
      rw [R.etat, if_neg hp, (R.champs p).2.2.2.1, R.lien, if_neg hp]
      exact hpl
  · intro p t hp
    rw [R.lien] at hp
    by_cases hpc : p = c
    · rw [hpc]
      exact hcv
    · rw [if_neg hpc] at hp
      exact h.lie p t hp
  · intro p fid hp
    rw [R.lien] at hp
    split at hp
    · cases hp
    · exact h.lieFile p fid hp
  · intro p sid hp
    rw [R.lien] at hp
    split at hp
    · cases hp
    · exact h.lieSem p sid hp
  · refine LinkedQueues.Sorted.add_of_ne (h := Tete.procActivables) ?_ (by decide)
    refine h.tri.congr ?_
    intro x _
    exact (R.champs x).2.1
  · intro i p hp
    rw [(R.champs p).1]
    exact h.table i p hp
  · intro p hv
    rw [(R.champs p).1]
    exact h.inscrit p hv
  · intro p hv
    rw [(R.champs p).1]
    exact h.pid p hv
  · intro d g hd hm hg
    rw [R.etat] at hm
    have hdc : d ≠ c := fun hx => hm (if_pos hx)
    rw [if_neg hdc] at hm
    rw [R.pere, if_neg hdc] at hg
    obtain ⟨hgv, hdg⟩ := h.pere d g hd hm hg
    refine ⟨hgv, ?_⟩
    rw [R.fils]
    split
    · next hge => exact (List.mem_erase_of_ne hdc).mpr (hge ▸ hdg)
    · exact hdg
  · intro g d hg hd
    rw [R.fils] at hd
    have hdg : d ∈ s.fils g ∧ d ≠ c := by
      split at hd
      · next hge =>
        rw [(h.filsUnique _ he.vivant).mem_erase_iff] at hd
        exact ⟨hge ▸ hd.2, hd.1⟩
      · next hge =>
        refine ⟨hd, ?_⟩
        rintro rfl
        have := (h.fils g d hg hd).2.1
        rw [hcp] at this
        exact hge (Option.some.inj this).symm
    obtain ⟨hdv, hdp, hdm⟩ := h.fils g d hg hdg.1
    rw [R.pere, R.etat, if_neg hdg.2, if_neg hdg.2]
    exact ⟨hdv, hdp, hdm⟩
  · intro g hg
    rw [R.fils]
    split
    · exact (h.filsUnique _ he.vivant).erase c
    · exact h.filsUnique g hg
  · intro p hp hm
    by_cases hpc : p = c
    · subst hpc
      exact .inl ((R.pere p).trans (if_pos rfl))
    · rw [R.etat, if_neg hpc] at hm
      rw [R.pere, R.lien, if_neg hpc, if_neg hpc]
      exact h.orphelin p hp hm
  · show s.vivant s.procIdle = true ∧ _
    have hi := h.idle
    rw [show (s.recolte c l).procIdle = s.procIdle from rfl, (R.champs _).1, (R.champs _).2.1, R.fils,
      if_neg hei.symm]
    exact hi
  · show ((s.recolte c l).tas s.procIdle).etat = _ ∨ ((s.recolte c l).tas s.procIdle).etat = _
    rw [R.etat, if_neg hci.symm]
    exact h.idleEtat
  · show ((s.recolte c l).tas s.procIdle).contexte.volontaire = true
    rw [(R.champs _).2.2.1]
    exact h.idleContexte
  · intro p hp hpi
    rw [(R.champs p).2.1]
    exact h.prio p hp hpi
  · intro p hp
    by_cases hpc : p = c
    · subst hpc
      exact .of_mort (.inr ((R.etat p).trans (if_pos rfl)))
    by_cases hpe : p = s.procElu
    · subst hpe
      refine .of_volontaire ?_ (.inl ?_)
      · rw [(R.champs _).2.2.1]
        rcases he.contexte with hx | hx <;> rw [hx] <;> rfl
      · rw [R.etat, if_neg hpc]
        exact he.etat
    have hs := h.suspendu p hp
    have hmort : (s.recolte c l).Mort p ↔ s.Mort p := by
      unfold Core.Mort
      rw [R.etat, if_neg hpc]
    have hfp : (s.recolte c l).fils p = s.fils p := by rw [R.fils, if_neg hpe]
    refine ⟨?_, ?_, ?_, ?_, ?_, ?_, ?_⟩
    all_goals simp only [R.etat, if_neg hpc, (R.champs _).2.2.1, hmort, hfp, (R.champs _).1]
    · exact hs.file
    · exact hs.semaphore
    · exact hs.es
    · exact hs.fils
    · exact hs.exit
    · exact hs.waitpid
    · exact hs.waitpidFils

-- ---------------------------------------------------------------------------
-- Creating a process
-- ---------------------------------------------------------------------------

/-- What `start` does when it creates `p` from the record `r`. -/
structure Cree (p : Ptr) (r : Processus) (s s' : Core) : Prop where
  vivant : ∀ x, s'.vivant x = if x = p then true else s.vivant x
  nouveau : s'.tas p =
    { r with pere := if s.procElu = s.procIdle then none else some s.procElu }
  champs : ∀ x, x ≠ p → (s'.tas x).pid = (s.tas x).pid ∧ (s'.tas x).prio = (s.tas x).prio ∧
    (s'.tas x).contexte = (s.tas x).contexte ∧ (s'.tas x).fid = (s.tas x).fid ∧
    (s'.tas x).retval = (s.tas x).retval ∧ (s'.tas x).fileValue = (s.tas x).fileValue ∧
    (s'.tas x).operationStatus = (s.tas x).operationStatus ∧ (s'.tas x).etat = (s.tas x).etat ∧
    (s'.tas x).pere = (s.tas x).pere
  fils : ∀ x, x ≠ p → s'.fils x =
    if x = s.procElu ∧ s.procElu ≠ s.procIdle then p :: s.fils x else s.fils x
  lien : ∀ x, s'.lien x = if x = p then some .procActivables else s.lien x
  elems : ∀ t, t ≠ .procActivables → s'.elems t = s.elems t
  table : ∀ i, s'.tableDesProcs i = if i = r.pid then some p else s.tableDesProcs i

theorem nouveau (h : Coherent s) (hp : s.prochain ≤ p) : s.vivant p = false ∧ s.lien p = none := by
  have hv : s.vivant p = false := by
    by_contra hv
    exact absurd ((h.ancien p (by simpa using hv)).trans_le hp) (lt_irrefl p)
  refine ⟨hv, ?_⟩
  cases hl : s.lien p with
  | none => rfl
  | some t =>
    rw [h.lie p t hl] at hv
    cases hv

theorem cree_spec (h : Coherent s) (he : s.EnCours) (r : Processus) (reste : List PidLibre)
    (adr n : Nat) (hp : s.prochain ≤ p) : Cree p r s (s.cree p r reste adr n) := by
  obtain ⟨-, hl⟩ := h.nouveau hp
  have hpe : p ≠ s.procElu := by
    rintro rfl
    exact absurd ((h.ancien _ he.vivant).trans_le hp) (lt_irrefl _)
  refine ⟨?_, ?_, ?_, ?_, fun x => Core.lien_ajoute hl, ?_, ?_⟩
  · intro x
    exact Function.update_apply _ _ _ _
  · simp [Core.cree]
  · intro x hx
    simp only [Core.cree, Core.ajoute_tas, Core.note_tas, if_neg hx]
    split <;> exact ⟨rfl, rfl, rfl, rfl, rfl, rfl, rfl, rfl, rfl⟩
  · intro x hx
    simp only [Core.fils, Core.cree, Core.ajoute_tas, Core.note_tas, if_neg hx]
    split
    · rfl
    · rfl
  · intro t ht
    show (s.chainage.add .procActivables p _).elems t = _
    rw [LinkedQueues.elems_add hl, if_neg ht]
  · intro i
    exact Function.update_apply _ _ _ _

theorem cree (h : Coherent s) (he : s.EnCours) {r : Processus} {cell : PidLibre}
    {reste : List PidLibre} {adr n : Nat} (hl : s.pidLibreTete = cell :: reste)
    (hp : s.prochain ≤ p) (hn : p < n) (hpid : r.pid = cell.pid) (hetat : r.etat = .activable)
    (hctx : r.contexte = .debut) (hfils : r.filsTete = []) (hprio : 0 < r.prio) :
    Coherent (s.cree p r reste adr n) := by
  obtain ⟨hvp, hlp⟩ := h.nouveau hp
  have C := h.cree_spec he r reste adr n hp
  have hpe : p ≠ s.procElu := by
    rintro rfl
    rw [he.vivant] at hvp
    cases hvp
  have hpi : p ≠ s.procIdle := by
    rintro rfl
    rw [h.idle.1] at hvp
    cases hvp
  have hlibre := h.pidLibre
  have hunique := h.pidUnique
  rw [hl] at hlibre hunique
  obtain ⟨hpid0, hpidN, hpidNone⟩ := hlibre cell (by simp)
  rw [← hpid] at hpid0 hpidN hpidNone
  -- the new process has an identifier of its own
  have hnew : ∀ x, s.vivant x = true → (s.tas x).pid ≠ r.pid := by
    intro x hx hxp
    have := h.inscrit x hx
    rw [hxp, hpidNone] at this
    cases this
  have hnouvFils : (s.cree p r reste adr n).fils p = [] := by
    unfold Core.fils
    rw [C.nouveau]
    show r.filsTete.map _ = []
    rw [hfils]
    rfl
  have hetatp : ((s.cree p r reste adr n).tas p).etat = .activable := by rw [C.nouveau]; exact hetat
  have hctxp : ((s.cree p r reste adr n).tas p).contexte = .debut := by rw [C.nouveau]; exact hctx
  have hpidp : ((s.cree p r reste adr n).tas p).pid = r.pid := by rw [C.nouveau]
  have hpriop : ((s.cree p r reste adr n).tas p).prio = r.prio := by rw [C.nouveau]
  have hvivant : ∀ x, x ≠ p → ((s.cree p r reste adr n).vivant x = true ↔ s.vivant x = true) := by
    intro x hx
    rw [C.vivant, if_neg hx]
  have hfilsOld : ∀ x, x ≠ p → ∀ d ∈ s.fils x, d ∈ (s.cree p r reste adr n).fils x := by
    intro x hx d hd
    rw [C.fils x hx]
    split
    · exact List.mem_cons_of_mem _ hd
    · exact hd
  -- an old process is not a child of the new one, nor the new one an old child
  have hpnot : ∀ x, s.vivant x = true → p ∉ s.fils x := by
    intro x hx hm
    have := (h.fils x p hx hm).1
    rw [hvp] at this
    cases this
  refine
    { place := ?_, lie := ?_, lieFile := ?_, lieSem := ?_, tri := ?_, file := h.file
      fidLibre := h.fidLibre, fidUnique := h.fidUnique, sem := h.sem, sidLibre := h.sidLibre
      sidUnique := h.sidUnique, table := ?_, inscrit := ?_, pid := ?_, pidLibre := ?_
      pidUnique := hunique.of_cons, ancien := ?_, pere := ?_, fils := ?_, filsUnique := ?_
      orphelin := ?_, idle := ?_, idleEtat := ?_, idleContexte := ?_, prio := ?_, suspendu := ?_ }
  · intro x hx
    by_cases hxp : x = p
    · subst hxp
      unfold Core.Place
      rw [hetatp]
      exact (C.lien x).trans (if_pos rfl)
    · have hpl := h.place x ((hvivant x hxp).mp hx)
      obtain ⟨-, -, -, hfid, -, -, -, het, -⟩ := C.champs x hxp
      unfold Core.Place at hpl ⊢
      rw [het, hfid, C.lien, if_neg hxp]
      exact hpl
  · intro x t hx
    by_cases hxp : x = p
    · rw [hxp, C.vivant, if_pos rfl]
    · rw [C.lien, if_neg hxp] at hx
      exact (hvivant x hxp).mpr (h.lie x t hx)
  · intro x fid hx
    rw [C.lien] at hx
    split at hx
    · cases hx
    · exact h.lieFile x fid hx
  · intro x sid hx
    rw [C.lien] at hx
    split at hx
    · cases hx
    · exact h.lieSem x sid hx
  · refine LinkedQueues.Sorted.add (h.tri.congr ?_)
    intro x hx
    have hxp : x ≠ p := by
      rintro rfl
      have hlx : s.lien x = some .procActivables := LinkedQueues.link_of_mem hx
      rw [hlp] at hlx
      cases hlx
    exact (C.champs x hxp).2.1
  · intro i x hx
    rw [C.table] at hx
    split at hx
    · next hi =>
      cases hx
      rw [C.vivant, if_pos rfl, hpidp]
      exact ⟨rfl, hi.symm⟩
    · obtain ⟨hv, hpx⟩ := h.table i x hx
      have hxp : x ≠ p := by
        rintro rfl
        rw [hvp] at hv
        cases hv
      rw [(C.champs x hxp).1]
      exact ⟨(hvivant x hxp).mpr hv, hpx⟩
  · intro x hx
    by_cases hxp : x = p
    · rw [hxp, hpidp, C.table, if_pos rfl]
    · have hv := (hvivant x hxp).mp hx
      rw [(C.champs x hxp).1, C.table, if_neg (hnew x hv)]
      exact h.inscrit x hv
  · intro x hx
    by_cases hxp : x = p
    · rw [hxp, hpidp]
      exact ⟨hpid0.le, hpidN⟩
    · rw [(C.champs x hxp).1]
      exact h.pid x ((hvivant x hxp).mp hx)
  · intro c hc
    obtain ⟨h0, hN, hnone⟩ := hlibre c (List.mem_cons_of_mem _ hc)
    refine ⟨h0, hN, ?_⟩
    rw [C.table, if_neg]
    · exact hnone
    · intro he'
      rw [List.map_cons, List.nodup_cons] at hunique
      exact hunique.1 (List.mem_map.mpr ⟨c, hc, he'.trans hpid⟩)
  · intro x hx
    show x < n
    by_cases hxp : x = p
    · rw [hxp]
      exact hn
    · exact ((h.ancien x ((hvivant x hxp).mp hx)).trans_le hp).trans hn
  · intro c f hc hm hf
    by_cases hcp : c = p
    · subst hcp
      rw [C.nouveau] at hf
      simp only at hf
      split at hf
      · cases hf
      · next hei =>
        cases hf
        refine ⟨(hvivant _ hpe.symm).mpr he.vivant, ?_⟩
        rw [C.fils _ hpe.symm, if_pos ⟨rfl, hei⟩]
        exact List.mem_cons_self
    · obtain ⟨-, -, -, -, -, -, -, het, hpere⟩ := C.champs c hcp
      rw [het] at hm
      rw [hpere] at hf
      obtain ⟨hfv, hcf⟩ := h.pere c f ((hvivant c hcp).mp hc) hm hf
      have hfp : f ≠ p := by
        rintro rfl
        rw [hvp] at hfv
        cases hfv
      exact ⟨(hvivant f hfp).mpr hfv, hfilsOld f hfp c hcf⟩
  · intro f c hf hc
    by_cases hfp : f = p
    · subst hfp
      rw [hnouvFils] at hc
      cases hc
    · have hfv := (hvivant f hfp).mp hf
      rw [C.fils f hfp] at hc
      have hold : c ∈ s.fils f → (s.cree p r reste adr n).vivant c = true ∧
          ((s.cree p r reste adr n).tas c).pere = some f ∧
          ((s.cree p r reste adr n).tas c).etat ≠ .mourant := by
        intro hc
        have hcp : c ≠ p := fun hx => hpnot f hfv (hx ▸ hc)
        obtain ⟨-, -, -, -, -, -, -, het, hpere⟩ := C.champs c hcp
        obtain ⟨hcv, hcpere, hcm⟩ := h.fils f c hfv hc
        rw [het, hpere]
        exact ⟨(hvivant c hcp).mpr hcv, hcpere, hcm⟩
      split at hc
      · next hfe =>
        rcases List.mem_cons.mp hc with rfl | hc
        · refine ⟨by rw [C.vivant, if_pos rfl], ?_, by rw [hetatp]; decide⟩
          rw [C.nouveau]
          simp only [if_neg hfe.2, hfe.1]
        · exact hold hc
      · exact hold hc
  · intro f hf
    by_cases hfp : f = p
    · rw [hfp, hnouvFils]
      exact List.nodup_nil
    · have hfv := (hvivant f hfp).mp hf
      rw [C.fils f hfp]
      split
      · exact List.nodup_cons.mpr ⟨hpnot f hfv, h.filsUnique f hfv⟩
      · exact h.filsUnique f hfv
  · intro x hx hm
    by_cases hxp : x = p
    · rw [hxp, hetatp] at hm
      cases hm
    · obtain ⟨-, -, -, -, -, -, -, het, hpere⟩ := C.champs x hxp
      rw [het] at hm
      rw [hpere, C.lien, if_neg hxp]
      exact h.orphelin x ((hvivant x hxp).mp hx) hm
  · obtain ⟨hv, hpid', hpr, hfi⟩ := h.idle
    show (s.cree p r reste adr n).vivant s.procIdle = true ∧
      ((s.cree p r reste adr n).tas s.procIdle).pid = 0 ∧
      ((s.cree p r reste adr n).tas s.procIdle).prio = 0 ∧
      (s.cree p r reste adr n).fils s.procIdle = []
    rw [(C.champs _ hpi.symm).1, (C.champs _ hpi.symm).2.1, C.fils _ hpi.symm, if_neg]
    · exact ⟨(hvivant _ hpi.symm).mpr hv, hpid', hpr, hfi⟩
    · rintro ⟨hx, hx'⟩
      exact hx' hx.symm
  · show ((s.cree p r reste adr n).tas s.procIdle).etat = _ ∨
      ((s.cree p r reste adr n).tas s.procIdle).etat = _
    rw [(C.champs _ hpi.symm).2.2.2.2.2.2.2.1]
    exact h.idleEtat
  · show ((s.cree p r reste adr n).tas s.procIdle).contexte.volontaire = true
    rw [(C.champs _ hpi.symm).2.2.1]
    exact h.idleContexte
  · intro x hx hxi
    by_cases hxp : x = p
    · rw [hxp, hpriop]
      exact hprio
    · rw [(C.champs x hxp).2.1]
      exact h.prio x ((hvivant x hxp).mp hx) hxi
  · intro x hx
    by_cases hxp : x = p
    · subst hxp
      refine .of_volontaire ?_ (.inr (.inl hetatp))
      rw [hctxp]
      rfl
    · have hv := (hvivant x hxp).mp hx
      have hs := h.suspendu x hv
      obtain ⟨-, -, hctx', -, -, -, -, het, -⟩ := C.champs x hxp
      have hmort : (s.cree p r reste adr n).Mort x ↔ s.Mort x := by unfold Core.Mort; rw [het]
      refine ⟨?_, ?_, ?_, ?_, ?_, ?_, ?_⟩
      all_goals simp only [het, hctx', hmort]
      · exact hs.file
      · exact hs.semaphore
      · exact hs.es
      · exact hs.fils
      · exact hs.exit
      · intro hm pid c r' hx'
        obtain ⟨h0, hc, hcpid⟩ := hs.waitpid hm pid c r' hx'
        have hcp : c ≠ p := fun hx => hpnot x hv (hx ▸ hc)
        rw [(C.champs c hcp).1]
        exact ⟨h0, hfilsOld x hxp c hc, hcpid⟩
      · intro hm pid r' hx'
        obtain ⟨h0, hne⟩ := hs.waitpidFils hm pid r' hx'
        refine ⟨h0, ?_⟩
        rw [C.fils x hxp]
        split
        · exact List.cons_ne_nil _ _
        · exact hne

end Coherent

end GenesisOS
