import GenesisOS.Abstract.Families
import GenesisOS.Abstract.Liberation
import GenesisOS.Abstract.Tables

/-!
# GenesisOS — every step keeps the coherence

`Stable` is the coherence together with the absence of dying processes with a
father. `Stable.quiet`, `Stable.sortie` and `Stable.election` are the step
lemmas, one case for each transition; `Stable.tour` is the whole step.
-/

namespace GenesisOS

open Lib

/-- The invariant of a whole run. -/
structure Stable (s : Core) : Prop where
  coherent : Coherent s
  orphelins : s.Orphelins

namespace Core.Orphelins

variable {s s' : Core}

/-- Orphans stay so when dying processes are old ones or have no father. -/
theorem de (h : s.Orphelins) (H : ∀ p, s'.vivant p = true → (s'.tas p).etat = .mourant →
    (s'.tas p).pere = none ∨
      (s.vivant p = true ∧ (s.tas p).etat = .mourant ∧ (s'.tas p).pere = (s.tas p).pere)) :
    s'.Orphelins := by
  intro p hv hm
  rcases H p hv hm with hp | ⟨hv', hm', hp⟩
  · exact hp
  · rw [hp]
    exact h p hv' hm'

theorem maj (h : s.Orphelins) {p : Ptr} {f : Processus → Processus}
    (hf : (f (s.tas p)).etat = .mourant →
      (f (s.tas p)).pere = none ∨
        (s.tas p).etat = .mourant ∧ (f (s.tas p)).pere = (s.tas p).pere) :
    (s.maj p f).Orphelins := by
  refine h.de ?_
  intro x hv hm
  rw [Core.tas_maj] at hm ⊢
  split
  · next hx =>
    subst hx
    rw [if_pos rfl] at hm
    rcases hf hm with hp | ⟨hm', hp⟩
    · exact .inl hp
    · exact .inr ⟨hv, hm', hp⟩
  · next hx =>
    rw [if_neg hx] at hm
    exact .inr ⟨hv, hm, rfl⟩

/-- Orphans depend on the structures only. -/
theorem congr (h : s.Orphelins) (hv : s'.vivant = s.vivant) (ht : s'.tas = s.tas) :
    s'.Orphelins := by
  intro p
  rw [hv, ht]
  exact h p

/-- One process changes and does not end dying. -/
theorem autre (h : s.Orphelins) (p : Ptr) (hv : s'.vivant = s.vivant)
    (ht : ∀ x, x ≠ p → s'.tas x = s.tas x) (hp : (s'.tas p).etat ≠ .mourant) : s'.Orphelins := by
  refine h.de ?_
  intro x hx hm
  rw [hv] at hx
  have hxp : x ≠ p := fun he => hp (he ▸ hm)
  rw [ht x hxp] at hm ⊢
  exact .inr ⟨hx, hm, rfl⟩

theorem active (h : s.Orphelins) (p : Ptr) : (s.active p).Orphelins := by
  refine Core.Orphelins.congr (s := s.maj p fun r => { r with etat := .activable })
    (h.maj ?_) rfl rfl
  intro hm
  cases hm

theorem eveille (h : s.Orphelins) (p : Ptr) (f : Processus → Processus) :
    (s.eveille p f).Orphelins := by
  refine Core.Orphelins.congr (s := s.maj p fun r => { f r with etat := .activable })
    (h.maj ?_) rfl rfl
  intro hm
  cases hm

theorem reveillePere (h : s.Orphelins) (p : Ptr) : (s.reveillePere p).Orphelins := by
  unfold Core.reveillePere
  split
  · exact h.active p
  · exact h

end Core.Orphelins

theorem Core.Orphelins.cree {s : Core} {p : Ptr} (h : s.Orphelins) (hc : Coherent s)
    (he : s.EnCours) {r : Processus} {reste : List PidLibre} {adr n : Nat} (hp : s.prochain ≤ p)
    (hetat : r.etat = .activable) : (s.cree p r reste adr n).Orphelins := by
  have C := hc.cree_spec he r reste adr n hp
  refine h.de ?_
  intro x hv hm
  by_cases hx : x = p
  · rw [hx, C.nouveau] at hm
    rw [hetat] at hm
    cases hm
  · obtain ⟨-, -, -, -, -, -, -, he, hpere⟩ := C.champs x hx
    rw [C.vivant, if_neg hx] at hv
    exact .inr ⟨hv, he ▸ hm, hpere⟩

/-- The elected process runs on when its state and its return point stay. -/
theorem Core.EnCours.de {s s' : Core} (he : s.EnCours) (helu : s'.procElu = s.procElu)
    (hv : s'.vivant s.procElu = true)
    (ht : (s'.tas s.procElu).etat = (s.tas s.procElu).etat ∧
      (s'.tas s.procElu).contexte = (s.tas s.procElu).contexte) : s'.EnCours := by
  refine ⟨?_, ?_, ?_⟩ <;> rw [helu]
  · exact hv
  · exact ht.1.trans he.etat
  · rw [ht.2]
    exact he.contexte

namespace Stable

variable {s s' : Core} {p : Ptr}

theorem note (h : Stable s) (e : Evenement) : Stable (s.note e) :=
  ⟨h.coherent.note e, h.orphelins⟩

theorem alloue (h : Stable s) {n : Nat} (hn : s.prochain ≤ n) : Stable (s.alloue n) :=
  ⟨h.coherent.alloue hn, h.orphelins⟩

theorem ecrit (h : Stable s) (adr : Nat) (w : BitVec 32) : Stable (s.ecrit adr w) :=
  ⟨h.coherent.ecrit adr w, h.orphelins⟩

theorem emet (h : Stable s) (he : s.EnCours) (f : File) (v : Int) : Stable (s.emet f v) :=
  ⟨h.coherent.emet he f v,
    (h.note (.emission f.adr s.procElu v)).orphelins.maj fun hm => .inr ⟨hm, rfl⟩⟩

theorem recoit (h : Stable s) (he : s.EnCours) (f : File) (m : Nat) : Stable (s.recoit f m) :=
  ⟨h.coherent.recoit he f m,
    (h.note (.reception f.adr s.procElu m)).orphelins.maj fun hm => .inr ⟨hm, rfl⟩⟩

theorem eveille (h : Stable s) {t : Tete} (hp : s.lien p = some t) (ht : t ≠ .procMourants)
    {f : Processus → Processus}
    (hf : ∀ r, (f r).pid = r.pid ∧ (f r).pere = r.pere ∧ (f r).filsTete = r.filsTete ∧
      (f r).prio = r.prio ∧ (f r).contexte = r.contexte := by
        exact fun _ => ⟨rfl, rfl, rfl, rfl, rfl⟩) : Stable (s.eveille p f) :=
  ⟨h.coherent.eveille hp ht hf, h.orphelins.eveille p f⟩

theorem majFile (h : Stable s) {fid : Int} {f f' : File} (hf : s.tableauFile fid = some f)
    (hnb : getNbMsg f' ≤ f.maxMsg) (hfid : f'.fid = f.fid := by rfl)
    (hmax : f'.maxMsg = f.maxMsg := by rfl) : Stable (s.majFile fid (some f')) :=
  ⟨h.coherent.majFile hf hnb hfid hmax, h.orphelins⟩

theorem majSem (h : Stable s) {sid : Int} {sem sem' : Semaphore}
    (hs : s.tableauSem sid = some sem) : Stable (s.majSem sid (some sem')) :=
  ⟨h.coherent.majSem hs, h.orphelins⟩

/-- Releasing a process that waits on a semaphore. -/
theorem rejet (h : Stable s) {sid : Int} {sem : Semaphore} {status : Int}
    (hr : Rejet sid sem status s s') : Stable s' := by
  obtain ⟨p, hp, rfl⟩ := hr
  exact (h.eveille (LinkedQueues.link_of_top hp) (by simp)).note _

theorem rejets (h : Stable s) {sid : Int} {sem : Semaphore} {status : Int}
    (hr : Relation.ReflTransGen (Rejet sid sem status) s s') :
    Stable s' ∧ s'.tableauSem = s.tableauSem := by
  induction hr with
  | refl => exact ⟨h, rfl⟩
  | tail _ hlast ih =>
    refine ⟨ih.1.rejet hlast, ?_⟩
    obtain ⟨p, hp, rfl⟩ := hlast
    exact ih.2

/-- Waking a father does not touch a process that is not in `waitpid`. -/
theorem tas_reveillePere {pere : Ptr} (hp : (s.tas p).etat ≠ .attendFils) :
    (s.reveillePere pere).tas p = s.tas p := by
  unfold Core.reveillePere
  split
  · next he =>
    rw [Core.tas_active, if_neg]
    rintro rfl
    exact hp he
  · rfl

theorem champs_reveillePere {pere : Ptr} : (s.reveillePere pere).procElu = s.procElu ∧
    (s.reveillePere pere).procIdle = s.procIdle ∧ (s.reveillePere pere).vivant = s.vivant := by
  unfold Core.reveillePere
  split <;> exact ⟨rfl, rfl, rfl⟩

-- ---------------------------------------------------------------------------
-- Quiet transitions
-- ---------------------------------------------------------------------------

theorem quiet {l : Etiquette} (h : Stable s) (he : s.EnCours) (q : Quiet l s s') : Stable s' := by
  have hc := h.coherent
  cases q with
  | alloue hn => exact h.alloue hn
  | ecriture adr w => exact h.ecrit adr w
  | attente pid r => exact h.note _
  | rendPid hl hn ht =>
    refine ⟨hc.rendPid hl hn ht, h.orphelins.de ?_⟩
    intro p hv hm
    have htp := ht p (hc.ancien p hv)
    exact .inr ⟨hv, by rw [← htp]; exact hm, by rw [← htp]⟩
  | cree hl hp hn hpid hetat hctx hfils hprio hret =>
    exact ⟨hc.cree he hl hp hn hpid hetat hctx hfils hprio, h.orphelins.cree hc he hp hetat⟩
  | chprioElu hn hidle =>
    exact ⟨hc.chprioElu he hidle hn, h.orphelins.maj fun hm => .inr ⟨hm, rfl⟩⟩
  | @chprioActivable _ p n hn hv hpid hp he' =>
    have hl : s.lien p = some .procActivables := by
      have hpl := hc.place p hv
      unfold Core.Place at hpl
      rwa [he'] at hpl
    refine ⟨hc.chprioListe hl (hc.ne_idle_of_pid hpid) hn, ?_⟩
    exact Core.Orphelins.congr (h.orphelins.maj (p := p) (f := fun r => { r with prio := n })
      fun hm => .inr ⟨hm, rfl⟩) rfl rfl
  | @chprioFile _ p n hn hv hpid hp he' =>
    have hl : s.lien p = some (.file (s.tas p).fid) := by
      have hpl := hc.place p hv
      unfold Core.Place at hpl
      rwa [he'] at hpl
    refine ⟨hc.chprioListe hl (hc.ne_idle_of_pid hpid) hn, ?_⟩
    exact Core.Orphelins.congr (h.orphelins.maj (p := p) (f := fun r => { r with prio := n })
      fun hm => .inr ⟨hm, rfl⟩) rfl rfl
  | chprioAutre hn hv hpid hp he' _ =>
    exact ⟨hc.chprioAutre hv (hc.ne_idle_of_pid hpid) he' hn,
      h.orphelins.maj fun hm => .inr ⟨hm, rfl⟩⟩
  | @tueZombie _ p pere t hpid hp hz hm ht hpere =>
    have hv := hc.lie p t ht
    have hzc : Coherent (((s.note (.tue p)).retire p).maj p fun r => { r with etat := .zombie }) := by
      refine (hc.note (.tue p)).zombie hv (hc.ne_idle_of_pid hpid) hm
        (Touche.retire.trans (Touche.maj rfl rfl rfl)) ?_ ?_ ?_
      · simp
      · simp [Core.lien_retire]
      · refine LinkedQueues.Sorted.remove_congr hc.tri ?_
        intro x hx
        rw [Core.tas_maj, if_neg hx]
        rfl
    have hzo : (((s.note (.tue p)).retire p).maj p fun r => { r with etat := .zombie }).Orphelins :=
      Core.Orphelins.congr (h.orphelins.maj (p := p) (f := fun r => { r with etat := .zombie })
        fun hx => by cases hx) rfl rfl
    exact ⟨hzc.reveillePere (hc.pere p pere hv hm hpere).1, hzo.reveillePere pere⟩
  | @tueMourant _ p t hpid hp hz hm ht hpere =>
    have hv := hc.lie p t ht
    refine ⟨?_, ?_⟩
    · refine (hc.note (.tue p)).mourant hv (hc.ne_idle_of_pid hpid) hm hpere
        ((Touche.retire.trans (Touche.maj rfl rfl rfl)).trans Touche.ajoute) ?_ ?_ ?_
      · simp
      · exact .inl (by rw [Core.lien_ajoute (by simp [Core.lien_retire]), if_pos rfl])
      · refine LinkedQueues.Sorted.add_of_ne (LinkedQueues.Sorted.remove_congr hc.tri ?_) (by decide)
        intro x hx
        rw [Core.ajoute_tas, Core.tas_maj, if_neg hx]
        rfl
    · exact Core.Orphelins.congr (h.orphelins.maj (p := p)
        (f := fun r => { r with etat := .mourant }) fun _ => .inl hpere) rfl rfl
  | recolte hcf hz hl =>
    have R := hc.recolte_spec he hcf hz hl
    refine ⟨hc.recolte he hcf hz hl, h.orphelins.de ?_⟩
    intro x hv hm
    rw [R.pere]
    rw [R.etat] at hm
    split
    · exact .inl rfl
    · next hx =>
      rw [if_neg hx] at hm
      exact .inr ⟨hv, hm, rfl⟩
  | liberation hlib hvide =>
    exact ⟨hc.liberation hlib, (hc.liberation hlib).orphelins_of_vide hvide⟩
  | reveil hp =>
    exact h.eveille (LinkedQueues.link_of_mem hp) (by decide)
  | reveilEs hp =>
    exact h.eveille (LinkedQueues.link_of_top hp) (by decide)
  | creeFile hl hfid h0 hN hn hadr hm =>
    subst hfid
    exact ⟨hc.creeFile hl hn (hadr.trans hm.le), h.orphelins⟩
  | echec hf hp =>
    exact (h.eveille (LinkedQueues.link_of_top hp) (by simp)).note _
  | vide hf hp =>
    refine (h.majFile hf ?_).note _
    exact (hc.file _ _ hf).2.2.2.1.le
  | supprimeFile hf hp hn => exact ⟨hc.supprimeFile hf hp hn, h.orphelins⟩
  | remis hidle hf hvide hp =>
    exact (((h.emet he _ _).eveille (LinkedQueues.link_of_top hp) (by simp)).note _).note _
  | depose hidle hf hnon hlt hn =>
    refine ((((h.emet he _ _).majFile hf ?_).alloue hn).note _)
    simp only [getNbMsg, List.length_cons] at hlt ⊢
    omega
  | prend hidle hf hl hp =>
    refine (((h.recoit he _ _).majFile hf ?_).note _).ecrit _ _
    have := (hc.file _ _ hf).2.2.2.2
    rw [getNbMsg, hl, List.length_append] at this
    simp only [getNbMsg]
    omega
  | @relaye _ fid f l msg p adr m n hidle hf hl hp hn =>
    refine ((((((h.recoit he _ _).majFile hf ?_).alloue hn).note _).ecrit _ _).note
      _).eveille (t := .file fid) ?_ (by simp)
    · have := (hc.file _ _ hf).2.2.2.2
      rw [getNbMsg, hl, List.length_append] at this
      simpa [getNbMsg] using this
    · exact LinkedQueues.link_of_top hp
  | creeSem hl hsid hcount hsem hadr hfrais hm =>
    subst hsid
    exact Stable.note ⟨hc.creeSem hl (hfrais.trans hm.le), h.orphelins⟩ _
  | rendSid hl hn => exact ⟨hc.rendSid hl hn, h.orphelins⟩
  | sdelete hs hr hp hn hb =>
    obtain ⟨h', hsem⟩ := h.rejets hr
    rw [← hsem] at hs
    exact ⟨h'.coherent.supprimeSem hs hp hn, h'.orphelins⟩
  | sreset hs hr hp h0 hcount hb =>
    obtain ⟨h', hsem⟩ := h.rejets hr
    rw [← hsem] at hs
    exact h'.majSem hs
  | signale hs hmax hpos => exact (h.majSem hs).note _
  | signaleReveil hs hmax hneg hp =>
    exact (((h.majSem hs).note _).eveille (LinkedQueues.link_of_top hp) (by simp)).note _
  | prendSem hs hpos => exact ((h.majSem hs).note _).note _

theorem enCours_rejet (h : Stable s) (he : s.EnCours) {sid : Int} {sem : Semaphore} {status : Int}
    (hr : Rejet sid sem status s s') : s'.EnCours := by
  obtain ⟨p, hp, rfl⟩ := hr
  have hne := (h.coherent.ne_procElu he (LinkedQueues.link_of_top hp)).symm
  exact he.de rfl he.vivant (by simp [Core.eveille, hne])

theorem enCours_rejets (h : Stable s) (he : s.EnCours) {sid : Int} {sem : Semaphore} {status : Int}
    (hr : Relation.ReflTransGen (Rejet sid sem status) s s') : s'.EnCours := by
  induction hr with
  | refl => exact he
  | tail hrest hlast ih => exact (h.rejets hrest).1.enCours_rejet ih hlast

/-- The elected process runs on through quiet transitions. -/
theorem enCours_quiet {l : Etiquette} (h : Stable s) (he : s.EnCours) (q : Quiet l s s') :
    s'.EnCours := by
  have hc := h.coherent
  -- a process taken out of a list is not the elected one
  have hne : ∀ {p t}, s.lien p = some t → s.procElu ≠ p := fun hp => (hc.ne_procElu he hp).symm
  cases q with
  | alloue hn => exact ⟨he.vivant, he.etat, he.contexte⟩
  | ecriture adr w => exact ⟨he.vivant, he.etat, he.contexte⟩
  | attente pid r => exact ⟨he.vivant, he.etat, he.contexte⟩
  | rendPid hl hn ht => exact he.de rfl he.vivant (by simp [ht _ (hc.ancien _ he.vivant)])
  | @cree _ p r cell reste adr n hl hp hn =>
    have C := hc.cree_spec he r reste adr n hp
    have hpe : s.procElu ≠ p := by
      intro hx
      exact absurd (hc.ancien _ he.vivant) (by rw [hx]; exact not_lt.mpr hp)
    obtain ⟨-, -, hctx, -, -, -, -, het, -⟩ := C.champs _ hpe
    exact he.de rfl (by rw [C.vivant, if_neg hpe]; exact he.vivant) ⟨het, hctx⟩
  | chprioElu hn hidle => exact he.de rfl he.vivant (by simp)
  | chprioActivable hn hv hpid hp he' => exact he.de rfl he.vivant (by simp [hp.symm])
  | chprioFile hn hv hpid hp he' => exact he.de rfl he.vivant (by simp [hp.symm])
  | chprioAutre hn hv hpid hp he' he'' => exact he.de rfl he.vivant (by simp [hp.symm])
  | tueZombie hpid hp hz hm ht hpere =>
    refine he.de champs_reveillePere.1 ?_ ?_
    · rw [champs_reveillePere.2.2]
      exact he.vivant
    · rw [tas_reveillePere] <;> simp [hp.symm, he.etat]
  | tueMourant hpid hp hz hm ht hpere => exact he.de rfl he.vivant (by simp [hp.symm])
  | recolte hcf hz hl =>
    have R := hc.recolte_spec he hcf hz hl
    have hce := (Coherent.ne_procElu_of_zombie he hz).symm
    refine he.de rfl he.vivant ⟨?_, (R.champs _).2.2.1⟩
    rw [R.etat, if_neg hce]
  | liberation hlib hvide => exact hc.enCours_liberation he hlib
  | reveil hp =>
    exact he.de rfl he.vivant (by simp [Core.eveille, hne (LinkedQueues.link_of_mem hp)])
  | reveilEs hp =>
    exact he.de rfl he.vivant (by simp [Core.eveille, hne (LinkedQueues.link_of_top hp)])
  | creeFile hl hfid h0 hN hn hadr hm => exact ⟨he.vivant, he.etat, he.contexte⟩
  | echec hf hp =>
    exact he.de rfl he.vivant (by simp [Core.eveille, hne (LinkedQueues.link_of_top hp)])
  | vide hf hp => exact ⟨he.vivant, he.etat, he.contexte⟩
  | supprimeFile hf hp hn => exact ⟨he.vivant, he.etat, he.contexte⟩
  | remis hidle hf hvide hp =>
    exact he.de rfl he.vivant
      (by simp [Core.eveille, Core.emet, hne (LinkedQueues.link_of_top hp)])
  | depose hidle hf hnon hlt hn => exact he.de rfl he.vivant (by simp [Core.emet])
  | prend hidle hf hl hp => exact he.de rfl he.vivant (by simp [Core.recoit])
  | relaye hidle hf hl hp hn =>
    exact he.de rfl he.vivant
      (by simp [Core.eveille, Core.recoit, hne (LinkedQueues.link_of_top hp)])
  | creeSem hl hsid hcount hsem hadr hfrais hm => exact ⟨he.vivant, he.etat, he.contexte⟩
  | rendSid hl hn => exact ⟨he.vivant, he.etat, he.contexte⟩
  | sdelete hs hr hp hn hb =>
    have he' := h.enCours_rejets he hr
    exact ⟨he'.vivant, he'.etat, he'.contexte⟩
  | sreset hs hr hp h0 hcount hb =>
    have he' := h.enCours_rejets he hr
    exact ⟨he'.vivant, he'.etat, he'.contexte⟩
  | signale hs hmax hpos => exact ⟨he.vivant, he.etat, he.contexte⟩
  | signaleReveil hs hmax hneg hp =>
    exact he.de rfl he.vivant (by simp [Core.eveille, hne (LinkedQueues.link_of_top hp)])
  | prendSem hs hpos => exact ⟨he.vivant, he.etat, he.contexte⟩

theorem elu_rejets {sid : Int} {sem : Semaphore} {status : Int}
    (hr : Relation.ReflTransGen (Rejet sid sem status) s s') :
    s'.procElu = s.procElu ∧ s'.procIdle = s.procIdle := by
  induction hr with
  | refl => exact ⟨rfl, rfl⟩
  | tail _ hlast ih =>
    obtain ⟨p, hp, rfl⟩ := hlast
    exact ih

theorem elu_liberation (h : Coherent s) (hl : Relation.ReflTransGen Liberation s s') :
    s'.procElu = s.procElu ∧ s'.procIdle = s.procIdle := by
  induction hl with
  | refl => exact ⟨rfl, rfl⟩
  | tail hrest hlast ih =>
    obtain ⟨p, adr, n, hp, hn, L⟩ := (h.liberation hrest).liberation_spec hlast
    exact ⟨L.elu.trans ih.1, L.idle.trans ih.2⟩

/-- Quiet transitions do not elect. -/
theorem elu_quiet {l : Etiquette} (h : Stable s) (q : Quiet l s s') :
    s'.procElu = s.procElu ∧ s'.procIdle = s.procIdle := by
  cases q with
  | tueZombie => exact ⟨champs_reveillePere.1, champs_reveillePere.2.1⟩
  | liberation hl hvide => exact elu_liberation h.coherent hl
  | sdelete hs hr hp hn hb => exact ⟨(elu_rejets hr).1, (elu_rejets hr).2⟩
  | sreset hs hr hp h0 hc hb => exact ⟨(elu_rejets hr).1, (elu_rejets hr).2⟩
  | _ => exact ⟨rfl, rfl⟩

theorem calme {L : Etiquette → Prop} (h : Stable s) (hq : Calme L s s') : Stable s' := by
  induction hq with
  | refl => exact h
  | tail _ hlast ih =>
    obtain ⟨he, l, -, q⟩ := hlast
    exact ih.quiet he q

theorem enCours_calme {L : Etiquette → Prop} (h : Stable s) (he : s.EnCours) (hq : Calme L s s') :
    s'.EnCours := by
  induction hq with
  | refl => exact he
  | tail hrest hlast ih =>
    obtain ⟨he', l, -, q⟩ := hlast
    exact (h.calme hrest).enCours_quiet he' q

theorem elu_calme {L : Etiquette → Prop} (h : Stable s) (hq : Calme L s s') :
    s'.procElu = s.procElu ∧ s'.procIdle = s.procIdle := by
  induction hq with
  | refl => exact ⟨rfl, rfl⟩
  | tail hrest hlast ih =>
    obtain ⟨-, l, -, q⟩ := hlast
    obtain ⟨he, hi⟩ := (h.calme hrest).elu_quiet q
    exact ⟨he.trans ih.1, hi.trans ih.2⟩

-- ---------------------------------------------------------------------------
-- Leaving the processor
-- ---------------------------------------------------------------------------

theorem maj_neutre_exit (h : Stable s) (he : s.EnCours) (v : Int) :
    Stable ((s.maj s.procElu fun r => { r with retval := v }).note (.exit s.procElu v)) := by
  refine Stable.note ⟨h.coherent.majNeutre he.vivant ?_, h.orphelins.maj ?_⟩ _
  · exact fun _ => ⟨rfl, rfl, rfl, rfl, rfl, rfl, rfl⟩
  · exact fun hm => .inr ⟨hm, rfl⟩

/-- The elected process becomes a zombie. -/
theorem zombie (h : Stable s) (he : s.EnCours) (hidle : s.procElu ≠ s.procIdle) :
    Stable (s.maj s.procElu fun r => { r with etat := .zombie }) := by
  refine ⟨h.coherent.zombie he.vivant hidle ?_ (Touche.maj rfl rfl rfl) ?_ ?_ ?_,
    h.orphelins.maj ?_⟩
  · rw [he.etat]
    decide
  · rw [Core.tas_maj, if_pos rfl]
  · exact h.coherent.lien_procElu he
  · exact h.coherent.tri_maj rfl
  · intro hx
    cases hx

/-- The elected process, fatherless, dies. -/
theorem mourant (h : Stable s) (he : s.EnCours) (hidle : s.procElu ≠ s.procIdle)
    (hpere : (s.tas s.procElu).pere = none) :
    Stable (s.maj s.procElu fun r => { r with etat := .mourant }) := by
  refine ⟨h.coherent.mourant he.vivant hidle ?_ hpere (Touche.maj rfl rfl rfl) ?_ ?_ ?_,
    h.orphelins.maj fun _ => .inl hpere⟩
  · rw [he.etat]
    decide
  · rw [Core.tas_maj, if_pos rfl]
  · exact .inr ⟨rfl, h.coherent.lien_procElu he⟩
  · exact h.coherent.tri_maj rfl

theorem reveillePere {pere : Ptr} (h : Stable s) (hv : s.vivant pere = true) :
    Stable (s.reveillePere pere) :=
  ⟨h.coherent.reveillePere hv, h.orphelins.reveillePere pere⟩

theorem empile {k : Reprise} (h : Stable s) (hc : Coherent (s.empile k)) : Stable (s.empile k) :=
  ⟨hc, h.orphelins.maj fun hm => .inr ⟨hm, rfl⟩⟩

end Stable

/-- What the exit transitions leave of the elected process. -/
structure Sorti (s s' : Core) : Prop where
  elu : s'.procElu = s.procElu
  idle : s'.procIdle = s.procIdle
  vivant : s'.vivant s'.procElu = true
  etat : (s'.tas s'.procElu).etat ≠ .activable

namespace Stable

variable {s s' : Core} {p : Ptr}

/-- The elected process ends, a zombie or dying. -/
theorem sorti_mort {k : Reprise} {s₁ : Core} (h : Stable s₁) (helu : s₁.procElu = s.procElu)
    (hidle : s₁.procIdle = s.procIdle) (hv : s₁.vivant s₁.procElu = true) (hm : s₁.Mort s₁.procElu) :
    Stable (s₁.empile k) ∧ Sorti s (s₁.empile k) := by
  refine ⟨h.empile (h.coherent.empileMort hv hm k), ?_⟩
  have htas : ((s₁.empile k).tas s₁.procElu).etat = (s₁.tas s₁.procElu).etat := by
    rw [Core.empile, Core.tas_maj, if_pos rfl]
  refine ⟨helu, hidle, hv, ?_⟩
  show ((s₁.empile k).tas s₁.procElu).etat ≠ _
  rw [htas]
  rcases hm with hm | hm <;> rw [hm] <;> decide

theorem sortie {m : Motif} {k : Reprise} (h : Stable s) (he : s.EnCours) (q : Sortie m k s s') :
    Stable (s'.empile k) ∧ Sorti s (s'.empile k) := by
  have hc := h.coherent
  -- a process blocked by one change of its structure
  have sorti : ∀ {s₁ : Core}, s₁.procElu = s.procElu → s₁.procIdle = s.procIdle →
      s₁.vivant s.procElu = true → (s₁.tas s.procElu).etat ≠ .activable →
      Sorti s (s₁.empile k) := by
    intro s₁ helu hidle hv hetat
    have htas : ((s₁.empile k).tas s.procElu).etat = (s₁.tas s.procElu).etat := by
      rw [Core.empile, helu, Core.tas_maj, if_pos rfl]
    refine ⟨helu, hidle, ?_, ?_⟩
    · show s₁.vivant s₁.procElu = true
      rw [helu]
      exact hv
    · show ((s₁.empile k).tas s₁.procElu).etat ≠ _
      rw [helu, htas]
      exact hetat
  cases q with
  | suspend hk =>
    refine ⟨h.empile (hc.empileVolontaire he.vivant he.etat hk), sorti rfl rfl he.vivant ?_⟩
    rw [he.etat]
    decide
  | @endort _ ticks hidle =>
    refine ⟨⟨hc.endort he hidle ticks, ?_⟩, sorti rfl rfl he.vivant (by simp)⟩
    refine h.orphelins.autre s.procElu rfl ?_ ?_
    · intro x hx
      simp [Core.empile, hx]
    · simp [Core.empile]
  | @emission _ fid v f hidle hf hnon hplein =>
    have h' := h.emet he f v
    have he' : (s.emet f v).EnCours := by
      refine ⟨he.vivant, ?_, ?_⟩ <;> simp [Core.emet, he.etat, he.contexte]
    refine ⟨⟨h'.coherent.attendFile he' hidle hf (.inl rfl), ?_⟩,
      sorti rfl rfl he.vivant ?_⟩
    · refine h.orphelins.autre s.procElu rfl ?_ ?_
      · intro x hx
        simp [Core.empile, Core.bloqueFile, Core.emet, hx]
      · simp [Core.empile, Core.bloqueFile, Core.emet]
    · show ((Core.bloqueFile (s.emet f v) fid).tas (s.emet f v).procElu).etat ≠ _
      simp [Core.bloqueFile]
  | @reception _ fid f m hidle hf hvide =>
    have h' := h.recoit he f m
    have he' : (s.recoit f m).EnCours := by
      refine ⟨he.vivant, ?_, ?_⟩ <;> simp [Core.recoit, he.etat, he.contexte]
    refine ⟨⟨h'.coherent.attendFile he' hidle hf (.inr ⟨m, rfl⟩), ?_⟩,
      sorti rfl rfl he.vivant ?_⟩
    · refine h.orphelins.autre s.procElu rfl ?_ ?_
      · intro x hx
        simp [Core.empile, Core.bloqueFile, Core.recoit, hx]
      · simp [Core.empile, Core.bloqueFile, Core.recoit]
    · show ((Core.bloqueFile (s.recoit f m) fid).tas (s.recoit f m).procElu).etat ≠ _
      simp [Core.bloqueFile]
  | @wait _ sid sem hidle hs hmin hneg =>
    have h' : Stable ((s.majSem sid (some (sem.setCount (sem.count - 1)))).note
        (.semPrise sem.adr s.procElu)) := (h.majSem hs).note _
    have he' : ((s.majSem sid (some (sem.setCount (sem.count - 1)))).note
        (.semPrise sem.adr s.procElu)).EnCours := ⟨he.vivant, he.etat, he.contexte⟩
    have hs' : ((s.majSem sid (some (sem.setCount (sem.count - 1)))).note
        (.semPrise sem.adr s.procElu)).tableauSem sid = some (sem.setCount (sem.count - 1)) := by
      simp
    refine ⟨⟨h'.coherent.attendSemaphore he' hidle hs', ?_⟩, sorti rfl rfl he.vivant (by simp)⟩
    refine h.orphelins.autre s.procElu rfl ?_ ?_
    · intro x hx
      simp [Core.empile, hx]
    · simp [Core.empile]
  | @consRead _ string length hidle =>
    refine ⟨⟨hc.attendEs he hidle string length, ?_⟩,
      sorti rfl rfl he.vivant (by simp)⟩
    refine h.orphelins.autre s.procElu rfl ?_ ?_
    · intro x hx
      simp [Core.empile, hx]
    · simp [Core.empile]
  | @waitpid _ pid c retvalp hidle hcf hpid h0 hz =>
    refine ⟨⟨hc.attendFils he hidle (.inl ⟨pid, c, retvalp, rfl, h0, hcf, hpid⟩), ?_⟩,
      sorti rfl rfl he.vivant (by simp)⟩
    refine h.orphelins.autre s.procElu rfl ?_ ?_
    · intro x hx
      simp [Core.empile, hx]
    · simp [Core.empile]
  | @waitpidFils _ pid retvalp hidle hne hz h0 =>
    refine ⟨⟨hc.attendFils he hidle (.inr ⟨pid, retvalp, rfl, h0, hne⟩), ?_⟩,
      sorti rfl rfl he.vivant (by simp)⟩
    refine h.orphelins.autre s.procElu rfl ?_ ?_
    · intro x hx
      simp [Core.empile, hx]
    · simp [Core.empile]
  | @exitZombie _ v pere hidle hpere =>
    have h₁ := h.maj_neutre_exit he v
    have he₁ : ((s.maj s.procElu fun r => { r with retval := v }).note
        (.exit s.procElu v)).EnCours := by
      refine ⟨he.vivant, ?_, ?_⟩ <;> simp [he.etat, he.contexte]
    have h₂ := h₁.zombie he₁ hidle
    have hvp : s.vivant pere = true := (hc.pere _ _ he.vivant (by rw [he.etat]; decide) hpere).1
    refine sorti_mort (h₂.reveillePere hvp) ?_ ?_ ?_ ?_
    · exact champs_reveillePere.1
    · exact champs_reveillePere.2.1
    · rw [champs_reveillePere.1, champs_reveillePere.2.2]
      exact he.vivant
    · unfold Core.Mort
      rw [champs_reveillePere.1, tas_reveillePere]
      · exact .inl (by simp)
      · simp
  | @exitMourant _ v hidle hpere =>
    have h₁ := h.maj_neutre_exit he v
    have he₁ : ((s.maj s.procElu fun r => { r with retval := v }).note
        (.exit s.procElu v)).EnCours := by
      refine ⟨he.vivant, ?_, ?_⟩ <;> simp [he.etat, he.contexte]
    exact sorti_mort (h₁.mourant he₁ hidle (by simpa using hpere)) rfl rfl he.vivant
      (.inr (by simp))
  | @suicideZombie _ pere hidle hpere =>
    have he₁ : (s.note (.tue s.procElu)).EnCours := ⟨he.vivant, he.etat, he.contexte⟩
    exact sorti_mort ((h.note (.tue s.procElu)).zombie he₁ hidle) rfl rfl he.vivant
      (.inl (by simp))
  | @suicideMourant _ hidle hpere =>
    have he₁ : (s.note (.tue s.procElu)).EnCours := ⟨he.vivant, he.etat, he.contexte⟩
    exact sorti_mort ((h.note (.tue s.procElu)).mourant he₁ hidle hpere) rfl rfl he.vivant
      (.inr (by simp))

-- ---------------------------------------------------------------------------
-- Election
-- ---------------------------------------------------------------------------

/-- A state in which no process is elected any more. -/
structure Depose (s s' : Core) : Prop where
  stable : Stable s'
  elu : s'.procElu = s.procElu
  idle : s'.procIdle = s.procIdle
  vivant : s'.vivant = s.vivant
  personne : ∀ p, s'.vivant p = true → (s'.tas p).etat ≠ .elu
  mourant : ∀ p, s'.vivant p = true → (s'.tas p).etat = .mourant → s'.lien p = some .procMourants
  etat : ∀ p, (s'.tas p).etat = (s.tas p).etat ∨
    (p = s.procElu ∧ (s.tas p).etat = .elu ∧ (s'.tas p).etat = .activable)
  champs : ∀ p, s'.tas p = { s.tas p with etat := (s'.tas p).etat }
  elems : ∀ t, t ≠ .procActivables → t ≠ .procMourants → s'.elems t = s.elems t
  lien : ∀ p, p ≠ s.procElu → s'.lien p = s.lien p

theorem depose (h : Stable s) (hv : s.vivant s.procElu = true)
    (hna : (s.tas s.procElu).etat ≠ .activable) (hvide : s.elems .procMourants = []) :
    Depose s s.depose := by
  have hc := h.coherent
  have hpl := hc.place _ hv
  unfold Core.Place at hpl
  have hautre : ∀ p, s.vivant p = true → p ≠ s.procElu → (s.tas p).etat ≠ .elu :=
    fun p hp hne he => hne (hc.eq_procElu hp he)
  have hnm : ∀ p, s.lien p ≠ some .procMourants := by
    intro p hp
    have hm : p ∈ s.elems .procMourants := (s.chainage.mem_iff p _).mpr hp
    rw [hvide] at hm
    cases hm
  have hmautre : ∀ p, s.vivant p = true → p ≠ s.procElu → (s.tas p).etat ≠ .mourant := by
    intro p hp hne he
    have hpl' := hc.place p hp
    unfold Core.Place at hpl'
    rw [he] at hpl'
    rcases hpl' with hl | ⟨hx, -⟩
    · exact hnm p hl
    · exact hne hx
  -- an elected process that waits for something, or a zombie, stays where it is
  have hreste : (s.tas s.procElu).etat ≠ .elu → (s.tas s.procElu).etat ≠ .mourant →
      Depose s s := by
    intro hne hnm'
    refine ⟨h, rfl, rfl, rfl, ?_, ?_, fun _ => .inl rfl, fun _ => rfl, fun _ _ _ => rfl,
      fun _ _ => rfl⟩
    · intro p hp
      by_cases hpe : p = s.procElu
      · exact hpe ▸ hne
      · exact hautre p hp hpe
    · intro p hp hm
      by_cases hpe : p = s.procElu
      · exact absurd (hpe ▸ hm) hnm'
      · exact absurd hm (hmautre p hp hpe)
  unfold Core.depose
  cases he : (s.tas s.procElu).etat
  case activable => exact absurd he hna
  case mourant =>
    rw [he] at hpl
    have hl : s.lien s.procElu = none := by
      rcases hpl with hl | ⟨-, hl⟩
      · exact absurd hl (hnm _)
      · exact hl
    have hlien : (s.ajoute .procMourants s.procElu (·.prio)).lien s.procElu =
        some .procMourants := by rw [Core.lien_ajoute hl, if_pos rfl]
    have hcoh : Coherent (s.ajoute .procMourants s.procElu (·.prio)) := by
      refine hc.touche Touche.ajoute hv ?_ ?_ ?_ ?_ ?_ id (fun hm => .inl hm) ?_ (hc.prio _ hv) ?_
      · unfold Core.Place
        rw [show ((s.ajoute .procMourants s.procElu (·.prio)).tas s.procElu).etat = .mourant from he]
        exact .inl hlien
      · exact .of_mort (.inr he)
      · rw [hlien]; intro _ hx; cases hx
      · rw [hlien]; intro _ hx; cases hx
      · exact LinkedQueues.Sorted.add_of_ne hc.tri (by decide)
      · exact fun _ => .inr hlien
      · intro hi
        exact absurd hi (hc.ne_idle_of_etat (by rw [he]; decide) (by rw [he]; decide))
    refine ⟨⟨hcoh, h.orphelins⟩, rfl, rfl, rfl, ?_, ?_, fun _ => .inl rfl, fun _ => rfl, ?_,
      fun _ hp => Core.lien_ajoute_of_ne hp⟩
    · intro p hp
      by_cases hpe : p = s.procElu
      · rw [hpe]
        show (s.tas s.procElu).etat ≠ .elu
        rw [he]
        decide
      · exact hautre p hp hpe
    · intro p hp hm
      by_cases hpe : p = s.procElu
      · exact hpe ▸ hlien
      · exact absurd hm (hmautre p hp hpe)
    · intro t _ ht
      exact (LinkedQueues.elems_add hl).trans (if_neg ht)
  case elu =>
    rw [he] at hpl
    have hl : s.lien s.procElu = none := hpl.2
    have htas : (s.active s.procElu).tas s.procElu =
        { s.tas s.procElu with etat := .activable } := by rw [Core.tas_active, if_pos rfl]
    have hlien : (s.active s.procElu).lien s.procElu = some .procActivables := by
      rw [Core.lien_active hl, if_pos rfl]
    have hm : ¬ s.Mort s.procElu := by
      rintro (hm | hm) <;> rw [he] at hm <;> cases hm
    have tch : Touche s.procElu s (s.active s.procElu) :=
      (Touche.maj rfl rfl rfl).trans Touche.ajoute
    have hcoh : Coherent (s.active s.procElu) := by
      refine hc.touche tch hv ?_ ?_ ?_ ?_ ?_ ?_ ?_ ?_ ?_ ?_
      · unfold Core.Place
        rw [htas]
        exact hlien
      · refine (hc.suspendu _ hv).reveil hm ?_ (tch.fils_eq _) tch.pid_eq ?_
        · rw [htas]
        · rw [htas]; exact .inr (.inl rfl)
      · rw [hlien]; intro _ hx; cases hx
      · rw [hlien]; intro _ hx; cases hx
      · exact LinkedQueues.Sorted.add (hc.tri_maj rfl)
      · intro hx
        exact absurd (.inr hx) hm
      · rw [htas]; intro hx; cases hx
      · rw [htas]; intro hx; cases hx
      · rw [htas]
        exact hc.prio _ hv
      · intro hi
        rw [htas]
        have hi' := hc.idle.2.2.1
        have hctx := hc.idleContexte
        rw [← hi] at hi' hctx
        exact ⟨hi', .inr rfl, hctx⟩
    refine ⟨⟨hcoh, h.orphelins.active _⟩, rfl, rfl, rfl, ?_, ?_, ?_, ?_, ?_, tch.lien⟩
    · intro p hp
      by_cases hpe : p = s.procElu
      · rw [hpe, htas]
        intro hx
        cases hx
      · rw [Core.tas_active, if_neg hpe]
        exact hautre p hp hpe
    · intro p hp hm
      by_cases hpe : p = s.procElu
      · rw [hpe, htas] at hm
        cases hm
      · rw [Core.tas_active, if_neg hpe] at hm
        exact absurd hm (hmautre p hp hpe)
    · intro p
      by_cases hpe : p = s.procElu
      · refine .inr ⟨hpe, hpe ▸ he, ?_⟩
        rw [hpe, htas]
      · left
        rw [Core.tas_active, if_neg hpe]
    · intro p
      by_cases hpe : p = s.procElu
      · rw [hpe, htas]
      · rw [Core.tas_active, if_neg hpe]
    · intro t ht _
      exact (LinkedQueues.elems_add hl).trans (if_neg ht)
  all_goals exact hreste (by rw [he]; decide) (by rw [he]; decide)

/-- Once no process is elected, the top of the activable list may be. -/
theorem elit (h : Stable s) (hpersonne : ∀ p, s.vivant p = true → (s.tas p).etat ≠ .elu)
    (hmourant : ∀ p, s.vivant p = true → (s.tas p).etat = .mourant →
      s.lien p = some .procMourants) (hp : s.lien p = some .procActivables) :
    Stable (s.elit p) ∧ (s.elit p).Elu := by
  have hc := h.coherent
  have hv := hc.lie p _ hp
  -- the name of the elected process only matters to elected and dying processes
  have h₁ : Coherent { s with procElu := p } := by
    refine ⟨?_, hc.lie, hc.lieFile, hc.lieSem, hc.tri, hc.file, hc.fidLibre, hc.fidUnique, hc.sem,
      hc.sidLibre, hc.sidUnique, hc.table, hc.inscrit, hc.pid, hc.pidLibre, hc.pidUnique,
      hc.ancien, hc.pere, hc.fils, hc.filsUnique, hc.orphelin, hc.idle, hc.idleEtat,
      hc.idleContexte, hc.prio, fun p hp => ⟨(hc.suspendu p hp).file, (hc.suspendu p hp).semaphore,
        (hc.suspendu p hp).es, (hc.suspendu p hp).fils, (hc.suspendu p hp).exit,
        (hc.suspendu p hp).waitpid, (hc.suspendu p hp).waitpidFils⟩⟩
    intro x hx
    have hpl := hc.place x hx
    unfold Core.Place at hpl ⊢
    show match (s.tas x).etat with | _ => _
    cases he : (s.tas x).etat
    case elu => exact absurd he (hpersonne x hx)
    case mourant => exact .inl (hmourant x hx he)
    all_goals
      rw [he] at hpl
      exact hpl
  have htas : (s.elit p).tas p = { s.tas p with etat := .elu } := by
    simp [Core.elit]
  have hlien : (s.elit p).lien p = none := by
    show (s.retire p).lien p = none
    rw [Core.lien_retire, if_pos rfl]
  have tch : Touche p { s with procElu := p } (s.elit p) :=
    { Touche.trans (Touche.retire (q := p) (s := { s with procElu := p }))
        (Touche.maj (f := fun r => { r with etat := .elu }) rfl rfl rfl) with }
  have hact : (s.tas p).etat = .activable := hc.etat_of_lien hp
  have hm : ¬ s.Mort p := by
    rintro (hm | hm) <;> rw [hact] at hm <;> cases hm
  refine ⟨⟨?_, ?_⟩, ⟨hv, ?_⟩⟩
  · refine h₁.touche tch hv ?_ ?_ ?_ ?_ ?_ ?_ ?_ ?_ ?_ ?_
    · unfold Core.Place
      rw [htas]
      exact ⟨rfl, hlien⟩
    · refine (hc.suspendu p hv).reveil hm ?_ (tch.fils_eq _) tch.pid_eq ?_
      · rw [htas]
      · rw [htas]; exact .inl rfl
    · rw [hlien]; intro _ hx; cases hx
    · rw [hlien]; intro _ hx; cases hx
    · refine LinkedQueues.Sorted.remove_congr hc.tri ?_
      intro x hx
      simp [Core.elit, hx]
    · intro hx
      exact absurd (.inr hx) hm
    · rw [htas]; intro hx; cases hx
    · rw [htas]; intro hx; cases hx
    · rw [htas]
      exact hc.prio _ hv
    · intro hi
      rw [htas]
      have hi' := hc.idle.2.2.1
      have hctx := hc.idleContexte
      rw [show p = s.procIdle from hi]
      exact ⟨hi', .inl rfl, hctx⟩
  · refine h.orphelins.autre p rfl ?_ ?_
    · intro x hx
      simp [Core.elit, hx]
    · rw [htas]
      intro hx
      cases hx
  · show ((s.elit p).tas p).etat = _
    rw [htas]

theorem election (h : Stable s) (hvide : s.elems .procMourants = []) (hel : Election s s')
    (hna : (s.tas s.procElu).etat ≠ .activable) : Stable s' ∧ s'.Elu := by
  have hc := h.coherent
  cases hel with
  | aucune hact =>
    -- the idle process is activable unless it is elected
    have hi : (s.tas s.procIdle).etat = .elu := by
      rcases hc.idleEtat with hi | hi
      · exact hi
      · have hpl := hc.place _ hc.idle.1
        unfold Core.Place at hpl
        rw [hi] at hpl
        have hm : s.procIdle ∈ s.elems .procActivables := (s.chainage.mem_iff _ _).mpr hpl
        rw [hact] at hm
        cases hm
    have he := hc.eq_procElu hc.idle.1 hi
    refine ⟨h, ⟨?_, ?_⟩⟩
    · rw [← he]
      exact hc.idle.1
    · rw [← he]
      exact hi
  | @elit p hv hp =>
    have D := h.depose hv hna hvide
    exact D.stable.elit D.personne D.mourant (LinkedQueues.link_of_top hp)

-- ---------------------------------------------------------------------------
-- Whole steps
-- ---------------------------------------------------------------------------

/-- Freeing dead processes does not make the elected one activable. -/
theorem sorti_liberation {s₀ : Core} (h : Coherent s) (hs : Sorti s₀ s)
    (hl : Relation.ReflTransGen Liberation s s') :
    s'.procElu = s₀.procElu ∧ s'.procIdle = s₀.procIdle ∧
      (s'.tas s'.procElu).etat ≠ .activable := by
  induction hl with
  | refl => exact ⟨hs.elu, hs.idle, hs.etat⟩
  | tail hrest hlast ih =>
    obtain ⟨helu, hidle, hna⟩ := ih
    obtain ⟨p, adr, n, hp, hn, L⟩ := (h.liberation hrest).liberation_spec hlast
    refine ⟨L.elu.trans helu, L.idle.trans hidle, ?_⟩
    rw [L.elu, L.etat_eq]
    split
    · decide
    · exact hna

theorem segment_sortie {C : Cadre} {k : Reprise} (h : Stable s)
    (hs : Segment C (.ordonnanceur k) s s') : Stable (s'.empile k) ∧ Sorti s (s'.empile k) := by
  cases hs with
  | ordonnanceur hq he hso hm =>
    obtain ⟨helu, hidle⟩ := h.elu_calme hq
    obtain ⟨h', hsorti⟩ := (h.calme hq).sortie he hso
    exact ⟨h', hsorti.elu.trans helu, hsorti.idle.trans hidle, hsorti.vivant, hsorti.etat⟩

theorem elu_segment {C : Cadre} {x : Suite} (h : Stable s) (hs : Segment C x s s') :
    s'.procElu = s.procElu := by
  cases hs with
  | retour hq he => exact (h.elu_calme hq).1
  | iret hq he => exact (h.elu_calme hq).1
  | ordonnanceur hq he hso hm => exact ((h.calme hq).sortie he hso).2.elu.trans (h.elu_calme hq).1

/-- A whole step of the machine keeps the invariant, and a process runs at its
end. -/
theorem tour {C : Cadre} {mode : Mode} (h : Stable s) (ht : Tour C mode s s') :
    Stable s' ∧ s'.Elu ∧ (mode = .utilisateur → s'.EnCours) := by
  cases ht with
  | retour hs =>
    cases hs with
    | retour hq he =>
      exact ⟨(h.calme hq).note _, ⟨he.vivant, he.etat⟩, fun _ => ⟨he.vivant, he.etat, he.contexte⟩⟩
  | iret hs =>
    cases hs with
    | iret hq he => exact ⟨h.calme hq, ⟨he.vivant, he.etat⟩, fun _ => he⟩
  | election hs hl hvide hel =>
    obtain ⟨h₂, hsorti⟩ := h.segment_sortie hs
    have h₃ : Stable _ := ⟨h₂.coherent.liberation hl,
      (h₂.coherent.liberation hl).orphelins_of_vide hvide⟩
    obtain ⟨-, -, hna⟩ := sorti_liberation h₂.coherent hsorti hl
    obtain ⟨h', he'⟩ := h₃.election hvide hel hna
    exact ⟨h', he', fun hm => by cases hm⟩

end Stable

-- ---------------------------------------------------------------------------
-- Other invariants
-- ---------------------------------------------------------------------------

/-- `I` is kept by each transition of a step within `C`. -/
structure Conserve (C : Cadre) (I : Core → Prop) : Prop where
  quiet : ∀ {l : Etiquette} {s s' : Core}, Stable s → s.EnCours → I s → C.admet l →
    Quiet l s s' → I s'
  sortie : ∀ {m : Motif} {k : Reprise} {s s' : Core}, Stable s → s.EnCours → I s →
    (m ≠ .cede → C.meurt m s) → Sortie m k s s' → I (s'.empile k)
  libere : ∀ {s s' : Core}, Coherent s → I s → Liberation s s' → I s'
  election : ∀ {s s' : Core}, Stable s → s.elems .procMourants = [] →
    (s.tas s.procElu).etat ≠ .activable → I s → Election s s' → I s'
  retour : ∀ {s : Core} (v : Int), Stable s → s.EnCours → I s → I (s.note (.retour s.procElu v))

namespace Conserve

variable {C : Cadre} {I : Core → Prop} {s s' : Core}

theorem calme {L : Etiquette → Prop} (hI : Conserve C I) (hL : ∀ l, L l → C.admet l) (h : Stable s)
    (hi : I s) (hq : Calme L s s') : I s' := by
  induction hq with
  | refl => exact hi
  | tail hrest hlast ih =>
    obtain ⟨he, l, hl, q⟩ := hlast
    exact hI.quiet (h.calme hrest) he ih (hL l hl) q

theorem liberation (hI : ∀ {s s' : Core}, Coherent s → I s → Liberation s s' → I s')
    (h : Coherent s) (hi : I s) (hl : Relation.ReflTransGen Liberation s s') : I s' := by
  induction hl with
  | refl => exact hi
  | tail hrest hlast ih => exact hI (h.liberation hrest) ih hlast

/-- What every transition keeps, a whole step keeps. -/
theorem tour {mode : Mode} (hI : Conserve C I) (h : Stable s) (hi : I s) (ht : Tour C mode s s') :
    I s' := by
  cases ht with
  | retour hs =>
    cases hs with
    | retour hq he =>
      exact hI.retour _ (h.calme hq) he (hI.calme (fun l hl => hl.1) h hi hq)
  | iret hs =>
    cases hs with
    | iret hq he => exact hI.calme (fun l hl => hl.1) h hi hq
  | election hs hl hvide hel =>
    cases hs with
    | ordonnanceur hq he hso hm =>
      have h₁ := h.calme hq
      obtain ⟨h₂, hsorti⟩ := h₁.sortie he hso
      have hi₂ := hI.sortie h₁ he (hI.calme (fun l hl => hl) h hi hq) hm hso
      have h₃ : Stable _ := ⟨h₂.coherent.liberation hl,
        (h₂.coherent.liberation hl).orphelins_of_vide hvide⟩
      obtain ⟨-, -, hna⟩ := Stable.sorti_liberation h₂.coherent hsorti hl
      exact hI.election h₃ hvide hna (liberation hI.libere h₂.coherent hi₂ hl) hel

end Conserve

-- ---------------------------------------------------------------------------
-- Configurations
-- ---------------------------------------------------------------------------

/-- The state in which the kernel code of a step starts: a process just
elected has its return point popped off. -/
def Config.entree (c : Config) : Core :=
  match c.mode with
  | .utilisateur => c.s.toCore
  | .noyau => c.s.toCore.empile .iret

/-- The invariant of the configurations of a run. -/
structure Config.Valide (c : Config) : Prop where
  stable : Stable c.s.toCore
  elu : c.s.toCore.Elu
  utilisateur : c.mode = .utilisateur → c.s.toCore.EnCours

theorem Config.Valide.entree {c : Config} (h : c.Valide) :
    Stable c.entree ∧ c.entree.EnCours := by
  unfold Config.entree
  cases hm : c.mode with
  | utilisateur => exact ⟨h.stable, h.utilisateur hm⟩
  | noyau =>
    refine ⟨h.stable.empile (h.stable.coherent.empileVolontaire h.elu.vivant h.elu.etat rfl), ?_⟩
    refine ⟨h.elu.vivant, ?_, ?_⟩
    · simp [Core.empile, h.elu.etat]
    · simp [Core.empile]

/-- An invariant that popping a return point keeps holds after the step. -/
theorem Config.Valide.conserve {C : Cadre} {I : Core → Prop} {c c' : Config} (h : c.Valide)
    (hI : Conserve C I) (hpop : ∀ {s : Core}, Stable s → s.Elu → I s → I (s.empile .iret))
    (hi : I c.s.toCore) (ht : Tour C c'.mode c.entree c'.s.toCore) : I c'.s.toCore := by
  refine hI.tour h.entree.1 ?_ ht
  unfold Config.entree
  cases c.mode with
  | utilisateur => exact hi
  | noyau => exact hpop h.stable h.elu hi

theorem Config.Valide.tour {C : Cadre} {c c' : Config} (h : c.Valide)
    (ht : Tour C c'.mode c.entree c'.s.toCore) : c'.Valide := by
  obtain ⟨h₁, h₂, h₃⟩ := h.entree.1.tour ht
  exact ⟨h₁, h₂, h₃⟩

end GenesisOS
