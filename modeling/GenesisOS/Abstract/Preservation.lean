import GenesisOS.Abstract.Coherence

/-!
# GenesisOS — the transitions keep the coherence

One lemma for each kind of state change the transitions are made of, from
which `Coherent.quiet`, `Coherent.sortie`, `Coherent.liberation` and
`Coherent.election` follow by cases.
-/

namespace GenesisOS

open Lib

namespace Touche

variable {s s' s'' : Core} {p q : Ptr}

theorem trans (t : Touche q s s') (t' : Touche q s' s'') : Touche q s s'' where
  vivant := t'.vivant.trans t.vivant
  autre p hp := (t'.autre p hp).trans (t.autre p hp)
  lien p hp := (t'.lien p hp).trans (t.lien p hp)
  elu := t'.elu.trans t.elu
  idle := t'.idle.trans t.idle
  table := t'.table.trans t.table
  pids := t'.pids.trans t.pids
  file := t'.file.trans t.file
  fids := t'.fids.trans t.fids
  sem := t'.sem.trans t.sem
  sids := t'.sids.trans t.sids
  prochain := t'.prochain.trans t.prochain
  pid := t'.pid.trans t.pid
  pere := t'.pere.trans t.pere
  fils := t'.fils.trans t.fils

theorem maj {f : Processus → Processus} (hpid : (f (s.tas q)).pid = (s.tas q).pid)
    (hpere : (f (s.tas q)).pere = (s.tas q).pere)
    (hfils : (f (s.tas q)).filsTete = (s.tas q).filsTete) : Touche q s (s.maj q f) where
  vivant := rfl
  autre _ hp := by rw [Core.tas_maj, if_neg hp]
  lien _ _ := rfl
  elu := rfl
  idle := rfl
  table := rfl
  pids := rfl
  file := rfl
  fids := rfl
  sem := rfl
  sids := rfl
  prochain := rfl
  pid := by rw [Core.tas_maj, if_pos rfl, hpid]
  pere := by rw [Core.tas_maj, if_pos rfl, hpere]
  fils := by rw [Core.tas_maj, if_pos rfl, hfils]

theorem retire : Touche q s (s.retire q) where
  vivant := rfl
  autre _ _ := rfl
  lien p hp := by rw [Core.lien_retire, if_neg hp]
  elu := rfl
  idle := rfl
  table := rfl
  pids := rfl
  file := rfl
  fids := rfl
  sem := rfl
  sids := rfl
  prochain := rfl
  pid := rfl
  pere := rfl
  fils := rfl

theorem ajoute {t : Tete} {cle : Processus → Int} : Touche q s (s.ajoute t q cle) where
  vivant := rfl
  autre _ _ := rfl
  lien _ hp := Core.lien_ajoute_of_ne hp
  elu := rfl
  idle := rfl
  table := rfl
  pids := rfl
  file := rfl
  fids := rfl
  sem := rfl
  sids := rfl
  prochain := rfl
  pid := rfl
  pere := rfl
  fils := rfl

end Touche

/-- A change of fields the coherence does not depend on. -/
def Neutre (f : Processus → Processus) : Prop :=
  ∀ r, (f r).pid = r.pid ∧ (f r).pere = r.pere ∧ (f r).filsTete = r.filsTete ∧
    (f r).etat = r.etat ∧ (f r).prio = r.prio ∧ (f r).contexte = r.contexte ∧ (f r).fid = r.fid

namespace Coherent

variable {s s' : Core} {p q c pere : Ptr}

-- ---------------------------------------------------------------------------
-- Journal, allocation counter, neutral fields
-- ---------------------------------------------------------------------------

theorem alloue (h : Coherent s) {n : Nat} (hn : s.prochain ≤ n) : Coherent (s.alloue n) :=
  ⟨h.place, h.lie, h.lieFile, h.lieSem, h.tri, h.file, h.fidLibre, h.fidUnique, h.sem, h.sidLibre,
    h.sidUnique, h.table, h.inscrit, h.pid, h.pidLibre, h.pidUnique,
    fun p hp => (h.ancien p hp).trans_le hn, h.pere, h.fils,
    h.filsUnique, h.orphelin, h.idle, h.idleEtat, h.idleContexte, h.prio,
    fun p hp => ⟨(h.suspendu p hp).file, (h.suspendu p hp).semaphore, (h.suspendu p hp).es,
      (h.suspendu p hp).fils, (h.suspendu p hp).exit, (h.suspendu p hp).waitpid,
      (h.suspendu p hp).waitpidFils⟩⟩

/-- The coherence does not depend on the journal. -/
theorem journal (h : Coherent s) (j : List Evenement) : Coherent { s with journal := j } :=
  ⟨h.place, h.lie, h.lieFile, h.lieSem, h.tri, h.file, h.fidLibre, h.fidUnique, h.sem, h.sidLibre,
    h.sidUnique, h.table, h.inscrit, h.pid, h.pidLibre, h.pidUnique, h.ancien, h.pere, h.fils,
    h.filsUnique, h.orphelin, h.idle, h.idleEtat, h.idleContexte, h.prio,
    fun p hp => ⟨(h.suspendu p hp).file, (h.suspendu p hp).semaphore, (h.suspendu p hp).es,
      (h.suspendu p hp).fils, (h.suspendu p hp).exit, (h.suspendu p hp).waitpid,
      (h.suspendu p hp).waitpidFils⟩⟩

theorem note (h : Coherent s) (e : Evenement) : Coherent (s.note e) := h.journal _

theorem ecrit (h : Coherent s) (adr : Nat) (w : BitVec 32) : Coherent (s.ecrit adr w) := h.journal _

theorem majNeutre (h : Coherent s) (hq : s.vivant q = true) {f : Processus → Processus}
    (hf : Neutre f) : Coherent (s.maj q f) := by
  obtain ⟨hpid, hpere, hfils, hetat, hprio, hctx, hfid⟩ := hf (s.tas q)
  have t : Touche q s (s.maj q f) := Touche.maj hpid hpere hfils
  have htas : (s.maj q f).tas q = f (s.tas q) := by rw [Core.tas_maj, if_pos rfl]
  have hmort : (s.maj q f).Mort q ↔ s.Mort q := by unfold Core.Mort; rw [htas, hetat]
  refine h.touche t hq ?_ ?_ (h.lieFile q) (h.lieSem q) ?_ ?_ ?_ ?_ ?_ ?_
  · have hpl := h.place q hq
    unfold Core.Place at hpl ⊢
    rw [htas, hetat, hfid]
    exact hpl
  · have hs := h.suspendu q hq
    refine ⟨?_, ?_, ?_, ?_, ?_, ?_, ?_⟩
    all_goals simp only [htas, hetat, hctx, hmort, t.fils_eq, t.pid_eq]
    · exact hs.file
    · exact hs.semaphore
    · exact hs.es
    · exact hs.fils
    · exact hs.exit
    · exact hs.waitpid
    · exact hs.waitpidFils
  · refine h.tri.congr ?_
    intro p _
    by_cases hp : p = q
    · subst hp
      rw [htas, hprio]
    · rw [t.autre p hp]
  all_goals rw [htas]
  · exact fun he => hetat.trans he
  · exact fun he => .inl (hetat ▸ he)
  · exact fun he => h.orphelin q hq (hetat ▸ he)
  · exact fun hi => hprio ▸ h.prio q hq hi
  · rintro rfl
    exact ⟨hprio.trans h.idle.2.2.1, hetat ▸ h.idleEtat, hctx ▸ h.idleContexte⟩

theorem emet (h : Coherent s) (he : s.EnCours) (f : File) (v : Int) : Coherent (s.emet f v) :=
  (h.note _).majNeutre he.vivant fun _ => ⟨rfl, rfl, rfl, rfl, rfl, rfl, rfl⟩

theorem recoit (h : Coherent s) (he : s.EnCours) (f : File) (m : Nat) : Coherent (s.recoit f m) :=
  (h.note _).majNeutre he.vivant fun _ => ⟨rfl, rfl, rfl, rfl, rfl, rfl, rfl⟩

end Coherent

-- ---------------------------------------------------------------------------
-- Suspended calls
-- ---------------------------------------------------------------------------

namespace Core.Suspendu

variable {s s' : Core} {p : Ptr}

theorem of_mort (h : s.Mort p) : s.Suspendu p := by
  refine ⟨?_, ?_, ?_, ?_, fun _ => h, fun hm => absurd h hm, fun hm => absurd h hm⟩
  all_goals
    intro he
    rcases h with h | h <;> rw [he] at h <;> cases h

/-- A process that is not blocked may have any return point that asks nothing
of its children. -/
theorem of_volontaire (hc : (s.tas p).contexte.volontaire = true)
    (he : (s.tas p).etat = .elu ∨ (s.tas p).etat = .activable ∨ (s.tas p).etat = .endormi) :
    s.Suspendu p := by
  refine ⟨?_, ?_, ?_, ?_, ?_, ?_, ?_⟩
  · intro h; rw [h] at he; simp at he
  · intro h; rw [h] at he; simp at he
  · intro h; rw [h] at he; simp at he
  · intro h; rw [h] at he; simp at he
  · intro h; rw [h] at hc; cases hc
  · intro _ pid c r h; rw [h] at hc; cases hc
  · intro _ pid r h; rw [h] at hc; cases hc

/-- Waking a process leaves it at its return point. -/
theorem reveil (h : s.Suspendu p) (hm : ¬ s.Mort p) (hc : (s'.tas p).contexte = (s.tas p).contexte)
    (hfils : s'.fils p = s.fils p) (hpid : ∀ c, (s'.tas c).pid = (s.tas c).pid)
    (he : (s'.tas p).etat = .elu ∨ (s'.tas p).etat = .activable ∨ (s'.tas p).etat = .endormi) :
    s'.Suspendu p := by
  refine ⟨?_, ?_, ?_, ?_, ?_, ?_, ?_⟩
  · intro h'; rw [h'] at he; simp at he
  · intro h'; rw [h'] at he; simp at he
  · intro h'; rw [h'] at he; simp at he
  · intro h'; rw [h'] at he; simp at he
  · intro hx
    exact absurd (h.exit (hc ▸ hx)) hm
  · intro _ pid c r hx
    rw [hc] at hx
    rw [hfils, hpid]
    exact h.waitpid hm pid c r hx
  · intro _ pid r hx
    rw [hc] at hx
    rw [hfils]
    exact h.waitpidFils hm pid r hx

end Core.Suspendu

namespace Coherent

variable {s s' : Core} {p q c pere : Ptr}

-- ---------------------------------------------------------------------------
-- Waking
-- ---------------------------------------------------------------------------

theorem not_mort_of_lien (h : Coherent s) {t : Tete} (hp : s.lien p = some t)
    (ht : t ≠ .procMourants) : ¬ s.Mort p := by
  have he := h.etat_of_lien hp
  intro hm
  cases t
  case procMourants => exact ht rfl
  all_goals rcases hm with hm | hm <;> rw [he] at hm <;> cases hm

/-- A process taken out of the list in which it was blocked becomes activable. -/
theorem eveille (h : Coherent s) {t : Tete} (hp : s.lien p = some t) (ht : t ≠ .procMourants)
    {f : Processus → Processus}
    (hf : ∀ r, (f r).pid = r.pid ∧ (f r).pere = r.pere ∧ (f r).filsTete = r.filsTete ∧
      (f r).prio = r.prio ∧ (f r).contexte = r.contexte := by
        exact fun _ => ⟨rfl, rfl, rfl, rfl, rfl⟩) : Coherent (s.eveille p f) := by
  obtain ⟨hpid, hpere, hfils, hprio, hctx⟩ := hf (s.tas p)
  have hv := h.lie p t hp
  have hm := h.not_mort_of_lien hp ht
  have tch : Touche p s (s.eveille p f) :=
    (Touche.retire.trans
      (Touche.maj (f := fun r => { f r with etat := .activable }) hpid hpere hfils)).trans
        Touche.ajoute
  have htas : (s.eveille p f).tas p = { f (s.tas p) with etat := .activable } := by
    rw [Core.tas_eveille, if_pos rfl]
  have hlien : (s.eveille p f).lien p = some .procActivables := by
    rw [Core.lien_eveille, if_pos rfl]
  refine h.touche tch hv ?_ ?_ ?_ ?_ ?_ ?_ ?_ ?_ ?_ ?_
  · unfold Core.Place
    rw [htas]
    exact hlien
  · refine (h.suspendu p hv).reveil hm ?_ (tch.fils_eq p) tch.pid_eq ?_
    · rw [htas]; exact hctx
    · rw [htas]; exact .inr (.inl rfl)
  · rw [hlien]; intro _ hx; cases hx
  · rw [hlien]; intro _ hx; cases hx
  · refine LinkedQueues.Sorted.add (LinkedQueues.Sorted.remove_congr h.tri ?_)
    intro x hx
    rw [Core.tas_maj, if_neg hx]
    rfl
  · intro he
    exact absurd (.inr he) hm
  · rw [htas]; intro he; cases he
  · rw [htas]; intro he; cases he
  · rw [htas]
    intro hi
    exact hprio ▸ h.prio p hv hi
  · rintro rfl
    rw [htas]
    exact ⟨hprio.trans h.idle.2.2.1, .inr rfl, hctx ▸ h.idleContexte⟩

/-- A father blocked in `waitpid` becomes activable. -/
theorem active (h : Coherent s) (hv : s.vivant p = true) (he : (s.tas p).etat = .attendFils) :
    Coherent (s.active p) := by
  have hl : s.lien p = none := by
    have hpl := h.place p hv
    unfold Core.Place at hpl
    rwa [he] at hpl
  have hm : ¬ s.Mort p := by
    rintro (hm | hm) <;> rw [he] at hm <;> cases hm
  have tch : Touche p s (s.active p) := (Touche.maj rfl rfl rfl).trans Touche.ajoute
  have htas : (s.active p).tas p = { s.tas p with etat := .activable } := by
    rw [Core.tas_active, if_pos rfl]
  have hlien : (s.active p).lien p = some .procActivables := by
    rw [Core.lien_active hl, if_pos rfl]
  refine h.touche tch hv ?_ ?_ ?_ ?_ ?_ ?_ ?_ ?_ ?_ ?_
  · unfold Core.Place
    rw [htas]
    exact hlien
  · refine (h.suspendu p hv).reveil hm ?_ (tch.fils_eq p) tch.pid_eq ?_
    · rw [htas]
    · rw [htas]; exact .inr (.inl rfl)
  · rw [hlien]; intro _ hx; cases hx
  · rw [hlien]; intro _ hx; cases hx
  · refine LinkedQueues.Sorted.add (h.tri.congr ?_)
    intro x _
    by_cases hx : x = p <;> simp [hx]
  · intro hmo
    exact absurd (.inr hmo) hm
  · rw [htas]; intro hx; cases hx
  · rw [htas]; intro hx; cases hx
  · rw [htas]
    exact h.prio p hv
  · intro hi
    exact absurd hi (h.ne_idle_of_etat (by rw [he]; decide) (by rw [he]; decide))

theorem reveillePere (h : Coherent s) (hv : s.vivant pere = true) :
    Coherent (s.reveillePere pere) := by
  unfold Core.reveillePere
  split
  · next he => exact h.active hv he
  · exact h

-- ---------------------------------------------------------------------------
-- Changing a priority
-- ---------------------------------------------------------------------------

/-- A process other than the idle one may get any positive priority, if the
list of activable processes stays sorted. -/
theorem majPrio (h : Coherent s) (hv : s.vivant p = true) (hpi : p ≠ s.procIdle) {n : Int}
    (hn : 0 < n) (tch : Touche p s s') (htas : s'.tas p = { s.tas p with prio := n })
    (hlien : s'.lien p = s.lien p)
    (htri : s'.chainage.Sorted .procActivables fun x => (s'.tas x).prio) : Coherent s' := by
  have hmort : s'.Mort p ↔ s.Mort p := by unfold Core.Mort; rw [htas]
  refine h.touche tch hv ?_ ?_ ?_ ?_ htri ?_ ?_ ?_ ?_ ?_
  · have hpl := h.place p hv
    unfold Core.Place at hpl ⊢
    rw [htas, hlien, tch.elu]
    exact hpl
  · have hs := h.suspendu p hv
    refine ⟨?_, ?_, ?_, ?_, ?_, ?_, ?_⟩
    all_goals simp only [htas, hmort, tch.fils_eq, tch.pid_eq]
    · exact hs.file
    · exact hs.semaphore
    · exact hs.es
    · exact hs.fils
    · exact hs.exit
    · exact hs.waitpid
    · exact hs.waitpidFils
  · rw [hlien]
    exact h.lieFile p
  · rw [hlien]
    exact h.lieSem p
  · rw [htas]
    exact id
  · rw [htas]
    exact .inl
  · rw [htas, hlien]
    exact h.orphelin p hv
  · rw [htas]
    exact fun _ => hn
  · exact fun hi => absurd hi hpi

theorem chprioElu (h : Coherent s) (he : s.EnCours) (hidle : s.procElu ≠ s.procIdle) {n : Int}
    (hn : 0 < n) : Coherent (s.maj s.procElu fun r => { r with prio := n }) := by
  refine h.majPrio he.vivant hidle hn (Touche.maj rfl rfl rfl) ?_ rfl ?_
  · rw [Core.tas_maj, if_pos rfl]
  · refine h.tri.congr ?_
    intro x hx
    have hne := h.ne_procElu he (LinkedQueues.link_of_mem hx)
    rw [Core.tas_maj, if_neg hne]

/-- Requeuing a process in its own list, after its priority changed. -/
theorem chprioListe (h : Coherent s) {t : Tete} (hl : s.lien p = some t) (hpi : p ≠ s.procIdle)
    {n : Int} (hn : 0 < n) :
    Coherent (((s.maj p fun r => { r with prio := n }).retire p).ajoute t p (·.prio)) := by
  refine h.majPrio (n := n) (h.lie p t hl) hpi hn
    (((Touche.maj rfl rfl rfl).trans Touche.retire).trans Touche.ajoute) ?_ ?_ ?_
  · simp
  · rw [Core.lien_ajoute (by simp [Core.lien_retire]), if_pos rfl, hl]
  · have hs : LinkedQueues.Sorted (s.chainage.remove p) .procActivables
        fun x => ((s.maj p fun r => { r with prio := n }).tas x).prio := by
      refine LinkedQueues.Sorted.remove_congr h.tri ?_
      intro x hx
      rw [Core.tas_maj, if_neg hx]
    by_cases ht : t = .procActivables
    · subst ht
      exact hs.add
    · exact hs.add_of_ne ht

theorem chprioAutre (h : Coherent s) (hv : s.vivant p = true) (hpi : p ≠ s.procIdle)
    (he : (s.tas p).etat ≠ .activable) {n : Int} (hn : 0 < n) :
    Coherent (s.maj p fun r => { r with prio := n }) := by
  refine h.majPrio hv hpi hn (Touche.maj rfl rfl rfl) ?_ rfl ?_
  · rw [Core.tas_maj, if_pos rfl]
  · refine h.tri.congr ?_
    intro x hx
    have hne : x ≠ p := by
      rintro rfl
      exact he (h.etat_of_lien (LinkedQueues.link_of_mem hx))
    rw [Core.tas_maj, if_neg hne]

-- ---------------------------------------------------------------------------
-- Death
-- ---------------------------------------------------------------------------

theorem liens_vides_of_none (hl : s'.lien p = none) :
    (∀ fid, s'.lien p = some (.file fid) → ∃ f, s.tableauFile fid = some f) ∧
      ∀ sid, s'.lien p = some (.semaphore sid) → ∃ sem, s.tableauSem sid = some sem := by
  rw [hl]
  exact ⟨fun _ hx => (by cases hx), fun _ hx => (by cases hx)⟩

/-- A process becomes a zombie, in no list. -/
theorem zombie (h : Coherent s) (hv : s.vivant p = true) (hpi : p ≠ s.procIdle)
    (hm : (s.tas p).etat ≠ .mourant) (tch : Touche p s s')
    (htas : s'.tas p = { s.tas p with etat := .zombie }) (hl : s'.lien p = none)
    (htri : s'.chainage.Sorted .procActivables fun x => (s'.tas x).prio) : Coherent s' := by
  obtain ⟨hfile, hsem⟩ := liens_vides_of_none (s := s) hl
  refine h.touche tch hv ?_ (.of_mort ?_) hfile hsem htri ?_ ?_ ?_ ?_ ?_
  · unfold Core.Place
    rw [htas]
    exact hl
  · exact .inl (by rw [htas])
  · exact fun he => absurd he hm
  · rw [htas]; intro hx; cases hx
  · rw [htas]; intro hx; cases hx
  · rw [htas]
    exact h.prio p hv
  · exact fun hi => absurd hi hpi

/-- A process without a father dies: it is to be freed, unless it is still
executing. -/
theorem mourant (h : Coherent s) (hv : s.vivant p = true) (hpi : p ≠ s.procIdle)
    (hm : (s.tas p).etat ≠ .mourant) (hpere : (s.tas p).pere = none) (tch : Touche p s s')
    (htas : s'.tas p = { s.tas p with etat := .mourant })
    (hl : s'.lien p = some .procMourants ∨ p = s.procElu ∧ s'.lien p = none)
    (htri : s'.chainage.Sorted .procActivables fun x => (s'.tas x).prio) : Coherent s' := by
  have hvide : ∀ t, s'.lien p = some t → t = .procMourants := by
    intro t ht
    rcases hl with hl | ⟨-, hl⟩ <;> rw [hl] at ht <;> cases ht
    rfl
  refine h.touche tch hv ?_ (.of_mort ?_) ?_ ?_ htri ?_ ?_ ?_ ?_ ?_
  · unfold Core.Place
    rw [htas, tch.elu]
    exact hl
  · exact .inr (by rw [htas])
  · intro fid hx
    cases hvide _ hx
  · intro sid hx
    cases hvide _ hx
  · exact fun he => absurd he hm
  · exact fun _ => .inr hpere
  · exact fun _ => .inl hpere
  · rw [htas]
    exact h.prio p hv
  · exact fun hi => absurd hi hpi

-- ---------------------------------------------------------------------------
-- The elected process leaves the processor
-- ---------------------------------------------------------------------------

/-- Changes of structures that keep the priorities keep the activable list
sorted. -/
theorem tri_maj (h : Coherent s) {f : Processus → Processus}
    (hf : (f (s.tas p)).prio = (s.tas p).prio) :
    (s.maj p f).chainage.Sorted .procActivables fun x => ((s.maj p f).tas x).prio := by
  refine h.tri.congr ?_
  intro x _
  by_cases hx : x = p
  · rw [Core.tas_maj, if_pos hx, hf, hx]
  · rw [Core.tas_maj, if_neg hx]

/-- The elected process blocks. -/
theorem bloque (h : Coherent s) (he : s.EnCours) (hidle : s.procElu ≠ s.procIdle)
    (tch : Touche s.procElu s s') (hplace : s'.Place s.procElu) (hsus : s'.Suspendu s.procElu)
    (hfile : ∀ fid, s'.lien s.procElu = some (.file fid) → ∃ f, s.tableauFile fid = some f)
    (hsem : ∀ sid, s'.lien s.procElu = some (.semaphore sid) → ∃ sem, s.tableauSem sid = some sem)
    (htri : s'.chainage.Sorted .procActivables fun x => (s'.tas x).prio)
    (hetat : (s'.tas s.procElu).etat ≠ .mourant)
    (hprio : (s'.tas s.procElu).prio = (s.tas s.procElu).prio) : Coherent s' := by
  refine h.touche tch he.vivant hplace hsus hfile hsem htri ?_ ?_ ?_ ?_ ?_
  · intro hm
    rw [he.etat] at hm
    cases hm
  · exact fun hm => absurd hm hetat
  · exact fun hm => absurd hm hetat
  · rw [hprio]
    exact h.prio _ he.vivant
  · exact fun hi => absurd hi hidle

theorem endort (h : Coherent s) (he : s.EnCours) (hidle : s.procElu ≠ s.procIdle) (ticks : Nat) :
    Coherent (((s.maj s.procElu fun r => { r with etat := .endormi, secReveille := ticks }).ajoute
      .procEndormis s.procElu (·.secReveille)).empile (.retour 0)) := by
  have hl := h.lien_procElu he
  refine h.bloque he hidle ?_ ?_ ?_ ?_ ?_ ?_ ?_ ?_
  · exact ((Touche.maj rfl rfl rfl).trans Touche.ajoute).trans (Touche.maj rfl rfl rfl)
  · simp [Core.Place, Core.empile, Core.lien_ajoute, hl]
  · refine .of_volontaire ?_ (.inr (.inr ?_)) <;> simp [Core.empile, Reprise.volontaire]
  · simp [Core.empile, Core.lien_ajoute, hl]
  · simp [Core.empile, Core.lien_ajoute, hl]
  · refine LinkedQueues.Sorted.add_of_ne (LinkedQueues.Sorted.congr h.tri ?_) (by decide)
    intro x hx
    have hne := h.ne_procElu he (LinkedQueues.link_of_mem hx)
    simp [Core.empile, hne]
  · simp [Core.empile]
  · simp [Core.empile]

theorem attendEs (h : Coherent s) (he : s.EnCours) (hidle : s.procElu ≠ s.procIdle)
    (string length : Nat) :
    Coherent (((s.maj s.procElu fun r => { r with etat := .attendEs }).ajoute .procBloqueEs
      s.procElu (·.prio)).empile (.consRead string length)) := by
  have hl := h.lien_procElu he
  refine h.bloque he hidle ?_ ?_ ?_ ?_ ?_ ?_ ?_ ?_
  · exact ((Touche.maj rfl rfl rfl).trans Touche.ajoute).trans (Touche.maj rfl rfl rfl)
  · simp [Core.Place, Core.empile, Core.lien_ajoute, hl]
  · refine ⟨?_, ?_, ?_, ?_, ?_, ?_, ?_⟩ <;> simp [Core.empile]
  · simp [Core.empile, Core.lien_ajoute, hl]
  · simp [Core.empile, Core.lien_ajoute, hl]
  · refine LinkedQueues.Sorted.add_of_ne (LinkedQueues.Sorted.congr h.tri ?_) (by decide)
    intro x hx
    have hne := h.ne_procElu he (LinkedQueues.link_of_mem hx)
    simp [Core.empile, hne]
  · simp [Core.empile]
  · simp [Core.empile]

theorem attendSemaphore (h : Coherent s) (he : s.EnCours) (hidle : s.procElu ≠ s.procIdle)
    {sid : Int} {sem : Semaphore} (hs : s.tableauSem sid = some sem) :
    Coherent (((s.maj s.procElu fun r => { r with etat := .attendSemaphore }).ajoute
      (.semaphore sid) s.procElu (·.place)).empile .wait) := by
  have hl := h.lien_procElu he
  refine h.bloque he hidle ?_ ?_ ?_ ?_ ?_ ?_ ?_ ?_
  · exact ((Touche.maj rfl rfl rfl).trans Touche.ajoute).trans (Touche.maj rfl rfl rfl)
  · simp [Core.Place, Core.empile, Core.lien_ajoute, hl]
  · refine ⟨?_, ?_, ?_, ?_, ?_, ?_, ?_⟩ <;> simp [Core.empile]
  · simp [Core.empile, Core.lien_ajoute, hl]
  · simp [Core.empile, Core.lien_ajoute, hl, hs]
  · refine LinkedQueues.Sorted.add_of_ne (LinkedQueues.Sorted.congr h.tri ?_) (by simp)
    intro x hx
    have hne := h.ne_procElu he (LinkedQueues.link_of_mem hx)
    simp [Core.empile, hne]
  · simp [Core.empile]
  · simp [Core.empile]

theorem attendFile (h : Coherent s) (he : s.EnCours) (hidle : s.procElu ≠ s.procIdle)
    {fid : Int} {f : File} (hf : s.tableauFile fid = some f) {k : Reprise}
    (hk : k = .psend ∨ ∃ m, k = .preceive m) : Coherent ((s.bloqueFile fid).empile k) := by
  have hl := h.lien_procElu he
  refine h.bloque he hidle ?_ ?_ ?_ ?_ ?_ ?_ ?_ ?_
  · exact (((Touche.ajoute (t := .file fid)).trans (Touche.maj rfl rfl rfl)).trans
      (Touche.maj rfl rfl rfl)).trans (Touche.maj rfl rfl rfl)
  · simp [Core.Place, Core.empile, Core.bloqueFile, Core.lien_ajoute, hl]
  · rcases hk with rfl | ⟨m, rfl⟩ <;>
      refine ⟨?_, ?_, ?_, ?_, ?_, ?_, ?_⟩ <;> simp [Core.empile, Core.bloqueFile]
  · simp [Core.empile, Core.bloqueFile, Core.lien_ajoute, hl, hf]
  · simp [Core.empile, Core.bloqueFile, Core.lien_ajoute, hl]
  · refine LinkedQueues.Sorted.add_of_ne (LinkedQueues.Sorted.congr h.tri ?_) (by simp)
    intro x hx
    have hne := h.ne_procElu he (LinkedQueues.link_of_mem hx)
    simp [Core.empile, Core.bloqueFile, hne]
  · simp [Core.empile, Core.bloqueFile]
  · simp [Core.empile, Core.bloqueFile]

theorem attendFils (h : Coherent s) (he : s.EnCours) (hidle : s.procElu ≠ s.procIdle) {k : Reprise}
    (hk : (∃ pid c r, k = .waitpid pid c r ∧ 0 ≤ pid ∧ c ∈ s.fils s.procElu ∧
        (s.tas c).pid = pid) ∨
      ∃ pid r, k = .waitpidFils pid r ∧ pid < 0 ∧ s.fils s.procElu ≠ []) :
    Coherent ((s.maj s.procElu fun r => { r with etat := .attendFils }).empile k) := by
  have hl := h.lien_procElu he
  have tch : Touche s.procElu s
      ((s.maj s.procElu fun r => { r with etat := .attendFils }).empile k) :=
    (Touche.maj rfl rfl rfl).trans (Touche.maj rfl rfl rfl)
  have hctx : (((s.maj s.procElu fun r => { r with etat := .attendFils }).empile k).tas
      s.procElu).contexte = k := by simp [Core.empile]
  refine h.bloque he hidle tch ?_ ?_ ?_ ?_ ?_ ?_ ?_
  · simp [Core.Place, Core.empile, hl]
  · refine ⟨?_, ?_, ?_, ?_, ?_, ?_, ?_⟩
    · simp [Core.empile]
    · simp [Core.empile]
    · simp [Core.empile]
    · rcases hk with ⟨pid, c, r, rfl, -⟩ | ⟨pid, r, rfl, -⟩ <;> simp [Core.empile]
    · rcases hk with ⟨pid, c, r, rfl, -⟩ | ⟨pid, r, rfl, -⟩ <;> simp [Core.empile]
    · rintro - pid c r hx
      rw [tch.fils_eq, tch.pid_eq]
      rw [hctx] at hx
      rcases hk with ⟨pid', c', r', rfl, hk⟩ | ⟨pid', r', rfl, -⟩
      · cases hx
        exact hk
      · cases hx
    · rintro - pid r hx
      rw [tch.fils_eq]
      rw [hctx] at hx
      rcases hk with ⟨pid', c', r', rfl, -⟩ | ⟨pid', r', rfl, hk⟩
      · cases hx
      · cases hx
        exact hk
  · simp [Core.empile, hl]
  · simp [Core.empile, hl]
  · refine LinkedQueues.Sorted.congr h.tri ?_
    intro x hx
    have hne := h.ne_procElu he (LinkedQueues.link_of_mem hx)
    simp [Core.empile, hne]
  · simp [Core.empile]
  · simp [Core.empile]

/-- Saving a return point that asks nothing of the children. -/
theorem empileVolontaire (h : Coherent s) (hv : s.vivant s.procElu = true)
    (he : (s.tas s.procElu).etat = .elu) {k : Reprise} (hk : k.volontaire = true) :
    Coherent (s.empile k) := by
  have hl : s.lien s.procElu = none := by
    have hpl := h.place _ hv
    unfold Core.Place at hpl
    rw [he] at hpl
    exact hpl.2
  have htas : (s.empile k).tas s.procElu = { s.tas s.procElu with contexte := k } := by
    rw [Core.empile, Core.tas_maj, if_pos rfl]
  refine h.touche (q := s.procElu) (Touche.maj rfl rfl rfl) hv ?_ ?_ (h.lieFile _) (h.lieSem _)
    (h.tri_maj rfl) ?_ ?_ ?_ ?_ ?_
  · unfold Core.Place
    rw [htas]
    simp only [he]
    exact ⟨rfl, hl⟩
  · refine .of_volontaire ?_ (.inl ?_)
    · rw [htas]; exact hk
    · rw [htas]; exact he
  all_goals rw [htas]
  · exact id
  · exact fun hm => .inl hm
  · exact h.orphelin _ hv
  · exact h.prio _ hv
  · intro hi
    exact ⟨hi ▸ h.idle.2.2.1, .inl he, hk⟩

/-- A dead process may save any return point. -/
theorem empileMort (h : Coherent s) (hv : s.vivant s.procElu = true)
    (hm : s.Mort s.procElu) (k : Reprise) : Coherent (s.empile k) := by
  have htas : (s.empile k).tas s.procElu = { s.tas s.procElu with contexte := k } := by
    rw [Core.empile, Core.tas_maj, if_pos rfl]
  have hmort : (s.empile k).Mort s.procElu := by
    unfold Core.Mort
    rw [htas]
    exact hm
  refine h.touche (q := s.procElu) (Touche.maj rfl rfl rfl) hv ?_ (.of_mort hmort) (h.lieFile _)
    (h.lieSem _) (h.tri_maj rfl) ?_ ?_ ?_ ?_ ?_
  · have hpl := h.place _ hv
    unfold Core.Place at hpl ⊢
    rw [htas]
    exact hpl
  all_goals rw [htas]
  · exact id
  · exact fun hx => .inl hx
  · exact h.orphelin _ hv
  · exact h.prio _ hv
  · intro hi
    refine absurd hi (h.ne_idle_of_etat ?_ ?_) <;> rcases hm with hm | hm <;> rw [hm] <;> decide

end Coherent

end GenesisOS
