import GenesisOS.Refinement.Scheduling

/-!
# GenesisOS — `exit`, `kill` and `waitpid` refine the transitions

The end of a `waitpid` is also described exactly (`FinWaitpid`,
`BoucleWaitpid`, `AppelWaitpid`): what it returns, what it stores and what it
frees.
-/

namespace GenesisOS

open Lib

section

variable {C : Cadre} {s : Kernel} {R : Unit → Kernel → Prop}

-- ---------------------------------------------------------------------------
-- Dying
-- ---------------------------------------------------------------------------

theorem wp_reveillePere {E : Faute → Prop} {l : Lieu} {pere : Ptr} (hv : s.vivant pere = true)
    (hl : (s.tas pere).etat = .attendFils → s.lien pere = none)
    (h : ∀ s', s'.toCore = s.toCore.reveillePere pere → R () s') :
    wp E (reveillePere l pere) R s := by
  simp only [reveillePere, wp_bind]
  refine wp_lire hv ?_
  split
  · next he =>
    simp only [wp_bind]
    refine wp_ecrire hv ?_
    intro s₁ h₁
    refine wp_queueAdd (by rw [h₁]; exact hl he) ?_
    intro s₂ h₂
    refine h s₂ ?_
    rw [h₂, h₁, Core.reveillePere, if_pos he]
    rfl
  · next he =>
    refine h s ?_
    rw [Core.reveillePere, if_neg he]

/-- A call of `exit`. -/
theorem wp_exit {E : Faute → Prop} {Q : Suite → Kernel → Prop} (h : Stable s.toCore)
    (he : s.toCore.EnCours) (hidle : s.procElu ≠ s.procIdle) (v : Int)
    (hQ : ∀ s', Sortie .exit .exitFin s.toCore s'.toCore → Q (.ordonnanceur .exitFin) s') :
    wp E (exit v) Q s := by
  have hc := h.coherent
  simp only [exit, wp_bind, wp_get]
  refine wp_ecrire he.vivant ?_
  intro s₁ h₁
  refine wp_note ?_
  intro s₂ h₂
  refine wp_lire (by rw [h₂, h₁]; exact he.vivant) ?_
  have hpere : (s₂.tas s.procElu).pere = (s.tas s.procElu).pere := by
    simp [h₂, h₁]
  rw [hpere]
  cases hp : (s.tas s.procElu).pere with
  | none =>
    simp only [wp_bind]
    refine wp_ecrire (by rw [h₂, h₁]; exact he.vivant) ?_
    intro s₃ h₃
    refine hQ s₃ ?_
    rw [h₃, h₂, h₁]
    exact .exitMourant hidle hp
  | some pere =>
    obtain ⟨hv, hf⟩ := hc.pere _ pere he.vivant (by rw [he.etat]; decide) hp
    simp only [wp_bind]
    refine wp_ecrire (by rw [h₂, h₁]; exact he.vivant) ?_
    intro s₃ h₃
    refine wp_reveillePere (by rw [h₃, h₂, h₁]; exact hv) ?_ ?_
    · intro hx
      have hne : pere ≠ s.procElu := by
        rintro rfl
        simp [h₃] at hx
      have hx' : (s.tas pere).etat = .attendFils := by
        rw [← hx]
        simp [h₃, h₂, h₁, hne]
      rw [h₃, h₂, h₁]
      exact hc.lien_of_attendFils hv hx'
    intro s₄ h₄
    refine hQ s₄ ?_
    rw [h₄, h₃, h₂, h₁]
    exact .exitZombie hidle hp

theorem exit_raffine (h : Stable s.toCore) (he : s.toCore.EnCours)
    (hidle : s.procElu ≠ s.procIdle) (hC : C.meurt .exit s.toCore) (v : Int) : Raffine C (exit v) s :=
  wp_exit h he hidle v fun _ hs => .ordonnanceur .refl he hs fun _ => hC

/-- The process `kill(pid)` would terminate, if it is not the caller. -/
def Core.victime (s : Core) (pid : Int) : Option Ptr :=
  if 0 < pid ∧ pid < MAX_PROCESS then
    (s.tableDesProcs pid).filter fun p =>
      decide (p ≠ s.procElu ∧ (s.tas p).etat ≠ .zombie ∧ (s.tas p).etat ≠ .mourant)
  else none

theorem Core.victime_moi {s : Core} {pid : Int} (h : s.tableDesProcs pid = some s.procElu) :
    s.victime pid = none := by
  unfold Core.victime
  split
  · simp [h]
  · rfl

/-- A call of `kill`. -/
inductive AppelKill (s : Core) (pid : Int) : Suite → Core → Prop
  | refus (hv : s.victime pid = none) (hp : s.tableDesProcs pid ≠ some s.procElu) :
      AppelKill s pid (.retour (-1)) s
  | suicide {s' : Core} (hp : s.tableDesProcs pid = some s.procElu)
      (h : Sortie .suicide (.retour 0) s s') : AppelKill s pid (.ordonnanceur (.retour 0)) s'
  | zombie {p pere : Ptr} {t : Tete} {s' : Core} (hv : s.victime pid = some p)
      (ht : s.lien p = some t) (hpere : (s.tas p).pere = some pere)
      (hlib : Relation.ReflTransGen Liberation ((((s.note (.tue p)).retire p).maj p
        fun r => { r with etat := .zombie }).reveillePere pere) s')
      (hvide : s'.elems .procMourants = []) : AppelKill s pid (.retour 0) s'
  | mourant {p : Ptr} {t : Tete} {s' : Core} (hv : s.victime pid = some p)
      (ht : s.lien p = some t) (hpere : (s.tas p).pere = none)
      (hlib : Relation.ReflTransGen Liberation ((((s.note (.tue p)).retire p).maj p
        fun r => { r with etat := .mourant }).ajoute .procMourants p (·.prio)) s')
      (hvide : s'.elems .procMourants = []) : AppelKill s pid (.retour 0) s'

theorem Coherent.of_victime {s : Core} {pid : Int} {p : Ptr} (h : Coherent s)
    (hv : s.victime pid = some p) : s.vivant p = true ∧ 0 < (s.tas p).pid ∧ p ≠ s.procElu ∧
      (s.tas p).etat ≠ .zombie ∧ (s.tas p).etat ≠ .mourant := by
  unfold Core.victime at hv
  split at hv
  · next hpid =>
    obtain ⟨hp, hne⟩ := Option.filter_eq_some_iff.mp hv
    obtain ⟨hvp, hpp⟩ := h.table pid p hp
    rw [decide_eq_true_eq] at hne
    exact ⟨hvp, by omega, hne⟩
  · cases hv

/-- A victim in no list is in `waitpid`. -/
theorem Coherent.etat_victime {s : Core} {pid : Int} {p : Ptr} (h : Coherent s)
    (hv : s.victime pid = some p) (hl : s.lien p = none) : (s.tas p).etat = .attendFils := by
  obtain ⟨hvp, -, hpe, hz, hm⟩ := h.of_victime hv
  have hpl := h.place p hvp
  unfold Core.Place at hpl
  rw [hl] at hpl
  cases het : (s.tas p).etat <;> rw [het] at hpl hz hm <;> simp at hpl hz hm
  exact absurd hpl hpe

/-- A call of `kill` on the caller itself. -/
theorem wp_kill_soi {E : Faute → Prop} {Q : Suite → Kernel → Prop} {pid : Int}
    (h : Stable s.toCore) (he : s.toCore.EnCours) (hidle : s.procElu ≠ s.procIdle)
    (hpid : s.tableDesProcs pid = some s.procElu)
    (hQ : ∀ s', Sortie .suicide (.retour 0) s.toCore s'.toCore →
      Q (.ordonnanceur (.retour 0)) s') : wp E (kill pid) Q s := by
  have hc := h.coherent
  obtain ⟨hv, rfl⟩ := hc.table _ _ hpid
  have hne : ¬ ((s.tas s.procElu).pid ≤ 0 ∨ (s.tas s.procElu).pid ≥ MAX_PROCESS) := by
    obtain ⟨h0, hN⟩ := hc.pid _ hv
    have hz : (s.tas s.procElu).pid ≠ 0 := fun hz =>
      hidle (hc.pid_injective hv hc.idle.1 (hz.trans hc.idle.2.1.symm))
    omega
  simp only [kill, wp_bind, wp_get, if_neg hne, hpid]
  refine wp_lire hv ?_
  rw [if_neg (by rw [he.etat]; decide)]
  simp only [wp_bind, if_true]
  refine wp_note ?_
  intro s₁ h₁
  cases hpere : (s.tas s.procElu).pere with
  | none =>
    simp only [wp_bind]
    refine wp_ecrire (by rw [h₁]; exact hv) ?_
    intro s₂ h₂
    refine hQ s₂ ?_
    rw [h₂, h₁]
    exact .suicideMourant hidle hpere
  | some pere =>
    simp only [wp_bind]
    refine wp_ecrire (by rw [h₁]; exact hv) ?_
    intro s₂ h₂
    refine hQ s₂ ?_
    rw [h₂, h₁]
    exact .suicideZombie hidle hpere

theorem wp_kill {Q : Suite → Kernel → Prop} (h : Stable s.toCore) (he : s.toCore.EnCours)
    (hidle : s.procElu ≠ s.procIdle) (pid : Int)
    (hfils : ∀ p, s.toCore.victime pid = some p → (s.tas p).etat = .attendFils →
      C.faute (.assertion .queueDel))
    (hQ : ∀ r s', AppelKill s.toCore pid r s'.toCore → Q r s') :
    wp C.tolere (kill pid) Q s := by
  have hc := h.coherent
  by_cases hsoi : s.tableDesProcs pid = some s.procElu
  · exact wp_kill_soi h he hidle hsoi fun s' hs => hQ _ _ (.suicide hsoi hs)
  simp only [kill, wp_bind, wp_get]
  split
  · next hpid =>
    refine hQ _ s (.refus ?_ hsoi)
    rw [Core.victime, if_neg (by omega)]
  next hpid =>
  cases hp : s.tableDesProcs pid with
  | none =>
    refine hQ _ s (.refus ?_ hsoi)
    rw [Core.victime, if_pos (by omega), hp]
    rfl
  | some p =>
    obtain ⟨hv, hpp⟩ := hc.table pid p hp
    simp only [wp_bind]
    refine wp_lire hv ?_
    split
    · next hzm =>
      refine hQ _ s (.refus ?_ hsoi)
      rw [Core.victime, if_pos (by omega), hp]
      rcases hzm with hzm | hzm <;> simp [hzm]
    next hzm =>
    rw [not_or] at hzm
    simp only [wp_bind]
    refine wp_note ?_
    intro s₁ h₁
    split
    · next hpe => exact absurd (hpe ▸ hp) hsoi
    next hpe =>
    have hvic : s.toCore.victime pid = some p := by
      rw [Core.victime, if_pos (by omega), hp]
      simp [hpe, hzm]
    have hpos : 0 < (s.tas p).pid := by omega
    cases hl : s.lien p with
    | none =>
      simp only [wp_bind, queueDel, wp_get]
      rw [show s₁.lien p = none by rw [h₁]; exact hl]
      exact .inr (hfils p hvic (hc.etat_victime hvic hl))
    | some t =>
      simp only [wp_bind]
      refine wp_queueDel (t := t) (by rw [h₁]; exact hl) ?_
      intro s₂ h₂
      cases hpere : (s.tas p).pere with
      | none =>
        simp only [wp_bind]
        refine wp_ecrire (by rw [h₂, h₁]; exact hv) ?_
        intro s₃ h₃
        refine wp_queueAdd (by rw [h₃, h₂]; simp [Core.lien_retire]) ?_
        intro s₄ h₄
        have q : Quiet { victime := some t } s.toCore s₄.toCore := by
          rw [h₄, h₃, h₂, h₁]
          exact .tueMourant hpos hpe hzm.1 hzm.2 hl hpere
        refine wp_freeMourantQueue (h.quiet he q).coherent ?_
        intro s₅ hlib hvide
        rw [wp_pure]
        rw [h₄, h₃, h₂, h₁] at hlib
        exact hQ _ s₅ (.mourant hvic hl hpere hlib hvide)
      | some pere =>
        have hvp := (hc.pere p pere hv hzm.2 hpere).1
        simp only [wp_bind]
        refine wp_ecrire (by rw [h₂, h₁]; exact hv) ?_
        intro s₃ h₃
        have hs₃ : s₃.toCore = ((s.toCore.note (.tue p)).retire p).maj p
            fun r => { r with etat := .zombie } := by rw [h₃, h₂, h₁]
        refine wp_reveillePere (by rw [hs₃]; exact hvp) ?_ ?_
        · intro hx
          have hne : pere ≠ p := by
            rintro rfl
            simp [hs₃] at hx
          have hx' : (s.tas pere).etat = .attendFils := by
            rw [← hx]
            simp [hs₃, hne]
          rw [hs₃]
          simp only [Core.lien_maj, Core.lien_retire, hne, if_false]
          exact hc.lien_of_attendFils hvp hx'
        intro s₄ h₄
        have q : Quiet
            { victime := some t
              fort := decide ((s.tas pere).etat = .attendFils) && s.fort pere } s.toCore
            s₄.toCore := by
          rw [h₄, hs₃]
          exact .tueZombie hpos hpe hzm.1 hzm.2 hl hpere
        refine wp_freeMourantQueue (h.quiet he q).coherent ?_
        intro s₅ hlib hvide
        rw [wp_pure]
        rw [h₄, hs₃] at hlib
        exact hQ _ s₅ (.zombie hvic hl hpere hlib hvide)

theorem AppelKill.segment {s s' : Core} {pid : Int} {r : Suite} (h : Stable s) (he : s.EnCours)
    (hsuicide : s.tableDesProcs pid = some s.procElu → C.meurt .suicide s)
    (hvictime : ∀ p t, s.victime pid = some p → s.lien p = some t → C.victime t)
    (hfort : ∀ p pere, s.victime pid = some p → (s.tas p).pere = some pere →
      (s.tas pere).etat = .attendFils → s.fort pere = true → C.fort)
    (ha : AppelKill s pid r s') : Segment C r s s' := by
  -- the victim first, then the dead
  have fin : ∀ {s₁ : Core} {l : Etiquette} {p : Ptr} {t : Tete}, Quiet l s s₁ →
      s.victime pid = some p → s.lien p = some t → l.victime = some t → l.trace = false → l.efface = none →
      l.prio = none → l.reveil = none → (l.fort = true → C.fort) → Relation.ReflTransGen Liberation s₁ s' → s'.elems .procMourants = [] →
      Segment C (.retour 0) s s' := by
    intro s₁ l p t q hp hlp hlv hlt hle hlp' hlr hlf hlib hvide
    have hadm : C.admetRetour l := by
      refine ⟨⟨?_, by simp [hlt], by simp [hle], by simp [hlp'], by simp [hlr]⟩, hlf⟩
      intro e hle
      rw [hlv] at hle
      cases hle
      exact hvictime p t hp hlp
    have h₁ := h.quiet he q
    have he₁ := h.enCours_quiet he q
    have q' : Quiet {} s₁ s' := .liberation hlib hvide
    exact .retour ((Calme.un he q hadm).puis he₁ q' Cadre.admetRetour_muette) (h₁.enCours_quiet he₁ q')
  cases ha with
  | refus hv _ => exact .rien he
  | suicide hp hs => exact .ordonnanceur .refl he hs (fun _ => hsuicide hp)
  | @zombie p pere t _ hv ht hpere hlib hvide =>
    obtain ⟨-, hpos, hpe, hz, hm⟩ := h.coherent.of_victime hv
    refine fin (.tueZombie hpos hpe hz hm ht hpere) hv ht rfl rfl rfl rfl rfl ?_ hlib hvide
    intro hf
    rw [Bool.and_eq_true, decide_eq_true_eq] at hf
    exact hfort p pere hv hpere hf.1 hf.2
  | mourant hv ht hpere hlib hvide =>
    obtain ⟨-, hpos, hpe, hz, hm⟩ := h.coherent.of_victime hv
    exact fin (.tueMourant hpos hpe hz hm ht hpere) hv ht rfl rfl rfl rfl rfl (by simp) hlib hvide

-- ---------------------------------------------------------------------------
-- `waitpid`
-- ---------------------------------------------------------------------------

/-- The end of `waitpid`, once the zombie child `c` is found: its value is
stored, the dead are freed, its identifier is returned. -/
inductive FinWaitpid (s : Core) (c : Ptr) (retvalp : Nat) : Suite → Core → Prop
  | mk {l : List Fils} {s₂ : Core} (hl : retireFils c (s.tas s.procElu).filsTete = some l)
      (hlib : Relation.ReflTransGen Liberation (s.recolte c l) s₂)
      (hvide : s₂.elems .procMourants = []) :
      FinWaitpid s c retvalp (.retour (s.tas c).pid)
        (s₂.ecrit retvalp (BitVec.ofInt 32 (s.tas c).retval))

/-- The loops of `waitpid`. -/
inductive BoucleWaitpid (s : Core) (pid : Int) (retvalp : Nat) : Suite → Core → Prop
  | attend {c : Ptr} (hc : c ∈ s.fils s.procElu) (hpid : (s.tas c).pid = pid) (h0 : 0 ≤ pid)
      (hz : (s.tas c).etat ≠ .zombie) :
      BoucleWaitpid s pid retvalp (.ordonnanceur (.waitpid pid c retvalp))
        (s.maj s.procElu fun r => { r with etat := .attendFils })
  | attendFils (hne : s.fils s.procElu ≠ [])
      (hz : ∀ c ∈ s.fils s.procElu, (s.tas c).etat ≠ .zombie) (h0 : pid < 0) :
      BoucleWaitpid s pid retvalp (.ordonnanceur (.waitpidFils pid retvalp))
        (s.maj s.procElu fun r => { r with etat := .attendFils })
  | recolte {c : Ptr} {r : Suite} {s' : Core} (hc : c ∈ s.fils s.procElu)
      (hz : (s.tas c).etat = .zombie) (hpid : 0 ≤ pid → (s.tas c).pid = pid)
      (h : FinWaitpid s c retvalp r s') : BoucleWaitpid s pid retvalp r s'

/-- The calls `waitpid` refuses. -/
def Core.RefusWaitpid (s : Core) (pid : Int) : Prop :=
  MAX_PROCESS ≤ pid ∨ (0 ≤ pid ∧ ∀ c ∈ s.fils s.procElu, (s.tas c).pid ≠ pid) ∨
    (pid < 0 ∧ s.fils s.procElu = [])

/-- A call of `waitpid`. -/
inductive AppelWaitpid (s : Core) (pid : Int) (retvalp : Nat) : Suite → Core → Prop
  | refus (h : s.RefusWaitpid pid) :
      AppelWaitpid s pid retvalp (.retour (-1)) (s.note (.attente s.procElu pid retvalp))
  | boucle {r : Suite} {s' : Core} (hr : ¬ s.RefusWaitpid pid)
      (h : BoucleWaitpid (s.note (.attente s.procElu pid retvalp)) pid retvalp r s') :
      AppelWaitpid s pid retvalp r s'

theorem wp_waitpidFin {Q : Suite → Kernel → Prop} {c : Ptr} {retvalp : Nat}
    (h : Stable s.toCore) (he : s.toCore.EnCours) (hc : c ∈ s.toCore.fils s.procElu)
    (hz : (s.tas c).etat = .zombie)
    (hQ : ∀ r s', FinWaitpid s.toCore c retvalp r s'.toCore → Q r s') :
    wp C.tolere (waitpidFin c retvalp) Q s := by
  obtain ⟨hcv, -, -⟩ := h.coherent.fils _ c he.vivant hc
  have hcl := h.coherent.lien_of_zombie hcv hz
  have hce : c ≠ s.procElu := Coherent.ne_procElu_of_zombie he hz
  obtain ⟨l, hl⟩ := retireFils_isSome hc
  simp only [waitpidFin, wp_bind, wp_get]
  refine wp_lire he.vivant ?_
  simp only [hl, wp_bind]
  refine wp_ecrire he.vivant ?_
  intro s₁ h₁
  refine wp_lire (by rw [h₁]; exact hcv) ?_
  have htas : s₁.tas c = s.tas c := by simp [h₁, hce]
  rw [htas]
  refine wp_note ?_
  intro s₂ h₂
  refine wp_ecrire (by rw [h₂, h₁]; exact hcv) ?_
  intro s₃ h₃
  refine wp_queueAdd (by rw [h₃, h₂, h₁]; exact hcl) ?_
  intro s₄ h₄
  have hs₄ : s₄.toCore = s.toCore.recolte c l := by rw [h₄, h₃, h₂, h₁]; rfl
  have hco : Coherent s₄.toCore := by
    rw [hs₄]
    exact h.coherent.recolte he hc hz hl
  refine wp_freeMourantQueue hco ?_
  intro s₅ hlib hvide
  rw [hs₄] at hlib
  by_cases hr : retvalp = 0
  · simp only [hr, ne_eq, not_true_eq_false, if_false, wp_pure]
    refine hQ _ s₅ ?_
    rw [← Core.ecrit_zero (s := s₅.toCore) (BitVec.ofInt 32 (s.tas c).retval), hr]
    exact .mk hl hlib hvide
  · simp only [ne_eq, hr, not_false_eq_true, if_true, wp_bind]
    refine wp_ecrireMot ?_
    intro s₆ h₆
    refine hQ _ s₆ ?_
    rw [h₆, ← Core.ecrit_of_ne hr]
    exact .mk hl hlib hvide

theorem wp_waitpidBoucle {Q : Suite → Kernel → Prop} {pid : Int} {c : Ptr} {retvalp : Nat}
    (h : Stable s.toCore) (he : s.toCore.EnCours) (hc : c ∈ s.toCore.fils s.procElu)
    (hpid : (s.tas c).pid = pid) (h0 : 0 ≤ pid)
    (hQ : ∀ r s', BoucleWaitpid s.toCore pid retvalp r s'.toCore → Q r s') :
    wp C.tolere (waitpidBoucle pid c retvalp) Q s := by
  simp only [waitpidBoucle, wp_bind]
  refine wp_lire (h.coherent.fils _ c he.vivant hc).1 ?_
  by_cases hz : (s.tas c).etat = .zombie
  · simp only [hz, ne_eq, not_true_eq_false, if_false]
    exact wp_waitpidFin h he hc hz fun r s' hf => hQ r s' (.recolte hc hz (fun _ => hpid) hf)
  · simp only [ne_eq, hz, not_false_eq_true, if_true, wp_bind, wp_get]
    refine wp_ecrire he.vivant ?_
    intro s₁ h₁
    refine hQ _ s₁ ?_
    rw [h₁]
    exact .attend hc hpid h0 hz

theorem wp_premierZombie {Q : Option Ptr → Kernel → Prop} (l : List Fils)
    (hv : ∀ c ∈ l.map Fils.procFils, s.vivant c = true)
    (hnone : (∀ c ∈ l.map Fils.procFils, (s.tas c).etat ≠ .zombie) → Q none s)
    (hsome : ∀ c ∈ l.map Fils.procFils, (s.tas c).etat = .zombie → Q (some c) s) :
    wp C.tolere (premierZombie l) Q s := by
  induction l with
  | nil => exact hnone (by simp)
  | cons f l ih =>
    simp only [List.map_cons, List.mem_cons, forall_eq_or_imp] at hv hnone hsome
    simp only [premierZombie, wp_bind]
    refine wp_lire hv.1 ?_
    split
    · next hz => exact hsome.1 hz
    · next hz => exact ih hv.2 (fun hx => hnone ⟨hz, hx⟩) hsome.2

theorem wp_waitpidFilsBoucle {Q : Suite → Kernel → Prop} {pid : Int} {retvalp : Nat}
    (h : Stable s.toCore) (he : s.toCore.EnCours) (hne : s.toCore.fils s.procElu ≠ [])
    (h0 : pid < 0) (hQ : ∀ r s', BoucleWaitpid s.toCore pid retvalp r s'.toCore → Q r s') :
    wp C.tolere (waitpidFilsBoucle pid retvalp) Q s := by
  simp only [waitpidFilsBoucle, wp_bind, wp_get]
  refine wp_lire he.vivant ?_
  refine wp_premierZombie _ (fun c hc => (h.coherent.fils _ c he.vivant hc).1) ?_ ?_
  · intro hz
    simp only [wp_bind]
    refine wp_ecrire he.vivant ?_
    intro s₁ h₁
    refine hQ _ s₁ ?_
    rw [h₁]
    exact .attendFils hne hz h0
  · intro c hc hz
    refine wp_waitpidFin h he hc hz fun r s' hf => hQ r s' (.recolte hc hz (fun hx => ?_) hf)
    omega

theorem wp_waitpid {Q : Suite → Kernel → Prop} (h : Stable s.toCore) (he : s.toCore.EnCours)
    (pid : Int) (retvalp : Nat)
    (hQ : ∀ r s', AppelWaitpid s.toCore pid retvalp r s'.toCore → Q r s') :
    wp C.tolere (waitpid pid retvalp) Q s := by
  have hc := h.coherent
  simp only [waitpid, wp_bind, wp_get]
  refine wp_note ?_
  intro s₁ h₁
  have h' : Stable s₁.toCore := by
    rw [h₁]
    exact h.note _
  have he' : s₁.toCore.EnCours := by
    rw [h₁]
    exact ⟨he.vivant, he.etat, he.contexte⟩
  have hrefus : s.toCore.RefusWaitpid pid → Q (.retour (-1)) s₁ := by
    intro hr
    refine hQ _ s₁ ?_
    rw [h₁]
    exact .refus hr
  have hboucle : ¬ s.toCore.RefusWaitpid pid →
      ∀ r s', BoucleWaitpid s₁.toCore pid retvalp r s'.toCore → Q r s' := by
    intro hr r s' hb
    rw [h₁] at hb
    exact hQ r s' (.boucle hr hb)
  split
  · next hmax => exact hrefus (.inl hmax)
  next hmax =>
  split
  · next h0 =>
    cases hp : s.tableDesProcs pid with
    | none =>
      refine hrefus (.inr (.inl ⟨h0, ?_⟩))
      intro c hcf hcp
      have := hc.inscrit c (hc.fils _ c he.vivant hcf).1
      rw [hcp, hp] at this
      cases this
    | some p =>
      obtain ⟨hv, hpp⟩ := hc.table pid p hp
      simp only [wp_bind]
      refine wp_lire (by rw [h₁]; exact hv) ?_
      have hpere : (s₁.tas p).pere = (s.tas p).pere := by simp [h₁]
      rw [hpere]
      by_cases hf : (s.tas p).pere = some s.procElu
      · have hm : (s.tas p).etat ≠ .mourant := by
          intro hm
          rw [h.orphelins p hv hm] at hf
          cases hf
        have hpf := (hc.pere p _ hv hm hf).2
        simp only [hf, ne_eq, not_true_eq_false, if_false]
        refine wp_waitpidBoucle h' he' ?_ ?_ h0 (hboucle ?_)
        · rw [h₁]
          exact hpf
        · rw [h₁]
          exact hpp
        · rintro (hx | ⟨-, hx⟩ | ⟨hx, -⟩)
          · exact hmax hx
          · exact hx p hpf hpp
          · omega
      · simp only [ne_eq, hf, not_false_eq_true, if_true]
        refine hrefus (.inr (.inl ⟨h0, ?_⟩))
        intro c hcf hcp
        obtain ⟨hcv, hcpere, -⟩ := hc.fils _ c he.vivant hcf
        have : c = p := hc.pid_injective hcv hv (hcp.trans hpp.symm)
        exact hf (this ▸ hcpere)
  · next h0 =>
    simp only [wp_bind]
    refine wp_lire (by rw [h₁]; exact he.vivant) ?_
    have hfils : (s₁.tas s.procElu).filsTete = (s.tas s.procElu).filsTete := by simp [h₁]
    rw [hfils]
    split
    · next hnil =>
      refine hrefus (.inr (.inr ⟨by omega, ?_⟩))
      rw [Core.fils, List.isEmpty_iff.mp hnil]
      rfl
    · next hnil =>
      have hne : s.toCore.fils s.procElu ≠ [] := by
        intro hx
        exact hnil (List.isEmpty_iff.mpr (List.map_eq_nil_iff.mp hx))
      refine wp_waitpidFilsBoucle h' he' ?_ (by omega) (hboucle ?_)
      · rw [h₁]
        exact hne
      · rintro (hx | ⟨hx, -⟩ | ⟨-, hx⟩)
        · exact hmax hx
        · exact h0 hx
        · exact hne hx

-- ---------------------------------------------------------------------------
-- Their effect
-- ---------------------------------------------------------------------------

theorem FinWaitpid.calme {s s' : Core} {L : Etiquette → Prop} {c : Ptr} {retvalp : Nat} {r : Suite}
    (h : Stable s) (he : s.EnCours) (hc : c ∈ s.fils s.procElu)
    (hz : (s.tas c).etat = .zombie) (hL : L {}) (hL' : L { trace := true })
    (hf : FinWaitpid s c retvalp r s') : Calme L s s' := by
  obtain ⟨hl, hlib, hvide⟩ := hf
  have q₁ : Quiet { trace := true } s _ := .recolte hc hz hl
  have h₁ := h.quiet he q₁
  have he₁ := h.enCours_quiet he q₁
  have q₂ : Quiet {} _ _ := .liberation hlib hvide
  exact ((Calme.un he q₁ hL').puis he₁ q₂ hL).puis (h₁.enCours_quiet he₁ q₂) (.ecriture _ _) hL'

theorem BoucleWaitpid.segment {s s' : Core} {pid : Int} {retvalp : Nat} {r : Suite}
    (h : Stable s) (he : s.EnCours) (hidle : s.procElu ≠ s.procIdle) (hC : C.trace)
    (hb : BoucleWaitpid s pid retvalp r s') : Segment C r s s' := by
  cases hb with
  | attend hc hpid h0 hz =>
    exact .ordonnanceur .refl he (.waitpid hidle hc hpid h0 hz) (fun hx => absurd rfl hx)
      fun _ => hC
  | attendFils hne hz h0 =>
    exact .ordonnanceur .refl he (.waitpidFils hidle hne hz h0) (fun hx => absurd rfl hx)
      fun _ => hC
  | recolte hc hz hpid hf =>
    have hq := hf.calme (L := C.admetRetour) h he hc hz Cadre.admetRetour_muette
      (Cadre.admetRetour_trace hC)
    have he' := h.enCours_calme he hq
    cases hf
    exact .retour hq he'

theorem Segment.apres {r : Suite} {s s₁ s' : Core} (hq : Calme C.admetRetour s s₁)
    (h : Segment C r s₁ s') (hm : ∀ m s, ¬ C.meurt m s) :
    Segment C r s s' := by
  cases h with
  | retour hq' he => exact .retour (hq.trans hq') he
  | iret hq' he => exact .iret (hq.trans hq') he
  | @ordonnanceur m k _ s₂ _ hq' he hs hmo ht =>
    refine .ordonnanceur (m := m) ((hq.mono fun l hl => hl.1).trans hq') he hs ?_ ht
    intro hne
    exact absurd (hmo hne) (hm m s₂)

theorem AppelWaitpid.segment {s s' : Core} {pid : Int} {retvalp : Nat} {r : Suite}
    (h : Stable s) (he : s.EnCours) (hidle : s.procElu ≠ s.procIdle) (hC : C.trace)
    (hm : ∀ m s, ¬ C.meurt m s)
    (ha : AppelWaitpid s pid retvalp r s') : Segment C r s s' := by
  have q : Quiet { trace := true } s (s.note (.attente s.procElu pid retvalp)) := .attente _ _
  have hq : Calme C.admetRetour s _ := .un he q (Cadre.admetRetour_trace hC)
  cases ha with
  | refus _ => exact .retour hq (h.enCours_quiet he q)
  | boucle _ hb =>
    exact (hb.segment (h.quiet he q) (h.enCours_quiet he q) hidle hC).apres hq hm

end

end GenesisOS
