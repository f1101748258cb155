import GenesisOS.Invariants.Priorities
import GenesisOS.Theorems.Queues

/-!
# GenesisOS — preemption

The kernel returns to user mode with the elected process of the greatest
priority among the activable ones, unless its last piece of code has woken a
stronger process without calling `ordonnanceur`. The pieces of code that can
do so are `signal`, `signaln`, `sdelete`, `sreset`, the `kill` of another
process, and `keyboard_data`, at once or when it is resumed.
-/

namespace GenesisOS

open Lib

-- ---------------------------------------------------------------------------
-- The processes a call wakes
-- ---------------------------------------------------------------------------

section

variable {s s' : Core} {p : Ptr}

/-- The process has become activable, and priorities are those of `s`. -/
def Eveille (s s' : Core) (p : Ptr) : Prop :=
  s'.lien p = some .procActivables ∧ s'.fort p = s.fort p

theorem Eveille.presse (h : Eveille s s' p) (hc : Coherent s') (hf : s.fort p = true) :
    s'.Presse p := ⟨hc.lie p _ h.1, hc.etat_of_lien h.1, h.2.trans hf⟩

theorem AppelSignal.lien {sid : Int} {r : Suite} (ha : AppelSignal s sid r s')
    (hp : s.lien p = some .procActivables) : s'.lien p = some .procActivables := by
  cases ha with
  | refus hs => exact hp
  | plein hs hmax => exact hp
  | libre hs hmax hpos => exact hp
  | @reveil sem q hs hmax hneg hq =>
    refine (Core.lien_eveille (s := (s.majSem sid _).note _) (p := q)
      fun r => { r with operationStatus := 1 }).trans ?_
    split
    · rfl
    · exact hp

theorem Signaux.lien {sid : Int} {n : Nat} (hs : Signaux sid n s s')
    (hp : s.lien p = some .procActivables) : s'.lien p = some .procActivables := by
  induction hs with
  | zero => exact hp
  | succ ha _ ih => exact ih (ha.lien hp)

theorem Signaux.fort {sid : Int} {n : Nat} (hs : Signaux sid n s s') (p : Ptr) :
    s'.fort p = s.fort p := by
  induction hs with
  | zero => rfl
  | succ ha _ ih => exact ih.trans (ha.fort p)

theorem Signaux.eveille {sid : Int} {n : Nat} (hs : Signaux sid n s s')
    (hp : p ∈ s.reveillesSignal sid n) : Eveille s s' p := by
  refine ⟨?_, hs.fort p⟩
  induction hs with
  | @zero s =>
    unfold Core.reveillesSignal at hp
    split at hp
    · cases hp
    · rw [Nat.zero_min] at hp
      cases hp
  | @succ n r s s₁ s' ha hs ih =>
    rcases ha.reveilles n with ⟨-, hnil⟩ | ⟨q, hq, hcons⟩
    · rw [hnil] at hp
      cases hp
    · rw [hcons] at hp
      -- the first one is woken now, the others by the next signals
      rcases List.mem_cons.mp hp with rfl | hp
      · exact hs.lien hq
      · exact ih hp

theorem AppelSignal.eveille {sid : Int} {r : Suite} (ha : AppelSignal s sid r s')
    (hp : p ∈ s.reveillesSignal sid 1) : Eveille s s' p :=
  (Signaux.succ ha .zero).eveille hp

theorem rejets_eveille {sid status : Int} {sem : Semaphore}
    (hr : Relation.ReflTransGen (Rejet sid sem status) s s')
    (hvide : s'.elems (.semaphore sid) = []) (hp : p ∈ s.elems (.semaphore sid)) :
    Eveille s s' p := by
  -- at each turn the process is still in the queue or has been woken
  have hdans : (p ∈ s'.elems (.semaphore sid) ∨ s'.lien p = some .procActivables) ∧
      s'.fort p = s.fort p := by
    clear hvide
    induction hr with
    | refl => exact ⟨.inl hp, rfl⟩
    | @tail s₁ s₂ _ hlast ih =>
      obtain ⟨q, hq, rfl⟩ := hlast
      obtain ⟨hor, hf⟩ := ih
      have helems := Core.elems_eveille_top (f := fun r => { r with operationStatus := status }) hq
        (by simp)
      have hlien := Core.lien_eveille (s := s₁) (p := q) (x := p)
        fun r => { r with operationStatus := status }
      refine ⟨?_, (Core.fort_eveille (f := fun r => { r with operationStatus := status })
        (fun _ => rfl) p).trans hf⟩
      rcases hor with hm | hl
      · rw [helems] at hm
        rcases List.mem_append.mp hm with hm | hm
        · exact .inl hm
        · rw [if_pos (List.mem_singleton.mp hm)] at hlien
          exact .inr hlien
      · right
        refine hlien.trans ?_
        split
        · rfl
        · exact hl
  obtain ⟨hm | hl, hf⟩ := hdans
  · rw [hvide] at hm
    cases hm
  · exact ⟨hl, hf⟩

theorem AppelClavier.eveille {n : Nat} {r : Suite} (ha : AppelClavier n r s s')
    (hr : ∀ k, r ≠ .ordonnanceur k) :
    (∀ p ∈ s.reveillesEs n, s'.lien p = some .procActivables) ∧
      (∀ p, s.lien p = some .procActivables → s'.lien p = some .procActivables) ∧
        ∀ p, s'.fort p = s.fort p := by
  induction ha with
  | @fin s =>
    refine ⟨?_, fun _ hp => hp, fun _ => rfl⟩
    intro p hp
    simp [Core.reveillesEs] at hp
  | @vide n r s s' hvide ha ih =>
    obtain ⟨-, hl, hf⟩ := ih hr
    refine ⟨?_, hl, hf⟩
    intro p hp
    simp [Core.reveillesEs, hvide] at hp
  | @reveil n r s s' q hq hle ha ih =>
    obtain ⟨hm, hl, hf⟩ := ih hr
    have hlien : ∀ x, (s.eveille q id).lien x =
        if x = q then some .procActivables else s.lien x := fun _ => Core.lien_eveille _
    refine ⟨?_, ?_, fun p => (hf p).trans (Core.fort_eveille (f := id) (fun _ => rfl) p)⟩
    · intro p hp
      rw [Core.reveillesEs_succ n hq] at hp
      rcases List.mem_cons.mp hp with rfl | hp
      · exact hl p ((hlien p).trans (if_pos rfl))
      · exact hm p hp
    · intro p hp
      refine hl p ((hlien p).trans ?_)
      split
      · rfl
      · exact hp
  | cede hq hgt hk => exact absurd rfl (hr _)

theorem Core.Presse.liberation (hp : s.Presse p) (h : Coherent s)
    (hl : Relation.ReflTransGen Liberation s s') : s'.Presse p := by
  induction hl with
  | refl => exact hp
  | @tail s₁ s₂ hrest hlast ih =>
    obtain ⟨hv, ha, hf⟩ := ih
    have hc := h.liberation hrest
    obtain ⟨q, adr, n, hq, hn, L⟩ := hc.liberation_spec hlast
    have hpq : p ≠ q := by
      rintro rfl
      rw [hc.etat_of_lien hq] at ha
      cases ha
    refine ⟨?_, ?_, ?_⟩
    · rw [L.vivant, if_neg hpq]
      exact hv
    · rw [L.etat_eq, if_neg]
      · exact ha
      · rintro ⟨-, hz⟩
        rw [ha] at hz
        cases hz
    · rw [Core.fort_congr L.elu fun x => (L.champs x).2.1]
      exact hf

theorem AppelKill.presse {pid : Int} {r : Suite} (h : Stable s) (he : s.EnCours)
    (ha : AppelKill s pid r s') (hp : p ∈ s.pereReveille pid) (hf : s.fort p = true) :
    s'.Presse p := by
  have hc := h.coherent
  unfold Core.pereReveille at hp
  split at hp
  · next pere hpere =>
    obtain ⟨v, hv, hvp⟩ := Option.bind_eq_some_iff.mp hpere
    split at hp
    · next hatt =>
      obtain rfl := List.mem_singleton.mp hp
      obtain ⟨hvv, hpos, hve, hz, hm⟩ := hc.of_victime hv
      cases ha with
      | refus hn _ =>
        rw [hv] at hn
        cases hn
      | suicide hx _ =>
        unfold Core.victime at hv
        split at hv
        · obtain ⟨hv', -⟩ := Option.filter_eq_some_iff.mp hv
          rw [hx] at hv'
          exact absurd (Option.some.inj hv').symm hve
        · cases hv
      | @zombie q pere t _ hv' ht hqp hlib hvide =>
        obtain rfl : q = v := by
          rw [hv] at hv'
          exact (Option.some.inj hv').symm
        obtain rfl : pere = p := by
          rw [hvp] at hqp
          exact (Option.some.inj hqp).symm
        obtain ⟨hvpere, -⟩ := hc.pere q pere hvv hm hvp
        have hpq : pere ≠ q := by
          rintro rfl
          rw [hc.lien_of_attendFils hvpere hatt] at ht
          cases ht
        have q₁ := Quiet.tueZombie hpos hve hz hm ht hvp
        refine Core.Presse.liberation ⟨?_, ?_, ?_⟩ (h.quiet he q₁).coherent hlib
        · rw [Stable.champs_reveillePere.2.2]
          exact hvpere
        · have hatt' : ((((s.note (.tue q)).retire q).maj q
              fun r => { r with etat := .zombie }).tas pere).etat = .attendFils := by
            rw [Core.tas_maj, if_neg hpq]
            exact hatt
          rw [Core.reveillePere, if_pos hatt', Core.tas_active, if_pos rfl]
        · rw [Core.fort_reveillePere, ← hf]
          exact Core.fort_congr (s := s) (u := ((s.note (.tue q)).retire q).maj q
            fun r => { r with etat := .zombie }) rfl
            (Core.prio_maj (s := (s.note (.tue q)).retire q)
              (f := fun r => { r with etat := .zombie }) fun _ => rfl) pere
      | mourant hv' _ hqp _ _ =>
        rw [hv] at hv'
        rw [← Option.some.inj hv', hvp] at hqp
        cases hqp
    · cases hp
  · cases hp

theorem AppelVide.eveille {sid status : Int} {r : Suite} (ha : AppelVide s sid status r s')
    (hr : r = .retour 0) (hp : p ∈ s.elems (.semaphore sid)) : Eveille s s' p := by
  cases ha with
  | refus => cases hr
  | sdelete hs hrej hvide hn =>
    obtain ⟨hl, hf⟩ := rejets_eveille hrej hvide hp
    exact ⟨hl, hf⟩
  | sreset hs hrej hvide h0 hc =>
    obtain ⟨hl, hf⟩ := rejets_eveille hrej hvide hp
    exact ⟨hl, hf⟩

end

-- ---------------------------------------------------------------------------
-- Steps
-- ---------------------------------------------------------------------------

/-- A step that ends in user mode does not elect. -/
theorem of_termine_utilisateur {x : Suite} {s s' : Kernel}
    (h : termine x s = .ok (.utilisateur, s')) :
    (∀ k, x ≠ .ordonnanceur k) ∧ ∀ p, s.toCore.Presse p → s'.toCore.Presse p := by
  cases x with
  | retour v =>
    cases h
    exact ⟨nofun, fun p hp => hp⟩
  | iret =>
    cases h
    exact ⟨nofun, fun p hp => hp⟩
  | ordonnanceur k =>
    have hwp : wp (fun _ => True) (termine (.ordonnanceur k)) (fun mode _ => mode = .noyau) s := by
      simp only [termine, wp_bind, wp_pure]
      exact wp_of (fun _ _ _ => trivial) fun _ _ => trivial
    cases wp_ok hwp h

theorem presse_retour {c c' : Config} {e : Signal} {p : Ptr}
    (hwp : wp (fun _ => True) (segment c e)
      (fun x s' => (∀ k, x ≠ .ordonnanceur k) → s'.toCore.Presse p) c.s)
    (hpas : pas c e = .ok c') (hu : c'.mode = .utilisateur) : c'.s.toCore.Presse p := by
  obtain ⟨x, s', hs, ht⟩ := of_pas hpas
  rw [hu] at ht
  obtain ⟨hx, hpr⟩ := of_termine_utilisateur ht
  exact hpr p (wp_ok hwp hs hx)

/-- What is allowed to a step when only its wake-ups matter. -/
def large : Cadre := { fort := True, efface := fun _ => True, faute := fun _ => True }

theorem wp_large {α : Type} {m : M α} {Q : α → Kernel → Prop} {s : Kernel}
    (h : wp large.tolere m Q s) : wp (fun _ => True) m Q s :=
  wp_mono h (fun _ _ => trivial) fun _ _ hq => hq

theorem Segment.presse {s s' : Core} {x : Suite} {p : Ptr} (hs : Segment large x s s') (h : Stable s)
    (hx : ∀ k, x ≠ .ordonnanceur k) (hp : Eveille s s' p) (hf : s.fort p = true) :
    s'.Presse p := by
  cases hs with
  | retour hq he => exact hp.presse (h.calme hq).coherent hf
  | iret hq he => exact hp.presse (h.calme hq).coherent hf
  | ordonnanceur _ _ _ _ => exact absurd rfl (hx _)

theorem AppelClavier.presse {n : Nat} {x : Suite} {s s' : Core} {p : Ptr} (h : Stable s)
    (he : s.EnCours) (ha : AppelClavier n x s s') (hp : p ∈ s.reveillesEs n)
    (hf : s.fort p = true) (hx : ∀ k, x ≠ .ordonnanceur k) : s'.Presse p := by
  obtain ⟨hl, -, hf'⟩ := ha.eveille hx
  have hs : Segment large x s s' := ha.segment h he fun _ _ _ => trivial
  exact hs.presse h hx ⟨hl p hp, hf' p⟩ hf

/-- A process that a system call wakes without an election. -/
theorem presse_of_appel {c : Config} {r : Registres} (h : c.Valide)
    (hu : c.mode = .utilisateur) (hidle : c.s.procElu ≠ c.s.procIdle) {p : Ptr}
    (hr : p ∈ reveilles c (.int49 r)) (hf : c.s.toCore.fort p = true) :
    wp (fun _ => True) (traitantIT49Switch r)
      (fun x s' => (∀ k, x ≠ .ordonnanceur k) → s'.toCore.Presse p) c.s := by
  have hst := h.stable
  have he := h.utilisateur hu
  have hent := Config.entree_utilisateur hu
  rw [traitantIT49Switch]
  unfold reveilles at hr
  cases hsv : r.service with
  | none => simp [hsv] at hr
  | some sv =>
    simp only [hsv, hent] at hr
    cases sv <;> dsimp only at hr ⊢
    case kill =>
      refine wp_large (wp_kill hst he hidle _ (fun _ _ _ => trivial) ?_)
      intro x s' ha _
      exact ha.presse hst he hr hf
    case signal =>
      refine wp_large (wp_signal hst.coherent _ (.inr trivial) ?_)
      intro x s' ha hx
      have hs : Segment large x c.s.toCore s'.toCore := ha.segment hst he fun _ _ _ => trivial
      exact hs.presse hst hx (ha.eveille hr) hf
    case signaln =>
      refine wp_large (wp_signaln hst he _ _ (.inr trivial) ?_)
      intro x s' ha hx
      have hs : Segment large x c.s.toCore s'.toCore :=
        ha.segment hst he fun _ _ _ _ _ _ => trivial
      generalize s'.toCore = t at ha hs ⊢
      cases ha with
      | refus hs' => simp [hs'] at hr
      | plein hs' hmax => simp [hs', not_le.mpr hmax] at hr
      | signaux hs' hmax hsig =>
        simp only [hs', if_pos hmax] at hr
        exact hs.presse hst hx (hsig.eveille hr) hf
    case sdelete =>
      refine wp_large (wp_sdelete hst _ ?_)
      intro x s' ha _ hret hx
      have hs : Segment large x c.s.toCore s'.toCore :=
        ha.segment hst he (fun _ _ _ => trivial) fun _ _ => trivial
      obtain ⟨sem, hsem⟩ := hst.coherent.lieSem p _ (LinkedQueues.link_of_mem hr)
      refine hs.presse hst hx (ha.eveille (hret ?_) hr) hf
      rw [hsem]
      simp
    case sreset =>
      refine wp_large (wp_sreset hst _ _ ?_)
      intro x s' ha _ hret hx
      have hs : Segment large x c.s.toCore s'.toCore :=
        ha.segment hst he (fun _ _ _ => trivial) fun _ _ => trivial
      split at hr
      · cases hr
      · next hn =>
        obtain ⟨sem, hsem⟩ := hst.coherent.lieSem p _ (LinkedQueues.link_of_mem hr)
        refine hs.presse hst hx (ha.eveille (hret ?_) hr) hf
        rintro (hnone | hneg)
        · rw [hsem] at hnone
          cases hnone
        · exact hn hneg
    all_goals cases hr

/-- A process that a step wakes without an election is activable at its end. -/
theorem presse_of_reveilles {c c' : Config} {e : Signal} (h : c.Valide) (hp : possible c e = true)
    (hpas : pas c e = .ok c') (hu : c'.mode = .utilisateur) {p : Ptr} (hr : p ∈ reveilles c e)
    (hf : c.entree.fort p = true) : c'.s.toCore.Presse p := by
  obtain ⟨hst, he⟩ := h.entree
  refine presse_retour ?_ hpas hu
  cases e with
  | int49 r =>
    have hp' := hp
    simp only [possible, decide_eq_true_eq] at hp'
    rw [Config.entree_utilisateur hp'.1] at hf
    rw [segment, if_pos hp']
    exact presse_of_appel h hp'.1 hp'.2 hr hf
  | int33 str =>
    have hp' := hp
    simp only [possible, decide_eq_true_eq] at hp'
    rw [reveilles, Config.entree_utilisateur hp'] at hr
    rw [Config.entree_utilisateur hp'] at hst he hf
    rw [segment, if_pos hp']
    refine wp_large (wp_keyboardData str hst he ?_)
    intro x s' ha hx
    exact ha.presse hst he hr hf hx
  | suite =>
    have hp' := hp
    simp only [possible, decide_eq_true_eq] at hp'
    have hent := Config.entree_noyau hp'
    rw [segment, wp_bind]
    refine wp_large (wp_lire h.elu.vivant ?_)
    simp only [ecrire, wp_bind, wp_get, h.elu.vivant, if_true]
    rw [hent] at hst he hf
    simp only [reveilles, hent] at hr
    split at hr
    · next reste hctx =>
      rw [hctx]
      show wp (fun _ => True) (keyboardBoucle 0 reste) _
        { c.s with toCore := c.s.toCore.empile .iret }
      refine wp_large (wp_keyboardBoucle reste 0 hst he ?_)
      intro x s' ha hx
      exact ha.presse hst he hr hf hx
    · cases hr
  | int32 => cases hr
  | programme m => cases hr

/-- A step from a priority-correct configuration that returns to user mode. -/
theorem pas_prioCorrecte {c c' : Config} {e : Signal} (h : c.Valide) (hp : possible c e = true)
    (hpas : pas c e = .ok c') (hu : c'.mode = .utilisateur) (hprio : c.s.toCore.PrioCorrecte) :
    c'.s.toCore.PrioCorrecte ↔ ∀ p ∈ reveilles c e, c.entree.fort p = false := by
  constructor
  · intro hc' p hm
    refine Bool.eq_false_of_not_eq_true fun hf => ?_
    exact Core.prioCorrecte_iff.mp hc' p (presse_of_reveilles h hp hpas hu hm hf)
  · intro hfaible
    refine Core.PrioCorrecte.tour h.entree.1 ((pas_raffine h hp).1 c' hpas) fun _ => ⟨?_, ?_⟩
    · rintro ⟨p, hm, hf⟩
      rw [hfaible p hm] at hf
      cases hf
    · unfold Config.entree
      cases c.mode with
      | utilisateur => exact hprio
      | noyau => exact hprio.moins .maj

/-- A step that ends with an election. -/
theorem pas_election {c c' : Config} {e : Signal} (h : c.Valide) (hp : possible c e = true)
    (hpas : pas c e = .ok c') (hn : c'.mode = .noyau) : c'.s.toCore.PrioCorrecte := by
  refine Core.PrioCorrecte.tour h.entree.1 ((pas_raffine h hp).1 c' hpas) fun hu => ?_
  rw [hn] at hu
  cases hu

-- ---------------------------------------------------------------------------
-- From a signal to the next return to user mode
-- ---------------------------------------------------------------------------

/-- After the signal `e` in `c`, the kernel next returns to user mode in `c'`,
at the end of the step `f` from `d`: the step of `e` itself, or that of the
last process elected on the way. -/
inductive Retour : Config → Signal → Config → Signal → Config → Prop
  | direct {c c' : Config} {e : Signal} (hp : possible c e = true) (h : pas c e = .ok c')
      (hu : c'.mode = .utilisateur) : Retour c e c e c'
  | election {c c₁ d c' : Config} {e f : Signal} (hp : possible c e = true) (h : pas c e = .ok c₁)
      (hn : c₁.mode = .noyau) (hr : Retour c₁ .suite d f c') : Retour c e d f c'

namespace Retour

variable {c d c' : Config} {e f : Signal}

theorem prioCorrecte (hr : Retour c e d f c') (h : c.Valide) (hprio : c.s.toCore.PrioCorrecte) :
    c'.s.toCore.PrioCorrecte ↔ ∀ p ∈ reveilles d f, d.entree.fort p = false := by
  induction hr with
  | direct hp hpas hu => exact pas_prioCorrecte h hp hpas hu hprio
  | election hp hpas hn _ ih => exact ih (h.pas hp hpas) (pas_election h hp hpas hn)

theorem valide (hr : Retour c e d f c') (h : c.Valide) : c'.Valide := by
  induction hr with
  | direct hp hpas hu => exact h.pas hp hpas
  | election hp hpas hn _ ih => exact ih (h.pas hp hpas)

/-- The last step is the first one, or the continuation of an elected process. -/
theorem derniere (hr : Retour c e d f c') : (d = c ∧ f = e) ∨ f = .suite := by
  induction hr with
  | direct hp hpas hu => exact .inl ⟨rfl, rfl⟩
  | election hp hpas hn _ ih =>
    rcases ih with ⟨-, hf⟩ | hf
    · exact .inr hf
    · exact .inr hf

end Retour

/-- The calls of the process, message, clock and blocking primitives, and the
clock tick. -/
def Primitive : Signal → Prop
  | .int49 r => r.service ∈ [some .start, some .chprio, some .exit, some .waitpid, some .waitClock,
      some .psend, some .preceive, some .preset, some .pdelete, some .wait, some .consRead]
  | .int32 => True
  | _ => False

theorem Primitive.reveilles {e : Signal} (h : Primitive e) (c : Config) : reveilles c e = [] := by
  cases e with
  | int49 r =>
    unfold GenesisOS.reveilles
    unfold Primitive at h
    cases hsv : r.service with
    | none => simp [hsv] at h
    | some sv => cases sv <;> simp [hsv] at h ⊢
  | int32 => rfl
  | _ => exact h.elim

/-- The step resumes a `keyboard_data` that wakes a process of greater
priority than the one it runs in. -/
def ReprendClavier (d : Config) (f : Signal) : Prop :=
  f = .suite ∧ ∃ reste, (d.s.tas d.s.procElu).contexte = .keyboardData reste ∧
    ∃ p ∈ d.entree.reveillesEs (d.s.clavier.eveils 0 reste), d.entree.fort p = true

/-- From a priority-correct configuration, each primitive returns to user mode
in a priority-correct one, unless the kernel code that ends with this return
resumes a `keyboard_data` that wakes a process of greater priority. -/
theorem preemption_des_primitives {c d c' : Config} {e f : Signal} (h : Accessible c)
    (hprio : c.s.toCore.PrioCorrecte) (he : Primitive e) (hr : Retour c e d f c') :
    c'.s.toCore.PrioCorrecte ↔ ¬ ReprendClavier d f := by
  rw [hr.prioCorrecte h.valide hprio]
  constructor
  · rintro hfaible ⟨rfl, reste, hctx, p, hm, hf⟩
    rw [hfaible p (by simpa only [reveilles, hctx] using hm)] at hf
    cases hf
  · intro hno p hm
    rcases hr.derniere with ⟨rfl, rfl⟩ | rfl
    · rw [he.reveilles] at hm
      cases hm
    · refine Bool.eq_false_of_not_eq_true fun hf => hno ⟨rfl, ?_⟩
      simp only [reveilles] at hm
      split at hm
      · next reste hctx => exact ⟨reste, hctx, p, hm, hf⟩
      · cases hm

/-- The calls of `signal`, `signaln`, `sdelete` and `sreset`, the `kill` of
another process, and the keyboard interrupt. -/
def Asynchrone (c : Config) : Signal → Prop
  | .int49 r => r.service ∈ [some .signal, some .signaln, some .sdelete, some .sreset] ∨
      (r.service = some .kill ∧ c.s.tableDesProcs r.ebx.toInt ≠ some c.s.procElu)
  | .int33 _ => True
  | _ => False

/-- An asynchronous wake-up by a system call returns at once. -/
theorem Asynchrone.retour {c c' : Config} {r : Registres} (h : c.Valide)
    (he : Asynchrone c (.int49 r)) (hp : possible c (.int49 r) = true)
    (hpas : pas c (.int49 r) = .ok c') : c'.mode = .utilisateur := by
  have hst := h.stable
  have hp' := hp
  simp only [possible, decide_eq_true_eq] at hp'
  have henc := h.utilisateur hp'.1
  have hwp : wp (fun _ => True) (traitantIT49Switch r) (fun x _ => ∃ v, x = .retour v) c.s := by
    rw [traitantIT49Switch]
    rcases he with hsv | ⟨hsv, hne⟩
    · simp only [List.mem_cons, List.not_mem_nil, or_false] at hsv
      rcases hsv with hsv | hsv | hsv | hsv <;> rw [hsv]
      · refine wp_large (wp_signal hst.coherent _ (.inr trivial) ?_)
        intro x s' ha
        generalize s'.toCore = t at ha
        cases ha <;> exact ⟨_, rfl⟩
      · refine wp_large (wp_signaln hst henc _ _ (.inr trivial) ?_)
        intro x s' ha
        generalize s'.toCore = t at ha
        cases ha <;> exact ⟨_, rfl⟩
      · refine wp_large (wp_sdelete hst _ ?_)
        intro x s' ha _ _
        generalize s'.toCore = t at ha
        cases ha <;> exact ⟨_, rfl⟩
      · refine wp_large (wp_sreset hst _ _ ?_)
        intro x s' ha _ _
        generalize s'.toCore = t at ha
        cases ha <;> exact ⟨_, rfl⟩
    · rw [hsv]
      refine wp_large (wp_kill hst henc hp'.2 _ (fun _ _ _ => trivial) ?_)
      intro x s' ha
      generalize s'.toCore = t at ha
      cases ha with
      | suicide hx _ => exact absurd hx hne
      | refus _ _ => exact ⟨_, rfl⟩
      | zombie _ _ _ _ _ => exact ⟨_, rfl⟩
      | mourant _ _ _ _ _ => exact ⟨_, rfl⟩
  obtain ⟨x, s', ⟨v, rfl⟩, ht⟩ := of_pas_int49 hp hwp hpas
  exact (of_termine_retour ht).1

/-- From a priority-correct configuration, an asynchronous wake-up returns to
user mode in a priority-correct one if and only if the kernel code that ends
with this return wakes no process of greater priority than the one it runs in;
for a system call, this code is the call itself. -/
theorem preemption_des_reveils {c d c' : Config} {e f : Signal} (h : Accessible c)
    (hprio : c.s.toCore.PrioCorrecte) (he : Asynchrone c e) (hr : Retour c e d f c') :
    (∀ r, e = .int49 r → d = c ∧ f = e) ∧
      (c'.s.toCore.PrioCorrecte ↔ ∀ p ∈ reveilles d f, d.entree.fort p = false) := by
  refine ⟨?_, hr.prioCorrecte h.valide hprio⟩
  rintro r rfl
  cases hr with
  | direct hp hpas hu => exact ⟨rfl, rfl⟩
  | election hp hpas hn _ =>
    rw [he.retour h.valide hp hpas] at hn
    cases hn

-- ---------------------------------------------------------------------------
-- Runs on the machine
-- ---------------------------------------------------------------------------

/-- `PrioCorrecte`, tested on the table of processes. -/
def Core.prioCorrecte (s : Core) : Bool :=
  (List.range MAX_PROCESS.toNat).all fun i : Nat => (s.tableDesProcs i).all fun p =>
    decide ((s.tas p).etat ≠ .activable) || decide ((s.tas p).prio ≤ (s.tas s.procElu).prio)

theorem Coherent.prioCorrecte_iff {s : Core} (h : Coherent s) :
    s.prioCorrecte = true ↔ s.PrioCorrecte := by
  simp only [Core.prioCorrecte, List.all_eq_true, Option.all_eq_true, Bool.or_eq_true,
    decide_eq_true_eq]
  constructor
  · intro ht p hv ha
    obtain ⟨h0, hN⟩ := h.pid p hv
    have hi : ((s.tas p).pid.toNat : Int) = (s.tas p).pid := Int.toNat_of_nonneg h0
    rcases ht (s.tas p).pid.toNat (List.mem_range.mpr (by omega)) p
      (by rw [hi]; exact h.inscrit p hv) with hne | hle
    · exact absurd ha hne
    · exact hle
  · intro hprio i _ p hp
    by_cases ha : (s.tas p).etat = .activable
    · exact .inr (hprio p (h.table i p hp).1 ha)
    · exact .inl ha

theorem of_execute_un {c c' : Config} {e : Signal} (h : execute c [e] = some c') :
    possible c e = true ∧ pas c e = .ok c' := by
  obtain ⟨hp, c₁, h₁, hl⟩ := execute_cons.mp h
  cases hl
  exact ⟨hp, h₁⟩

/-- The step of `e` returns to user mode in a configuration that satisfies `Q`. -/
def retourUn (Q : Config → Bool) (c : Config) (e : Signal) : Bool :=
  (execute c [e]).any fun c' : Config => decide (c'.mode = .utilisateur) && Q c'

/-- The step of `e` elects, and the process elected in `d` returns to user mode
in `c'`, with `Q d c'`. -/
def retourDeux (Q : Config → Config → Bool) (c : Config) (e : Signal) : Bool :=
  (execute c [e]).any fun d : Config => decide (d.mode = .noyau) && retourUn (Q d) d .suite

theorem Retour.un {c : Config} {e : Signal} {Q : Config → Bool} (h : retourUn Q c e = true) :
    ∃ c', Retour c e c e c' ∧ Q c' = true := by
  obtain ⟨c', hc', hQ⟩ := (Option.any_eq_true _ _).mp h
  rw [Bool.and_eq_true, decide_eq_true_eq] at hQ
  obtain ⟨hp, hpas⟩ := of_execute_un hc'
  exact ⟨c', .direct hp hpas hQ.1, hQ.2⟩

theorem Retour.deux {c : Config} {e : Signal} {Q : Config → Config → Bool}
    (h : retourDeux Q c e = true) : ∃ d c', Retour c e d .suite c' ∧ Q d c' = true := by
  obtain ⟨d, hd, hQ⟩ := (Option.any_eq_true _ _).mp h
  rw [Bool.and_eq_true, decide_eq_true_eq] at hQ
  obtain ⟨hp, hpas⟩ := of_execute_un hd
  obtain ⟨c', hr, hQ'⟩ := Retour.un hQ.2
  exact ⟨d, c', .election hp hpas hQ.1 hr, hQ'⟩

/-- The string of F6 is typed: a process of priority 2 is interrupted in `keyboard_data`
with its last character left, then another one starts a reader of priority 3. -/
def clavierInterrompu : List Signal :=
  [.suite, appel 2 0x1000000 0 2 0, .suite, appel 2 0x1000000 0 2 0, appel 16 1 0 0 0, .suite,
   appel 16 1 0 0 0, .suite, appel 19 0x1000000 10 0 0, .suite, .int32, .suite,
   .int33 [27, 91, 49, 55, 126], .suite, appel 2 0x1000000 0 3 0, .suite]

/-- The reader blocks, and is woken as `keyboard_data` goes on. -/
theorem preemption_des_primitives_faux : ∃ c d c' e f, Accessible c ∧ c.s.toCore.PrioCorrecte ∧
    Primitive e ∧ Retour c e d f c' ∧ ¬ c'.s.toCore.PrioCorrecte := by
  obtain ⟨c, hc, h⟩ := Accessible.scenario (l := clavierInterrompu)
    (Q := fun c => c.s.toCore.prioCorrecte &&
      retourDeux (fun _ c' => !c'.s.toCore.prioCorrecte) c (appel 19 0x1000000 10 0 0))
    (by decide +kernel)
  rw [Bool.and_eq_true] at h
  obtain ⟨d, c', hr, hQ⟩ := Retour.deux h.2
  refine ⟨c, d, c', _, _, hc, hc.valide.stable.coherent.prioCorrecte_iff.mp h.1, ?_, hr, ?_⟩
  · simp [Primitive, appel, Registres.service, services]
  · intro hprio
    rw [(hr.valide hc.valide).stable.coherent.prioCorrecte_iff.mpr hprio] at hQ
    cases hQ

/-- The user process starts a child of priority 2, which returns to user mode
before its father. -/
theorem preemption_des_primitives_exemple : ∃ c d c', Accessible c ∧
    Retour c (appel 2 0x1000000 0 2 0) d .suite c' ∧ c'.s.toCore.PrioCorrecte := by
  obtain ⟨c, hc, h⟩ := Accessible.scenario (l := [.suite])
    (Q := fun c => c.s.toCore.prioCorrecte &&
      retourDeux (fun d _ => decide ((d.s.tas d.s.procElu).contexte = .debut)) c
        (appel 2 0x1000000 0 2 0)) (by decide +kernel)
  rw [Bool.and_eq_true] at h
  obtain ⟨d, c', hr, hQ⟩ := Retour.deux h.2
  refine ⟨c, d, c', hc, hr, ?_⟩
  refine (preemption_des_primitives hc (hc.valide.stable.coherent.prioCorrecte_iff.mp h.1) ?_ hr).mpr ?_
  · simp [Primitive, appel, Registres.service, services]
  · rintro ⟨-, reste, hctx, -⟩
    rw [of_decide_eq_true hQ] at hctx
    cases hctx

/-- The user process creates a semaphore and starts a child of priority 2,
which waits on it. -/
def attenteFort : List Signal :=
  [.suite, appel 24 0 0 0 0, appel 2 0x1000000 0 2 0, .suite, appel 30 9 0 0 0, .suite]

/-- The father signals. -/
theorem preemption_des_reveils_faux : ∃ c d c' e f, Accessible c ∧ c.s.toCore.PrioCorrecte ∧
    Asynchrone c e ∧ Retour c e d f c' ∧ ¬ c'.s.toCore.PrioCorrecte := by
  obtain ⟨c, hc, h⟩ := Accessible.scenario (l := attenteFort)
    (Q := fun c => c.s.toCore.prioCorrecte &&
      retourUn (fun c' => !c'.s.toCore.prioCorrecte) c (appel 27 9 0 0 0)) (by decide +kernel)
  rw [Bool.and_eq_true] at h
  obtain ⟨c', hr, hQ⟩ := Retour.un h.2
  refine ⟨c, c, c', _, _, hc, hc.valide.stable.coherent.prioCorrecte_iff.mp h.1, ?_, hr, ?_⟩
  · simp [Asynchrone, appel, Registres.service, services]
  · intro hprio
    rw [(hr.valide hc.valide).stable.coherent.prioCorrecte_iff.mpr hprio] at hQ
    cases hQ

/-- The father starts a child of priority 3, which signals. -/
theorem preemption_des_reveils_exemple : ∃ c c' p, Accessible c ∧
    p ∈ reveilles c (appel 27 9 0 0 0) ∧
    Retour c (appel 27 9 0 0 0) c (appel 27 9 0 0 0) c' ∧ c'.s.toCore.PrioCorrecte := by
  obtain ⟨c, hc, h⟩ := Accessible.scenario
    (l := attenteFort ++ [appel 2 0x1000000 0 3 0, .suite])
    (Q := fun c => c.s.toCore.prioCorrecte && (reveilles c (appel 27 9 0 0 0)).length = 1 &&
      (reveilles c (appel 27 9 0 0 0)).all (fun p => !c.entree.fort p) &&
      retourUn (fun _ => true) c (appel 27 9 0 0 0)) (by decide +kernel)
  simp only [Bool.and_eq_true, decide_eq_true_eq] at h
  obtain ⟨⟨⟨hprio, hlen⟩, hall⟩, h⟩ := h
  obtain ⟨c', hr, -⟩ := Retour.un h
  obtain ⟨p, hp⟩ := List.length_eq_one_iff.mp hlen
  have hfaible : ∀ p ∈ reveilles c (appel 27 9 0 0 0), c.entree.fort p = false := by
    simpa [List.all_eq_true] using hall
  refine ⟨c, c', p, hc, by rw [hp]; exact List.mem_singleton.mpr rfl, hr, ?_⟩
  refine (preemption_des_reveils hc (hc.valide.stable.coherent.prioCorrecte_iff.mp hprio) ?_
    hr).2.mpr hfaible
  simp [Asynchrone, appel, Registres.service, services]

end GenesisOS
