import GenesisOS.Refinement.Frames
import GenesisOS.Refinement.Input

/-!
# GenesisOS — a step of the machine refines a step of the model

`pas_raffine`: from a configuration that satisfies the invariant, a step ends
with the effect of a `Tour`, or stops at a fault that does not depend on the
kernel variables. The step's `cadre` says what else it can do: which process
it may kill, which processes it wakes without an election, and the three
faults that the kernel variables do not exclude.
-/

namespace GenesisOS

open Lib

/-! ## What a step may do -/

/-- The signal is a call of the service `sv` with the registers `r`. -/
def Signal.Appelle (e : Signal) (sv : Service) (r : Registres) : Prop :=
  e = .int49 r ∧ r.service = some sv

/-- The father that `kill` wakes. -/
def Core.pereReveille (s : Core) (pid : Int) : List Ptr :=
  match (s.victime pid).bind fun p => (s.tas p).pere with
  | some pere => if (s.tas pere).etat = .attendFils then [pere] else []
  | none => []

/-- The processes that a step wakes without deciding on an election, when it
returns to user mode. -/
def reveilles (c : Config) : Signal → List Ptr
  | .int49 r =>
    match r.service with
    | some .kill => c.entree.pereReveille r.ebx.toInt
    | some .signal => c.entree.reveillesSignal r.ebx.toInt 1
    | some .signaln =>
      match c.s.tableauSem r.ebx.toInt with
      | some sem =>
        if sem.count ≤ SHORTINT_MAX - versShort r.ecx.toInt then
          c.entree.reveillesSignal r.ebx.toInt (versShort r.ecx.toInt).toNat
        else []
      | none => []
    | some .sdelete => c.s.elems (.semaphore r.ebx.toInt)
    | some .sreset =>
      if versShort r.ecx.toInt < 0 then [] else c.s.elems (.semaphore r.ebx.toInt)
    | _ => []
  | .int33 str => c.entree.reveillesEs (c.s.clavier.eveils 0 (str.takeWhile (· ≠ 0)))
  | .suite =>
    match (c.s.tas c.s.procElu).contexte with
    | .keyboardData reste => c.entree.reveillesEs (c.s.clavier.eveils 0 reste)
    | _ => []
  | _ => []

/-- Whether the journal may gain events of the elected process. -/
def Trace (c : Config) (e : Signal) : Prop :=
  (∃ r sv, e.Appelle sv r ∧
    sv ∈ [.pcount, .psend, .preceive, .clockSettings, .waitpid, .tryWait, .wait]) ∨
    (e = .suite ∧ ((∃ m, (c.s.tas c.s.procElu).contexte = .preceive m) ∨
      (∃ pid p r, (c.s.tas c.s.procElu).contexte = .waitpid pid p r) ∨
        ∃ pid r, (c.s.tas c.s.procElu).contexte = .waitpidFils pid r))

/-- The step empties the message file at `a`, by `preset` or `pdelete`. -/
def VideFile (c : Config) (e : Signal) (a : Ptr) : Prop :=
  ∃ r f, (e.Appelle .preset r ∨ e.Appelle .pdelete r) ∧ c.s.tableauFile r.ebx.toInt = some f ∧
    f.adr = a

/-- The step empties the semaphore at `a`, by `sreset` or `sdelete`. -/
def VideSem (c : Config) (e : Signal) (a : Ptr) : Prop :=
  ∃ r sem, (e.Appelle .sreset r ∨ e.Appelle .sdelete r) ∧
    c.s.tableauSem r.ebx.toInt = some sem ∧ sem.adr = a

/-- The step calls `chprio` on the process with the priority `n`. -/
def ChangePrio (c : Config) (e : Signal) (p : Ptr) (n : Int) : Prop :=
  ∃ r, e.Appelle .chprio r ∧ c.s.tableDesProcs r.ebx.toInt = some p ∧ r.ecx.toInt = n

/-- The step calls `ordonnanceur`, which frees the process that called it. -/
def Perd (c : Config) (e : Signal) : Prop :=
  ∃ k s₂ s₃, segment c e c.s = .ok (.ordonnanceur k, s₂) ∧
    Relation.ReflTransGen Liberation (s₂.toCore.empile k) s₃ ∧ s₃.vivant s₃.procElu = false

/-- What the step from `c` may do. -/
def cadre (c : Config) (e : Signal) : Cadre where
  fort := ∃ p ∈ reveilles c e, c.entree.fort p = true
  victime t := ∃ r p, e.Appelle .kill r ∧ c.entree.victime r.ebx.toInt = some p ∧
    c.entree.lien p = some t
  trace := Trace c e
  efface
    | .file a => VideFile c e a
    | .sem a => VideSem c e a
  prio p n := ChangePrio c e p n
  reveil p := e = .int32 ∧ (c.s.tas p).secReveille ≤ (c.s.ticks + 1) % 2 ^ 32
  meurt m s := s = c.entree ∧ match m with
    | .cede => False
    | .exit => ∃ r, e.Appelle .exit r
    | .suicide => ∃ r, e.Appelle .kill r ∧ c.s.tableDesProcs r.ebx.toInt = some c.s.procElu
  faute
    | .assertion .queueDel => ∃ r p, e.Appelle .kill r ∧ c.entree.victime r.ebx.toInt = some p ∧
        (c.entree.tas p).etat = .attendFils
    | .accesNul .signal => (∃ r, e.Appelle .signal r ∨ e.Appelle .signaln r) ∧ ¬ c.entree.Compte
    | .accesLibere .checkCanary => Perd c e
    | _ => False

section

variable {C : Cadre} {s : Kernel}

-- ---------------------------------------------------------------------------
-- Clock interrupt
-- ---------------------------------------------------------------------------

theorem ticPITFin_segment {s₀ : Core} (h : Calme C.admetRetour s₀ s.toCore)
    (he : s.toCore.EnCours) :
    wp C.tolere ticPITFin (fun r s' => Segment C r s₀ s'.toCore) s := by
  simp only [ticPITFin, wp_bind, wp_get]
  split
  · exact .ordonnanceur (h.mono fun l hl => hl.1) he (.suspend rfl) (fun hx => absurd rfl hx)
  · exact .iret h he

theorem compteTic_toCore (s : Kernel) : (compteTic s).1.toCore = s.toCore := by
  unfold compteTic
  dsimp only
  split <;> [(split <;> split <;> rfl); rfl]

theorem ticPIT_raffine (h : Stable s.toCore) (he : s.toCore.EnCours)
    (hC : ∀ p, (s.tas p).secReveille ≤ (s.ticks + 1) % 2 ^ 32 → C.reveil p) :
    Raffine C ticPIT s := by
  have hcore := compteTic_toCore s
  have hst : Stable (compteTic s).1.toCore := by rw [hcore]; exact h
  have hec : (compteTic s).1.toCore.EnCours := by rw [hcore]; exact he
  unfold Raffine
  simp only [ticPIT, wp_bind, wp_get, wp_set]
  rw [← hcore]
  -- waking the sleepers, from the state in which the time is displayed or not
  have reveil : ∀ s₁ : Kernel, s₁.toCore = (compteTic s).1.toCore →
      wp C.tolere (verifieReveille (compteTic s).1.ticks >>= fun b =>
        if b = true then pure (.ordonnanceur .ticPIT) else ticPITFin)
        (fun r s' => Segment C r (compteTic s).1.toCore s'.toCore) s₁ := by
    intro s₁ h₁
    rw [wp_bind]
    refine wp_verifieReveille (by rw [h₁]; exact hst) (by rw [h₁]; exact hec) ?_
    intro b s₂ hq
    have hR : ∀ p, ((compteTic s).1.tas p).secReveille ≤ (compteTic s).1.ticks → C.reveil p := by
      intro p hp
      rw [hcore, compteTic_ticks] at hp
      exact hC p hp
    rw [h₁] at hq
    have he₂ := hst.enCours_calme hec hq
    cases b with
    | true =>
      refine .ordonnanceur (hq.mono fun l hl => ?_) he₂ (.suspend rfl) (fun hx => absurd rfl hx)
      exact hl.admet hR
    | false =>
      refine ticPITFin_segment (hq.mono fun l hl => ?_) he₂
      refine ⟨hl.admet hR, ?_⟩
      intro hf
      exact absurd (hl.2.2.1 hf) (by decide)
  split
  · simp only [wp_bind]
    refine inerte_ecritTemps _ _ C _ _ ?_
    intro _ s₁ h₁
    simpa only [wp_bind] using reveil s₁ h₁
  · simpa only [wp_bind] using reveil _ rfl

-- ---------------------------------------------------------------------------
-- Services without effect on scheduling
-- ---------------------------------------------------------------------------

theorem sansValeur_inerte {m : M Unit} (he : s.toCore.EnCours) (hm : Inerte m) :
    Raffine C (sansValeur m) s := by
  unfold Raffine
  rw [sansValeur, wp_bind]
  refine hm C _ s ?_
  intro _ s₁ h₁
  rw [wp_pure, h₁]
  exact .rien he

theorem clockSettings_raffine (h : Stable s.toCore) (he : s.toCore.EnCours) (hC : C.trace)
    (quartz ticks : Nat) : Raffine C (sansValeur (clockSettings quartz ticks)) s := by
  unfold Raffine
  simp only [sansValeur, clockSettings, wp_bind]
  refine wp_ecrit ?_
  intro s₁ h₁
  refine wp_ecrit ?_
  intro s₂ h₂
  have q₁ : Quiet { trace := true } s.toCore s₁.toCore := by
    rw [h₁]
    exact .ecriture _ _
  have q₂ : Quiet { trace := true } s₁.toCore s₂.toCore := by
    rw [h₂]
    exact .ecriture _ _
  have he₁ := h.enCours_quiet he q₁
  have hadm : C.admetRetour { trace := true } := Cadre.admetRetour_trace hC
  exact .retour ((Calme.un he q₁ hadm).puis he₁ q₂ hadm) ((h.quiet he q₁).enCours_quiet he₁ q₂)

/-- From the scheduling state `s₀`, the code `m` does not touch it. -/
def InerteEn (s₀ : Core) {α : Type} (m : M α) : Prop :=
  ∀ (C : Cadre) (s : Kernel), s.toCore = s₀ → wp C.tolere m (fun _ s' => s'.toCore = s₀) s

namespace InerteEn

variable {s₀ : Core} {α β : Type} {m : M α} {k : α → M β}

theorem of_inerte (hm : Inerte m) : InerteEn s₀ m := by
  intro C s hs
  exact hm C _ s fun _ s' hs' => hs'.trans hs

theorem of_bind (hm : InerteEn s₀ m) (hk : ∀ a, InerteEn s₀ (k a)) : InerteEn s₀ (m >>= k) := by
  intro C s hs
  rw [wp_bind]
  exact wp_imp (hm C s hs) fun a s' hs' => hk a C s' hs'

theorem puis {m : M Unit} {k : Unit → M β} (hm : Inerte m) (hk : InerteEn s₀ (k ())) :
    InerteEn s₀ (m >>= k) := .of_bind (.of_inerte hm) fun _ => hk

theorem of_lire {l : Lieu} {p : Ptr} {k : Processus → M β} (hv : s₀.vivant p = true)
    (hk : InerteEn s₀ (k (s₀.tas p))) : InerteEn s₀ (lire l p >>= k) := by
  intro C s hs
  rw [wp_bind]
  subst hs
  exact wp_lire hv (hk C s rfl)

theorem of_forM {γ : Type} {l : List γ} {f : γ → M Unit} (hf : ∀ x, InerteEn s₀ (f x)) :
    InerteEn s₀ (l.forM f) := by
  induction l with
  | nil => exact .of_inerte (.of_pure _)
  | cons x l ih => exact .of_bind (hf x) fun _ => ih

end InerteEn

theorem inerteEn_afficheProcess {s₀ : Core} (h : Stable s₀) (i : Int) :
    InerteEn s₀ (afficheProcess i) := by
  have hc := h.coherent
  intro C s hs
  rw [afficheProcess, wp_bind, wp_get]
  rw [show s.tableDesProcs = s₀.tableDesProcs by rw [hs]]
  cases hp : s₀.tableDesProcs i with
  | none => exact hs
  | some p =>
    obtain ⟨hv, -⟩ := hc.table i p hp
    refine InerteEn.of_lire hv ?_ C s hs
    refine .puis (inerte_printf _) ?_
    refine .puis (inerte_surConsole _) ?_
    refine .puis (inerte_printf _) ?_
    refine .puis (inerte_surConsole _) ?_
    refine .puis (inerte_printf _) ?_
    refine .puis (inerte_surConsole _) ?_
    refine .puis (inerte_printf _) ?_
    refine .puis (inerte_surConsole _) ?_
    refine .puis (inerte_printf _) ?_
    cases hpere : (s₀.tas p).pere with
    | none => exact .of_inerte (inerte_printf _)
    | some pere =>
      -- a process that shows a father is not dying, and its father is there
      have hm : (s₀.tas p).etat ≠ .mourant := by
        intro hm
        rw [h.orphelins p hv hm] at hpere
        cases hpere
      refine .of_lire (hc.pere p pere hv hm hpere).1 ?_
      refine .puis (inerte_printf _) ?_
      refine .puis (inerte_surConsole _) ?_
      refine .puis (inerte_printf _) ?_
      refine .puis (inerte_surConsole _) ?_
      refine .puis (inerte_printf _) ?_
      refine .puis (inerte_surConsole _) ?_
      refine .puis (inerte_printf _) ?_
      refine .puis (inerte_surConsole _) ?_
      refine .puis (inerte_printf _) ?_
      exact .of_inerte (inerte_printf _)

theorem afficheTableProcess_raffine (h : Stable s.toCore) (he : s.toCore.EnCours) :
    Raffine C (sansValeur afficheTableProcess) s := by
  unfold Raffine
  rw [sansValeur, wp_bind]
  refine wp_imp (InerteEn.of_forM (fun i : Nat => inerteEn_afficheProcess h i) C s rfl) ?_
  intro _ s₁ h₁
  rw [wp_pure, h₁]
  exact .rien he

end

-- ---------------------------------------------------------------------------
-- System calls
-- ---------------------------------------------------------------------------

theorem Config.entree_utilisateur {c : Config} (h : c.mode = .utilisateur) :
    c.entree = c.s.toCore := by rw [Config.entree, h]

theorem Config.entree_noyau {c : Config} (h : c.mode = .noyau) :
    c.entree = c.s.toCore.empile .iret := by rw [Config.entree, h]

theorem Registres.appelle {r : Registres} {sv : Service} (h : r.service = some sv) :
    (Signal.int49 r).Appelle sv r := ⟨rfl, h⟩

/-- A service is called with the registers of its signal only. -/
theorem Signal.Appelle.inj {r r' : Registres} {sv sv' : Service} (h : r.service = some sv)
    (h' : (Signal.int49 r).Appelle sv' r') : r' = r ∧ sv' = sv := by
  obtain ⟨hr, hs⟩ := h'
  cases hr
  rw [h] at hs
  exact ⟨rfl, (Option.some.inj hs).symm⟩

section

variable {c : Config} {r : Registres}

theorem trace_appel {sv : Service} (h : r.service = some sv)
    (hsv : sv ∈ [.pcount, .psend, .preceive, .clockSettings, .waitpid, .tryWait, .wait]) :
    (cadre c (.int49 r)).trace := .inl ⟨r, sv, Registres.appelle h, hsv⟩

theorem not_meurt {sv : Service} (h : r.service = some sv) (hexit : sv ≠ .exit) (hkill : sv ≠ .kill)
    (m : Motif) (s : Core) : ¬ (cadre c (.int49 r)).meurt m s := by
  rintro ⟨-, hm⟩
  cases m with
  | cede => exact hm
  | exit =>
    obtain ⟨r', hr'⟩ := hm
    exact hexit (Signal.Appelle.inj h hr').2.symm
  | suicide =>
    obtain ⟨r', hr', -⟩ := hm
    exact hkill (Signal.Appelle.inj h hr').2.symm

theorem kill_segment (h : c.Valide) (hu : c.mode = .utilisateur) (hidle : c.s.procElu ≠ c.s.procIdle)
    (hsv : r.service = some .kill) :
    Raffine (cadre c (.int49 r)) (kill r.ebx.toInt) c.s := by
  have he := h.utilisateur hu
  have hent := Config.entree_utilisateur hu
  have happ := Registres.appelle hsv
  refine wp_kill h.stable he hidle _ ?_ ?_
  · intro p hp hf
    rw [← hent] at hp
    exact ⟨r, p, happ, hp, by rw [hent]; exact hf⟩
  · intro x s' ha
    refine ha.segment h.stable he ?_ ?_ ?_
    · exact fun hp => ⟨hent.symm, r, happ, hp⟩
    · intro p t hp ht
      rw [← hent] at hp ht
      exact ⟨r, p, happ, hp, ht⟩
    · intro p pere hp hpere hf hfort
      refine ⟨pere, ?_, by rw [hent]; exact hfort⟩
      simp [reveilles, hsv, Core.pereReveille, hent, hp, hpere, hf]

theorem signal_segment (h : c.Valide) (hu : c.mode = .utilisateur)
    (hsv : r.service = some .signal) :
    Raffine (cadre c (.int49 r)) (signal r.ebx.toInt) c.s := by
  have he := h.utilisateur hu
  have hent := Config.entree_utilisateur hu
  refine wp_signal h.stable.coherent _ ?_ ?_
  · by_cases hc : c.s.toCore.Compte
    · exact .inl (hc.servi _)
    · exact .inr ⟨⟨r, .inl (Registres.appelle hsv)⟩, by rwa [hent]⟩
  · intro x s' ha
    refine ha.segment h.stable he ?_
    intro p hp hf
    refine ⟨p, ?_, by rw [hent]; exact hf⟩
    simpa [reveilles, hsv, hent] using hp

theorem signaln_segment (h : c.Valide) (hu : c.mode = .utilisateur)
    (hsv : r.service = some .signaln) :
    Raffine (cadre c (.int49 r)) (signaln r.ebx.toInt r.ecx.toInt) c.s := by
  have he := h.utilisateur hu
  have hent := Config.entree_utilisateur hu
  refine wp_signaln h.stable he _ _ ?_ ?_
  · by_cases hc : c.s.toCore.Compte
    · exact .inl hc
    · exact .inr ⟨⟨r, .inr (Registres.appelle hsv)⟩, by rwa [hent]⟩
  · intro x s' ha
    refine ha.segment h.stable he ?_
    intro sem hs hmax p hp hf
    refine ⟨p, ?_, by rw [hent]; exact hf⟩
    simp only [reveilles, hsv, hs, if_pos hmax, hent]
    exact hp

theorem sdelete_segment (h : c.Valide) (hu : c.mode = .utilisateur)
    (hsv : r.service = some .sdelete) :
    Raffine (cadre c (.int49 r)) (sdelete r.ebx.toInt) c.s := by
  refine wp_sdelete h.stable _ ?_
  intro x s' ha _ _
  refine ha.segment h.stable (h.utilisateur hu) ?_ ?_
  · intro p hp hf
    refine ⟨p, ?_, by rw [Config.entree_utilisateur hu]; exact hf⟩
    simp only [reveilles, hsv]
    exact hp
  · intro sem hs
    exact ⟨r, sem, .inr (Registres.appelle hsv), hs, rfl⟩

theorem sreset_segment (h : c.Valide) (hu : c.mode = .utilisateur)
    (hsv : r.service = some .sreset) :
    Raffine (cadre c (.int49 r)) (sreset r.ebx.toInt r.ecx.toInt) c.s := by
  have he := h.utilisateur hu
  refine wp_sreset h.stable _ _ ?_
  intro x s' ha hrefus _
  by_cases hn : versShort r.ecx.toInt < 0
  · have hx := hrefus (.inr hn)
    subst hx
    generalize s'.toCore = t at ha ⊢
    cases ha
    exact .rien he
  · refine ha.segment h.stable he ?_ ?_
    · intro p hp hf
      refine ⟨p, ?_, by rw [Config.entree_utilisateur hu]; exact hf⟩
      simp only [reveilles, hsv, if_neg hn]
      exact hp
    · intro sem hs
      exact ⟨r, sem, .inl (Registres.appelle hsv), hs, rfl⟩

/-- A call refused because of its pointer arguments. -/
theorem raffine_garde {C : Cadre} {s : Kernel} {b : Bool} {m : M Suite} (he : s.toCore.EnCours)
    (hm : Raffine C m s) : Raffine C (if b then pure (.retour (-1)) else m) s := by
  cases b with
  | true => exact .rien he
  | false => exact hm

/-- A system call. -/
theorem traitant_raffine (h : c.Valide) (hu : c.mode = .utilisateur)
    (hidle : c.s.procElu ≠ c.s.procIdle) :
    Raffine (cadre c (.int49 r)) (traitantIT49Switch r) c.s := by
  have hst := h.stable
  have he := h.utilisateur hu
  unfold traitantIT49Switch
  cases hsv : r.service with
  | none => exact .rien he
  | some sv =>
    cases sv <;> dsimp only
    case getpid => exact getpid_raffine he
    case consPutbytes =>
      exact raffine_garde he (sansValeur_inerte he (inerte_consWrite _ _))
    case start => exact raffine_garde he (start_raffine hst he _ _ _ _)
    case exit =>
      have hm : (cadre c (.int49 r)).meurt .exit c.s.toCore :=
        ⟨(Config.entree_utilisateur hu).symm, r, Registres.appelle hsv⟩
      exact exit_raffine hst he hidle hm _
    case kill => exact kill_segment h hu hidle hsv
    case ps => exact afficheTableProcess_raffine hst he
    case getprio => exact getprio_raffine hst he _
    case chprio =>
      exact chprio_raffine hst he hidle _ _ fun p hp => ⟨r, Registres.appelle hsv, hp, rfl⟩
    case pcount => exact raffine_garde he (pcount_raffine hst he (trace_appel hsv (by decide)) _ _)
    case pcreate => exact pcreate_raffine hst he _
    case pdelete =>
      refine wp_pdelete hst he _ ?_
      intro x s' ha
      exact ha.segment hst he fun f hf => ⟨r, f, .inr (Registres.appelle hsv), hf, rfl⟩
    case preceive =>
      refine raffine_garde he (wp_preceive hst he _ _ ?_)
      intro x s' ha
      exact ha.segment hst he hidle (trace_appel hsv (by decide))
    case preset =>
      refine wp_preset hst he _ ?_
      intro x s' ha
      exact ha.segment hst he fun f hf => ⟨r, f, .inl (Registres.appelle hsv), hf, rfl⟩
    case psend =>
      refine wp_psend hst he _ _ ?_
      intro x s' ha
      exact ha.segment hst he hidle (trace_appel hsv (by decide))
    case clockSettings =>
      exact raffine_garde he (clockSettings_raffine hst he (trace_appel hsv (by decide)) _ _)
    case currentClock => exact .rien he
    case waitClock => exact waitClock_raffine hst he hidle _
    case waitpid =>
      refine raffine_garde he (wp_waitpid hst he _ _ ?_)
      intro x s' ha
      exact ha.segment hst he hidle (trace_appel hsv (by decide))
        (not_meurt hsv (by decide) (by decide))
    case consEcho => exact sansValeur_inerte he (inerte_surConsole _)
    case consRead => exact raffine_garde he (consRead_raffine hst he hidle _ _)
    case consWrite =>
      exact raffine_garde he (sansValeur_inerte he (inerte_consWrite _ _))
    case exitKernel => exact .inl rfl
    case setColor => exact sansValeur_inerte he (inerte_surConsole _)
    case scount => exact scount_raffine hst he _
    case screate => exact screate_raffine hst he _
    case sdelete => exact sdelete_segment h hu hsv
    case sreset => exact sreset_segment h hu hsv
    case signal => exact signal_segment h hu hsv
    case signaln => exact signaln_segment h hu hsv
    case tryWait =>
      refine wp_tryWait hst.coherent _ ?_
      intro v s' ha
      exact ha.segment hst he hidle (trace_appel hsv (by decide))
    case wait =>
      refine wp_wait hst he _ ?_
      intro x s' ha
      exact ha.segment hst he hidle (trace_appel hsv (by decide))
    case playSound => exact .rien he
    case consSwitchEcho => exact sansValeur_inerte he (inerte_surConsole _)
    case setIdStart => exact sansValeur_inerte he (inerte_surConsole _)
    case echoHist => exact sansValeur_inerte he inerte_afficherHistorique

end

-- ---------------------------------------------------------------------------
-- Continuing a suspended call
-- ---------------------------------------------------------------------------

/-- The code that follows the return point of the process just elected. -/
theorem reprend_raffine {c : Config} {s : Kernel} (h : c.Valide) (hn : c.mode = .noyau)
    (hs : s.toCore = c.entree) (hcl : s.clavier = c.s.clavier) :
    Raffine (cadre c .suite) (reprend (c.s.tas c.s.procElu).contexte) s := by
  obtain ⟨hst, he⟩ := h.entree
  have hent := Config.entree_noyau hn
  have hsus := h.stable.coherent.suspendu _ h.elu.vivant
  have hmort : ¬ c.s.toCore.Mort c.s.procElu := by
    rintro (hm | hm) <;> rw [h.elu.etat] at hm <;> cases hm
  have hidle : (c.s.tas c.s.procElu).contexte.volontaire = false → c.s.procElu ≠ c.s.procIdle := by
    intro hv hi
    have hc := h.stable.coherent.idleContexte
    rw [← hi, hv] at hc
    cases hc
  rw [← hs] at hst he
  have helu : s.procElu = c.s.procElu := by rw [hs, hent]; rfl
  have hpi : s.procIdle = c.s.procIdle := by rw [hs, hent]; rfl
  have hfils : s.toCore.fils s.procElu = c.s.toCore.fils c.s.procElu := by
    rw [hs, hent, Core.fils, Core.fils]
    simp [Core.empile]
  have hC : Trace c .suite → (cadre c .suite).trace := id
  unfold Raffine
  cases hctx : (c.s.tas c.s.procElu).contexte <;> rw [hctx] at hidle <;> simp only [reprend]
  case debut => exact .iret .refl he
  case retour => exact .rien he
  case iret => exact .iret .refl he
  case exitFin => exact absurd (hsus.exit hctx) hmort
  case psend => exact wp_psendReprise he (.rien he)
  case preceive m =>
    refine wp_preceiveReprise he m (fun _ => .rien he) ?_
    intro s' _ hs'
    rw [hs']
    exact .un hst he (.ecriture _ _)
      (Cadre.admetRetour_trace (hC (.inr ⟨rfl, .inl ⟨m, hctx⟩⟩)))
  case wait => exact wp_waitReprise he (.rien he)
  case waitpid pid p r =>
    obtain ⟨h0, hp, hpp⟩ := hsus.waitpid hmort pid p r hctx
    refine wp_waitpidBoucle hst he (by rw [hfils]; exact hp) ?_ h0 ?_
    · rw [hs, hent]
      by_cases hx : p = c.s.procElu
      · simp [Core.empile, hx, ← hpp]
      · simp [Core.empile, hx, hpp]
    · intro x s' hb
      exact hb.segment hst he (by rw [helu, hpi]; exact hidle rfl)
        (hC (.inr ⟨rfl, .inr (.inl ⟨pid, p, r, hctx⟩)⟩))
  case waitpidFils pid r =>
    obtain ⟨h0, hne⟩ := hsus.waitpidFils hmort pid r hctx
    refine wp_waitpidFilsBoucle hst he (by rw [hfils]; exact hne) h0 ?_
    intro x s' hb
    exact hb.segment hst he (by rw [helu, hpi]; exact hidle rfl)
      (hC (.inr ⟨rfl, .inr (.inr ⟨pid, r, hctx⟩)⟩))
  case consRead string length =>
    exact consRead_raffine hst he (by rw [helu, hpi]; exact hidle rfl) _ _
  case ticPIT => exact ticPITFin_segment .refl he
  case keyboardData reste =>
    refine wp_keyboardBoucle reste 0 hst he ?_
    intro x s' ha
    refine ha.segment hst he ?_
    intro p hp hf
    refine ⟨p, ?_, by rw [← hs]; exact hf⟩
    simp only [reveilles, hctx]
    rw [← hs, ← hcl]
    exact hp
  case keyboardFin =>
    refine wp_keyboardFinReprise ?_
    intro x s' ha
    refine ha.segment hst he ?_
    intro p hp
    simp [Core.reveillesEs] at hp

-- ---------------------------------------------------------------------------
-- Steps
-- ---------------------------------------------------------------------------

/-- A suspended call resumes with its return point popped off the kernel stack. -/
theorem Config.Valide.wp_suite {E : Faute → Prop} {Q : Suite → Kernel → Prop} {c : Config}
    (h : c.Valide) (hn : c.mode = .noyau)
    (hQ : wp E (reprend (c.s.tas c.s.procElu).contexte) Q { c.s with toCore := c.entree }) :
    wp E (segment c .suite) Q c.s := by
  rw [segment, wp_bind]
  refine wp_lire h.elu.vivant ?_
  simp only [ecrire, wp_bind, wp_get, h.elu.vivant, if_true]
  rw [Config.entree_noyau hn] at hQ
  exact hQ

/-- The kernel code of a step. -/
theorem segment_raffine {c : Config} {e : Signal} (h : c.Valide) (hp : possible c e = true) :
    wp (cadre c e).tolere (segment c e)
      (fun r s' => Segment (cadre c e) r c.entree s'.toCore) c.s := by
  cases e with
  | int49 r =>
    simp only [possible, decide_eq_true_eq] at hp
    rw [segment, if_pos hp, Config.entree_utilisateur hp.1]
    exact traitant_raffine h hp.1 hp.2
  | int32 =>
    simp only [possible, decide_eq_true_eq] at hp
    rw [segment, if_pos hp, Config.entree_utilisateur hp]
    exact ticPIT_raffine h.stable (h.utilisateur hp) fun p hp => ⟨rfl, hp⟩
  | int33 str =>
    simp only [possible, decide_eq_true_eq] at hp
    have hent := Config.entree_utilisateur hp
    rw [segment, if_pos hp, hent]
    refine wp_keyboardData str h.stable (h.utilisateur hp) ?_
    intro x s' ha
    refine ha.segment h.stable (h.utilisateur hp) ?_
    intro p hm hf
    refine ⟨p, ?_, by rw [hent]; exact hf⟩
    rw [reveilles, hent]
    exact hm
  | programme m =>
    simp only [possible, decide_eq_true_eq] at hp
    rw [segment, if_pos hp, Config.entree_utilisateur hp.1, wp_bind, wp_modify]
    exact .iret .refl (h.utilisateur hp.1)
  | suite =>
    simp only [possible, decide_eq_true_eq] at hp
    exact h.wp_suite hp (reprend_raffine h hp rfl rfl)

/-- The end of a piece of kernel code. -/
theorem wp_termine {C : Cadre} {s₀ : Core} {s : Kernel} {r : Suite} (h : Stable s₀)
    (hs : Segment C r s₀ s.toCore)
    (hmort : ∀ k s₃, r = .ordonnanceur k →
      Relation.ReflTransGen Liberation (s.toCore.empile k) s₃ → s₃.vivant s₃.procElu = false →
        C.faute (.accesLibere .checkCanary)) :
    wp C.tolere (termine r) (fun mode s' => Tour C mode s₀ s'.toCore) s := by
  cases r with
  | retour v =>
    simp only [termine, wp_bind, wp_get, wp_pure]
    refine wp_note ?_
    intro s' hs'
    rw [hs']
    exact .retour hs
  | iret => exact .iret hs
  | ordonnanceur k =>
    obtain ⟨h₂, hsorti⟩ := h.segment_sortie hs
    simp only [termine, wp_bind, wp_pure]
    have hv : s.vivant s.procElu = true := hsorti.vivant
    refine wp_ordonnanceur hv h₂ ?_ (hmort k · rfl) ?_
    · have hna := hsorti.etat
      simpa [Core.empile] using hna
    · intro s₃ s' hl hvide hel
      exact .election hs hl hvide hel

/-- A step from a configuration that satisfies the invariant. -/
theorem pas_raffine {c : Config} {e : Signal} (h : c.Valide) (hp : possible c e = true) :
    (∀ c', pas c e = .ok c' → Tour (cadre c e) c'.mode c.entree c'.s.toCore) ∧
      ∀ f, pas c e = .error f → (cadre c e).tolere f := by
  have hseg := segment_raffine h hp
  have hwp : wp (cadre c e).tolere (segment c e >>= termine)
      (fun mode s' => Tour (cadre c e) mode c.entree s'.toCore) c.s := by
    rw [wp_bind]
    refine wp_of ?_ fun f hf => wp_error hseg hf
    intro r s' hr
    refine wp_termine h.entree.1 (wp_ok hseg hr) ?_
    intro k s₃ hk hl hmort
    subst hk
    exact ⟨k, s', s₃, hr, hl, hmort⟩
  unfold pas
  constructor
  · intro c' hc'
    split at hc'
    · next mode s' hok =>
      cases hc'
      exact wp_ok hwp hok
    · cases hc'
  · intro f hf
    split at hf
    · cases hf
    · next f' herr =>
      cases hf
      exact wp_error hwp herr

/-- A step keeps the invariant of configurations. -/
theorem Config.Valide.pas {c c' : Config} {e : Signal} (h : c.Valide) (hp : possible c e = true)
    (hc' : GenesisOS.pas c e = .ok c') : c'.Valide := h.tour ((pas_raffine h hp).1 c' hc')

-- ---------------------------------------------------------------------------
-- Single system calls
-- ---------------------------------------------------------------------------

/-- The two parts of a step. -/
theorem of_pas {c c' : Config} {e : Signal} (h : pas c e = .ok c') :
    ∃ x s', segment c e c.s = .ok (x, s') ∧ termine x s' = .ok (c'.mode, c'.s) := by
  unfold pas at h
  split at h
  · next mode s hok =>
    cases h
    have hb : wp (fun _ => True) (segment c e >>= termine)
        (fun mode' s' => mode' = mode ∧ s' = s) c.s := by
      unfold wp
      rw [hok]
      exact ⟨rfl, rfl⟩
    rw [wp_bind] at hb
    cases hs : segment c e c.s with
    | error f =>
      simp [bind, StateT.bind, Except.bind, hs] at hok
    | ok r =>
      refine ⟨r.1, r.2, rfl, ?_⟩
      simpa [bind, StateT.bind, Except.bind, hs] using hok
  · cases h

/-- The kernel code of a step that does not stop. -/
theorem Config.Valide.segment {c : Config} {e : Signal} {x : Suite} {s' : Kernel} (h : c.Valide)
    (hp : possible c e = true) (hs : GenesisOS.segment c e c.s = .ok (x, s')) :
    Segment (cadre c e) x c.entree s'.toCore := wp_ok (segment_raffine h hp) hs

theorem of_pas_segment {c c' : Config} {e : Signal} {x : Suite} {s' : Kernel}
    (hs : segment c e c.s = .ok (x, s')) (h : pas c e = .ok c') :
    termine x s' = .ok (c'.mode, c'.s) := by
  obtain ⟨x', s'', hs', ht⟩ := of_pas h
  rw [hs] at hs'
  cases hs'
  exact ht

/-- A step whose code asks for an election ends as `ordonnanceur` does. -/
theorem pas_eq_ordonnanceur {c : Config} {e : Signal} {k : Reprise} {s' : Kernel}
    (hs : segment c e c.s = .ok (.ordonnanceur k, s')) :
    pas c e = (ordonnanceur k s').map fun r => ⟨r.2, .noyau⟩ := by
  have hb : (segment c e >>= termine) c.s = (ordonnanceur k s').map fun r => (.noyau, r.2) := by
    simp only [bind, StateT.bind, hs, Except.bind, termine]
    cases ordonnanceur k s' <;> rfl
  unfold pas
  rw [hb]
  cases ordonnanceur k s' <;> rfl

/-- A step that calls `ordonnanceur` frees the dead and elects. -/
theorem of_pas_ordonnanceur {c c' : Config} {e : Signal} {k : Reprise} {s' : Kernel} (h : c.Valide)
    (hp : possible c e = true) (hs : segment c e c.s = .ok (.ordonnanceur k, s'))
    (hpas : pas c e = .ok c') :
    c'.mode = .noyau ∧ ∃ s₃, Relation.ReflTransGen Liberation (s'.toCore.empile k) s₃ ∧
      s₃.elems .procMourants = [] ∧ Election s₃ c'.s.toCore := by
  obtain ⟨hst, hsorti⟩ := h.entree.1.segment_sortie (h.segment hp hs)
  have hna : (s'.tas s'.procElu).etat ≠ .activable := by
    have hx := hsorti.etat
    simpa [Core.empile] using hx
  have hwp : wp (Cadre.tolere { faute := fun _ => True }) (termine (.ordonnanceur k))
      (fun mode s'' => mode = .noyau ∧ ∃ s₃,
        Relation.ReflTransGen Liberation (s'.toCore.empile k) s₃ ∧
          s₃.elems .procMourants = [] ∧ Election s₃ s''.toCore) s' := by
    simp only [termine, wp_bind, wp_pure]
    refine wp_ordonnanceur hsorti.vivant hst hna (fun _ _ _ => trivial) ?_
    intro s₃ s'' hl hvide hel
    exact ⟨trivial, s₃, hl, hvide, hel⟩
  exact wp_ok hwp (of_pas_segment hs hpas)

/-- What is known of the code of a system call holds when its step ends. -/
theorem of_pas_int49 {c c' : Config} {r : Registres} {E : Faute → Prop}
    {Q : Suite → Kernel → Prop} (hp : possible c (.int49 r) = true)
    (hwp : wp E (traitantIT49Switch r) Q c.s) (h : pas c (.int49 r) = .ok c') :
    ∃ x s', Q x s' ∧ termine x s' = .ok (c'.mode, c'.s) := by
  obtain ⟨x, s', hs, ht⟩ := of_pas h
  simp only [possible, decide_eq_true_eq] at hp
  rw [segment, if_pos hp] at hs
  exact ⟨x, s', wp_ok hwp hs, ht⟩

theorem of_termine_retour {v : Int} {s s' : Kernel} {mode : Mode}
    (h : termine (.retour v) s = .ok (mode, s')) :
    mode = .utilisateur ∧ s'.toCore = s.toCore.note (.retour s.procElu v) := by
  cases h
  exact ⟨rfl, rfl⟩

/-- A step whose kernel code returns to user mode. -/
theorem pas_retour {c : Config} {e : Signal} {v : Int} {Q : Kernel → Prop}
    (h : wp (fun _ => False) (segment c e) (fun x s' => x = .retour v ∧ Q s') c.s) :
    ∃ c' s', pas c e = .ok c' ∧ Q s' ∧ c'.mode = .utilisateur ∧
      c'.s = { s' with toCore := s'.toCore.note (.retour s'.procElu v) } := by
  have hwp : wp (fun _ => False) (segment c e >>= termine) (fun mode s'' => ∃ s', Q s' ∧
      mode = .utilisateur ∧ s'' = { s' with toCore := s'.toCore.note (.retour s'.procElu v) }) c.s := by
    rw [wp_bind]
    refine wp_imp h ?_
    rintro x s' ⟨rfl, hQ⟩
    exact ⟨s', hQ, rfl, rfl⟩
  unfold pas
  cases hp : (segment c e >>= termine) c.s with
  | error f => exact (wp_error hwp hp).elim
  | ok r =>
    obtain ⟨s', hQ, hm, hs⟩ := wp_ok hwp hp
    exact ⟨_, s', rfl, hQ, hm, hs⟩

end GenesisOS
