import GenesisOS.Refinement.Boot
import GenesisOS.Refinement.Holdings

/-!
# GenesisOS — the blocks of the heap over a run

From start-up on, the blocks of the heap are those the kernel structures own and one
cell of `sizeofFils` bytes for each child `waitpid` has taken.
-/

namespace GenesisOS

open Lib

section

variable {s : Kernel} {d : Multiset (Ptr × Nat)}

-- ---------------------------------------------------------------------------
-- System calls and interrupts
-- ---------------------------------------------------------------------------

theorem tenu_sansValeur {m : M Unit} (h : Tenu m) : Tenu (sansValeur m) :=
  .of_bind h fun _ => .of_pure _

theorem tenu_consWrite (n adr : Nat) : Tenu (consWrite n adr) := by
  induction n generalizing adr with
  | zero => exact .of_pure _
  | succ n ih =>
    have hlu : Tenu (lireOctet adr) :=
      .of_keeps (keeps_lireOctet (E := fun _ => True) (.inr trivial))
    exact .of_bind hlu fun c => .of_bind (.of_discret (discret_traiteCar c)) fun _ => ih _

theorem tenu_ticPIT : Tenu ticPIT := by
  have hcompte : ∀ s, (compteTic s).1.avoirs = s.avoirs := by
    intro s
    unfold compteTic
    dsimp only
    split <;> [(split <;> split <;> rfl); rfl]
  have hreveil : ∀ n, Tenu (do
      if ← verifieReveille n then pure (.ordonnanceur .ticPIT) else ticPITFin : M Suite) := fun n =>
    .of_bind (.of_discret (discret_verifieReveille n)) fun _ =>
      .of_ite (.of_pure _) (.of_discret discret_ticPITFin)
  intro s d hd
  rw [← hcompte s] at hd ⊢
  rw [ticPIT, wp_bind, wp_get]
  dsimp only
  rw [wp_bind, wp_set]
  split
  · exact Tenu.of_bind (.of_discret (discret_surConsole _)) (fun _ => hreveil _) _ d hd
  · exact hreveil _ _ d hd

theorem CompteEn.garde {b : Bool} {m : M Suite} (h : CompteEn m s) :
    CompteEn (if b then pure (.retour (-1)) else m) s :=
  .of_ite (Tenu.of_pure _ s).compte h

/-- The system calls, when the free identifiers name empty entries. -/
theorem compte_traitant (h : Coherent s.toCore) (r : Registres) :
    CompteEn (traitantIT49Switch r) s := by
  have console : ∀ f, CompteEn (sansValeur (surConsole f)) s := fun f =>
    (tenu_sansValeur (.of_discret (discret_surConsole f)) s).compte
  unfold traitantIT49Switch
  cases r.service with
  | none => exact (Tenu.of_pure _ s).compte
  | some sv =>
    cases sv
    case getpid => exact (Tenu.of_discret discret_getpid s).compte
    case consPutbytes => exact .garde (tenu_sansValeur (tenu_consWrite _ _) s).compte
    case consWrite => exact .garde (tenu_sansValeur (tenu_consWrite _ _) s).compte
    case start => exact .garde (tenu_start _ _ _ _ s).compte
    case exit => exact (Tenu.of_discret (discret_exit _) s).compte
    case kill => exact (tenu_kill _ s).compte
    case ps => exact (tenu_sansValeur (.of_discret discret_afficheTableProcess) s).compte
    case getprio => exact (Tenu.of_discret (discret_getprio _) s).compte
    case chprio => exact (Tenu.of_discret (discret_chprio _ _) s).compte
    case pcount => exact .garde (tenu_pcount _ _ s).compte
    case pcreate => exact (tenu_pcreate (fun c hc => (h.fidLibre c hc).2.2) _).compte
    case pdelete => exact (tenu_pdelete _ s).compte
    case preceive => exact .garde (tenu_preceive _ _ s).compte
    case preset => exact (tenu_preset _ s).compte
    case psend => exact (tenu_psend _ _ s).compte
    case clockSettings =>
      refine .garde (tenu_sansValeur ?_ s).compte
      exact .of_bind (.of_keeps (keeps_ecrireMot_avoirs _ _)) fun _ =>
        .of_keeps (keeps_ecrireMot_avoirs _ _)
    case currentClock => exact (Tenu.of_get (fun s => .of_pure _) s).compte
    case waitClock => exact (Tenu.of_discret (discret_waitClock _) s).compte
    case waitpid => exact .garde (compte_waitpid _ _)
    case consEcho => exact console _
    case consRead => exact .garde (tenu_consRead _ _ s).compte
    case exitKernel => exact (Tenu.of_throw s).compte
    case setColor => exact console _
    case scount => exact (Tenu.of_discret (discret_scount _) s).compte
    case screate => exact (tenu_screate h.sidLibre _).compte
    case sdelete => exact (tenu_sdelete _ s).compte
    case sreset => exact (tenu_sreset _ _ s).compte
    case signal => exact (tenu_signal _ s).compte
    case signaln => exact (tenu_signaln _ _ s).compte
    case tryWait => exact (tenu_tryWait _ s).compte
    case wait => exact (tenu_wait _ s).compte
    case playSound => exact (Tenu.of_pure _ s).compte
    case consSwitchEcho => exact console _
    case setIdStart => exact console _
    case echoHist => exact (tenu_sansValeur (.of_discret discret_afficherHistorique) s).compte

theorem compte_reprend (k : Reprise) : CompteEn (reprend k) s := by
  cases k with
  | debut | retour | iret => exact (Tenu.of_pure _ s).compte
  | exitFin => exact (Tenu.of_throw s).compte
  | psend => exact (Tenu.of_discret discret_psendReprise s).compte
  | preceive message => exact (tenu_preceiveReprise message s).compte
  | wait => exact (Tenu.of_discret discret_waitReprise s).compte
  | waitpid pid p retvalp => exact compte_waitpidBoucle pid p retvalp
  | waitpidFils pid retvalp => exact compte_waitpidFilsBoucle pid retvalp
  | consRead string length => exact (tenu_consRead string length s).compte
  | ticPIT => exact (Tenu.of_discret discret_ticPITFin s).compte
  | keyboardData reste => exact (tenu_keyboardBoucle 0 reste s).compte
  | keyboardFin =>
    exact (Tenu.of_bind (.of_discret (discret_traiteCar 7)) (fun _ => .of_pure _) s).compte

theorem tenu_termine (x : Suite) : Tenu (termine x) := by
  cases x with
  | retour v =>
    exact .of_get fun s => .of_bind (.of_discret (discret_note _ rfl)) fun _ => .of_pure _
  | iret => exact .of_pure _
  | ordonnanceur k => exact .of_bind (tenu_ordonnanceur k) fun _ => .of_pure _

-- ---------------------------------------------------------------------------
-- Steps
-- ---------------------------------------------------------------------------

theorem compte_segment {c : Config} (h : Coherent c.s.toCore) (e : Signal) :
    CompteEn (segment c e) c.s := by
  cases e with
  | int49 r =>
    rw [segment]
    exact .of_ite (compte_traitant h r) (Tenu.of_pure _ _).compte
  | int32 =>
    rw [segment]
    exact .of_ite (tenu_ticPIT _).compte (Tenu.of_pure _ _).compte
  | int33 str =>
    rw [segment]
    exact .of_ite (tenu_keyboardBoucle 0 _ _).compte (Tenu.of_pure _ _).compte
  | programme m =>
    rw [segment]
    refine .of_ite (TenuEn.compte ?_) (Tenu.of_pure _ _).compte
    exact Tenu.of_bind (.of_modify fun _ => rfl) (fun _ => .of_pure Suite.iret) c.s
  | suite =>
    refine .of_bind (Tenu.of_discret (discret_lire _ _) _).compte fun r s => ?_
    exact .of_bind (Tenu.of_discret (discret_ecrire _ _ _ (by intro _; rfl)) s).compte
      fun _ s => compte_reprend _

-- ---------------------------------------------------------------------------
-- Start-up
-- ---------------------------------------------------------------------------

theorem bilan_etatZero (mat : Materiel) (m : Nat → UInt8) : Bilan (etatZero mat m).avoirs 0 where
  ledger := by
    have hp : (etatZero mat m).avoirs.possede + 0 = 0 := rfl
    rw [hp]
    exact .empty
  borne _ ha := absurd rfl ha
  ancien _ hp := absurd hp Bool.false_ne_true
  idle := ⟨Nat.zero_lt_one, rfl⟩
  piles := ⟨fun _ hp => absurd hp Bool.false_ne_true, fun _ _ hp => absurd hp Bool.false_ne_true⟩

theorem tenu_initPids (n : Nat) (pid : Int) : Tenu (initPids n pid) := by
  induction n generalizing pid with
  | zero => exact .of_pure _
  | succ n ih =>
    intro s d hd
    rw [initPids, wp_bind]
    refine wp_memAllocNonNul_bilan hd fun s₁ h₁ hd₁ => ?_
    simp only [surCore, wp_bind, wp_modify]
    refine wp_imp (ih (pid + 1) _ d (hd₁.transfere ?_ rfl rfl rfl rfl rfl fun _ _ => rfl)) fun _ _ h => ⟨h.1, h.2.trans ?_⟩
    · have hp := Avoirs.possede_pid (A := s₁.avoirs)
        (List.perm_append_singleton (PidLibre.mk s.prochain pid) s₁.pidLibreTete)
      rw [Multiset.add_cons, ← Multiset.cons_add]
      exact congrArg (· + d) hp
    · exact (congrArg Avoirs.recoltes h₁ :)

/-- Another idle process, when no process is live yet. -/
theorem Bilan.change_idle {A : Avoirs} {p : Ptr} (h : Bilan A d) (hv : ∀ q, A.vivant q ≠ true)
    (hlt : p < A.prochain) (hpile : (A.processus p).2.1.1 = 0) :
    Bilan { A with procIdle := p } d where
  ledger := by
    have hsum : ∀ i, ({ A with procIdle := i } : Avoirs).desProcessus = 0 := fun i =>
      Finset.sum_eq_zero fun q _ => if_neg (hv q)
    have hp : ({ A with procIdle := p } : Avoirs).possede = A.possede := by
      have h₀ : A.desProcessus = 0 := hsum A.procIdle
      unfold Avoirs.possede
      rw [hsum, h₀]
      rfl
    rw [hp]
    exact h.ledger
  borne := h.borne
  ancien := h.ancien
  idle := ⟨hlt, hpile⟩
  piles := ⟨fun q hq => absurd hq (hv q), fun q _ hq => absurd hq (hv q)⟩

theorem tenu_initIdle (h : ∀ p, s.vivant p = false) : TenuEn initIdle s := by
  intro d hd
  rw [initIdle, wp_bind]
  refine wp_allocProcessus_avoirs (fun _ _ => trivial) fun s₁ h₁ => ?_
  dsimp only
  rw [wp_bind]
  refine wp_ecrire_avoirs fun s₂ hv h₂ => ?_
  have hproc : s₁.avoirs.processus s.prochain = ([], (0, 0), ⟨0, 0⟩) := by
    rw [h₁]
    exact Function.update_self _ _ _
  have hvivant : ∀ q, (s₁.avoirs.sans s.prochain).vivant q ≠ true := by
    intro q
    rw [h₁]
    show Function.update (Function.update s.vivant s.prochain true) s.prochain false q ≠ true
    rw [Function.update_idem, Function.update_apply]
    split
    · decide
    · rw [h q]
      decide
  have hlt : s.prochain < s₁.avoirs.prochain := by
    rw [h₁]
    exact Nat.lt_succ_self _
  -- the structure becomes that of the idle process, which has no kernel stack
  have hd₁ : Bilan ({ s₁.avoirs with procIdle := s.prochain } : Avoirs) d := by
    refine Bilan.attache (p := s.prochain) ?_ hv hlt fun hne => absurd rfl hne
    have hx : Bilan (s₁.avoirs.sans s.prochain) ((s.prochain, sizeofProcessus) ::ₘ d) := by
      rw [h₁]
      exact hd.concu
    have hdu : Avoirs.duProcessus { s₁.avoirs with procIdle := s.prochain } s.prochain =
        {(s.prochain, sizeofProcessus)} := by
      unfold Avoirs.duProcessus
      rw [if_pos rfl, hproc]
      rfl
    rw [hdu, Multiset.singleton_add]
    refine hx.change_idle hvivant hlt ?_
    show (s₁.avoirs.processus s.prochain).2.1.1 = 0
    rw [hproc]
  have hA : s₂.avoirs = s₁.avoirs := by
    refine h₂.trans ?_
    exact congrArg (fun x => { s₁.avoirs with processus := x }) (Function.update_eq_self _ _)
  simp only [surCore, wp_modify]
  have hx : Bilan { s₂.avoirs with procIdle := s.prochain } d := by
    rw [hA]
    exact hd₁
  refine ⟨hx, ?_⟩
  show s₂.avoirs.recoltes = _
  rw [hA]
  exact (congrArg Avoirs.recoltes h₁ :)

theorem tenu_initListes : Tenu initListes := by
  have hliste : ∀ t, Tenu (initListHead t) := fun t => .of_discret (discret_surCore fun _ => rfl)
  exact .of_bind (hliste _) fun _ => .of_bind (hliste _) fun _ => .of_bind (hliste _) fun _ => hliste _

/-- No process is created before the idle process. -/
theorem keeps_vivant_memAllocNonNul (l : Lieu) (n : Nat) :
    Keeps (fun _ => True) (fun s : Kernel => s.vivant) (memAllocNonNul l n) := by
  intro s
  simp only [memAllocNonNul, memAlloc, wp_bind, wp_get]
  split
  · rfl
  · trivial

theorem keeps_vivant_initPids (n : Nat) (pid : Int) :
    Keeps (fun _ => True) (fun s : Kernel => s.vivant) (initPids n pid) := by
  induction n generalizing pid with
  | zero => exact .of_pure _
  | succ n ih =>
    refine .of_bind (keeps_vivant_memAllocNonNul _ _) fun _ => ?_
    exact .of_bind (.of_modify fun _ => rfl) fun _ => ih _

theorem keeps_vivant_initSemaphores :
    Keeps (fun _ => True) (fun s : Kernel => s.vivant) initSemaphores := by
  refine .of_forM (fun i => ?_) _
  exact .of_bind (keeps_vivant_memAllocNonNul _ _) fun _ => .of_modify fun _ => rfl

theorem keeps_vivant_initListes :
    Keeps (fun _ => True) (fun s : Kernel => s.vivant) initListes :=
  .of_bind (.of_modify fun _ => rfl) fun _ => .of_bind (.of_modify fun _ => rfl) fun _ =>
    .of_bind (.of_modify fun _ => rfl) fun _ => .of_modify fun _ => rfl

theorem tenu_initOrdonnanceur (h : ∀ p, s.vivant p = false) : TenuEn initOrdonnanceur s := by
  intro d hd
  rw [initOrdonnanceur, wp_bind]
  refine wp_imp (wp_and (tenu_initPids _ 1 s d hd) (keeps_vivant_initPids _ 1 s)) ?_
  rintro _ s₁ ⟨⟨hd₁, hr₁⟩, h₁⟩
  rw [wp_bind]
  refine wp_imp (wp_and (tenu_initListes s₁ d hd₁) (keeps_vivant_initListes s₁)) ?_
  rintro _ s₂ ⟨⟨hd₂, hr₂⟩, h₂⟩
  rw [wp_bind]
  have hsem : Tenu initSemaphores := .of_forM (fun i : Nat => tenu_addSid i) _
  refine wp_imp (wp_and (hsem s₂ d hd₂) (keeps_vivant_initSemaphores s₂)) ?_
  rintro _ s₃ ⟨⟨hd₃, hr₃⟩, h₃⟩
  have hmort : ∀ p, s₃.vivant p = false := by
    intro p
    rw [← h p]
    exact congrFun (h₃.trans (h₂.trans h₁) :) p
  refine wp_imp ((show TenuEn _ s₃ from ?_) d hd₃) fun _ _ h =>
    ⟨h.1, h.2.trans (hr₃.trans (hr₂.trans hr₁))⟩
  refine (tenu_initIdle hmort).of_bind fun _ => .of_bind (.of_forM (fun i : Nat => tenu_addFid i) _)
    fun _ => .of_bind (tenu_start _ _ _ _) fun x => ?_
  cases x <;> exact .of_pure _

/-- Start-up leaves no block behind. -/
theorem wp_kernelStart_bilan (mat : Materiel) (m : Nat → UInt8) :
    wp (fun _ => True) kernelStart (fun _ s' => Bilan s'.avoirs 0 ∧ s'.avoirs.recoltes = 0)
      (etatZero mat m) := by
  have hstart : TenuEn kernelStart (etatZero mat m) := by
    refine .of_wp ((discret_traiteCar 12).avoirs _) fun _ s₁ h₁ => ?_
    refine (tenu_initOrdonnanceur fun p => ?_).of_bind tenu_termine
    exact congrFun (congrArg Avoirs.vivant h₁) p
  exact wp_imp (hstart 0 (bilan_etatZero mat m)) fun _ _ h => ⟨h.1, h.2.trans rfl⟩

end

-- ---------------------------------------------------------------------------
-- Runs
-- ---------------------------------------------------------------------------

/-- The heap holds the blocks the structures own and those of `perdus`: one cell for
each child that was taken. -/
structure Perte (A : Avoirs) (perdus : Multiset (Ptr × Nat)) : Prop where
  bilan : Bilan A perdus
  taille : ∀ x ∈ perdus, x.2 = sizeofFils
  nombre : Multiset.card perdus = A.recoltes

theorem Accessible.perte {c : Config} (h : Accessible c) : ∃ perdus, Perte c.s.avoirs perdus := by
  induction h with
  | @depart mat m c hd =>
    have hwp := wp_kernelStart_bilan mat m
    unfold GenesisOS.depart at hd
    split at hd
    · next mode s hok =>
      cases hd
      obtain ⟨hb, hr⟩ := wp_ok hwp hok
      exact ⟨0, hb, nofun, hr.symm⟩
    · cases hd
  | @pas c c' e hc hp _ hpas ih =>
    obtain ⟨perdus, hb, ht, hn⟩ := ih
    obtain ⟨x, s', hseg, hfin⟩ := of_pas hpas
    obtain ⟨f, hb', ht', hn'⟩ := wp_ok (compte_segment hc.valide.stable.coherent e _ hb) hseg
    obtain ⟨hb'', hn''⟩ := wp_ok (tenu_termine x s' _ hb') hfin
    refine ⟨f + perdus, hb'', ?_, ?_⟩
    · exact fun y hy => (Multiset.mem_add.mp hy).elim (ht' y) (ht y)
    · rw [hn'', hn', Multiset.card_add, hn]
      omega

end GenesisOS
