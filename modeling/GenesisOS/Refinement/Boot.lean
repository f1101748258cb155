import GenesisOS.Invariants.Identifiers
import GenesisOS.Refinement.Machine

/-!
# GenesisOS — start-up, and the invariant of every run

`init_ordonnanceur` builds a coherent state in which the idle process runs
(`Initial`), and its call of `start` is one step more. By `pas_raffine` every
configuration reached from there satisfies the invariant.
-/

namespace GenesisOS

open Lib

-- ---------------------------------------------------------------------------
-- Before the idle process
-- ---------------------------------------------------------------------------

/-- The state before the idle process exists. -/
structure Vierge (s : Core) : Prop where
  vivant : ∀ p, s.vivant p = false
  lien : ∀ p, s.lien p = none
  table : ∀ i, s.tableDesProcs i = none
  file : ∀ i, s.tableauFile i = none
  fids : s.fidListe = []
  sem : ∀ i, s.tableauSem i = none
  pids : ∀ c ∈ s.pidLibreTete, 0 < c.pid ∧ c.pid < MAX_PROCESS
  pidUnique : (s.pidLibreTete.map PidLibre.pid).Nodup
  sids : ∀ c ∈ s.sidListe, 0 ≤ c.sid ∧ c.sid < NBSEM
  sidUnique : (s.sidListe.map SidLibre.sid).Nodup
  journal : s.journal = []

/-- The idle process runs alone. -/
structure Amorce (s : Core) : Prop where
  stable : Stable s
  enCours : s.EnCours
  elu : s.procElu = s.procIdle
  seul : ∀ p, s.vivant p = true → p = s.procIdle
  file : ∀ i, s.tableauFile i = none
  sem : ∀ i, s.tableauSem i = none
  lien : ∀ p, s.lien p = none
  contexte : (s.tas s.procIdle).contexte = .debut
  pere : (s.tas s.procIdle).pere = none
  retval : (s.tas s.procIdle).retval = 0
  journal : s.journal = []

/-- The state in which `init_ordonnanceur` calls `start`: the idle process
runs alone, and all the other identifiers are free. -/
structure Initial (s : Core) : Prop extends Amorce s where
  libres : s.Libres

section

variable {C : Cadre} {s : Kernel}

theorem vierge_etatZero (mat : Materiel) (m : Nat → UInt8) : Vierge (etatZero mat m).toCore where
  vivant _ := rfl
  lien _ := rfl
  table _ := rfl
  file _ := rfl
  fids := rfl
  sem _ := rfl
  pids := by simp [etatZero]
  pidUnique := by simp [etatZero]
  sids := by simp [etatZero]
  sidUnique := by simp [etatZero]
  journal := rfl

theorem wp_initPids (n : Nat) (pid : Int) (h : Vierge s.toCore) (h0 : 0 < pid)
    (hn : pid + n ≤ MAX_PROCESS) (hlt : ∀ c ∈ s.pidLibreTete, c.pid < pid) :
    wp C.tolere (initPids n pid) (fun _ s' => Vierge s'.toCore ∧ s'.sidListe = s.sidListe ∧
      ∀ i, i ∈ s.pidLibreTete.map PidLibre.pid ∨ pid ≤ i ∧ i < pid + n →
        i ∈ s'.pidLibreTete.map PidLibre.pid) s := by
  induction n generalizing s pid with
  | zero =>
    refine ⟨h, rfl, fun i hi => hi.resolve_right fun hx => ?_⟩
    push_cast at hx
    omega
  | succ n ih =>
    simp only [initPids, wp_bind]
    refine wp_memAllocNonNul ?_ rfl
    intro s₁ h₁
    refine wp_surCore ?_
    intro s₂ h₂
    have hl : s₂.pidLibreTete = s.pidLibreTete ++ [⟨s.prochain, pid⟩] := by rw [h₂, h₁]; rfl
    have hmem : ∀ c ∈ s₂.pidLibreTete, c ∈ s.pidLibreTete ∨ c = ⟨s.prochain, pid⟩ := by
      intro c hc
      rw [hl] at hc
      simpa using hc
    have hv : Vierge s₂.toCore := by
      rw [h₂, h₁] at hmem ⊢
      refine ⟨h.vivant, h.lien, h.table, h.file, h.fids, h.sem, ?_, ?_, h.sids, h.sidUnique,
        h.journal⟩
      · intro c hc
        rcases hmem c hc with hc | rfl
        · exact h.pids c hc
        · refine ⟨h0, ?_⟩
          show pid < MAX_PROCESS
          push_cast at hn
          omega
      · show ((s.pidLibreTete ++ [(⟨s.prochain, pid⟩ : PidLibre)]).map PidLibre.pid).Nodup
        rw [List.map_append, List.nodup_append]
        refine ⟨h.pidUnique, by simp, ?_⟩
        intro a ha b hb hab
        obtain ⟨c, hc, rfl⟩ := List.mem_map.mp ha
        have hcp := hlt c hc
        have hb' : b = pid := by simpa using hb
        omega
    refine wp_imp (ih (pid + 1) hv (by omega) (by push_cast at hn; omega) ?_) ?_
    · intro c hc
      rcases hmem c hc with hc | rfl
      · have := hlt c hc
        omega
      · exact Int.lt_succ _
    · rintro _ s' ⟨hs', hsid, hpids⟩
      refine ⟨hs', hsid.trans ?_, fun i hi => hpids i ?_⟩
      · rw [h₂, h₁]
        rfl
      · rw [hl, List.map_append, List.mem_append]
        push_cast at hi
        rcases hi with hi | hi
        · exact .inl (.inl hi)
        · by_cases hx : i = pid
          · exact .inl (.inr (by simp [hx]))
          · exact .inr (by omega)

theorem wp_initListes (h : Vierge s.toCore) :
    wp C.tolere initListes (fun _ s' => Vierge s'.toCore ∧ MemesTables s.toCore s'.toCore) s := by
  have reset : ∀ {s₀ : Core} (t : Tete), Vierge s₀ →
      Vierge { s₀ with chainage := s₀.chainage.reset t } := by
    intro s₀ t hv
    refine ⟨hv.vivant, ?_, hv.table, hv.file, hv.fids, hv.sem, hv.pids, hv.pidUnique, hv.sids,
      hv.sidUnique, hv.journal⟩
    intro p
    show (s₀.chainage.reset t).link p = none
    rw [LinkedQueues.link_reset]
    split
    · rfl
    · exact hv.lien p
  simp only [initListes, wp_bind, initListHead]
  refine wp_surCore ?_
  intro s₁ h₁
  refine wp_surCore ?_
  intro s₂ h₂
  refine wp_surCore ?_
  intro s₃ h₃
  refine wp_surCore ?_
  intro s₄ h₄
  rw [h₄, h₃, h₂, h₁]
  exact ⟨reset _ (reset _ (reset _ (reset _ h))), ⟨rfl, rfl, rfl, rfl, rfl, rfl⟩⟩

theorem wp_initSemaphores (h : Vierge s.toCore) (hnil : s.sidListe = []) :
    wp C.tolere initSemaphores (fun _ s' => Vierge s'.toCore ∧ s'.pidLibreTete = s.pidLibreTete ∧
      ∀ i, 0 ≤ i → i < NBSEM → i ∈ s'.sidListe.map SidLibre.sid) s := by
  -- the identifiers left are distinct, in range and not yet in the list
  refine wp_imp (wp_forM (I := fun (l : List Nat) s' => (Vierge s'.toCore ∧ l.Nodup ∧
    (∀ i ∈ l, i < 10) ∧ ∀ c ∈ s'.sidListe, ∀ i ∈ l, c.sid ≠ (i : Int)) ∧
      s'.pidLibreTete = s.pidLibreTete ∧
        ∀ i ∈ List.range 10, i ∈ l ∨ (i : Int) ∈ s'.sidListe.map SidLibre.sid) ?_
    (List.range NBSEM.toNat) ?_) ?_
  · rintro i l s₀ ⟨⟨hv, hnd, hlt, hne⟩, hpids, htous⟩
    refine wp_addSid ?_
    intro s₁ h₁
    have hmem : ∀ c ∈ s₁.sidListe, c = ⟨s₀.prochain, (i : Int)⟩ ∨ c ∈ s₀.sidListe := by
      intro c hc
      rw [h₁] at hc
      exact (List.mem_orderedInsert _).mp hc
    rw [List.nodup_cons] at hnd
    refine ⟨⟨?_, hnd.2, fun j hj => hlt j (List.mem_cons_of_mem _ hj), ?_⟩,
      by rw [h₁]; exact hpids, ?_⟩
    · rw [h₁] at hmem ⊢
      refine ⟨hv.vivant, hv.lien, hv.table, hv.file, hv.fids, hv.sem, hv.pids, hv.pidUnique, ?_, ?_,
        hv.journal⟩
      · intro c hc
        rcases hmem c hc with rfl | hc
        · have := hlt i (by simp)
          exact ⟨by simp, by unfold NBSEM; simp; omega⟩
        · exact hv.sids c hc
      · refine map_insertByKey_nodup ?_ hv.sidUnique
        intro hm
        obtain ⟨c, hc, he⟩ := List.mem_map.mp hm
        exact hne c hc i (by simp) he
    · intro c hc j hj
      rcases hmem c hc with rfl | hc
      · intro he
        have : i = j := Int.ofNat.inj he
        exact hnd.1 (this ▸ hj)
      · exact hne c hc j (List.mem_cons_of_mem _ hj)
    · intro j hj
      rw [h₁]
      rcases htous j hj with hm | hm
      · rcases List.mem_cons.mp hm with rfl | hm
        · exact .inr (List.mem_map.mpr ⟨⟨s₀.prochain, (j : Int)⟩,
            (List.mem_orderedInsert _).mpr (.inl rfl), rfl⟩)
        · exact .inl hm
      · obtain ⟨c, hc, he⟩ := List.mem_map.mp hm
        exact .inr (List.mem_map.mpr ⟨c, (List.mem_orderedInsert _).mpr (.inr hc), he⟩)
  · refine ⟨⟨h, List.nodup_range, ?_, ?_⟩, rfl, fun i hi => .inl hi⟩
    · intro i hi
      simpa [NBSEM] using hi
    · rw [hnil]
      simp
  · rintro _ s' ⟨⟨hv, -⟩, hpids, htous⟩
    refine ⟨hv, hpids, fun i h0 hN => ?_⟩
    lift i to ℕ using h0
    refine (htous i ?_).resolve_left List.not_mem_nil
    unfold NBSEM at hN
    rw [List.mem_range]
    omega

-- ---------------------------------------------------------------------------
-- The idle process
-- ---------------------------------------------------------------------------

theorem elems_vierge {s : Core} (h : ∀ p, s.lien p = none) (t : Tete) : s.elems t = [] := by
  refine List.eq_nil_iff_forall_not_mem.mpr ?_
  intro p hp
  have hl : s.lien p = some t := LinkedQueues.link_of_mem hp
  rw [h p] at hl
  cases hl

/-- The state of the idle process alone is coherent. -/
theorem coherent_idle {s s' : Core} {i : Ptr} (h : Vierge s) (hvivant : ∀ p, s'.vivant p = true ↔ p = i)
    (htas : s'.tas i =
      { nom := octets "IDLE", pid := 0, etat := .elu, secReveille := 0, prio := PRIO_IDLE })
    (helu : s'.procElu = i) (hidle : s'.procIdle = i) (hlien : ∀ p, s'.lien p = none)
    (hfile : ∀ n, s'.tableauFile n = none) (hsem : ∀ n, s'.tableauSem n = none)
    (htable : ∀ n, s'.tableDesProcs n = if n = 0 then some i else none) (hfids : s'.fidListe = [])
    (hpids : s'.pidLibreTete = s.pidLibreTete) (hsids : s'.sidListe = s.sidListe)
    (hpro : i < s'.prochain) : Coherent s' := by
  have hfils : s'.fils i = [] := by rw [Core.fils, htas]; rfl
  have hetat : (s'.tas i).etat = .elu := by rw [htas]
  constructor
  case place =>
    intro p hp
    rw [(hvivant p).mp hp]
    unfold Core.Place
    rw [hetat]
    exact ⟨helu.symm, hlien i⟩
  case lie =>
    intro p t hp
    rw [hlien p] at hp
    cases hp
  case lieFile =>
    intro p fid hp
    rw [hlien p] at hp
    cases hp
  case lieSem =>
    intro p sid hp
    rw [hlien p] at hp
    cases hp
  case tri =>
    unfold LinkedQueues.Sorted
    rw [show s'.chainage.elems .procActivables = [] from elems_vierge hlien _]
    exact List.Pairwise.nil
  case file =>
    intro fid f hf
    rw [hfile fid] at hf
    cases hf
  case fidLibre =>
    intro c hc
    rw [hfids] at hc
    cases hc
  case fidUnique =>
    rw [hfids]
    exact List.nodup_nil
  case sem =>
    intro sid sem hs
    rw [hsem sid] at hs
    cases hs
  case sidLibre =>
    intro c hc
    rw [hsids] at hc
    exact ⟨(h.sids c hc).1, (h.sids c hc).2, hsem _⟩
  case sidUnique =>
    rw [hsids]
    exact h.sidUnique
  case table =>
    intro n p hp
    rw [htable n] at hp
    split at hp
    · next hn =>
      cases hp
      exact ⟨(hvivant i).mpr rfl, by rw [htas, hn]⟩
    · cases hp
  case inscrit =>
    intro p hp
    rw [(hvivant p).mp hp, htas, htable]
    rfl
  case pid =>
    intro p hp
    rw [(hvivant p).mp hp, htas]
    exact ⟨le_refl _, by decide⟩
  case pidLibre =>
    intro c hc
    rw [hpids] at hc
    obtain ⟨h0, hN⟩ := h.pids c hc
    refine ⟨h0, hN, ?_⟩
    rw [htable, if_neg (ne_of_gt h0)]
  case pidUnique =>
    rw [hpids]
    exact h.pidUnique
  case ancien =>
    intro p hp
    rw [(hvivant p).mp hp]
    exact hpro
  case pere =>
    intro c f hc hm hf
    rw [(hvivant c).mp hc, htas] at hf
    cases hf
  case fils =>
    intro f c hf hc
    rw [(hvivant f).mp hf, hfils] at hc
    cases hc
  case filsUnique =>
    intro f hf
    rw [(hvivant f).mp hf, hfils]
    exact List.nodup_nil
  case orphelin =>
    intro p hp hm
    rw [(hvivant p).mp hp, hetat] at hm
    cases hm
  case idle =>
    rw [hidle]
    exact ⟨(hvivant i).mpr rfl, by rw [htas], by rw [htas]; rfl, hfils⟩
  case idleEtat =>
    rw [hidle]
    exact .inl hetat
  case idleContexte =>
    rw [hidle, htas]
    rfl
  case prio =>
    intro p hp hne
    rw [hidle] at hne
    exact absurd ((hvivant p).mp hp) hne
  case suspendu =>
    intro p hp
    rw [(hvivant p).mp hp]
    have hctx : (s'.tas i).contexte = .debut := by rw [htas]
    refine ⟨?_, ?_, ?_, ?_, ?_, ?_, ?_⟩ <;> simp [hetat, hctx]

theorem wp_initIdle (h : Vierge s.toCore) :
    wp C.tolere initIdle (fun _ s' => Amorce s'.toCore ∧ s'.fidListe = [] ∧
      s'.pidLibreTete = s.pidLibreTete ∧ s'.sidListe = s.sidListe) s := by
  simp only [initIdle, wp_bind]
  refine wp_allocProcessus ?_ ?_
  · intro s₁ _
    exact .inl rfl
  intro s₁ h₁
  simp only [wp_bind]
  refine wp_ecrire ?_ ?_
  · rw [h₁]
    simp
  intro s₂ h₂
  refine wp_surCore ?_
  intro s₃ h₃
  have hvivant : ∀ p, s₃.vivant p = true ↔ p = s.prochain := by
    intro p
    rw [h₃, h₂, h₁]
    by_cases hp : p = s.prochain <;> simp [hp, h.vivant]
  have htas : s₃.tas s.prochain =
      { nom := octets "IDLE", pid := 0, etat := .elu, secReveille := 0, prio := PRIO_IDLE } := by
    rw [h₃, h₂, h₁]
    simp
  have helu : s₃.procElu = s.prochain := by rw [h₃]
  have hidle : s₃.procIdle = s.prochain := by rw [h₃]
  have hlien : ∀ p, s₃.lien p = none := by
    intro p
    rw [h₃, h₂, h₁]
    exact h.lien p
  have hfile : ∀ i, s₃.tableauFile i = none := by
    intro i
    rw [h₃, h₂, h₁]
    exact h.file i
  have hsem : ∀ i, s₃.tableauSem i = none := by
    intro i
    rw [h₃, h₂, h₁]
    exact h.sem i
  have htable : ∀ i, s₃.tableDesProcs i = if i = 0 then some s.prochain else none := by
    intro i
    rw [h₃, h₂, h₁]
    by_cases hi : i = 0 <;> simp [hi, h.table]
  have hfids : s₃.fidListe = [] := by rw [h₃, h₂, h₁]; exact h.fids
  have hfils : s₃.toCore.fils s.prochain = [] := by rw [Core.fils, htas]; rfl
  refine ⟨⟨⟨?_, ?_⟩, ?_, ?_, ?_, hfile, hsem, hlien, ?_, ?_, ?_, ?_⟩, hfids, ?_⟩
  · exact coherent_idle h hvivant htas helu hidle hlien hfile hsem htable hfids
      (by rw [h₃, h₂, h₁]; rfl) (by rw [h₃, h₂, h₁]; rfl)
      (by rw [h₃, h₂, h₁]; exact Nat.lt_succ_self _)
  · intro p hp
    rw [(hvivant p).mp hp, htas]
    exact fun _ => rfl
  · refine ⟨?_, ?_, ?_⟩ <;> rw [helu]
    · exact (hvivant _).mpr rfl
    · rw [htas]
    · rw [htas]
      exact .inr rfl
  · rw [helu, hidle]
  · intro p hp
    rw [hidle]
    exact (hvivant p).mp hp
  · rw [hidle, htas]
  · rw [hidle, htas]
  · rw [hidle, htas]
  · rw [h₃, h₂, h₁]
    exact h.journal
  · rw [h₃, h₂, h₁]
    exact ⟨rfl, rfl⟩

theorem wp_initFiles (h : Amorce s.toCore) (hnil : s.fidListe = [])
    (hpids : ∀ i, 0 < i → i < MAX_PROCESS → i ∈ s.pidLibreTete.map PidLibre.pid)
    (hsids : ∀ i, 0 ≤ i → i < NBSEM → i ∈ s.sidListe.map SidLibre.sid) :
    wp C.tolere initFiles (fun _ s' => Initial s'.toCore) s := by
  refine wp_imp (wp_forM (I := fun (l : List Nat) s' => (Amorce s'.toCore ∧ l.Nodup ∧
    (∀ i ∈ l, i < 10) ∧ ∀ c ∈ s'.fidListe, ∀ i ∈ l, c.fid ≠ (i : Int)) ∧
      (s'.pidLibreTete = s.pidLibreTete ∧ s'.sidListe = s.sidListe) ∧
        ∀ i ∈ List.range 10, i ∈ l ∨ (i : Int) ∈ s'.fidListe.map FidLibre.fid) ?_
    (List.range NBQUEUE.toNat) ?_) ?_
  · rintro i l s₀ ⟨⟨hi, hnd, hlt, hne⟩, hlistes, htous⟩
    have hc := hi.stable.coherent
    refine wp_addFid ?_
    intro s₁ h₁
    have hmem : ∀ c ∈ s₁.fidListe, c = ⟨s₀.prochain, (i : Int)⟩ ∨ c ∈ s₀.fidListe := by
      intro c hc
      rw [h₁] at hc
      exact (List.mem_orderedInsert _).mp hc
    rw [List.nodup_cons] at hnd
    have hi10 := hlt i (by simp)
    refine ⟨⟨?_, hnd.2, fun j hj => hlt j (List.mem_cons_of_mem _ hj), ?_⟩,
      by rw [h₁]; exact hlistes, ?_⟩
    · rw [h₁] at hmem ⊢
      refine ⟨⟨?_, hi.stable.orphelins⟩, ⟨hi.enCours.vivant, hi.enCours.etat, hi.enCours.contexte⟩,
        hi.elu, hi.seul, hi.file, hi.sem, hi.lien, hi.contexte, hi.pere, hi.retval, hi.journal⟩
      refine hc.autour ⟨rfl, fun _ _ => rfl, fun _ => rfl, rfl, rfl, rfl, rfl, Nat.le_succ _⟩
        hc.lieFile hc.lieSem hc.file ?_ ?_ hc.sem hc.sidLibre hc.sidUnique hc.pidLibre hc.pidUnique
      · intro c hcm
        rcases hmem c hcm with rfl | hcm
        · exact ⟨by simp, by unfold NBQUEUE; simp; omega, hi.file _⟩
        · exact hc.fidLibre c hcm
      · refine map_insertByKey_nodup ?_ hc.fidUnique
        intro hm
        obtain ⟨c, hcm, he⟩ := List.mem_map.mp hm
        exact hne c hcm i (by simp) he
    · intro c hcm j hj
      rcases hmem c hcm with rfl | hcm
      · intro he
        have : i = j := Int.ofNat.inj he
        exact hnd.1 (this ▸ hj)
      · exact hne c hcm j (List.mem_cons_of_mem _ hj)
    · intro j hj
      rw [h₁]
      rcases htous j hj with hm | hm
      · rcases List.mem_cons.mp hm with rfl | hm
        · exact .inr (List.mem_map.mpr ⟨⟨s₀.prochain, (j : Int)⟩,
            (List.mem_orderedInsert _).mpr (.inl rfl), rfl⟩)
        · exact .inl hm
      · obtain ⟨c, hc, he⟩ := List.mem_map.mp hm
        exact .inr (List.mem_map.mpr ⟨c, (List.mem_orderedInsert _).mpr (.inr hc), he⟩)
  · refine ⟨⟨h, List.nodup_range, ?_, ?_⟩, ⟨rfl, rfl⟩, fun i hi => .inl hi⟩
    · intro i hi
      simpa [NBQUEUE] using hi
    · rw [hnil]
      simp
  · rintro _ s' ⟨⟨hi, -⟩, ⟨hp, hs⟩, htous⟩
    refine ⟨hi, ⟨?_, ?_, ?_, fun i sem hs => by rw [hi.sem i] at hs; cases hs⟩⟩
    · rw [hp]
      exact fun i h0 hN _ => hpids i h0 hN
    · intro i h0 hN _
      lift i to ℕ using h0
      refine (htous i ?_).resolve_left List.not_mem_nil
      unfold NBQUEUE at hN
      rw [List.mem_range]
      omega
    · rw [hs]
      exact fun i h0 hN _ => hsids i h0 hN

-- ---------------------------------------------------------------------------
-- The first process
-- ---------------------------------------------------------------------------

/-- The idle process only ever gives up the processor. -/
theorem Sortie.of_idle {m : Motif} {k : Reprise} {s s' : Core} (h : Sortie m k s s')
    (hidle : s.procElu = s.procIdle) : m = .cede ∧ s' = s := by
  cases h with
  | suspend => exact ⟨rfl, rfl⟩
  | _ => contradiction

/-- The call of `start` ends with `init_ordonnanceur`, which enters the loop of
the idle process. -/
theorem Segment.demarrage {s s' : Core} {r : Suite} (h : Initial s) (hs : Segment {} r s s') :
    (∃ k, r = .ordonnanceur k) ∧ Segment {} (.ordonnanceur .iret) s s' ∨
      (∀ k, r ≠ .ordonnanceur k) ∧ Segment {} .iret s s' := by
  cases hs with
  | retour hq he => exact .inr ⟨fun _ => nofun, .iret hq he⟩
  | iret hq he => exact .inr ⟨fun _ => nofun, .iret hq he⟩
  | @ordonnanceur m k _ s₁ _ hq he hso hm =>
    obtain ⟨helu, hidle⟩ := h.stable.elu_calme hq
    obtain ⟨rfl, rfl⟩ := hso.of_idle (by rw [helu, hidle]; exact h.elu)
    exact .inl ⟨⟨k, rfl⟩, .ordonnanceur hq he (.suspend rfl) hm⟩

theorem wp_initOrdonnanceur (h : Vierge s.toCore) (hpid : s.pidLibreTete = [])
    (hsid : s.sidListe = []) :
    wp ({} : Cadre).tolere initOrdonnanceur
      (fun r s' => ∃ s₀, Initial s₀ ∧ Segment {} r s₀ s'.toCore) s := by
  simp only [initOrdonnanceur, wp_bind]
  refine wp_imp (wp_initPids (MAX_PROCESS.toNat - 1) 1 h (by decide) (by decide) ?_) ?_
  · rw [hpid]
    simp
  rintro _ s₁ ⟨h₁, hsid₁, hpid₁⟩
  refine wp_imp (wp_initListes h₁) ?_
  rintro _ s₂ ⟨h₂, hm₂⟩
  refine wp_imp (wp_initSemaphores h₂ (by rw [hm₂.sids, hsid₁, hsid])) ?_
  rintro _ s₃ ⟨h₃, hpid₃, hsid₃⟩
  refine wp_imp (wp_initIdle h₃) ?_
  rintro _ s₄ ⟨h₄, hfid, hpid₄, hsid₄⟩
  refine wp_imp (wp_initFiles h₄ hfid ?_ (by rw [hsid₄]; exact hsid₃)) ?_
  · intro i h0 hN
    rw [hpid₄, hpid₃, hm₂.pids]
    refine hpid₁ i (.inr ⟨h0, ?_⟩)
    unfold MAX_PROCESS at hN ⊢
    simpa using hN
  intro _ s₅ h₅
  refine wp_imp (start_raffine h₅.stable h₅.enCours 0 1 _ 0) ?_
  intro r s' hs
  rcases hs.demarrage h₅ with ⟨⟨k, rfl⟩, hboucle⟩ | ⟨hr, hboucle⟩
  · exact ⟨s₅.toCore, h₅, hboucle⟩
  · cases r with
    | ordonnanceur k => exact absurd rfl (hr k)
    | retour v => exact ⟨s₅.toCore, h₅, hboucle⟩
    | iret => exact ⟨s₅.toCore, h₅, hboucle⟩

theorem wp_kernelStart (mat : Materiel) (m : Nat → UInt8) :
    wp ({} : Cadre).tolere kernelStart
      (fun mode s' => ∃ s₀, Initial s₀ ∧ Tour {} mode s₀ s'.toCore) (etatZero mat m) := by
  simp only [kernelStart, wp_bind]
  refine inerte_traiteCar _ _ _ _ ?_
  intro _ s₁ h₁
  refine wp_imp (wp_initOrdonnanceur (by rw [h₁]; exact vierge_etatZero mat m) ?_ ?_) ?_
  · rw [h₁]
    rfl
  · rw [h₁]
    rfl
  rintro r s ⟨s₀, h₀, hs⟩
  refine wp_imp (wp_termine h₀.stable hs ?_) fun mode s' ht => ⟨s₀, h₀, ht⟩
  rintro k s₃ rfl hl hmort
  -- the process that called `ordonnanceur` is the idle process, which is never freed
  obtain ⟨h₂, hsorti⟩ := h₀.stable.segment_sortie hs
  obtain ⟨helu, hidle⟩ := Stable.elu_liberation h₂.coherent hl
  have hv := (h₂.coherent.liberation hl).idle.1
  rw [hidle, hsorti.idle, ← h₀.elu, ← hsorti.elu, ← helu, hmort] at hv
  cases hv

end

/-- Start-up, when it succeeds, is one step from an initial state. -/
theorem depart_raffine {mat : Materiel} {m : Nat → UInt8} {c : Config} (h : depart mat m = .ok c) :
    ∃ s₀, Initial s₀ ∧ Tour {} c.mode s₀ c.s.toCore := by
  have hwp := wp_kernelStart mat m
  unfold depart at h
  split at h
  · next mode s hok =>
    cases h
    exact wp_ok hwp hok
  · cases h

-- ---------------------------------------------------------------------------
-- Runs
-- ---------------------------------------------------------------------------

theorem execute_cons {c c' : Config} {e : Signal} {l : List Signal} :
    execute c (e :: l) = some c' ↔
      possible c e = true ∧ ∃ c₁, pas c e = .ok c₁ ∧ execute c₁ l = some c' := by
  rw [execute]
  split
  · next hp =>
    cases hpas : pas c e with
    | error f => simp [Except.toOption]
    | ok c₁ => simp [Except.toOption, hp]
  · next hp => simp [hp]

/-- What every step keeps, a run keeps. -/
theorem execute_induction {I : Config → Prop} {c c' : Config} {l : List Signal}
    (hpas : ∀ {c c' : Config} {e : Signal}, I c → possible c e = true → pas c e = .ok c' → I c')
    (hi : I c) (hl : execute c l = some c') : I c' := by
  induction l generalizing c with
  | nil =>
    cases hl
    exact hi
  | cons e l ih =>
    obtain ⟨hp, c₁, h₁, hl⟩ := execute_cons.mp hl
    exact ih (hpas hi hp h₁) hl

/-- An invariant of the transitions holds all along a run. -/
theorem Config.Valide.execute {I : Core → Prop} {c c' : Config} {l : List Signal} (h : c.Valide)
    (hI : ∀ C, Conserve C I) (hpop : ∀ {s : Core}, Stable s → s.Elu → I s → I (s.empile .iret))
    (hi : I c.s.toCore) (hl : GenesisOS.execute c l = some c') : c'.Valide ∧ I c'.s.toCore := by
  refine execute_induction (I := fun c => c.Valide ∧ I c.s.toCore) ?_ ⟨h, hi⟩ hl
  rintro c c' e ⟨hv, hi⟩ hp hc'
  exact ⟨hv.pas hp hc', hv.conserve (hI _) hpop hi ((pas_raffine hv hp).1 c' hc')⟩

namespace Atteint

variable {P : Config → Signal → Prop} {c : Config}

/-- Every configuration of a run satisfies the invariant. -/
theorem valide (h : Atteint P c) : c.Valide := by
  induction h with
  | depart h =>
    obtain ⟨s₀, h₀, ht⟩ := depart_raffine h
    obtain ⟨h₁, h₂, h₃⟩ := h₀.stable.tour ht
    exact ⟨h₁, h₂, h₃⟩
  | pas _ hp _ h ih => exact ih.pas hp h

/-- What holds initially and is kept by the steps the run allows holds in every
configuration of the run. -/
theorem invariant {I : Core → Prop} (hinit : ∀ s, Initial s → I s) (hdepart : Conserve {} I)
    (hpop : ∀ {s : Core}, Stable s → s.Elu → I s → I (s.empile .iret))
    (hpas : ∀ {c : Config} {e : Signal}, c.Valide → possible c e = true → P c e → I c.s.toCore →
      Conserve (cadre c e) I) (h : Atteint P c) : I c.s.toCore := by
  induction h with
  | depart h =>
    obtain ⟨s₀, h₀, ht⟩ := depart_raffine h
    exact hdepart.tour h₀.stable (hinit s₀ h₀) ht
  | @pas c c' e hc hp hP h ih =>
    exact hc.valide.conserve (hpas hc.valide hp hP ih) hpop ih ((pas_raffine hc.valide hp).1 c' h)

/-- A run goes on with any list of signals that `P` allows. -/
theorem execute {l : List Signal} {c' : Config} (h : Atteint P c) (hP : ∀ e ∈ l, ∀ c, P c e)
    (hl : GenesisOS.execute c l = some c') : Atteint P c' := by
  induction l generalizing c with
  | nil =>
    cases hl
    exact h
  | cons e l ih =>
    obtain ⟨hp, c₁, h₁, hl⟩ := execute_cons.mp hl
    refine ih (.pas h hp (hP e (by simp) c) h₁) ?_ hl
    intro e' he'
    exact hP e' (List.mem_cons_of_mem _ he')

end Atteint

/-- The run goes on from the configuration `c` by steps that `P` allows. -/
inductive Poursuit (P : Config → Signal → Prop) (c : Config) : Config → Prop
  | refl : Poursuit P c c
  | pas {c' c'' : Config} {e : Signal} (hc : Poursuit P c c') (hp : possible c' e = true)
      (hP : P c' e) (h : GenesisOS.pas c' e = .ok c'') : Poursuit P c c''

namespace Poursuit

variable {P : Config → Signal → Prop} {c c' : Config}

/-- A list of signals that `P` allows. -/
theorem execute {c c' d : Config} {l : List Signal} (h : Poursuit P c c')
    (hP : ∀ e ∈ l, ∀ c, P c e) (hl : GenesisOS.execute c' l = some d) : Poursuit P c d := by
  induction l generalizing c' with
  | nil =>
    cases hl
    exact h
  | cons e l ih =>
    obtain ⟨hp, c₁, h₁, hl⟩ := execute_cons.mp hl
    refine ih (.pas h hp (hP e (by simp) c') h₁) ?_ hl
    exact fun e' he' => hP e' (List.mem_cons_of_mem _ he')

theorem accessible (h : Poursuit P c c') (hc : Accessible c) : Accessible c' := by
  induction h with
  | refl => exact hc
  | pas _ hp _ h ih => exact .pas ih hp trivial h

/-- What the steps the run allows keep holds all along. -/
theorem invariant {I : Core → Prop} (hc : Accessible c) (hi : I c.s.toCore)
    (hpop : ∀ {s : Core}, Stable s → s.Elu → I s → I (s.empile .iret))
    (hpas : ∀ {c : Config} {e : Signal}, c.Valide → possible c e = true → P c e →
      Conserve (cadre c e) I) (h : Poursuit P c c') : I c'.s.toCore := by
  induction h with
  | refl => exact hi
  | @pas c₁ c₂ e h hp hP hpas' ih =>
    have hv := (h.accessible hc).valide
    exact hv.conserve (hpas hv hp hP) hpop ih ((pas_raffine hv hp).1 c₂ hpas')

end Poursuit

-- ---------------------------------------------------------------------------
-- A machine to run
-- ---------------------------------------------------------------------------

/-- A machine whose memory does not run out. -/
def materielType : Materiel where
  memAlloc _ := true
  userStackAlloc n := some (0x2800010 + n * 0x10000)
  adrChainage _ := 0x200000
  adrProcActivables := 0x100000
  chainage_noyau _ := by decide
  activables_noyau := by decide

/-- The configuration after the signals of `l`, from start-up. -/
def scenario (l : List Signal) : Option Config :=
  match depart materielType fun _ => 0 with
  | .ok c => execute c l
  | .error _ => none

/-- The call of a service by its number. -/
def appel (n : Nat) (ebx ecx edx esi : BitVec 32) : Signal := .int49 ⟨BitVec.ofNat 32 n, ebx, ecx, edx, esi, 0⟩

/-- The signal can occur and its step stops at the fault `f`. -/
def echoue (c : Config) (e : Signal) (f : Faute) : Bool :=
  possible c e && match pas c e with
    | .error f' => f' = f
    | .ok _ => false

theorem of_echoue {c : Config} {e : Signal} {f : Faute} (h : echoue c e f = true) :
    possible c e = true ∧ pas c e = .error f := by
  unfold echoue at h
  rw [Bool.and_eq_true] at h
  refine ⟨h.1, ?_⟩
  cases hpas : pas c e with
  | ok c' => rw [hpas] at h; cases h.2
  | error f' => rw [hpas] at h; rw [of_decide_eq_true h.2]

theorem Atteint.scenario {P : Config → Signal → Prop} {l : List Signal} {c : Config}
    (hl : GenesisOS.scenario l = some c) (hP : ∀ e ∈ l, ∀ c, P c e) : Atteint P c := by
  unfold GenesisOS.scenario at hl
  split at hl
  · next c₀ h₀ => exact Atteint.execute (.depart h₀) hP hl
  · cases hl

/-- A configuration found by running the machine is reachable. -/
theorem Accessible.scenario {l : List Signal} {Q : Config → Bool}
    (h : (GenesisOS.scenario l).any Q = true) : ∃ c, Accessible c ∧ Q c = true := by
  obtain ⟨c, hc, hQ⟩ := (Option.any_eq_true _ _).mp h
  exact ⟨c, Atteint.scenario hc fun _ _ _ => trivial, hQ⟩

end GenesisOS
