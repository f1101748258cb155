import GenesisOS.Refinement.Processes
import Mathlib.Data.Finset.Card

/-!
# GenesisOS — freeing, electing and waking refine the transitions

`free_mourant_queue` is a sequence of `Liberation` that empties the list of
dying processes; the number of live processes bounds its turns.
-/

namespace GenesisOS

open Lib

section

variable {C : Cadre} {E : Faute → Prop} {s : Kernel} {R : Unit → Kernel → Prop}

-- ---------------------------------------------------------------------------
-- Freeing a process
-- ---------------------------------------------------------------------------

theorem wp_freeChild {f : Fils} (hv : s.vivant f.procFils = true)
    (hl : (s.tas f.procFils).etat = .zombie → s.lien f.procFils = none)
    (h : ∀ s', s'.toCore = s.toCore.detache f.procFils → R () s') :
    wp C.tolere (freeChild f) R s := by
  simp only [freeChild, wp_bind]
  refine wp_lire hv ?_
  by_cases hz : (s.tas f.procFils).etat = .zombie
  · simp only [hz, if_true, wp_bind]
    refine wp_ecrire hv ?_
    intro s₁ h₁
    refine wp_queueAdd (by rw [h₁]; exact hl hz) ?_
    intro s₂ h₂
    refine wp_memFree ?_
    intro s₃ h₃
    refine h s₃ ?_
    rw [h₃, h₂, h₁, Core.detache, if_pos hz]
  · simp only [hz, if_false, wp_bind]
    refine wp_ecrire hv ?_
    intro s₁ h₁
    refine wp_memFree ?_
    intro s₂ h₂
    refine h s₂ ?_
    rw [h₂, h₁, Core.detache, if_neg hz]

theorem wp_freeChildsFils (l : List Fils) (hnd : (l.map Fils.procFils).Nodup)
    (hv : ∀ c ∈ l.map Fils.procFils, s.vivant c = true)
    (hl : ∀ c ∈ l.map Fils.procFils, (s.tas c).etat = .zombie → s.lien c = none)
    (h : ∀ s', s'.toCore = (l.map Fils.procFils).foldl Core.detache s.toCore → R () s') :
    wp C.tolere (l.forM freeChild) R s := by
  induction l generalizing s with
  | nil => exact h s rfl
  | cons f l ih =>
    rw [List.map_cons, List.nodup_cons] at hnd
    simp only [List.map_cons, List.mem_cons, forall_eq_or_imp] at hv hl
    show wp C.tolere (freeChild f >>= fun _ => l.forM freeChild) R s
    rw [wp_bind]
    refine wp_freeChild hv.1 hl.1 ?_
    intro s₁ h₁
    -- the children left are not touched by the turn of `f`
    have hD := detaches_foldl [f.procFils] (s := s.toCore) (by simp) (by simpa using hl.1)
    have hs₁ : Detaches [f.procFils] s.toCore s₁.toCore := by
      rw [h₁]
      exact hD
    have hne : ∀ c ∈ l.map Fils.procFils, c ∉ [f.procFils] := by
      intro c hc hx
      rw [List.mem_singleton.mp hx] at hc
      exact hnd.1 hc
    refine ih hnd.2 ?_ ?_ ?_
    · intro c hc
      rw [hs₁.vivant]
      exact hv.2 c hc
    · intro c hc
      rw [hs₁.tas, hs₁.lien, if_neg (hne c hc), if_neg (fun hx => hne c hc hx.1)]
      exact hl.2 c hc
    · intro s' hs'
      refine h s' ?_
      rw [hs', h₁]
      rfl

/-- One turn of `free_mourant_queue`, after `queue_out`. -/
theorem wp_freeMourant {s₀ : Core} {p : Ptr} (h : Coherent s₀) (hp : s₀.lien p = some .procMourants)
    (hs : s.toCore = s₀.retire p)
    (hR : ∀ s', s'.toCore = s₀.libere p s₀.prochain (s₀.prochain + 1) → R () s') :
    wp C.tolere (freeMourant p) R s := by
  have hv := h.lie p _ hp
  have L := h.libere_spec hp s₀.prochain (s₀.prochain + 1)
  simp only [freeMourant, freeChilds, wp_bind]
  refine wp_lire (by rw [hs]; exact hv) ?_
  have hfils : (s.tas p).filsTete.map Fils.procFils = s₀.fils p := by
    rw [hs]
    rfl
  have hlz : ∀ c ∈ s₀.fils p, (s₀.tas c).etat = .zombie → (s₀.retire p).lien c = none := by
    intro c hc hz
    rw [Core.lien_retire]
    split
    · rfl
    · exact h.lien_of_zombie (h.fils p c hv hc).1 hz
  refine wp_freeChildsFils _ ?_ ?_ ?_ ?_
  · rw [hfils]
    exact h.filsUnique p hv
  · rw [hfils, hs]
    exact fun c hc => (h.fils p c hv hc).1
  · rw [hfils, hs]
    exact hlz
  intro s₁ h₁
  rw [hfils, hs] at h₁
  have D : Detaches (s₀.fils p) (s₀.retire p) s₁.toCore := by
    rw [h₁]
    exact detaches_foldl _ (h.filsUnique p hv) hlz
  have htas : s₁.tas p = s₀.tas p := by
    rw [D.tas, if_neg (h.not_mem_fils hp hv)]
    rfl
  refine wp_lire ?_ ?_
  · rw [D.vivant]
    exact hv
  rw [htas]
  refine wp_surCore ?_
  intro s₂ h₂
  refine wp_addPid ?_
  intro s₃ h₃
  refine wp_memFree ?_
  intro s₄ h₄
  refine wp_userStackFree ?_
  intro s₅ h₅
  refine wp_libereProcessus ?_
  intro s₆ h₆
  refine wp_note ?_
  intro s₇ h₇
  refine hR s₇ ?_
  have hpro : s₂.prochain = s₀.prochain := by
    rw [h₂]
    exact D.prochain
  rw [h₇, h₆, h₅, h₄, h₃, hpro, h₂, h₁]
  rfl

-- ---------------------------------------------------------------------------
-- The loop
-- ---------------------------------------------------------------------------

/-- The live processes below `N`. -/
def Core.vivants (s : Core) (N : Nat) : Finset Nat :=
  (Finset.range N).filter fun p => s.vivant p = true

theorem vivants_libere {s₀ s₁ : Core} {p adr n N : Nat} (h : Coherent s₀)
    (hp : s₀.lien p = some .procMourants) (L : Coherent.Libere p adr n s₀ s₁) (hN : p < N) :
    (s₁.vivants N).card < (s₀.vivants N).card := by
  refine Finset.card_lt_card ?_
  rw [Finset.ssubset_iff_of_subset]
  · refine ⟨p, ?_, ?_⟩
    · simp [Core.vivants, hN, h.lie p _ hp]
    · simp [Core.vivants, L.vivant]
  · intro x hx
    simp only [Core.vivants, Finset.mem_filter] at hx ⊢
    exact ⟨hx.1, (L.vivant_of hx.2).2⟩

theorem wp_freeMourantTours {N : Nat} (n : Nat) (h : Coherent s.toCore)
    (hN : ∀ p, s.vivant p = true → p < N) (hn : (s.toCore.vivants N).card ≤ n)
    (hR : ∀ s', Relation.ReflTransGen Liberation s.toCore s'.toCore →
      s'.elems .procMourants = [] → R () s') : wp C.tolere (freeMourantQueue.tours n) R s := by
  have hvide : s.chainage.top .procMourants = none → s.elems .procMourants = [] :=
    fun ht => List.getLast?_eq_none_iff.mp ht
  induction n generalizing s with
  | zero =>
    simp only [freeMourantQueue.tours, wp_bind]
    refine wp_queueOut (fun ht => hR s .refl (hvide ht)) ?_
    intro p s₁ hp h₁
    have hl : s.lien p = some .procMourants := LinkedQueues.link_of_top hp
    have hv := h.lie p _ hl
    have hmem : p ∈ s.toCore.vivants N := by simp [Core.vivants, hN p hv, hv]
    have := Finset.card_pos.mpr ⟨p, hmem⟩
    omega
  | succ n ih =>
    simp only [freeMourantQueue.tours, wp_bind]
    refine wp_queueOut (fun ht => hR s .refl (hvide ht)) ?_
    intro p s₁ hp h₁
    have hl : s.lien p = some .procMourants := LinkedQueues.link_of_top hp
    simp only [wp_bind]
    refine wp_freeMourant h hl h₁ ?_
    intro s₂ h₂
    have L := h.libere_spec hl s.prochain (s.prochain + 1)
    rw [← h₂] at L
    have hlib : Liberation s.toCore s₂.toCore := ⟨p, s.prochain, s.prochain + 1, hp,
      Nat.le_succ _, h₂⟩
    refine ih (h.liberation_pas hlib) ?_ ?_ ?_ ?_
    · intro x hx
      exact hN x (L.vivant_of hx).2
    · have := vivants_libere h hl L (hN p (h.lie p _ hl))
      omega
    · intro s' hr hv
      exact hR s' (.head hlib hr) hv
    · exact fun ht => List.getLast?_eq_none_iff.mp ht

theorem wp_freeMourantQueue (h : Coherent s.toCore)
    (hR : ∀ s', Relation.ReflTransGen Liberation s.toCore s'.toCore →
      s'.elems .procMourants = [] → R () s') : wp C.tolere freeMourantQueue R s := by
  simp only [freeMourantQueue, wp_bind, wp_get]
  refine wp_freeMourantTours (N := s.prochain) s.prochain h h.ancien ?_ hR
  refine (Finset.card_filter_le _ _).trans ?_
  rw [Finset.card_range]

-- ---------------------------------------------------------------------------
-- Election
-- ---------------------------------------------------------------------------

theorem wp_checkCanary {Q : Bool → Kernel → Prop} {p : Ptr} (hv : s.vivant p = true)
    (h : ∀ b, Q b s) : wp C.tolere (checkCanary p) Q s := by
  simp only [checkCanary, wp_bind]
  exact wp_lire hv (h _)

theorem wp_rangeActuel (h : Stable s.toCore) (hvide : s.elems .procMourants = [])
    (hv : s.vivant s.procElu = true) (hna : (s.tas s.procElu).etat ≠ .activable)
    (hR : ∀ s', s'.toCore = s.toCore.depose → R () s') :
    wp E (rangeActuel s.procElu) R s := by
  have hpl := h.coherent.place _ hv
  unfold Core.Place at hpl
  rw [rangeActuel, wp_bind]
  refine wp_lire hv ?_
  cases he : (s.tas s.procElu).etat
  case activable => exact absurd he hna
  case mourant =>
    rw [he] at hpl
    have hl : s.lien s.procElu = none := by
      rcases hpl with hl | ⟨-, hl⟩
      · have hm : s.procElu ∈ s.elems .procMourants := (s.chainage.mem_iff _ _).mpr hl
        rw [hvide] at hm
        cases hm
      · exact hl
    refine wp_queueAdd hl ?_
    intro s₁ h₁
    refine hR s₁ ?_
    rw [h₁, Core.depose, he]
  case elu =>
    rw [he] at hpl
    simp only [wp_bind]
    refine wp_ecrire hv ?_
    intro s₁ h₁
    refine wp_queueAdd (by rw [h₁]; exact hpl.2) ?_
    intro s₂ h₂
    refine hR s₂ ?_
    rw [h₂, h₁, Core.depose, he]
    rfl
  all_goals
    refine hR s ?_
    rw [Core.depose, he]

theorem wp_prendSuivant (h : Coherent s.toCore) (hact : s.elems .procActivables ≠ [])
    (hR : ∀ p s', s.chainage.top .procActivables = some p → s'.toCore = s.toCore.elit p → R () s') :
    wp E prendSuivant R s := by
  simp only [prendSuivant, wp_bind]
  refine wp_queueOut ?_ ?_
  · intro hnone
    exact absurd (List.getLast?_eq_none_iff.mp hnone) hact
  · intro p s₁ hp h₁
    simp only [wp_bind]
    refine wp_ecrire ?_ ?_
    · rw [h₁]
      exact h.vivant_of_top hp
    intro s₂ h₂
    refine wp_surCore ?_
    intro s₃ h₃
    refine hR p s₃ hp ?_
    rw [h₃, h₂, h₁]
    rfl

theorem Stable.actifs_depose {s : Core} (h : Stable s) (D : Stable.Depose s s.depose)
    (hna : (s.tas s.procElu).etat ≠ .activable) (hact : s.elems .procActivables ≠ []) :
    s.depose.elems .procActivables ≠ [] := by
  obtain ⟨x, hx⟩ := List.exists_mem_of_ne_nil _ hact
  have hlx : s.lien x = some .procActivables := LinkedQueues.link_of_mem hx
  have hxe : x ≠ s.procElu := by
    rintro rfl
    exact hna (h.coherent.etat_of_lien hlx)
  have hm : x ∈ s.depose.elems .procActivables :=
    (s.depose.chainage.mem_iff x _).mpr ((D.lien x hxe).trans hlx)
  exact List.ne_nil_of_mem hm

theorem wp_commute (h : Stable s.toCore) (hvide : s.elems .procMourants = [])
    (hact : s.elems .procActivables ≠ []) (hna : (s.tas s.procElu).etat ≠ .activable)
    (hmort : s.vivant s.procElu = false → C.faute (.accesLibere .checkCanary))
    (hR : ∀ s', Election s.toCore s'.toCore → R () s') : wp C.tolere commute R s := by
  -- the idle process is never freed
  have hvivant : s.procElu = s.procIdle → s.vivant s.procElu = true := by
    intro hi
    rw [hi]
    exact h.coherent.idle.1
  have suite : s.vivant s.procElu = true →
      wp C.tolere (rangeActuel s.procElu >>= fun _ => prendSuivant) R s := by
    intro hv
    have D := h.depose hv hna hvide
    rw [wp_bind]
    refine wp_rangeActuel h hvide hv hna ?_
    intro s₁ h₁
    refine wp_prendSuivant ?_ ?_ ?_
    · rw [h₁]
      exact D.stable.coherent
    · rw [show s₁.elems .procActivables = s.toCore.depose.elems .procActivables by rw [h₁]]
      exact h.actifs_depose D hna hact
    · intro p s₂ hp h₂
      rw [h₁] at hp h₂
      refine hR s₂ ?_
      rw [h₂]
      exact .elit hv hp
  simp only [commute, wp_bind, wp_get]
  by_cases hi : s.procElu = s.procIdle
  · simp only [hi, ne_eq, not_true_eq_false, if_false]
    simpa only [hi, wp_bind] using suite (hvivant hi)
  · simp only [ne_eq, hi, not_false_eq_true, if_true, wp_bind]
    cases hv : s.vivant s.procElu with
    | false =>
      simp only [checkCanary, lire, wp_bind, wp_get, hv]
      exact .inr (hmort hv)
    | true =>
      refine wp_checkCanary hv ?_
      intro b
      cases b with
      | true => simpa only [wp_bind, if_true, wp_pure] using suite hv
      | false => exact .inl rfl

theorem wp_ordonnanceur {k : Reprise} (hv : s.vivant s.procElu = true)
    (hc : Stable (s.toCore.empile k)) (hna : (s.tas s.procElu).etat ≠ .activable)
    (hmort : ∀ s₃, Relation.ReflTransGen Liberation (s.toCore.empile k) s₃ →
      s₃.vivant s₃.procElu = false → C.faute (.accesLibere .checkCanary))
    (hR : ∀ s₃ s', Relation.ReflTransGen Liberation (s.toCore.empile k) s₃ →
      s₃.elems .procMourants = [] → Election s₃ s'.toCore → R () s') :
    wp C.tolere (ordonnanceur k) R s := by
  have hna' : ((s.toCore.empile k).tas s.procElu).etat ≠ .activable := by
    simpa [Core.empile] using hna
  simp only [ordonnanceur, wp_bind, wp_get]
  refine wp_ecrire hv ?_
  intro s₁ h₁
  have hs₁ : s₁.toCore = s.toCore.empile k := h₁
  rw [← hs₁] at hc hmort hR
  refine wp_freeMourantQueue hc.coherent ?_
  intro s₂ hl hvide
  have hsorti : Sorti s.toCore s₁.toCore := by
    rw [hs₁]
    exact ⟨rfl, rfl, hv, hna'⟩
  have h₂ : Stable s₂.toCore := ⟨hc.coherent.liberation hl,
    (hc.coherent.liberation hl).orphelins_of_vide hvide⟩
  obtain ⟨-, -, hna₂⟩ := Stable.sorti_liberation hc.coherent hsorti hl
  simp only [queueEmpty, wp_bind, wp_get, wp_pure]
  split
  · next hact => exact hR s₂.toCore s₂ hl hvide (.aucune (by simpa using hact))
  · next hact =>
    refine wp_commute h₂ hvide (by simpa using hact) hna₂ (hmort _ hl) ?_
    intro s' hel
    exact hR _ s' hl hvide hel

-- ---------------------------------------------------------------------------
-- Sleeping and waking
-- ---------------------------------------------------------------------------

/-- A quiet transition accounted for by `b`: it wakes a process of greater
priority only if `b` is true. It may empty the file `a`. -/
def Veille (a : Option Objet) (b : Bool) (l : Etiquette) : Prop :=
  l.victime = none ∧ l.trace = false ∧ (l.fort = true → b = true) ∧
    (∀ x, l.efface = some x → a = some x) ∧ l.prio = none ∧ l.reveil = none

theorem Veille.admet {a : Option Objet} {b : Bool} {l : Etiquette} (h : Veille a b l)
    (ha : ∀ x, a = some x → C.efface x) : C.admet l :=
  Cadre.admet_of h.1 (by rw [h.2.1]; nofun) (fun x hx => ha x (h.2.2.2.1 x hx))
    (by rw [h.2.2.2.2.1]; nofun) (by rw [h.2.2.2.2.2]; nofun)

/-- Code that calls `ordonnanceur` when `b` says so. -/
theorem Segment.selon {s s' : Core} {a : Option Objet} {b : Bool} {k : Reprise} {v : Int}
    (h : Stable s) (he : s.EnCours) (ha : ∀ x, a = some x → C.efface x)
    (hq : Calme (Veille a b) s s') (hk : k.volontaire = true) :
    Segment C (if b then .ordonnanceur k else .retour v) s s' := by
  have he' := h.enCours_calme he hq
  cases b with
  | true =>
    refine .ordonnanceur (hq.mono ?_) he' (.suspend hk) (fun hx => absurd rfl hx)
      fun hx => absurd hx (Reprise.trace_of_volontaire hk)
    intro l hl
    exact hl.admet ha
  | false =>
    refine .retour (hq.mono ?_) he'
    intro l hl
    refine ⟨hl.admet ha, ?_⟩
    intro hf
    exact absurd (hl.2.2.1 hf) (by decide)

theorem waitClock_raffine (h : Stable s.toCore) (he : s.toCore.EnCours)
    (hidle : s.procElu ≠ s.procIdle) (ticks : Nat) : Raffine C (waitClock ticks) s := by
  unfold Raffine
  simp only [waitClock, wp_bind, wp_get]
  refine wp_ecrire he.vivant ?_
  intro s₁ h₁
  refine wp_queueAdd (by rw [h₁]; exact h.coherent.lien_procElu he) ?_
  intro s₂ h₂
  rw [wp_pure, h₂, h₁]
  exact .ordonnanceur .refl he (.endort hidle) (fun hx => absurd rfl hx)

theorem suivant_mem {l : List Ptr} {q : Option Ptr} {p : Ptr} (h : suivant l q = some p) : p ∈ l := by
  cases q with
  | none => exact List.mem_of_mem_head? h
  | some x =>
    have hm := List.mem_of_mem_head? h
    exact (List.dropWhile_sublist _).subset (List.mem_of_mem_tail hm)

/-- A wake-up of the clock interrupt: it wakes a process of greater priority
only if `b` is true, and only processes that satisfy `R`. -/
def Sonne (R : Ptr → Prop) (b : Bool) (l : Etiquette) : Prop :=
  l.victime = none ∧ l.trace = false ∧ (l.fort = true → b = true) ∧ l.efface = none ∧
    l.prio = none ∧ ∀ p, l.reveil = some p → R p

theorem Sonne.admet {R : Ptr → Prop} {b : Bool} {l : Etiquette} (h : Sonne R b l)
    (hR : ∀ p, R p → C.reveil p) : C.admet l :=
  Cadre.admet_of h.1 (by rw [h.2.1]; nofun) (by rw [h.2.2.2.1]; nofun)
    (by rw [h.2.2.2.2.1]; nofun) fun p hp => hR p (h.2.2.2.2.2 p hp)

theorem wp_verifieReveilleTours {Q : Bool → Kernel → Prop} {R : Ptr → Prop} {ticks : Nat}
    {prio : Int} (n : Nat)
    {cur : Option Ptr} {b : Bool} (h : Stable s.toCore) (he : s.toCore.EnCours)
    (hprio : prio = (s.tas s.procElu).prio)
    (hcur : ∀ c, cur = some c → c ∈ s.elems .procEndormis)
    (hn : (s.elems .procEndormis).length ≤ n) (hR : ∀ p, (s.tas p).secReveille ≤ ticks → R p)
    (hQ : ∀ b' s', (b = true → b' = true) → Calme (Sonne R b') s.toCore s'.toCore → Q b' s') :
    wp C.tolere (verifieReveille.tours ticks prio n cur b) Q s := by
  induction n generalizing s cur b with
  | zero =>
    cases cur with
    | none => exact hQ b s id .refl
    | some c =>
      have := List.length_pos_of_mem (hcur c rfl)
      omega
  | succ n ih =>
    cases cur with
    | none => exact hQ b s id .refl
    | some c =>
      have hm := hcur c rfl
      have hl : s.lien c = some .procEndormis := LinkedQueues.link_of_mem hm
      have hv := h.coherent.lie c _ hl
      simp only [verifieReveille.tours, wp_bind, wp_get]
      refine wp_lire hv ?_
      split
      · next hsec =>
        simp only [wp_bind]
        refine wp_ecrire hv ?_
        intro s₁ h₁
        refine wp_queueDel (t := .procEndormis) (by rw [h₁]; exact hl) ?_
        intro s₂ h₂
        refine wp_queueAdd (by rw [h₂]; simp [Core.lien_retire]) ?_
        intro s₃ h₃
        have hs₃ : s₃.toCore = s.toCore.eveille c id := by
          rw [h₃, h₂, h₁]
          rfl
        have q : Quiet { fort := s.fort c, reveil := some c } s.toCore s₃.toCore := by
          rw [hs₃]
          exact .reveil hm
        have hce : s.procElu ≠ c := (h.coherent.ne_procElu he hl).symm
        have hlen : (s₃.elems .procEndormis).length ≤ n := by
          have : s₃.elems .procEndormis = (s.elems .procEndormis).erase c := by
            rw [hs₃]
            show ((s.chainage.remove c).add .procActivables c _).elems _ = _
            rw [LinkedQueues.elems_add (by simp), if_neg (by decide)]
            rfl
          rw [this, List.length_erase_of_mem hm]
          omega
        simp only [wp_get]
        refine ih (h.quiet he q) (h.enCours_quiet he q) ?_ (fun _ => suivant_mem) hlen ?_ ?_
        · rw [hprio, hs₃]
          simp [Core.eveille, hce]
        · intro p hp
          refine hR p ?_
          rwa [hs₃, Core.tas_eveille, show (if p = c then { id (s.tas c) with etat := .activable }
            else s.tas p).secReveille = (s.tas p).secReveille by split <;> simp_all] at hp
        · intro b' s' hb' hq
          refine hQ b' s' (fun hb => hb' (by simp [hb]))
            (.head ⟨he, _, ⟨rfl, rfl, ?_, rfl, rfl, ?_⟩, q⟩ hq)
          swap
          · intro p hp
            rw [← Option.some.inj hp]
            exact hR c hsec
          intro hf
          refine hb' ?_
          rw [hprio]
          simp only [Core.fort, decide_eq_true_eq] at hf
          simp [hf]
      · exact hQ b s id .refl

theorem wp_verifieReveille {Q : Bool → Kernel → Prop} {ticks : Nat} (h : Stable s.toCore)
    (he : s.toCore.EnCours)
    (hQ : ∀ b s', Calme (Sonne (fun p => (s.tas p).secReveille ≤ ticks) b) s.toCore s'.toCore →
      Q b s') :
    wp C.tolere (verifieReveille ticks) Q s := by
  simp only [verifieReveille, wp_bind, wp_get]
  refine wp_lire he.vivant ?_
  refine wp_verifieReveilleTours _ h he rfl (fun _ => suivant_mem) (le_refl _) (fun _ => id) ?_
  intro b s' _ hq
  exact hQ b s' hq

theorem wp_verifieEs {Q : Bool → Kernel → Prop} (h : Stable s.toCore) (he : s.toCore.EnCours)
    (hnone : s.elems .procBloqueEs = [] → Q false s)
    (hsome : ∀ p s', s.chainage.top .procBloqueEs = some p →
      s'.toCore = s.toCore.eveille p id → Quiet { fort := s.fort p } s.toCore s'.toCore →
      Q ((s.tas s.procElu).prio > (s.tas p).prio) s') :
    wp C.tolere verifieEs Q s := by
  simp only [verifieEs, wp_bind]
  refine wp_queueOut (fun ht => hnone (List.getLast?_eq_none_iff.mp ht)) ?_
  intro p s₁ hp h₁
  have hv := h.coherent.vivant_of_top hp
  have hpe : s.procElu ≠ p :=
    (h.coherent.ne_procElu he (LinkedQueues.link_of_top hp)).symm
  simp only [wp_bind]
  refine wp_ecrire (by rw [h₁]; exact hv) ?_
  intro s₂ h₂
  refine wp_queueAdd (by rw [h₂, h₁]; simp [Core.lien_retire]) ?_
  intro s₃ h₃
  have hs₃ : s₃.toCore = s.toCore.eveille p id := by
    rw [h₃, h₂, h₁]
    rfl
  have q : Quiet { fort := s.fort p } s.toCore s₃.toCore := by
    rw [hs₃]
    exact .reveilEs hp
  have helu : s₃.procElu = s.procElu := by
    rw [hs₃]
    rfl
  simp only [wp_get, helu]
  refine wp_lire (by rw [hs₃]; exact he.vivant) ?_
  refine wp_lire (by rw [hs₃]; exact hv) ?_
  have hprio : ∀ x, (s₃.tas x).prio = (s.tas x).prio := by
    intro x
    rw [hs₃, Core.tas_eveille]
    split
    · next hx => rw [hx]; rfl
    · rfl
  rw [wp_pure, hprio, hprio]
  exact hsome p s₃ hp hs₃ q

end

end GenesisOS
