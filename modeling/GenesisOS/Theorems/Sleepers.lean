import GenesisOS.Invariants.Sleepers
import GenesisOS.Refinement.Returns
import GenesisOS.Theorems.Waiters

/-!
# GenesisOS — sleeping processes are woken on time

`verifie_reveille` wakes the processes whose wake-up time has come, and those
only (`Sonnerie`): its loop takes them from the head of a sorted list. So no
process sleeps past a tick of its wake-up time, and a process that calls
`wait_clock` sleeps until the first such tick, unless it is killed.
-/

namespace GenesisOS

open Lib

theorem Initial.trie {s : Core} (h : Initial s) : s.Trie := by
  have hvide : s.elems .procEndormis = [] := by
    refine List.eq_nil_iff_forall_not_mem.mpr fun x hx => ?_
    have hl : s.lien x = some .procEndormis := LinkedQueues.link_of_mem hx
    rw [h.lien x] at hl
    cases hl
  unfold Core.Trie
  rw [hvide]
  exact List.Pairwise.nil

-- ---------------------------------------------------------------------------
-- The loop of `verifie_reveille`
-- ---------------------------------------------------------------------------

/-- Waking the first sleeping process leaves the others. -/
theorem Core.endormis_eveille {s : Core} {p : Ptr} {l : List Ptr}
    (hl : s.elems .procEndormis = p :: l) : (s.eveille p id).elems .procEndormis = l := by
  rw [Core.elems_eveille (t := .procEndormis) nofun]
  show (s.elems .procEndormis).erase p = l
  rw [hl, List.erase_cons_head]

/-- The processes whose wake-up time has come are now activable, each once, and
nothing else has changed. -/
structure Sonnerie (t : Nat) (s s' : Core) : Prop where
  endormis : s'.elems .procEndormis =
    (s.elems .procEndormis).filter fun p => t < (s.tas p).secReveille
  activables : (s'.elems .procActivables).Perm
    (((s.elems .procEndormis).filter fun p => (s.tas p).secReveille ≤ t) ++
      s.elems .procActivables)
  autres : ∀ u, u ≠ .procEndormis → u ≠ .procActivables → s'.elems u = s.elems u
  tas : ∀ p, s'.tas p = if p ∈ s.elems .procEndormis ∧ (s.tas p).secReveille ≤ t then
    { s.tas p with etat := .activable } else s.tas p
  reste : s' = { s with tas := s'.tas, chainage := s'.chainage }

namespace Sonnerie

variable {t : Nat} {s s' : Core} {p : Ptr} {l : List Ptr}

theorem rien (h : ∀ p ∈ s.elems .procEndormis, t < (s.tas p).secReveille) : Sonnerie t s s where
  endormis := (List.filter_eq_self.mpr fun p hp => decide_eq_true (h p hp)).symm
  activables := by
    rw [List.filter_eq_nil_iff.mpr fun p hp => by simpa using h p hp]
    exact .refl _
  autres _ _ _ := rfl
  tas p := by
    rw [if_neg]
    rintro ⟨hp, hle⟩
    exact absurd (h p hp) (not_lt.mpr hle)
  reste := rfl

/-- One turn of the loop: the head is woken. -/
theorem tete (hl : s.elems .procEndormis = p :: l) (hp : (s.tas p).secReveille ≤ t)
    (h : Sonnerie t (s.eveille p id) s') : Sonnerie t s s' := by
  have hlien : s.lien p = some .procEndormis :=
    LinkedQueues.link_of_mem (by rw [← Core.elems, hl]; exact List.mem_cons_self)
  have hnodup : p ∉ l := by
    have := s.chainage.nodup .procEndormis
    rw [show s.chainage.elems .procEndormis = p :: l from hl] at this
    exact (List.nodup_cons.mp this).1
  have htas : ∀ x, (s.eveille p id).tas x =
      if x = p then { s.tas p with etat := .activable } else s.tas x := fun _ => Core.tas_eveille id
  have hsec : ∀ x, ((s.eveille p id).tas x).secReveille = (s.tas x).secReveille := by
    intro x
    rw [htas]
    split
    · next hx => rw [hx]
    · rfl
  have hend := Core.endormis_eveille hl
  have hact : ((s.eveille p id).elems .procActivables).Perm (p :: s.elems .procActivables) := by
    have hne : s.lien p ≠ some .procActivables := by rw [hlien]; decide
    have he : (s.retire p).elems .procActivables = s.elems .procActivables :=
      Core.elems_retire_of_ne hne
    unfold Core.eveille
    rw [Core.elems_ajoute (by simp [Core.lien_retire])]
    refine (List.perm_orderedInsert _ _ _).trans (List.Perm.cons p ?_)
    exact .of_eq he
  refine ⟨?_, ?_, ?_, ?_, ?_⟩
  · rw [h.endormis, hend, hl, List.filter_cons_of_neg (by simpa using hp)]
    simp only [hsec]
  · refine h.activables.trans ?_
    rw [hend, hl, List.filter_cons_of_pos (by simpa using hp)]
    simp only [hsec]
    refine (List.Perm.append_left _ hact).trans ?_
    exact List.perm_middle
  · intro u hu hu'
    rw [h.autres u hu hu']
    exact Core.elems_eveille_of_ne hlien hu hu'
  · intro x
    rw [h.tas, hend, hsec, htas, hl]
    by_cases hx : x = p
    · subst hx
      rw [if_neg (fun hm => hnodup hm.1), if_pos rfl, if_pos ⟨List.mem_cons_self, hp⟩]
    · rw [if_neg hx]
      simp only [List.mem_cons, hx, false_or]
  · rw [h.reste]
    rfl

end Sonnerie

section

variable {E : Faute → Prop} {s : Kernel} {t : Nat}

theorem wp_verifieReveille_sonnerie (hv : s.vivant s.procElu = true)
    (hvivant : ∀ p ∈ s.elems .procEndormis, s.vivant p = true) (htri : s.toCore.Trie) :
    wp E (verifieReveille t) (fun _ s' => Sonnerie t s.toCore s'.toCore) s := by
  have tours : ∀ (prio : Int) (n : Nat) (b : Bool) (s : Kernel) (l : List Ptr),
      s.elems .procEndormis = l → l.length ≤ n →
      (∀ p ∈ l, s.vivant p = true) →
      (l.Pairwise fun a b => (s.tas a).secReveille ≤ (s.tas b).secReveille) →
      wp E (verifieReveille.tours t prio n l.head? b)
        (fun _ s' => Sonnerie t s.toCore s'.toCore) s := by
    intro prio n b s l
    induction l generalizing s n b with
    | nil =>
      intro hl _ _ _
      unfold verifieReveille.tours
      refine Sonnerie.rien fun p hp => ?_
      rw [hl] at hp
      cases hp
    | cons p l ih =>
      intro hl hn hv htri
      obtain ⟨n, rfl⟩ : ∃ m, n = m + 1 := ⟨n - 1, by simp only [List.length_cons] at hn; omega⟩
      obtain ⟨hp, htri⟩ := List.pairwise_cons.mp htri
      have hlien : s.lien p = some .procEndormis :=
        LinkedQueues.link_of_mem (by rw [← Core.elems, hl]; exact List.mem_cons_self)
      rw [List.head?_cons, verifieReveille.tours, wp_bind, wp_get, wp_bind]
      -- the element before the head is the pseudo-entry of the list
      have hprec : precedent (s.elems .procEndormis) p = none := by
        rw [hl, precedent, List.takeWhile_cons_of_neg (by simp)]
        rfl
      rw [hprec]
      refine wp_lire (hv p List.mem_cons_self) ?_
      split
      · next hle =>
        rw [wp_bind]
        refine wp_ecrire (hv p List.mem_cons_self) fun s₁ h₁ => ?_
        rw [wp_bind]
        refine wp_queueDel (t := .procEndormis) (by rw [h₁]; exact hlien) fun s₂ h₂ => ?_
        rw [wp_bind]
        refine wp_queueAdd (by rw [h₂]; simp [Core.lien_retire]) fun s₃ h₃ => ?_
        have hs₃ : s₃.toCore = s.toCore.eveille p id := by
          rw [h₃, h₂, h₁]
          rfl
        have hel : s₃.elems .procEndormis = l := by
          rw [hs₃]
          exact Core.endormis_eveille hl
        have hsec : ∀ x, (s₃.tas x).secReveille = (s.tas x).secReveille := by
          intro x
          rw [hs₃]
          exact (MemeSommeil.maj (s := s.toCore) (f := fun r => { id r with etat := .activable })
            .refl).sec x
        rw [wp_bind, wp_get, hel]
        have hlen : l.length ≤ n := by simp only [List.length_cons] at hn; omega
        refine wp_imp (ih n _ s₃ hel hlen ?_ ?_) ?_
        · intro x hx
          rw [hs₃]
          exact hv x (List.mem_cons_of_mem _ hx)
        · simp only [hsec]
          exact htri
        · intro b' s' hs'
          rw [hs₃] at hs'
          exact .tete hl hle hs'
      · next hlt =>
        refine Sonnerie.rien fun x hx => ?_
        rw [hl] at hx
        rcases List.mem_cons.mp hx with rfl | hx
        · exact not_le.mp hlt
        · exact (not_le.mp hlt).trans_le (hp x hx)
  rw [verifieReveille, wp_bind, wp_get, wp_bind]
  refine wp_lire hv ?_
  exact tours _ _ _ s _ rfl le_rfl hvivant htri

theorem wp_ecritTemps {texte : List UInt8} {len : Nat} {Q : Unit → Kernel → Prop}
    (hQ : ∀ k, Q () { s with console := k }) : wp E (ecritTemps texte len) Q s := hQ _

theorem wp_ticPIT_sonnerie (h : Stable s.toCore) (he : s.toCore.EnCours) (htri : s.toCore.Trie) :
    wp E ticPIT (fun x s' => Sonnerie ((s.ticks + 1) % 2 ^ 32) s.toCore s'.toCore ∧
      ∀ v, x ≠ .retour v) s := by
  have hcore := compteTic_toCore s
  have reveil : ∀ s₁ : Kernel, s₁.toCore = s.toCore →
      wp E (verifieReveille (compteTic s).1.ticks >>= fun b =>
        if b = true then pure (.ordonnanceur .ticPIT) else ticPITFin)
        (fun x s' => Sonnerie ((s.ticks + 1) % 2 ^ 32) s.toCore s'.toCore ∧
          ∀ v, x ≠ .retour v) s₁ := by
    intro s₁ h₁
    rw [wp_bind, compteTic_ticks]
    refine wp_imp (wp_verifieReveille_sonnerie (by rw [h₁]; exact he.vivant) ?_
      (by rw [h₁]; exact htri)) ?_
    · intro p hp
      rw [h₁] at hp ⊢
      exact h.coherent.lie p _ (LinkedQueues.link_of_mem hp)
    · intro b s' hs'
      rw [h₁] at hs'
      split
      · exact ⟨hs', by simp⟩
      · rw [ticPITFin, wp_bind, wp_get]
        split <;> exact ⟨hs', by simp⟩
  simp only [ticPIT, wp_bind, wp_get, wp_set]
  split
  · simp only [wp_bind]
    refine wp_ecritTemps fun k => ?_
    simpa only [wp_bind] using reveil { (compteTic s).1 with console := k } hcore
  · simpa only [wp_bind] using reveil _ hcore

end

-- ---------------------------------------------------------------------------
-- Steps
-- ---------------------------------------------------------------------------

/-- The process `p` sleeps until `w`. -/
structure Endormi (c : Config) (p : Ptr) (w : Nat) : Prop where
  dort : c.s.toCore.Dort p w
  etat : (c.s.tas p).etat = .endormi

/-- The step is a tick at which a wake-up time `w` has come. -/
def Echeance (w : Nat) (c : Config) (e : Signal) : Prop :=
  e = .int32 ∧ w ≤ (c.s.ticks + 1) % 2 ^ 32

/-- The step is a call of `kill` on the process. -/
def TueProc (p : Ptr) (c : Config) (e : Signal) : Prop :=
  ∃ r, e.Appelle .kill r ∧ c.s.tableDesProcs r.ebx.toInt = some p

/-- The process is activable, or already elected. -/
def Activable (c : Config) (p : Ptr) : Prop :=
  (c.s.lien p = some .procActivables ∧ (c.s.tas p).etat = .activable) ∨
    (c.s.procElu = p ∧ (c.s.tas p).etat = .elu)

section

variable {c c' : Config} {e : Signal} {p : Ptr} {w : Nat}

theorem Atteint.trie {P : Config → Signal → Prop} (h : Atteint P c) : c.s.toCore.Trie :=
  h.invariant (fun _ h₀ => h₀.trie) (Core.Trie.conserve _)
    (fun _ _ hs => (MemeSommeil.maj (f := fun r => { r with contexte := _ }) .refl).trie hs)
    fun _ _ _ _ => Core.Trie.conserve _

theorem Config.sommeil_entree (c : Config) : MemeSommeil c.s.toCore c.entree := by
  unfold Config.entree
  split
  · exact .refl
  · exact .maj .refl

/-- From the end of the kernel code of a step on, nobody wakes or falls asleep. -/
theorem pas_sommeil {x : Suite} {s' : Kernel} (h : c.Valide) (hp : possible c e = true)
    (hseg : segment c e c.s = .ok (x, s')) (hpas : pas c e = .ok c') :
    MemeSommeil s'.toCore c'.s.toCore := by
  obtain ⟨helems, hcles⟩ := pas_listes (t := .procEndormis) h hp hseg hpas ⟨nofun, nofun⟩
  exact ⟨helems, fun x => congrArg Prod.snd (hcles x)⟩

theorem Core.Dort.endormi (hd : c.s.toCore.Dort p w) (h : c.Valide) : Endormi c p w :=
  ⟨hd, h.stable.coherent.etat_of_lien hd.1⟩

/-- The `kill` of another process. -/
theorem AppelKill.dort {s s' : Core} {pid : Int} {x : Suite} {q : Ptr} (h : Stable s)
    (he : s.EnCours) (ha : AppelKill s pid x s') (hv : s.victime pid = some q) (hne : p ≠ q)
    (hd : s.Dort p w) : s'.Dort p w := by
  obtain ⟨-, hpos, hpe, hz, hm⟩ := h.coherent.of_victime hv
  have hretire : (s.retire q).Dort p w := by
    refine ⟨?_, hd.2⟩
    rw [Core.lien_retire, if_neg hne]
    exact hd.1
  cases ha with
  | refus _ _ => exact hd
  | suicide _ hs => exact hs.dort h.coherent he hd
  | @zombie q' pere t _ hv' ht hpere hlib _ =>
    obtain rfl : q = q' := by
      rw [hv] at hv'
      exact Option.some.inj hv'
    have hc := (h.quiet he (.tueZombie hpos hpe hz hm ht hpere)).coherent
    refine (hretire.meme ?_).meme (.liberation hc hlib)
    exact .reveillePere (.maj (.note .refl))
  | @mourant q' t _ hv' ht hpere hlib _ =>
    obtain rfl : q = q' := by
      rw [hv] at hv'
      exact Option.some.inj hv'
    have hc := (h.quiet he (.tueMourant hpos hpe hz hm ht hpere)).coherent
    refine (hretire.meme ?_).meme (.liberation hc hlib)
    exact .ajoute (.maj (.note .refl))

/-- A sleeping process sleeps on, unless the step kills it or is a tick at which
its wake-up time has come. -/
theorem pas_endormi (h : c.Valide) (hp : possible c e = true) (hpas : pas c e = .ok c')
    (hd : Endormi c p w) (htue : ¬ TueProc p c e) (hech : ¬ Echeance w c e) : Endormi c' p w := by
  obtain ⟨x, s', hseg, -⟩ := of_pas hpas
  refine Core.Dort.endormi ?_ (h.pas hp hpas)
  refine Core.Dort.meme ?_ (pas_sommeil h hp hseg hpas)
  obtain ⟨hst, henc⟩ := h.entree
  have hde := hd.dort.meme c.sommeil_entree
  rcases (h.segment hp hseg).dort hst hde with hd' | ⟨he, hle⟩ | ⟨r, q, ⟨rfl, hsv⟩, hv, -⟩
  · exact hd'
  · rw [hd.dort.2] at hle
    exact absurd ⟨he, hle⟩ hech
  · have hent := Config.entree_int49 hp
    rw [hent] at hv hst henc
    have hne : p ≠ q := by
      rintro rfl
      refine htue ⟨r, ⟨rfl, hsv⟩, ?_⟩
      unfold Core.victime at hv
      split at hv
      · exact (Option.filter_eq_some_iff.mp hv).1
      · cases hv
    have hposs := hp
    simp only [possible, decide_eq_true_eq] at hposs
    rw [segment, if_pos hposs, traitantIT49Switch, hsv] at hseg
    have ha := wp_ok (wp_large (wp_kill hst henc hposs.2 _ (fun _ _ _ => trivial)
      fun _ _ ha => ha)) hseg
    exact ha.dort hst henc hv hne hd.dort

-- ---------------------------------------------------------------------------
-- The clock interrupt
-- ---------------------------------------------------------------------------

theorem Core.lien_ajoute_of_some {s : Core} {q : Ptr} {t u : Tete} {k : Processus → Int}
    (hp : s.lien p = some u) : (s.ajoute t q k).lien p = some u := by
  by_cases hpq : p = q
  · subst hpq
    show (s.chainage.add t p _).link p = some u
    rw [LinkedQueues.add, dif_neg (by rw [show s.chainage.link p = some u from hp]; simp)]
    exact hp
  · rw [Core.lien_ajoute_of_ne hpq]
    exact hp

/-- An activable process is elected or stays activable. -/
theorem Election.activable {s s' : Core} (hel : Election s s')
    (hp : s.lien p = some .procActivables) :
    s'.lien p = some .procActivables ∨ s'.procElu = p := by
  cases hel with
  | aucune _ => exact .inl hp
  | @elit q hv hq =>
    have hd : s.depose.lien p = some .procActivables := by
      unfold Core.depose
      split
      · exact Core.lien_ajoute_of_some hp
      · exact Core.lien_ajoute_of_some (s := s.maj _ _) hp
      · exact Core.lien_ajoute_of_some (s := s.maj _ _) hp
      · exact hp
    by_cases hpq : p = q
    · exact .inr hpq.symm
    · left
      show (s.depose.retire q).lien p = _
      rw [Core.lien_retire, if_neg hpq]
      exact hd

/-- An activable process at the end of the kernel code of a step is activable or
elected after the step. -/
theorem pas_activable {x : Suite} {s' : Kernel} (h : c.Valide) (hp : possible c e = true)
    (hseg : segment c e c.s = .ok (x, s')) (hpas : pas c e = .ok c')
    (hl : s'.lien p = some .procActivables) : Activable c' p := by
  have hv' := h.pas hp hpas
  suffices hs : c'.s.lien p = some .procActivables ∨ c'.s.procElu = p by
    refine hs.imp (fun hl' => ⟨hl', hv'.stable.coherent.etat_of_lien hl'⟩) fun he => ⟨he, ?_⟩
    rw [← he]
    exact hv'.elu.etat
  have hterm := of_pas_segment hseg hpas
  cases x with
  | retour v =>
    rw [(of_termine_retour hterm).2]
    exact .inl hl
  | iret =>
    obtain ⟨s₁, mode⟩ := c'
    cases hterm
    exact .inl hl
  | ordonnanceur k =>
    obtain ⟨hst, -⟩ := h.entree.1.segment_sortie (h.segment hp hseg)
    obtain ⟨-, s₃, hlib, -, hel⟩ := of_pas_ordonnanceur h hp hseg hpas
    refine hel.activable ?_
    have hm : p ∈ s₃.elems .procActivables := by
      have helems : s₃.elems .procActivables = s'.elems .procActivables :=
        hst.coherent.elems_liberation (t := .procActivables) nofun hlib
      rw [helems]
      exact (s'.chainage.mem_iff _ _).mpr hl
    exact LinkedQueues.link_of_mem hm

/-- What the clock interrupt does. -/
theorem pas_tic (h : c.Valide) (htri : c.s.toCore.Trie) (hp : possible c .int32 = true)
    (hpas : pas c .int32 = .ok c') : c'.s.ticks = (c.s.ticks + 1) % 2 ^ 32 ∧
      ∃ x s', segment c .int32 c.s = .ok (x, s') ∧
        Sonnerie ((c.s.ticks + 1) % 2 ^ 32) c.s.toCore s'.toCore := by
  obtain ⟨x, s', hseg, hterm⟩ := of_pas hpas
  have hu : c.mode = .utilisateur := of_decide_eq_true hp
  have hseg' := hseg
  rw [segment, if_pos hu] at hseg'
  have hs := wp_ok (wp_ticPIT_sonnerie (E := fun _ => False) h.stable (h.utilisateur hu) htri) hseg'
  refine ⟨?_, x, s', hseg, hs.1⟩
  have h₁ := wp_ok (wp_ticPIT_cadran c.s) hseg'
  have h₂ := wp_ok (sobre_termine x s') hterm
  exact congrArg Prod.snd (h₂.trans h₁)

/-- A tick at which its wake-up time has come wakes the process. -/
theorem pas_echeance (h : c.Valide) (htri : c.s.toCore.Trie) (hp : possible c e = true)
    (hpas : pas c e = .ok c') (hd : Endormi c p w) (hech : Echeance w c e) : Activable c' p := by
  obtain ⟨rfl, hle⟩ := hech
  obtain ⟨-, x, s', hseg, hs⟩ := pas_tic h htri hp hpas
  refine pas_activable h hp hseg hpas ?_
  have hm : p ∈ c.s.elems .procEndormis := (c.s.chainage.mem_iff _ _).mpr hd.dort.1
  have hr : p ∈ s'.elems .procActivables := by
    refine (hs.activables.mem_iff).mpr (List.mem_append_left _ ?_)
    rw [List.mem_filter, decide_eq_true_eq, hd.dort.2]
    exact ⟨hm, hle⟩
  exact LinkedQueues.link_of_mem hr

/-- After a tick, no process sleeps past its wake-up time. -/
theorem pas_tic_endormis (h : c.Valide) (htri : c.s.toCore.Trie) (hp : possible c .int32 = true)
    (hpas : pas c .int32 = .ok c') (hd : Endormi c' p w) : c'.s.ticks < w := by
  obtain ⟨hticks, x, s', hseg, hs⟩ := pas_tic h htri hp hpas
  have hm := pas_sommeil h hp hseg hpas
  have hp' : p ∈ s'.elems .procEndormis := by
    rw [← hm.elems]
    exact (c'.s.chainage.mem_iff _ _).mpr hd.dort.1
  rw [hs.endormis, List.mem_filter, decide_eq_true_eq] at hp'
  have hsec : (s'.tas p).secReveille = (c.s.tas p).secReveille := by
    rw [hs.tas, if_neg]
    rintro ⟨-, hle⟩
    exact absurd hp'.2 (not_lt.mpr hle)
  rw [hticks, ← hd.dort.2, hm.sec, hsec]
  exact hp'.2

-- ---------------------------------------------------------------------------
-- Runs
-- ---------------------------------------------------------------------------

/-- `wait_clock(w)` puts the elected process to sleep until `w`. -/
theorem pas_waitClock {r : Registres} (h : c.Valide) (hp : possible c (.int49 r) = true)
    (hsv : r.service = some .waitClock) (hpas : pas c (.int49 r) = .ok c') :
    Endormi c' c.s.procElu r.ebx.toNat := by
  obtain ⟨x, s', hseg, -⟩ := of_pas hpas
  refine Core.Dort.endormi ?_ (h.pas hp hpas)
  refine Core.Dort.meme ?_ (pas_sommeil h hp hseg hpas)
  have hposs := hp
  simp only [possible, decide_eq_true_eq] at hposs
  have henc := h.utilisateur hposs.1
  have hl := h.stable.coherent.lien_procElu henc
  rw [segment, if_pos hposs, traitantIT49Switch, hsv] at hseg
  have hwp : wp (fun _ => False) (waitClock r.ebx.toNat)
      (fun _ s' => s'.toCore.Dort c.s.procElu r.ebx.toNat) c.s := by
    rw [waitClock, wp_bind, wp_get, wp_bind]
    refine wp_ecrire henc.vivant fun s₁ h₁ => ?_
    rw [wp_bind]
    refine wp_queueAdd (by rw [h₁]; exact hl) fun s₂ h₂ => ?_
    rw [wp_pure, h₂, h₁]
    refine ⟨?_, ?_⟩
    · rw [Core.lien_ajoute (by exact hl), if_pos rfl]
    · rw [Core.ajoute_tas, Core.tas_maj, if_pos rfl]
  exact wp_ok hwp hseg

/-- The process sleeps as long as no tick brings its wake-up time and nobody
kills it. -/
theorem Poursuit.endormi {c₁ c₂ : Config} (h : c₁.Valide) (hd : Endormi c₁ p w)
    (hr : Poursuit (fun d e => ¬ TueProc p d e ∧ ¬ Echeance w d e) c₁ c₂) :
    c₂.Valide ∧ Endormi c₂ p w := by
  induction hr with
  | refl => exact ⟨h, hd⟩
  | pas _ hp hP hpas ih => exact ⟨ih.1.pas hp hpas, pas_endormi ih.1 hp hpas ih.2 hP.1 hP.2⟩

/-- In every reachable configuration, `verifie_reveille` wakes the processes
whose wake-up time has come and no other, and a tick leaves asleep only processes
to be woken later. A process that calls `wait_clock` sleeps until the first tick
that brings its wake-up time, unless it is killed, and that tick wakes it. -/
theorem sommeils_exacts (h : Accessible c) :
    (∀ t, wp (fun _ => False) (verifieReveille t)
      (fun _ s' => Sonnerie t c.s.toCore s'.toCore) c.s) ∧
    (∀ c', possible c .int32 = true → pas c .int32 = .ok c' →
      c'.s.ticks = (c.s.ticks + 1) % 2 ^ 32 ∧
        ∀ p, c'.s.vivant p = true → (c'.s.tas p).etat = .endormi →
          c'.s.ticks < (c'.s.tas p).secReveille) ∧
    ∀ r c₁, possible c (.int49 r) = true → r.service = some .waitClock →
      pas c (.int49 r) = .ok c₁ → ∀ c₂, Poursuit (fun d e =>
        ¬ TueProc c.s.procElu d e ∧ ¬ Echeance r.ebx.toNat d e) c₁ c₂ →
          Endormi c₂ c.s.procElu r.ebx.toNat ∧
          ∀ e c₃, possible c₂ e = true → pas c₂ e = .ok c₃ → Echeance r.ebx.toNat c₂ e →
            Activable c₃ c.s.procElu := by
  have hv := h.valide
  refine ⟨fun t => ?_, fun c' hp hpas => ⟨(pas_tic hv h.trie hp hpas).1, ?_⟩, ?_⟩
  · refine wp_verifieReveille_sonnerie hv.elu.vivant (fun p hp => ?_) h.trie
    exact hv.stable.coherent.lie p _ (LinkedQueues.link_of_mem hp)
  · intro p hvp het
    have hpl := (hv.pas hp hpas).stable.coherent.place p hvp
    unfold Core.Place at hpl
    rw [het] at hpl
    exact pas_tic_endormis hv h.trie hp hpas ⟨⟨hpl, rfl⟩, het⟩
  · intro r c₁ hp hsv hpas c₂ hrun
    obtain ⟨-, hd₂⟩ := Poursuit.endormi (hv.pas hp hpas) (pas_waitClock hv hp hsv hpas) hrun
    have h₂ : Accessible c₂ := hrun.accessible (.pas h hp trivial hpas)
    exact ⟨hd₂, fun e c₃ hp₂ hpas₂ hech => pas_echeance h₂.valide h₂.trie hp₂ hpas₂ hd₂ hech⟩

/-- The user process sleeps through the first tick and is woken by the second. -/
theorem sommeils_exacts_exemple : ∃ c c₁ c₂ c₃, Accessible c ∧ pas c (appel 16 2 0 0 0) = .ok c₁ ∧
    execute c₁ [.suite, .int32] = some c₂ ∧ Endormi c₂ c.s.procElu 2 ∧
      pas c₂ .int32 = .ok c₃ ∧ Activable c₃ c.s.procElu := by
  obtain ⟨c, hc, h⟩ := Accessible.scenario (l := [.suite])
    (Q := fun c => (execute c [appel 16 2 0 0 0]).any fun c₁ : Config =>
      (execute c₁ [.suite]).any fun d : Config => decide (d.s.ticks = 0) &&
        (execute d [.int32]).any fun c₂ : Config => decide (c₂.s.ticks = 1) &&
          (execute c₂ [.int32]).isSome)
    (by decide +kernel)
  obtain ⟨c₁, h₁, h⟩ := (Option.any_eq_true _ _).mp h
  obtain ⟨d, hd, h⟩ := (Option.any_eq_true _ _).mp h
  rw [Bool.and_eq_true, decide_eq_true_eq] at h
  obtain ⟨hticks, h⟩ := h
  obtain ⟨c₂, h₂, h⟩ := (Option.any_eq_true _ _).mp h
  rw [Bool.and_eq_true, decide_eq_true_eq] at h
  obtain ⟨hticks₂, h⟩ := h
  obtain ⟨c₃, h₃⟩ := Option.isSome_iff_exists.mp h
  obtain ⟨hp, hpas⟩ := of_execute_un h₁
  obtain ⟨hpd, hpasd⟩ := of_execute_un hd
  obtain ⟨hp₂, hpas₂⟩ := of_execute_un h₂
  obtain ⟨hp₃, hpas₃⟩ := of_execute_un h₃
  -- neither step kills, and the tick comes too early
  have hrun : Poursuit (fun d e => ¬ TueProc c.s.procElu d e ∧ ¬ Echeance 2 d e) c₁ c₂ := by
    refine .pas (.pas .refl hpd ⟨?_, ?_⟩ hpasd) hp₂ ⟨?_, ?_⟩ hpas₂
    · rintro ⟨r, ⟨hr, -⟩, -⟩
      cases hr
    · rintro ⟨hr, -⟩
      cases hr
    · rintro ⟨r, ⟨hr, -⟩, -⟩
      cases hr
    · rintro ⟨-, hle⟩
      rw [hticks] at hle
      omega
  obtain ⟨hdort, hreveil⟩ := (sommeils_exacts hc).2.2 _ c₁ hp rfl hpas c₂ hrun
  refine ⟨c, c₁, c₂, c₃, hc, hpas, ?_, hdort, hpas₃, hreveil _ c₃ hp₃ hpas₃ ⟨rfl, ?_⟩⟩
  · exact execute_cons.mpr ⟨hpd, d, hpasd, h₂⟩
  · rw [hticks₂]
    decide

end

end GenesisOS
