import GenesisOS.Abstract.Invariant

/-!
# GenesisOS — who `free_mourant_queue` frees

Freeing a dying process condemns its zombie children, which are freed in the
same call, and their own zombie children after them. `Condamne` says which
zombies this reaches; the others, and the processes that are not to be freed,
are spared (`Epargne`), whatever the number of turns.
-/

namespace GenesisOS

open Lib

/-- A chain of zombie fathers leads to a dying one. -/
inductive Core.Condamne (s : Core) : Ptr → Prop
  | mourant {p f : Ptr} (hp : (s.tas p).pere = some f) (hf : (s.tas f).etat = .mourant) :
      s.Condamne p
  | zombie {p f : Ptr} (hp : (s.tas p).pere = some f) (hf : (s.tas f).etat = .zombie)
      (h : s.Condamne f) : s.Condamne p

/-- `free_mourant_queue` does not reach the process. -/
structure Core.Epargne (s : Core) (p : Ptr) : Prop where
  vivant : s.vivant p = true
  lien : s.lien p ≠ some .procMourants
  zombie : (s.tas p).etat = .zombie → ¬ s.Condamne p

variable {s s' : Core} {p x : Ptr} {adr n : Nat}

theorem Coherent.etat_mourant (h : Coherent s) (hp : s.lien p = some .procMourants) :
    (s.tas p).etat = .mourant := h.etat_of_lien hp

-- ---------------------------------------------------------------------------
-- Spared processes
-- ---------------------------------------------------------------------------

/-- One turn condemns nobody. -/
theorem Core.Condamne.avant (h : Coherent s) (hp : s.lien p = some .procMourants)
    (L : Coherent.Libere p adr n s s') (hx : s'.Condamne x) : s.Condamne x := by
  have hv := h.lie p _ hp
  -- a father seen after the turn is one from before
  have pere : ∀ {y f : Ptr}, (s'.tas y).pere = some f → (s.tas y).pere = some f := by
    intro y f hy
    rw [L.pere_eq] at hy
    split at hy
    · cases hy
    · exact hy
  induction hx with
  | @mourant y f hy hf =>
    rw [L.etat_eq] at hf
    split at hf
    · next hfp =>
      -- the father was a zombie child of the process just freed
      have hfpere := (h.fils p f hv hfp.1).2.1
      exact .zombie (pere hy) hfp.2 (.mourant hfpere (h.etat_mourant hp))
    · exact .mourant (pere hy) hf
  | @zombie y f hy hf _ ih =>
    rw [L.etat_eq] at hf
    split at hf
    · cases hf
    · exact .zombie (pere hy) hf ih

theorem Core.Epargne.libere (he : s.Epargne x) (h : Coherent s) (hl : Liberation s s') :
    s'.Epargne x := by
  obtain ⟨p, adr, n, hp, hn, L⟩ := h.liberation_spec hl
  have hv := h.lie p _ hp
  have hxp : x ≠ p := by
    rintro rfl
    exact he.lien hp
  have hfils : ¬ (x ∈ s.fils p ∧ (s.tas x).etat = .zombie) := by
    rintro ⟨hxf, hz⟩
    exact he.zombie hz (.mourant (h.fils p x hv hxf).2.1 (h.etat_mourant hp))
  refine ⟨?_, ?_, ?_⟩
  · rw [L.vivant, if_neg hxp]
    exact he.vivant
  · rw [L.lien, if_neg hfils, if_neg hxp]
    exact he.lien
  · intro hz hc
    rw [L.etat_eq, if_neg hfils] at hz
    exact he.zombie hz (hc.avant h hp L)

theorem Core.Epargne.liberation (he : s.Epargne x) (h : Coherent s)
    (hl : Relation.ReflTransGen Liberation s s') : s'.Epargne x := by
  induction hl with
  | refl => exact he
  | tail hrest hlast ih => exact ih.libere (h.liberation hrest) hlast

-- ---------------------------------------------------------------------------
-- Condemned zombies
-- ---------------------------------------------------------------------------

/-- One turn frees the father of a condemned zombie, which dies, or leaves it
condemned. -/
theorem Core.Condamne.apres (h : Coherent s) (hp : s.lien p = some .procMourants)
    (L : Coherent.Libere p adr n s s') (hx : s.Condamne x) (hv : s.vivant x = true)
    (hz : (s.tas x).etat = .zombie) :
    (s'.vivant x = true ∧ (s'.tas x).etat = .mourant ∧ s'.lien x = some .procMourants) ∨
      (s'.vivant x = true ∧ (s'.tas x).etat = .zombie ∧ s'.Condamne x) := by
  have hpm := h.etat_mourant hp
  -- a zombie that is not a child of the process freed stays what it is
  have reste : ∀ {y f : Ptr}, s.vivant y = true → (s.tas y).etat = .zombie →
      (s.tas y).pere = some f → f ≠ p →
        s'.vivant y = true ∧ (s'.tas y).etat = .zombie ∧ (s'.tas y).pere = some f := by
    intro y f hy hyz hyf hfp
    have hyfils : y ∉ s.fils p := by
      intro hm
      have hpere := (h.fils p y (h.lie p _ hp) hm).2.1
      rw [hyf] at hpere
      exact hfp (Option.some.inj hpere)
    have hyp : y ≠ p := by
      rintro rfl
      rw [hpm] at hyz
      cases hyz
    refine ⟨?_, ?_, ?_⟩
    · rw [L.vivant, if_neg hyp]
      exact hy
    · rw [L.etat_eq, if_neg fun hm => hyfils hm.1]
      exact hyz
    · rw [L.pere_eq, if_neg fun hm => hyfils hm.1]
      exact hyf
  induction hx with
  | @mourant y f hy hf =>
    by_cases hfp : f = p
    · subst hfp
      have hm := (h.pere y f hv (by rw [hz]; decide) hy).2
      have hyp : y ≠ f := by
        rintro rfl
        rw [hpm] at hz
        cases hz
      refine .inl ⟨?_, ?_, ?_⟩
      · rw [L.vivant, if_neg hyp]
        exact hv
      · rw [L.etat_eq, if_pos ⟨hm, hz⟩]
      · rw [L.lien, if_pos ⟨hm, hz⟩]
    · obtain ⟨hv', hz', hy'⟩ := reste hv hz hy hfp
      refine .inr ⟨hv', hz', .mourant hy' ?_⟩
      rw [L.etat_eq, if_neg, hf]
      rintro ⟨-, hfz⟩
      rw [hf] at hfz
      cases hfz
  | @zombie y f hy hf _ ih =>
    have hfp : f ≠ p := by
      rintro rfl
      rw [hpm] at hf
      cases hf
    obtain ⟨hv', hz', hy'⟩ := reste hv hz hy hfp
    rcases ih (h.pere y f hv (by rw [hz]; decide) hy).1 hf with ⟨-, hm, -⟩ | ⟨-, hfz, hc⟩
    · exact .inr ⟨hv', hz', .mourant hy' hm⟩
    · exact .inr ⟨hv', hz', .zombie hy' hfz hc⟩

/-- A process that is freed, to be freed, or a condemned zombie. -/
def Core.Perdu (s : Core) (x : Ptr) : Prop :=
  s.vivant x = false ∨ s.lien x = some .procMourants ∨
    s.vivant x = true ∧ (s.tas x).etat = .zombie ∧ s.Condamne x

theorem Core.Perdu.libere (hx : s.Perdu x) (h : Coherent s) (hl : Liberation s s') :
    s'.Perdu x := by
  obtain ⟨p, adr, n, hp, hn, L⟩ := h.liberation_spec hl
  rcases hx with hv | hlien | ⟨hv, hz, hc⟩
  · left
    rw [L.vivant, hv, ite_self]
  · by_cases hxp : x = p
    · left
      rw [L.vivant, if_pos hxp]
    · right
      left
      rw [L.lien, if_neg hxp, hlien, ite_self]
  · rcases hc.apres h hp L hv hz with ⟨-, -, hlien⟩ | hc'
    · exact .inr (.inl hlien)
    · exact .inr (.inr hc')

theorem Core.Perdu.liberation (hx : s.Perdu x) (h : Coherent s)
    (hl : Relation.ReflTransGen Liberation s s') : s'.Perdu x := by
  induction hl with
  | refl => exact hx
  | tail hrest hlast ih => exact ih.libere (h.liberation hrest) hlast

/-- A dying father is in the queue or is the elected process. -/
theorem Core.Condamne.mourant_vivant (h : Coherent s) (hx : s.Condamne x) (hv : s.vivant x = true)
    (hm : (s.tas x).etat ≠ .mourant) : ∃ f, s.vivant f = true ∧ (s.tas f).etat = .mourant := by
  induction hx with
  | mourant hp hf => exact ⟨_, (h.pere _ _ hv hm hp).1, hf⟩
  | zombie hp hf _ ih => exact ih (h.pere _ _ hv hm hp).1 (by rw [hf]; decide)

/-- When `free_mourant_queue` is done, a condemned zombie that called it has
been freed. -/
theorem Core.Perdu.libre (hx : s.Perdu s.procElu) (h : Coherent s)
    (hvide : s.elems .procMourants = []) : s.vivant s.procElu = false := by
  have hnil : ∀ y, s.lien y ≠ some .procMourants := by
    intro y hy
    have hm : y ∈ s.elems .procMourants := (s.chainage.mem_iff y _).mpr hy
    rw [hvide] at hm
    cases hm
  rcases hx with hv | hl | ⟨hv, hze, hc⟩
  · exact hv
  · exact absurd hl (hnil _)
  · obtain ⟨f, hf, hfm⟩ := hc.mourant_vivant h hv (by rw [hze]; decide)
    have hpl := h.place f hf
    unfold Core.Place at hpl
    rw [hfm] at hpl
    rcases hpl with hl | ⟨rfl, -⟩
    · exact absurd hl (hnil f)
    · rw [hze] at hfm
      cases hfm

-- ---------------------------------------------------------------------------
-- The process that calls `ordonnanceur`
-- ---------------------------------------------------------------------------

/-- `s'` differs from `s` by the death of `e` and the awakening of processes
that wait for a child. -/
structure Deces (e : Ptr) (s s' : Core) : Prop where
  pere : ∀ x, (s'.tas x).pere = (s.tas x).pere
  etat : ∀ x, x ≠ e → (s'.tas x).etat = (s.tas x).etat ∨
    (s.tas x).etat = .attendFils ∧ (s'.tas x).etat = .activable
  mort : (s'.tas e).etat = .zombie
  vif : (s.tas e).etat = .elu

namespace Deces

variable {e : Ptr}

theorem condamne (d : Deces e s s') (h : s.Condamne x) : s'.Condamne x := by
  have garde : ∀ {f : Ptr} {et : Etat}, (s.tas f).etat = et → et ≠ .attendFils → et ≠ .elu →
      (s'.tas f).etat = et := by
    intro f et hf hne hne'
    by_cases hfe : f = e
    · subst hfe
      rw [d.vif] at hf
      exact absurd hf.symm hne'
    · rcases d.etat f hfe with hx | ⟨hx, -⟩
      · rw [hx, hf]
      · rw [hf] at hx
        exact absurd hx hne
  induction h with
  | mourant hp hf => exact .mourant ((d.pere _).trans hp) (garde hf (by decide) (by decide))
  | zombie hp hf _ ih => exact .zombie ((d.pere _).trans hp) (garde hf (by decide) (by decide)) ih

theorem condamne_iff (d : Deces e s s') : s'.Condamne e ↔ s.Condamne e := by
  refine ⟨fun h => ?_, d.condamne⟩
  -- a chain that goes through `e` again is cut there
  have avant : ∀ {y : Ptr}, s'.Condamne y → s.Condamne y ∨ s.Condamne e := by
    intro y hy
    have garde : ∀ {f : Ptr} {et : Etat}, f ≠ e → (s'.tas f).etat = et → et ≠ .activable →
        (s.tas f).etat = et := by
      intro f et hfe hf hne
      rcases d.etat f hfe with hx | ⟨-, hx⟩
      · rw [← hx, hf]
      · rw [hf] at hx
        exact absurd hx hne
    induction hy with
    | @mourant y f hp hf =>
      have hfe : f ≠ e := by
        rintro rfl
        rw [d.mort] at hf
        cases hf
      exact .inl (.mourant ((d.pere y).symm.trans hp) (garde hfe hf (by decide)))
    | @zombie y f hp hf _ ih =>
      rcases ih with hc | hc
      · by_cases hfe : f = e
        · exact .inr (hfe ▸ hc)
        · exact .inl (.zombie ((d.pere y).symm.trans hp) (garde hfe hf (by decide)) hc)
      · exact .inr hc
  rcases avant h with hc | hc <;> exact hc

end Deces

/-- The elected process dies as a zombie. -/
theorem Sortie.deces {m : Motif} {k : Reprise} (he : s.EnCours) (q : Sortie m k s s')
    (hm : m ≠ .cede) (hpere : (s.tas s.procElu).pere ≠ none) :
    Deces s.procElu s (s'.empile k) := by
  cases q with
  | @exitZombie _ v pere hidle hp =>
    have htas : ∀ x, (((((s.maj s.procElu fun r => { r with retval := v }).note
        (.exit s.procElu v)).maj s.procElu fun r => { r with etat := .zombie }).tas x).pere =
          (s.tas x).pere) ∧ (x ≠ s.procElu →
        ((((s.maj s.procElu fun r => { r with retval := v }).note (.exit s.procElu v)).maj
          s.procElu fun r => { r with etat := .zombie }).tas x).etat = (s.tas x).etat) := by
      intro x
      by_cases hx : x = s.procElu <;> simp [hx]
    have hmort : ((((s.maj s.procElu fun r => { r with retval := v }).note
        (.exit s.procElu v)).maj s.procElu fun r => { r with etat := .zombie }).tas s.procElu).etat =
          .zombie := by simp
    have helu : (((s.maj s.procElu fun r => { r with retval := v }).note
        (.exit s.procElu v)).maj s.procElu fun r => { r with etat := .zombie }).procElu =
          s.procElu := rfl
    generalize ((s.maj s.procElu fun r => { r with retval := v }).note
      (.exit s.procElu v)).maj s.procElu (fun r => { r with etat := .zombie }) = s₁ at htas hmort helu
    have hrev : ∀ x, ((s₁.reveillePere pere).tas x).pere = (s₁.tas x).pere ∧
        (((s₁.reveillePere pere).tas x).etat = (s₁.tas x).etat ∨
          (s₁.tas x).etat = .attendFils ∧ ((s₁.reveillePere pere).tas x).etat = .activable) := by
      intro x
      unfold Core.reveillePere
      split
      · next hat =>
        rw [Core.tas_active]
        by_cases hx : x = pere
        · subst hx
          rw [if_pos rfl]
          exact ⟨rfl, .inr ⟨hat, rfl⟩⟩
        · rw [if_neg hx]
          exact ⟨rfl, .inl rfl⟩
      · exact ⟨rfl, .inl rfl⟩
    have hemp : ∀ x, (((s₁.reveillePere pere).empile .exitFin).tas x).pere =
        ((s₁.reveillePere pere).tas x).pere ∧
        (((s₁.reveillePere pere).empile .exitFin).tas x).etat =
          ((s₁.reveillePere pere).tas x).etat := by
      intro x
      rw [Core.empile, Core.tas_maj]
      split
      · next hx => rw [hx]; exact ⟨rfl, rfl⟩
      · exact ⟨rfl, rfl⟩
    refine ⟨?_, ?_, ?_, he.etat⟩
    · intro x
      rw [(hemp x).1, (hrev x).1, (htas x).1]
    · intro x hx
      rw [(hemp x).2, ← (htas x).2 hx]
      exact (hrev x).2
    · rw [(hemp _).2]
      rcases (hrev s.procElu).2 with hx | ⟨hx, -⟩
      · rw [hx, hmort]
      · rw [hmort] at hx
        cases hx
  | @suicideZombie _ pere hidle hp =>
    refine ⟨?_, ?_, ?_, he.etat⟩
    · intro x
      by_cases hx : x = s.procElu <;> simp [Core.empile, hx]
    · intro x hx
      left
      simp [Core.empile, hx]
    · simp [Core.empile]
  | exitMourant hidle hp => exact absurd hp hpere
  | suicideMourant hidle hp => exact absurd hp hpere
  | _ => exact absurd rfl hm

/-- What becomes of the process that calls `ordonnanceur`. -/
theorem Sortie.issue {m : Motif} {k : Reprise} (h : Coherent s) (he : s.EnCours)
    (q : Sortie m k s s') :
    (m = .cede ∧ ((s'.empile k).tas s.procElu).etat ≠ .zombie ∧
      ((s'.empile k).tas s.procElu).etat ≠ .mourant) ∨
    (((s'.empile k).tas s.procElu).etat = .mourant ∧ s'.lien s.procElu = none) ∨
    (m ≠ .cede ∧ (s.tas s.procElu).pere ≠ none) := by
  have hl := h.lien_procElu he
  cases q with
  | suspend hk =>
    refine .inl ⟨rfl, ?_⟩
    rw [Core.empile, Core.tas_maj, if_pos rfl]
    constructor <;> rw [he.etat] <;> decide
  | endort hidle => exact .inl ⟨rfl, by simp [Core.empile], by simp [Core.empile]⟩
  | emission hidle hf hnon hplein =>
    refine .inl ⟨rfl, ?_, ?_⟩ <;> simp [Core.empile, Core.bloqueFile, Core.emet]
  | reception hidle hf hvide =>
    refine .inl ⟨rfl, ?_, ?_⟩ <;> simp [Core.empile, Core.bloqueFile, Core.recoit]
  | wait hidle hs hmin hneg => exact .inl ⟨rfl, by simp [Core.empile], by simp [Core.empile]⟩
  | consRead hidle => exact .inl ⟨rfl, by simp [Core.empile], by simp [Core.empile]⟩
  | waitpid hidle hcf hpid h0 hz => exact .inl ⟨rfl, by simp [Core.empile], by simp [Core.empile]⟩
  | waitpidFils hidle hne hz h0 => exact .inl ⟨rfl, by simp [Core.empile], by simp [Core.empile]⟩
  | exitMourant hidle hp => exact .inr (.inl ⟨by simp [Core.empile], hl⟩)
  | suicideMourant hidle hp => exact .inr (.inl ⟨by simp [Core.empile], hl⟩)
  | exitZombie hidle hp => exact .inr (.inr ⟨by decide, by rw [hp]; simp⟩)
  | suicideZombie hidle hp => exact .inr (.inr ⟨by decide, by rw [hp]; simp⟩)

/-- The process that calls `ordonnanceur` is spared, unless it dies as a zombie
while it is condemned. -/
theorem Sortie.epargne {m : Motif} {k : Reprise} (h : Stable s) (he : s.EnCours)
    (q : Sortie m k s s') (hm : m ≠ .cede → ¬ s.Condamne s.procElu) :
    (s'.empile k).Epargne s.procElu := by
  obtain ⟨hst, hsorti⟩ := h.sortie he q
  have hv : (s'.empile k).vivant s.procElu = true := by
    rw [← hsorti.elu]
    exact hsorti.vivant
  have hlien : ((s'.empile k).tas s.procElu).etat ≠ .mourant →
      (s'.empile k).lien s.procElu ≠ some .procMourants :=
    fun hne hl => hne (hst.coherent.etat_mourant hl)
  rcases q.issue h.coherent he with ⟨-, hz, hne⟩ | ⟨hmo, hl⟩ | ⟨hne, hpere⟩
  · exact ⟨hv, hlien hne, fun hx => absurd hx hz⟩
  · refine ⟨hv, ?_, ?_⟩
    · rw [show (s'.empile k).lien s.procElu = none from hl]
      nofun
    · intro hz
      rw [hmo] at hz
      cases hz
  · have d := q.deces he hne hpere
    refine ⟨hv, hlien (by rw [d.mort]; decide), fun _ hc => hm hne (d.condamne_iff.mp hc)⟩

/-- A condemned process that dies as a zombie is freed. -/
theorem Sortie.libre {m : Motif} {k : Reprise} {s₃ : Core} (h : Stable s) (he : s.EnCours)
    (q : Sortie m k s s') (hm : m ≠ .cede) (hc : s.Condamne s.procElu)
    (hl : Relation.ReflTransGen Liberation (s'.empile k) s₃) (hvide : s₃.elems .procMourants = []) :
    s₃.vivant s₃.procElu = false := by
  obtain ⟨hst, hsorti⟩ := h.sortie he q
  have hpere : (s.tas s.procElu).pere ≠ none := by
    cases hc with
    | mourant hp _ => rw [hp]; nofun
    | zombie hp _ _ => rw [hp]; nofun
  have d := q.deces he hm hpere
  have hv : (s'.empile k).vivant s.procElu = true := by
    rw [← hsorti.elu]
    exact hsorti.vivant
  have helu := (Stable.elu_liberation hst.coherent hl).1.trans hsorti.elu
  have hperdu : (s'.empile k).Perdu s.procElu := .inr (.inr ⟨hv, d.mort, d.condamne hc⟩)
  have hfin := hperdu.liberation hst.coherent hl
  rw [← helu] at hfin
  exact hfin.libre (hst.coherent.liberation hl) hvide

end GenesisOS
