import GenesisOS.Abstract.Invariant

/-!
# GenesisOS — no lost wake-up of a father

A process blocked in `waitpid` has no zombie child it waits for (`Guet`). A
child that dies wakes its father, except when it kills itself: `conserve`
asks that nobody waits for a process that does so.
-/

namespace GenesisOS

open Lib

namespace Core

variable (s : Core)

/-- No process blocked in `waitpid` has a zombie child, unless it waits for
another one. -/
def Guet : Prop :=
  ∀ f c, s.vivant f = true → (s.tas f).etat = .attendFils → c ∈ s.fils f →
    (s.tas c).etat = .zombie → ∃ pid c' r, (s.tas f).contexte = .waitpid pid c' r ∧ c' ≠ c

/-- The father of `c` is blocked in `waitpid`, for this child or for any. -/
def Attendu (c : Ptr) : Prop :=
  ∃ f, (s.tas c).pere = some f ∧ (s.tas f).etat = .attendFils ∧
    ((∃ pid r, (s.tas f).contexte = .waitpid pid c r) ∨
      ∃ pid r, (s.tas f).contexte = .waitpidFils pid r)

end Core

/-- The processes in `waitpid` with a zombie child are old ones. -/
def MoinsGuet (s s' : Core) : Prop :=
  ∀ f c, s'.vivant f = true → (s'.tas f).etat = .attendFils → c ∈ s'.fils f →
    (s'.tas c).etat = .zombie →
      s.vivant f = true ∧ (s.tas f).etat = .attendFils ∧ c ∈ s.fils f ∧ (s.tas c).etat = .zombie ∧
        (s'.tas f).contexte = (s.tas f).contexte

theorem Core.Guet.moins {s s' : Core} (h : s.Guet) (m : MoinsGuet s s') : s'.Guet := by
  intro f c hv he hc hz
  obtain ⟨hv', he', hc', hz', hk⟩ := m f c hv he hc hz
  rw [hk]
  exact h f c hv' he' hc' hz'

namespace MoinsGuet

variable {s s' s'' : Core} {p : Ptr}

theorem refl : MoinsGuet s s := fun _ _ hv he hc hz => ⟨hv, he, hc, hz, rfl⟩

theorem trans (m : MoinsGuet s s') (m' : MoinsGuet s' s'') : MoinsGuet s s'' := by
  intro f c hv he hc hz
  obtain ⟨hv', he', hc', hz', hk'⟩ := m' f c hv he hc hz
  obtain ⟨hv'', he'', hc'', hz'', hk⟩ := m f c hv' he' hc' hz'
  exact ⟨hv'', he'', hc'', hz'', hk'.trans hk⟩

/-- States, return points and children are the same. -/
theorem champs (hv : s'.vivant = s.vivant)
    (ht : ∀ x, (s'.tas x).etat = (s.tas x).etat ∧ (s'.tas x).contexte = (s.tas x).contexte ∧
      (s'.tas x).filsTete = (s.tas x).filsTete) : MoinsGuet s s' := by
  intro f c hf he hc hz
  rw [hv] at hf
  rw [(ht f).1] at he
  rw [(ht c).1] at hz
  rw [Core.fils, (ht f).2.2] at hc
  exact ⟨hf, he, hc, hz, (ht f).2.1⟩

/-- No process changes. -/
theorem puis (m : MoinsGuet s s') (hv : s''.vivant = s'.vivant) (ht : s''.tas = s'.tas) :
    MoinsGuet s s'' := m.trans (.champs hv fun x => by rw [ht]; exact ⟨rfl, rfl, rfl⟩)

theorem note (m : MoinsGuet s s') (e : Evenement) : MoinsGuet s (s'.note e) := m.puis rfl rfl

theorem maj {f : Processus → Processus} (hf : ∀ r, (f r).etat = r.etat ∧
    (f r).contexte = r.contexte ∧ (f r).filsTete = r.filsTete := by exact fun _ => ⟨rfl, rfl, rfl⟩) :
    MoinsGuet s (s.maj p f) := by
  refine champs rfl ?_
  intro x
  rw [Core.tas_maj]
  split
  · next hx => subst hx; exact hf _
  · exact ⟨rfl, rfl, rfl⟩

/-- One process changes, and ends up neither in `waitpid` nor a zombie. -/
theorem un (p : Ptr) (hv : s'.vivant = s.vivant) (ht : ∀ x, x ≠ p → s'.tas x = s.tas x)
    (hp : (s'.tas p).etat ≠ .attendFils) (hp' : (s'.tas p).etat ≠ .zombie) : MoinsGuet s s' := by
  intro f c hf he hc hz
  have hfp : f ≠ p := fun hx => hp (hx ▸ he)
  have hcp : c ≠ p := fun hx => hp' (hx ▸ hz)
  rw [hv] at hf
  rw [Core.fils, ht f hfp] at hc
  rw [ht f hfp] at he ⊢
  rw [ht c hcp] at hz
  exact ⟨hf, he, hc, hz, rfl⟩

theorem eveille {f : Processus → Processus} : MoinsGuet s (s.eveille p f) := by
  refine un p rfl ?_ ?_ ?_
  · intro x hx
    rw [Core.tas_eveille, if_neg hx]
  · rw [Core.tas_eveille, if_pos rfl]
    simp
  · rw [Core.tas_eveille, if_pos rfl]
    simp

theorem active : MoinsGuet s (s.active p) := by
  refine un p rfl ?_ ?_ ?_
  · intro x hx
    rw [Core.tas_active, if_neg hx]
  · rw [Core.tas_active, if_pos rfl]
    simp
  · rw [Core.tas_active, if_pos rfl]
    simp

theorem rejets {sid : Int} {sem : Semaphore} {status : Int}
    (hr : Relation.ReflTransGen (Rejet sid sem status) s s') : MoinsGuet s s' := by
  induction hr with
  | refl => exact refl
  | tail _ hlast ih =>
    obtain ⟨q, hq, rfl⟩ := hlast
    exact (ih.trans eveille).note _

theorem liberation_pas (h : Coherent s) (hl : Liberation s s') : MoinsGuet s s' := by
  obtain ⟨p, adr, n, hp, hn, L⟩ := h.liberation_spec hl
  intro f c hv he hc hz
  have hpl : ∀ {x : Ptr} {e : Etat}, (s'.tas x).etat = e → e ≠ .mourant → (s.tas x).etat = e := by
    intro x e hx hne
    rw [L.etat_eq] at hx
    split at hx
    · exact absurd hx.symm hne
    · exact hx
  rw [L.fils_eq] at hc
  exact ⟨(L.vivant_of hv).2, hpl he (by decide), hc, hpl hz (by decide), (L.champs f).2.2.1⟩

theorem liberation (h : Coherent s) (hl : Relation.ReflTransGen Liberation s s') :
    MoinsGuet s s' := by
  induction hl with
  | refl => exact refl
  | tail hrest hlast ih => exact ih.trans (liberation_pas (h.liberation hrest) hlast)

/-- A process dies and its father is woken. -/
theorem deuil (h : Coherent s) {p pere : Ptr} (hv : s.vivant p = true)
    (hpere : (s.tas p).pere = some pere) {u : Core} (hv₁ : u.vivant = s.vivant)
    (ht : ∀ x, x ≠ p → u.tas x = s.tas x) (hp : (u.tas p).etat = .zombie) :
    MoinsGuet s (u.reveillePere pere) := by
  have hvr : (u.reveillePere pere).vivant = s.vivant := Stable.champs_reveillePere.2.2.trans hv₁
  -- the father is not in `waitpid` any more
  have hper : ((u.reveillePere pere).tas pere).etat ≠ .attendFils := by
    unfold Core.reveillePere
    split
    · rw [Core.tas_active, if_pos rfl]
      simp
    · next hne => exact hne
  have htr : ∀ x, x ≠ pere → (u.reveillePere pere).tas x = u.tas x := by
    intro x hx
    unfold Core.reveillePere
    split
    · rw [Core.tas_active, if_neg hx]
    · rfl
  intro f c hf he hc hz
  have hfp : f ≠ pere := fun hx => hper (hx ▸ he)
  rw [htr f hfp] at he ⊢
  rw [Core.fils, htr f hfp] at hc
  have hfp' : f ≠ p := by
    rintro rfl
    rw [hp] at he
    cases he
  rw [ht f hfp'] at he hc ⊢
  rw [hvr] at hf
  have hcp : c ≠ p := by
    rintro rfl
    have hx := (h.fils f c hf hc).2.1
    rw [hpere] at hx
    exact hfp (Option.some.inj hx).symm
  have hcz : (u.tas c).etat = .zombie := by
    by_cases hx : c = pere
    · subst hx
      unfold Core.reveillePere at hz
      split at hz
      · rw [Core.tas_active, if_pos rfl] at hz
        cases hz
      · exact hz
    · rwa [htr c hx] at hz
  rw [ht c hcp] at hcz
  exact ⟨hf, he, hc, hcz, rfl⟩

end MoinsGuet

namespace Core.Guet

variable {s s' : Core}

-- ---------------------------------------------------------------------------
-- Quiet transitions
-- ---------------------------------------------------------------------------

theorem quiet {l : Etiquette} (h : s.Guet) (hst : Stable s) (he : s.EnCours)
    (q : Quiet l s s') : s'.Guet := by
  have hc := hst.coherent
  have neutre : ∀ {s₁ : Core}, s₁.vivant = s.vivant → s₁.tas = s.tas → s₁.Guet :=
    fun hv ht => h.moins (MoinsGuet.refl.puis hv ht)
  have emet : ∀ (f : File) (v : Int), MoinsGuet s (s.emet f v) :=
    fun f v => MoinsGuet.maj (s := s.note (.emission f.adr s.procElu v))
  have recoit : ∀ (f : File) (m : Nat), MoinsGuet s (s.recoit f m) :=
    fun f m => MoinsGuet.maj (s := s.note (.reception f.adr s.procElu m))
  cases q with
  | alloue hn => exact neutre rfl rfl
  | ecriture adr w => exact neutre rfl rfl
  | attente pid r => exact neutre rfl rfl
  | rendPid hl hn ht =>
    refine h.moins ?_
    intro f c hf hat hcf hz
    dsimp only [Core.fils] at hf hat hcf hz ⊢
    have htf := ht f (hc.ancien f hf)
    rw [htf] at hcf
    have htc := ht c (hc.ancien c (hc.fils f c hf hcf).1)
    rw [htf] at hat
    rw [htc] at hz
    exact ⟨hf, hat, hcf, hz, congrArg Processus.contexte htf⟩
  | @cree _ p r cell reste adr n hl hp hn hpid hetat hctx hfils hprio hret =>
    have C := hc.cree_spec he r reste adr n hp
    refine h.moins ?_
    intro f c hf hat hcf hz
    have hfp : f ≠ p := by
      rintro rfl
      rw [C.nouveau, hetat] at hat
      cases hat
    have hcp : c ≠ p := by
      rintro rfl
      rw [C.nouveau, hetat] at hz
      cases hz
    obtain ⟨-, -, hk, -, -, -, -, hef, -⟩ := C.champs f hfp
    obtain ⟨-, -, -, -, -, -, -, hec, -⟩ := C.champs c hcp
    rw [C.vivant, if_neg hfp] at hf
    rw [hef] at hat
    rw [hec] at hz
    rw [C.fils f hfp, if_neg] at hcf
    · exact ⟨hf, hat, hcf, hz, hk⟩
    · rintro ⟨rfl, -⟩
      rw [he.etat] at hat
      cases hat
  | chprioElu hn hidle => exact h.moins .maj
  | @chprioActivable _ p n hn hv hpid hp he' =>
    exact h.moins ((MoinsGuet.maj (p := p) (f := fun r => { r with prio := n })).puis rfl rfl)
  | @chprioFile _ p n hn hv hpid hp he' =>
    exact h.moins ((MoinsGuet.maj (p := p) (f := fun r => { r with prio := n })).puis rfl rfl)
  | chprioAutre hn hv hpid hp he' _ => exact h.moins .maj
  | @tueZombie _ p pere t hpid hp hz hm ht hpere =>
    refine h.moins (.deuil hc (hc.lie p t ht) hpere (u := ((s.note (.tue p)).retire p).maj p
      fun r => { r with etat := .zombie }) rfl ?_ ?_)
    · intro x hx
      rw [Core.tas_maj, if_neg hx]
      rfl
    · rw [Core.tas_maj, if_pos rfl]
  | @tueMourant _ p t hpid hp hz hm ht hpere =>
    refine h.moins (.un p rfl ?_ ?_ ?_)
    · intro x hx
      simp [hx]
    · simp
    · simp
  | @recolte _ c l hcf hz hl =>
    have R := hc.recolte_spec he hcf hz hl
    refine h.moins ?_
    intro f x hf hat hxf hxz
    have hfe : f ≠ s.procElu := by
      rintro rfl
      rw [R.etat, if_neg (Coherent.ne_procElu_of_zombie he hz).symm, he.etat] at hat
      cases hat
    rw [R.fils, if_neg hfe] at hxf
    rw [R.etat] at hat hxz
    split at hat
    · cases hat
    split at hxz
    · cases hxz
    exact ⟨hf, hat, hxf, hxz, (R.champs f).2.2.1⟩
  | liberation hlib hvide => exact h.moins (.liberation hc hlib)
  | reveil hp => exact h.moins .eveille
  | reveilEs hp => exact h.moins .eveille
  | creeFile hl hfid h0 hN hn hadr hm => exact neutre rfl rfl
  | echec hf hp => exact h.moins (MoinsGuet.eveille.note _)
  | vide hf hp => exact neutre rfl rfl
  | supprimeFile hf hp hn => exact neutre rfl rfl
  | @remis _ fid v f p hidle hf hvide hp =>
    exact h.moins ((((emet f v).trans .eveille).note _).note _)
  | @depose _ fid v f adr n hidle hf hnon hlt hn => exact h.moins ((emet f v).puis rfl rfl)
  | @prend _ fid f l msg m hidle hf hl hp => exact h.moins ((recoit f m).puis rfl rfl)
  | @relaye _ fid f l msg p adr m n hidle hf hl hp hn =>
    refine h.moins (MoinsGuet.trans ?_ .eveille)
    exact (recoit f m).puis rfl rfl
  | creeSem hl hsid hcount hsem hadr hfrais hm => exact neutre rfl rfl
  | rendSid hl hn => exact neutre rfl rfl
  | sdelete hs hr hp hn hb => exact h.moins ((MoinsGuet.rejets hr).puis rfl rfl)
  | sreset hs hr hp h0 hcount hb => exact h.moins ((MoinsGuet.rejets hr).puis rfl rfl)
  | signale hs hmax hpos => exact neutre rfl rfl
  | @signaleReveil _ sid sem p hs hmax hneg hp =>
    have m : MoinsGuet s ((s.majSem sid (some (sem.setCount (sem.count + 1)))).note
        (.semUnite sem.adr s.procElu)) := MoinsGuet.refl.puis rfl rfl
    exact h.moins ((m.trans .eveille).note _)
  | prendSem hs hpos => exact neutre rfl rfl

-- ---------------------------------------------------------------------------
-- Exit transitions and election
-- ---------------------------------------------------------------------------

theorem empile {k : Reprise} (h : s.Guet) (hw : (s.tas s.procElu).etat ≠ .attendFils) :
    (s.empile k).Guet := by
  refine h.moins ?_
  intro f c hf hat hcf hz
  by_cases hfe : f = s.procElu
  · subst hfe
    refine absurd ?_ hw
    simpa [Core.empile] using hat
  · have htf : (s.empile k).tas f = s.tas f := by simp [Core.empile, hfe]
    rw [htf] at hat ⊢
    rw [Core.fils, htf] at hcf
    refine ⟨hf, hat, hcf, ?_, rfl⟩
    by_cases hce : c = s.procElu
    · subst hce
      simpa [Core.empile] using hz
    · simpa [Core.empile, hce] using hz

/-- The elected process blocks in `waitpid` with the return point `k`, none of
the children it waits for being a zombie. -/
theorem attend {k : Reprise} (h : s.Guet)
    (hk : ∀ c ∈ s.fils s.procElu, (s.tas c).etat = .zombie →
      ∃ pid c' r, k = .waitpid pid c' r ∧ c' ≠ c) :
    ((s.maj s.procElu fun r => { r with etat := .attendFils }).empile k).Guet := by
  have htas : ∀ x, ((s.maj s.procElu fun r => { r with etat := .attendFils }).empile k).tas x =
      if x = s.procElu then { s.tas s.procElu with etat := .attendFils, contexte := k }
      else s.tas x := by
    intro x
    by_cases hx : x = s.procElu <;> simp [Core.empile, hx]
  intro f c hf hat hcf hz
  have hce : c ≠ s.procElu := by
    rintro rfl
    rw [htas, if_pos rfl] at hz
    cases hz
  rw [htas, if_neg hce] at hz
  rw [htas]
  split
  · next hfe =>
    subst hfe
    rw [Core.fils, htas, if_pos rfl] at hcf
    exact hk c hcf hz
  · next hfe =>
    rw [Core.fils, htas, if_neg hfe] at hcf
    rw [htas, if_neg hfe] at hat
    exact h f c hf hat hcf hz

theorem sortie {m : Motif} {k : Reprise} (h : s.Guet) (hst : Stable s) (he : s.EnCours)
    (hsuicide : m = .suicide → ¬ s.Attendu s.procElu) (q : Sortie m k s s') :
    (s'.empile k).Guet := by
  have hc := hst.coherent
  -- a process that ends up neither in `waitpid` nor a zombie
  have autre : ∀ {s₁ : Core}, s₁.vivant = s.vivant → s₁.procElu = s.procElu →
      (∀ x, x ≠ s.procElu → s₁.tas x = s.tas x) → (s₁.tas s.procElu).etat ≠ .attendFils →
      (s₁.tas s.procElu).etat ≠ .zombie → (s₁.empile k).Guet := by
    intro s₁ hv helu ht hw hz
    exact (h.moins (.un s.procElu hv ht hw hz)).empile (by rw [helu]; exact hw)
  cases q with
  | suspend hk =>
    refine h.empile ?_
    rw [he.etat]
    decide
  | endort hidle => exact autre rfl rfl (fun x hx => by simp [hx]) (by simp) (by simp)
  | emission hidle hf hnon hplein =>
    refine autre rfl rfl (fun x hx => ?_) ?_ ?_
    · simp [Core.bloqueFile, Core.emet, hx]
    · simp [Core.bloqueFile, Core.emet]
    · simp [Core.bloqueFile, Core.emet]
  | reception hidle hf hvide =>
    refine autre rfl rfl (fun x hx => ?_) ?_ ?_
    · simp [Core.bloqueFile, Core.recoit, hx]
    · simp [Core.bloqueFile, Core.recoit]
    · simp [Core.bloqueFile, Core.recoit]
  | wait hidle hs hmin hneg => exact autre rfl rfl (fun x hx => by simp [hx]) (by simp) (by simp)
  | consRead hidle => exact autre rfl rfl (fun x hx => by simp [hx]) (by simp) (by simp)
  | @waitpid _ pid c retvalp hidle hcf hpid h0 hz =>
    refine h.attend ?_
    intro x _ hxz
    refine ⟨pid, c, retvalp, rfl, ?_⟩
    rintro rfl
    exact hz hxz
  | waitpidFils hidle hne hz h0 =>
    refine h.attend ?_
    intro x hx hxz
    exact absurd hxz (hz x hx)
  | @exitZombie _ v pere hidle hpere =>
    refine (h.moins (.deuil hc he.vivant hpere (u := (((s.maj s.procElu
      fun r => { r with retval := v }).note (.exit s.procElu v)).maj s.procElu
        fun r => { r with etat := .zombie })) rfl ?_ ?_)).empile ?_
    · intro x hx
      simp [hx]
    · simp
    · rw [Stable.champs_reveillePere.1, Stable.tas_reveillePere] <;> simp
  | exitMourant hidle hpere => exact autre rfl rfl (fun x hx => by simp [hx]) (by simp) (by simp)
  | @suicideZombie _ pere hidle hpere =>
    refine Core.Guet.empile ?_ (by simp)
    have htas : ∀ x, x ≠ s.procElu → ((s.note (.tue s.procElu)).maj s.procElu
        fun r => { r with etat := .zombie }).tas x = s.tas x := by
      intro x hx
      simp [hx]
    intro f c hf hat hcf hz
    have hfe : f ≠ s.procElu := by
      rintro rfl
      simp at hat
    rw [htas f hfe] at hat ⊢
    rw [Core.fils, htas f hfe] at hcf
    by_cases hce : c = s.procElu
    · -- the father of the dying process waits for another child
      subst hce
      have hfp := (hc.fils f _ hf hcf).2.1
      rcases (hc.suspendu f hf).fils hat with ⟨pid, c', r, hk⟩ | ⟨pid, r, hk⟩
      · refine ⟨pid, c', r, hk, ?_⟩
        rintro rfl
        exact hsuicide rfl ⟨f, hfp, hat, .inl ⟨pid, r, hk⟩⟩
      · exact absurd ⟨f, hfp, hat, .inr ⟨pid, r, hk⟩⟩ (hsuicide rfl)
    · rw [htas c hce] at hz
      exact h f c hf hat hcf hz
  | suicideMourant hidle hpere =>
    exact autre rfl rfl (fun x hx => by simp [hx]) (by simp) (by simp)

theorem election (h : s.Guet) (hst : Stable s) (hvide : s.elems .procMourants = [])
    (hna : (s.tas s.procElu).etat ≠ .activable) (hel : Election s s') : s'.Guet := by
  cases hel with
  | aucune _ => exact h
  | @elit p hv hp =>
    have D := hst.depose hv hna hvide
    have m : MoinsGuet s s.depose := by
      intro f c hf hat hcf hz
      have hetat : ∀ x, (s.depose.tas x).etat ≠ .activable → (s.depose.tas x).etat = (s.tas x).etat := by
        intro x hx
        rcases D.etat x with hd | ⟨-, -, hd⟩
        · exact hd
        · exact absurd hd hx
      rw [D.vivant] at hf
      rw [Core.fils, D.champs f] at hcf
      rw [← hetat f (by rw [hat]; decide), ← hetat c (by rw [hz]; decide)]
      exact ⟨hf, hat, hcf, hz, by rw [D.champs f]⟩
    refine h.moins (m.trans (.un p rfl ?_ ?_ ?_))
    · intro x hx
      simp [Core.elit, hx]
    · simp [Core.elit]
    · simp [Core.elit]

/-- Every transition keeps the watch, if nobody waits for a process that kills
itself. -/
theorem conserve {C : Cadre} (hC : ∀ s : Core, C.meurt .suicide s → ¬ s.Attendu s.procElu) :
    Conserve C Core.Guet where
  quiet hst he h _ q := h.quiet hst he q
  sortie {m} {k} {s} {s'} hst he h hm q := by
    refine h.sortie hst he ?_ q
    rintro rfl
    exact hC s (hm (by decide))
  libere hc h hl := h.moins (.liberation_pas hc hl)
  election hst hvide hna h hel := h.election hst hvide hna hel
  retour _ _ _ h := h

/-- Popping the return point of a process just elected. -/
theorem depile (h : s.Guet) (he : s.Elu) {k : Reprise} : (s.empile k).Guet := by
  refine h.empile ?_
  rw [he.etat]
  decide

end Core.Guet

end GenesisOS
