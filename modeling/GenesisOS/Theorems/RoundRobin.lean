import GenesisOS.Invariants.Queues
import GenesisOS.Theorems.Reaping
import Mathlib.Data.List.Rotate

/-!
# GenesisOS — equal priorities share the processor in turn

When no activable process is stronger than the elected one, a call of
`ordonnanceur` puts the elected process behind the activable ones of its
priority and elects the one of them that arrived first. `Tournant s bas pairs`
is what each call finds: `pairs`, in the order of their arrival, and the
processes `bas` of smaller priority, which the calls leave where they are. As
many calls as there are processes in `pairs`, and one more, come back to the
elected process and to the same list.
-/

namespace GenesisOS

open Lib

/-- The activable processes of the priority of the elected one, in the order of
their arrival. -/
def Core.pairs (s : Core) : List Ptr :=
  ((s.elems .procActivables).filter fun p => (s.tas p).prio = (s.tas s.procElu).prio).reverse

/-- What `check_canary` checks. -/
def Kernel.CanariIntact (s : Kernel) (p : Ptr) : Prop :=
  motA s.memoire (s.tas p).pileUser = CANARY_VALUE_A ∧
    motA s.memoire ((s.tas p).pileUser + 4 * ((s.tas p).pileSizeUser / 4 - 1)) = CANARY_VALUE_A

instance (s : Kernel) (p : Ptr) : Decidable (s.CanariIntact p) := inferInstanceAs (Decidable (_ ∧ _))

/-- Successive calls of `ordonnanceur`, with the process each one elects. -/
def elections : List Reprise → M (List Ptr)
  | [] => pure []
  | k :: ks => do
    ordonnanceur k
    let s ← get
    let l ← elections ks
    pure (s.procElu :: l)

-- ---------------------------------------------------------------------------
-- An election leaves user memory alone
-- ---------------------------------------------------------------------------

section

variable {E : Faute → Prop} {α : Type} {l : Lieu} {p : Ptr} {t : Tete}

theorem memoire_lire (h : E (.accesLibere l)) : Keeps E Kernel.memoire (lire l p) :=
  .of_bind .of_get fun _ => .of_ite (.of_pure _) (.of_throw h)

theorem memoire_surCore (f : Core → Core) : Keeps E Kernel.memoire (surCore f) := fun _ => rfl

theorem memoire_ecrire {f : Processus → Processus} (h : E (.accesLibere l)) :
    Keeps E Kernel.memoire (ecrire l p f) :=
  .of_bind .of_get fun _ => .of_ite (memoire_surCore _) (.of_throw h)

theorem memoire_queueAdd {cle : Processus → Int} (h : E (.assertion .queueAdd)) :
    Keeps E Kernel.memoire (queueAdd p t cle) :=
  .of_bind .of_get fun _ => .of_ite (memoire_surCore _) (.of_throw h)

theorem memoire_queueOut : Keeps E Kernel.memoire (queueOut t) := by
  refine .of_bind .of_get fun s => ?_
  cases s.chainage.top t with
  | none => exact .of_pure _
  | some p => exact .of_bind (memoire_surCore _) fun _ => .of_pure _

theorem memoire_rangeActuel : Keeps (fun _ => True) Kernel.memoire (rangeActuel p) := by
  refine .of_bind (memoire_lire trivial) fun r => ?_
  cases r.etat
  case mourant => exact memoire_queueAdd trivial
  case elu | activable =>
    exact .of_bind (memoire_ecrire trivial) fun _ => memoire_queueAdd trivial
  all_goals exact .of_pure _

theorem memoire_prendSuivant : Keeps (fun _ => True) Kernel.memoire prendSuivant := by
  refine .of_bind memoire_queueOut fun o => ?_
  cases o with
  | none => exact .of_throw trivial
  | some p => exact .of_bind (memoire_ecrire trivial) fun _ => memoire_surCore _

end

-- ---------------------------------------------------------------------------
-- Freeing and electing
-- ---------------------------------------------------------------------------

section

variable {E : Faute → Prop} {s : Kernel} {p : Ptr} {k : Reprise} {bas pairs : List Ptr}

/-- The fields of a process that `ordonnanceur` reads and never writes. -/
def Processus.fixes (r : Processus) : Int × PileUser := (r.prio, r.pile)

/-- Freeing the dead leaves the elected process and these fields alone. -/
theorem Coherent.elu_liberation {s s' : Core} (h : Coherent s) (he : s.Elu)
    (hl : Relation.ReflTransGen Liberation s s') :
    s'.Elu ∧ s'.procIdle = s.procIdle ∧ ∀ x, (s'.tas x).fixes = (s.tas x).fixes := by
  induction hl with
  | refl => exact ⟨he, rfl, fun _ => rfl⟩
  | @tail s₁ s' hrest hlast ih =>
    obtain ⟨q, adr, n, hq, hn, L⟩ := (h.liberation hrest).liberation_spec hlast
    obtain ⟨he₁, hidle, hfixes⟩ := ih
    have hne : s₁.procElu ≠ q := by
      intro hx
      have hetat : (s₁.tas q).etat = .mourant := (h.liberation hrest).etat_of_lien hq
      rw [← hx, he₁.etat] at hetat
      cases hetat
    refine ⟨⟨?_, ?_⟩, L.idle.trans hidle, fun x => Eq.trans ?_ (hfixes x)⟩
    · rw [L.elu, L.vivant, if_neg hne]
      exact he₁.vivant
    · rw [L.elu, L.etat_eq, if_neg]
      · exact he₁.etat
      · rintro ⟨-, hz⟩
        rw [he₁.etat] at hz
        cases hz
    · rw [L.tas]
      split
      · split <;> rfl
      · rfl

/-- Without dying processes, `free_mourant_queue` does nothing. -/
theorem freeMourantQueue_vide (h : s.elems .procMourants = []) :
    freeMourantQueue s = .ok ((), s) := by
  have hout : queueOut .procMourants s = .ok (none, s) :=
    queueOut_vide (List.getLast?_eq_none_iff.mpr h)
  show freeMourantQueue.tours s.prochain s = _
  cases s.prochain with
  | zero =>
    simp only [freeMourantQueue.tours, bind, StateT.bind, hout, Except.bind]
    rfl
  | succ n =>
    simp only [freeMourantQueue.tours, bind, StateT.bind, hout, Except.bind]
    rfl

/-- The canaries are checked in memory at addresses `ordonnanceur` never changes. -/
theorem Kernel.canariIntact_congr {s' : Kernel} (hm : s'.memoire = s.memoire)
    (hf : (s'.tas p).pile = (s.tas p).pile) : s'.CanariIntact p ↔ s.CanariIntact p := by
  have hpile : (s'.tas p).pileUser = (s.tas p).pileUser := congrArg PileUser.zone hf
  have htaille : (s'.tas p).pileSizeUser = (s.tas p).pileSizeUser := congrArg PileUser.length hf
  unfold Kernel.CanariIntact
  rw [hm, hpile, htaille]

section

variable {g : Processus → Processus}

/-- Other fields of a process do not matter to `check_canary`. -/
theorem Kernel.canariIntact_maj {q : Ptr} (hpile : ∀ r, (g r).pile = r.pile) :
    ({ s with toCore := s.toCore.maj q g } : Kernel).CanariIntact p ↔ s.CanariIntact p :=
  Kernel.canariIntact_congr rfl (Core.champ_maj (g := Processus.pile) hpile p)

/-- Nor to `free_mourant_queue`. -/
theorem Kernel.entrave_maj {f : Faute} (hfils : ∀ r, (g r).filsTete = r.filsTete)
    (hetat : ∀ r, (g r).etat = r.etat) (hpile : ∀ r, (g r).pile = r.pile) :
    ({ s with toCore := s.toCore.maj p g } : Kernel).Entrave f ↔ s.Entrave f := by
  have hf := fun x => Core.champ_maj (s := s.toCore) (p := p) (g := Processus.filsTete) hfils x
  have he := fun x => Core.champ_maj (s := s.toCore) (p := p) (g := Processus.etat) hetat x
  have hp := fun x => Core.champ_maj (s := s.toCore) (p := p) (g := Processus.pile) hpile x
  exact ⟨fun h => h.congr rfl rfl rfl rfl (fun x => ⟨hf x, he x⟩) hp, fun h =>
    h.congr (s := { s with toCore := s.toCore.maj p g }) rfl rfl rfl rfl
      (fun x => ⟨(hf x).symm, (he x).symm⟩) fun x => (hp x).symm⟩

end

theorem canariIntact_empile :
    ({ s with toCore := s.toCore.empile k } : Kernel).CanariIntact p ↔ s.CanariIntact p :=
  Kernel.canariIntact_maj fun _ => rfl

theorem entrave_empile {f : Faute} :
    ({ s with toCore := s.toCore.empile k } : Kernel).Entrave f ↔ s.Entrave f :=
  Kernel.entrave_maj (fun _ => rfl) (fun _ => rfl) fun _ => rfl

/-- A process that is not freed keeps its canaries. -/
theorem Moisson.canariIntact {l : List Ptr} {s' : Kernel} {d : Multiset (Ptr × Nat)}
    (m : Moisson s l s') (hF : Foret s) (hb : Bilan s.avoirs d) (hl : ∀ q ∈ l, s.ALiberer q)
    (hne : ∀ q ∈ l, q ≠ s.procIdle) (hv : s.vivant p = true) (hp : p ≠ s.procIdle)
    (hpl : p ∉ l) : s'.CanariIntact p ↔ s.CanariIntact p := by
  have hpile : (s.tas p).pile ∈ s.tasUser.blocs := hb.piles.alloue p hv hp
  have hautres : ∀ q ∈ l, (s.tas q).pile ∈ s.tasUser.blocs ∧ (s.tas q).pile ≠ (s.tas p).pile :=
    fun q hq => ⟨hF.pile q (hl q hq), fun heq => hpl (hb.piles.distinctes q p
      (hF.vivant (hl q hq)) (hne q hq) hv hp heq ▸ hq)⟩
  obtain ⟨-, hz, -⟩ := s.tasUser.loges _ hpile
  have hdeb : (s.tas p).pile.debut + 8 = (s.tas p).pileUser :=
    Nat.sub_add_cancel ((Nat.le_add_left _ _).trans hz)
  have hfin : (s.tas p).pile.fin =
      (s.tas p).pile.debut + 4 * (((s.tas p).pileSizeUser + 3) / 4 + 4) := rfl
  have hchamps := (m.champs p).2.2.1
  have huser : (s'.tas p).pileUser = (s.tas p).pileUser := congrArg PileUser.zone hchamps
  have htaille : (s'.tas p).pileSizeUser = (s.tas p).pileSizeUser :=
    congrArg PileUser.length hchamps
  unfold Kernel.CanariIntact
  rw [huser, htaille, m.motA hpile hautres (by omega) (by omega),
    m.motA hpile hautres (by omega) (by omega)]

/-- `free_mourant_queue` before an election: the canaries of the others are kept. -/
theorem wp_freeMourantQueue_canaris (h : Stable s.toCore)
    (hb : s.elems .procMourants ≠ [] → ∃ d, Bilan s.avoirs d) (hE : ∀ f, s.Entrave f → E f) :
    wp E freeMourantQueue (fun _ s' => Relation.ReflTransGen Liberation s.toCore s'.toCore ∧
      s'.elems .procMourants = [] ∧ (∀ f, ¬ s.Entrave f) ∧ ∀ p, s.vivant p = true →
        p ≠ s.procIdle → ¬ s.ALiberer p → (s'.CanariIntact p ↔ s.CanariIntact p)) s := by
  by_cases hvide : s.elems .procMourants = []
  · unfold wp
    rw [freeMourantQueue_vide hvide]
    exact ⟨.refl, hvide, fun f hf => hf.mourants hvide, fun p _ _ _ => Iff.rfl⟩
  · obtain ⟨d, hd⟩ := hb hvide
    have hF := h.foret hd
    have hwp := wp_inter (wp_freeMourantQueue_moisson (R := fun _ s' => (∀ f, ¬ s.Entrave f) ∧
        ∀ p, s.vivant p = true → p ≠ s.procIdle → ¬ s.ALiberer p →
          (s'.CanariIntact p ↔ s.CanariIntact p)) hF ?_)
      (wp_freeMourantQueue (C := {}) (R := fun _ s' =>
        Relation.ReflTransGen Liberation s.toCore s'.toCore ∧ s'.elems .procMourants = [])
        h.coherent fun _ hl hv => ⟨hl, hv⟩)
    · exact wp_mono hwp (fun f hf => hE f hf.1) fun _ s' ⟨⟨hs, hc⟩, hl, hv⟩ => ⟨hl, hv, hs, hc⟩
    · intro l s' m o htous _ hsans
      exact ⟨hsans, fun p hv hp hna => m.canariIntact hF hd o.aLiberer
        (fun q hq => h.coherent.aLiberer_ne_idle (o.aLiberer q hq)) hv hp
        fun hpl => hna ((htous p).mp hpl)⟩

theorem wp_checkCanary_intact {Q : Bool → Kernel → Prop} (hv : s.vivant p = true)
    (hc : s.CanariIntact p) (h : Q true s) : wp E (checkCanary p) Q s := by
  simp only [checkCanary, wp_bind]
  refine wp_lire hv ?_
  rw [wp_get, wp_pure, decide_eq_true (show _ ∧ _ from hc)]
  exact h

theorem wp_checkCanary_corrompu {Q : Bool → Kernel → Prop} (hv : s.vivant p = true)
    (hc : ¬ s.CanariIntact p) (h : Q false s) : wp E (checkCanary p) Q s := by
  unfold Kernel.CanariIntact at hc
  simp only [checkCanary, wp_bind]
  refine wp_lire hv ?_
  rw [wp_get, wp_pure, decide_eq_false hc]
  exact h

/-- With an intact canary, the processor goes to another process. -/
theorem wp_commute_intact (h : Stable s.toCore) (hv : s.vivant s.procElu = true)
    (hna : (s.tas s.procElu).etat ≠ .activable) (hvide : s.elems .procMourants = [])
    (hact : s.elems .procActivables ≠ [])
    (hcan : s.procElu ≠ s.procIdle → s.CanariIntact s.procElu) :
    wp E commute (fun _ s' => Election s.toCore s'.toCore ∧ s'.memoire = s.memoire) s := by
  have D := h.depose hv hna hvide
  have suite : wp E (rangeActuel s.procElu >>= fun _ => prendSuivant)
      (fun _ s' => Election s.toCore s'.toCore ∧ s'.memoire = s.memoire) s := by
    rw [wp_bind]
    refine wp_imp (wp_and (wp_rangeActuel (R := fun _ s₁ => s₁.toCore = s.toCore.depose)
      h hvide hv hna fun _ h₁ => h₁) (memoire_rangeActuel s)) ?_
    rintro _ s₁ ⟨h₁, hm₁⟩
    refine wp_imp (wp_and (wp_prendSuivant (R := fun _ s₂ => Election s.toCore s₂.toCore)
      (by rw [h₁]; exact D.stable.coherent) ?_ ?_) (memoire_prendSuivant s₁)) ?_
    · rw [show s₁.elems .procActivables = s.toCore.depose.elems .procActivables by rw [h₁]]
      exact h.actifs_depose D hna hact
    · intro p s₂ hp h₂
      rw [h₁] at hp h₂
      rw [h₂]
      exact .elit hv hp
    · rintro _ s₂ ⟨hel, hm₂⟩
      exact ⟨hel, hm₂.trans hm₁⟩
  simp only [commute, wp_bind, wp_get]
  by_cases hi : s.procElu = s.procIdle
  · simp only [hi, ne_eq, not_true_eq_false, if_false]
    simpa only [hi, wp_bind] using suite
  · simp only [ne_eq, hi, not_false_eq_true, if_true, wp_bind]
    refine wp_checkCanary_intact hv (hcan hi) ?_
    simpa only [wp_bind, if_true, wp_pure] using suite

/-- The check of the canary decides whether the processor goes to another process. -/
theorem wp_commute_canari (h : Stable s.toCore) (hv : s.vivant s.procElu = true)
    (hna : (s.tas s.procElu).etat ≠ .activable) (hvide : s.elems .procMourants = [])
    (hact : s.elems .procActivables ≠ []) (hi : s.procElu ≠ s.procIdle)
    (hE : ¬ s.CanariIntact s.procElu → E .panique) :
    wp E commute (fun _ _ => s.CanariIntact s.procElu) s := by
  by_cases hcan : s.CanariIntact s.procElu
  · exact wp_imp (wp_commute_intact h hv hna hvide hact fun _ => hcan) fun _ _ _ => hcan
  · simp only [commute, wp_bind, wp_get, ne_eq, hi, not_false_eq_true, if_true]
    exact wp_checkCanary_corrompu hv hcan (hE hcan)

/-- Called by a running process, `ordonnanceur` ends exactly when the dead can be freed
and the canary is intact. -/
theorem ordonnanceur_ok {d : Multiset (Ptr × Nat)} (h : Stable (s.toCore.empile k))
    (hb : Bilan s.avoirs d) (he : s.toCore.Elu) (hi : s.procElu ≠ s.procIdle)
    (hact : s.elems .procActivables ≠ []) : (∃ s', ordonnanceur k s = .ok ((), s')) ↔
      (∀ f, ¬ s.Entrave f) ∧ s.CanariIntact s.procElu := by
  have hetat : ((s.toCore.empile k).tas s.procElu).etat = .elu :=
    (Core.champ_maj (f := fun r => { r with contexte := k }) (g := Processus.etat)
      (fun _ => rfl) _).trans he.etat
  have hwp : wp (fun f => s.Entrave f ∨ ¬ s.CanariIntact s.procElu) (ordonnanceur k)
      (fun _ _ => (∀ f, ¬ s.Entrave f) ∧ s.CanariIntact s.procElu) s := by
    simp only [ordonnanceur, ecrire, surCore, wp_bind, wp_get, he.vivant, if_true, wp_modify]
    refine wp_imp (wp_freeMourantQueue_canaris (s := { s with toCore := s.toCore.empile k }) h
      (fun _ => ⟨d, by rw [Kernel.avoirs_empile]; exact hb⟩) fun f hf =>
        .inl (entrave_empile.mp hf)) ?_
    rintro _ s₂ ⟨hl, hvide, hsans, hc₂⟩
    have hst₂ : Stable s₂.toCore := ⟨h.coherent.liberation hl,
      (h.coherent.liberation hl).orphelins_of_vide hvide⟩
    obtain ⟨helems, helu, -⟩ := h.coherent.liberation_reste hl
    obtain ⟨he₂, hidle, -⟩ := h.coherent.elu_liberation ⟨he.vivant, hetat⟩ hl
    have helu : s₂.procElu = s.procElu := helu
    have hidle : s₂.procIdle = s.procIdle := hidle
    -- the caller is not freed, and its canary is what it was
    have hcan : s₂.CanariIntact s₂.procElu ↔ s.CanariIntact s.procElu := by
      rw [helu]
      refine (hc₂ s.procElu he.vivant hi fun hal => ?_).trans canariIntact_empile
      rcases (h.coherent.aLiberer hal).2 with hx | hx <;>
        · rw [hetat] at hx
          cases hx
    have hact₂ : s₂.elems .procActivables ≠ [] := by
      rw [show s₂.elems .procActivables = s.elems .procActivables from helems _ (by simp)]
      exact hact
    simp only [queueEmpty, wp_bind, wp_get, wp_pure]
    rw [if_neg (by simpa using hact₂)]
    have hna : (s₂.tas s₂.procElu).etat ≠ .activable := by
      rw [he₂.etat]
      decide
    refine wp_imp (wp_commute_canari hst₂ he₂.vivant hna hvide hact₂ (by rw [helu, hidle]; exact hi)
      fun hx => .inr fun hy => hx (hcan.mpr hy)) fun _ _ hy =>
        ⟨fun f hf => hsans f (entrave_empile.mpr hf), hcan.mp hy⟩
  constructor
  · rintro ⟨s', hs'⟩
    exact wp_ok hwp hs'
  · rintro ⟨hsans, hcan⟩
    cases hr : ordonnanceur k s with
    | error f => exact (wp_error hwp hr).elim (fun hf => absurd hf (hsans f)) fun hx => absurd hcan hx
    | ok r => exact ⟨r.2, rfl⟩

-- ---------------------------------------------------------------------------
-- One election
-- ---------------------------------------------------------------------------

/-- Among processes of the greatest priority, the elected one goes behind the
others and the first of them is elected. -/
theorem Election.tourne {s s' : Core} (h : Stable s) (he : s.Elu)
    (hvide : s.elems .procMourants = [])
    (hf : s.elems .procActivables = bas ++ pairs.reverse)
    (hbas : ∀ p ∈ bas, (s.tas p).prio < (s.tas s.procElu).prio)
    (hpairs : ∀ p ∈ pairs, (s.tas p).prio = (s.tas s.procElu).prio) (hel : Election s s') :
    (∃ p ps, pairs ++ [s.procElu] = p :: ps ∧ s'.procElu = p ∧
      s'.elems .procActivables = bas ++ ps.reverse) ∧ s'.elems .procMourants = [] ∧
        s'.procIdle = s.procIdle ∧ ∀ x, (s'.tas x).fixes = (s.tas x).fixes := by
  have hlibre : s.lien s.procElu = none := by
    have hpl := h.coherent.place _ he.vivant
    unfold Core.Place at hpl
    rw [he.etat] at hpl
    exact hpl.2
  cases hel with
  | aucune hnil =>
    rw [hf, List.append_eq_nil_iff, List.reverse_eq_nil_iff] at hnil
    obtain ⟨rfl, rfl⟩ := hnil
    exact ⟨⟨_, _, rfl, rfl, hf⟩, hvide, rfl, fun _ => rfl⟩
  | @elit p hv hp =>
    have hdep : s.depose = s.active s.procElu := by
      unfold Core.depose
      rw [he.etat]
    have hfile : s.depose.elems .procActivables = bas ++ (pairs ++ [s.procElu]).reverse := by
      have hkey : (fun x => ((s.maj s.procElu fun r => { r with etat := .activable }).tas x).prio) =
          fun x => (s.tas x).prio :=
        funext fun x => Core.prio_maj (f := fun r => { r with etat := .activable }) (fun _ => rfl) x
      have hins : (s.active s.procElu).elems .procActivables =
          insertByKey (fun x => (s.tas x).prio) s.procElu (s.elems .procActivables) := by
        rw [← hkey]
        exact (LinkedQueues.elems_add hlibre).trans (if_pos rfl)
      rw [hdep, hins, hf, insertByKey_append hbas fun x hx =>
        (hpairs x (List.mem_reverse.mp hx)).ge, List.reverse_append]
      rfl
    have hmort : s.depose.elems .procMourants = s.elems .procMourants := by
      rw [hdep]
      exact Core.elems_active_of_ne (by simp)
    have hfixes : ∀ x, ((s.depose.elit p).tas x).fixes = (s.tas x).fixes := by
      intro x
      refine (Core.champ_maj (s := s.depose.retire p) (f := fun r => { r with etat := .elu })
        (g := Processus.fixes) (fun _ => rfl) x).trans ?_
      rw [Core.retire_tas, hdep]
      exact Core.champ_maj (s := s) (f := fun r => { r with etat := .activable })
        (g := Processus.fixes) (fun _ => rfl) x
    have hlien := LinkedQueues.link_of_top hp
    refine ⟨?_, (Core.elems_elit hlien (by simp)).trans (hmort.trans hvide), ?_, hfixes⟩
    · -- the top of the list is the first of the cycle
      obtain ⟨q, qs, hq⟩ : ∃ q qs, pairs ++ [s.procElu] = q :: qs :=
        List.exists_cons_of_ne_nil (by simp)
      have htop : s.depose.chainage.top .procActivables = some q := by
        show (s.depose.elems .procActivables).getLast? = some q
        rw [hfile, hq, List.reverse_cons, ← List.append_assoc, List.getLast?_concat]
      obtain rfl : q = p := Option.some.inj (htop.symm.trans hp)
      refine ⟨q, qs, hq, rfl, ?_⟩
      have hrem := LinkedQueues.elems_remove_top hp
      have hrem : s.depose.elems .procActivables =
          (s.depose.elit q).elems .procActivables ++ [q] := hrem
      rw [hfile, hq, List.reverse_cons, ← List.append_assoc] at hrem
      exact (List.append_cancel_right hrem).symm
    · show s.depose.procIdle = _
      rw [hdep]
      rfl

-- ---------------------------------------------------------------------------
-- One call
-- ---------------------------------------------------------------------------

/-- `pairs` have the priority of the elected process, in the order of arrival,
and the other activable processes a smaller one; canaries are intact. -/
structure Tournant (s : Kernel) (bas pairs : List Ptr) : Prop where
  stable : Stable s.toCore
  elu : s.toCore.Elu
  file : s.elems .procActivables = bas ++ pairs.reverse
  moindres : ∀ p ∈ bas, (s.tas p).prio < (s.tas s.procElu).prio
  egaux : ∀ p ∈ pairs, (s.tas p).prio = (s.tas s.procElu).prio
  canaris : ∀ p ∈ pairs ++ [s.procElu], p ≠ s.procIdle → s.CanariIntact p

/-- The situation only depends on the list, on the canaries and on fields that
`ordonnanceur` never writes. -/
theorem Tournant.apres {s' : Kernel} {ps : List Ptr} (h : Tournant s bas pairs)
    (hst : Stable s'.toCore) (he : s'.toCore.Elu) (hcycle : pairs ++ [s.procElu] = s'.procElu :: ps)
    (hf : s'.elems .procActivables = bas ++ ps.reverse) (hidle : s'.procIdle = s.procIdle)
    (hfixes : ∀ x, (s'.tas x).fixes = (s.tas x).fixes)
    (hcan : ∀ p ∈ pairs ++ [s.procElu], p ≠ s.procIdle → s'.CanariIntact p) :
    Tournant s' bas ps := by
  have hprio : ∀ x, (s'.tas x).prio = (s.tas x).prio := fun x => congrArg Prod.fst (hfixes x)
  have hegal : ∀ p ∈ pairs ++ [s.procElu], (s.tas p).prio = (s.tas s.procElu).prio := by
    intro p hp
    rcases List.mem_append.mp hp with hp | hp
    · exact h.egaux p hp
    · rw [List.mem_singleton.mp hp]
  have helu : (s.tas s'.procElu).prio = (s.tas s.procElu).prio :=
    hegal _ (hcycle ▸ List.mem_cons_self)
  refine ⟨hst, he, hf, fun p hp => ?_, fun p hp => ?_, fun p hp hpi => hcan p ?_ (hidle ▸ hpi)⟩
  · rw [hprio, hprio, helu]
    exact h.moindres p hp
  · rw [hprio, hprio, helu]
    exact hegal p (hcycle ▸ List.mem_cons_of_mem _ hp)
  · rw [hcycle]
    rcases List.mem_append.mp hp with hp | hp
    · exact List.mem_cons_of_mem _ hp
    · rw [List.mem_singleton.mp hp]
      exact List.mem_cons_self

/-- One call of `ordonnanceur` elects the first of the cycle. -/
theorem wp_ordonnanceur_tournant (h : Tournant s bas pairs) (hk : k.volontaire = true)
    (hb : s.elems .procMourants ≠ [] → ∃ d, Bilan s.avoirs d) (hE : ∀ f, s.Entrave f → E f) :
    wp E (ordonnanceur k) (fun _ s' => ∃ ps, pairs ++ [s.procElu] = s'.procElu :: ps ∧
      Tournant s' bas ps ∧ s'.elems .procMourants = []) s := by
  have hst : Stable (s.toCore.empile k) :=
    h.stable.empile (h.stable.coherent.empileVolontaire h.elu.vivant h.elu.etat hk)
  have hempile : ∀ {α : Type} {g : Processus → α}, (∀ r, g { r with contexte := k } = g r) → ∀ x,
      g ((s.toCore.empile k).tas x) = g (s.tas x) := fun hg x => Core.champ_maj hg x
  simp only [ordonnanceur, ecrire, surCore, wp_bind, wp_get, h.elu.vivant, if_true, wp_modify]
  refine wp_imp (wp_freeMourantQueue_canaris (s := { s with toCore := s.toCore.empile k }) hst
    (fun hne => ?_) fun f hf => hE f (entrave_empile.mp hf)) ?_
  · rw [Kernel.avoirs_empile]
    exact hb hne
  rintro _ s₂ ⟨hl, hvide, -, hc₂⟩
  have hst₂ : Stable s₂.toCore := ⟨hst.coherent.liberation hl,
    (hst.coherent.liberation hl).orphelins_of_vide hvide⟩
  obtain ⟨helems, helu, -⟩ := hst.coherent.liberation_reste hl
  obtain ⟨he₂, hidle, hfixes⟩ := hst.coherent.elu_liberation
    ⟨h.elu.vivant, (hempile (g := Processus.etat) (fun _ => rfl) _).trans h.elu.etat⟩ hl
  have helu : s₂.procElu = s.procElu := helu
  have hfixes : ∀ x, (s₂.tas x).fixes = (s.tas x).fixes := fun x =>
    (hfixes x).trans (hempile (g := Processus.fixes) (fun _ => rfl) x)
  have hprio : ∀ x, (s₂.tas x).prio = (s.tas x).prio := fun x => congrArg Prod.fst (hfixes x)
  have hf₂ : s₂.elems .procActivables = bas ++ pairs.reverse :=
    (helems .procActivables (by simp)).trans h.file
  -- none of the processes of the cycle is freed
  have hcan₂ : ∀ p ∈ pairs ++ [s.procElu], p ≠ s.procIdle → s₂.CanariIntact p := by
    intro p hp hpi
    have hpv : s.vivant p = true ∧ (s.tas p).etat ≠ .mourant ∧ (s.tas p).etat ≠ .zombie := by
      rcases List.mem_append.mp hp with hp | hp
      · have hm : p ∈ s.elems .procActivables := by
          rw [h.file]
          exact List.mem_append_right _ (List.mem_reverse.mpr hp)
        have hl := LinkedQueues.link_of_mem hm
        have he : (s.tas p).etat = .activable := h.stable.coherent.etat_of_lien hl
        exact ⟨h.stable.coherent.lie p _ hl, by rw [he]; decide, by rw [he]; decide⟩
      · rw [List.mem_singleton.mp hp, h.elu.etat]
        exact ⟨h.elu.vivant, by decide, by decide⟩
    refine (hc₂ p hpv.1 hpi fun hal => ?_).mpr
      (canariIntact_empile.mpr (h.canaris p hp hpi))
    have he := (hst.coherent.aLiberer hal).2
    rw [show ((s.toCore.empile k).tas p).etat = (s.tas p).etat from
      hempile (g := Processus.etat) (fun _ => rfl) p] at he
    exact he.elim hpv.2.1 hpv.2.2
  -- what the election says, whichever way the call ends
  have hfin : ∀ s', Election s₂.toCore s'.toCore → s'.memoire = s₂.memoire →
      ∃ ps, pairs ++ [s.procElu] = s'.procElu :: ps ∧ Tournant s' bas ps ∧
        s'.elems .procMourants = [] := by
    intro s' hel hm'
    obtain ⟨⟨p, ps, hcycle, rfl, hf'⟩, hvide', hidle', hfixes'⟩ := hel.tourne hst₂ he₂ hvide hf₂
      (fun p hp => by rw [hprio, hprio, helu]; exact h.moindres p hp)
      (fun p hp => by rw [hprio, hprio, helu]; exact h.egaux p hp)
    rw [helu] at hcycle
    obtain ⟨hst', he'⟩ := hst₂.election hvide hel (by rw [he₂.etat]; decide)
    exact ⟨ps, hcycle, h.apres hst' he' hcycle hf' (hidle'.trans hidle)
      (fun x => (hfixes' x).trans (hfixes x))
      (fun p hp hpi => (Kernel.canariIntact_congr hm' (congrArg Prod.snd (hfixes' p) :)).mpr
        (hcan₂ p hp hpi)), hvide'⟩
  simp only [queueEmpty, wp_bind, wp_get, wp_pure]
  split
  · next hnil => exact hfin s₂ (.aucune (by simpa using hnil)) rfl
  · next hact =>
    have hact : s₂.elems .procActivables ≠ [] := by simpa using hact
    have hna : (s₂.tas s₂.procElu).etat ≠ .activable := by
      rw [he₂.etat]
      decide
    have hcan : s₂.procElu ≠ s₂.procIdle → s₂.CanariIntact s₂.procElu := by
      intro hi
      have hidle : s₂.procIdle = s.procIdle := hidle
      rw [helu, hidle] at hi
      rw [helu]
      exact hcan₂ s.procElu (by simp) hi
    exact wp_imp (wp_commute_intact hst₂ he₂.vivant hna hvide hact hcan)
      fun _ s' hs' => hfin s' hs'.1 hs'.2

-- ---------------------------------------------------------------------------
-- Successive calls
-- ---------------------------------------------------------------------------

/-- The first calls elect the processes of the cycle in order, and turn it. -/
theorem wp_elections {ks : List Reprise} (h : Tournant s bas pairs)
    (hk : ∀ k ∈ ks, k.volontaire = true) (hlen : ks.length ≤ pairs.length + 1)
    (hb : s.elems .procMourants ≠ [] → ∃ d, Bilan s.avoirs d) (hE : ∀ f, s.Entrave f → E f) :
    wp E (elections ks) (fun l s' => l = (pairs ++ [s.procElu]).take ks.length ∧
      ∃ ps, ps ++ [s'.procElu] = (pairs ++ [s.procElu]).rotate ks.length ∧
        Tournant s' bas ps) s := by
  induction ks generalizing s pairs with
  | nil =>
    refine ⟨by simp, pairs, ?_, h⟩
    rw [List.length_nil, List.rotate_zero]
  | cons k ks ih =>
    rw [List.length_cons] at hlen
    simp only [elections, wp_bind, wp_get, wp_pure]
    refine wp_imp (wp_ordonnanceur_tournant h (hk k List.mem_cons_self) hb hE) ?_
    rintro _ s₁ ⟨ps, hcycle, h₁, hvide⟩
    have hlen₁ : ps.length = pairs.length := by
      have := congrArg List.length hcycle
      simpa using this.symm
    refine wp_imp (ih h₁ (fun k' hk' => hk k' (List.mem_cons_of_mem _ hk')) (by omega)
      (fun hx => absurd hvide hx) fun _ hf => absurd hvide hf.mourants) ?_
    rintro l s' ⟨rfl, ps', hrot, h'⟩
    refine ⟨?_, ps', ?_, h'⟩
    · rw [hcycle, List.length_cons, List.take_succ_cons, List.take_append_of_le_length (by omega)]
    · rw [hrot, hcycle, List.length_cons, List.rotate_cons_succ]

/-- The activable processes, when none is stronger than the elected one. -/
theorem Coherent.file_pairs {s : Core} (h : Coherent s)
    (hmax : ∀ p ∈ s.elems .procActivables, (s.tas p).prio ≤ (s.tas s.procElu).prio) :
    s.elems .procActivables = ((s.elems .procActivables).filter fun p =>
      (s.tas p).prio < (s.tas s.procElu).prio) ++ s.pairs.reverse := by
  unfold Core.pairs
  rw [List.reverse_reverse]
  have htri : (s.elems .procActivables).Pairwise fun a b => (s.tas a).prio ≤ (s.tas b).prio := h.tri
  generalize s.elems .procActivables = l at hmax htri
  induction l with
  | nil => rfl
  | cons x l ih =>
    obtain ⟨hx, hl⟩ := List.pairwise_cons.mp htri
    have ih := ih (fun p hp' => hmax p (List.mem_cons_of_mem _ hp')) hl
    rcases (hmax x List.mem_cons_self).lt_or_eq with hlt | heq
    · rw [List.filter_cons_of_pos (by simpa using hlt),
        List.filter_cons_of_neg (by simpa using hlt.ne), List.cons_append, ← ih]
    · -- the elements after `x` are at least as strong, so they are its equals
      have hegal : ∀ y ∈ l, (s.tas y).prio = (s.tas s.procElu).prio := fun y hy =>
        le_antisymm (hmax y (List.mem_cons_of_mem _ hy)) (heq ▸ hx y hy)
      rw [List.filter_cons_of_neg (by simpa using heq.ge), List.filter_cons_of_pos (by simpa using heq),
        List.filter_eq_nil_iff.mpr (fun y hy => by simpa using (hegal y hy).ge),
        List.filter_eq_self.mpr (fun y hy => by simpa using hegal y hy), List.nil_append]

/-- When no activable process is stronger than the elected one and the canaries
of the processes of its priority are intact, as many calls of `ordonnanceur` as
there are such processes elect each of them once, in the order of their arrival
and the elected one last, and come back to it and to the same list. They can only
stop because the first of them fails to free a dead process; when there is one, the
processes own their blocks (`Bilan`), as in every reachable state. -/
theorem tourniquet {s : Kernel} (h : Stable s.toCore)
    (hb : s.elems .procMourants ≠ [] → ∃ d, Bilan s.avoirs d) (he : s.toCore.Elu)
    (hmax : ∀ p ∈ s.elems .procActivables, (s.tas p).prio ≤ (s.tas s.procElu).prio)
    (hcan : ∀ p ∈ s.toCore.pairs ++ [s.procElu], p ≠ s.procIdle → s.CanariIntact p)
    (ks : List Reprise) (hk : ∀ k ∈ ks, k.volontaire = true)
    (hlen : ks.length = s.toCore.pairs.length + 1) :
    wp s.Entrave (elections ks) (fun l s' =>
      l = s.toCore.pairs ++ [s.procElu] ∧ l.Nodup ∧
        (∀ p ∈ l, (s.tas p).prio = (s.tas s.procElu).prio) ∧ s'.procElu = s.procElu ∧
          s'.elems .procActivables = s.elems .procActivables) s := by
  have hegaux : ∀ p ∈ s.toCore.pairs, (s.tas p).prio = (s.tas s.procElu).prio := by
    intro p hp
    simpa using (List.mem_filter.mp (List.mem_reverse.mp hp)).2
  have hT : Tournant s _ s.toCore.pairs := ⟨h, he, h.coherent.file_pairs hmax,
    fun p hp => by simpa using (List.mem_filter.mp hp).2, hegaux, hcan⟩
  refine wp_imp (wp_elections hT hk hlen.le hb fun _ hf => hf) ?_
  rintro l s' ⟨rfl, ps, hrot, h'⟩
  have hn : ks.length = (s.toCore.pairs ++ [s.procElu]).length := by
    rw [hlen, List.length_append, List.length_singleton]
  rw [hn, List.rotate_length] at hrot
  obtain ⟨hps, helu⟩ := List.append_inj' hrot rfl
  have helu : s'.procElu = s.procElu := List.singleton_injective helu
  rw [hn, List.take_length]
  refine ⟨rfl, ?_, ?_, helu, ?_⟩
  · refine List.Nodup.append (List.nodup_reverse.mpr ((s.chainage.nodup _).filter _))
      (List.nodup_singleton _) ?_
    intro p hp hp'
    rw [List.mem_singleton.mp hp'] at hp
    have hm := (List.mem_filter.mp (List.mem_reverse.mp hp)).1
    have hetat : (s.tas s.procElu).etat = .activable :=
      h.coherent.etat_of_lien (LinkedQueues.link_of_mem hm)
    rw [he.etat] at hetat
    cases hetat
  · intro p hp
    rcases List.mem_append.mp hp with hp | hp
    · exact hegaux p hp
    · rw [List.mem_singleton.mp hp]
  · rw [h'.file, hps, ← h.coherent.file_pairs hmax]

end

/-- The user process has started three children of its priority and ended: three calls
elect the other two children, then the first one again, and the user process is freed. -/
theorem tourniquet_exemple : ∃ c p q s', Accessible c ∧ c.s.elems .procMourants ≠ [] ∧
    [p, q, c.s.procElu].Nodup ∧
      elections [.iret, .iret, .iret] c.s = .ok ([p, q, c.s.procElu], s') ∧
        s'.elems .procActivables = c.s.elems .procActivables := by
  obtain ⟨c, hc, hQ⟩ := Accessible.scenario (l := [.suite, appel 2 0x1000000 0 1 0,
      appel 2 0x1000000 0 1 0, appel 2 0x1000000 0 1 0, appel 3 0 0 0 0])
    (Q := fun c => (elections [.iret, .iret, .iret] c.s).toBool &&
      decide (c.s.toCore.pairs.length = 2 ∧ c.s.elems .procMourants ≠ [] ∧
      (∀ p ∈ c.s.elems .procActivables, (c.s.tas p).prio ≤ (c.s.tas c.s.procElu).prio) ∧
      ∀ p ∈ c.s.toCore.pairs ++ [c.s.procElu], c.s.CanariIntact p)) (by decide +kernel)
  rw [Bool.and_eq_true, decide_eq_true_eq] at hQ
  obtain ⟨hok, hlen, hmort, hmax, hcan⟩ := hQ
  obtain ⟨p, q, hpq⟩ := List.length_eq_two.mp hlen
  obtain ⟨perdus, hb⟩ := hc.perte
  have hwp := tourniquet hc.valide.stable (fun _ => ⟨perdus, hb.bilan⟩) hc.valide.elu hmax (fun p hp _ => hcan p hp)
    [.iret, .iret, .iret] (by simp [Reprise.volontaire]) (by rw [hlen]; rfl)
  cases hrun : elections [.iret, .iret, .iret] c.s with
  | error f =>
    rw [hrun] at hok
    cases hok
  | ok r =>
    obtain ⟨l, s'⟩ := r
    obtain ⟨rfl, hnd, -, -, hf⟩ := wp_ok hwp hrun
    rw [hpq] at hnd hrun
    exact ⟨c, p, q, s', hc, hmort, hnd, hrun, hf⟩

end GenesisOS
