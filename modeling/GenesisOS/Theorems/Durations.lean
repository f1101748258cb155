import GenesisOS.Refinement.Pointers
import GenesisOS.Theorems.Sleepers
import GenesisOS.Theorems.RoundRobin

/-!
# GenesisOS — the counter of ticks wraps around

`wait_clock(current_clock() + d)` computes a wake-up time modulo `2^32`, and
`verifie_reveille` compares it with `ticks` as a plain number. The process sleeps
through exactly `d - 1` ticks when the sum does not wrap, or when `ticks` itself
wraps at the next interrupt; otherwise the next interrupt wakes it, whatever `d`.
-/

namespace GenesisOS

open Lib

-- ---------------------------------------------------------------------------
-- Who counts ticks
-- ---------------------------------------------------------------------------

/-- The code `m` does not touch the counter of ticks. -/
abbrev SansTic {α : Type} (m : M α) : Prop := Keeps (fun _ => True) Kernel.ticks m

section

variable {α : Type}

theorem Sobre.sansTic {m : M α} (h : Sobre m) : SansTic m :=
  (h.of_map Prod.snd).mono fun _ _ => trivial

theorem sansTic_surClavier (f : Clavier → Clavier) : SansTic (surClavier f) :=
  .of_modify fun _ => rfl

theorem sansTic_lireOctet (adr : Nat) : SansTic (lireOctet adr) :=
  .of_bind .of_get fun _ => .of_ite (.of_pure _) (.of_throw trivial)

theorem sansTic_lireChaineBornee (n adr : Nat) : SansTic (lireChaineBornee n adr) := by
  induction n generalizing adr with
  | zero => exact .of_pure _
  | succ n ih =>
    refine .of_bind (sansTic_lireOctet adr) fun c => .of_ite (.of_pure _) ?_
    exact .of_bind (ih (adr + 1)) fun _ => .of_pure _

theorem sansTic_consRead (string length : Nat) : SansTic (consRead string length) := by
  have hevince : SansTic evince := by
    refine .of_bind .of_get fun s => .of_ite ?_ (.of_pure _)
    cases s.clavier.history 0 with
    | none => exact .of_throw trivial
    | some h => exact .of_bind (sobre_memFree _ _ _).sansTic fun _ => sansTic_surClavier _
  have hmemorise : SansTic (memorise string) := by
    refine .of_bind hevince fun _ => .of_bind (sansTic_lireChaineBornee _ _) fun texte => ?_
    exact .of_bind (sobre_memAllocNonNul _ _).sansTic fun adr => sansTic_surClavier _
  have hcopie : ∀ n, SansTic (copieTampon string n) := by
    refine fun n => .of_forM (fun i => .of_bind .of_get fun s => ?_) _
    exact .of_ite (.of_modify fun _ => rfl) (.of_throw trivial)
  refine .of_bind .of_get fun s => .of_ite (.of_pure _) (.of_ite ?_ ?_)
  · refine .of_bind (sobre_ecrire _ _ _).sansTic fun _ => ?_
    exact .of_bind (sobre_queueAdd _ _ _).sansTic fun _ => .of_pure _
  · have hmemset : SansTic (memsetUser string length) :=
      .of_ite (.of_pure _) (.of_ite (.of_modify fun _ => rfl) (.of_throw trivial))
    refine .of_bind hmemset fun _ => .of_bind (sansTic_surClavier _) fun _ => ?_
    refine .of_bind (hcopie _) fun _ => ?_
    dsimp only
    have hfin : ∀ f v, SansTic (surClavier f >>= fun _ => pure (Suite.retour v)) := fun f v =>
      .of_bind (sansTic_surClavier f) fun _ => .of_pure _
    exact .of_ite (.of_bind hmemorise fun _ => hfin _ _) (hfin _ _)

theorem sansTic_keyboardBoucle (saute : Nat) (str : List UInt8) :
    SansTic (keyboardBoucle saute str) := (paisible_keyboardBoucle saute str).of_map Prod.snd

end

/-- The number of ticks a signal counts for. -/
def Signal.tics : Signal → Nat
  | .int32 => 1
  | _ => 0

section

variable {c c' : Config} {e : Signal}

theorem pas_ticks (hp : possible c e = true) (hpas : pas c e = .ok c') :
    c'.s.ticks = if e.tics = 0 then c.s.ticks else (c.s.ticks + 1) % 2 ^ 32 := by
  obtain ⟨x, s', hseg, hterm⟩ := of_pas hpas
  have hfin : c'.s.ticks = s'.ticks := wp_ok ((sobre_termine x).sansTic s') hterm
  have admet : ∀ adr n, Admet (fun _ => True) adr n := fun _ _ => .inr trivial
  rw [hfin]
  cases e with
  | int49 r =>
    rw [segment, if_pos (of_decide_eq_true hp)] at hseg
    by_cases hr : r.service = some .consRead
    · rw [traitantIT49Switch, hr] at hseg
      exact wp_ok (Keeps.of_ite (.of_pure _) (sansTic_consRead _ _) c.s) hseg
    · exact congrArg Prod.snd
        (wp_ok (sobreEn_traitant (fun _ _ => trivial) (fun adr n _ => admet adr n) hr) hseg)
  | int32 =>
    rw [segment, if_pos (of_decide_eq_true hp)] at hseg
    exact congrArg Prod.snd (wp_ok (wp_ticPIT_cadran c.s) hseg)
  | int33 str =>
    rw [segment, if_pos (of_decide_eq_true hp)] at hseg
    exact wp_ok (sansTic_keyboardBoucle _ _ c.s) hseg
  | programme m =>
    rw [segment, if_pos (of_decide_eq_true hp)] at hseg
    cases hseg
    rfl
  | suite =>
    refine wp_ok (wp_segment_suite (E := fun _ => True) (Q := fun _ s' => s'.ticks = c.s.ticks)
      (fun _ _ => trivial) fun _ => ?_) hseg
    by_cases hk : (c.s.tas c.s.procElu).contexte.SansClavier
    · exact wp_imp (sobreEn_reprend (fun _ _ => trivial) (fun adr n _ => admet adr n) hk)
        fun _ _ h => congrArg Prod.snd h
    · cases hctx : (c.s.tas c.s.procElu).contexte with
      | consRead string length => exact sansTic_consRead string length _
      | keyboardData reste => exact sansTic_keyboardBoucle 0 reste _
      | keyboardFin =>
        have hfin : SansTic keyboardFinReprise :=
          .of_bind (sobre_traiteCar _).sansTic fun _ => .of_pure _
        exact hfin _
      | _ =>
        rw [hctx] at hk
        exact absurd trivial hk

theorem Accessible.ticks_lt (h : Accessible c) : c.s.ticks < 2 ^ 32 := by
  induction h with
  | @depart mat m c h =>
    unfold depart at h
    split at h
    · next mode s hok =>
      cases h
      have hs : s.ticks = 0 := congrArg Prod.snd (wp_ok (sobre_kernelStart (etatZero mat m)) hok)
      rw [hs]
      exact Nat.two_pow_pos 32
    · cases h
  | pas _ hp _ hpas ih =>
    rw [pas_ticks hp hpas]
    split
    · exact ih
    · exact Nat.mod_lt _ (Nat.two_pow_pos 32)

end

-- ---------------------------------------------------------------------------
-- Counting the ticks of a run
-- ---------------------------------------------------------------------------

/-- `c'` is reached from `c` by steps that `P` allows, `n` of which are ticks. -/
inductive Tics (P : Config → Signal → Prop) (c : Config) : Nat → Config → Prop
  | refl : Tics P c 0 c
  | pas {n : Nat} {c' c'' : Config} {e : Signal} (hc : Tics P c n c') (hp : possible c' e = true)
      (hP : P c' e) (h : GenesisOS.pas c' e = .ok c'') : Tics P c (n + e.tics) c''

/-- As long as nobody kills it, the process sleeps through the first `d - 1` ticks
that follow, and the next one makes it activable. -/
def ReveilExact (p : Ptr) (d : Nat) (c : Config) : Prop :=
  ∀ n c₁, Tics (fun c e => ¬ TueProc p c e) c n c₁ → n < d →
    (c₁.s.tas p).etat = .endormi ∧ ∀ c₂, possible c₁ .int32 = true → pas c₁ .int32 = .ok c₂ →
      n + 1 = d → Activable c₂ p

section

variable {P : Config → Signal → Prop} {c c' c₁ : Config} {p : Ptr} {n d w : Nat}

theorem Tics.accessible (h : Tics P c n c') (hc : Accessible c) : Accessible c' := by
  induction h with
  | refl => exact hc
  | pas _ hp _ hpas ih => exact .pas ih hp trivial hpas

theorem Tics.ticks (h : Tics P c n c') (hc : c.s.ticks < 2 ^ 32) :
    c'.s.ticks = (c.s.ticks + n) % 2 ^ 32 := by
  induction h with
  | refl => rw [Nat.add_zero, Nat.mod_eq_of_lt hc]
  | @pas n c' c'' e _ hp _ hpas ih =>
    rw [pas_ticks hp hpas, ih]
    split
    · next he => rw [he, Nat.add_zero]
    · next he =>
      have he : e.tics = 1 := by
        cases e with
        | int32 => rfl
        | _ => exact absurd rfl he
      rw [he, Nat.mod_add_mod, Nat.add_assoc]

/-- The process sleeps as long as the ticks come before `w`. -/
theorem Tics.endormi (hc : Accessible c) (hd : Endormi c p w)
    (hw : ∀ k, 1 ≤ k → k < d → (c.s.ticks + k) % 2 ^ 32 < w)
    (h : Tics (fun c e => ¬ TueProc p c e) c n c') (hn : n < d) : Endormi c' p w := by
  induction h with
  | refl => exact hd
  | @pas n c' c'' e h hp htue hpas ih =>
    refine pas_endormi (h.accessible hc).valide hp hpas (ih (by omega)) htue ?_
    rintro ⟨rfl, hle⟩
    have hlt := hw (n + 1) (Nat.le_add_left 1 n) hn
    rw [h.ticks hc.ticks_lt, Nat.mod_add_mod, Nat.add_assoc] at hle
    omega

theorem Endormi.not_activable (hd : (c.s.tas p).etat = .endormi) : ¬ Activable c p := by
  rintro (⟨-, he⟩ | ⟨-, he⟩) <;> · rw [hd] at he; cases he

/-- The wake-up time that `wait_clock(current_clock() + d)` computes. -/
theorem toNat_echeance {r : Registres} {t : Nat} (hr : r.ebx = BitVec.ofNat 32 t + BitVec.ofNat 32 d) :
    r.ebx.toNat = (t + d) % 2 ^ 32 := by
  rw [hr, BitVec.toNat_add, BitVec.toNat_ofNat, BitVec.toNat_ofNat, Nat.mod_add_mod, Nat.add_mod_mod]

/-- When the wake-up time has wrapped and the counter has not, the first tick wakes
the process. -/
theorem not_reveilExact (hc : Accessible c) {r : Registres} (hp : possible c (.int49 r) = true)
    (hsv : r.service = some .waitClock) (hd' : d < 2 ^ 31)
    (hr : r.ebx = BitVec.ofNat 32 c.s.ticks + BitVec.ofNat 32 d)
    (hpas : pas c (.int49 r) = .ok c₁)
    (htic : ∃ c₂ c₃, Tics (fun c' e => ¬ TueProc c.s.procElu c' e) c₁ 0 c₂ ∧
      possible c₂ .int32 = true ∧ pas c₂ .int32 = .ok c₃)
    (hsum : ¬ c.s.ticks + d < 2 ^ 32) (hder : ¬ c.s.ticks = 2 ^ 32 - 1) :
    ¬ ReveilExact c.s.procElu d c₁ := by
  intro hexact
  have hlt := hc.ticks_lt
  have h₁ : Accessible c₁ := .pas hc hp trivial hpas
  obtain ⟨c₂, c₃, hrun, hp₂, hpas₂⟩ := htic
  have h₂ := hrun.accessible h₁
  have hw : r.ebx.toNat = c.s.ticks + d - 2 ^ 32 := by
    rw [toNat_echeance hr, Nat.mod_eq_sub_mod (by omega), Nat.mod_eq_of_lt (by omega)]
  have hd₂ := hrun.endormi (d := 1) h₁ (pas_waitClock hc.valide hp hsv hpas)
    (fun k hk hk' => by omega) Nat.zero_lt_one
  have ht₂ : c₂.s.ticks = c.s.ticks := by
    rw [hrun.ticks h₁.ticks_lt, show c₁.s.ticks = c.s.ticks from pas_ticks hp hpas]
    exact Nat.mod_eq_of_lt hlt
  have hact : Activable c₃ c.s.procElu := by
    refine pas_echeance h₂.valide h₂.trie hp₂ hpas₂ hd₂ ⟨rfl, ?_⟩
    rw [ht₂, hw, Nat.mod_eq_of_lt (by omega)]
    omega
  have hrun₃ := Tics.pas hrun hp₂ (fun ⟨r', ⟨hr', _⟩, _⟩ => by cases hr') hpas₂
  exact Endormi.not_activable (hexact 1 c₃ hrun₃ (by omega)).1 hact

/-- A process that calls `wait_clock(current_clock() + d)`, followed by at least one
tick before which nobody kills it, is woken by exactly the `d`-th tick if and only if
the sum does not reach `2^32`, or the next tick brings the counter back to 0. -/
theorem reveil_exact (hc : Accessible c) {r : Registres} (hp : possible c (.int49 r) = true)
    (hsv : r.service = some .waitClock) (hd : 1 ≤ d) (hd' : d < 2 ^ 31)
    (hr : r.ebx = BitVec.ofNat 32 c.s.ticks + BitVec.ofNat 32 d)
    (hpas : pas c (.int49 r) = .ok c₁)
    (htic : ∃ c₂ c₃, Tics (fun c' e => ¬ TueProc c.s.procElu c' e) c₁ 0 c₂ ∧
      possible c₂ .int32 = true ∧ pas c₂ .int32 = .ok c₃) :
    ReveilExact c.s.procElu d c₁ ↔ c.s.ticks + d < 2 ^ 32 ∨ c.s.ticks = 2 ^ 32 - 1 := by
  have hlt := hc.ticks_lt
  have h₁ : Accessible c₁ := .pas hc hp trivial hpas
  have hticks : c₁.s.ticks = c.s.ticks := pas_ticks hp hpas
  have hdort := pas_waitClock hc.valide hp hsv hpas
  constructor
  · intro hexact
    by_contra hnon
    obtain ⟨hsum, hder⟩ := not_or.mp hnon
    exact not_reveilExact hc hp hsv hd' hr hpas htic hsum hder hexact
  · intro hcond n c₂ hrun hn
    have h₂ := hrun.accessible h₁
    -- the counter stays below the wake-up time until the last tick
    have hdates : ∀ k, 1 ≤ k → k < d → (c₁.s.ticks + k) % 2 ^ 32 < r.ebx.toNat := by
      intro k hk hkd
      rw [hticks, toNat_echeance hr]
      rcases hcond with hsum | hder
      · rw [Nat.mod_eq_of_lt (by omega), Nat.mod_eq_of_lt hsum]
        omega
      · rw [hder, Nat.mod_eq_sub_mod (by omega), Nat.mod_eq_of_lt (by omega),
          Nat.mod_eq_sub_mod (a := _ + d) (by omega), Nat.mod_eq_of_lt (by omega)]
        omega
    have hd₂ := hrun.endormi h₁ hdort hdates hn
    refine ⟨hd₂.etat, fun c₃ hp₂ hpas₂ hfin => ?_⟩
    refine pas_echeance h₂.valide h₂.trie hp₂ hpas₂ hd₂ ⟨rfl, ?_⟩
    rw [hrun.ticks h₁.ticks_lt, hticks, Nat.mod_add_mod, Nat.add_assoc, hfin, toNat_echeance hr]

/-- The user process sleeps for two ticks. -/
theorem reveil_exact_exemple : ∃ c c₁, Accessible c ∧ pas c (appel 16 2 0 0 0) = .ok c₁ ∧
    ReveilExact c.s.procElu 2 c₁ := by
  obtain ⟨c, hc, h⟩ := Accessible.scenario (l := [.suite])
    (Q := fun c => decide (c.s.ticks = 0) && (execute c [appel 16 2 0 0 0]).any fun c₁ : Config =>
      (execute c₁ [.suite]).any fun c₂ : Config => (execute c₂ [.int32]).isSome)
    (by decide +kernel)
  rw [Bool.and_eq_true, decide_eq_true_eq] at h
  obtain ⟨hticks, h⟩ := h
  obtain ⟨c₁, h₁, h⟩ := (Option.any_eq_true _ _).mp h
  obtain ⟨c₂, h₂, h⟩ := (Option.any_eq_true _ _).mp h
  obtain ⟨c₃, h₃⟩ := Option.isSome_iff_exists.mp h
  obtain ⟨hp, hpas⟩ := of_execute_un h₁
  obtain ⟨hp₁, hpas₁⟩ := of_execute_un h₂
  obtain ⟨hp₂, hpas₂⟩ := of_execute_un h₃
  have hrun : Tics (fun c' e => ¬ TueProc c.s.procElu c' e) c₁ 0 c₂ :=
    .pas .refl hp₁ (fun ⟨r', ⟨hr', _⟩, _⟩ => by cases hr') hpas₁
  refine ⟨c, c₁, hc, hpas, (reveil_exact hc hp rfl (by decide) (by decide) ?_ hpas
    ⟨c₂, c₃, hrun, hp₂, hpas₂⟩).mpr (.inl ?_)⟩
  · rw [hticks]
    rfl
  · rw [hticks]
    decide

end

-- ---------------------------------------------------------------------------
-- Every value of the counter is reached
-- ---------------------------------------------------------------------------

section

variable {E : Faute → Prop} {s s' : Kernel} {k : Reprise} {c : Config} {e : Signal}

/-- Without dying processes and with an intact canary, `ordonnanceur` does not stop. -/
theorem wp_ordonnanceur_sansMort (h : Stable (s.toCore.empile k)) (hv : s.vivant s.procElu = true)
    (hna : (s.tas s.procElu).etat ≠ .activable) (hvide : s.elems .procMourants = [])
    (hcan : s.procElu ≠ s.procIdle → s.CanariIntact s.procElu) :
    wp E (ordonnanceur k)
      (fun _ s' => Election (s.toCore.empile k) s'.toCore ∧ s'.memoire = s.memoire) s := by
  generalize hs₁ : ({ s with toCore := s.toCore.empile k } : Kernel) = s₁
  have hc₁ : s₁.toCore = s.toCore.empile k := by rw [← hs₁]
  have hm₁ : s₁.memoire = s.memoire := by rw [← hs₁]
  have hempile : ∀ {α : Type} {g : Processus → α}, (∀ r, g { r with contexte := k } = g r) → ∀ x,
      g (s₁.tas x) = g (s.tas x) := fun hg x => by
    rw [hc₁]
    exact Core.champ_maj hg x
  have helu : s₁.procElu = s.procElu := by rw [hc₁]; rfl
  have hst : Stable s₁.toCore := by rwa [hc₁]
  have hv₁ : s₁.vivant s₁.procElu = true := by rw [hc₁]; exact hv
  have hna₁ : (s₁.tas s₁.procElu).etat ≠ .activable := by
    rw [helu, hempile (g := Processus.etat) fun _ => rfl]
    exact hna
  have hvide₁ : s₁.elems .procMourants = [] := by rw [hc₁]; exact hvide
  have hlibere : wp E freeMourantQueue (fun _ s' => s' = s₁) s₁ := by
    unfold wp
    rw [freeMourantQueue_vide hvide₁]
  simp only [ordonnanceur, ecrire, surCore, wp_bind, wp_get, hv, if_true, wp_modify]
  rw [show ({ s with toCore := s.toCore.maj s.procElu fun r => { r with contexte := k } } : Kernel) =
    s₁ from hs₁]
  refine wp_imp hlibere ?_
  rintro _ s₂ rfl
  simp only [queueEmpty, wp_bind, wp_get, wp_pure]
  rw [← hc₁]
  split
  · next hnil => exact ⟨.aucune (by simpa using hnil), hm₁⟩
  · next hact =>
    have hcan₂ : s₂.procElu ≠ s₂.procIdle → s₂.CanariIntact s₂.procElu := by
      intro hi
      unfold Kernel.CanariIntact
      rw [hm₁, helu, hempile (g := Processus.pileUser) fun _ => rfl,
        hempile (g := Processus.pileSizeUser) fun _ => rfl]
      refine hcan ?_
      rwa [hc₁] at hi
    refine wp_imp (wp_commute_intact hst hv₁ hna₁ hvide₁ (by simpa using hact) hcan₂) ?_
    rintro _ s' ⟨hel, hm⟩
    exact ⟨hel, hm.trans hm₁⟩

/-- A step that calls `ordonnanceur` without dying processes and with an intact
canary does not stop. -/
theorem pas_sansMort (h : c.Valide) (hp : possible c e = true)
    (hseg : segment c e c.s = .ok (.ordonnanceur k, s')) (hvide : s'.elems .procMourants = [])
    (hcan : s'.procElu ≠ s'.procIdle → s'.CanariIntact s'.procElu) :
    ∃ c', pas c e = .ok c' ∧ c'.mode = .noyau ∧ Election (s'.toCore.empile k) c'.s.toCore ∧
      c'.s.memoire = s'.memoire := by
  obtain ⟨hst, hsorti⟩ := h.entree.1.segment_sortie (h.segment hp hseg)
  have hempile : ((s'.toCore.empile k).tas s'.procElu).etat = (s'.tas s'.procElu).etat :=
    Core.champ_maj (f := fun r => { r with contexte := k }) (fun _ => rfl) _
  have hv : s'.vivant s'.procElu = true := hsorti.vivant
  have hna : (s'.tas s'.procElu).etat ≠ .activable := hempile ▸ hsorti.etat
  have hwp : wp (fun _ => False) (segment c e >>= termine) (fun mode s'' => mode = .noyau ∧
      Election (s'.toCore.empile k) s''.toCore ∧ s''.memoire = s'.memoire) c.s := by
    rw [wp_bind]
    unfold wp
    rw [hseg]
    show wp _ (ordonnanceur k >>= fun _ => pure Mode.noyau) _ s'
    rw [wp_bind]
    exact wp_imp (wp_ordonnanceur_sansMort hst hv hna hvide hcan) fun _ _ h => ⟨rfl, h⟩
  obtain ⟨mode, s'', hrun, hQ⟩ := wp_exists hwp
  refine ⟨⟨s'', mode⟩, ?_, hQ⟩
  unfold pas
  rw [hrun]

theorem pas_iret (hseg : segment c e c.s = .ok (.iret, s')) :
    pas c e = .ok ⟨s', .utilisateur⟩ := by
  have hrun : (segment c e >>= termine) c.s = .ok (.utilisateur, s') := by
    simp only [bind, StateT.bind, hseg, Except.bind]
    rfl
  unfold pas
  rw [hrun]

/-- A process that left the processor to an interrupt returns from it. -/
theorem segment_suite_iret (hv : c.s.vivant c.s.procElu = true)
    (hctx : (c.s.tas c.s.procElu).contexte = .iret) : segment c .suite c.s =
      .ok (.iret, { c.s with toCore := c.s.toCore.empile .iret }) := by
  have hwp : wp (fun _ => False) (segment c .suite)
      (fun x s' => x = .iret ∧ s' = { c.s with toCore := c.s.toCore.empile .iret }) c.s := by
    simp only [segment, lire, ecrire, surCore, wp_bind, wp_get, hv, if_true, wp_pure, wp_modify, hctx,
      reprend]
    exact ⟨trivial, rfl⟩
  obtain ⟨x, s', hrun, rfl, rfl⟩ := wp_exists hwp
  exact hrun

/-- When no process sleeps, the clock interrupt only counts. -/
theorem wp_ticPIT_seul (hv : s.vivant s.procElu = true) (hvide : s.elems .procEndormis = []) :
    wp E ticPIT (fun x s' => s'.toCore = s.toCore ∧ s'.memoire = s.memoire ∧
      (x = .iret ∨ x = .ordonnanceur .iret)) s := by
  have hcore := compteTic_toCore s
  have hmem : (compteTic s).1.memoire = s.memoire := by
    unfold compteTic
    dsimp only
    split <;> [(split <;> split <;> rfl); rfl]
  have reveil : ∀ s₁ : Kernel, s₁.toCore = s.toCore → s₁.memoire = s.memoire →
      wp E (verifieReveille (compteTic s).1.ticks >>= fun b =>
        if b = true then pure (.ordonnanceur .ticPIT) else ticPITFin)
        (fun x s' => s'.toCore = s.toCore ∧ s'.memoire = s.memoire ∧
          (x = .iret ∨ x = .ordonnanceur .iret)) s₁ := by
    intro s₁ h₁ hm₁
    have hvide₁ : s₁.elems .procEndormis = [] := by rw [h₁]; exact hvide
    rw [wp_bind, verifieReveille, wp_bind, wp_get, wp_bind]
    refine wp_lire (by rw [h₁]; exact hv) ?_
    rw [hvide₁]
    unfold verifieReveille.tours
    simp only [suivant, List.head?_nil, wp_pure, ticPITFin, Bool.false_eq_true, if_false, wp_bind,
      wp_get]
    split
    · exact ⟨h₁, hm₁, .inr rfl⟩
    · exact ⟨h₁, hm₁, .inl rfl⟩
  simp only [ticPIT, wp_bind, wp_get, wp_set]
  split
  · simp only [wp_bind]
    refine wp_ecritTemps fun k => ?_
    simpa only [wp_bind] using reveil { (compteTic s).1 with console := k } hcore hmem
  · simpa only [wp_bind] using reveil _ hcore hmem

/-- The elected process shares the machine with the idle process only. -/
structure Solitaire (s : Kernel) : Prop where
  activables : s.elems .procActivables = [s.procIdle]
  endormis : s.elems .procEndormis = []
  mourants : s.elems .procMourants = []
  prio : (s.tas s.procIdle).prio < (s.tas s.procElu).prio
  contexte : (s.tas s.procIdle).contexte = .iret
  canari : s.CanariIntact s.procElu

theorem Solitaire.congr (h : Solitaire s) (hcore : s'.toCore = s.toCore) (hm : s'.memoire = s.memoire) :
    Solitaire s' := by
  refine ⟨?_, ?_, ?_, ?_, ?_, ?_⟩
  · rw [hcore]; exact h.activables
  · rw [hcore]; exact h.endormis
  · rw [hcore]; exact h.mourants
  · rw [hcore]; exact h.prio
  · rw [hcore]; exact h.contexte
  · unfold Kernel.CanariIntact
    rw [hcore, hm]
    exact h.canari

theorem Solitaire.empile (h : Solitaire s) (hcore : s'.toCore = s.toCore.empile .iret)
    (hm : s'.memoire = s.memoire) : Solitaire s' := by
  have hchamp : ∀ {α : Type} {g : Processus → α}, (∀ r, g { r with contexte := .iret } = g r) →
      ∀ x, g (s'.tas x) = g (s.tas x) := fun hg x => by
    rw [hcore]
    exact Core.champ_maj hg x
  have helu : s'.procElu = s.procElu := by rw [hcore]; rfl
  have hidle : s'.procIdle = s.procIdle := by rw [hcore]; rfl
  refine ⟨?_, ?_, ?_, ?_, ?_, ?_⟩
  · rw [hcore]; exact h.activables
  · rw [hcore]; exact h.endormis
  · rw [hcore]; exact h.mourants
  · rw [hidle, helu, hchamp (g := Processus.prio) fun _ => rfl,
      hchamp (g := Processus.prio) fun _ => rfl]
    exact h.prio
  · rw [hidle, hcore]
    show ((s.toCore.empile .iret).tas s.procIdle).contexte = .iret
    rw [Core.empile, Core.tas_maj]
    split
    · rfl
    · exact h.contexte
  · unfold Kernel.CanariIntact
    rw [hm, helu, hchamp (g := Processus.pileUser) fun _ => rfl,
      hchamp (g := Processus.pileSizeUser) fun _ => rfl]
    exact h.canari

/-- An election leaves the return points alone. -/
theorem Election.contexte {s s' : Core} (hel : Election s s') (x : Ptr) :
    (s'.tas x).contexte = (s.tas x).contexte := by
  cases hel with
  | aucune _ => rfl
  | @elit p hv hp =>
    have hdep : (s.depose.tas x).contexte = (s.tas x).contexte := by
      unfold Core.depose
      split
      · rfl
      · exact Core.champ_maj (f := fun r => { r with etat := .activable }) (fun _ => rfl) x
      · exact Core.champ_maj (f := fun r => { r with etat := .activable }) (fun _ => rfl) x
      · rfl
    refine Eq.trans ?_ hdep
    exact Core.champ_maj (s := s.depose.retire p) (f := fun r => { r with etat := .elu })
      (g := Processus.contexte) (fun _ => rfl) x

/-- The election puts the elected process back on the processor. -/
theorem Solitaire.election (h : Solitaire s) (hst : Stable s.toCore) (he : s.toCore.Elu)
    (hel : Election s.toCore s'.toCore) (hm : s'.memoire = s.memoire) :
    Solitaire s' ∧ s'.procElu = s.procElu := by
  have hbas : ∀ p ∈ [s.procIdle], (s.tas p).prio < (s.tas s.procElu).prio := by
    intro p hp
    rw [List.mem_singleton.mp hp]
    exact h.prio
  have hfile : s.elems .procActivables = [s.procIdle] ++ ([] : List Ptr).reverse := h.activables
  obtain ⟨⟨p, ps, hcycle, helu, hact⟩, hmort, hidle, hfixes⟩ :=
    hel.tourne hst he h.mourants hfile hbas (by simp)
  obtain ⟨rfl, rfl⟩ : s.procElu = p ∧ [] = ps := by simpa using hcycle
  have hend : s'.elems .procEndormis = s.elems .procEndormis := (MemeSommeil.election hel).elems
  have helu' : s'.procElu = s.procElu := helu
  have hidle' : s'.procIdle = s.procIdle := hidle
  have hprio : ∀ x, (s'.tas x).prio = (s.tas x).prio := fun x => congrArg Prod.fst (hfixes x)
  have hpile : (s'.tas s.procElu).pileUser = (s.tas s.procElu).pileUser :=
    congrArg (fun x => x.2.1) (hfixes s.procElu)
  have htaille : (s'.tas s.procElu).pileSizeUser = (s.tas s.procElu).pileSizeUser :=
    congrArg (fun x => x.2.2) (hfixes s.procElu)
  refine ⟨⟨?_, hend.trans h.endormis, hmort, ?_, ?_, ?_⟩, helu'⟩
  · rw [hidle']
    exact hact
  · rw [hidle', helu', hprio, hprio]
    exact h.prio
  · rw [hidle', hel.contexte]
    exact h.contexte
  · unfold Kernel.CanariIntact
    rw [hm, helu', hpile, htaille]
    exact h.canari

/-- A configuration in user mode with such a state. -/
def Config.Solitaire (c : Config) : Prop := c.mode = .utilisateur ∧ GenesisOS.Solitaire c.s

/-- A tick, and the end of the interrupt, come back to such a configuration. -/
theorem Config.Solitaire.tic (h : c.Solitaire) (hc : Accessible c) : ∃ c', Accessible c' ∧
    c'.Solitaire ∧ c'.s.ticks = (c.s.ticks + 1) % 2 ^ 32 := by
  obtain ⟨hmode, h⟩ := h
  have hv := hc.valide
  have hp : possible c .int32 = true := decide_eq_true hmode
  have hwp : wp (fun _ => False) (segment c .int32) (fun x s' => s'.toCore = c.s.toCore ∧
      s'.memoire = c.s.memoire ∧ (x = .iret ∨ x = .ordonnanceur .iret)) c.s := by
    rw [segment, if_pos hmode]
    exact wp_ticPIT_seul hv.elu.vivant h.endormis
  obtain ⟨x, s', hseg, hcore, hm, rfl | rfl⟩ := wp_exists hwp
  · have hpas := pas_iret hseg
    exact ⟨_, .pas hc hp trivial hpas, ⟨rfl, h.congr hcore hm⟩, pas_ticks hp hpas⟩
  · have h' : GenesisOS.Solitaire s' := h.congr hcore hm
    obtain ⟨c₁, hpas, hmode₁, hel, hm₁⟩ := pas_sansMort hv hp hseg h'.mourants fun _ => h'.canari
    have h₁ : Accessible c₁ := .pas hc hp trivial hpas
    -- the elected process is elected again
    have hst : Stable (s'.toCore.empile .iret) := (hv.entree.1.segment_sortie (hv.segment hp hseg)).1
    have hs : GenesisOS.Solitaire { s' with toCore := s'.toCore.empile .iret } := h'.empile rfl rfl
    have he : (s'.toCore.empile .iret).Elu := by
      rw [hcore]
      exact ⟨hv.elu.vivant, (Core.champ_maj (f := fun r => { r with contexte := .iret })
        (g := Processus.etat) (fun _ => rfl) _).trans hv.elu.etat⟩
    obtain ⟨hs₁, helu⟩ := hs.election hst he hel hm₁
    have hctx : (c₁.s.tas c₁.s.procElu).contexte = .iret := by
      rw [helu, hel.contexte]
      show ((s'.toCore.maj s'.procElu _).tas s'.procElu).contexte = _
      rw [Core.tas_maj, if_pos rfl]
    have hp₁ : possible c₁ .suite = true := decide_eq_true hmode₁
    have hseg₁ := segment_suite_iret h₁.valide.elu.vivant hctx
    have hpas₁ := pas_iret hseg₁
    refine ⟨_, .pas h₁ hp₁ trivial hpas₁, ⟨rfl, hs₁.empile rfl rfl⟩, ?_⟩
    exact (pas_ticks hp₁ hpas₁).trans (pas_ticks hp hpas)

theorem exists_solitaire {n : Nat} (hn : n < 2 ^ 32) :
    ∃ c, Accessible c ∧ c.Solitaire ∧ c.s.ticks = n := by
  induction n with
  | zero =>
    obtain ⟨c, hc, hQ⟩ := Accessible.scenario (l := [.suite])
      (Q := fun c => decide (c.mode = .utilisateur ∧ c.s.ticks = 0 ∧
        c.s.elems .procActivables = [c.s.procIdle] ∧ c.s.elems .procEndormis = [] ∧
        c.s.elems .procMourants = [] ∧ (c.s.tas c.s.procIdle).prio < (c.s.tas c.s.procElu).prio ∧
        (c.s.tas c.s.procIdle).contexte = .iret ∧
        motA c.s.memoire (c.s.tas c.s.procElu).pileUser = CANARY_VALUE_A ∧
          motA c.s.memoire ((c.s.tas c.s.procElu).pileUser +
            4 * ((c.s.tas c.s.procElu).pileSizeUser / 4 - 1)) = CANARY_VALUE_A))
      (by decide +kernel)
    obtain ⟨hmode, ht, ha, he, hm, hprio, hctx, hcan⟩ := of_decide_eq_true hQ
    exact ⟨c, hc, ⟨hmode, ⟨ha, he, hm, hprio, hctx, hcan⟩⟩, ht⟩
  | succ n ih =>
    obtain ⟨c, hc, hs, ht⟩ := ih (by omega)
    obtain ⟨c', hc', hs', ht'⟩ := hs.tic hc
    refine ⟨c', hc', hs', ?_⟩
    rw [ht', ht, Nat.mod_eq_of_lt hn]

/-- A process that falls asleep leaves the processor to the only activable one. -/
theorem Election.remplace {s s' : Core} {p : Ptr} (hel : Election s s')
    (hetat : (s.tas s.procElu).etat = .endormi) (hact : s.elems .procActivables = [p]) :
    s'.procElu = p ∧ s'.procIdle = s.procIdle ∧
      s'.elems .procMourants = s.elems .procMourants := by
  cases hel with
  | aucune hvide => cases hact.symm.trans hvide
  | @elit q _ htop =>
    have hdep : s.depose = s := by
      unfold Core.depose
      rw [hetat]
    rw [hdep] at htop ⊢
    have htop' : (s.elems .procActivables).getLast? = some q := htop
    rw [hact] at htop'
    obtain rfl : p = q := Option.some.inj htop'
    exact ⟨rfl, rfl, Core.elems_elit (LinkedQueues.link_of_top htop) (by simp)⟩

/-- When the process falls asleep, the idle process takes over and the next tick goes
through. -/
theorem Config.Solitaire.endort (h : c.Solitaire) (hc : Accessible c) {r : Registres}
    (hsv : r.service = some .waitClock) : possible c (.int49 r) = true ∧
      ∃ c₁, pas c (.int49 r) = .ok c₁ ∧
        ∃ c₂ c₃, Tics (fun c' e => ¬ TueProc c.s.procElu c' e) c₁ 0 c₂ ∧
          possible c₂ .int32 = true ∧ pas c₂ .int32 = .ok c₃ := by
  obtain ⟨hmode, hs⟩ := h
  have hv := hc.valide
  have henc := hv.utilisateur hmode
  have hidle : c.s.procElu ≠ c.s.procIdle := fun h => by
    have hprio := hs.prio
    rw [h] at hprio
    exact lt_irrefl _ hprio
  have hlibre : c.s.lien c.s.procElu = none := hv.stable.coherent.lien_procElu henc
  have hp : possible c (.int49 r) = true := decide_eq_true ⟨hmode, hidle⟩
  obtain ⟨u, hu⟩ : ∃ u : Core, u = (c.s.toCore.maj c.s.procElu fun q =>
      { q with etat := .endormi, secReveille := r.ebx.toNat }).ajoute .procEndormis c.s.procElu
        (·.secReveille) := ⟨_, rfl⟩
  have hseg : segment c (.int49 r) c.s = .ok (.ordonnanceur (.retour 0), { c.s with toCore := u }) := by
    have hwp : wp (fun _ => False) (segment c (.int49 r)) (fun x s' =>
        x = .ordonnanceur (.retour 0) ∧ s' = { c.s with toCore := u }) c.s := by
      rw [segment, if_pos ⟨hmode, hidle⟩, traitantIT49Switch, hsv, hu]
      simp only [waitClock, ecrire, queueAdd, surCore, wp_bind, wp_get, henc.vivant, if_true,
        wp_modify, Core.lien_maj, hlibre, wp_pure]
      exact ⟨trivial, trivial⟩
    obtain ⟨x, s', hrun, rfl, rfl⟩ := wp_exists hwp
    exact hrun
  have helu : u.procElu = c.s.procElu := by rw [hu]; rfl
  have hidle' : u.procIdle = c.s.procIdle := by rw [hu]; rfl
  have htas : ∀ x, u.tas x = if x = c.s.procElu then
      { c.s.tas x with etat := .endormi, secReveille := r.ebx.toNat } else c.s.tas x := by
    intro x
    rw [hu, Core.ajoute_tas, Core.tas_maj]
    split
    · next hx => rw [hx]
    · rfl
  have hmort : u.elems .procMourants = [] := by
    rw [hu, Core.elems_ajoute_of_ne (show Tete.procMourants ≠ _ by decide)]
    exact hs.mourants
  have hact : u.elems .procActivables = [c.s.procIdle] := by
    rw [hu, Core.elems_ajoute_of_ne (show Tete.procActivables ≠ _ by decide)]
    exact hs.activables
  have hcan : ({ c.s with toCore := u } : Kernel).CanariIntact u.procElu := by
    unfold Kernel.CanariIntact
    rw [helu, htas, if_pos rfl]
    exact hs.canari
  obtain ⟨c₁, hpas, hmode₁, hel, -⟩ := pas_sansMort hv hp hseg hmort fun _ => hcan
  have h₁ : Accessible c₁ := .pas hc hp trivial hpas
  -- the idle process is elected, and returns from the interrupt that took it the processor
  have hetat : ((u.empile (.retour 0)).tas u.procElu).etat = .endormi := by
    rw [show ((u.empile (.retour 0)).tas u.procElu).etat = (u.tas u.procElu).etat from
      Core.champ_maj (f := fun r => { r with contexte := .retour 0 }) (fun _ => rfl) _, helu, htas,
      if_pos rfl]
  obtain ⟨helu₁, hidle₁, hmort₁⟩ := hel.remplace hetat hact
  have hctx : (c₁.s.tas c₁.s.procElu).contexte = .iret := by
    rw [hel.contexte, helu₁]
    show ((u.maj u.procElu _).tas c.s.procIdle).contexte = _
    rw [Core.tas_maj, if_neg (by rw [helu]; exact hidle.symm), htas, if_neg hidle.symm]
    exact hs.contexte
  obtain ⟨c₂, hpas₁, hcore₂, hmode₂⟩ : ∃ c₂, pas c₁ .suite = .ok c₂ ∧
      c₂.s.toCore = c₁.s.toCore.empile .iret ∧ c₂.mode = .utilisateur :=
    ⟨_, pas_iret (segment_suite_iret h₁.valide.elu.vivant hctx), rfl, rfl⟩
  have hp₁ : possible c₁ .suite = true := decide_eq_true hmode₁
  have h₂ : Accessible c₂ := .pas h₁ hp₁ trivial hpas₁
  have hrun : Tics (fun c' e => ¬ TueProc c.s.procElu c' e) c₁ 0 c₂ :=
    .pas .refl hp₁ (by rintro ⟨r', ⟨hr', _⟩, _⟩; cases hr') hpas₁
  -- the next tick
  have hp₂ : possible c₂ .int32 = true := decide_eq_true hmode₂
  have hwp : wp (fun _ => False) (segment c₂ .int32) (fun x s' =>
      Sonnerie ((c₂.s.ticks + 1) % 2 ^ 32) c₂.s.toCore s'.toCore ∧ ∀ v, x ≠ .retour v) c₂.s := by
    rw [segment, if_pos hmode₂]
    exact wp_ticPIT_sonnerie h₂.valide.stable (h₂.valide.utilisateur hmode₂) h₂.trie
  obtain ⟨x, s', hseg₂, hson, hx⟩ := wp_exists hwp
  suffices hpas₂ : ∃ c₃, pas c₂ .int32 = .ok c₃ by
    obtain ⟨c₃, hpas₂⟩ := hpas₂
    exact ⟨hp, c₁, hpas, c₂, c₃, hrun, hp₂, hpas₂⟩
  cases x with
  | retour v => exact absurd rfl (hx v)
  | iret => exact ⟨_, pas_iret hseg₂⟩
  | ordonnanceur k =>
    have hmort₂ : s'.elems .procMourants = [] := by
      refine (hson.autres .procMourants (by decide) (by decide)).trans ?_
      rw [hcore₂]
      exact hmort₁.trans hmort
    have hvide : s'.procElu = s'.procIdle := by
      rw [hson.reste, hcore₂]
      exact helu₁.trans (hidle₁.trans hidle').symm
    obtain ⟨c₃, hpas₂, -⟩ := pas_sansMort h₂.valide hp₂ hseg₂ hmort₂ fun hne => absurd hvide hne
    exact ⟨c₃, hpas₂⟩

/-- Two ticks before the counter wraps, a process that asks for five ticks is woken
by the first one. -/
theorem reveil_exact_faux : ∃ c r c₁, Accessible c ∧ c.s.ticks = 2 ^ 32 - 2 ∧
    possible c (.int49 r) = true ∧ r.service = some .waitClock ∧
      r.ebx = BitVec.ofNat 32 c.s.ticks + BitVec.ofNat 32 5 ∧ pas c (.int49 r) = .ok c₁ ∧
        ¬ ReveilExact c.s.procElu 5 c₁ := by
  obtain ⟨c, hc, hs, hticks⟩ := exists_solitaire (n := 2 ^ 32 - 2) (by decide)
  have hsv : (⟨16, BitVec.ofNat 32 c.s.ticks + BitVec.ofNat 32 5, 0, 0, 0, 0⟩ : Registres).service =
      some .waitClock := rfl
  obtain ⟨hp, c₁, hpas, htic⟩ := hs.endort hc hsv
  refine ⟨c, _, c₁, hc, hticks, hp, hsv, rfl, hpas, ?_⟩
  refine not_reveilExact hc hp hsv (by decide) rfl hpas htic ?_ ?_
  · rw [hticks]
    decide
  · rw [hticks]
    decide

end

end GenesisOS
