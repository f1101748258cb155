import GenesisOS.Invariants.Grants
import GenesisOS.Theorems.Channels

/-!
# GenesisOS — semaphores along a run

A semaphore that `screate` made, and that is neither reset nor deleted, grants
no more units than it holds, in the order in which they were asked for
(`semaphore_accords`), as long as no process that waits on it is terminated.
-/

namespace GenesisOS

open Lib

theorem Atteint.places {P : Config → Signal → Prop} {c : Config} (h : Atteint P c) :
    c.s.toCore.Places := by
  refine h.invariant ?_ Core.Places.conserve ?_ fun _ _ _ _ => Core.Places.conserve
  · intro s h₀ p hv hp
    exact absurd (h₀.seul p hv) hp
  · intro s _ _ hi
    exact hi.memes (MemesPlaces.refl.maj s.procElu fun r => { r with contexte := .iret })

theorem Atteint.adressesSem {P : Config → Signal → Prop} {c : Config} (h : Atteint P c) :
    c.s.toCore.AdressesSem := by
  refine h.invariant ?_ Core.AdressesSem.conserve ?_ fun _ _ _ _ => Core.AdressesSem.conserve
  · intro s h₀
    refine ⟨fun i x hx => ?_, by simp [h₀.journal]⟩
    rw [h₀.sem] at hx
    cases hx
  · intro s _ _ hi
    exact hi.memes ⟨rfl, fun _ => rfl⟩ le_rfl (k := []) (List.append_nil _).symm (by simp)

-- ---------------------------------------------------------------------------
-- What the calls record
-- ---------------------------------------------------------------------------

/-- The elected process adds `n` units to the semaphore at `a`. -/
structure AjouteUnites (a : Ptr) (n : Nat) (s s' : Core) : Prop where
  elu : s'.procElu = s.procElu
  journal : ∃ k, s'.journal = s.journal ++ k ∧ prises a k = [] ∧
    unites a k = List.replicate n s.procElu

namespace AjouteUnites

variable {a : Ptr} {n m : Nat} {s s' s'' : Core}

theorem zero : AjouteUnites a 0 s s := ⟨rfl, [], by simp⟩

theorem trans (h : AjouteUnites a n s s') (h' : AjouteUnites a m s' s'') :
    AjouteUnites a (n + m) s s'' := by
  obtain ⟨helu, k, hk, hp, hu⟩ := h
  obtain ⟨helu', k', hk', hp', hu'⟩ := h'
  refine ⟨helu'.trans helu, k ++ k', by rw [hk', hk, List.append_assoc], ?_, ?_⟩
  · rw [prises_append, hp, hp']
    rfl
  · rw [unites_append, hu, hu', helu, List.replicate_append_replicate]

end AjouteUnites

/-- A `signal` on an existing semaphore adds a unit, or returns -2. -/
theorem AppelSignal.unites {s s' : Core} {sid : Int} {r : Suite} {x : Semaphore}
    (h : AppelSignal s sid r s') (hs : s.tableauSem sid = some x) :
    (r = .retour 0 ∧ AjouteUnites x.adr 1 s s' ∧
      ∃ y, s'.tableauSem sid = some y ∧ y.adr = x.adr ∧ y.count = x.count + 1) ∨
    (r = .retour (-2) ∧ s' = s ∧ SHORTINT_MAX - 1 < x.count) := by
  have hcs := x.count_short
  cases h with
  | refus hn =>
    rw [hs] at hn
    cases hn
  | plein hs' hmax =>
    rw [hs] at hs'
    cases hs'
    exact .inr ⟨rfl, rfl, hmax⟩
  | libre hs' hmax hpos =>
    rw [hs] at hs'
    cases hs'
    refine .inl ⟨rfl, ⟨rfl, [.semUnite x.adr s.procElu], rfl, rfl, by simp⟩, _, Function.update_self ..,
      rfl, Semaphore.setCount_count (by omega) (by omega)⟩
  | @reveil _ p hs' hmax hneg hp =>
    rw [hs] at hs'
    cases hs'
    refine .inl ⟨rfl, ⟨rfl, [.semUnite x.adr s.procElu, .semAccorde x.adr p],
      (List.append_assoc ..).trans rfl, rfl, by simp⟩, _, Function.update_self .., rfl,
      Semaphore.setCount_count (by omega) (by omega)⟩

/-- Signals that the counter has room for. -/
theorem Signaux.unites {s s' : Core} {sid : Int} {n : Nat} {x : Semaphore} (h : Signaux sid n s s')
    (hs : s.tableauSem sid = some x) (hmax : x.count + n ≤ SHORTINT_MAX) :
    AjouteUnites x.adr n s s' := by
  induction h generalizing x with
  | zero => exact .zero
  | @succ n r s s₁ s' ha _ ih =>
    push_cast at hmax
    rcases ha.unites hs with ⟨-, h₁, y, hy, hadr, hc⟩ | ⟨-, -, hplein⟩
    · have h₂ := ih hy (by omega)
      rw [hadr] at h₂
      rw [Nat.add_comm]
      exact h₁.trans h₂
    · omega

/-- A `signaln` on an existing semaphore adds its units, or returns -2. -/
theorem AppelSignaln.unites {s s' : Core} {sid n : Int} {r : Suite} {x : Semaphore}
    (h : AppelSignaln s sid n r s') (hs : s.tableauSem sid = some x) :
    (r = .retour 0 ∧ AjouteUnites x.adr (versShort n).toNat s s') ∨ (r = .retour (-2) ∧ s' = s) := by
  have hcs := x.count_short
  cases h with
  | refus hn =>
    rw [hs] at hn
    cases hn
  | plein => exact .inr ⟨rfl, rfl⟩
  | signaux hs' hmax hx =>
    rw [hs] at hs'
    cases hs'
    exact .inl ⟨rfl, hx.unites hs (by omega)⟩

/-- A `wait` or `try_wait` on an existing semaphore is refused, takes a unit, or
blocks. -/
theorem AppelWait.unites {s s' : Core} {sid : Int} {r : Suite} {x : Semaphore}
    (h : AppelWait s sid r s') (hs : s.tableauSem sid = some x) : s'.procElu = s.procElu ∧
      ((∃ v, v < 0 ∧ r = .retour v ∧ s' = s) ∨
        (r = .retour 0 ∧ s'.journal =
          s.journal ++ [.semPrise x.adr s.procElu, .semAccorde x.adr s.procElu]) ∨
        (r = .ordonnanceur .wait ∧ s'.journal = s.journal ++ [.semPrise x.adr s.procElu])) := by
  cases h with
  | refus hv => exact ⟨rfl, .inl ⟨_, hv, rfl, rfl⟩⟩
  | prise hs' =>
    rw [hs] at hs'
    cases hs'
    exact ⟨rfl, .inr (.inl ⟨rfl, (List.append_assoc ..).trans rfl⟩)⟩
  | bloque hs' =>
    rw [hs] at hs'
    cases hs'
    exact ⟨rfl, .inr (.inr ⟨rfl, rfl⟩)⟩

/-- What a call that took a unit has recorded when it returns. -/
theorem Verdict.prise {p a : Ptr} {l : List Evenement} {v : Int} (h : Verdict p l v)
    (hm : .semPrise a p ∈ l) : (v = 0 ∧ l = [.semPrise a p, .semAccorde a p]) ∨ .semRejet a p v ∈ l := by
  cases h with
  | autre hx =>
    obtain ⟨adr, u, hu⟩ := hx _ hm
    cases hu
  | accorde =>
    simp only [List.mem_cons, Evenement.semPrise.injEq, reduceCtorEq, List.not_mem_nil, or_false] at hm
    obtain ⟨rfl, -⟩ := hm
    exact .inl ⟨rfl, rfl⟩
  | rejete =>
    simp only [List.mem_cons, Evenement.semPrise.injEq, reduceCtorEq, List.not_mem_nil, or_false] at hm
    obtain ⟨rfl, -⟩ := hm
    exact .inr (by simp)
  | recu | recolte =>
    rcases List.mem_append.mp hm with hm | hm
    · simp at hm
    · obtain ⟨adr, u, hu⟩ := mem_stocke hm
      cases hu
  | _ => simp at hm

-- ---------------------------------------------------------------------------
-- A semaphore that is neither reset nor deleted
-- ---------------------------------------------------------------------------

/-- The step terminates a process that waits on the semaphore in entry `sid`. -/
def TueSem (sid : Int) (c : Config) (e : Signal) : Prop :=
  ∃ r p, e.Appelle .kill r ∧ c.s.toCore.victime r.ebx.toInt = some p ∧
    c.s.lien p = some (.semaphore sid)

/-- The semaphore at `a`, in entry `sid`, with the first value `n`, in the
configuration `c`: its counter accounts for the units added and taken; it grants
no more than it holds, in the order of the calls; if only holders add units there
are at most `n` of them. Each call of `signal`, `signaln`, `wait` and `try_wait`
is accounted for when it is made, and a call that took a unit returns 0. -/
structure Accords (sid : Int) (a : Ptr) (n : Int) (c : Config) : Prop where
  compte : ∃ x, c.s.tableauSem sid = some x ∧ x.adr = a ∧
    x.count = n + (unites a c.s.journal).length - (prises a c.s.journal).length
  borne : ((accordes a c.s.journal).length : Int) ≤ n + (unites a c.s.journal).length
  ordre : Fifo (prises a c.s.journal) (accordes a c.s.journal) (c.s.elems (.semaphore sid)).reverse
  exclusion : Justified (fun j e => ∀ p, e = .semUnite a p → p ∈ detenteurs a j) c.s.journal →
    ((detenteurs a c.s.journal).length : Int) ≤ n
  retours : ∀ j₁ j₂ p v, c.s.journal = j₁ ++ .retour p v :: j₂ → .semPrise a p ∈ appelEnCours p j₁ →
    v = 0 ∧ appelEnCours p j₁ = [.semPrise a p, .semAccorde a p]
  signal : ∀ e r c', possible c e = true → e.Appelle .signal r → r.ebx.toInt = sid →
    pas c e = .ok c' → ∃ k v, c'.s.journal = c.s.journal ++ k ++ [.retour c.s.procElu v] ∧
      prises a k = [] ∧ ((v = 0 ∧ unites a k = [c.s.procElu]) ∨ (v = -2 ∧ k = []))
  signaln : ∀ e r c', possible c e = true → e.Appelle .signaln r → r.ebx.toInt = sid →
    pas c e = .ok c' → ∃ k v, c'.s.journal = c.s.journal ++ k ++ [.retour c.s.procElu v] ∧
      prises a k = [] ∧ ((v = 0 ∧
        unites a k = List.replicate (versShort r.ecx.toInt).toNat c.s.procElu) ∨ (v = -2 ∧ k = []))
  tryWait : ∀ e r c', possible c e = true → e.Appelle .tryWait r → r.ebx.toInt = sid →
    pas c e = .ok c' → ∃ k v, c'.s.journal = c.s.journal ++ k ++ [.retour c.s.procElu v] ∧
      ((v = 0 ∧ k = [.semPrise a c.s.procElu, .semAccorde a c.s.procElu]) ∨ (v < 0 ∧ k = []))
  wait : ∀ e r c', possible c e = true → e.Appelle .wait r → r.ebx.toInt = sid →
    pas c e = .ok c' → ∃ k, c'.s.journal = c.s.journal ++ k ∧ unites a k = [] ∧
      ((∃ v, v < 0 ∧ k = [.retour c.s.procElu v]) ∨
        k = [.semPrise a c.s.procElu, .semAccorde a c.s.procElu, .retour c.s.procElu 0] ∨
        (prises a k = [c.s.procElu] ∧ accordes a k = []))

theorem Accessible.accords {c : Config} {sid n : Int} {a : Ptr} (h : Accessible c)
    (hn : c.s.toCore.Compteur sid a n) : Accords sid a n c := by
  have hc := h.valide
  have hst := hc.stable
  obtain ⟨⟨x, hx, rfl, hcount, hlen⟩, -, -, hfifo, hadmis⟩ := hn
  have hu : ∀ {e : Signal} {r : Registres} {sv : Service}, possible c e = true → e.Appelle sv r →
      e = .int49 r ∧ c.s.toCore.EnCours := by
    rintro e r sv hp ⟨rfl, -⟩
    simp only [possible, decide_eq_true_eq] at hp
    exact ⟨rfl, hc.utilisateur hp.1⟩
  have hC : ∀ f : Faute, ({ faute := fun _ => True } : Cadre).faute f := fun _ => trivial
  have hborne : ((accordes x.adr c.s.journal).length : Int) ≤
      n + (unites x.adr c.s.journal).length := by
    have hf := congrArg List.length hfifo
    rw [List.length_append, List.length_reverse] at hf
    omega
  refine ⟨⟨x, hx, rfl, hcount⟩, hborne, hfifo, ?_, ?_, ?_, ?_, ?_, ?_⟩
  · intro hj
    have hd := detenteurs_length hj
    omega
  · intro j₁ j₂ p v hj hm
    rcases (h.suivi.reponses j₁ _ j₂ hj p v rfl).prise hm with hx | hx
    · exact hx
    · -- the semaphore has rejected nobody
      have hmem := List.mem_of_mem_filter (mem_of_mem_since hx)
      exact absurd (by rw [hj]; exact List.mem_append_left _ hmem) (hadmis p v)
  · rintro e r c' hp happ rfl hpas
    obtain ⟨rfl, he⟩ := hu hp happ
    have hwp : wp (Cadre.tolere { faute := fun _ => True }) (traitantIT49Switch r)
        (fun y s' => AppelSignal c.s.toCore r.ebx.toInt y s'.toCore) c.s := by
      rw [traitantIT49Switch, happ.2]
      exact wp_signal hst.coherent _ (.inr (hC _)) fun _ _ ha => ha
    obtain ⟨y, s', ha, ht⟩ := of_pas_int49 hp hwp hpas
    rcases ha.unites hx with ⟨rfl, ⟨helu, k, hk, hpr, hun⟩, -⟩ | ⟨rfl, hs', -⟩
    · refine ⟨k, 0, ?_, hpr, .inl ⟨rfl, hun⟩⟩
      rw [(of_termine_retour ht).2, Core.note_journal, hk, helu]
    · refine ⟨[], -2, ?_, rfl, .inr ⟨rfl, rfl⟩⟩
      rw [(of_termine_retour ht).2, Core.note_journal, hs', List.append_nil]
  · rintro e r c' hp happ rfl hpas
    obtain ⟨rfl, he⟩ := hu hp happ
    have hwp : wp (Cadre.tolere { faute := fun _ => True }) (traitantIT49Switch r)
        (fun y s' => AppelSignaln c.s.toCore r.ebx.toInt r.ecx.toInt y s'.toCore) c.s := by
      rw [traitantIT49Switch, happ.2]
      exact wp_signaln hst he _ _ (.inr (hC _)) fun _ _ ha => ha
    obtain ⟨y, s', ha, ht⟩ := of_pas_int49 hp hwp hpas
    rcases ha.unites hx with ⟨rfl, helu, k, hk, hpr, hun⟩ | ⟨rfl, hs'⟩
    · refine ⟨k, 0, ?_, hpr, .inl ⟨rfl, hun⟩⟩
      rw [(of_termine_retour ht).2, Core.note_journal, hk, helu]
    · refine ⟨[], -2, ?_, rfl, .inr ⟨rfl, rfl⟩⟩
      rw [(of_termine_retour ht).2, Core.note_journal, hs', List.append_nil]
  · rintro e r c' hp happ rfl hpas
    obtain ⟨rfl, he⟩ := hu hp happ
    have hwp : wp (Cadre.tolere {}) (traitantIT49Switch r)
        (fun y s' => (∃ v, y = .retour v) ∧ AppelWait c.s.toCore r.ebx.toInt y s'.toCore) c.s := by
      rw [traitantIT49Switch, happ.2]
      exact wp_tryWait hst.coherent _ fun v _ ha => ⟨⟨v, rfl⟩, ha⟩
    obtain ⟨y, s', ⟨⟨v, rfl⟩, ha⟩, ht⟩ := of_pas_int49 hp hwp hpas
    have hj : c'.s.journal = s'.journal ++ [.retour s'.procElu v] := by
      rw [(of_termine_retour ht).2]
      rfl
    obtain ⟨helu, ⟨w, hw, hy, hs'⟩ | ⟨hy, hk⟩ | ⟨hy, -⟩⟩ := ha.unites hx
    · cases hy
      exact ⟨[], v, by rw [hj, hs', List.append_nil], .inr ⟨hw, rfl⟩⟩
    · cases hy
      exact ⟨_, 0, by rw [hj, hk, helu], .inl ⟨rfl, rfl⟩⟩
    · cases hy
  · rintro e r c' hp happ rfl hpas
    obtain ⟨rfl, he⟩ := hu hp happ
    have hwp : wp (Cadre.tolere {}) (traitantIT49Switch r)
        (fun y s' => AppelWait c.s.toCore r.ebx.toInt y s'.toCore) c.s := by
      rw [traitantIT49Switch, happ.2]
      exact wp_wait hst he _ fun _ _ ha => ha
    obtain ⟨y, s', hseg, ht⟩ := of_pas hpas
    obtain ⟨t, htj, hfin⟩ := pas_journal hc hp hseg hpas
    have hp' := hp
    simp only [possible, decide_eq_true_eq] at hp'
    rw [segment, if_pos hp'] at hseg
    obtain ⟨helu, ⟨w, hw, rfl, hs'⟩ | ⟨rfl, hk⟩ | ⟨rfl, hk⟩⟩ := (wp_ok hwp hseg).unites hx
    · refine ⟨[.retour c.s.procElu w], ?_, rfl, .inl ⟨w, hw, rfl⟩⟩
      rw [(of_termine_retour ht).2, Core.note_journal, hs']
    · refine ⟨_, ?_, rfl, .inr (.inl rfl)⟩
      rw [(of_termine_retour ht).2, Core.note_journal, hk, helu, List.append_assoc]
      rfl
    · -- the caller waits; the step ends with the election of another process
      have hm : ∀ e ∈ t, e.jeton ≠ some x.adr := by
        intro e he
        rcases hfin e he with ⟨v, rfl⟩ | ⟨q, rfl⟩ <;> (intro hx; cases hx)
      obtain ⟨hpr, hac, hun⟩ := jeton_muet hm
      refine ⟨.semPrise x.adr c.s.procElu :: t, ?_, ?_, .inr (.inr ⟨?_, ?_⟩)⟩
      · rw [htj, hk, List.append_assoc]
        rfl
      · rw [unites_prise, hun]
      · rw [prises_prise, hpr]
      · rw [accordes_prise, hac]

/-- A semaphore that `screate(n)` made grants no more units than it holds, in the
order of the calls, as long as it is neither reset nor deleted and no process that
waits on it is terminated. -/
theorem semaphore_accords {c c₁ : Config} {e : Signal} {r : Registres} {sid : Int} (h : Accessible c)
    (hp : possible c e = true) (happ : e.Appelle .screate r) (hpas : pas c e = .ok c₁)
    (hret : c₁.s.journal.getLast? = some (.retour c.s.procElu sid)) (h0 : 0 ≤ sid) :
    0 ≤ versShort r.ebx.toInt ∧ ∃ a, ∀ c₂,
      Poursuit (fun c e => ¬ VideSem c e a ∧ ¬ TueSem sid c e) c₁ c₂ →
        Accords sid a (versShort r.ebx.toInt) c₂ := by
  have hc := h.valide
  have h₁ : Accessible c₁ := .pas h hp trivial hpas
  obtain ⟨rfl, hsv⟩ := happ
  have hwp : wp (Cadre.tolere {}) (traitantIT49Switch r)
      (fun x s' => AppelScreate c.s.toCore (versShort r.ebx.toInt) x s'.toCore) c.s := by
    rw [traitantIT49Switch, hsv]
    exact wp_screate hc.stable.coherent _ fun _ _ ha => ha
  obtain ⟨x, s', ha, ht⟩ := of_pas_int49 hp hwp hpas
  suffices hn : 0 ≤ versShort r.ebx.toInt ∧ ∃ a, c₁.s.toCore.Compteur sid a (versShort r.ebx.toInt) by
    obtain ⟨hpos, a, hn⟩ := hn
    refine ⟨hpos, a, fun c₂ hrun => (hrun.accessible h₁).accords ?_⟩
    refine (hrun.invariant h₁ (I := fun s => s.Places ∧ s.Compteur sid a (versShort r.ebx.toInt))
      ⟨h₁.places, hn⟩ ?_ ?_).2
    · rintro s - - ⟨hpl, hn⟩
      exact ⟨hpl.memes (MemesPlaces.refl.maj s.procElu fun r => { r with contexte := .iret }),
        hn.memes ⟨rfl, fun _ => rfl⟩ le_rfl (k := []) (List.append_nil _).symm (by simp)⟩
    · intro c e hv hp hP
      refine Core.Compteur.conserve hP.1 ?_
      rintro ⟨r, p, ⟨rfl, hsv⟩, hvic, hl⟩
      rw [Config.entree_int49 hp] at hvic hl
      exact hP.2 ⟨r, p, ⟨rfl, hsv⟩, hvic, hl⟩
  generalize hs : s'.toCore = t at ha
  cases ha with
  | refus | echec =>
    rw [(of_termine_retour ht).2, Core.note_journal, List.getLast?_concat] at hret
    simp only [Option.some.injEq, Evenement.retour.injEq] at hret
    omega
  | @cree l cell m x hl hpos hsem hfrais hm hnom =>
    have hs₁ := (of_termine_retour ht).2
    rw [hs] at hs₁
    rw [hs₁, Core.note_journal, List.getLast?_concat] at hret
    cases hret
    refine ⟨hpos, x.adr, ?_⟩
    -- no event names the new address
    have hmuet : ∀ e ∈ c.s.journal, e.jeton ≠ some x.adr :=
      fun e he hx => absurd (h.adressesSem.journal e he _ hx) (not_lt.mpr hfrais)
    obtain ⟨hpr, hac, hun⟩ := jeton_muet hmuet
    have hj : c₁.s.journal = c.s.journal ++ [.semCree x.adr (versShort r.ebx.toInt),
        .retour c.s.procElu cell.sid] := by
      rw [hs₁]
      exact List.append_assoc ..
    have hpr₁ : prises x.adr c₁.s.journal = [] := by
      rw [hj, prises_append, hpr]
      rfl
    have hac₁ : accordes x.adr c₁.s.journal = [] := by
      rw [hj, accordes_append, hac]
      rfl
    have hun₁ : unites x.adr c₁.s.journal = [] := by
      rw [hj, unites_append, hun]
      rfl
    have hvide : c₁.s.elems (.semaphore cell.sid) = [] := by
      rw [hs₁]
      exact LinkedQueues.elems_reset.trans (if_pos rfl)
    refine ⟨⟨x, ?_, rfl, ?_, ?_⟩, ?_, ?_, ?_, ?_⟩
    · rw [hs₁]
      exact Function.update_self ..
    · rw [hpr₁, hun₁]
      simpa using hsem
    · rw [hvide, hsem]
      simpa using hpos
    · intro i y hy hadr
      by_contra hi
      rw [hs₁] at hy
      have hy' : c.s.tableauSem i = some y := by
        rw [← hy]
        exact (Function.update_of_ne hi ..).symm
      exact absurd (h.adressesSem.table i y hy') (by rw [hadr]; exact not_lt.mpr hfrais)
    · rw [hs₁]
      exact hm
    · rw [hpr₁, hac₁, hvide]
      rfl
    · intro p v hm'
      rw [hj] at hm'
      rcases List.mem_append.mp hm' with hm' | hm'
      · exact hmuet _ hm' rfl
      · simp at hm'

/-- No signal of `l` calls `sreset`, `sdelete` or `kill`. -/
def sansRetrait (l : List Signal) : Bool :=
  l.all fun
    | .int49 r => r.service ∉ [some .sreset, some .sdelete, some .kill]
    | _ => true

theorem not_retrait {l : List Signal} (h : sansRetrait l = true) {e : Signal} (he : e ∈ l) (c : Config)
    (a : Ptr) (sid : Int) : ¬ VideSem c e a ∧ ¬ TueSem sid c e := by
  have hsv : ∀ {r : Registres}, .int49 r ∈ l → r.service ∉ [some .sreset, some .sdelete, some .kill] :=
    fun hr => of_decide_eq_true (List.all_eq_true.mp h _ hr)
  constructor
  · rintro ⟨r, sem, ⟨rfl, hr⟩ | ⟨rfl, hr⟩, -⟩
    · exact hsv he (by rw [hr]; simp)
    · exact hsv he (by rw [hr]; simp)
  · rintro ⟨r, p, ⟨rfl, hr⟩, -⟩
    exact hsv he (by rw [hr]; simp)

/-- A child waits on a semaphore of value 0. -/
theorem semaphore_accords_exemple : ∃ c c₁ c₂ a, Accessible c ∧ pas c (appel 24 0 0 0 0) = .ok c₁ ∧
    execute c₁ (attenteSemaphore.drop 2) = some c₂ ∧ Accords 9 a 0 c₂ := by
  obtain ⟨c, hc, h⟩ := Accessible.scenario (l := [.suite])
    (Q := fun c => match execute c [appel 24 0 0 0 0] with
      | none => false
      | some c₁ => c₁.s.journal.getLast? = some (.retour c.s.procElu 9) ∧
          (execute c₁ (attenteSemaphore.drop 2)).isSome) (by decide +kernel)
  split at h
  · cases h
  next c₁ hl =>
  obtain ⟨hp, c₁', hpas, hl'⟩ := execute_cons.mp hl
  cases hl'
  obtain ⟨hret, h₂⟩ := of_decide_eq_true h
  obtain ⟨c₂, hc₂⟩ := Option.isSome_iff_exists.mp h₂
  obtain ⟨-, a, ha⟩ := semaphore_accords hc hp ⟨rfl, by decide⟩ hpas hret (by decide)
  exact ⟨c, _, c₂, a, hc, hpas, hc₂, ha c₂ (Poursuit.refl.execute
    (fun e he c => not_retrait (l := attenteSemaphore.drop 2) (by decide) he c a 9) hc₂)⟩

end GenesisOS
