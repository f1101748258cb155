import GenesisOS.Theorems.Queues

/-!
# GenesisOS — the counter of a semaphore counts its queue

In a run without `kill` of a process that waits on a semaphore, the counters
agree with the queues and `signal` always finds the process it wakes. Such a
`kill` is exactly what breaks the agreement.

`scount` returns the counter sign-extended, so that a negative counter has its
16 high bits set, and a counter of -1 reads as an error.
-/

namespace GenesisOS

open Lib

/-- What `cadre` says of the victims of a step. -/
theorem tue_of_victime {c : Config} {e : Signal} {t : Tete} {et : Etat}
    (hp : possible c e = true) (het : ∀ p, c.s.lien p = some t → (c.s.tas p).etat = et)
    (hv : (cadre c e).victime t) : Tue et c e := by
  obtain ⟨r, p, ⟨rfl, hsv⟩, hv, hl⟩ := hv
  rw [Config.entree_int49 hp] at hv hl
  exact ⟨r, p, ⟨rfl, hsv⟩, hv, het p hl⟩

theorem Initial.compte {s : Core} (h : Initial s) : s.Compte := by
  intro sid sem hs
  rw [h.sem sid] at hs
  cases hs

/-- A `kill` of another process returns, and its victim has left its queue. -/
theorem AppelKill.retire {s s' : Core} {pid : Int} {p : Ptr} {x : Suite} (h : Stable s)
    (he : s.EnCours) (hv : s.victime pid = some p) (ha : AppelKill s pid x s') :
    x = .retour 0 ∧ MemesSem (s.retire p) s' := by
  have hc := h.coherent
  obtain ⟨-, hpos, hpe, hz, hm⟩ := hc.of_victime hv
  cases ha with
  | refus hn _ =>
    rw [hv] at hn
    cases hn
  | suicide hp _ =>
    unfold Core.victime at hv
    split at hv
    · obtain ⟨hp', -⟩ := Option.filter_eq_some_iff.mp hv
      rw [hp] at hp'
      exact absurd (Option.some.inj hp').symm hpe
    · cases hv
  | @zombie q pere t _ hv' ht hpere hlib hvide =>
    obtain rfl : q = p := by
      rw [hv] at hv'
      exact (Option.some.inj hv').symm
    have q₁ := Quiet.tueZombie hpos hpe hz hm ht hpere
    have m := (h.quiet he q₁).coherent.memesSem_liberation hlib
    have hsem : ∀ s₁ : Core, (s₁.reveillePere pere).tableauSem = s₁.tableauSem := by
      intro s₁
      unfold Core.reveillePere
      split <;> rfl
    exact ⟨rfl, m.sem.trans (hsem _), fun sid =>
      (m.elems sid).trans (Core.elems_reveillePere_of_ne (by simp))⟩
  | @mourant q t _ hv' ht hpere hlib hvide =>
    obtain rfl : q = p := by
      rw [hv] at hv'
      exact (Option.some.inj hv').symm
    have q₁ := Quiet.tueMourant hpos hpe hz hm ht hpere
    have m := (h.quiet he q₁).coherent.memesSem_liberation hlib
    exact ⟨rfl, m.sem, fun sid => (m.elems sid).trans (Core.elems_ajoute_of_ne (by simp))⟩

/-- The queue of a semaphore loses a process that `kill` terminates, and its
counter does not change. -/
theorem AppelKill.not_compte {s s' : Core} {pid : Int} {p : Ptr} {x : Suite} (h : Stable s)
    (he : s.EnCours) (hcompte : s.Compte) (hv : s.victime pid = some p)
    (het : (s.tas p).etat = .attendSemaphore) (ha : AppelKill s pid x s') : ¬ s'.Compte := by
  intro hcompte'
  have hc := h.coherent
  have hpl := hc.place p (hc.of_victime hv).1
  unfold Core.Place at hpl
  rw [het] at hpl
  obtain ⟨sid, hl⟩ := hpl
  obtain ⟨sem, hs⟩ := hc.lieSem p sid hl
  obtain ⟨-, m⟩ := ha.retire h he hv
  have hmem : p ∈ s.elems (.semaphore sid) := (s.chainage.mem_iff p _).mpr hl
  have hlen : (s'.elems (.semaphore sid)).length = (s.elems (.semaphore sid)).length - 1 := by
    rw [m.elems]
    exact List.length_erase_of_mem hmem
  have hpos := List.length_pos_of_mem hmem
  have h₁ := hcompte sid sem hs
  have h₂ := hcompte' sid sem (by rw [m.sem]; exact hs)
  rw [← h₁, hlen] at h₂
  omega

theorem Core.Compte.empile {s : Core} (h : s.Compte) {k : Reprise} : (s.empile k).Compte :=
  h.congr ⟨rfl, fun _ => rfl⟩

/-- A step that is not a `kill` of a waiting process keeps the agreement. -/
theorem Core.Compte.conserve_pas {c : Config} {e : Signal} (hc : c.Valide) (hp : possible c e = true)
    (ht : ¬ Tue .attendSemaphore c e) : Conserve (cadre c e) Core.Compte :=
  Core.Compte.conserve fun _ hv => ht (tue_of_victime hp
    (fun _ hl => hc.stable.coherent.etat_of_lien (t := .semaphore _) hl) hv)

theorem Atteint.compte {c : Config} (h : Atteint (fun c e => ¬ Tue .attendSemaphore c e) c) :
    c.s.toCore.Compte :=
  h.invariant (fun _ h₀ => h₀.compte) (Core.Compte.conserve fun _ hx => hx)
    (fun _ _ hs => hs.empile) fun hc hp ht _ => Core.Compte.conserve_pas hc hp ht

/-- In a run without `kill` of a waiting process, counters and queues agree,
`signal` never finds an empty queue, and the next step keeps the agreement
unless it is such a `kill`. -/
theorem compte_des_attentes {c : Config}
    (h : Atteint (fun c e => ¬ Tue .attendSemaphore c e) c) :
    (∀ sid sem, c.s.tableauSem sid = some sem →
      ((c.s.elems (.semaphore sid)).length : Int) = max 0 (-sem.count)) ∧
    (∀ e, possible c e = true → pas c e ≠ .error (.accesNul .signal)) ∧
    ∀ e c', possible c e = true → pas c e = .ok c' →
      (c'.s.toCore.Compte ↔ ¬ Tue .attendSemaphore c e) := by
  have hc := h.valide
  have hcompte := h.compte
  refine ⟨hcompte, ?_, ?_⟩
  · intro e hp hf
    rcases (pas_raffine hc hp).2 _ hf with hx | ⟨-, hn⟩
    · cases hx
    · refine hn ?_
      unfold Config.entree
      cases c.mode with
      | utilisateur => exact hcompte
      | noyau => exact hcompte.empile
  · intro e c' hp hpc
    constructor
    · rintro hcompte' ⟨r, p, ⟨rfl, hsv⟩, hv, het⟩
      have hp' := hp
      simp only [possible, decide_eq_true_eq] at hp'
      have he := hc.utilisateur hp'.1
      have hwp : wp (cadre c (.int49 r)).tolere (traitantIT49Switch r)
          (fun x s' => AppelKill c.s.toCore r.ebx.toInt x s'.toCore) c.s := by
        rw [traitantIT49Switch, hsv]
        refine wp_kill hc.stable he hp'.2 _ ?_ fun _ _ ha => ha
        intro q hq hf
        rw [hv] at hq
        rw [← Option.some.inj hq, het] at hf
        cases hf
      obtain ⟨x, s', ha, ht⟩ := of_pas_int49 hp hwp hpc
      obtain ⟨rfl, -⟩ := ha.retire hc.stable he hv
      refine ha.not_compte hc.stable he hcompte hv het (hcompte'.congr ⟨?_, ?_⟩) <;>
        rw [(of_termine_retour ht).2]
      · rfl
      · intro sid
        rfl
    · intro ht
      exact hc.conserve (Core.Compte.conserve_pas hc hp ht) (fun _ _ hs => hs.empile) hcompte ((pas_raffine hc hp).1 c' hpc)

/-- The user process starts a child, which waits on a semaphore while its
father runs. -/
def attenteSemaphore : List Signal :=
  [.suite, appel 24 0 0 0 0, appel 2 0x1000000 0 2 0, .suite, appel 30 9 0 0 0, .suite]

/-- The father kills the child, then signals. -/
theorem compte_des_attentes_faux : ∃ c e, Accessible c ∧ possible c e = true ∧
    ¬ c.s.toCore.Compte ∧ pas c e = .error (.accesNul .signal) := by
  obtain ⟨c, hc, h⟩ := Accessible.scenario (l := attenteSemaphore ++ [appel 4 2 0 0 0])
    (Q := fun c => echoue c (appel 27 9 0 0 0) (.accesNul .signal)) (by decide +kernel)
  obtain ⟨hp, hf⟩ := of_echoue h
  refine ⟨c, _, hc, hp, ?_, hf⟩
  rcases (pas_raffine hc.valide hp).2 _ hf with hx | ⟨-, hn⟩
  · cases hx
  · rwa [Config.entree_int49 hp] at hn

/-- While the child waits, the counter is -1 and the queue holds one process. -/
theorem compte_des_attentes_exemple : ∃ c sem, Accessible c ∧ c.s.tableauSem 9 = some sem ∧
    sem.count = -1 ∧ (c.s.elems (.semaphore 9)).length = 1 := by
  have h : (scenario attenteSemaphore).any
      (fun c => (c.s.tableauSem 9).any fun sem => decide (sem.count = -1)) = true := by
    decide +kernel
  obtain ⟨c, hc, hQ⟩ := (Option.any_eq_true _ _).mp h
  obtain ⟨sem, hs, hcount⟩ := (Option.any_eq_true _ _).mp hQ
  have hcount : sem.count = -1 := of_decide_eq_true hcount
  have hrun : Atteint (fun c e => ¬ Tue .attendSemaphore c e) c := Atteint.scenario hc
    fun e he => not_tue_of_sansKill (l := attenteSemaphore) (by decide) he
  have hlen := (compte_des_attentes hrun).1 9 sem hs
  rw [hcount] at hlen
  have hlen : ((c.s.elems (.semaphore 9)).length : Int) = 1 := by simpa using hlen
  exact ⟨c, sem, Atteint.scenario hc fun _ _ _ => trivial, hs, hcount, by exact_mod_cast hlen⟩

-- ---------------------------------------------------------------------------
-- `scount`
-- ---------------------------------------------------------------------------

/-- What the comment of `scount` says of its result: -1 for an identifier that
names no semaphore; otherwise the 16 high bits are zero and the 16 low bits,
read as a signed integer, are the counter. -/
def ScountDistingue (s : Kernel) (sid : Int) : Prop :=
  ∃ v : Int, scount sid s = .ok (.retour v, s) ∧ (v = -1 ↔ s.tableauSem sid = none) ∧
    ∀ sem, s.tableauSem sid = some sem →
      (BitVec.ofInt 32 v).extractLsb' 16 16 = 0 ∧
        ((BitVec.ofInt 32 v).extractLsb' 0 16).toInt = sem.count

theorem scount_inconnu {s : Kernel} {sid : Int} (h : s.tableauSem sid = none) :
    scount sid s = .ok (.retour (-1), s) := by
  have hex : isSidValideAndExist s sid = false := by
    unfold isSidValideAndExist
    rw [h, Option.isSome_none, Bool.and_false]
  show (if (!isSidValideAndExist s sid) = true then _ else _ : M Suite) s = _
  rw [hex]
  rfl

theorem scount_existant {s : Kernel} {sid : Int} {sem : Semaphore} (h0 : 0 ≤ sid)
    (hn : sid < NBSEM) (h : s.tableauSem sid = some sem) :
    scount sid s = .ok (.retour sem.count, s) := by
  have hex : isSidValideAndExist s sid = true := by
    unfold isSidValideAndExist
    rw [h, decide_eq_true h0, decide_eq_true hn]
    rfl
  show (if (!isSidValideAndExist s sid) = true then _ else _ : M Suite) s = _
  rw [hex, h]
  rfl

/-- The 16 low bits of a `short int` converted to `int`. -/
theorem toInt_poids_faible {x : Int} (h : SHORTINT_MIN ≤ x ∧ x ≤ SHORTINT_MAX) :
    ((BitVec.ofInt 32 x).extractLsb' 0 16).toInt = x := by
  unfold SHORTINT_MIN SHORTINT_MAX at h
  have hlow : (BitVec.ofInt 32 x).extractLsb' 0 16 = BitVec.ofInt 16 x := by
    apply BitVec.eq_of_toNat_eq
    rw [BitVec.extractLsb'_toNat, BitVec.toNat_ofInt, BitVec.toNat_ofInt, Nat.shiftRight_zero]
    omega
  rw [hlow, BitVec.toInt_ofInt]
  exact Int.bmod_eq_of_le (by omega) (by omega)

/-- Its 16 high bits are copies of the sign. -/
theorem poids_fort_nul {x : Int} (h : SHORTINT_MIN ≤ x ∧ x ≤ SHORTINT_MAX) :
    (BitVec.ofInt 32 x).extractLsb' 16 16 = 0 ↔ 0 ≤ x := by
  unfold SHORTINT_MIN SHORTINT_MAX at h
  have hnat : ((BitVec.ofInt 32 x).extractLsb' 16 16).toNat = (x % 2 ^ 32).toNat / 2 ^ 16 := by
    rw [BitVec.extractLsb'_toNat, BitVec.toNat_ofInt, Nat.shiftRight_eq_div_pow]
    omega
  constructor
  · intro h0
    rw [h0] at hnat
    have hz : (0 : BitVec 16).toNat = 0 := rfl
    omega
  · intro h0
    apply BitVec.eq_of_toNat_eq
    rw [hnat]
    show _ = 0
    omega

/-- In every reachable state, `scount` keeps to its comment exactly for the
identifiers whose semaphore, if any, has no negative counter. -/
theorem scount_distingue {c : Config} (h : Accessible c) (sid : Int) :
    ScountDistingue c.s sid ↔ ∀ sem, c.s.tableauSem sid = some sem → 0 ≤ sem.count := by
  constructor
  · rintro ⟨v, hv, -, hbits⟩ sem hs
    obtain ⟨h0, hn⟩ := h.valide.stable.coherent.sem sid sem hs
    have heq := hv.symm.trans (scount_existant h0 hn hs)
    cases heq
    exact (poids_fort_nul sem.count_short).mp (hbits sem hs).1
  · intro hpos
    cases hs : c.s.tableauSem sid with
    | none =>
      refine ⟨-1, scount_inconnu hs, ⟨fun _ => hs, fun _ => rfl⟩, fun sem hsem => ?_⟩
      rw [hs] at hsem
      cases hsem
    | some sem =>
      obtain ⟨h0, hn⟩ := h.valide.stable.coherent.sem sid sem hs
      have hcount := hpos sem hs
      refine ⟨sem.count, scount_existant h0 hn hs, ⟨fun h1 => ?_, fun hne => ?_⟩, ?_⟩
      · omega
      · rw [hs] at hne
        cases hne
      · intro sem' hsem'
        rw [hs] at hsem'
        cases hsem'
        exact ⟨(poids_fort_nul sem.count_short).mpr hcount, toInt_poids_faible sem.count_short⟩

/-- While a child waits on the semaphore, its counter is -1 and `scount` reports
an error. -/
theorem scount_distingue_faux : ∃ c, Accessible c ∧ scount 9 c.s = .ok (.retour (-1), c.s) ∧
    (∃ sem, c.s.tableauSem 9 = some sem ∧ sem.count = -1) ∧ ¬ ScountDistingue c.s 9 := by
  obtain ⟨c, hc, hQ⟩ := Accessible.scenario (l := attenteSemaphore)
    (Q := fun c => (c.s.tableauSem 9).any fun sem : Semaphore => decide (sem.count = -1)) (by decide +kernel)
  obtain ⟨sem, hs, hcount⟩ := (Option.any_eq_true _ _).mp hQ
  have hcount : sem.count = -1 := of_decide_eq_true hcount
  have heq : scount 9 c.s = .ok (.retour (-1), c.s) :=
    hcount ▸ scount_existant (by decide) (by decide) hs
  refine ⟨c, hc, heq, ⟨sem, hs, hcount⟩, ?_⟩
  rintro ⟨v, hv, hiff, -⟩
  cases hv.symm.trans heq
  rw [hiff.mp rfl] at hs
  cases hs

/-- Right after `screate(0)` the counter is 0 and `scount` returns it. -/
theorem scount_distingue_exemple : ∃ c sem, Accessible c ∧ c.s.tableauSem 9 = some sem ∧
    sem.count = 0 ∧ ScountDistingue c.s 9 := by
  obtain ⟨c, hc, hQ⟩ := Accessible.scenario (l := attenteSemaphore.take 2)
    (Q := fun c => (c.s.tableauSem 9).any fun sem : Semaphore => decide (sem.count = 0)) (by decide +kernel)
  obtain ⟨sem, hs, hcount⟩ := (Option.any_eq_true _ _).mp hQ
  have hcount : sem.count = 0 := of_decide_eq_true hcount
  refine ⟨c, sem, hc, hs, hcount, (scount_distingue hc 9).mpr fun sem' hs' => ?_⟩
  rw [hs] at hs'
  cases hs'
  exact hcount.ge

end GenesisOS
