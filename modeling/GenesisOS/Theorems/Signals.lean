import GenesisOS.Theorems.Semaphores

/-!
# GenesisOS — `signaln` is `n` calls of `signal`

`signaln` tests once whether the counter can take `n` units, then calls
`signal` `n` times and ignores the results. `signaux` keeps them.

* A counter that can take the units takes them one by one, and no `signal`
  is refused (`signaux_admis`).
* A counter that cannot is positive, so that no `signal` wakes a process, and
  the calls go on until one is refused (`signaux_deborde`).
* While the queue holds as many processes as the counter is below zero,
  `signal` finds the process it wakes (`signalFois_termine`).
-/

namespace GenesisOS

open Lib

/-- `n` successive calls of `signal`, with the values they return. -/
def signaux (sid : Int) : Nat → M (List Suite)
  | 0 => pure []
  | n + 1 => do
    let r ← signal sid
    let l ← signaux sid n
    pure (r :: l)

variable {s s' : Kernel} {sid n : Int} {sem : Semaphore} {m : Nat}

-- ---------------------------------------------------------------------------
-- One call of `signal`
-- ---------------------------------------------------------------------------

theorem signal_plein (hex : isSidValideAndExist s sid = true) (hs : s.tableauSem sid = some sem)
    (hmax : SHORTINT_MAX - 1 < sem.count) : signal sid s = .ok (.retour (-2), s) := by
  have hm : signal sid s = (pure (.retour (-2)) : M Suite) s := by
    unfold signal
    show (if (!isSidValideAndExist s sid) = true then _ else _ : M Suite) s = _
    rw [hex, hs]
    show (if SHORTINT_MAX - 1 < sem.count then _ else _ : M Suite) s = _
    rw [if_pos hmax]
  exact hm

/-- What a call of `signal` on a counter that can take the unit does. -/
structure Signale (sid : Int) (sem : Semaphore) (s s' : Kernel) : Prop where
  existe : isSidValideAndExist s' sid = true
  compte : ∃ sem', s'.tableauSem sid = some sem' ∧ sem'.count = sem.count + 1
  file   : (s'.elems (.semaphore sid)).length =
    (s.elems (.semaphore sid)).length - if sem.count + 1 ≤ 0 then 1 else 0
  reste  : ∀ p ∈ s'.elems (.semaphore sid), p ∈ s.elems (.semaphore sid)
  vivant : s'.vivant = s.vivant

/-- A call of `signal` takes the unit; it stops only when it finds no process
to wake, or a process whose structure is freed. -/
theorem wp_signal_admis (hex : isSidValideAndExist s sid = true)
    (hs : s.tableauSem sid = some sem) (hmax : sem.count ≤ SHORTINT_MAX - 1) :
    wp (fun _ => sem.count + 1 ≤ 0 ∧ ¬ (0 < (s.elems (.semaphore sid)).length ∧
        ∀ p ∈ s.elems (.semaphore sid), s.vivant p = true))
      (signal sid) (fun r s' => r = .retour 0 ∧ Signale sid sem s s') s := by
  have hcs := sem.count_short
  have hcount : (sem.setCount (sem.count + 1)).count = sem.count + 1 :=
    Semaphore.setCount_count (by omega) (by omega)
  have hex' : ∀ x, (0 ≤ sid && sid < NBSEM &&
      (Function.update s.tableauSem sid (some x) sid).isSome) = true := by
    intro x
    simp only [isSidValideAndExist, Bool.and_eq_true] at hex
    simp only [Function.update_self, Option.isSome_some, Bool.and_true, Bool.and_eq_true]
    exact hex.1
  simp only [signal, wp_bind, wp_get, hex, hs, Bool.not_true, Bool.false_eq_true, if_false,
    if_neg (not_lt.mpr hmax), hcount]
  show wp _ _ _ (_ : Kernel)
  split
  · next hneg =>
    simp only [queueOut, ecrireSem, note, surCore, wp_bind, wp_get, wp_modify]
    split
    · next hp =>
      refine ⟨hneg, fun hlen => ?_⟩
      have hnil : s.elems (.semaphore sid) = [] := List.getLast?_eq_none_iff.mp hp
      rw [hnil] at hlen
      exact absurd hlen.1 (Nat.lt_irrefl 0)
    · next p hp =>
      have hmem : p ∈ s.elems (.semaphore sid) := LinkedQueues.mem_of_top hp
      have hlien : (s.chainage.remove p).link p = none := by simp
      simp only [ecrire, queueAdd, surCore, wp_bind, wp_get, wp_modify, wp_pure]
      by_cases hv : s.vivant p = true
      · show wp _ (if s.vivant p = true then _ else _) _ _
        rw [if_pos hv]
        simp only [wp_modify]
        show wp _ (if (s.chainage.remove p).link p = none then _ else _) _ _
        rw [if_pos hlien]
        refine ⟨trivial, hex' _, ⟨_, Function.update_self .., hcount⟩, ?_, ?_, rfl⟩
        · rw [if_pos hneg]
          show (((s.chainage.remove p).add .procActivables p _).elems (.semaphore sid)).length = _
          rw [LinkedQueues.elems_add hlien, if_neg (by simp), LinkedQueues.elems_remove]
          exact List.length_erase_of_mem hmem
        · intro q hq
          change q ∈ ((s.chainage.remove p).add .procActivables p _).elems (.semaphore sid) at hq
          rw [LinkedQueues.elems_add hlien, if_neg (by simp)] at hq
          exact (LinkedQueues.mem_remove.mp hq).2
      · show wp _ (if s.vivant p = true then _ else _) _ _
        rw [if_neg hv]
        exact ⟨hneg, fun h => hv (h.2 p hmem)⟩
  · next hpos =>
    refine ⟨rfl, hex' _, ⟨_, Function.update_self .., hcount⟩, ?_, fun _ hp => hp, rfl⟩
    rw [if_neg hpos]
    rfl

-- ---------------------------------------------------------------------------
-- Successive calls
-- ---------------------------------------------------------------------------

/-- A counter that can take the units takes them, one by one. -/
theorem signaux_admis (hex : isSidValideAndExist s sid = true) (hs : s.tableauSem sid = some sem)
    (hmax : sem.count + m ≤ SHORTINT_MAX) :
    wp (fun f => signalFois sid m s = .error f) (signaux sid m) (fun l s' =>
      l = List.replicate m (.retour 0) ∧ signalFois sid m s = .ok ((), s') ∧
      ∃ sem', s'.tableauSem sid = some sem' ∧ sem'.count = sem.count + m) s := by
  induction m generalizing s sem with
  | zero => exact ⟨rfl, rfl, sem, hs, by simp⟩
  | succ m ih =>
    simp only [signaux, wp_bind, wp_pure]
    refine wp_of ?_ ?_
    · intro r s₁ h₁
      obtain ⟨rfl, hsig⟩ := wp_ok (wp_signal_admis hex hs (by omega)) h₁
      obtain ⟨sem₁, hs₁, hc₁⟩ := hsig.compte
      have hfois : signalFois sid (m + 1) s = signalFois sid m s₁ := by
        simp only [signalFois, bind, StateT.bind, h₁, Except.bind]
      have h := ih hsig.existe hs₁ (by push_cast at hmax; omega)
      rw [← hfois] at h
      refine wp_imp h ?_
      rintro l s' ⟨hl, hf, sem', hs', hc'⟩
      refine ⟨by rw [hl]; rfl, hf, sem', hs', ?_⟩
      push_cast
      omega
    · intro f hf
      simp only [signalFois, bind, StateT.bind, hf, Except.bind]

/-- A counter that cannot take the units is refused one of them, and no call
stops on the way. -/
theorem signaux_deborde (hex : isSidValideAndExist s sid = true)
    (hs : s.tableauSem sid = some sem) (hpos : 0 ≤ sem.count) :
    ∃ l s', signaux sid m s = .ok (l, s') ∧
      (SHORTINT_MAX < sem.count + m → Suite.retour (-2) ∈ l) := by
  induction m generalizing s sem with
  | zero =>
    have hcs := sem.count_short.2
    exact ⟨[], s, rfl, fun h => absurd h (by push_cast; omega)⟩
  | succ m ih =>
    have hsuite : ∀ {r s₁}, signal sid s = .ok (r, s₁) → ∀ {l s'}, signaux sid m s₁ = .ok (l, s') →
        signaux sid (m + 1) s = .ok (r :: l, s') := by
      intro r s₁ h₁ l s' h
      simp only [signaux, bind, StateT.bind, h₁, Except.bind, h]
      rfl
    by_cases hmax : SHORTINT_MAX - 1 < sem.count
    · have h₁ := signal_plein hex hs hmax
      obtain ⟨l, s', h, -⟩ := ih hex hs hpos
      exact ⟨_, s', hsuite h₁ h, fun _ => List.mem_cons_self⟩
    · have hwp := wp_signal_admis hex hs (not_lt.mp hmax)
      cases h₁ : signal sid s with
      | error f => exact absurd (wp_error hwp h₁).1 (by omega)
      | ok x =>
        obtain ⟨r, s₁⟩ := x
        obtain ⟨-, hsig⟩ := wp_ok hwp h₁
        obtain ⟨sem₁, hs₁, hc₁⟩ := hsig.compte
        obtain ⟨l, s', h, hl⟩ := ih hsig.existe hs₁ (by omega)
        refine ⟨_, s', hsuite h₁ h, fun hm => List.mem_cons_of_mem _ (hl ?_)⟩
        push_cast at hm
        omega

/-- While the queue holds as many live processes as the counter is below zero,
`signal` finds the process it wakes. -/
theorem signalFois_termine (hex : isSidValideAndExist s sid = true)
    (hs : s.tableauSem sid = some sem) (hmax : sem.count + m ≤ SHORTINT_MAX)
    (hfile : ((s.elems (.semaphore sid)).length : Int) = max 0 (-sem.count))
    (hv : ∀ p ∈ s.elems (.semaphore sid), s.vivant p = true) :
    ∃ s', signalFois sid m s = .ok ((), s') := by
  induction m generalizing s sem with
  | zero => exact ⟨s, rfl⟩
  | succ m ih =>
    push_cast at hmax
    have hwp := wp_signal_admis hex hs (by omega)
    cases h₁ : signal sid s with
    | error f =>
      obtain ⟨hneg, hf⟩ := wp_error hwp h₁
      exact absurd ⟨by omega, hv⟩ hf
    | ok x =>
      obtain ⟨r, s₁⟩ := x
      obtain ⟨-, hsig⟩ := wp_ok hwp h₁
      obtain ⟨sem₁, hs₁, hc₁⟩ := hsig.compte
      have hlen := hsig.file
      obtain ⟨s', h⟩ := ih hsig.existe hs₁ (by omega) (by split at hlen <;> omega)
        (fun p hp => hsig.vivant ▸ hv p (hsig.reste p hp))
      exact ⟨s', by simp only [signalFois, bind, StateT.bind, h₁, Except.bind, h]⟩

-- ---------------------------------------------------------------------------
-- `signaln`
-- ---------------------------------------------------------------------------

theorem signaln_eq (hex : isSidValideAndExist s sid = true) (hs : s.tableauSem sid = some sem)
    (h0 : 0 ≤ n) (hmax : n ≤ SHORTINT_MAX) :
    signaln sid n s = if SHORTINT_MAX < sem.count + n then .ok (.retour (-2), s)
      else (signalFois sid n.toNat s).map fun r => (.retour 0, r.2) := by
  have hn : versShort n = n := versShort_of_bounds (by unfold SHORTINT_MIN; omega) hmax
  have hm : signaln sid n s = (if SHORTINT_MAX - n < sem.count then pure (.retour (-2))
      else signalFois sid n.toNat >>= fun _ => pure (.retour 0) : M Suite) s := by
    unfold signaln
    show (if (!isSidValideAndExist s sid) = true then _ else _ : M Suite) s = _
    rw [hex, hs, hn]
    rfl
  rw [hm]
  by_cases h : SHORTINT_MAX < sem.count + n
  · rw [if_pos h, if_pos (by omega)]
    rfl
  · rw [if_neg h, if_neg (by omega)]
    simp only [bind, StateT.bind, Except.bind]
    cases signalFois sid n.toNat s <;> rfl

/-- While counters and queues agree, `signaln` is refused exactly when one of
`n` successive calls of `signal` would be, and changes nothing then; otherwise
it ends in the state these calls end in, with the counter `n` higher. It ends
when the waiting processes are live. -/
theorem signaln_itere (hex : isSidValideAndExist s sid = true) (hcompte : s.toCore.Compte)
    (h0 : 0 ≤ n) (hmax : n ≤ SHORTINT_MAX) :
    (signaln sid n s = .ok (.retour (-2), s) ↔
      ∃ l s', signaux sid n.toNat s = .ok (l, s') ∧ Suite.retour (-2) ∈ l) ∧
    (∀ x s', signaln sid n s = .ok (x, s') → (x = .retour (-2) ∧ s' = s) ∨
      (x = .retour 0 ∧ signaux sid n.toNat s = .ok (List.replicate n.toNat (.retour 0), s') ∧
        ∃ sem sem', s.tableauSem sid = some sem ∧ s'.tableauSem sid = some sem' ∧
          sem'.count = sem.count + n)) ∧
    ((∀ p ∈ s.elems (.semaphore sid), s.vivant p = true) → ∃ x s', signaln sid n s = .ok (x, s')) := by
  obtain ⟨sem, hs⟩ : ∃ sem, s.tableauSem sid = some sem := by
    simp only [isSidValideAndExist, Bool.and_eq_true] at hex
    exact Option.isSome_iff_exists.mp hex.2
  have hn : (n.toNat : Int) = n := Int.toNat_of_nonneg h0
  rw [signaln_eq hex hs h0 hmax]
  by_cases h : SHORTINT_MAX < sem.count + n
  · rw [if_pos h]
    refine ⟨⟨fun _ => ?_, fun _ => rfl⟩, fun x s' hx => ?_, fun _ => ⟨_, _, rfl⟩⟩
    · obtain ⟨l, s', hl, hin⟩ := signaux_deborde (m := n.toNat) hex hs (by omega)
      exact ⟨l, s', hl, hin (by omega)⟩
    · cases hx
      exact .inl ⟨rfl, rfl⟩
  · rw [if_neg h]
    have hwp := signaux_admis (m := n.toNat) hex hs (by omega)
    refine ⟨⟨fun hx => ?_, fun ⟨l, s', hl, hin⟩ => ?_⟩, fun x s' hx => ?_, fun hv => ?_⟩
    · cases hf : signalFois sid n.toNat s <;> rw [hf] at hx <;> cases hx
    · rw [(wp_ok hwp hl).1] at hin
      cases List.eq_of_mem_replicate hin
    · cases hl : signaux sid n.toNat s with
      | error f =>
        rw [wp_error hwp hl] at hx
        cases hx
      | ok y =>
        obtain ⟨l, s₁⟩ := y
        obtain ⟨rfl, hf, sem', hs', hc'⟩ := wp_ok hwp hl
        rw [hf] at hx
        cases hx
        exact .inr ⟨rfl, rfl, sem, sem', hs, hs', by omega⟩
    · obtain ⟨s', hf⟩ := signalFois_termine (m := n.toNat) hex hs (by omega) (hcompte sid sem hs) hv
      exact ⟨_, s', by rw [hf]; rfl⟩

/-- One process waits: two units wake it and leave the counter at 1. -/
theorem signaln_itere_exemple : ∃ c s', Accessible c ∧ signaln 9 2 c.s = .ok (.retour 0, s') ∧
    signaux 9 2 c.s = .ok ([.retour 0, .retour 0], s') ∧ (c.s.elems (.semaphore 9)).length = 1 := by
  have h : (scenario attenteSemaphore).any (fun c => isSidValideAndExist c.s 9 &&
      decide ((c.s.elems (.semaphore 9)).length = 1) &&
      match signaln 9 2 c.s with
      | .ok (.retour 0, _) => true
      | _ => false) = true := by
    decide +kernel
  obtain ⟨c, hc, hQ⟩ := (Option.any_eq_true _ _).mp h
  simp only [Bool.and_eq_true, decide_eq_true_eq] at hQ
  obtain ⟨⟨hex, hlen⟩, hfin⟩ := hQ
  have hrun : Atteint (fun c e => ¬ Tue .attendSemaphore c e) c := Atteint.scenario hc
    fun e he => not_tue_of_sansKill (l := attenteSemaphore) (by decide) he
  obtain ⟨-, hsig, -⟩ := signaln_itere (n := 2) hex hrun.compte (by decide) (by decide)
  split at hfin
  · next s' hs' =>
    rcases hsig _ _ hs' with ⟨hx, -⟩ | ⟨-, hl, -⟩
    · cases hx
    · exact ⟨c, s', Atteint.scenario hc fun _ _ _ => trivial, hs', hl, hlen⟩
  · cases hfin

end GenesisOS
