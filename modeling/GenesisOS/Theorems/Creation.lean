import GenesisOS.Refinement.Accounts

/-!
# GenesisOS — a failing `start` changes nothing

`start` takes a free identifier, then up to three blocks, and gives back what it has
when it fails. In every reachable state it fails exactly when an identifier, a
parameter or a block is missing, and what is left of the call is at most a fresh
cell for the identifier, in the place of the old one.
-/

namespace GenesisOS

open Lib

/-- The value a call returns, at once or after an election. -/
def Suite.Renvoie (x : Suite) (v : Int) : Prop := x = .retour v ∨ x = .ordonnanceur (.retour v)

/-- What `start` lacks: an identifier, a priority in `1..PRIO_MAX`, a size that fits
in 32 bits with the words reserved, or one of its three blocks. -/
inductive Refus (s : Kernel) (ssize : Nat) (prio : Int) : Prop
  | pid (h : s.pidLibreTete = [])
  | prio (h : prio < 1 ∨ PRIO_MAX < prio)
  | taille (h : 2 ^ 32 ≤ ssize + 4 * USER_STACK_SIZE)
  | processus (h : s.materiel.memAlloc s.prochain = false)
  | pileUser (h : ∀ adr, s.materiel.userStackAlloc s.prochainUser = some adr →
      ¬ s.tasUser.Libre ⟨adr, ssize + USER_STACK_SIZE * 4⟩)
  | pileKernel (h : s.materiel.memAlloc (s.prochain + 1) = false)

/-- The cells of the free identifiers and their blocks are the same, up to the cell of
the first identifier. -/
inductive Cellules (s s' : Kernel) : Prop
  | memes (hl : s'.pidLibreTete = s.pidLibreTete) (hb : s'.blocs = s.blocs)
  | echange {cell : PidLibre} {reste : List PidLibre} {a : Ptr}
      (hl : s.pidLibreTete = cell :: reste) (hl' : s'.pidLibreTete = ⟨a, cell.pid⟩ :: reste)
      (ha : s.blocs a = none) (hb : s'.blocs =
        Function.update (Function.update s.blocs cell.adr none) a (some sizeofPidLibre))

/-- `s'` differs from `s` by a cell of a free identifier only. -/
structure SansEffet (s s' : Kernel) : Prop where
  cellules : Cellules s s'
  piles : s'.tasUser = s.tasUser
  table : s'.tableDesProcs = s.tableDesProcs
  files : s'.chainage = s.chainage
  elu : s'.procElu = s.procElu
  vivant : s'.vivant = s.vivant
  processus : ∀ p, s.vivant p = true → s'.tas p = s.tas p

/-- The free identifiers come in the same order. -/
theorem SansEffet.pids {s s' : Kernel} (h : SansEffet s s') :
    s'.pidLibreTete.map PidLibre.pid = s.pidLibreTete.map PidLibre.pid := by
  cases h.cellules with
  | memes hl hb => rw [hl]
  | echange hl hl' ha hb => rw [hl, hl', List.map_cons, List.map_cons]

section

variable {s : Kernel} {d : Multiset (Ptr × Nat)} {ssize : Nat} {pid prio : Int} {name : Nom}
  {arg : BitVec 32} {cell : PidLibre} {reste : List PidLibre}

-- ---------------------------------------------------------------------------
-- The exits that fail
-- ---------------------------------------------------------------------------

theorem wp_addPid_cellule {Q : Unit → Kernel → Prop} (hQ : Q () { s with
      prochain := s.prochain + 1
      blocs := Function.update s.blocs s.prochain (some sizeofPidLibre)
      pidLibreTete := ⟨s.prochain, pid⟩ :: s.pidLibreTete }) :
    wp (fun f => f = .accesNul .addPid) (addPid pid) Q s := by
  simp only [addPid, memAllocNonNul, memAlloc, surCore, wp_bind, wp_get, wp_ite, wp_set, wp_pure,
    wp_throw, wp_modify]
  exact ⟨fun _ => hQ, fun _ => trivial⟩

/-- The state once an identifier is taken. -/
def Kernel.pris (s : Kernel) (cell : PidLibre) (reste : List PidLibre) : Kernel := { s with
  pidLibreTete := reste
  blocs := Function.update s.blocs cell.adr none }

theorem Bilan.tete (h : Bilan s.avoirs d) (hl : s.pidLibreTete = cell :: reste) :
    s.blocs cell.adr = some sizeofPidLibre := by
  refine (h.ledger.exact _ _).mpr (Multiset.mem_add.mpr (.inl ?_))
  have hp := Avoirs.possede_pid (A := s.avoirs) (List.Perm.of_eq hl)
  have hm := Multiset.mem_cons_self (cell.adr, sizeofPidLibre)
    ({ s.avoirs with pidLibreTete := reste } : Avoirs).possede
  rw [← hp] at hm
  exact hm

theorem wp_newPid_pris {E : Faute → Prop} {Q : Int → Kernel → Prop} (hd : Bilan s.avoirs d)
    (hl : s.pidLibreTete = cell :: reste) (hQ : Q cell.pid (s.pris cell reste)) :
    wp E newPid Q s := by
  simp only [newPid, memFree, surCore, wp_bind, wp_get, hl, wp_modify, hd.tete hl, if_true]
  exact hQ

/-- A block that is freed after another one is allocated. -/
theorem update_libere {B : Ptr → Option Nat} {p a : Ptr} {x y : Option Nat} (hne : p ≠ a)
    (hB : B p = none) : Function.update (Function.update (Function.update B p x) a y) p none =
      Function.update B a y := by
  have hBp : Function.update B p none = B := Function.update_eq_self_iff.mpr hB.symm
  rw [Function.update_comm hne.symm, Function.update_idem, hBp]

/-- The state `s₁` once a structure is allocated for the process too. -/
structure Entame (s : Kernel) (cell : PidLibre) (reste : List PidLibre) (s₁ : Kernel) : Prop where
  pids : s₁.pidLibreTete = reste
  blocs : s₁.blocs = Function.update (Function.update s.blocs cell.adr none) s.prochain
    (some sizeofProcessus)
  prochain : s.prochain < s₁.prochain
  table : s₁.tableDesProcs = s.tableDesProcs
  files : s₁.chainage = s.chainage
  elu : s₁.procElu = s.procElu
  vivant : s₁.vivant = Function.update s.vivant s.prochain true
  processus : ∀ p, p ≠ s.prochain → s₁.tas p = s.tas p

/-- The identifier, the user stack if there is one and the structure are given back. -/
theorem Entame.wp_rend {s₁ : Kernel} {m : M Unit} (hl : s.pidLibreTete = cell :: reste)
    (h : Entame s cell reste s₁) (hd : Bilan s.avoirs d) (hm : ∀ s₂ : Kernel,
      s₂.tasUser = s₁.tasUser → s₂.memoire = s₁.memoire → wp (fun f => f = .accesNul .addPid) m
        (fun _ s₃ => s₃ = { s₂ with tasUser := s.tasUser, memoire := s₃.memoire }) s₂) :
    wp (fun f => f = .accesNul .addPid) (do
        addPid cell.pid
        m
        libereProcessus .start s.prochain
        pure (Suite.retour (-1)))
      (fun x s' => x = .retour (-1) ∧ SansEffet s s') s₁ := by
  have hlibre : ∀ a, s.prochain ≤ a → s.blocs a = none := fun a ha => by
    by_contra hb
    exact absurd (hd.borne a hb).2 (not_lt.mpr ha)
  have hne : s.prochain ≠ s₁.prochain := h.prochain.ne
  have hcell : s.prochain ≠ cell.adr := by
    intro hx
    have ht := hd.tete hl
    rw [← hx, hlibre _ le_rfl] at ht
    cases ht
  have hpris : Function.update s.blocs cell.adr none s.prochain = none := by
    rw [Function.update_of_ne hcell]
    exact hlibre _ le_rfl
  rw [wp_bind]
  refine wp_addPid_cellule ?_
  rw [wp_bind]
  refine wp_imp (hm _ rfl rfl) ?_
  intro _ s₃ h₃
  generalize s₃.memoire = mem at h₃
  subst h₃
  simp only [libereProcessus, memFree, surCore, wp_bind, wp_get, wp_modify, wp_pure]
  rw [Function.update_of_ne hne, h.blocs, Function.update_self, if_pos rfl]
  refine ⟨trivial, .echange hl (a := s₁.prochain) ?_ (hlibre _ h.prochain.le) ?_, rfl, h.table,
    h.files, h.elu, ?_, ?_⟩
  · show (⟨s₁.prochain, cell.pid⟩ : PidLibre) :: s₁.pidLibreTete = _
    rw [h.pids]
  · exact update_libere hne hpris
  · show Function.update s₁.vivant s.prochain false = s.vivant
    rw [h.vivant, Function.update_idem, Function.update_eq_self_iff]
    exact (Bool.eq_false_iff.mpr hd.prochain_mort).symm
  · intro p hp
    exact h.processus p fun hx => hd.prochain_mort (by rw [← hp, hx]; rfl)

theorem wp_memAlloc_cas {E : Faute → Prop} {Q : Option Ptr → Kernel → Prop} {n : Nat}
    (hnon : s.materiel.memAlloc s.prochain = false → Q none { s with prochain := s.prochain + 1 })
    (hoc : s.materiel.memAlloc s.prochain = true → Q (some s.prochain) { s with
      prochain := s.prochain + 1
      blocs := Function.update s.blocs s.prochain (some n) }) : wp E (memAlloc n) Q s := by
  rw [memAlloc, wp_bind, wp_get]
  dsimp only
  split
  · next h => exact hoc h
  · next h => exact hnon (Bool.eq_false_iff.mpr h)

theorem wp_userStackAlloc_cas {E : Faute → Prop} {Q : Option Nat → Kernel → Prop} {n : Nat}
    (hnon : (∀ adr, s.materiel.userStackAlloc s.prochainUser = some adr →
      ¬ s.tasUser.Libre ⟨adr, n⟩) → Q none { s with prochainUser := s.prochainUser + 1 })
    (hoc : ∀ adr, s.materiel.userStackAlloc s.prochainUser = some adr → s.tasUser.Libre ⟨adr, n⟩ →
      Q (some adr) { s with
        prochainUser := s.prochainUser + 1
        tasUser := s.tasUser.ajoute ⟨adr, n⟩
        memoire := PileUser.prepare ⟨adr, n⟩ s.memoire }) :
    wp E (userStackAlloc n) Q s := by
  rw [userStackAlloc, wp_bind, wp_get]
  cases hadr : s.materiel.userStackAlloc s.prochainUser with
  | none =>
    refine hnon fun adr h => ?_
    rw [hadr] at h
    cases h
  | some adr =>
    dsimp only
    split
    · next h => exact hoc adr hadr h
    · next h =>
      refine hnon fun adr' h' => ?_
      rw [hadr] at h'
      cases h'
      exact h

theorem wp_refus (hd : Bilan s.avoirs d) (hp : ∀ c ∈ s.pidLibreTete, 0 < c.pid)
    (h : Refus s ssize prio) : wp (fun f => f = .accesNul .addPid) (start ssize prio name arg)
      (fun x s' => x = .retour (-1) ∧ SansEffet s s') s := by
  have hlibre : ∀ a, s.prochain ≤ a → s.blocs a = none := fun a ha => by
    by_contra hb
    exact absurd (hd.borne a hb).2 (not_lt.mpr ha)
  have hmort : s.vivant s.prochain = false := Bool.eq_false_iff.mpr hd.prochain_mort
  rw [start, wp_bind]
  cases hl : s.pidLibreTete with
  | nil =>
    simp only [newPid, wp_bind, wp_get, hl]
    exact ⟨rfl, .memes rfl rfl, rfl, rfl, rfl, rfl, rfl, fun _ _ => rfl⟩
  | cons cell reste =>
    refine wp_newPid_pris hd hl ?_
    have hpid : 0 < cell.pid := hp cell (by rw [hl]; exact List.mem_cons_self)
    rw [if_neg (by omega)]
    by_cases hprio : prio ≤ 0 ∨ prio > PRIO_MAX
    · rw [if_pos hprio, wp_bind]
      refine wp_addPid_cellule ⟨rfl, .echange hl rfl (hlibre _ le_rfl) rfl, rfl, rfl, rfl, rfl, rfl, ?_⟩
      exact fun _ _ => rfl
    rw [if_neg hprio]
    dsimp only
    by_cases htaille : ssize > ULONG_MAX - USER_STACK_SIZE * 4
    · rw [if_pos htaille, wp_bind]
      refine wp_addPid_cellule ⟨rfl, .echange hl rfl (hlibre _ le_rfl) rfl, rfl, rfl, rfl, rfl, rfl, ?_⟩
      exact fun _ _ => rfl
    rw [if_neg htaille]
    rw [wp_bind, allocProcessus, wp_bind]
    refine wp_memAlloc_cas (fun _ => ?_) fun hproc => ?_
    · rw [wp_pure, wp_bind]
      refine wp_addPid_cellule ⟨rfl, .echange hl rfl (hlibre _ (Nat.le_succ _)) rfl, rfl, rfl, rfl,
        rfl, rfl, ?_⟩
      exact fun _ _ => rfl
    simp only [surCore, wp_bind, wp_modify, wp_pure]
    refine wp_userStackAlloc_cas (fun _ => ?_) fun adr hadr hlib => ?_
    · refine Entame.wp_rend hl (m := pure ()) ?_ hd fun s₂ h₂ _ => ?_
      · refine ⟨rfl, rfl, Nat.lt_succ_self _, rfl, rfl, rfl, rfl, ?_⟩
        exact fun p hp => Function.update_of_ne hp _ _
      · show s₂ = { s₂ with tasUser := s.tasUser, memoire := s₂.memoire }
        rw [show s.tasUser = s₂.tasUser from h₂.symm]
    rw [wp_bind]
    refine wp_memAlloc_cas (fun _ => ?_) fun hnoyau => ?_
    · refine Entame.wp_rend hl ?_ hd fun s₂ h₂ hm₂ => ?_
      · refine ⟨rfl, rfl, (Nat.lt_succ_self _).trans (Nat.lt_succ_self _), rfl, rfl, rfl, rfl, ?_⟩
        exact fun p hp => Function.update_of_ne hp _ _
      · -- nothing has been written in the block since it was returned
        have hlib : s.tasUser.Libre ⟨adr, ssize + USER_STACK_SIZE * 4⟩ := hlib
        have ht : s₂.tasUser = s.tasUser.ajoute ⟨adr, ssize + USER_STACK_SIZE * 4⟩ := h₂
        have hm : s₂.memoire = PileUser.prepare ⟨adr, ssize + USER_STACK_SIZE * 4⟩ s.memoire := hm₂
        refine wp_userStackFree_garde ?_ (fun hg => ?_) fun _ => ?_
        · rw [ht, TasUser.blocs_ajoute hlib]
          exact List.mem_cons_self
        · rw [hm] at hg
          exact absurd hlib.1.intacte_prepare hg
        · rw [ht, TasUser.retire_ajoute hlib]
    -- nothing is missing
    · exfalso
      cases h with
      | pid h => rw [hl] at h; cases h
      | prio h => omega
      | taille h => exact absurd (not_lt.mp htaille) (by unfold ULONG_MAX USER_STACK_SIZE at *; omega)
      | processus h => exact Bool.false_ne_true (h.symm.trans hproc)
      | pileUser h => exact h adr hadr hlib
      | pileKernel h => exact Bool.false_ne_true (h.symm.trans hnoyau)

-- ---------------------------------------------------------------------------
-- The other calls
-- ---------------------------------------------------------------------------

/-- The code `m` returns `v`. -/
def Renvoie (v : Int) (m : M Suite) : Prop := ∀ s, wp (fun _ => True) m (fun x _ => x.Renvoie v) s

theorem Renvoie.of_bind {α : Type} {m : M α} {k : α → M Suite} {v : Int} (h : ∀ a, Renvoie v (k a)) :
    Renvoie v (m >>= k) := by
  intro s
  rw [wp_bind]
  exact wp_of (fun a s' _ => h a s') fun _ _ => trivial

theorem renvoie_startProc (taille pileUser : Nat) (p pileKernel : Ptr) :
    Renvoie pid (startProc pid taille prio name arg p pileUser pileKernel) := by
  have hfin : ∀ elu : Ptr, Renvoie pid (do
      queueAdd p .procActivables (·.prio)
      let elu ← lire .start elu
      if prio > elu.prio then pure (.ordonnanceur (.retour pid)) else pure (.retour pid)) := by
    refine fun elu => .of_bind fun _ => .of_bind fun elu s => ?_
    split
    · exact .inr rfl
    · exact .inl rfl
  refine .of_bind fun _ => .of_bind fun _ => .of_bind fun _ => .of_bind fun _ => .of_bind fun _ => ?_
  refine .of_bind fun s => ?_
  dsimp only
  split
  · exact .of_bind fun _ => .of_bind fun _ => .of_bind fun _ => hfin _
  · exact .of_bind fun _ => .of_bind fun _ => hfin _

/-- A call that lacks nothing returns the identifier it has taken. -/
theorem wp_accepte (hd : Bilan s.avoirs d) (hp : ∀ c ∈ s.pidLibreTete, 0 < c.pid)
    (h : ¬ Refus s ssize prio) : wp (fun _ => True) (start ssize prio name arg)
      (fun x _ => ∃ v, 0 < v ∧ x.Renvoie v) s := by
  rw [start, wp_bind]
  cases hl : s.pidLibreTete with
  | nil => exact absurd (.pid hl) h
  | cons cell reste =>
    refine wp_newPid_pris hd hl ?_
    have hpid : 0 < cell.pid := hp cell (by rw [hl]; exact List.mem_cons_self)
    have hprio : ¬ (prio ≤ 0 ∨ prio > PRIO_MAX) := fun hx => h (.prio (by omega))
    have htaille : ¬ ssize > ULONG_MAX - USER_STACK_SIZE * 4 := fun hx =>
      h (.taille (by unfold ULONG_MAX USER_STACK_SIZE at *; omega))
    rw [if_neg (by omega), if_neg hprio]
    dsimp only
    rw [if_neg htaille, wp_bind, allocProcessus, wp_bind]
    refine wp_memAlloc_cas (fun hx => absurd (.processus hx) h) fun _ => ?_
    simp only [surCore, wp_bind, wp_modify, wp_pure]
    refine wp_userStackAlloc_cas (fun hx => absurd (.pileUser hx) h) fun adr _ _ => ?_
    rw [wp_bind]
    refine wp_memAlloc_cas (fun hx => absurd (.pileKernel hx) h) fun _ => ?_
    exact wp_imp (renvoie_startProc _ _ _ _ _) fun x _ hx => ⟨cell.pid, hpid, hx⟩

end

-- ---------------------------------------------------------------------------
-- Reachable states
-- ---------------------------------------------------------------------------

/-- In every reachable state, if the allocation in `add_pid` succeeds, `start` returns
`-1` exactly when something is missing, and it then changes nothing. -/
theorem start_sans_effet {c : Config} (hc : Accessible c) (ssize : Nat) (prio : Int) (name : Nom)
    (arg : BitVec 32) (hadd : start ssize prio name arg c.s ≠ .error (.accesNul .addPid)) :
    ((∃ x s', start ssize prio name arg c.s = .ok (x, s') ∧ x.Renvoie (-1)) ↔
        Refus c.s ssize prio) ∧
      ∀ x s', start ssize prio name arg c.s = .ok (x, s') → x.Renvoie (-1) →
        s'.pidLibreTete.map PidLibre.pid = c.s.pidLibreTete.map PidLibre.pid ∧
          SansEffet c.s s' := by
  obtain ⟨perdus, hb, -⟩ := hc.perte
  have hp : ∀ cell ∈ c.s.pidLibreTete, 0 < cell.pid := fun cell hcell =>
    (hc.valide.stable.coherent.pidLibre cell hcell).1
  -- a call that returns -1 lacks something
  have hrefus : ∀ x s', start ssize prio name arg c.s = .ok (x, s') → x.Renvoie (-1) →
      Refus c.s ssize prio := by
    intro x s' hs hx
    by_contra h
    obtain ⟨v, hv, hx'⟩ := wp_ok (wp_accepte hb hp h) hs
    rcases hx with rfl | rfl <;> rcases hx' with hx' | hx' <;> cases hx' <;> omega
  refine ⟨⟨fun ⟨x, s', hs, hx⟩ => hrefus x s' hs hx, fun h => ?_⟩, fun x s' hs hx => ?_⟩
  · have hwp : wp _ (start ssize prio name arg) _ c.s := wp_refus hb hp h
    cases hs : start ssize prio name arg c.s with
    | ok r => exact ⟨r.1, r.2, rfl, .inl (wp_ok hwp hs).1⟩
    | error f => exact absurd (hs.trans (congrArg Except.error (wp_error hwp hs))) hadd
  · have h := (wp_ok (wp_refus hb hp (hrefus x s' hs hx)) hs).2
    exact ⟨h.pids, h⟩

/-- A machine without memory for the block `n`. -/
def materielSans (n : Nat) : Materiel := { materielType with memAlloc := fun k => k ≠ n }

/-- The user process has started a child; there is no memory for the kernel stack of
the next one, whose structure and user stack are given back. -/
theorem start_sans_effet_exemple : ∃ c, Accessible c ∧
    c.s.materiel.memAlloc c.s.prochain = true ∧ c.s.materiel.memAlloc (c.s.prochain + 1) = false ∧
      ∃ s', start 0 1 .nul 0 c.s = .ok (.retour (-1), s') ∧ SansEffet c.s s' := by
  have hany : ((depart (materielSans 77) fun _ => 0).toOption.bind fun c =>
      execute c [.suite, appel 2 0x1000000 0 1 0]).any (fun c =>
        decide (c.s.materiel.memAlloc c.s.prochain = true ∧
          c.s.materiel.memAlloc (c.s.prochain + 1) = false) &&
          match start 0 1 .nul 0 c.s with
          | .ok (.retour v, _) => v = -1
          | _ => false) = true := by decide +kernel
  obtain ⟨c, hrun, hQ⟩ := (Option.any_eq_true _ _).mp hany
  obtain ⟨c₀, h₀, hrun⟩ := Option.bind_eq_some_iff.mp hrun
  have hd : depart (materielSans 77) (fun _ => 0) = .ok c₀ := by
    cases hx : depart (materielSans 77) fun _ => 0 with
    | error f => rw [hx] at h₀; cases h₀
    | ok c => rw [hx] at h₀; cases h₀; rfl
  have hc : Accessible c := Atteint.execute (.depart hd) (fun _ _ _ => trivial) hrun
  rw [Bool.and_eq_true, decide_eq_true_eq] at hQ
  obtain ⟨⟨hproc, hnoyau⟩, hq⟩ := hQ
  have hok : ∃ s', start 0 1 .nul 0 c.s = .ok (.retour (-1), s') := by
    split at hq
    · next v s' hs => exact ⟨s', by rw [hs, of_decide_eq_true hq]⟩
    · cases hq
  obtain ⟨s', hs⟩ := hok
  have hadd : start 0 1 .nul 0 c.s ≠ .error (.accesNul .addPid) := by
    rw [hs]
    exact nofun
  exact ⟨c, hc, hproc, hnoyau, s', hs, ((start_sans_effet hc 0 1 .nul 0 hadd).2 _ s' hs (.inl rfl)).2⟩

end GenesisOS
