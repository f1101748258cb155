import GenesisOS.Invariants.Filiation
import GenesisOS.Refinement.Boot

/-!
# GenesisOS — the tables and the families

What the tables, the free lists and the lists of children say of each other in
every reachable state: an identifier is free exactly when it names nothing, and
`pere` and `FilsTete` are one relation, without cycles.
-/

namespace GenesisOS

open Lib

-- ---------------------------------------------------------------------------
-- Identifiers
-- ---------------------------------------------------------------------------

theorem Atteint.libres {P : Config → Signal → Prop} {c : Config} (h : Atteint P c) :
    c.s.toCore.Libres :=
  h.invariant (fun _ h₀ => h₀.libres) (Core.Libres.conserve _)
    (fun _ _ hs => hs.congr ⟨rfl, rfl, rfl, rfl, rfl, rfl⟩) fun _ _ _ _ => Core.Libres.conserve _

/-- No free list holds an identifier twice, an identifier is free exactly when
its entry is empty, and an entry holds an object with its own identifier. -/
theorem identifiants_coherents {c : Config} (h : Accessible c) :
    ((c.s.pidLibreTete.map PidLibre.pid).Nodup ∧ (c.s.fidListe.map FidLibre.fid).Nodup ∧
      (c.s.sidListe.map SidLibre.sid).Nodup) ∧
    (∀ i, i ∈ c.s.pidLibreTete.map PidLibre.pid ↔
      0 < i ∧ i < MAX_PROCESS ∧ c.s.tableDesProcs i = none) ∧
    (∀ i, i ∈ c.s.fidListe.map FidLibre.fid ↔
      0 ≤ i ∧ i < NBQUEUE ∧ c.s.tableauFile i = none) ∧
    (∀ i, i ∈ c.s.sidListe.map SidLibre.sid ↔
      0 ≤ i ∧ i < NBSEM ∧ c.s.tableauSem i = none) ∧
    (∀ i p, c.s.tableDesProcs i = some p → c.s.vivant p = true ∧ (c.s.tas p).pid = i) ∧
    (∀ i f, c.s.tableauFile i = some f → f.fid = i) ∧
    ∀ i sem, c.s.tableauSem i = some sem → sem.sid = i := by
  have hc := h.valide.stable.coherent
  have hl := h.libres
  refine ⟨⟨hc.pidUnique, hc.fidUnique, hc.sidUnique⟩, ?_, ?_, ?_, hc.table, ?_, hl.nom⟩
  · intro i
    constructor
    · intro hi
      obtain ⟨cell, hcell, rfl⟩ := List.mem_map.mp hi
      exact hc.pidLibre cell hcell
    · rintro ⟨h0, hN, hi⟩
      exact hl.pid i h0 hN hi
  · intro i
    constructor
    · intro hi
      obtain ⟨cell, hcell, rfl⟩ := List.mem_map.mp hi
      exact hc.fidLibre cell hcell
    · rintro ⟨h0, hN, hi⟩
      exact hl.fid i h0 hN hi
  · intro i
    constructor
    · intro hi
      obtain ⟨cell, hcell, rfl⟩ := List.mem_map.mp hi
      exact hc.sidLibre cell hcell
    · rintro ⟨h0, hN, hi⟩
      exact hl.sid i h0 hN hi
  · intro i f hf
    exact (hc.file i f hf).2.2.1

/-- A child that exits gives its identifier back once its father has waited for
it. -/
theorem identifiants_coherents_exemple : ∃ c, Accessible c ∧
    c.s.tableDesProcs 2 = none ∧ 2 ∈ c.s.pidLibreTete.map PidLibre.pid := by
  obtain ⟨c, hc, h⟩ := Accessible.scenario
    (l := [.suite, appel 2 0x1000000 0 2 0, .suite, appel 3 0 0 0 0, .suite, appel 17 2 0 0 0])
    (Q := fun c => decide (c.s.tableDesProcs 2 = none)) (by decide +kernel)
  have h := of_decide_eq_true h
  exact ⟨c, hc, h, ((identifiants_coherents hc).2.1 2).mpr ⟨by decide, by decide, h⟩⟩

-- ---------------------------------------------------------------------------
-- Filiation
-- ---------------------------------------------------------------------------

theorem Initial.registre {s : Core} (h : Initial s) : s.Registre := by
  have ha : s.actes = [] := by rw [Core.actes, h.journal]; rfl
  refine ⟨?_, ?_, ?_, ?_, ?_, ?_⟩
  · intro p hv
    rw [h.seul p hv]
    exact .inl ⟨rfl, h.pere⟩
  · intro p hv _
    rw [h.seul p hv, ha]
    exact ⟨h.retval, List.not_mem_nil, fun _ => List.not_mem_nil⟩
  · intro p hv hm
    rw [h.seul p hv, ← h.elu, h.enCours.etat] at hm
    cases hm
  · intro f p hr
    rw [ha] at hr
    cases hr
  · rw [ha]
    exact List.nodup_nil
  · intro e he
    rw [ha] at he
    cases he

theorem Atteint.registre {P : Config → Signal → Prop} {c : Config} (h : Atteint P c) :
    c.s.toCore.Registre :=
  h.invariant (fun _ h₀ => h₀.registre) (Core.Registre.conserve _) (fun _ _ hs => hs.empile)
    fun _ _ _ _ => Core.Registre.conserve _

/-- The process is in the table of processes. -/
def Core.Inscrit (s : Core) (p : Ptr) : Prop := ∃ i, s.tableDesProcs i = some p

theorem Coherent.inscrit_iff {s : Core} (h : Coherent s) {p : Ptr} :
    s.Inscrit p ↔ s.vivant p = true := by
  constructor
  · rintro ⟨i, hi⟩
    exact (h.table i p hi).1
  · exact fun hv => ⟨_, h.inscrit p hv⟩

/-- The ancestor of `p` that `n` steps along `pere` reach. -/
def Core.ancetre (s : Core) : Nat → Ptr → Option Ptr
  | 0, p => some p
  | n + 1, p => (s.tas p).pere.bind (s.ancetre n)

/-- The steps along `pere` are counted by the address: a father is older. -/
theorem Core.Registre.ancetre {s : Core} (h : s.Registre) (hc : Coherent s) (ho : s.Orphelins)
    (n : Nat) : ∀ p, p < n → s.vivant p = true → ∃ k, s.ancetre k p = none := by
  induction n with
  | zero => exact fun p hp => absurd hp (Nat.not_lt_zero p)
  | succ n ih =>
    intro p hp hv
    cases hpe : (s.tas p).pere with
    | none => exact ⟨1, by simp [Core.ancetre, hpe]⟩
    | some f =>
      have hm : (s.tas p).etat ≠ .mourant := by
        intro hm
        rw [ho p hv hm] at hpe
        cases hpe
      have hlt : f < p := by
        rcases h.naissance p hv with ⟨-, hn⟩ | ⟨g, -, hg, hlt⟩
        · rw [hn] at hpe
          cases hpe
        · rw [hpe] at hg
          rcases hg with hg | hg
          · cases hg
          · exact hlt f hg.symm
      obtain ⟨k, hk⟩ := ih f (hlt.trans_le (Nat.lt_succ_iff.mp hp)) (hc.pere p f hv hm hpe).1
      exact ⟨k + 1, by simp [Core.ancetre, hpe, hk]⟩

/-- `pere` and `FilsTete` are one relation between live processes, without
cycles, in which a child has one father and one cell; the unlinking loop of
`waitpid` never runs off its list. -/
theorem filiation_coherente {c : Config} (h : Accessible c) :
    (∀ p f, c.s.toCore.Inscrit p →
      ((c.s.tas p).pere = some f ↔ c.s.toCore.Inscrit f ∧ p ∈ c.s.toCore.fils f)) ∧
    (∀ f p, c.s.toCore.Inscrit f → p ∈ c.s.toCore.fils f → c.s.toCore.Inscrit p ∧
      (c.s.toCore.fils f).count p = 1 ∧
      ∀ g, c.s.toCore.Inscrit g → p ∈ c.s.toCore.fils g → g = f) ∧
    (∀ p, c.s.toCore.Inscrit p → ∃ n, c.s.toCore.ancetre n p = none) ∧
    ∀ e, possible c e = true → pas c e ≠ .error (.accesNul .waitpid) := by
  have hv := h.valide
  have hc := hv.stable.coherent
  simp only [hc.inscrit_iff]
  refine ⟨?_, ?_, ?_, ?_⟩
  · intro p f hp
    constructor
    · intro hpe
      refine hc.pere p f hp ?_ hpe
      intro hm
      rw [hv.stable.orphelins p hp hm] at hpe
      cases hpe
    · rintro ⟨hf, hpf⟩
      exact (hc.fils f p hf hpf).2.1
  · intro f p hf hpf
    refine ⟨(hc.fils f p hf hpf).1, List.count_eq_one_of_mem (hc.filsUnique f hf) hpf, ?_⟩
    intro g hg hpg
    have hpe := (hc.fils f p hf hpf).2.1
    rw [(hc.fils g p hg hpg).2.1] at hpe
    exact Option.some.inj hpe
  · intro p hp
    exact h.registre.ancetre hc hv.stable.orphelins (p + 1) p (Nat.lt_succ_self p) hp
  · intro e hp hf
    rcases (pas_raffine hv hp).2 _ hf with hx | hx <;> cases hx

/-- The grandfather of a process of three generations has no father. -/
theorem filiation_coherente_exemple : ∃ c p f g, Accessible c ∧ c.s.tableDesProcs 3 = some p ∧
    (c.s.tas p).pere = some f ∧ (c.s.tas f).pere = some g ∧ p ∈ c.s.toCore.fils f ∧
      ∃ n, c.s.toCore.ancetre n p = none := by
  obtain ⟨c, hc, h⟩ := Accessible.scenario
    (l := [.suite, appel 2 0x1000000 0 2 0, .suite, appel 2 0x1000000 0 3 0])
    (Q := fun c => (c.s.tableDesProcs 3).any fun p => (c.s.tas p).pere.any fun f =>
      (c.s.tas f).pere.isSome) (by decide +kernel)
  obtain ⟨p, hp, h⟩ := (Option.any_eq_true _ _).mp h
  obtain ⟨f, hf, h⟩ := (Option.any_eq_true _ _).mp h
  obtain ⟨g, hg⟩ := Option.isSome_iff_exists.mp h
  have hC := filiation_coherente hc
  exact ⟨c, p, f, g, hc, hp, hf, hg, ((hC.1 p f ⟨3, hp⟩).mp hf).2, hC.2.2.1 p ⟨3, hp⟩⟩

end GenesisOS
