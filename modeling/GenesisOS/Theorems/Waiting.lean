import GenesisOS.Invariants.Waiting
import GenesisOS.Theorems.Queues

/-!
# GenesisOS — a child's death and its father's `waitpid`

A process blocked in `waitpid` waits for living children, whatever the order
of their deaths and of its call, in a run where no process kills itself while
its father waits for it: that path of `kill` does not wake the father.
-/

namespace GenesisOS

open Lib

/-- The elected process kills itself while its father is blocked in `waitpid`
for it. -/
def SeTueAttendu (c : Config) (e : Signal) : Prop :=
  ∃ r, e.Appelle .kill r ∧ c.s.tableDesProcs r.ebx.toInt = some c.s.procElu ∧
    c.s.toCore.Attendu c.s.procElu

/-- A process blocked in `waitpid` has a living child to wait for. -/
def Core.Veille (s : Core) (f : Ptr) : Prop :=
  (∃ pid c r, (s.tas f).contexte = .waitpid pid c r ∧ 0 ≤ pid ∧ s.tableDesProcs pid = some c ∧
    (s.tas c).etat ≠ .zombie) ∨
  ∃ pid r, (s.tas f).contexte = .waitpidFils pid r ∧ pid < 0 ∧
    ∀ c ∈ s.fils f, (s.tas c).etat ≠ .zombie

theorem Core.Guet.veille {s : Core} (h : s.Guet) (hc : Coherent s) {f : Ptr}
    (hv : s.vivant f = true) (he : (s.tas f).etat = .attendFils) : s.Veille f := by
  have hsus := hc.suspendu f hv
  have hm : ¬ s.Mort f := by
    rintro (hm | hm) <;> rw [he] at hm <;> cases hm
  rcases hsus.fils he with ⟨pid, c, r, hk⟩ | ⟨pid, r, hk⟩
  · obtain ⟨h0, hcf, hpid⟩ := hsus.waitpid hm pid c r hk
    refine .inl ⟨pid, c, r, hk, h0, ?_, ?_⟩
    · rw [← hpid]
      exact hc.inscrit c (hc.fils f c hv hcf).1
    · intro hz
      obtain ⟨pid', c', r', hk', hne⟩ := h f c hv he hcf hz
      rw [hk] at hk'
      cases hk'
      exact hne rfl
  · refine .inr ⟨pid, r, hk, (hsus.waitpidFils hm pid r hk).1, ?_⟩
    intro c hcf hz
    obtain ⟨pid', c', r', hk', -⟩ := h f c hv he hcf hz
    rw [hk] at hk'
    cases hk'

theorem Initial.guet {s : Core} (h : Initial s) : s.Guet := by
  intro f c hf he
  rw [h.seul f hf, ← h.elu, h.enCours.etat] at he
  cases he

/-- In a run where no process kills itself while its father waits for it, the
processes blocked in `waitpid` wait for living children. -/
theorem reveil_jamais_perdu {c : Config} (h : Atteint (fun c e => ¬ SeTueAttendu c e) c) {f : Ptr}
    (hv : c.s.vivant f = true) (he : (c.s.tas f).etat = .attendFils) : c.s.toCore.Veille f := by
  refine Core.Guet.veille (h.invariant (fun _ h₀ => h₀.guet)
    (Core.Guet.conserve fun _ hm => hm.elim) (fun _ he hs => hs.depile he) ?_)
    h.valide.stable.coherent hv he
  intro c e hc hp ht _
  refine Core.Guet.conserve ?_
  rintro s ⟨rfl, r, ⟨rfl, hsv⟩, htable⟩ hatt
  rw [Config.entree_int49 hp] at hatt
  exact ht ⟨r, ⟨rfl, hsv⟩, htable, hatt⟩

/-- A child kills itself while its father is in `waitpid`. -/
theorem reveil_jamais_perdu_faux : ∃ c f pid x r, Accessible c ∧ c.mode = .utilisateur ∧
    c.s.vivant f = true ∧ (c.s.tas f).etat = .attendFils ∧
      (c.s.tas f).contexte = .waitpid pid x r ∧ c.s.tableDesProcs pid = some x ∧
        (c.s.tas x).etat = .zombie := by
  obtain ⟨c, hc, h⟩ := Accessible.scenario (l := pereEnAttente ++ [appel 4 2 0 0 0, .suite])
    (Q := fun c => decide (c.mode = .utilisateur) && (c.s.tableDesProcs 1).any fun f =>
      c.s.vivant f && decide ((c.s.tas f).etat = .attendFils) &&
        match (c.s.tas f).contexte with
        | .waitpid pid x _ =>
          decide (c.s.tableDesProcs pid = some x) && decide ((c.s.tas x).etat = .zombie)
        | _ => false) (by decide +kernel)
  rw [Bool.and_eq_true, decide_eq_true_eq] at h
  obtain ⟨hm, h⟩ := h
  obtain ⟨f, -, h⟩ := (Option.any_eq_true _ _).mp h
  simp only [Bool.and_eq_true, decide_eq_true_eq] at h
  obtain ⟨⟨hv, he⟩, h⟩ := h
  split at h
  · next pid x r hk =>
    simp only [Bool.and_eq_true, decide_eq_true_eq] at h
    exact ⟨c, f, pid, x, r, hc, hm, hv, he, hk, h.1, h.2⟩
  · cases h

/-- While the child runs, its father waits for it. -/
theorem reveil_jamais_perdu_exemple : ∃ c f, Accessible c ∧ (c.s.tas f).etat = .attendFils ∧
    c.s.toCore.Veille f := by
  have h : (scenario pereEnAttente).any (fun c => (c.s.tableDesProcs 1).any fun f =>
      c.s.vivant f && decide ((c.s.tas f).etat = .attendFils)) = true := by decide +kernel
  obtain ⟨c, hc, h⟩ := (Option.any_eq_true _ _).mp h
  obtain ⟨f, -, h⟩ := (Option.any_eq_true _ _).mp h
  simp only [Bool.and_eq_true, decide_eq_true_eq] at h
  have hrun : Atteint (fun c e => ¬ SeTueAttendu c e) c := by
    refine Atteint.scenario hc ?_
    rintro e he c ⟨r, ⟨rfl, hsv⟩, -⟩
    exact not_appelle_of_sansKill (l := pereEnAttente) (by decide) he hsv
  exact ⟨c, f, Atteint.scenario hc fun _ _ _ => trivial, h.2, reveil_jamais_perdu hrun h.1 h.2⟩

end GenesisOS
