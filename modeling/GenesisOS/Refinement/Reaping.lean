import GenesisOS.Refinement.Frames
import GenesisOS.Refinement.Scheduling
import GenesisOS.Refinement.Stacks

/-!
# GenesisOS — what freeing a process does to the memory

One turn of `free_mourant_queue` on the whole kernel state (`Kernel.moisson`):
the blocks of the process are returned, those of its children's cells too, its
user stack is zeroed, and its identifier takes a new cell.
-/

namespace GenesisOS

open Lib

/-- The blocks of the process, with their lengths: its structure, its kernel
stack and the cells of its children. -/
def Core.blocsDe (s : Core) (p : Ptr) : List (Ptr × Nat) :=
  (p, sizeofProcessus) :: ((s.tas p).pileKernel, (s.tas p).pileSizeKernel) ::
    (s.tas p).filsTete.map fun f => (f.adr, sizeofFils)

/-- The state after the turn of `p`, from the state before it. -/
def Kernel.moisson (s : Kernel) (p : Ptr) : Kernel := { s with
  toCore := s.toCore.libere p s.prochain (s.prochain + 1)
  blocs := fun a =>
    if a = s.prochain then some sizeofPidLibre
    else if a ∈ (s.blocsDe p).map Prod.fst then none
    else s.blocs a
  tasUser := s.tasUser.retire (s.tas p).pile
  memoire := memsetZero s.memoire (s.tas p).pile.debut (4 * (s.tas p).pile.mots) }

section

variable {E : Faute → Prop} {s : Kernel} {p : Ptr}

theorem wp_freeChild_memoire {f : Fils} {Q : Unit → Kernel → Prop}
    (hv : s.vivant f.procFils = true)
    (hl : (s.tas f.procFils).etat = .zombie → s.lien f.procFils = none)
    (hb : s.blocs f.adr = some sizeofFils)
    (h : Q () { s with
      toCore := s.toCore.detache f.procFils, blocs := Function.update s.blocs f.adr none }) :
    wp E (freeChild f) Q s := by
  unfold Core.detache at h
  rw [freeChild, wp_bind, lire, wp_bind, wp_get, if_pos hv, wp_pure]
  by_cases hz : (s.tas f.procFils).etat = .zombie
  · rw [if_pos hz] at h ⊢
    simp only [ecrire, queueAdd, memFree, surCore, wp_bind, wp_get, wp_set, wp_modify, hv, if_true,
      Core.lien_maj, hl hz, hb]
    exact h
  · rw [if_neg hz] at h ⊢
    simp only [ecrire, memFree, surCore, wp_bind, wp_get, wp_set, wp_modify, hv, if_true, hb]
    exact h

theorem wp_freeChilds_memoire {Q : Unit → Kernel → Prop} (l : List Fils)
    (hnd : (l.map Fils.procFils).Nodup) (hnd' : (l.map Fils.adr).Nodup)
    (hv : ∀ c ∈ l.map Fils.procFils, s.vivant c = true)
    (hl : ∀ c ∈ l.map Fils.procFils, (s.tas c).etat = .zombie → s.lien c = none)
    (hb : ∀ f ∈ l, s.blocs f.adr = some sizeofFils)
    (h : ∀ s', s' = { s with
      toCore := (l.map Fils.procFils).foldl Core.detache s.toCore
      blocs := fun a => if a ∈ l.map Fils.adr then none else s.blocs a } → Q () s') :
    wp E (l.forM freeChild) Q s := by
  induction l generalizing s with
  | nil =>
    simp only [List.map_nil, List.not_mem_nil, if_false] at h
    exact h s rfl
  | cons f l ih =>
    rw [List.map_cons, List.nodup_cons] at hnd hnd'
    simp only [List.map_cons, List.mem_cons, forall_eq_or_imp] at hv hl hb
    show wp E (freeChild f >>= fun _ => l.forM freeChild) Q s
    rw [wp_bind]
    refine wp_freeChild_memoire hv.1 hl.1 hb.1 ?_
    -- the children left are not touched by the turn of `f`
    have D : Detaches [f.procFils] s.toCore (s.toCore.detache f.procFils) :=
      detaches_foldl [f.procFils] (by simp) (by simpa using hl.1)
    have hne : ∀ c ∈ l.map Fils.procFils, c ∉ [f.procFils] := by
      intro c hc hx
      rw [List.mem_singleton.mp hx] at hc
      exact hnd.1 hc
    refine ih hnd.2 hnd'.2 ?_ ?_ ?_ ?_
    · intro c hc
      show (s.toCore.detache f.procFils).vivant c = true
      rw [D.vivant]
      exact hv.2 c hc
    · intro c hc hz
      have hz' : (s.tas c).etat = .zombie := by
        have : ((s.toCore.detache f.procFils).tas c).etat = .zombie := hz
        rwa [D.tas, if_neg (hne c hc)] at this
      refine (D.lien c).trans ?_
      rw [if_neg fun hx => hne c hc hx.1]
      exact hl.2 c hc hz'
    · intro g hg
      have hga : g.adr ≠ f.adr := by
        intro hx
        exact hnd'.1 (hx ▸ List.mem_map_of_mem hg)
      exact (Function.update_of_ne hga _ _).trans (hb.2 g hg)
    · have hblocs : (fun a => if a ∈ l.map Fils.adr then none
          else Function.update s.blocs f.adr none a) =
          fun a => if a ∈ (f :: l).map Fils.adr then none else s.blocs a := by
        funext a
        rw [Function.update_apply, List.map_cons]
        simp only [List.mem_cons]
        by_cases hal : a ∈ l.map Fils.adr
        · rw [if_pos hal, if_pos (.inr hal)]
        · rw [if_neg hal]
          by_cases haf : a = f.adr
          · rw [if_pos haf, if_pos (.inl haf)]
          · rw [if_neg haf, if_neg (fun hx => hx.elim haf hal)]
      rintro s' rfl
      refine h _ ?_
      rw [← hblocs]
      rfl

/-- What `freeMourant` needs to return the blocks of the process. -/
structure Kernel.Rend (s : Kernel) (p : Ptr) : Prop where
  lien : s.lien p = some .procMourants
  vivant : s.vivant p = true
  fils : ∀ c ∈ s.fils p, s.vivant c = true ∧ c ≠ p ∧ ((s.tas c).etat = .zombie → s.lien c = none)
  unique : (s.fils p).Nodup
  blocs : ∀ b ∈ s.blocsDe p, s.blocs b.1 = some b.2 ∧ b.1 < s.prochain
  distincts : ((s.blocsDe p).map Prod.fst).Nodup
  pile : (s.tas p).pile ∈ s.tasUser.blocs

/-- One turn of `free_mourant_queue`, after `queue_out`: it stops only when no
memory is left for the cell of the identifier, or when a guard word of the user
stack has been overwritten. -/
theorem wp_freeMourant_memoire {Q : Unit → Kernel → Prop} (h : s.Rend p)
    (hE : s.materiel.memAlloc s.prochain = false → E (.accesNul .addPid))
    (hG : ¬ (s.tas p).pile.Intacte s.memoire → E (.memBug .freeMourantQueue))
    (hQ : s.materiel.memAlloc s.prochain = true → (s.tas p).pile.Intacte s.memoire →
      Q () (s.moisson p)) :
    wp E (freeMourant p) Q { s with toCore := s.toCore.retire p } := by
  have hz : ∀ c ∈ s.fils p, (s.tas c).etat = .zombie → s.lien c = none := fun c hc => (h.fils c hc).2.2
  obtain ⟨hproc, hpile, hfils⟩ : (s.blocs p = some sizeofProcessus ∧ p < s.prochain) ∧
      (s.blocs (s.tas p).pileKernel = some (s.tas p).pileSizeKernel ∧
        (s.tas p).pileKernel < s.prochain) ∧
      ∀ f ∈ (s.tas p).filsTete, s.blocs f.adr = some sizeofFils ∧ f.adr < s.prochain :=
    ⟨h.blocs _ List.mem_cons_self, h.blocs _ (List.mem_cons_of_mem _ List.mem_cons_self),
      fun f hf => h.blocs _ (List.mem_cons_of_mem _ (List.mem_cons_of_mem _
        (List.mem_map_of_mem (f := fun f : Fils => (f.adr, sizeofFils)) hf)))⟩
  have hp : p ∉ s.fils p := fun hm => (h.fils p hm).2.1 rfl
  have D : Detaches (s.fils p) (s.toCore.retire p)
      ((s.fils p).foldl Core.detache (s.toCore.retire p)) := by
    refine detaches_foldl _ h.unique fun c hc hzc => ?_
    rw [Core.lien_retire, if_neg (h.fils c hc).2.1]
    exact hz c hc hzc
  obtain ⟨hcells, ⟨hpk, hpk'⟩, hpn⟩ : ((s.tas p).filsTete.map Fils.adr).Nodup ∧
      ((s.tas p).pileKernel ∉ (s.tas p).filsTete.map Fils.adr ∧ p ≠ (s.tas p).pileKernel) ∧
        p ∉ (s.tas p).filsTete.map Fils.adr := by
    have hd := h.distincts
    unfold Core.blocsDe at hd
    simp only [List.map_cons, List.map_map, List.nodup_cons, List.mem_cons, not_or] at hd
    exact ⟨hd.2.2, ⟨hd.2.1, hd.1.1⟩, hd.1.2⟩
  rw [freeMourant, freeChilds, wp_bind, wp_bind]
  refine wp_lire h.vivant ?_
  refine wp_freeChilds_memoire _ h.unique hcells (fun c hc => (h.fils c hc).1) ?_
    (fun f hf => (hfils f hf).1) ?_
  · intro c hc hzc
    show (s.toCore.retire p).lien c = none
    rw [Core.lien_retire, if_neg (h.fils c hc).2.1]
    exact hz c hc hzc
  intro s₁ h₁
  have hcore : s₁.toCore = (s.fils p).foldl Core.detache (s.toCore.retire p) := by
    rw [h₁]
    rfl
  have hblocs : ∀ a, s₁.blocs a =
      if a ∈ (s.tas p).filsTete.map Fils.adr then none else s.blocs a := by
    intro a
    rw [h₁]
    rfl
  rw [← hcore] at D
  have htas : s₁.tas p = s.tas p := (D.tas p).trans (if_neg hp)
  have hpro : s₁.prochain = s.prochain := D.prochain
  have hmat : s₁.materiel = s.materiel := by rw [h₁]
  have huser : s₁.tasUser = s.tasUser := by rw [h₁]
  have hmem : s₁.memoire = s.memoire := by rw [h₁]
  rw [wp_bind]
  refine wp_lire (by rw [D.vivant]; exact h.vivant) ?_
  rw [htas]
  simp only [surCore, addPid, memAllocNonNul, memAlloc, wp_bind, wp_get, wp_modify]
  rw [hmat, hpro]
  split
  swap
  · next hm => exact hE (by simpa using hm)
  next halloc =>
  have hk : Function.update s₁.blocs s.prochain (some sizeofPidLibre) (s.tas p).pileKernel =
      some (s.tas p).pileSizeKernel := by
    rw [Function.update_of_ne hpile.2.ne, hblocs, if_neg hpk]
    exact hpile.1
  have hpr : Function.update (Function.update s₁.blocs s.prochain (some sizeofPidLibre))
      (s.tas p).pileKernel none p = some sizeofProcessus := by
    rw [Function.update_of_ne hpk', Function.update_of_ne hproc.2.ne, hblocs, if_neg hpn]
    exact hproc.1
  simp only [memFree, wp_bind, wp_get, wp_set, wp_pure, hk, if_true]
  refine wp_userStackFree_garde (huser ▸ h.pile) (fun hg => hG (hmem ▸ hg)) fun hg => ?_
  simp only [memFree, libereProcessus, note, surCore, wp_bind, wp_get, wp_set, wp_modify, hpr,
    if_true]
  have hfin : ∀ {s₂ : Kernel}, s₂.blocs = (s.moisson p).blocs →
      { s₂ with blocs := (s.moisson p).blocs } = s.moisson p → Q () s₂ := by
    intro s₂ hb hr
    rw [← hb] at hr
    rw [show s₂ = s.moisson p from hr]
    exact hQ halloc (hmem ▸ hg)
  refine hfin ?_ ?_
  · funext a
    simp only [Kernel.moisson, Core.blocsDe, Function.update_apply, hblocs, List.map_cons,
      List.map_map, List.mem_cons]
    by_cases hap : a = p
    · subst hap
      rw [if_pos rfl, if_neg hproc.2.ne, if_pos (.inl rfl)]
    rw [if_neg hap]
    by_cases hak : a = (s.tas p).pileKernel
    · subst hak
      rw [if_pos rfl, if_neg hpile.2.ne, if_pos (.inr (.inl rfl))]
    rw [if_neg hak]
    by_cases han : a = s.prochain
    · rw [if_pos han, if_pos han]
    rw [if_neg han, if_neg han]
    have hmem : (a = p ∨ a = (s.tas p).pileKernel ∨
        a ∈ (s.tas p).filsTete.map (Prod.fst ∘ fun f => (f.adr, sizeofFils))) ↔
          a ∈ (s.tas p).filsTete.map Fils.adr :=
      ⟨fun hx => (hx.resolve_left hap).resolve_left hak, fun hx => .inr (.inr hx)⟩
    simp only [hmem]
  · subst h₁
    rfl

end

end GenesisOS
