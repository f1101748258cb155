import GenesisOS.Refinement.Reaping
import GenesisOS.Refinement.Accounts

/-!
# GenesisOS — which processes `free_mourant_queue` frees

From a coherent forest of processes (`Foret`), `free_mourant_queue` empties
`proc_mourants` and frees the processes of the least set that contains its
elements and the zombie children of its members (`Core.ALiberer`), each once.
`Moisson s l s'` describes the state when the processes of `l` have been freed,
which is also what the loop preserves. It stops earlier only when memory is left
for too few of their identifiers, or when the guard words of one of their user
stacks have been overwritten (`Kernel.Entrave`).
-/

namespace GenesisOS

open Lib

/-- The processes to be freed: those in `proc_mourants`, and their zombie
children, and so on. -/
inductive Core.ALiberer (s : Core) : Ptr → Prop
  | file {p : Ptr} (h : p ∈ s.elems .procMourants) : Core.ALiberer s p
  | fils {p c : Ptr} (h : Core.ALiberer s p) (hc : c ∈ s.fils p) (hz : (s.tas c).etat = .zombie) :
      Core.ALiberer s c

/-- Coherent filiation, and processes to be freed that own their blocks. -/
structure Foret (s : Kernel) : Prop where
  ancien : ∀ p, s.vivant p = true → p < s.prochain
  mourant : ∀ p ∈ s.elems .procMourants,
    s.vivant p = true ∧ (s.tas p).etat = .mourant ∧ (s.tas p).pere = none
  fils : ∀ f c, s.vivant f = true → c ∈ s.fils f → s.vivant c = true ∧ (s.tas c).pere = some f
  pere : ∀ c f, s.vivant c = true → (s.tas c).pere = some f → s.vivant f = true ∧ c ∈ s.fils f
  unique : ∀ f, s.vivant f = true → (s.fils f).Nodup
  zombie : ∀ p, s.vivant p = true → (s.tas p).etat = .zombie → s.lien p = none
  blocs : ∀ p, s.ALiberer p → ∀ b ∈ s.blocsDe p, s.blocs b.1 = some b.2 ∧ b.1 < s.prochain
  distincts : ∀ p, s.ALiberer p → ((s.blocsDe p).map Prod.fst).Nodup
  disjoints : ∀ p q, s.ALiberer p → s.ALiberer q → p ≠ q →
    ((s.blocsDe p).map Prod.fst).Disjoint ((s.blocsDe q).map Prod.fst)
  pile : ∀ p, s.ALiberer p → (s.tas p).pile ∈ s.tasUser.blocs
  piles : ∀ p q, s.ALiberer p → s.ALiberer q → p ≠ q → (s.tas p).pile ≠ (s.tas q).pile

/-- What stops `free_mourant_queue`: no memory is left for the cell of an identifier, or
a guard word of a user stack has been overwritten. -/
inductive Kernel.Entrave (s : Kernel) : Faute → Prop
  | cellule {l : List Ptr} {k : Nat} (hl : l.Nodup) (ha : ∀ p ∈ l, s.ALiberer p)
      (hk : k < l.length) (hm : s.materiel.memAlloc (s.prochain + k) = false) :
      Kernel.Entrave s (.accesNul .addPid)
  | garde {p : Ptr} (hp : s.ALiberer p) (hg : ¬ (s.tas p).pile.Intacte s.memoire) :
      Kernel.Entrave s (.memBug .freeMourantQueue)

/-- With nothing in `proc_mourants`, there is nothing to free. -/
theorem Core.ALiberer.mourants {s : Core} {p : Ptr} (h : s.ALiberer p) :
    s.elems .procMourants ≠ [] := by
  induction h with
  | file hm => exact List.ne_nil_of_mem hm
  | fils _ _ _ ih => exact ih

theorem Kernel.Entrave.mourants {s : Kernel} {f : Faute} (h : s.Entrave f) :
    s.elems .procMourants ≠ [] := by
  cases h with
  | cellule _ ha hk _ => exact (ha _ (List.getElem_mem hk)).mourants
  | garde hp _ => exact hp.mourants

/-- Only some fields decide what is to be freed. -/
theorem Core.ALiberer.congr {s s' : Core} {p : Ptr} (h : s'.ALiberer p)
    (hf : s'.elems .procMourants = s.elems .procMourants)
    (ht : ∀ x, (s'.tas x).filsTete = (s.tas x).filsTete ∧ (s'.tas x).etat = (s.tas x).etat) :
    s.ALiberer p := by
  induction h with
  | file hm => exact .file (hf ▸ hm)
  | @fils f c _ hc hz ih =>
    refine .fils ih ?_ ((ht c).2 ▸ hz)
    unfold Core.fils at hc ⊢
    rwa [(ht f).1] at hc

theorem Kernel.Entrave.congr {s s' : Kernel} {f : Faute} (h : s'.Entrave f)
    (hmat : s'.materiel = s.materiel) (hpro : s'.prochain = s.prochain)
    (hmem : s'.memoire = s.memoire) (hf : s'.elems .procMourants = s.elems .procMourants)
    (ht : ∀ x, (s'.tas x).filsTete = (s.tas x).filsTete ∧ (s'.tas x).etat = (s.tas x).etat)
    (hpile : ∀ x, (s'.tas x).pile = (s.tas x).pile) : s.Entrave f := by
  cases h with
  | cellule hl ha hk hm =>
    rw [hmat, hpro] at hm
    exact .cellule hl (fun p hp => (ha p hp).congr hf ht) hk hm
  | garde hp hg =>
    rw [hmem, hpile] at hg
    exact .garde (hp.congr hf ht) hg

/-- The state when the processes of `l` have been freed, in this order. -/
structure Moisson (s : Kernel) (l : List Ptr) (s' : Kernel) : Prop where
  vivant : ∀ p, s'.vivant p = if p ∈ l then false else s.vivant p
  tas : ∀ p, s'.tas p =
    if ∃ f ∈ l, p ∈ s.fils f then
      if (s.tas p).etat = .zombie then { s.tas p with etat := .mourant }
      else { s.tas p with pere := none }
    else s.tas p
  lien : ∀ p, s'.lien p =
    if p ∈ l then none
    else if (∃ f ∈ l, p ∈ s.fils f) ∧ (s.tas p).etat = .zombie then some .procMourants
    else s.lien p
  elems : ∀ t, t ≠ .procMourants → s'.elems t = s.elems t
  table : ∀ i, s'.tableDesProcs i =
    if ∃ p ∈ l, (s.tas p).pid = i then none else s.tableDesProcs i
  pids : ∃ cells : List PidLibre, s'.pidLibreTete = cells ++ s.pidLibreTete ∧
    cells.map PidLibre.pid = (l.map fun p => (s.tas p).pid).reverse ∧
      ∀ cell ∈ cells, s.prochain ≤ cell.adr ∧ cell.adr < s.prochain + l.length
  prochain : s'.prochain = s.prochain + l.length
  journal : s'.journal = s.journal ++ l.map .libere
  blocs : ∀ a, s'.blocs a =
    if s.prochain ≤ a ∧ a < s.prochain + l.length then some sizeofPidLibre
    else if ∃ p ∈ l, a ∈ (s.blocsDe p).map Prod.fst then none
    else s.blocs a
  piles : ∀ b, b ∈ s'.tasUser.blocs ↔ b ∈ s.tasUser.blocs ∧ ∀ p ∈ l, (s.tas p).pile ≠ b
  memoire : ∀ a, s'.memoire a =
    if ∃ p ∈ l, (s.tas p).pile.debut ≤ a ∧ a < (s.tas p).pile.fin then 0 else s.memoire a
  elu : s'.procElu = s.procElu
  idle : s'.procIdle = s.procIdle
  file : s'.tableauFile = s.tableauFile
  fids : s'.fidListe = s.fidListe
  sem : s'.tableauSem = s.tableauSem
  sids : s'.sidListe = s.sidListe
  reste : s' = { s with
    toCore := s'.toCore, blocs := s'.blocs, tasUser := s'.tasUser, memoire := s'.memoire }

section

variable {s s' : Kernel} {l : List Ptr} {p c f g : Ptr}

namespace Foret

theorem vivant (h : Foret s) (hp : s.ALiberer p) : s.vivant p = true := by
  induction hp with
  | file hm => exact (h.mourant _ hm).1
  | fils _ hc _ ih => exact (h.fils _ _ ih hc).1

/-- A process has one father. -/
theorem un_pere (h : Foret s) (hf : s.vivant f = true) (hg : s.vivant g = true)
    (hcf : c ∈ s.fils f) (hcg : c ∈ s.fils g) : f = g := by
  have he := (h.fils f c hf hcf).2
  rw [(h.fils g c hg hcg).2] at he
  exact (Option.some.inj he).symm

/-- A process of `proc_mourants` has no father. -/
theorem sans_pere (h : Foret s) (hp : p ∈ s.elems .procMourants) (hf : s.vivant f = true) :
    p ∉ s.fils f := by
  intro hm
  have he := (h.fils f p hf hm).2
  rw [(h.mourant p hp).2.2] at he
  cases he

end Foret

namespace Moisson

theorem vide (s : Kernel) : Moisson s [] s where
  vivant _ := by simp
  tas _ := by simp
  lien _ := by simp
  elems _ _ := rfl
  table _ := by simp
  pids := ⟨[], rfl, rfl, by simp⟩
  prochain := rfl
  journal := (List.append_nil _).symm
  blocs a := by
    rw [if_neg (by simp), if_neg (by simp)]
  piles _ := by simp
  memoire _ := by simp
  elu := rfl
  idle := rfl
  file := rfl
  fids := rfl
  sem := rfl
  sids := rfl
  reste := rfl

/-- Freeing the others leaves the fields a turn reads. -/
theorem champs (m : Moisson s l s') (p : Ptr) : (s'.tas p).filsTete = (s.tas p).filsTete ∧
    (s'.tas p).pid = (s.tas p).pid ∧ (s'.tas p).pile = (s.tas p).pile ∧
      s'.blocsDe p = s.blocsDe p := by
  have hx : ∀ r, r = s.tas p ∨ (∃ e, r = { s.tas p with etat := e }) ∨
      (∃ f, r = { s.tas p with pere := f }) → r.filsTete = (s.tas p).filsTete ∧
      r.pid = (s.tas p).pid ∧ r.pile = (s.tas p).pile ∧ r.pileKernel = (s.tas p).pileKernel ∧
          r.pileSizeKernel = (s.tas p).pileSizeKernel := by
    rintro r (rfl | ⟨e, rfl⟩ | ⟨f, rfl⟩) <;> exact ⟨rfl, rfl, rfl, rfl, rfl⟩
  have htas := m.tas p
  have hforme : s'.tas p = s.tas p ∨ (∃ e, s'.tas p = { s.tas p with etat := e }) ∨
      (∃ f, s'.tas p = { s.tas p with pere := f }) := by
    rw [htas]
    split
    · split
      · exact .inr (.inl ⟨_, rfl⟩)
      · exact .inr (.inr ⟨_, rfl⟩)
    · exact .inl rfl
  obtain ⟨h₁, h₂, h₃, h₄, h₅⟩ := hx _ hforme
  refine ⟨h₁, h₂, h₃, ?_⟩
  unfold Core.blocsDe
  rw [h₁, h₄, h₅]

theorem fils (m : Moisson s l s') (p : Ptr) : s'.fils p = s.fils p := by
  unfold Core.fils
  rw [(m.champs p).1]

end Moisson

/-- The processes freed so far are some of those to be freed, fathers first. -/
structure EnOrdre (s : Kernel) (l : List Ptr) : Prop where
  unique : l.Nodup
  aLiberer : ∀ p ∈ l, s.ALiberer p
  pere : ∀ p ∈ l, p ∈ s.elems .procMourants ∨ ∃ f ∈ l, p ∈ s.fils f

/-- The next process of the loop: it is to be freed and has not been yet. -/
structure Suivant (s : Kernel) (l : List Ptr) (p : Ptr) : Prop where
  nouveau : p ∉ l
  aLiberer : s.ALiberer p
  pere : p ∈ s.elems .procMourants ∨ ∃ f ∈ l, p ∈ s.fils f

theorem Moisson.suivant (m : Moisson s l s') (o : EnOrdre s l)
    (hp : s'.lien p = some .procMourants) : Suivant s l p := by
  rw [m.lien] at hp
  split at hp
  · cases hp
  next hnl =>
  split at hp
  · next hz =>
    obtain ⟨⟨f, hf, hpf⟩, hz⟩ := hz
    exact ⟨hnl, .fils (o.aLiberer f hf) hpf hz, .inr ⟨f, hf, hpf⟩⟩
  · have hm : p ∈ s.elems .procMourants := (s.chainage.mem_iff _ _).mpr hp
    exact ⟨hnl, .file hm, .inl hm⟩

theorem EnOrdre.ajoute (o : EnOrdre s l) (n : Suivant s l p) : EnOrdre s (l ++ [p]) where
  unique := by
    refine List.nodup_append.mpr ⟨o.unique, by simp, ?_⟩
    rintro x hx y hy rfl
    rw [List.mem_singleton.mp hy] at hx
    exact n.nouveau hx
  aLiberer q hq := by
    rcases List.mem_append.mp hq with hq | hq
    · exact o.aLiberer q hq
    · rw [List.mem_singleton.mp hq]
      exact n.aLiberer
  pere q hq := by
    have hor : q ∈ s.elems .procMourants ∨ ∃ f ∈ l, q ∈ s.fils f := by
      rcases List.mem_append.mp hq with hq | hq
      · exact o.pere q hq
      · rw [List.mem_singleton.mp hq]
        exact n.pere
    exact hor.imp_right fun ⟨f, hf, hqf⟩ => ⟨f, List.mem_append_left _ hf, hqf⟩

/-- The children of the next process have not been touched yet. -/
theorem Suivant.enfants (n : Suivant s l p) (h : Foret s) (o : EnOrdre s l) (hc : c ∈ s.fils p) :
    c ∉ l ∧ c ≠ p ∧ ¬ ∃ f ∈ l, c ∈ s.fils f := by
  have hv := h.vivant n.aLiberer
  have hautre : ¬ ∃ f ∈ l, c ∈ s.fils f := by
    rintro ⟨f, hf, hcf⟩
    exact n.nouveau (h.un_pere (h.vivant (o.aLiberer f hf)) hv hcf hc ▸ hf)
  refine ⟨fun hcl => ?_, ?_, hautre⟩
  · rcases o.pere c hcl with hm | hf
    · exact h.sans_pere hm hv hc
    · exact hautre hf
  · rintro rfl
    rcases n.pere with hm | hf
    · exact h.sans_pere hm hv hc
    · exact hautre hf

/-- The turn of the next process can return its blocks. -/
theorem Moisson.rend (m : Moisson s l s') (h : Foret s) (o : EnOrdre s l) (n : Suivant s l p)
    (hp : s'.lien p = some .procMourants) : s'.Rend p := by
  have hv := h.vivant n.aLiberer
  have hne : ∀ q ∈ l, q ≠ p := fun q hq hx => n.nouveau (hx ▸ hq)
  refine ⟨hp, by rw [m.vivant, if_neg n.nouveau]; exact hv, ?_, ?_, ?_, ?_, ?_⟩
  · intro c hc
    rw [m.fils] at hc
    obtain ⟨hcl, hcp, hcf⟩ := n.enfants h o hc
    have hvc := (h.fils p c hv hc).1
    refine ⟨by rw [m.vivant, if_neg hcl]; exact hvc, hcp, fun hz => ?_⟩
    rw [m.tas, if_neg hcf] at hz
    rw [m.lien, if_neg hcl, if_neg fun hx => hcf hx.1]
    exact h.zombie c hvc hz
  · rw [m.fils]
    exact h.unique p hv
  · intro b hb
    rw [(m.champs p).2.2.2] at hb
    obtain ⟨hb₁, hb₂⟩ := h.blocs p n.aLiberer b hb
    refine ⟨?_, by rw [m.prochain]; exact Nat.lt_add_right _ hb₂⟩
    rw [m.blocs, if_neg fun hx => absurd hb₂ (not_lt.mpr hx.1), if_neg]
    · exact hb₁
    · rintro ⟨q, hq, hbq⟩
      exact h.disjoints q p (o.aLiberer q hq) n.aLiberer (hne q hq) hbq (List.mem_map_of_mem hb)
  · rw [(m.champs p).2.2.2]
    exact h.distincts p n.aLiberer
  · rw [(m.champs p).2.2.1, m.piles]
    exact ⟨h.pile p n.aLiberer, fun q hq => h.piles q p (o.aLiberer q hq) n.aLiberer (hne q hq)⟩

/-- The words of another block of the user stack heap are left as they were. -/
theorem Moisson.motA {b : PileUser} {a : Nat} (m : Moisson s l s') (hb : b ∈ s.tasUser.blocs)
    (hl : ∀ q ∈ l, (s.tas q).pile ∈ s.tasUser.blocs ∧ (s.tas q).pile ≠ b) (ha : b.debut ≤ a)
    (ha' : a + 4 ≤ b.fin) : GenesisOS.motA s'.memoire a = GenesisOS.motA s.memoire a := by
  refine motA_congr fun i hi => (m.memoire _).trans (if_neg ?_)
  rintro ⟨q, hq, h₁, h₂⟩
  rcases TasUser.separe (hl q hq).1 hb (hl q hq).2 with hs | hs <;> omega

/-- The turns of the others leave its guard words alone. -/
theorem Moisson.intacte (m : Moisson s l s') (h : Foret s) (o : EnOrdre s l) (n : Suivant s l p) :
    (s'.tas p).pile.Intacte s'.memoire ↔ (s.tas p).pile.Intacte s.memoire := by
  have hp := h.pile p n.aLiberer
  rw [(m.champs p).2.2.1]
  refine forall₂_congr fun g hg => ?_
  obtain ⟨hdeb, hfin, -⟩ := (s.tasUser.loges _ hp).garde hg
  rw [m.motA hp (fun q hq => ⟨h.pile q (o.aLiberer q hq), ?_⟩) hdeb hfin]
  exact h.piles q p (o.aLiberer q hq) n.aLiberer fun hx => n.nouveau (hx ▸ hq)

/-- One more process is freed. -/
theorem Moisson.tour (m : Moisson s l s') (h : Foret s) (o : EnOrdre s l) (n : Suivant s l p)
    (hp : s'.lien p = some .procMourants) : Moisson s (l ++ [p]) (s'.moisson p) := by
  have hr := m.rend h o n hp
  have L : Coherent.Libere p s'.prochain (s'.prochain + 1) s'.toCore (s'.moisson p).toCore :=
    Coherent.libere_effet hp hr.unique (fun c hc => (hr.fils c hc).2.2) _ _
  have hfils : ∀ x, (∃ f ∈ l ++ [p], x ∈ s.fils f) ↔ (∃ f ∈ l, x ∈ s.fils f) ∨ x ∈ s.fils p := by
    intro x
    simp only [List.mem_append, List.mem_singleton, or_and_right, exists_or, exists_eq_left]
  have hmem : ∀ x, x ∈ l ++ [p] ↔ x ∈ l ∨ x = p := by
    intro x
    rw [List.mem_append, List.mem_singleton]
  -- a child of `p` is as it was
  have hcp : ∀ {c}, c ∈ s.fils p → s'.tas c = s.tas c := by
    intro c hc
    rw [m.tas, if_neg (n.enfants h o hc).2.2]
  refine ⟨?_, ?_, ?_, fun t ht => (L.elems t ht).trans (m.elems t ht), ?_, ?_, ?_, ?_, ?_, ?_, ?_,
    L.elu.trans m.elu, L.idle.trans m.idle, L.file.trans m.file, L.fids.trans m.fids,
    L.sem.trans m.sem, L.sids.trans m.sids, ?_⟩
  · intro x
    rw [L.vivant, m.vivant, if_congr (hmem x) rfl rfl]
    by_cases hx : x = p
    · rw [if_pos hx, if_pos (.inr hx)]
    · rw [if_neg hx, if_congr (or_iff_left hx) rfl rfl]
  · intro x
    rw [L.tas, m.fils, if_congr (hfils x) rfl rfl]
    by_cases hx : x ∈ s.fils p
    · rw [if_pos hx, hcp hx, if_pos (Or.inr hx)]
    · rw [if_neg hx, m.tas, if_congr (or_iff_left hx) rfl rfl]
  · intro x
    rw [L.lien, m.fils, if_congr (hmem x) rfl rfl]
    rw [if_congr (and_congr_left' (hfils x)) rfl rfl]
    by_cases hx : x ∈ s.fils p
    · obtain ⟨hxl, hxp, hxf⟩ := n.enfants h o hx
      rw [hcp hx, if_neg (not_or_intro hxl hxp)]
      by_cases hz : (s.tas x).etat = .zombie
      · rw [if_pos ⟨hx, hz⟩, if_pos ⟨.inr hx, hz⟩]
      · rw [if_neg fun hy => hz hy.2, if_neg hxp, m.lien, if_neg hxl,
          if_neg (fun hy : _ ∧ _ => hxf hy.1), if_neg (fun hy : _ ∧ _ => hz hy.2)]
    · rw [if_neg fun hy => hx hy.1]
      by_cases hxp : x = p
      · rw [if_pos hxp, if_pos (.inr hxp)]
      · rw [if_neg hxp, m.lien, if_congr (or_iff_left hxp) rfl rfl,
          if_congr (and_congr_left' (or_iff_left hx)) rfl rfl]
  · intro i
    have hi : (∃ q ∈ l ++ [p], (s.tas q).pid = i) ↔
        (∃ q ∈ l, (s.tas q).pid = i) ∨ (s.tas p).pid = i := by
      simp only [List.mem_append, List.mem_singleton, or_and_right, exists_or, exists_eq_left]
    rw [L.table, (m.champs p).2.1, m.table, if_congr hi rfl rfl]
    by_cases hx : (s.tas p).pid = i
    · rw [if_pos hx.symm, if_pos (.inr hx)]
    · rw [if_neg (Ne.symm hx), if_congr (or_iff_left hx) rfl rfl]
  · obtain ⟨cells, hc, hpid, hadr⟩ := m.pids
    refine ⟨⟨s'.prochain, (s.tas p).pid⟩ :: cells, ?_, ?_, ?_⟩
    · rw [L.pids, hc, (m.champs p).2.1]
      rfl
    · rw [List.map_cons, hpid, List.map_append, List.reverse_append]
      rfl
    · intro cell hcell
      rw [List.length_append, List.length_singleton]
      rcases List.mem_cons.mp hcell with rfl | hcell
      · rw [m.prochain]
        exact ⟨Nat.le_add_right _ _, Nat.lt_succ_self _⟩
      · exact ⟨(hadr cell hcell).1, (hadr cell hcell).2.trans (Nat.lt_succ_self _)⟩
  · rw [L.prochain, m.prochain, List.length_append, List.length_singleton, Nat.add_assoc]
  · rw [L.journal, m.journal, List.map_append, List.append_assoc]
    rfl
  · intro a
    have ha : (∃ q ∈ l ++ [p], a ∈ (s.blocsDe q).map Prod.fst) ↔
        (∃ q ∈ l, a ∈ (s.blocsDe q).map Prod.fst) ∨ a ∈ (s.blocsDe p).map Prod.fst := by
      simp only [List.mem_append, List.mem_singleton, or_and_right, exists_or, exists_eq_left]
    have hb : (s'.moisson p).blocs a = if a = s'.prochain then some sizeofPidLibre
        else if a ∈ (s'.blocsDe p).map Prod.fst then none else s'.blocs a := rfl
    rw [hb, (m.champs p).2.2.2, m.prochain, m.blocs, if_congr ha rfl rfl, List.length_append,
      List.length_singleton, ← Nat.add_assoc]
    by_cases hn : a = s.prochain + l.length
    · rw [if_pos hn, if_pos ⟨hn ▸ Nat.le_add_right _ _, hn ▸ Nat.lt_succ_self _⟩]
    have hlt : s.prochain ≤ a ∧ a < s.prochain + l.length + 1 ↔
        s.prochain ≤ a ∧ a < s.prochain + l.length :=
      and_congr_right fun _ => ⟨fun hx => (Nat.lt_succ_iff.mp hx).lt_of_ne hn,
        fun hx => hx.trans (Nat.lt_succ_self _)⟩
    rw [if_neg hn, if_congr hlt rfl rfl]
    by_cases hap : a ∈ (s.blocsDe p).map Prod.fst
    · -- a block of `p` is older than the new cells
      obtain ⟨b, hbm, rfl⟩ := List.mem_map.mp hap
      rw [if_pos hap, if_neg fun hx => absurd (h.blocs p n.aLiberer b hbm).2 (not_lt.mpr hx.1),
        if_pos (.inr hap)]
    · rw [if_neg hap, if_congr (or_iff_left hap) rfl rfl]
  · intro b
    have hb : b ∈ (s'.moisson p).tasUser.blocs ↔ b ∈ s'.tasUser.blocs ∧ b ≠ (s'.tas p).pile :=
      TasUser.mem_retire
    rw [hb, (m.champs p).2.2.1, m.piles, and_assoc, ne_comm]
    simp only [List.forall_mem_append, List.forall_mem_singleton]
  · intro a
    have ha : (∃ q ∈ l ++ [p], (s.tas q).pile.debut ≤ a ∧ a < (s.tas q).pile.fin) ↔
        (∃ q ∈ l, (s.tas q).pile.debut ≤ a ∧ a < (s.tas q).pile.fin) ∨
          (s.tas p).pile.debut ≤ a ∧ a < (s.tas p).pile.fin := by
      simp only [List.mem_append, List.mem_singleton, or_and_right, exists_or, exists_eq_left]
    have hb : (s'.moisson p).memoire a =
        if (s'.tas p).pile.debut ≤ a ∧ a < (s'.tas p).pile.fin then 0 else s'.memoire a := rfl
    rw [hb, (m.champs p).2.2.1, m.memoire, if_congr ha rfl rfl]
    by_cases hx : (s.tas p).pile.debut ≤ a ∧ a < (s.tas p).pile.fin
    · rw [if_pos hx, if_pos (.inr hx)]
    · rw [if_neg hx, if_congr (or_iff_left hx) rfl rfl]
  · exact congrArg (fun k : Kernel => { k with
      toCore := (s'.moisson p).toCore, blocs := (s'.moisson p).blocs
      tasUser := (s'.moisson p).tasUser, memoire := (s'.moisson p).memoire }) m.reste

/-- What the turns of the processes of `l` have found. -/
structure Constat (s : Kernel) (l : List Ptr) : Prop where
  cellules : ∀ k < l.length, s.materiel.memAlloc (s.prochain + k) = true
  gardes : ∀ p ∈ l, (s.tas p).pile.Intacte s.memoire

theorem Constat.ajoute (k : Constat s l) (hm : s.materiel.memAlloc (s.prochain + l.length) = true)
    (hg : (s.tas p).pile.Intacte s.memoire) : Constat s (l ++ [p]) where
  cellules i hi := by
    rw [List.length_append, List.length_singleton, Nat.lt_succ_iff_lt_or_eq] at hi
    rcases hi with hi | rfl
    · exact k.cellules i hi
    · exact hm
  gardes := List.forall_mem_append.mpr ⟨k.gardes, List.forall_mem_singleton.mpr hg⟩

/-- The loop of `free_mourant_queue`: the processes freed are fewer than the
addresses given before the call, so the bound on the turns is never reached. -/
theorem wp_freeMourantTours_moisson {R : Unit → Kernel → Prop} (h : Foret s) (n : Nat)
    (m : Moisson s l s') (o : EnOrdre s l) (k : Constat s l) (hn : s.prochain ≤ n + l.length)
    (hR : ∀ l' s'', Moisson s l' s'' → EnOrdre s l' → Constat s l' →
      s''.elems .procMourants = [] → R () s'') : wp s.Entrave (freeMourantQueue.tours n) R s' := by
  induction n generalizing l s' with
  | zero =>
    simp only [freeMourantQueue.tours, queueOut, wp_bind, wp_get]
    cases hp : s'.chainage.top .procMourants with
    | none => exact hR l s' m o k (List.getLast?_eq_none_iff.mp hp)
    | some p =>
      -- one process more than there are addresses
      have o' := o.ajoute (m.suivant o (LinkedQueues.link_of_top hp))
      have hsub : l ++ [p] ⊆ List.range s.prochain := fun q hq =>
        List.mem_range.mpr (h.ancien q (h.vivant (o'.aLiberer q hq)))
      have hlen := (o'.unique.subperm hsub).length_le
      rw [List.length_range, List.length_append, List.length_singleton] at hlen
      rw [Nat.zero_add] at hn
      exact absurd (hlen.trans hn) (Nat.not_succ_le_self _)
  | succ n ih =>
    simp only [freeMourantQueue.tours, queueOut, wp_bind, wp_get]
    cases hp : s'.chainage.top .procMourants with
    | none => exact hR l s' m o k (List.getLast?_eq_none_iff.mp hp)
    | some p =>
      have hl := LinkedQueues.link_of_top hp
      have hs := m.suivant o hl
      simp only [wp_bind, surCore, wp_modify, wp_pure]
      have o' := o.ajoute hs
      have hmat : s'.materiel = s.materiel := by rw [m.reste]
      have hlen : l.length < (l ++ [p]).length := by
        rw [List.length_append, List.length_singleton]
        exact Nat.lt_succ_self _
      refine wp_freeMourant_memoire (m.rend h o hs hl) (fun hm => ?_) (fun hg => ?_) fun hm hg => ?_
      · rw [hmat, m.prochain] at hm
        exact .cellule o'.unique o'.aLiberer hlen hm
      · rw [m.intacte h o hs] at hg
        exact .garde hs.aLiberer hg
      · rw [hmat, m.prochain] at hm
        rw [m.intacte h o hs] at hg
        refine ih (m.tour h o hs hl) o' (k.ajoute hm hg) ?_
        rw [List.length_append, List.length_singleton, ← Nat.succ_add_eq_add_succ]
        exact hn

/-- When the loop stops, every process to be freed has been. -/
theorem Moisson.tous (m : Moisson s l s') (h : Foret s) (o : EnOrdre s l)
    (hvide : s'.elems .procMourants = []) : ∀ p, p ∈ l ↔ s.ALiberer p := by
  have hlien : ∀ p, s'.lien p ≠ some .procMourants := by
    intro p hp
    have := (s'.chainage.mem_iff _ _).mpr hp
    rw [show s'.chainage.elems .procMourants = [] from hvide] at this
    cases this
  refine fun p => ⟨o.aLiberer p, fun hp => ?_⟩
  induction hp with
  | @file p hm =>
    by_contra hpl
    refine hlien p ?_
    have hsans : ¬ ∃ f ∈ l, p ∈ s.fils f := fun ⟨f, hf, hpf⟩ =>
      h.sans_pere hm (h.vivant (o.aLiberer f hf)) hpf
    rw [m.lien, if_neg hpl, if_neg fun hx => hsans hx.1]
    exact (s.chainage.mem_iff _ _).mp hm
  | @fils f c hf hc hz ih =>
    by_contra hcl
    exact hlien c (by rw [m.lien, if_neg hcl, if_pos ⟨⟨f, ih, hc⟩, hz⟩])

/-- The whole call: the set is freed, and what each turn has checked holds. -/
theorem wp_freeMourantQueue_moisson {R : Unit → Kernel → Prop} (h : Foret s)
    (hR : ∀ l s', Moisson s l s' → EnOrdre s l → (∀ p, p ∈ l ↔ s.ALiberer p) →
      s'.elems .procMourants = [] → (∀ f, ¬ s.Entrave f) → R () s') :
    wp s.Entrave freeMourantQueue R s := by
  rw [freeMourantQueue, wp_bind, wp_get]
  refine wp_freeMourantTours_moisson h s.prochain (Moisson.vide s)
    ⟨List.nodup_nil, by simp, by simp⟩ ⟨by simp, by simp⟩ le_rfl ?_
  intro l s' m o k hvide
  have htous := m.tous h o hvide
  refine hR l s' m o htous hvide fun f hf => ?_
  cases hf with
  | @cellule l' i hl ha hi hm =>
    -- the list `l` is the longest one
    have hle := (hl.subperm fun p hp => (htous p).mpr (ha p hp)).length_le
    rw [k.cellules i (hi.trans_le hle)] at hm
    cases hm
  | garde hp hg => exact hg (k.gardes _ ((htous _).mpr hp))

/-- `free_mourant_queue` ends with `proc_mourants` empty and has freed exactly
the least set that contains its processes and the zombie children of its members,
each once. It ends unless no memory is left for an identifier, or the guard words of
a user stack have been overwritten. -/
theorem moisson_exacte (h : Foret s) :
    wp s.Entrave freeMourantQueue (fun _ s' => s'.elems .procMourants = [] ∧
        ∃ l : List Ptr, l.Nodup ∧ (∀ p, p ∈ l ↔ s.ALiberer p) ∧ Moisson s l s' ∧
          ∀ f ∈ l, ∀ c ∈ s.fils f, c ∉ l → (s'.tas c).pere = none) s ∧
      ((∃ s', freeMourantQueue s = .ok ((), s')) ↔ ∀ f, ¬ s.Entrave f) := by
  have hwp := wp_freeMourantQueue_moisson (R := fun _ s' => (∀ f, ¬ s.Entrave f) ∧
    s'.elems .procMourants = [] ∧ ∃ l : List Ptr, l.Nodup ∧ (∀ p, p ∈ l ↔ s.ALiberer p) ∧
      Moisson s l s' ∧ ∀ f ∈ l, ∀ c ∈ s.fils f, c ∉ l → (s'.tas c).pere = none) h ?_
  · refine ⟨wp_imp hwp fun _ _ hs => hs.2, fun ⟨s', hs'⟩ => (wp_ok hwp hs').1, fun hsans => ?_⟩
    cases hr : freeMourantQueue s with
    | error f => exact absurd (wp_error hwp hr) (hsans f)
    | ok r => exact ⟨r.2, rfl⟩
  · intro l s' m o htous hvide hsans
    refine ⟨hsans, hvide, l, o.unique, htous, m, fun f hf c hc hcl => ?_⟩
    have hz : (s.tas c).etat ≠ .zombie := fun hz =>
      hcl ((htous c).mpr (.fils ((htous f).mp hf) hc hz))
    rw [m.tas, if_pos ⟨f, hf, hc⟩, if_neg hz]

end

-- ---------------------------------------------------------------------------
-- Reachable states
-- ---------------------------------------------------------------------------

section

variable {s : Kernel} {d : Multiset (Ptr × Nat)} {p q : Ptr}

/-- A return point owns nothing. -/
theorem Kernel.avoirs_empile {k : Reprise} :
    ({ s with toCore := s.toCore.empile k } : Kernel).avoirs = s.avoirs := avoirs_maj fun _ => rfl

/-- A process to be freed is live, and it is dying or a zombie. -/
theorem Coherent.aLiberer (h : Coherent s.toCore) (hp : s.ALiberer p) :
    s.vivant p = true ∧ ((s.tas p).etat = .mourant ∨ (s.tas p).etat = .zombie) := by
  induction hp with
  | file hm =>
    have hl := LinkedQueues.link_of_mem hm
    exact ⟨h.lie _ _ hl, .inl (h.etat_of_lien hl)⟩
  | fils _ hc hz ih => exact ⟨(h.fils _ _ ih.1 hc).1, .inr hz⟩

theorem Coherent.aLiberer_ne_idle (h : Coherent s.toCore) (hp : s.ALiberer p) :
    p ≠ s.procIdle := by
  rintro rfl
  rcases (h.aLiberer hp).2 with he | he <;> rcases h.idleEtat with hi | hi <;>
    · rw [he] at hi
      cases hi

/-- The blocks of a process, for the ledger. -/
theorem Avoirs.duProcessus_blocsDe (hp : p ≠ s.procIdle) :
    s.avoirs.duProcessus p = (s.blocsDe p : Multiset (Ptr × Nat)) := by
  rw [Avoirs.duProcessus, if_neg (show p ≠ s.avoirs.procIdle from hp)]
  rfl

/-- A process to be freed owns its blocks, and shares none of them. -/
theorem Bilan.blocsDe (h : Bilan s.avoirs d) (hv : s.vivant p = true) (hp : p ≠ s.procIdle) :
    (∀ b ∈ s.blocsDe p, s.blocs b.1 = some b.2 ∧ b.1 < s.prochain) ∧
      ((s.blocsDe p).map Prod.fst).Nodup := by
  have hposs := Avoirs.possede_sans (A := s.avoirs) hv (h.ancien p hv)
  rw [Avoirs.duProcessus_blocsDe hp] at hposs
  have hl := h.ledger
  rw [← hposs] at hl
  refine ⟨fun b hb => ?_, ?_⟩
  · have hbloc : s.blocs b.1 = some b.2 := (hl.exact b.1 b.2).mpr
      (Multiset.mem_add.mpr (.inl (Multiset.mem_add.mpr (.inr (Multiset.mem_coe.mpr hb)))))
    exact ⟨hbloc, (h.borne b.1 (by
      show s.blocs b.1 ≠ none
      rw [hbloc]
      exact Option.some_ne_none _)).2⟩
  · have hu := hl.unique
    rw [Multiset.map_add, Multiset.map_add] at hu
    exact Multiset.coe_nodup.mp (Multiset.nodup_add.mp (Multiset.nodup_add.mp hu).1).2.1

theorem Bilan.disjoints (h : Bilan s.avoirs d) (hv : s.vivant p = true) (hp : p ≠ s.procIdle)
    (hvq : s.vivant q = true) (hq : q ≠ s.procIdle) (hne : p ≠ q) :
    ((s.blocsDe p).map Prod.fst).Disjoint ((s.blocsDe q).map Prod.fst) := by
  have hvs : (s.avoirs.sans q).vivant p = true := (Function.update_of_ne hne _ _).trans hv
  have hpq := Avoirs.possede_sans (A := s.avoirs.sans q) hvs (h.ancien p hv)
  have hposs := Avoirs.possede_sans (A := s.avoirs) hvq (h.ancien q hvq)
  have hdu : (s.avoirs.sans q).duProcessus p = s.avoirs.duProcessus p := rfl
  rw [Avoirs.duProcessus_blocsDe hq, ← hpq, hdu, Avoirs.duProcessus_blocsDe hp] at hposs
  have hu := h.ledger.unique
  rw [← hposs, Multiset.map_add, Multiset.map_add, Multiset.map_add] at hu
  have hd := (Multiset.nodup_add.mp (Multiset.nodup_add.mp hu).1).2.2
  exact (Multiset.coe_disjoint _ _).mp (Multiset.disjoint_add_left.mp hd).2

/-- Every reachable state is a coherent forest. -/
theorem Stable.foret (h : Stable s.toCore) (hb : Bilan s.avoirs d) : Foret s where
  ancien := h.coherent.ancien
  mourant p hp := by
    have hl := LinkedQueues.link_of_mem hp
    have hv := h.coherent.lie p _ hl
    have he : (s.tas p).etat = .mourant := h.coherent.etat_of_lien hl
    exact ⟨hv, he, h.orphelins p hv he⟩
  fils f c hf hc := ⟨(h.coherent.fils f c hf hc).1, (h.coherent.fils f c hf hc).2.1⟩
  pere c f hc hf := by
    refine h.coherent.pere c f hc (fun he => ?_) hf
    rw [h.orphelins c hc he] at hf
    cases hf
  unique := h.coherent.filsUnique
  zombie p hv hz := by
    have hpl := h.coherent.place p hv
    unfold Core.Place at hpl
    rwa [hz] at hpl
  blocs p hp := (hb.blocsDe (h.coherent.aLiberer hp).1 (h.coherent.aLiberer_ne_idle hp)).1
  distincts p hp := (hb.blocsDe (h.coherent.aLiberer hp).1 (h.coherent.aLiberer_ne_idle hp)).2
  disjoints p q hp hq := hb.disjoints (h.coherent.aLiberer hp).1 (h.coherent.aLiberer_ne_idle hp)
    (h.coherent.aLiberer hq).1 (h.coherent.aLiberer_ne_idle hq)
  pile p hp := hb.piles.alloue p (h.coherent.aLiberer hp).1 (h.coherent.aLiberer_ne_idle hp)
  piles p q hp hq hne heq := hne (hb.piles.distinctes p q (h.coherent.aLiberer hp).1
    (h.coherent.aLiberer_ne_idle hp) (h.coherent.aLiberer hq).1 (h.coherent.aLiberer_ne_idle hq) heq)

theorem Accessible.foret {c : Config} (h : Accessible c) : Foret c.s := by
  obtain ⟨perdus, hp⟩ := h.perte
  exact h.valide.stable.foret hp.bilan

end

/-- The user process starts a child that starts its own, down to the third generation,
and each ends before its father; the first child has also started a process that has
not run yet. Then the user process ends. -/
def mortsEnChaine : List Signal := [.suite, appel 2 0x1000000 0 2 0, .suite,
  appel 2 0x1000000 0 1 0, appel 2 0x1000000 0 3 0, .suite, appel 2 0x1000000 0 4 0, .suite,
  appel 3 0 0 0 0, .suite, appel 3 0 0 0 0, .suite, appel 3 0 0 0 0, .suite, appel 3 0 0 0 0]

/-- The four processes of the chain are freed and the child left has no father. -/
theorem moisson_exacte_exemple : ∃ c s' l, Accessible c ∧
    freeMourantQueue c.s = .ok ((), s') ∧ s'.elems .procMourants = [] ∧ l.Nodup ∧
      l.length = 4 ∧ (∀ p, p ∈ l ↔ c.s.ALiberer p) ∧ Moisson c.s l s' ∧
        (c.s.tas c.s.procElu).pere ≠ none ∧ (s'.tas c.s.procElu).pere = none := by
  obtain ⟨c, hc, hQ⟩ := Accessible.scenario (l := mortsEnChaine) (Q := fun c =>
    decide ((c.s.tas c.s.procElu).pere ≠ none) && match freeMourantQueue c.s with
      | .ok (_, s') => decide (s'.prochain = c.s.prochain + 4 ∧ (s'.tas c.s.procElu).pere = none)
      | .error _ => false) (by decide +kernel)
  rw [Bool.and_eq_true, decide_eq_true_eq] at hQ
  obtain ⟨hpere, hQ⟩ := hQ
  cases hrun : freeMourantQueue c.s with
  | error f =>
    rw [hrun] at hQ
    cases hQ
  | ok r =>
    obtain ⟨_, s'⟩ := r
    rw [hrun] at hQ
    obtain ⟨hpro, hpere'⟩ := of_decide_eq_true hQ
    obtain ⟨hvide, l, hnd, hl, m, -⟩ := wp_ok (moisson_exacte hc.foret).1 hrun
    exact ⟨c, s', l, hc, hrun, hvide, hnd, Nat.add_left_cancel (m.prochain.symm.trans hpro), hl, m,
      hpere, hpere'⟩

end GenesisOS
