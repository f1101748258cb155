import GenesisOS.Abstract.Preservation

/-!
# GenesisOS — freeing dead processes

`free_mourant_queue` takes a dying process out of `proc_mourants`, detaches
its children (a zombie child becomes dying in its turn, another one loses its
father) and frees it. `Libere` states the effect of one turn on every variable
and `Coherent.liberation` that the coherence is kept turn after turn; when the
list is empty no dying process has a father left (`orphelins_of_vide`).
-/

namespace GenesisOS

open Lib

-- ---------------------------------------------------------------------------
-- Freeing dead processes
-- ---------------------------------------------------------------------------

/-- The effect of `free_childs` on the children `l` of a process being freed. -/
structure Detaches (l : List Ptr) (s s' : Core) : Prop where
  vivant : s'.vivant = s.vivant
  tas : ∀ x, s'.tas x =
    if x ∈ l then
      if (s.tas x).etat = .zombie then { s.tas x with etat := .mourant }
      else { s.tas x with pere := none }
    else s.tas x
  lien : ∀ x, s'.lien x =
    if x ∈ l ∧ (s.tas x).etat = .zombie then some .procMourants else s.lien x
  elems : ∀ t, t ≠ .procMourants → s'.elems t = s.elems t
  elu : s'.procElu = s.procElu
  idle : s'.procIdle = s.procIdle
  table : s'.tableDesProcs = s.tableDesProcs
  pids : s'.pidLibreTete = s.pidLibreTete
  file : s'.tableauFile = s.tableauFile
  fids : s'.fidListe = s.fidListe
  sem : s'.tableauSem = s.tableauSem
  sids : s'.sidListe = s.sidListe
  prochain : s'.prochain = s.prochain
  journal : s'.journal = s.journal

theorem detaches_foldl (l : List Ptr) {s : Core} (hl : l.Nodup)
    (hz : ∀ c ∈ l, (s.tas c).etat = .zombie → s.lien c = none) :
    Detaches l s (l.foldl Core.detache s) := by
  induction l generalizing s with
  | nil => exact ⟨rfl, by simp, by simp, fun _ _ => rfl, rfl, rfl, rfl, rfl, rfl, rfl, rfl, rfl,
      rfl, rfl⟩
  | cons c l ih =>
    obtain ⟨hc, hl⟩ := List.nodup_cons.mp hl
    rw [List.foldl_cons]
    by_cases he : (s.tas c).etat = .zombie
    · have hcl : s.lien c = none := hz c (by simp) he
      have hd : s.detache c =
          (s.maj c fun r => { r with etat := .mourant }).ajoute .procMourants c (·.prio) := by
        rw [Core.detache, if_pos he]
      have htas : ∀ x, (s.detache c).tas x =
          if x = c then { s.tas c with etat := .mourant } else s.tas x := by
        intro x
        rw [hd, Core.ajoute_tas, Core.tas_maj]
      have hlien : ∀ x, (s.detache c).lien x =
          if x = c then some .procMourants else s.lien x := by
        intro x
        rw [hd, Core.lien_ajoute (by simpa using hcl), Core.lien_maj]
      have D := ih (s := s.detache c) hl (by
        intro x hx hxz
        have hxc : x ≠ c := fun h => hc (h ▸ hx)
        rw [htas, if_neg hxc] at hxz
        rw [hlien, if_neg hxc]
        exact hz x (by simp [hx]) hxz)
      refine ⟨D.vivant.trans (by rw [hd]; rfl), ?_, ?_, ?_, D.elu.trans (by rw [hd]; rfl),
        D.idle.trans (by rw [hd]; rfl), D.table.trans (by rw [hd]; rfl),
        D.pids.trans (by rw [hd]; rfl), D.file.trans (by rw [hd]; rfl),
        D.fids.trans (by rw [hd]; rfl), D.sem.trans (by rw [hd]; rfl),
        D.sids.trans (by rw [hd]; rfl), D.prochain.trans (by rw [hd]; rfl),
        D.journal.trans (by rw [hd]; rfl)⟩
      · intro x
        rw [D.tas, htas]
        by_cases hx : x = c
        · subst hx
          simp [hc, he]
        · simp [hx]
      · intro x
        rw [D.lien, htas, hlien]
        by_cases hx : x = c
        · subst hx
          simp [hc, he]
        · simp [hx]
      · intro t ht
        rw [D.elems t ht, hd]
        show (s.chainage.add .procMourants c _).elems t = _
        rw [LinkedQueues.elems_add hcl, if_neg ht]
    · have hd : s.detache c = s.maj c fun r => { r with pere := none } := by
        rw [Core.detache, if_neg he]
      have htas : ∀ x, (s.detache c).tas x =
          if x = c then { s.tas c with pere := none } else s.tas x := by
        intro x
        rw [hd, Core.tas_maj]
      have D := ih (s := s.detache c) hl (by
        intro x hx hxz
        have hxc : x ≠ c := fun h => hc (h ▸ hx)
        rw [htas, if_neg hxc] at hxz
        rw [hd, Core.lien_maj]
        exact hz x (by simp [hx]) hxz)
      refine ⟨D.vivant.trans (by rw [hd]; rfl), ?_, ?_, ?_, D.elu.trans (by rw [hd]; rfl),
        D.idle.trans (by rw [hd]; rfl), D.table.trans (by rw [hd]; rfl),
        D.pids.trans (by rw [hd]; rfl), D.file.trans (by rw [hd]; rfl),
        D.fids.trans (by rw [hd]; rfl), D.sem.trans (by rw [hd]; rfl),
        D.sids.trans (by rw [hd]; rfl), D.prochain.trans (by rw [hd]; rfl),
        D.journal.trans (by rw [hd]; rfl)⟩
      · intro x
        rw [D.tas, htas]
        by_cases hx : x = c
        · subst hx
          simp [hc, he]
        · simp [hx]
      · intro x
        rw [D.lien, htas, hd, Core.lien_maj]
        by_cases hx : x = c
        · subst hx
          simp [hc, he]
        · simp [hx]
      · intro t ht
        rw [D.elems t ht, hd]
        rfl

namespace Coherent

variable {s s' : Core} {p q c pere : Ptr}

/-- What `free_mourant_queue` does of the process `p` it takes. -/
structure Libere (p adr n : Nat) (s s' : Core) : Prop where
  vivant : ∀ x, s'.vivant x = if x = p then false else s.vivant x
  tas : ∀ x, s'.tas x =
    if x ∈ s.fils p then
      if (s.tas x).etat = .zombie then { s.tas x with etat := .mourant }
      else { s.tas x with pere := none }
    else s.tas x
  lien : ∀ x, s'.lien x =
    if x ∈ s.fils p ∧ (s.tas x).etat = .zombie then some .procMourants
    else if x = p then none else s.lien x
  elems : ∀ t, t ≠ .procMourants → s'.elems t = s.elems t
  elu : s'.procElu = s.procElu
  idle : s'.procIdle = s.procIdle
  table : ∀ i, s'.tableDesProcs i = if i = (s.tas p).pid then none else s.tableDesProcs i
  pids : s'.pidLibreTete = ⟨adr, (s.tas p).pid⟩ :: s.pidLibreTete
  file : s'.tableauFile = s.tableauFile
  fids : s'.fidListe = s.fidListe
  sem : s'.tableauSem = s.tableauSem
  sids : s'.sidListe = s.sidListe
  prochain : s'.prochain = n
  journal : s'.journal = s.journal ++ [.libere p]

/-- One turn, from what it needs of the children of the process. -/
theorem libere_effet (hp : s.lien p = some .procMourants) (hnd : (s.fils p).Nodup)
    (hz : ∀ c ∈ s.fils p, (s.tas c).etat = .zombie → s.lien c = none) (adr n : Nat) :
    Libere p adr n s (s.libere p adr n) := by
  have D : Detaches (s.fils p) (s.retire p) ((s.fils p).foldl Core.detache (s.retire p)) := by
    refine detaches_foldl _ hnd ?_
    intro c hc hzc
    rw [Core.lien_retire]
    split
    · rfl
    · exact hz c hc hzc
  refine ⟨?_, D.tas, ?_, ?_, D.elu, D.idle, ?_, ?_, D.file, D.fids, D.sem, D.sids, rfl, ?_⟩
  · intro x
    show Function.update ((s.fils p).foldl Core.detache (s.retire p)).vivant p false x = _
    rw [D.vivant, Function.update_apply]
    rfl
  · intro x
    exact (D.lien x).trans (by rw [Core.lien_retire]; rfl)
  · intro t ht
    refine (D.elems t ht).trans ?_
    refine LinkedQueues.elems_remove_of_ne (q := s.chainage) ?_
    intro hx
    rw [show s.chainage.link p = some .procMourants from hp] at hx
    exact ht (Option.some.inj hx).symm
  · intro i
    show Function.update ((s.fils p).foldl Core.detache (s.retire p)).tableDesProcs _ none i = _
    rw [D.table, Function.update_apply]
    rfl
  · show _ :: ((s.fils p).foldl Core.detache (s.retire p)).pidLibreTete = _
    rw [D.pids]
    rfl
  · show ((s.fils p).foldl Core.detache (s.retire p)).journal ++ _ = _
    rw [D.journal]
    rfl

theorem libere_spec (h : Coherent s) (hp : s.lien p = some .procMourants) (adr n : Nat) :
    Libere p adr n s (s.libere p adr n) := by
  have hv := h.lie p _ hp
  refine libere_effet hp (h.filsUnique p hv) (fun c hc hz => ?_) adr n
  have hpl := h.place c (h.fils p c hv hc).1
  unfold Core.Place at hpl
  rwa [hz] at hpl

theorem not_mem_fils (h : Coherent s) (hp : s.lien p = some .procMourants) (hq : s.vivant q = true) :
    p ∉ s.fils q := by
  intro hm
  exact (h.fils q p hq hm).2.2 (h.etat_of_lien hp)

theorem ne_idle_of_mourant (h : Coherent s) (hp : s.lien p = some .procMourants) :
    p ≠ s.procIdle := by
  have he : (s.tas p).etat = .mourant := h.etat_of_lien hp
  exact h.ne_idle_of_etat (by rw [he]; decide) (by rw [he]; decide)

/-- Freed records aside, structures only lose a father or turn dying. -/
theorem Libere.champs {adr n : Nat} (L : Libere p adr n s s') (x : Ptr) :
    (s'.tas x).pid = (s.tas x).pid ∧ (s'.tas x).prio = (s.tas x).prio ∧
      (s'.tas x).contexte = (s.tas x).contexte ∧ (s'.tas x).filsTete = (s.tas x).filsTete ∧
      (s'.tas x).fid = (s.tas x).fid := by
  rw [L.tas]
  split
  · split <;> exact ⟨rfl, rfl, rfl, rfl, rfl⟩
  · exact ⟨rfl, rfl, rfl, rfl, rfl⟩

theorem Libere.fils_eq {adr n : Nat} (L : Libere p adr n s s') (x : Ptr) : s'.fils x = s.fils x := by
  unfold Core.fils
  rw [(L.champs x).2.2.2.1]

/-- The state of a process after a turn: its own, or dying for a zombie child. -/
theorem Libere.etat_eq {adr n : Nat} (L : Libere p adr n s s') (x : Ptr) :
    (s'.tas x).etat =
      if x ∈ s.fils p ∧ (s.tas x).etat = .zombie then .mourant else (s.tas x).etat := by
  rw [L.tas]
  by_cases hx : x ∈ s.fils p
  · by_cases hz : (s.tas x).etat = .zombie <;> simp [hx, hz]
  · simp [hx]

theorem Libere.pere_eq {adr n : Nat} (L : Libere p adr n s s') (x : Ptr) :
    (s'.tas x).pere =
      if x ∈ s.fils p ∧ (s.tas x).etat ≠ .zombie then none else (s.tas x).pere := by
  rw [L.tas]
  by_cases hx : x ∈ s.fils p
  · by_cases hz : (s.tas x).etat = .zombie <;> simp [hx, hz]
  · simp [hx]

theorem Libere.vivant_of {adr n : Nat} (L : Libere p adr n s s') {x : Ptr}
    (hx : s'.vivant x = true) : x ≠ p ∧ s.vivant x = true := by
  rw [L.vivant] at hx
  split at hx
  · cases hx
  · next hne => exact ⟨hne, hx⟩

theorem libere (h : Coherent s) {adr n : Nat} (hp : s.lien p = some .procMourants)
    (hn : s.prochain ≤ n) (L : Libere p adr n s s') : Coherent s' where
  place q hq := by
    obtain ⟨hne, hv⟩ := L.vivant_of hq
    have hpl := h.place q hv
    unfold Core.Place at hpl ⊢
    rw [L.etat_eq, L.lien, (L.champs q).2.2.2.2, L.elu]
    by_cases hz : q ∈ s.fils p ∧ (s.tas q).etat = .zombie
    · simp [hz]
    · rw [if_neg hz, if_neg hz, if_neg hne]
      exact hpl
  lie q t hq := by
    rw [L.lien] at hq
    rw [L.vivant]
    by_cases hz : q ∈ s.fils p ∧ (s.tas q).etat = .zombie
    · have hv := h.lie p _ hp
      have hne : q ≠ p := fun hx => h.not_mem_fils hp hv (hx ▸ hz.1)
      rw [if_neg hne]
      exact (h.fils p q hv hz.1).1
    · rw [if_neg hz] at hq
      by_cases hne : q = p
      · rw [if_pos hne] at hq
        cases hq
      · rw [if_neg hne] at hq ⊢
        exact h.lie q t hq
  lieFile q fid hq := by
    rw [L.file]
    rw [L.lien] at hq
    split at hq
    · cases hq
    · split at hq
      · cases hq
      · exact h.lieFile q fid hq
  lieSem q sid hq := by
    rw [L.sem]
    rw [L.lien] at hq
    split at hq
    · cases hq
    · split at hq
      · cases hq
      · exact h.lieSem q sid hq
  tri := by
    have hs := h.tri
    unfold LinkedQueues.Sorted at hs ⊢
    rw [show s'.chainage.elems .procActivables = s.chainage.elems .procActivables from
      L.elems _ (by decide)]
    refine hs.imp ?_
    intro a b hab
    show (s'.tas a).prio ≤ (s'.tas b).prio
    rw [(L.champs a).2.1, (L.champs b).2.1]
    exact hab
  file := by rw [L.file]; exact h.file
  fidLibre := by rw [L.fids, L.file]; exact h.fidLibre
  fidUnique := by rw [L.fids]; exact h.fidUnique
  sem := by rw [L.sem]; exact h.sem
  sidLibre := by rw [L.sids, L.sem]; exact h.sidLibre
  sidUnique := by rw [L.sids]; exact h.sidUnique
  table i q hq := by
    rw [L.table] at hq
    split at hq
    · cases hq
    · next hi =>
      obtain ⟨hv, hpid⟩ := h.table i q hq
      rw [L.vivant, (L.champs q).1, if_neg (fun hx => hi (by rw [← hpid, hx]))]
      exact ⟨hv, hpid⟩
  inscrit q hq := by
    obtain ⟨hne, hv⟩ := L.vivant_of hq
    rw [L.table, (L.champs q).1, if_neg]
    · exact h.inscrit q hv
    · exact fun he => hne (h.pid_injective hv (h.lie p _ hp) he)
  pid q hq := by
    rw [(L.champs q).1]
    exact h.pid q (L.vivant_of hq).2
  pidLibre c hc := by
    rw [L.pids] at hc
    rw [L.table]
    rcases List.mem_cons.mp hc with rfl | hc
    · have hv := h.lie p _ hp
      obtain ⟨h0, hmax⟩ := h.pid p hv
      refine ⟨?_, hmax, if_pos rfl⟩
      rcases h0.lt_or_eq with h0 | h0
      · exact h0
      · exact absurd (h.pid_injective hv h.idle.1 (by rw [← h0, h.idle.2.1]))
          (h.ne_idle_of_mourant hp)
    · obtain ⟨h0, hmax, ht⟩ := h.pidLibre c hc
      refine ⟨h0, hmax, ?_⟩
      split
      · rfl
      · exact ht
  pidUnique := by
    rw [L.pids, List.map_cons, List.nodup_cons]
    refine ⟨?_, h.pidUnique⟩
    intro hm
    obtain ⟨c, hc, he⟩ := List.mem_map.mp hm
    have ht := (h.pidLibre c hc).2.2
    rw [he, h.inscrit p (h.lie p _ hp)] at ht
    cases ht
  ancien q hq := by
    rw [L.prochain]
    exact (h.ancien q (L.vivant_of hq).2).trans_le hn
  pere c f hc hm hf := by
    obtain ⟨hne, hv⟩ := L.vivant_of hc
    rw [L.pere_eq] at hf
    rw [L.etat_eq] at hm
    have hcp : c ∉ s.fils p := by
      intro hx
      by_cases hz : (s.tas c).etat = .zombie
      · exact hm (if_pos ⟨hx, hz⟩)
      · rw [if_pos ⟨hx, hz⟩] at hf
        cases hf
    rw [if_neg (fun hx => hcp hx.1)] at hf hm
    obtain ⟨hfv, hcf⟩ := h.pere c f hv hm hf
    have hfp : f ≠ p := by
      rintro rfl
      exact hcp hcf
    rw [L.vivant, L.fils_eq, if_neg hfp]
    exact ⟨hfv, hcf⟩
  fils f c hf hc := by
    obtain ⟨hne, hv⟩ := L.vivant_of hf
    rw [L.fils_eq] at hc
    obtain ⟨hcv, hpere, hm⟩ := h.fils f c hv hc
    have hcp : c ∉ s.fils p := by
      intro hx
      have he := (h.fils p c (h.lie p _ hp) hx).2.1
      rw [hpere] at he
      exact hne (Option.some.inj he)
    have hcne : c ≠ p := by
      rintro rfl
      exact hm (h.etat_of_lien hp)
    rw [L.vivant, if_neg hcne, L.pere_eq, L.etat_eq, if_neg (fun hx => hcp hx.1),
      if_neg (fun hx => hcp hx.1)]
    exact ⟨hcv, hpere, hm⟩
  filsUnique f hf := by
    rw [L.fils_eq]
    exact h.filsUnique f (L.vivant_of hf).2
  orphelin q hq hm := by
    obtain ⟨hne, hv⟩ := L.vivant_of hq
    rw [L.etat_eq] at hm
    rw [L.pere_eq, L.lien, if_neg hne]
    by_cases hz : q ∈ s.fils p ∧ (s.tas q).etat = .zombie
    · exact .inr (if_pos hz)
    · rw [if_neg hz] at hm ⊢
      rcases h.orphelin q hv hm with ho | ho
      · left
        split
        · rfl
        · exact ho
      · exact .inr ho
  idle := by
    obtain ⟨hv, hpid, hprio, hfils⟩ := h.idle
    rw [L.idle, L.vivant, if_neg (h.ne_idle_of_mourant hp).symm, (L.champs _).1, (L.champs _).2.1,
      L.fils_eq]
    exact ⟨hv, hpid, hprio, hfils⟩
  idleEtat := by
    rw [L.idle, L.etat_eq, if_neg]
    · exact h.idleEtat
    · rintro ⟨-, hz⟩
      rcases h.idleEtat with he | he <;> rw [hz] at he <;> cases he
  idleContexte := by
    rw [L.idle, (L.champs _).2.2.1]
    exact h.idleContexte
  prio q hq hi := by
    rw [L.idle] at hi
    rw [(L.champs q).2.1]
    exact h.prio q (L.vivant_of hq).2 hi
  suspendu q hq := by
    obtain ⟨hne, hv⟩ := L.vivant_of hq
    have hs := h.suspendu q hv
    by_cases hz : q ∈ s.fils p ∧ (s.tas q).etat = .zombie
    · refine .of_mort (.inr ?_)
      rw [L.etat_eq, if_pos hz]
    · have he : (s'.tas q).etat = (s.tas q).etat := by rw [L.etat_eq, if_neg hz]
      have hmort : s'.Mort q ↔ s.Mort q := by unfold Core.Mort; rw [he]
      refine ⟨?_, ?_, ?_, ?_, ?_, ?_, ?_⟩
      · rw [he, (L.champs q).2.2.1]; exact hs.file
      · rw [he, (L.champs q).2.2.1]; exact hs.semaphore
      · rw [he, (L.champs q).2.2.1]; exact hs.es
      · rw [he, (L.champs q).2.2.1]; exact hs.fils
      · rw [hmort, (L.champs q).2.2.1]; exact hs.exit
      · rw [hmort, (L.champs q).2.2.1]
        intro hm pid c r hx
        rw [L.fils_eq, (L.champs c).1]
        exact hs.waitpid hm pid c r hx
      · rw [hmort, (L.champs q).2.2.1, L.fils_eq]
        exact hs.waitpidFils

-- ---------------------------------------------------------------------------
-- The loop
-- ---------------------------------------------------------------------------

theorem liberation_spec (h : Coherent s) (hl : Liberation s s') :
    ∃ p adr n, s.lien p = some .procMourants ∧ s.prochain ≤ n ∧ Libere p adr n s s' := by
  obtain ⟨p, adr, n, htop, hn, rfl⟩ := hl
  have hp := LinkedQueues.link_of_top htop
  exact ⟨p, adr, n, hp, hn, h.libere_spec hp adr n⟩

theorem liberation_pas (h : Coherent s) (hl : Liberation s s') : Coherent s' := by
  obtain ⟨p, adr, n, hp, hn, L⟩ := h.liberation_spec hl
  exact h.libere hp hn L

theorem liberation (h : Coherent s) (hl : Relation.ReflTransGen Liberation s s') :
    Coherent s' := by
  induction hl with
  | refl => exact h
  | tail _ hlast ih => exact ih.liberation_pas hlast

/-- A running process is not freed. -/
theorem enCours_liberation_pas (h : Coherent s) (he : s.EnCours) (hl : Liberation s s') :
    s'.EnCours := by
  obtain ⟨p, adr, n, hp, hn, L⟩ := h.liberation_spec hl
  have hne : s.procElu ≠ p := (h.ne_procElu he hp).symm
  refine ⟨?_, ?_, ?_⟩
  · rw [L.elu, L.vivant, if_neg hne]
    exact he.vivant
  · rw [L.elu, L.etat_eq, if_neg]
    · exact he.etat
    · rintro ⟨-, hz⟩
      rw [he.etat] at hz
      cases hz
  · rw [L.elu, (L.champs _).2.2.1]
    exact he.contexte

theorem enCours_liberation (h : Coherent s) (he : s.EnCours)
    (hl : Relation.ReflTransGen Liberation s s') : s'.EnCours := by
  induction hl with
  | refl => exact he
  | tail hrest hlast ih => exact (h.liberation hrest).enCours_liberation_pas ih hlast

/-- What freeing leaves alone. -/
theorem liberation_reste (h : Coherent s) (hl : Relation.ReflTransGen Liberation s s') :
    (∀ t, t ≠ .procMourants → s'.elems t = s.elems t) ∧ s'.procElu = s.procElu ∧
      ∀ x, (s'.tas x).prio = (s.tas x).prio ∧ (s'.tas x).contexte = (s.tas x).contexte ∧
        ((s.tas x).etat ≠ .zombie → (s'.tas x).etat = (s.tas x).etat) := by
  induction hl with
  | refl => exact ⟨fun _ _ => rfl, rfl, fun _ => ⟨rfl, rfl, fun _ => rfl⟩⟩
  | tail hrest hlast ih =>
    obtain ⟨q, adr, n, hq, hn, L⟩ := (h.liberation hrest).liberation_spec hlast
    obtain ⟨helems, helu, hchamps⟩ := ih
    refine ⟨fun t ht => (L.elems t ht).trans (helems t ht), L.elu.trans helu, fun x => ?_⟩
    obtain ⟨hprio, hctx, het⟩ := hchamps x
    obtain ⟨-, hp, hc, -⟩ := L.champs x
    refine ⟨hp.trans hprio, hc.trans hctx, fun hz => ?_⟩
    rw [L.etat_eq, if_neg]
    · exact het hz
    · rintro ⟨-, hx⟩
      exact hz (by rw [← het hz]; exact hx)

theorem orphelins_of_vide (h : Coherent s) (hvide : s.elems .procMourants = []) :
    s.Orphelins := by
  intro p hv hm
  rcases h.orphelin p hv hm with hp | hp
  · exact hp
  · have hmem : p ∈ s.elems .procMourants := (s.chainage.mem_iff p _).mpr hp
    rw [hvide] at hmem
    cases hmem

end Coherent

end GenesisOS
