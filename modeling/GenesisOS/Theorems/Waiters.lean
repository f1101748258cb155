import GenesisOS.Invariants.Queues
import GenesisOS.Refinement.Returns
import GenesisOS.Theorems.Channels
import GenesisOS.Theorems.Preemption

/-!
# GenesisOS — who is released first

Blocked processes leave a message file or the console by priority, then by
seniority. The dates of a run (`Dates`) tell when each process took its place;
the waiting list of a file stays ranked by priority and date, `chprio` included,
so its top is the one to release. `chprio` does not move a console reader: there
the list stays ranked as long as no `chprio` changes who outranks whom.
-/

namespace GenesisOS

open Lib

-- ---------------------------------------------------------------------------
-- Lists over a step
-- ---------------------------------------------------------------------------

section

variable {c c' : Config} {e : Signal} {t : Tete}

theorem Config.elems_entree (c : Config) (t : Tete) : c.entree.elems t = c.s.elems t := by
  unfold Config.entree
  split <;> rfl

theorem Config.prio_entree (c : Config) (x : Ptr) : (c.entree.tas x).prio = (c.s.tas x).prio := by
  unfold Config.entree
  split
  · rfl
  · exact Core.prio_maj (f := fun r => { r with contexte := .iret }) (fun _ => rfl) x

theorem Config.prochain_entree (c : Config) : c.entree.prochain = c.s.prochain := by
  unfold Config.entree
  split <;> rfl

/-- From the end of the kernel code of a step on, the lists of waiting processes
stay as they are. -/
theorem pas_listes {x : Suite} {s' : Kernel} (h : c.Valide) (hp : possible c e = true)
    (hseg : segment c e c.s = .ok (x, s')) (hpas : pas c e = .ok c') (ht : t.Attente) :
    c'.s.elems t = s'.elems t ∧ ∀ y, (c'.s.tas y).cles = (s'.tas y).cles := by
  have hterm := of_pas_segment hseg hpas
  cases x with
  | retour v =>
    rw [(of_termine_retour hterm).2]
    exact ⟨rfl, fun _ => rfl⟩
  | iret =>
    obtain ⟨s₁, mode⟩ := c'
    cases hterm
    exact ⟨rfl, fun _ => rfl⟩
  | ordonnanceur k =>
    obtain ⟨hst, -⟩ := h.entree.1.segment_sortie (h.segment hp hseg)
    obtain ⟨-, s₃, hl, -, hel⟩ := of_pas_ordonnanceur h hp hseg hpas
    obtain ⟨hl₁, hl₂⟩ := hst.coherent.liberation_listes ht hl
    obtain ⟨he₁, he₂⟩ := hel.listes ht
    refine ⟨he₁.trans hl₁, fun y => ((he₂ y).trans (hl₂ y)).trans ?_⟩
    exact Core.champ_maj (f := fun r => { r with contexte := k }) (fun _ => rfl) y

end

/-- The call is a `chprio` of `p` with the legal priority `n`. -/
structure ChprioDe (c : Config) (e : Signal) (p : Ptr) (n : Int) : Prop where
  appel : ChangePrio c e p n
  positif : 0 < n
  max : n ≤ PRIO_MAX

/-- What `chprio` does to a list of processes blocked by priority: nothing, or it
puts a process that waits on a file back in its place, or it changes the priority
of a console reader. -/
inductive Reclasse (t : Tete) (p : Ptr) (n : Int) (s s' : Core) : Prop
  | rien (helems : s'.elems t = s.elems t)
      (hprio : ∀ x ∈ s.elems t, (s'.tas x).prio = (s.tas x).prio)
      (hp : p ∈ s.elems t → ¬ (0 < n ∧ n ≤ PRIO_MAX))
  | file (ht : t ≠ .procBloqueEs) (hm : p ∈ s.elems t) (hn : 0 < n) (hmax : n ≤ PRIO_MAX)
      (helems : s'.elems t = insertByKey (fun x => (s'.tas x).prio) p ((s.elems t).erase p))
      (hprio : ∀ x, x ≠ p → (s'.tas x).prio = (s.tas x).prio)
  | es (ht : t = .procBloqueEs) (hm : p ∈ s.elems t) (hn : 0 < n) (hmax : n ≤ PRIO_MAX)
      (helems : s'.elems t = s.elems t)
      (hprio : ∀ x, (s'.tas x).prio = if x = p then n else (s.tas x).prio)

theorem AppelChprio.reclasse {s s' : Core} {pid n : Int} {r : Suite} {p : Ptr} {t : Tete}
    (h : Coherent s) (he : s.EnCours) (ha : AppelChprio s pid n r s')
    (hp : s.tableDesProcs pid = some p) (ht : t.ParPrio) : Reclasse t p n s s' := by
  have hetat : ∀ {x : Ptr}, x ∈ s.elems t → (s.tas x).etat = .attendFile ∧ t = .file (s.tas x).fid ∨
      (s.tas x).etat = .attendEs ∧ t = .procBloqueEs := by
    intro x hx
    have hl : s.lien x = some t := LinkedQueues.link_of_mem hx
    have hx' := h.etat_of_lien hl
    cases t with
    | procActivables => exact absurd rfl ht.1.1
    | procMourants => exact absurd rfl ht.1.2
    | procEndormis => exact absurd rfl ht.2.1
    | semaphore sid => exact absurd rfl (ht.2.2 sid)
    | procBloqueEs => exact .inr ⟨hx', rfl⟩
    | file fid => exact .inl ⟨hx', by rw [h.fid_of_lien hl]⟩
  have hmaj : ∀ x, x ≠ p → ((s.maj p fun r => { r with prio := n }).tas x).prio = (s.tas x).prio := by
    intro x hx
    rw [Core.tas_maj, if_neg hx]
  have egal : ∀ {q : Ptr}, s.tableDesProcs pid = some q → q = p := by
    intro q hq
    rw [hp] at hq
    exact (Option.some.inj hq).symm
  cases ha with
  | refus hr =>
    refine .rien rfl (fun _ _ => rfl) ?_
    rintro hm ⟨hn, hmax⟩
    rcases hr with h0 | h0 | h0 | hz
    · obtain ⟨hv, rfl⟩ := h.table _ _ hp
      have h0' : (s.tas p).pid = 0 := le_antisymm h0 (h.pid p hv).1
      rw [h0', ← h.idle.2.1, h.inscrit _ h.idle.1] at hp
      rcases hetat hm with ⟨hx, -⟩ | ⟨hx, -⟩ <;> rw [← Option.some.inj hp] at hx <;>
        rcases h.idleEtat with hi | hi <;> rw [hi] at hx <;> cases hx
    · omega
    · omega
    · have hx := hz p hp
      rcases hetat hm with ⟨hx', -⟩ | ⟨hx', -⟩ <;> rw [hx] at hx' <;> cases hx'
  | elu h0 hp' hn hmax =>
    obtain rfl := egal hp'
    have hnot : s.procElu ∉ s.elems t :=
      LinkedQueues.notMem_of_link_none (h.lien_procElu he)
    exact .rien rfl (fun x hx => hmaj x fun hxe => hnot (hxe ▸ hx)) fun hm => absurd hm hnot
  | @activable q h0 hp' hn hmax hne hact =>
    obtain rfl := egal hp'
    have hnot : q ∉ s.elems t := by
      intro hm
      rcases hetat hm with ⟨hx, -⟩ | ⟨hx, -⟩ <;> rw [hact] at hx <;> cases hx
    refine .rien ?_ (fun x hx => hmaj x fun hxe => hnot (hxe ▸ hx)) fun hm => absurd hm hnot
    refine (Core.elems_ajoute_of_ne ht.1.1).trans (List.erase_of_not_mem hnot)
  | @file q h0 hp' hn hmax hne hfile =>
    obtain rfl := egal hp'
    by_cases hm : q ∈ s.elems t
    · rcases hetat hm with ⟨-, htf⟩ | ⟨hx, -⟩
      · refine .file (by rw [htf]; nofun) hm hn hmax ?_ hmaj
        refine (show _ = (Core.ajoute _ t q (·.prio)).elems t by rw [← htf]).trans ?_
        exact Core.elems_ajoute (by simp [Core.lien_retire])
      · rw [hfile] at hx
        cases hx
    · have htf : t ≠ .file (s.tas q).fid := by
        rintro rfl
        refine hm ((s.chainage.mem_iff _ _).mpr ?_)
        have hpl := h.place q (h.table _ _ hp).1
        unfold Core.Place at hpl
        rwa [hfile] at hpl
      refine .rien ?_ (fun x hx => hmaj x fun hxe => hm (hxe ▸ hx)) fun hx => absurd hx hm
      exact (Core.elems_ajoute_of_ne htf).trans (List.erase_of_not_mem hm)
  | @autre q h0 hp' hn hmax hne hz hact hfile =>
    obtain rfl := egal hp'
    by_cases hm : q ∈ s.elems t
    · rcases hetat hm with ⟨hx, -⟩ | ⟨-, hes⟩
      · exact absurd hx hfile
      · refine .es hes hm hn hmax rfl fun x => ?_
        rw [Core.tas_maj]
        split <;> rfl
    · exact .rien rfl (fun x hx => hmaj x fun hxe => hm (hxe ▸ hx)) fun hx => absurd hx hm

-- ---------------------------------------------------------------------------
-- Dates
-- ---------------------------------------------------------------------------

/-- A run in which each step satisfies `P`, with the date at which each process
last took its place, as `E` tells, and the number of steps so far. -/
inductive Dates (P : Config → (Ptr → Nat) → Signal → Prop)
    (E : Config → Signal → Config → Ptr → Prop) : Config → (Ptr → Nat) → Nat → Prop
  | depart {mat : Materiel} {m : Nat → UInt8} {c : Config} (h : depart mat m = .ok c) :
      Dates P E c (fun _ => 0) 1
  | pas {c c' : Config} {e : Signal} {d d' : Ptr → Nat} {n : Nat} (hc : Dates P E c d n)
      (hp : possible c e = true) (hP : P c d e) (h : GenesisOS.pas c e = .ok c')
      (hplace : ∀ p, E c e c' p → d' p = n) (hreste : ∀ p, ¬ E c e c' p → d' p = d p) :
      Dates P E c' d' (n + 1)

namespace Dates

variable {P : Config → (Ptr → Nat) → Signal → Prop} {E : Config → Signal → Config → Ptr → Prop}
  {c : Config} {d : Ptr → Nat} {n : Nat}

theorem accessible (h : Dates P E c d n) : Accessible c := by
  induction h with
  | depart h => exact .depart h
  | pas _ hp _ h _ _ ih => exact .pas ih hp trivial h

/-- Every run has dates. -/
theorem existe {R : Config → Signal → Prop} (h : Atteint R c) (hP : ∀ c d e, R c e → P c d e) :
    ∃ d n, Dates P E c d n := by
  induction h with
  | depart h => exact ⟨_, _, .depart h⟩
  | @pas c c' e hc hp hR h ih =>
    classical
    obtain ⟨d, n, hd⟩ := ih
    refine ⟨fun p => if E c e c' p then n else d p, n + 1, .pas hd hp (hP c d e hR) h ?_ ?_⟩
    · exact fun p hp => if_pos hp
    · exact fun p hp => if_neg hp

end Dates

/-- The list is ranked by the current priorities and the dates. -/
structure RangEn (t : Tete) (c : Config) (d : Ptr → Nat) (n : Nat) : Prop where
  rang : Ranked (fun x => (c.s.tas x).prio) d (c.s.elems t)
  avant : ∀ x ∈ c.s.elems t, d x < n

section

variable {t : Tete} {c c' : Config} {e : Signal} {d d' : Ptr → Nat} {n : Nat}

namespace RangEn

theorem depart {mat : Materiel} {m : Nat → UInt8} (h : GenesisOS.depart mat m = .ok c)
    (ht : t.ParPrio) : RangEn t c (fun _ => 0) 1 := by
  obtain ⟨s₀, h₀, hT⟩ := depart_raffine h
  have hvide : s₀.elems t = [] := by
    refine List.eq_nil_iff_forall_not_mem.mpr fun x hx => ?_
    have hl : s₀.lien x = some t := LinkedQueues.link_of_mem hx
    rw [h₀.lien x] at hl
    cases hl
  obtain ⟨l, hl, -, hor, -⟩ := hT.listes h₀.stable h₀.enCours.vivant (fun _ _ => id) ht
  rw [hvide, List.sublist_nil] at hl
  subst hl
  refine ⟨?_, fun _ _ => Nat.zero_lt_one⟩
  rcases hor with hor | hor
  · rw [hor]
    exact List.Pairwise.nil
  · rw [hor]
    exact List.pairwise_singleton _ _

/-- A step without `chprio`. -/
theorem pas_sans (h : RangEn t c d n) (hv : c.Valide) (hp : possible c e = true)
    (hpas : pas c e = .ok c') (ht : t.ParPrio) (hC : ∀ p m, ¬ ChangePrio c e p m)
    (hplace : ∀ p ∈ c'.s.elems t, p ∉ c.s.elems t → d' p = n)
    (hreste : ∀ p ∈ c'.s.elems t, p ∈ c.s.elems t → d' p = d p) : RangEn t c' d' (n + 1) := by
  have hT := (pas_raffine hv hp).1 c' hpas
  obtain ⟨hst, he⟩ := hv.entree
  obtain ⟨l, hl, hnot, hor, hprio⟩ := hT.listes hst he.vivant hC ht
  rw [c.elems_entree] at hl
  rw [c.procElu_entree] at hnot hor
  simp only [c.prio_entree, c.prochain_entree] at hor hprio
  -- the elected process was in no list
  have helu : c.s.procElu ∉ c.s.elems t := by
    refine LinkedQueues.notMem_of_link_none ?_
    have hpl := hv.stable.coherent.place _ hv.elu.vivant
    unfold Core.Place at hpl
    rw [hv.elu.etat] at hpl
    exact hpl.2
  have hlt : ∀ x ∈ c.s.elems t, x < c.s.prochain := by
    intro x hx
    have hl : c.s.lien x = some t := LinkedQueues.link_of_mem hx
    exact hv.stable.coherent.ancien x (hv.stable.coherent.lie x t hl)
  have hranged : ∀ l' : List Ptr, (∀ x ∈ l', x ∈ l ∨ x = c.s.procElu) →
      Ranked (fun x => (c.s.tas x).prio) d' l' →
        Ranked (fun x => (c'.s.tas x).prio) d' l' := by
    intro l' hl' hr
    refine hr.congr fun x hx => ⟨hprio x ?_, rfl⟩
    rcases hl' x hx with hm | rfl
    · exact hlt x (hl.subset hm)
    · exact hv.stable.coherent.ancien _ hv.elu.vivant
  have hrl : (∀ x ∈ l, x ∈ c'.s.elems t) → Ranked (fun x => (c.s.tas x).prio) d' l := by
    intro hsub
    exact (h.rang.sublist hl).congr fun x hx => ⟨rfl, hreste x (hsub x hx) (hl.subset hx)⟩
  rcases hor with hor | hor
  · have hsub : ∀ x ∈ l, x ∈ c'.s.elems t := fun x hx => hor ▸ hx
    refine ⟨?_, ?_⟩
    · rw [hor]
      exact hranged l (fun x hx => .inl hx) (hrl hsub)
    · intro x hx
      have hx' : x ∈ c.s.elems t := hl.subset (hor ▸ hx)
      rw [hreste x hx hx']
      exact (h.avant x hx').trans (Nat.lt_succ_self n)
  · have hmem : ∀ x, x ∈ c'.s.elems t ↔ x = c.s.procElu ∨ x ∈ l := by
      intro x
      rw [hor]
      exact List.mem_orderedInsert _
    have hd : d' c.s.procElu = n := hplace _ ((hmem _).mpr (.inl rfl)) helu
    refine ⟨?_, ?_⟩
    · rw [hor]
      refine hranged _ (fun x hx => ((List.mem_orderedInsert _).mp hx).symm) ?_
      refine (hrl fun x hx => (hmem x).mpr (.inr hx)).insertByKey fun x hx => ?_
      rw [hreste x ((hmem x).mpr (.inr hx)) (hl.subset hx), hd]
      exact h.avant x (hl.subset hx)
    · intro x hx
      rcases (hmem x).mp hx with rfl | hm
      · rw [hd]
        exact Nat.lt_succ_self n
      · rw [hreste x hx (hl.subset hm)]
        exact (h.avant x (hl.subset hm)).trans (Nat.lt_succ_self n)

end RangEn

theorem ChangePrio.unique {p q : Ptr} {m k : Int} (h : ChangePrio c e p m) (h' : ChangePrio c e q k) :
    p = q ∧ m = k := by
  obtain ⟨r, ⟨rfl, hsv⟩, hp, rfl⟩ := h
  obtain ⟨r', ha', hq, rfl⟩ := h'
  obtain ⟨rfl, -⟩ := Signal.Appelle.inj hsv ha'
  rw [hp] at hq
  exact ⟨Option.some.inj hq, rfl⟩

/-- A step that calls `chprio`. -/
theorem pas_reclasse {p : Ptr} {m : Int} (h : c.Valide) (hp : possible c e = true)
    (hpas : pas c e = .ok c') (ht : t.ParPrio) (hch : ChangePrio c e p m) :
    Reclasse t p m c.s.toCore c'.s.toCore := by
  obtain ⟨r, ⟨rfl, hsv⟩, htable, rfl⟩ := hch
  obtain ⟨x, s', hseg, -⟩ := of_pas hpas
  obtain ⟨helems, hcles⟩ := pas_listes h hp hseg hpas ht.1
  have hprio : ∀ y, (c'.s.tas y).prio = (s'.tas y).prio := fun y => congrArg Prod.fst (hcles y)
  have hposs := hp
  simp only [possible, decide_eq_true_eq] at hposs
  have he := h.utilisateur hposs.1
  have hc := h.stable.coherent
  rw [segment, if_pos hposs, traitantIT49Switch, hsv] at hseg
  have ha := wp_ok (wp_chprio (C := {}) h.stable he hposs.2 _ _ fun _ _ ha => ha) hseg
  cases ha.reclasse hc he htable ht with
  | rien he₁ hp₁ hr =>
    exact .rien (helems.trans he₁) (fun x hx => (hprio x).trans (hp₁ x hx)) hr
  | file htf hm hn hmax he₁ hp₁ =>
    refine .file htf hm hn hmax ?_ fun x hx => (hprio x).trans (hp₁ x hx)
    rw [helems, he₁]
    exact congrArg (fun k => insertByKey k p _) (funext fun x => (hprio x).symm)
  | es hes hm hn hmax he₁ hp₁ =>
    exact .es hes hm hn hmax (helems.trans he₁) fun x => (hprio x).trans (hp₁ x)

namespace RangEn

/-- A step that calls `chprio` and leaves the list alone. -/
theorem pas_rien (h : RangEn t c d n) (helems : c'.s.elems t = c.s.elems t)
    (hprio : ∀ x ∈ c.s.elems t, (c'.s.tas x).prio = (c.s.tas x).prio)
    (hd : ∀ x ∈ c.s.elems t, d' x = d x) : RangEn t c' d' (n + 1) := by
  refine ⟨?_, ?_⟩
  · rw [helems]
    exact h.rang.congr fun x hx => ⟨hprio x hx, hd x hx⟩
  · intro x hx
    rw [helems] at hx
    rw [hd x hx]
    exact (h.avant x hx).trans (Nat.lt_succ_self n)

/-- A step that puts `p` back in its place. -/
theorem pas_file {p : Ptr} (h : RangEn t c d n)
    (helems : c'.s.elems t = insertByKey (fun x => (c'.s.tas x).prio) p ((c.s.elems t).erase p))
    (hprio : ∀ x, x ≠ p → (c'.s.tas x).prio = (c.s.tas x).prio) (hdp : d' p = n)
    (hd : ∀ x ∈ c.s.elems t, x ≠ p → d' x = d x) : RangEn t c' d' (n + 1) := by
  have hmem : ∀ {x}, x ∈ (c.s.elems t).erase p → x ≠ p ∧ x ∈ c.s.elems t :=
    fun hx => (c.s.chainage.nodup t).mem_erase_iff.mp hx
  refine ⟨?_, ?_⟩
  · rw [helems]
    refine Ranked.insertByKey ?_ fun x hx => ?_
    · refine (h.rang.sublist List.erase_sublist).congr fun x hx => ?_
      obtain ⟨hne, hm⟩ := hmem hx
      exact ⟨hprio x hne, hd x hm hne⟩
    · obtain ⟨hne, hm⟩ := hmem hx
      rw [hdp, hd x hm hne]
      exact h.avant x hm
  · intro x hx
    rw [helems] at hx
    rcases (List.mem_orderedInsert _).mp hx with rfl | hx
    · rw [hdp]
      exact Nat.lt_succ_self n
    · obtain ⟨hne, hm⟩ := hmem hx
      rw [hd x hm hne]
      exact (h.avant x hm).trans (Nat.lt_succ_self n)

end RangEn

end

-- ---------------------------------------------------------------------------
-- Message files
-- ---------------------------------------------------------------------------

/-- The process takes its place on a file: it blocks there, or `chprio` gives it
its priority while it waits. -/
def EntreFile (c : Config) (e : Signal) (c' : Config) (p : Ptr) : Prop :=
  ∃ fid, p ∈ c'.s.elems (.file fid) ∧ (p ∉ c.s.elems (.file fid) ∨ ∃ n, ChprioDe c e p n)

theorem parPrio_file (fid : Int) : Tete.ParPrio (.file fid) :=
  ⟨⟨nofun, nofun⟩, nofun, nofun⟩

/-- In every run, the waiting list of a file is ranked. -/
theorem Dates.rang_file {c : Config} {d : Ptr → Nat} {n : Nat}
    (h : Dates (fun _ _ _ => True) EntreFile c d n) (fid : Int) : RangEn (.file fid) c d n := by
  induction h with
  | depart h => exact .depart h (parPrio_file fid)
  | @pas c c' e d d' n hc hp _ h hplace hreste ih =>
    have hv := hc.accessible.valide
    have ht := parPrio_file fid
    -- who was there and is not the target of a `chprio` keeps its date
    have garde : ∀ x ∈ c'.s.elems (.file fid), x ∈ c.s.elems (.file fid) →
        (∀ n, ¬ ChprioDe c e x n) → d' x = d x := by
      intro x hx hx₀ hno
      refine hreste x ?_
      rintro ⟨i, hi, hor⟩
      have hl₁ : c'.s.lien x = some (.file i) := LinkedQueues.link_of_mem hi
      have hl₂ : c'.s.lien x = some (.file fid) := LinkedQueues.link_of_mem hx
      rw [hl₁] at hl₂
      cases hl₂
      rcases hor with hnot | ⟨k, hk⟩
      · exact hnot hx₀
      · exact hno k hk
    by_cases hch : ∃ p m, ChangePrio c e p m
    · obtain ⟨p, m, hch⟩ := hch
      have autre : ∀ x, x ≠ p → ∀ k, ¬ ChprioDe c e x k := by
        intro x hx k hk
        exact hx (hk.appel.unique hch).1
      cases pas_reclasse hv hp h ht hch with
      | rien helems hprio hsans =>
        refine ih.pas_rien helems hprio fun x hx => garde x (helems ▸ hx) hx fun k hk => ?_
        obtain ⟨rfl, rfl⟩ := hk.appel.unique hch
        exact hsans hx ⟨hk.positif, hk.max⟩
      | file _ hm hn hmax helems hprio =>
        have hmem : p ∈ c'.s.elems (.file fid) := by
          rw [helems]
          exact (List.mem_orderedInsert _).mpr (.inl rfl)
        refine ih.pas_file helems hprio (hplace p ⟨fid, hmem, .inr ⟨m, hch, hn, hmax⟩⟩) ?_
        intro x hx hne
        refine garde x ?_ hx (autre x hne)
        rw [helems]
        exact (List.mem_orderedInsert _).mpr
          (.inr ((c.s.chainage.nodup _).mem_erase_iff.mpr ⟨hne, hx⟩))
      | es hes => cases hes
    · have hno : ∀ p m, ¬ ChangePrio c e p m := fun p m hx => hch ⟨p, m, hx⟩
      refine ih.pas_sans hv hp h ht hno ?_ ?_
      · exact fun p hx hx₀ => hplace p ⟨fid, hx, .inl hx₀⟩
      · exact fun p hx hx₀ => garde p hx hx₀ fun k hk => hno p k hk.appel

/-- Whoever leaves a list when a process is woken from its top was that top. -/
theorem top_of_eveille {s u : Core} {p q : Ptr} {t t' : Tete} {f : Processus → Processus}
    (hn : p ∉ (u.eveille q f).elems t) (hu : u.chainage = s.chainage)
    (hq : s.chainage.top t' = some q) (ht : t ≠ .procActivables) (hm : p ∈ s.elems t) :
    s.chainage.top t = some p := by
  have hm' : p ∈ u.elems t := by
    rw [Core.elems, hu]
    exact hm
  rw [← hu] at hq ⊢
  by_cases htt : t = t'
  · subst htt
    rw [Core.elems_eveille_top (f := f) hq ht] at hm'
    rcases List.mem_append.mp hm' with hx | hx
    · exact absurd hx hn
    · rw [List.mem_singleton.mp hx]
      exact hq
  · rw [Core.elems_eveille_of_ne (LinkedQueues.link_of_top hq) htt ht] at hn
    exact absurd hm' hn

theorem mem_bloqueFile {s : Core} {p : Ptr} {fid : Int} {t : Tete} (hm : p ∈ s.elems t) :
    p ∈ (s.bloqueFile fid).elems t := by
  by_cases hl : s.lien s.procElu = none
  · have hentree : Entree t s.procElu s (s.bloqueFile fid) := entree_bloqueFile hl
    rcases hentree with he | he
    · rw [he]
      exact hm
    · rw [he]
      exact (List.mem_orderedInsert _).mpr (.inr hm)
  · unfold Core.bloqueFile Core.ajoute LinkedQueues.add
    rw [dif_neg hl]
    exact hm

/-- A `psend` or a `preceive` releases the top of a list. -/
theorem pas_retire_top {c c' : Config} {e : Signal} {r : Registres} {fid : Int} {p : Ptr}
    (h : c.Valide) (hp : possible c e = true) (hpas : pas c e = .ok c')
    (he : e.Appelle .psend r ∨ e.Appelle .preceive r) (hm : p ∈ c.s.elems (.file fid))
    (hn : p ∉ c'.s.elems (.file fid)) : c.s.chainage.top (.file fid) = some p := by
  obtain ⟨x, s', hseg, -⟩ := of_pas hpas
  rw [(pas_listes (t := .file fid) h hp hseg hpas ⟨nofun, nofun⟩).1] at hn
  have hint : e = .int49 r := he.elim (·.1) (·.1)
  subst hint
  have hposs := hp
  simp only [possible, decide_eq_true_eq] at hposs
  have henc := h.utilisateur hposs.1
  rw [segment, if_pos hposs, traitantIT49Switch] at hseg
  rcases he with ⟨-, hsv⟩ | ⟨-, hsv⟩ <;> rw [hsv] at hseg
  · have ha := wp_ok (wp_psend (C := {}) h.stable henc _ _ fun _ _ ha => ha) hseg
    generalize s'.toCore = u at ha hn
    cases ha with
    | refus hf => exact absurd hm hn
    | remis hf hvide hq => exact top_of_eveille hn rfl hq (by simp) hm
    | bloque hf hnon hplein => exact absurd (mem_bloqueFile (s := c.s.toCore.emet _ _) hm) hn
    | depose hf hnon hlt hn' => exact absurd hm hn
  · dsimp only at hseg
    split at hseg
    · cases hseg
      exact absurd hm hn
    · have ha := wp_ok (wp_preceive (C := {}) h.stable henc _ _ fun _ _ ha => ha) hseg
      generalize s'.toCore = u at ha hn
      cases ha with
      | refus hf => exact absurd hm hn
      | bloque hf hvide => exact absurd (mem_bloqueFile (s := c.s.toCore.recoit _ _) hm) hn
      | prend hf hl hq => exact absurd hm hn
      | relaye hf hl hq hn' => exact top_of_eveille hn rfl hq (by simp) hm

/-- In every run, the process that a `psend` or a `preceive` releases outranks
every other one blocked on the file: it has a greater priority, or the same one
since an earlier step. -/
theorem attente_par_rang {c c' : Config} {d : Ptr → Nat} {n : Nat} {e : Signal} {r : Registres}
    {fid : Int} {p : Ptr} (h : Dates (fun _ _ _ => True) EntreFile c d n)
    (hp : possible c e = true) (hpas : pas c e = .ok c')
    (he : e.Appelle .psend r ∨ e.Appelle .preceive r) (hm : p ∈ c.s.elems (.file fid))
    (hn : p ∉ c'.s.elems (.file fid)) :
    ∀ q ∈ c.s.elems (.file fid), q ≠ p → Outranks (fun x => (c.s.tas x).prio) d p q := by
  intro q hq hne
  have htop := pas_retire_top h.accessible.valide hp hpas he hm hn
  exact (h.rang_file fid).rang.last htop hq hne

/-- Two children of the user process, of priorities 2 and 3, wait for a message. -/
def deuxReceveurs : List Signal :=
  [.suite, appel 9 1 0 0 0, appel 2 0x1000000 0 2 0, .suite, appel 11 9 0 0 0, .suite,
   appel 2 0x1000000 0 3 0, .suite, appel 11 9 0 0 0, .suite]

/-- A message releases the child of priority 3. -/
theorem attente_par_rang_exemple : ∃ c d n p q, Dates (fun _ _ _ => True) EntreFile c d n ∧
    p ∈ c.s.elems (.file 9) ∧ q ∈ c.s.elems (.file 9) ∧ q ≠ p ∧
      Outranks (fun x => (c.s.tas x).prio) d p q := by
  obtain ⟨c, hc, h⟩ := Accessible.scenario (l := deuxReceveurs)
    (Q := fun c => (c.s.tableDesProcs 2).any fun q => (c.s.tableDesProcs 3).any fun p =>
      decide (q ≠ p) && decide (q ∈ c.s.elems (.file 9)) && decide (p ∈ c.s.elems (.file 9)) &&
        (execute c [appel 13 9 5 0 0]).any fun c' : Config => decide (p ∉ c'.s.elems (.file 9)))
    (by decide +kernel)
  obtain ⟨q, -, h⟩ := (Option.any_eq_true _ _).mp h
  obtain ⟨p, -, h⟩ := (Option.any_eq_true _ _).mp h
  simp only [Bool.and_eq_true, decide_eq_true_eq] at h
  obtain ⟨⟨⟨hne, hq⟩, hp⟩, hl⟩ := h
  obtain ⟨c', hl, hn⟩ := (Option.any_eq_true _ _).mp hl
  rw [decide_eq_true_eq] at hn
  obtain ⟨hposs, hpas⟩ := of_execute_un hl
  obtain ⟨d, n, hd⟩ := Dates.existe (E := EntreFile) hc fun _ _ _ _ => trivial
  exact ⟨c, d, n, p, q, hd, hp, hq, hne,
    attente_par_rang hd hposs hpas (.inl ⟨rfl, rfl⟩) hp hn q hq hne⟩

-- ---------------------------------------------------------------------------
-- The console
-- ---------------------------------------------------------------------------

/-- The process blocks in `cons_read`. -/
def EntreEs (c : Config) (_ : Signal) (c' : Config) (p : Ptr) : Prop :=
  p ∈ c'.s.elems .procBloqueEs ∧ p ∉ c.s.elems .procBloqueEs

/-- A `chprio` of a blocked reader does not change who outranks whom. -/
def GardeRang (c : Config) (d : Ptr → Nat) (e : Signal) : Prop :=
  ∀ p k, ChprioDe c e p k → p ∈ c.s.elems .procBloqueEs →
    ∀ q ∈ c.s.elems .procBloqueEs, q ≠ p →
      (Outranks (fun x => (c.s.tas x).prio) d p q ↔
        Outranks (Function.update (fun x => (c.s.tas x).prio) p k) d p q) ∧
      (Outranks (fun x => (c.s.tas x).prio) d q p ↔
        Outranks (Function.update (fun x => (c.s.tas x).prio) p k) d q p)

theorem parPrio_es : Tete.ParPrio .procBloqueEs := ⟨⟨nofun, nofun⟩, nofun, nofun⟩

/-- A `chprio` that does not change who outranks whom leaves the list ranked. -/
theorem RangEn.pas_es {c c' : Config} {e : Signal} {d d' : Ptr → Nat} {n : Nat} {p : Ptr} {k : Int}
    (h : RangEn .procBloqueEs c d n) (hch : ChprioDe c e p k) (hg : GardeRang c d e)
    (hm : p ∈ c.s.elems .procBloqueEs)
    (helems : c'.s.elems .procBloqueEs = c.s.elems .procBloqueEs)
    (hprio : ∀ x, (c'.s.tas x).prio = if x = p then k else (c.s.tas x).prio)
    (hd : ∀ x ∈ c.s.elems .procBloqueEs, d' x = d x) : RangEn .procBloqueEs c' d' (n + 1) := by
  have hkey : (fun x => (c'.s.tas x).prio) = Function.update (fun x => (c.s.tas x).prio) p k := by
    funext x
    rw [hprio x, Function.update_apply]
  have hnodup := c.s.chainage.nodup .procBloqueEs
  refine ⟨?_, ?_⟩
  · rw [helems, hkey]
    have hrang : Ranked (Function.update (fun x => (c.s.tas x).prio) p k) d
        (c.s.elems .procBloqueEs) := by
      refine List.Pairwise.imp_of_mem ?_ (h.rang.and hnodup)
      rintro a b ha hb ⟨hab, hne⟩
      -- only the ranks that involve the target can change
      by_cases hbp : b = p
      · subst hbp
        exact (hg b k hch hm a ha hne).1.mp hab
      · by_cases hap : a = p
        · subst hap
          exact (hg a k hch hm b hb hbp).2.mp hab
        · unfold Outranks at hab ⊢
          rwa [Function.update_of_ne hap, Function.update_of_ne hbp]
    exact hrang.congr fun x hx => ⟨rfl, hd x hx⟩
  · intro x hx
    rw [helems] at hx
    rw [hd x hx]
    exact (h.avant x hx).trans (Nat.lt_succ_self n)

/-- In every run without a `chprio` that changes who outranks whom, the waiting
list of the console is ranked. -/
theorem Dates.rang_es {c : Config} {d : Ptr → Nat} {n : Nat} (h : Dates GardeRang EntreEs c d n) :
    RangEn .procBloqueEs c d n := by
  induction h with
  | depart h => exact .depart h parPrio_es
  | @pas c c' e d d' n hc hp hg h hplace hreste ih =>
    have hv := hc.accessible.valide
    have hd : ∀ x, x ∈ c.s.elems .procBloqueEs → d' x = d x :=
      fun x hx => hreste x fun hx' => hx'.2 hx
    by_cases hch : ∃ p k, ChangePrio c e p k
    · obtain ⟨p, k, hch⟩ := hch
      cases pas_reclasse hv hp h parPrio_es hch with
      | rien helems hprio _ => exact ih.pas_rien helems hprio hd
      | file ht => exact absurd rfl ht
      | es _ hm hn hmax helems hprio => exact ih.pas_es ⟨hch, hn, hmax⟩ hg hm helems hprio hd
    · refine ih.pas_sans hv hp h parPrio_es (fun p m hx => hch ⟨p, m, hx⟩) ?_ fun p _ hx => hd p hx
      exact fun p hx hx₀ => hplace p ⟨hx, hx₀⟩

/-- Calls of `verifie_es` wake processes and do nothing else. -/
theorem AppelClavier.garde {n : Nat} {r : Suite} {s s' : Core} (ha : AppelClavier n r s s') :
    s'.vivant = s.vivant ∧ s'.procElu = s.procElu ∧
      ∀ p, (s.tas p).etat = .activable → (s'.tas p).etat = .activable := by
  have eveille : ∀ {s : Core} {p q : Ptr}, (s.tas q).etat = .activable →
      ((s.eveille p id).tas q).etat = .activable := by
    intro s p q hq
    rw [Core.tas_eveille]
    split
    · rfl
    · exact hq
  induction ha with
  | fin => exact ⟨rfl, rfl, fun _ h => h⟩
  | vide _ _ ih => exact ih
  | reveil hp _ _ ih => exact ⟨ih.1, ih.2.1, fun q hq => ih.2.2 q (eveille hq)⟩
  | cede hp _ _ => exact ⟨rfl, rfl, fun q hq => eveille hq⟩

/-- The processes some calls of `verifie_es` wake, at least one when there is one to
wake, and what is left of the waiting list. -/
theorem AppelClavier.reste {n : Nat} {r : Suite} {s s' : Core} (ha : AppelClavier n r s s') :
    ∃ w, w <+: s.reveillesEs n ∧ (s.reveillesEs n ≠ [] → w ≠ []) ∧
      s.elems .procBloqueEs = s'.elems .procBloqueEs ++ w.reverse ∧
        ∀ p ∈ w, (s'.tas p).etat = .activable := by
  have eveille : ∀ {s : Core} {p : Ptr}, ((s.eveille p id).tas p).etat = .activable := by
    intro s p
    rw [Core.tas_eveille, if_pos rfl]
  induction ha with
  | @fin s =>
    exact ⟨[], List.nil_prefix, fun h => absurd (List.take_zero ..) h, (List.append_nil _).symm, by simp⟩
  | @vide n r s s' hvide _ ih =>
    obtain ⟨w, hw, -, he, ha⟩ := ih
    have hnil : ∀ n, s.reveillesEs n = [] := fun n => by
      rw [Core.reveillesEs, hvide, List.reverse_nil, List.take_nil]
    rw [hnil] at hw ⊢
    exact ⟨w, hw, fun h => absurd rfl h, he, ha⟩
  | @reveil n r s s' p hp _ h ih =>
    obtain ⟨w, hw, -, he, ha⟩ := ih
    refine ⟨p :: w, ?_, fun _ => List.cons_ne_nil p w, ?_, ?_⟩
    · rw [Core.reveillesEs_succ n hp]
      exact (List.prefix_cons_inj p).mpr hw
    · rw [Core.elems_eveille_top (f := id) hp (by decide), he, List.reverse_cons, List.append_assoc]
    · intro q hq
      rcases List.mem_cons.mp hq with rfl | hq
      · exact h.garde.2.2 q eveille
      · exact ha q hq
  | @cede n k s p hp _ _ =>
    refine ⟨[p], ?_, fun _ => List.cons_ne_nil p [], Core.elems_eveille_top (f := id) hp (by decide), ?_⟩
    · rw [Core.reveillesEs_succ n hp]
      exact List.prefix_append [p] _
    · intro q hq
      rw [List.mem_singleton.mp hq]
      exact eveille

/-- The step runs the loop of `keyboard_data`. -/
def FrappeClavier (c : Config) (e : Signal) : Prop :=
  (∃ str, e = .int33 str) ∨
    (e = .suite ∧ ∃ reste, (c.s.tas c.s.procElu).contexte = .keyboardData reste)

/-- The calls of `verifie_es` in such a step. -/
theorem FrappeClavier.appel {c : Config} {e : Signal} {x : Suite} {s' : Kernel}
    (he : FrappeClavier c e) (h : c.Valide) (hp : possible c e = true)
    (hseg : segment c e c.s = .ok (x, s')) :
    ∃ n, reveilles c e = c.entree.reveillesEs n ∧ AppelClavier n x c.entree s'.toCore := by
  obtain ⟨hst, henc⟩ := h.entree
  rcases he with ⟨str, rfl⟩ | ⟨rfl, reste, hctx⟩
  · have hu : c.mode = .utilisateur := of_decide_eq_true hp
    rw [segment, if_pos hu] at hseg
    unfold reveilles
    rw [Config.entree_utilisateur hu] at hst henc ⊢
    exact ⟨_, rfl, wp_ok (wp_keyboardData (C := {}) str hst henc fun _ _ ha => ha) hseg⟩
  · have hn : c.mode = .noyau := of_decide_eq_true hp
    have hwp : wp ({} : Cadre).tolere (segment c .suite) (fun x s' =>
        AppelClavier (c.s.clavier.eveils 0 reste) x c.entree s'.toCore) c.s := by
      refine h.wp_suite hn ?_
      rw [hctx]
      exact wp_keyboardBoucle reste 0 hst henc fun _ _ ha => ha
    exact ⟨c.s.clavier.eveils 0 reste, by simp only [reveilles, hctx], wp_ok hwp hseg⟩

theorem pas_clavier {c c' : Config} {e : Signal} (h : c.Valide) (hp : possible c e = true)
    (hpas : pas c e = .ok c') (he : FrappeClavier c e) :
    ∃ w, w <+: reveilles c e ∧ (reveilles c e ≠ [] → w ≠ []) ∧
      c.s.elems .procBloqueEs = c'.s.elems .procBloqueEs ++ w.reverse ∧
        ∀ p ∈ w, (c'.s.tas p).etat = .activable ∨ (c'.s.tas p).etat = .elu := by
  obtain ⟨x, s', hseg, -⟩ := of_pas hpas
  obtain ⟨n, hr, ha⟩ := he.appel h hp hseg
  obtain ⟨w, hw, hnil, hel, hact⟩ := ha.reste
  obtain ⟨hviv, helu, -⟩ := ha.garde
  rw [hr, ← c.elems_entree, (pas_listes (t := .procBloqueEs) h hp hseg hpas ⟨nofun, nofun⟩).1]
  refine ⟨w, hw, hnil, hel, fun p hpw => ?_⟩
  obtain ⟨hst, henc⟩ := h.entree
  have hlien : c.entree.lien p = some .procBloqueEs := by
    refine LinkedQueues.link_of_mem (?_ : p ∈ c.entree.elems .procBloqueEs)
    rw [hel]
    exact List.mem_append_right _ (List.mem_reverse.mpr hpw)
  -- the process is not the elected one, so the end of the step elects it at most
  have hep := pas_epargne h hp hseg hpas (by rw [hviv]; exact hst.coherent.lie p _ hlien)
    (by rw [hact p hpw]; rfl) (by rw [helu]; exact hst.coherent.ne_procElu henc hlien)
  rcases hep.etat with hx | ⟨-, hx⟩
  · exact .inl (hx.trans (hact p hpw))
  · exact hx.symm

/-- In every run without a `chprio` that changes who outranks whom, the waiting
list of the console is ranked. A keyboard step whose `verifie_es` finds a process
there wakes one, which is activable or elected at the end of the step, and each
process it wakes outranks every other one that then waits. -/
theorem lecteurs_par_rang {c : Config} {d : Ptr → Nat} {n : Nat} (h : Dates GardeRang EntreEs c d n) :
    Ranked (fun x => (c.s.tas x).prio) d (c.s.elems .procBloqueEs) ∧
      ∀ e c', possible c e = true → pas c e = .ok c' → FrappeClavier c e →
        ∃ w, w <+: reveilles c e ∧ (reveilles c e ≠ [] → w ≠ []) ∧
          c.s.elems .procBloqueEs = c'.s.elems .procBloqueEs ++ w.reverse ∧
          (∀ p ∈ w, (c'.s.tas p).etat = .activable ∨ (c'.s.tas p).etat = .elu) ∧
          ∀ w₁ p w₂, w = w₁ ++ p :: w₂ → ∀ q ∈ c'.s.elems .procBloqueEs ++ w₂.reverse,
            Outranks (fun x => (c.s.tas x).prio) d p q := by
  have hrang := h.rang_es.rang
  refine ⟨hrang, ?_⟩
  intro e c' hp hpas he
  obtain ⟨w, hw, hnil, hel, hact⟩ := pas_clavier h.accessible.valide hp hpas he
  refine ⟨w, hw, hnil, hel, hact, ?_⟩
  rintro w₁ p w₂ rfl q hq
  have hsplit : c.s.elems .procBloqueEs =
      (c'.s.elems .procBloqueEs ++ w₂.reverse) ++ p :: w₁.reverse := by
    rw [hel, List.reverse_append, List.reverse_cons]
    simp only [List.append_assoc, List.singleton_append]
  rw [hsplit] at hrang
  exact (List.pairwise_append.mp hrang).2.2 q hq p List.mem_cons_self

/-- Two children of the user process, of priorities 2 and 3, wait in `cons_read`. -/
def deuxLecteurs : List Signal :=
  [.suite, appel 2 0x1000000 0 2 0, .suite, appel 19 0x1000100 10 0 0, .suite,
   appel 2 0x1000000 0 3 0, .suite, appel 19 0x1000200 10 0 0, .suite]

/-- The system call a signal makes. -/
def Signal.service : Signal → Option Service
  | .int49 r => r.service
  | _ => none

/-- A carriage return wakes the child of priority 3 before the other. -/
theorem lecteurs_par_rang_exemple : ∃ c d n c' p q, Dates GardeRang EntreEs c d n ∧
    pas c (.int33 [13]) = .ok c' ∧ c.s.elems .procBloqueEs = [q, p] ∧
      c'.s.elems .procBloqueEs = [q] ∧ Outranks (fun x => (c.s.tas x).prio) d p q ∧
        ((c'.s.tas p).etat = .activable ∨ (c'.s.tas p).etat = .elu) := by
  obtain ⟨c, hc, h⟩ := (Option.any_eq_true _ _).mp (show (scenario deuxLecteurs).any (fun c =>
    (c.s.tableDesProcs 2).any fun q => (c.s.tableDesProcs 3).any fun p =>
      decide (c.s.elems .procBloqueEs = [q, p]) &&
        (execute c [.int33 [13]]).any fun c' : Config => decide (c'.s.elems .procBloqueEs = [q]))
    = true by decide +kernel)
  obtain ⟨q, -, h⟩ := (Option.any_eq_true _ _).mp h
  obtain ⟨p, -, h⟩ := (Option.any_eq_true _ _).mp h
  simp only [Bool.and_eq_true, decide_eq_true_eq] at h
  obtain ⟨hl, h⟩ := h
  obtain ⟨c', hc', hl'⟩ := (Option.any_eq_true _ _).mp h
  rw [decide_eq_true_eq] at hl'
  obtain ⟨hposs, hpas⟩ := of_execute_un hc'
  -- no step of the run is a `chprio`
  have hrun : Atteint (fun c e => ∀ p k, ¬ ChangePrio c e p k) c := by
    refine Atteint.scenario hc ?_
    rintro e he c p k ⟨r, ⟨rfl, hsv⟩, -⟩
    have hsans : ∀ e ∈ deuxLecteurs, e.service ≠ some .chprio := by decide
    exact hsans _ he hsv
  obtain ⟨d, n, hd⟩ := Dates.existe (P := GardeRang) (E := EntreEs) hrun
    fun _ _ _ hno p k hch => absurd hch.appel (hno p k)
  obtain ⟨w, -, -, hel, hact, hw⟩ := (lecteurs_par_rang hd).2 _ c' hposs hpas (.inl ⟨_, rfl⟩)
  have hwp : w = [p] := by
    rw [hl, hl'] at hel
    have := List.append_cancel_left (show [q] ++ [p] = [q] ++ w.reverse from hel)
    rw [← List.reverse_reverse w, ← this]
    rfl
  exact ⟨c, d, n, c', p, q, hd, hpas, hl, hl', hw [] p [] hwp q (by rw [hl']; simp),
    hact p (by rw [hwp]; simp)⟩

/-- Raising the priority of a blocked reader leaves it behind the others. -/
theorem lecteurs_par_rang_faux : ∃ c d n c' p q,
    Dates (fun _ _ _ => True) EntreEs c d n ∧ pas c (.int33 [13]) = .ok c' ∧
      c.s.elems .procBloqueEs = [q, p] ∧ c'.s.elems .procBloqueEs = [q] ∧
        (c.s.tas p).prio < (c.s.tas q).prio := by
  obtain ⟨c, hc, h⟩ := Accessible.scenario (l := deuxLecteurs ++ [appel 7 2 4 0 0])
    (Q := fun c => (c.s.tableDesProcs 2).any fun q => (c.s.tableDesProcs 3).any fun p =>
      decide (c.s.elems .procBloqueEs = [q, p]) &&
        decide ((c.s.tas p).prio < (c.s.tas q).prio) &&
          (execute c [.int33 [13]]).any fun c' : Config => decide (c'.s.elems .procBloqueEs = [q]))
    (by decide +kernel)
  obtain ⟨q, -, h⟩ := (Option.any_eq_true _ _).mp h
  obtain ⟨p, -, h⟩ := (Option.any_eq_true _ _).mp h
  simp only [Bool.and_eq_true, decide_eq_true_eq] at h
  obtain ⟨⟨hl, hprio⟩, h⟩ := h
  obtain ⟨c', hc', hl'⟩ := (Option.any_eq_true _ _).mp h
  rw [decide_eq_true_eq] at hl'
  obtain ⟨d, n, hd⟩ := Dates.existe (P := fun _ _ _ => True) (E := EntreEs) hc
    fun _ _ _ _ => trivial
  exact ⟨c, d, n, c', p, q, hd, (of_execute_un hc').2, hl, hl', hprio⟩

end GenesisOS
