import GenesisOS.Refinement.Devices

/-!
# GenesisOS — the code of `processus.c` refines the transitions

One lemma for each function, in the order of `Model/Process.lean`.
-/

namespace GenesisOS

open Lib

-- ---------------------------------------------------------------------------
-- Segments of one transition
-- ---------------------------------------------------------------------------

section Segments

variable {C : Cadre} {s s' : Core} {l : Etiquette}

/-- The transitions a step within `C` may always make. -/
theorem Cadre.admet_of {l : Etiquette} (hv : l.victime = none) (ht : l.trace = true → C.trace)
    (he : ∀ a, l.efface = some a → C.efface a) (hp : ∀ p n, l.prio = some (p, n) → C.prio p n)
    (hr : ∀ p, l.reveil = some p → C.reveil p) : C.admet l := by
  refine ⟨?_, ht, he, hp, hr⟩
  intro e he
  rw [hv] at he
  cases he

theorem Cadre.admetRetour_of {l : Etiquette} (hv : l.victime = none)
    (ht : l.trace = true → C.trace) (hf : l.fort = true → C.fort)
    (he : ∀ a, l.efface = some a → C.efface a) (hp : ∀ p n, l.prio = some (p, n) → C.prio p n)
    (hr : ∀ p, l.reveil = some p → C.reveil p) :
    C.admetRetour l := ⟨Cadre.admet_of hv ht he hp hr, hf⟩

theorem Cadre.admet_muette : C.admet {} := Cadre.admet_of rfl nofun nofun nofun nofun

theorem Cadre.admet_trace (ht : C.trace) : C.admet { trace := true } :=
  Cadre.admet_of rfl (fun _ => ht) nofun nofun nofun

theorem Cadre.admetRetour_muette : C.admetRetour {} := ⟨Cadre.admet_muette, nofun⟩

theorem Cadre.admetRetour_fort {b : Bool} (hf : b = true → C.fort) :
    C.admetRetour { fort := b } := ⟨Cadre.admet_of rfl nofun nofun nofun nofun, hf⟩

theorem Cadre.admetRetour_fort_trace {b : Bool} (hf : b = true → C.fort) (ht : C.trace) :
    C.admetRetour { fort := b, trace := true } :=
  ⟨Cadre.admet_of rfl (fun _ => ht) nofun nofun nofun, hf⟩

theorem Cadre.admet_prio {b : Bool} {x : Option (Ptr × Int)}
    (hp : ∀ p n, x = some (p, n) → C.prio p n) : C.admet { fort := b, prio := x } :=
  Cadre.admet_of rfl nofun nofun hp nofun

theorem Cadre.admetRetour_prio {b : Bool} {x : Option (Ptr × Int)} (hf : b = true → C.fort)
    (hp : ∀ p n, x = some (p, n) → C.prio p n) : C.admetRetour { fort := b, prio := x } :=
  ⟨Cadre.admet_prio hp, hf⟩

theorem Cadre.admetRetour_trace (ht : C.trace) : C.admetRetour { trace := true } :=
  ⟨Cadre.admet_trace ht, nofun⟩

theorem Calme.un {L : Etiquette → Prop} (he : s.EnCours) (q : Quiet l s s') (hl : L l) :
    Calme L s s' := .single ⟨he, l, hl, q⟩

theorem Calme.puis {L : Etiquette → Prop} {s₁ : Core} (h : Calme L s s₁) (he : s₁.EnCours)
    (q : Quiet l s₁ s') (hl : L l) : Calme L s s' := h.tail ⟨he, l, hl, q⟩

theorem Calme.mono {L L' : Etiquette → Prop} (hL : ∀ l, L l → L' l) (h : Calme L s s') :
    Calme L' s s' := by
  refine Relation.ReflTransGen.mono ?_ _ _ h
  rintro a b ⟨he, l, hl, q⟩
  exact ⟨he, l, hL l hl, q⟩

theorem Segment.rien {v : Int} (he : s.EnCours) : Segment C (.retour v) s s := .retour .refl he

theorem Segment.un {v : Int} (h : Stable s) (he : s.EnCours) (q : Quiet l s s')
    (hl : C.admetRetour l) : Segment C (.retour v) s s' :=
  .retour (.un he q hl) (h.enCours_quiet he q)

end Segments

section

variable {C : Cadre} {s : Kernel}

-- ---------------------------------------------------------------------------
-- Identifiers
-- ---------------------------------------------------------------------------

theorem wp_newPid {Q : Int → Kernel → Prop} (hnil : s.pidLibreTete = [] → Q (-1) s)
    (hcons : ∀ cell reste s', s.pidLibreTete = cell :: reste →
      s'.toCore = { s.toCore with pidLibreTete := reste } → Q cell.pid s') :
    wp C.tolere newPid Q s := by
  simp only [newPid, wp_bind, wp_get]
  cases hl : s.pidLibreTete with
  | nil => exact hnil hl
  | cons cell reste =>
    simp only [wp_bind]
    refine wp_surCore ?_
    intro s₁ h₁
    refine wp_memFree ?_
    intro s₂ h₂
    exact hcons cell reste s₂ hl (by rw [h₂, h₁])

theorem wp_addPid {R : Unit → Kernel → Prop} {pid : Int}
    (h : ∀ s', s'.toCore = { s.toCore with
      pidLibreTete := ⟨s.prochain, pid⟩ :: s.pidLibreTete, prochain := s.prochain + 1 } →
        R () s') : wp C.tolere (addPid pid) R s := by
  simp only [addPid, wp_bind]
  refine wp_memAllocNonNul ?_ rfl
  intro s₁ h₁
  refine wp_surCore ?_
  intro s₂ h₂
  refine h s₂ ?_
  rw [h₂, h₁]
  rfl

theorem wp_allocProcessus {Q : Option Ptr → Kernel → Prop}
    (hnone : ∀ s', s'.toCore = s.toCore.alloue (s.prochain + 1) → Q none s')
    (hsome : ∀ s', s'.toCore = { s.toCore with
      prochain := s.prochain + 1
      tas := Function.update s.tas s.prochain {}
      vivant := Function.update s.vivant s.prochain true } → Q (some s.prochain) s') :
    wp C.tolere allocProcessus Q s := by
  simp only [allocProcessus, wp_bind]
  refine wp_memAlloc ?_
  intro r s₁ hr h₁
  cases r with
  | none => exact hnone s₁ h₁
  | some p =>
    obtain rfl := hr p rfl
    simp only [wp_bind]
    refine wp_surCore ?_
    intro s₂ h₂
    refine hsome s₂ ?_
    rw [h₂, h₁]
    rfl

theorem wp_libereProcessus {R : Unit → Kernel → Prop} {l : Lieu} {p : Ptr}
    (h : ∀ s', s'.toCore = { s.toCore with vivant := Function.update s.vivant p false } →
      R () s') : wp C.tolere (libereProcessus l p) R s := by
  simp only [libereProcessus, wp_bind]
  refine wp_memFree ?_
  intro s₁ h₁
  refine wp_surCore ?_
  intro s₂ h₂
  exact h s₂ (by rw [h₂, h₁])

-- ---------------------------------------------------------------------------
-- Creation
-- ---------------------------------------------------------------------------

/-- Giving back the identifier just taken, whatever was allocated since. -/
theorem rendPid_segment {s₀ : Core} {s₁ : Kernel} {cell : PidLibre} {reste : List PidLibre} {v : Int}
    (h : Stable s₀) (he : s₀.EnCours) (hl : s₀.pidLibreTete = cell :: reste)
    (hn : s₀.prochain ≤ s₁.prochain)
    (htas : ∀ p, p < s₀.prochain → s₁.tas p = s₀.tas p)
    (hcore : s₁.toCore = { s₀ with
      tas := s₁.tas, pidLibreTete := reste, prochain := s₁.prochain }) :
    wp C.tolere (addPid cell.pid >>= fun _ => pure (.retour v))
      (fun r s' => Segment C r s₀ s'.toCore) s₁ := by
  rw [wp_bind]
  refine wp_addPid ?_
  intro s₂ h₂
  rw [wp_pure, h₂, hcore]
  exact .un h he (Quiet.rendPid (a := s₁.prochain) (n := s₁.prochain + 1) hl
    (Nat.le_succ_of_le hn) htas) Cadre.admetRetour_muette

theorem wp_addFils {R : Unit → Kernel → Prop} {pere fils : Ptr} (hv : s.vivant pere = true)
    (h : ∀ s', s'.toCore = (s.toCore.alloue (s.prochain + 1)).maj pere
      (fun r => { r with filsTete := ⟨s.prochain, fils⟩ :: r.filsTete }) → R () s') :
    wp C.tolere (addFils pere fils) R s := by
  simp only [addFils, wp_bind]
  refine wp_memAllocNonNul ?_ rfl
  intro s₁ h₁
  refine wp_ecrire ?_ ?_
  · rw [h₁]
    exact hv
  · intro s₂ h₂
    exact h s₂ (by rw [h₂, h₁])

/-- The state in which `start` has allocated the structure `p`. -/
def Core.reserve (s : Core) (p n : Nat) (reste : List PidLibre) : Core :=
  { s with
    pidLibreTete := reste
    prochain := n
    tas := Function.update s.tas p {}
    vivant := Function.update s.vivant p true }

/-- The record `start` builds. -/
def recordStart (pid : Int) (taille : Nat) (prio : Int) (nom : List UInt8) (pileUser : Nat)
    (pileKernel : Ptr) : Processus :=
  { nom := nom, pid := pid, etat := .activable, prio := prio, pileUser := pileUser
    pileKernel := pileKernel, pileSizeUser := taille, pileSizeKernel := KERNEL_STACK_SIZE * 4 }

theorem startProc_raffine {s₀ : Core} {s₁ : Kernel} {cell : PidLibre} {reste : List PidLibre}
    {n : Nat} {taille : Nat} {prio : Int} {name : Nom} {arg : BitVec 32} {pileUser : Nat}
    {pileKernel : Ptr} (h : Stable s₀) (he : s₀.EnCours) (hl : s₀.pidLibreTete = cell :: reste)
    (hprio : 0 < prio) (hn : s₀.prochain < n)
    (hcore : s₁.toCore = s₀.reserve s₀.prochain n reste) :
    wp C.tolere (startProc cell.pid taille prio name arg s₀.prochain pileUser pileKernel)
      (fun r s' => Segment C r s₀ s'.toCore) s₁ := by
  have hc := h.coherent
  obtain ⟨hvp, hlp⟩ := hc.nouveau (le_refl s₀.prochain)
  have hpe : s₀.procElu ≠ s₀.prochain := by
    intro hx
    exact absurd (hc.ancien _ he.vivant) (by rw [hx]; exact lt_irrefl _)
  -- the end of `start`, once the structure and its family are written
  have fin : ∀ (nom : List UInt8) (adr m : Nat) (s₂ : Kernel), s₀.prochain < m →
      s₂.toCore.ajoute .procActivables s₀.prochain (·.prio) = s₀.cree s₀.prochain
        (recordStart cell.pid taille prio nom pileUser pileKernel) reste adr m →
      s₂.lien s₀.prochain = none →
      wp C.tolere (do
          queueAdd s₀.prochain .procActivables (·.prio)
          let elu ← lire .start s₀.procElu
          if prio > elu.prio then pure (.ordonnanceur (.retour cell.pid))
          else pure (.retour cell.pid))
        (fun r s' => Segment C r s₀ s'.toCore) s₂ := by
    intro nom adr m s₂ hm hs₂ hl₂
    have C' := hc.cree_spec he (recordStart cell.pid taille prio nom pileUser pileKernel) reste adr m
      le_rfl
    have q : Quiet { fort := prio > (s₀.tas s₀.procElu).prio } s₀ (s₀.cree s₀.prochain
        (recordStart cell.pid taille prio nom pileUser pileKernel) reste adr m) :=
      Quiet.cree (r := recordStart cell.pid taille prio nom pileUser pileKernel)
        hl le_rfl hm rfl rfl rfl rfl hprio rfl rfl
    rw [wp_bind]
    refine wp_queueAdd hl₂ ?_
    intro s₃ h₃
    rw [hs₂] at h₃
    rw [wp_bind]
    refine wp_lire ?_ ?_
    · rw [h₃, C'.vivant, if_neg hpe]
      exact he.vivant
    · have hp : (s₃.tas s₀.procElu).prio = (s₀.tas s₀.procElu).prio := by
        rw [h₃]
        exact (C'.champs _ hpe).2.1
      rw [hp]
      split
      · next hgt =>
        rw [wp_pure, h₃]
        exact .ordonnanceur (.un he q Cadre.admet_muette) (h.enCours_quiet he q) (.suspend rfl)
          (fun hx => absurd rfl hx)
      · next hle =>
        rw [wp_pure, h₃]
        refine .un h he q (Cadre.admetRetour_fort ?_)
        intro hf
        exact absurd (by simpa using hf) hle
  simp only [startProc, wp_bind]
  refine inerte_copie name C _ s₁ ?_
  intro nom s₂ h₂
  refine wp_ecrire ?_ ?_
  · rw [h₂, hcore]
    simp [Core.reserve]
  intro s₃ h₃
  simp only [wp_modify]
  refine wp_ecrire ?_ ?_
  · show s₃.vivant _ = true
    rw [h₃, h₂, hcore]
    simp [Core.reserve]
  intro s₄ h₄
  refine wp_surCore ?_
  intro s₅ h₅
  have helu : s₅.procElu = s₀.procElu := by
    simp [h₅, h₄, h₃, h₂, hcore, Core.reserve]
  have hidle : s₅.procIdle = s₀.procIdle := by
    simp [h₅, h₄, h₃, h₂, hcore, Core.reserve]
  have hvivant : ∀ x, s₅.vivant x = if x = s₀.prochain then true else s₀.vivant x := by
    intro x
    simp [h₅, h₄, h₃, h₂, hcore, Core.reserve, Function.update_apply]
  have hlien : s₅.lien s₀.prochain = none := by
    simp only [h₅, h₄, h₃, h₂, hcore]
    exact hlp
  rw [wp_get, helu, hidle]
  by_cases hi : s₀.procElu = s₀.procIdle
  · simp only [hi, ne_eq, not_true_eq_false, if_false, wp_bind]
    refine wp_ecrire ?_ ?_
    · rw [hvivant, if_pos rfl]
    intro s₆ h₆
    refine wp_note ?_
    intro s₇ h₇
    have hcree : s₇.toCore.ajoute .procActivables s₀.prochain (·.prio) = s₀.cree s₀.prochain
        (recordStart cell.pid taille prio nom pileUser pileKernel) reste 0 n := by
      rw [h₇, h₆, h₅, h₄, h₃, h₂, hcore]
      unfold Core.cree
      congr 1
      refine Core.ext ?_ rfl rfl rfl rfl rfl rfl rfl rfl rfl rfl rfl ?_
      · funext x
        by_cases hx : x = s₀.prochain <;>
          simp [Core.reserve, Core.note, hx, hi, recordStart]
      · simp [Core.reserve, Core.note, hi, recordStart]
    have hfin := fin nom 0 n s₇ hn hcree (by rw [h₇, h₆]; exact hlien)
    simpa only [wp_bind, hi] using hfin
  · simp only [ne_eq, hi, not_false_eq_true, if_true, wp_bind]
    refine wp_ecrire ?_ ?_
    · rw [hvivant, if_pos rfl]
    intro s₆ h₆
    refine wp_addFils ?_ ?_
    · rw [h₆]
      show s₅.vivant _ = true
      rw [hvivant, if_neg hpe]
      exact he.vivant
    intro s₇ h₇
    refine wp_note ?_
    intro s₈ h₈
    have hm : s₆.prochain = n := by
      simp [h₆, h₅, h₄, h₃, h₂, hcore, Core.reserve]
    have hcree : s₈.toCore.ajoute .procActivables s₀.prochain (·.prio) = s₀.cree s₀.prochain
        (recordStart cell.pid taille prio nom pileUser pileKernel) reste n (n + 1) := by
      rw [h₈, h₇, hm, h₆, h₅, h₄, h₃, h₂, hcore]
      unfold Core.cree
      congr 1
      refine Core.ext ?_ rfl rfl rfl rfl rfl rfl rfl rfl rfl rfl rfl ?_
      · funext x
        by_cases hx : x = s₀.prochain
        · simp [Core.reserve, Core.note, Core.alloue, hx, hi, recordStart, hpe.symm]
        · by_cases hx' : x = s₀.procElu <;>
            simp [Core.reserve, Core.note, Core.alloue, hx, hx', hi, hpe]
      · simp [Core.reserve, Core.note, Core.alloue, hi, recordStart]
    have hfin := fin nom n (n + 1) s₈ (Nat.lt_succ_of_lt hn) hcree
      (by rw [h₈, h₇, h₆]; exact hlien)
    simpa only [wp_bind] using hfin

theorem start_raffine (h : Stable s.toCore) (he : s.toCore.EnCours) (ssize : Nat) (prio : Int)
    (name : Nom) (arg : BitVec 32) : Raffine C (start ssize prio name arg) s := by
  have hc := h.coherent
  unfold Raffine
  simp only [start, wp_bind]
  refine wp_newPid ?_ ?_
  · intro _
    exact .rien he
  intro cell reste s₁ hl h₁
  have hpid : ¬ cell.pid ≤ -1 := by
    have := (hc.pidLibre cell (by rw [hl]; simp)).1
    omega
  rw [if_neg hpid]
  split
  · refine rendPid_segment h he hl ?_ ?_ ?_
    · rw [h₁]
    · intro p _
      rw [h₁]
    · rw [h₁]
  next hprio =>
  split
  · refine rendPid_segment h he hl ?_ ?_ ?_
    · rw [h₁]
    · intro p _
      rw [h₁]
    · rw [h₁]
  have hv₁ : s₁.vivant s.prochain = false := by
    rw [h₁]
    exact (hc.nouveau (le_refl s.prochain)).1
  have hp₁ : s₁.prochain = s.prochain := by rw [h₁]
  rw [wp_bind]
  refine wp_allocProcessus ?_ ?_
  · intro s₂ h₂
    refine rendPid_segment h he hl ?_ ?_ ?_
    · simp [h₂, h₁, Core.alloue]
    · intro p _
      simp [h₂, h₁, Core.alloue]
    · simp [h₂, h₁, Core.alloue]
  intro s₂ h₂
  have hres : s₂.toCore = s.toCore.reserve s.prochain (s.prochain + 1) reste := by
    rw [h₂, h₁]
    rfl
  simp only [wp_bind, hp₁]
  refine wp_userStackAlloc ?_
  intro pileUser s₃ h₃
  -- a structure allocated in vain is freed, and the identifier given back
  have rend : ∀ (s₄ s₅ : Kernel) (n : Nat), s.prochain ≤ n →
      s₄.toCore = s.toCore.reserve s.prochain n reste →
      s₅.toCore = { s₄.toCore with
        pidLibreTete := ⟨n, cell.pid⟩ :: reste, prochain := n + 1 } →
      wp C.tolere (libereProcessus .start s.prochain >>= fun _ => pure (.retour (-1)))
        (fun r s' => Segment C r s.toCore s'.toCore) s₅ := by
    intro s₄ s₅ n hn h₄ h₅
    rw [wp_bind]
    refine wp_libereProcessus ?_
    intro s₆ h₆
    have hvide : Function.update s₅.vivant s.prochain false = s.vivant := by
      funext x
      rw [h₅, h₄]
      by_cases hx : x = s.prochain
      · simp [hx, (hc.nouveau (le_refl s.prochain)).1]
      · simp [Core.reserve, hx]
    rw [wp_pure, h₆, hvide, h₅, h₄]
    refine .un h he (Quiet.rendPid (t := Function.update s.tas s.prochain {}) (a := n)
      (n := n + 1) hl (Nat.le_succ_of_le hn) ?_) Cadre.admetRetour_muette
    intro x hx
    rw [Function.update_of_ne (Nat.ne_of_lt hx)]
  cases pileUser with
  | none =>
    simp only [wp_bind]
    refine wp_addPid ?_
    intro s₄ h₄
    have hfin := rend s₃ s₄ (s.prochain + 1) (Nat.le_succ _) (h₃.trans hres) (by
      rw [h₄, h₃, hres]
      rfl)
    simpa only [wp_bind] using hfin
  | some pileUser =>
    simp only [wp_bind]
    refine wp_memAlloc ?_
    intro r s₄ hr h₄
    have hres₄ : s₄.toCore = s.toCore.reserve s.prochain (s.prochain + 1 + 1) reste := by
      rw [h₄, h₃, hres]
      rfl
    cases r with
    | none =>
      simp only [wp_bind]
      refine wp_addPid ?_
      intro s₅ h₅
      refine wp_userStackFree ?_
      intro s₆ h₆
      have hfin := rend s₄ s₆ (s.prochain + 1 + 1)
        (Nat.le_succ_of_le (Nat.le_succ _)) hres₄ (by
        rw [h₆, h₅, hres₄]
        rfl)
      simpa only [wp_bind] using hfin
    | some pileKernel =>
      exact startProc_raffine h he hl (by omega)
        (Nat.lt_succ_of_lt (Nat.lt_succ_self _)) hres₄

-- ---------------------------------------------------------------------------
-- Priorities
-- ---------------------------------------------------------------------------

theorem getpid_raffine (he : s.toCore.EnCours) : Raffine C getpid s := by
  unfold Raffine
  simp only [getpid, wp_bind, wp_get]
  exact wp_lire he.vivant (.rien he)

theorem getprio_raffine (h : Stable s.toCore) (he : s.toCore.EnCours) (pid : Int) :
    Raffine C (getprio pid) s := by
  unfold Raffine
  simp only [getprio]
  split
  · exact .rien he
  simp only [wp_bind, wp_get]
  cases hp : s.tableDesProcs pid with
  | none => exact .rien he
  | some p =>
    simp only [wp_bind]
    exact wp_lire (h.coherent.table pid p hp).1 (.rien he)

/-- The idle process is activable while another one runs. -/
theorem activables_non_vide (h : Stable s.toCore) (hidle : s.procElu ≠ s.procIdle) :
    s.elems .procActivables ≠ [] := by
  have hc := h.coherent
  intro hvide
  have hi : (s.tas s.procIdle).etat = .activable := by
    rcases hc.idleEtat with hi | hi
    · exact absurd (hc.eq_procElu hc.idle.1 hi).symm hidle
    · exact hi
  have hpl := hc.place _ hc.idle.1
  unfold Core.Place at hpl
  rw [hi] at hpl
  have hm : s.procIdle ∈ s.elems .procActivables := (s.chainage.mem_iff _ _).mpr hpl
  rw [hvide] at hm
  cases hm

/-- What `chprio` takes for the priority of the top activable process is a
kernel address, above every priority. -/
theorem queueTopPrio_noyau {top : Int} (h : queueTopPrio s = some top) : PRIO_MAX < top := by
  unfold queueTopPrio at h
  have hmax : PRIO_MAX < 0x100000 := by decide
  split at h
  · cases h
  · cases h
    exact lt_of_lt_of_le hmax s.materiel.activables_noyau.1
  · cases h
    exact lt_of_lt_of_le hmax (s.materiel.chainage_noyau _).1

theorem queueTopPrio_isSome (h : s.elems .procActivables ≠ []) : ∃ top, queueTopPrio s = some top := by
  unfold queueTopPrio
  have hne : (s.elems .procActivables).reverse ≠ [] := by simpa using h
  split
  · next hx => exact absurd hx hne
  · exact ⟨_, rfl⟩
  · exact ⟨_, rfl⟩

/-- What `chprio` does. -/
inductive AppelChprio (s : Core) (pid n : Int) : Suite → Core → Prop
  | refus (h : pid ≤ 0 ∨ n ≤ 0 ∨ n > PRIO_MAX ∨ ∀ p, s.tableDesProcs pid = some p →
      (s.tas p).etat = .zombie) : AppelChprio s pid n (.retour (-1)) s
  | elu (h0 : 0 < pid) (hp : s.tableDesProcs pid = some s.procElu) (hn : 0 < n)
      (hmax : n ≤ PRIO_MAX) :
      AppelChprio s pid n (.ordonnanceur (.retour (s.tas s.procElu).prio))
        (s.maj s.procElu fun r => { r with prio := n })
  | activable {p : Ptr} (h0 : 0 < pid) (hp : s.tableDesProcs pid = some p) (hn : 0 < n)
      (hmax : n ≤ PRIO_MAX) (hne : p ≠ s.procElu) (he : (s.tas p).etat = .activable) :
      AppelChprio s pid n
        (if (s.tas s.procElu).prio < n then .ordonnanceur (.retour (s.tas p).prio)
          else .retour (s.tas p).prio)
        (((s.maj p fun r => { r with prio := n }).retire p).ajoute .procActivables p (·.prio))
  | file {p : Ptr} (h0 : 0 < pid) (hp : s.tableDesProcs pid = some p) (hn : 0 < n)
      (hmax : n ≤ PRIO_MAX) (hne : p ≠ s.procElu) (he : (s.tas p).etat = .attendFile) :
      AppelChprio s pid n (.retour (s.tas p).prio)
        (((s.maj p fun r => { r with prio := n }).retire p).ajoute (.file (s.tas p).fid) p (·.prio))
  | autre {p : Ptr} (h0 : 0 < pid) (hp : s.tableDesProcs pid = some p) (hn : 0 < n)
      (hmax : n ≤ PRIO_MAX) (hne : p ≠ s.procElu) (hz : (s.tas p).etat ≠ .zombie) (he : (s.tas p).etat ≠ .activable)
      (he' : (s.tas p).etat ≠ .attendFile) :
      AppelChprio s pid n (.retour (s.tas p).prio) (s.maj p fun r => { r with prio := n })

theorem wp_chprio {Q : Suite → Kernel → Prop} (h : Stable s.toCore) (he : s.toCore.EnCours)
    (hidle : s.procElu ≠ s.procIdle) (pid newPrio : Int)
    (hQ : ∀ r s', AppelChprio s.toCore pid newPrio r s'.toCore → Q r s') :
    wp C.tolere (chprio pid newPrio) Q s := by
  have hc := h.coherent
  simp only [chprio]
  split
  · next hpid =>
    rcases hpid with hpid | hpid
    · exact hQ _ s (.refus (.inl hpid))
    · refine hQ _ s (.refus (.inr (.inr (.inr fun p hp => ?_))))
      obtain ⟨hv, rfl⟩ := hc.table pid p hp
      exact absurd (hc.pid p hv).2 (not_lt.mpr hpid)
  next hpid =>
  have h0 : 0 < pid := by omega
  split
  · next hprio => exact hQ _ s (.refus (.inr (hprio.imp id .inl)))
  next hprio =>
  have hn : 0 < newPrio := by omega
  have hmax : newPrio ≤ PRIO_MAX := by omega
  simp only [wp_bind, wp_get]
  cases hp : s.tableDesProcs pid with
  | none => exact hQ _ s (.refus (.inr (.inr (.inr fun p hx => by rw [hp] at hx; cases hx))))
  | some p =>
    obtain ⟨hv, -⟩ := hc.table pid p hp
    simp only [wp_bind]
    refine wp_lire hv ?_
    split
    · next hz =>
      refine hQ _ s (.refus (.inr (.inr (.inr fun q hq => ?_))))
      rw [hp] at hq
      cases hq
      exact hz
    next hz =>
    simp only [wp_bind]
    refine wp_ecrire hv ?_
    intro s₁ h₁
    split
    · next hpe =>
      -- on the caller itself, the comparison always asks for an election
      obtain ⟨top, htop⟩ := queueTopPrio_isSome (activables_non_vide h hidle)
      have hlt : newPrio < top := by
        have := queueTopPrio_noyau htop
        omega
      simp only [htop, hlt, if_true, wp_pure]
      subst hpe
      exact hQ _ s₁ (h₁ ▸ .elu h0 hp hn hmax)
    next hpe =>
    have hne : p ≠ s.procElu := fun hx => hpe hx.symm
    split
    · next hact =>
      have hl : s.lien p = some .procActivables := by
        have hpl := hc.place p hv
        unfold Core.Place at hpl
        rwa [hact] at hpl
      simp only [wp_bind]
      refine wp_queueDel (t := .procActivables) (by rw [h₁]; exact hl) ?_
      intro s₂ h₂
      refine wp_queueAdd (by rw [h₂]; simp [Core.lien_retire]) ?_
      intro s₃ h₃
      have hs₃ : s₃.toCore = ((s.toCore.maj p fun r => { r with prio := newPrio }).retire p).ajoute
          .procActivables p (·.prio) := by rw [h₃, h₂, h₁]
      have helu : (s₃.tas s.procElu).prio = (s.tas s.procElu).prio := by
        simp [hs₃, hpe]
      have ha := AppelChprio.activable h0 hp hn hmax hne hact
      refine wp_lire ?_ ?_
      · rw [hs₃]
        exact he.vivant
      rw [helu]
      split
      · next hlt =>
        rw [if_pos hlt] at ha
        exact hQ _ s₃ (hs₃ ▸ ha)
      · next hle =>
        rw [if_neg hle] at ha
        exact hQ _ s₃ (hs₃ ▸ ha)
    next hact =>
    split
    · next hfile =>
      have hl : s.lien p = some (.file (s.tas p).fid) := by
        have hpl := hc.place p hv
        unfold Core.Place at hpl
        rwa [hfile] at hpl
      obtain ⟨f, hf⟩ := hc.lieFile p _ hl
      obtain ⟨hf0, hfN, -⟩ := hc.file _ f hf
      simp only [wp_bind]
      refine wp_assertion ?_ ?_
      · simp [isFidValideAndExist, hf, hf0, hfN]
      refine wp_queueDel (t := .file (s.tas p).fid) (by rw [h₁]; exact hl) ?_
      intro s₂ h₂
      refine wp_queueAdd (by rw [h₂]; simp [Core.lien_retire]) ?_
      intro s₃ h₃
      have hs₃ : s₃.toCore = ((s.toCore.maj p fun r => { r with prio := newPrio }).retire p).ajoute
          (.file (s.tas p).fid) p (·.prio) := by rw [h₃, h₂, h₁]
      exact hQ _ s₃ (hs₃ ▸ .file h0 hp hn hmax hne hfile)
    · next hfile => exact hQ _ s₁ (h₁ ▸ .autre h0 hp hn hmax hne hz hact hfile)

/-- The label names the process and its new priority. -/
theorem AppelChprio.segment {s s' : Core} {pid n : Int} {r : Suite} (h : Stable s) (he : s.EnCours)
    (hidle : s.procElu ≠ s.procIdle)
    (hC : ∀ p, s.tableDesProcs pid = some p → C.prio p n) (ha : AppelChprio s pid n r s') :
    Segment C r s s' := by
  have hc := h.coherent
  have hC' : ∀ {p : Ptr}, s.tableDesProcs pid = some p →
      ∀ q m, (some (p, n) : Option (Ptr × Int)) = some (q, m) → C.prio q m := by
    intro p hp q m hx
    cases hx
    exact hC p hp
  have hpos : ∀ {p : Ptr}, s.tableDesProcs pid = some p → 0 < pid →
      s.vivant p = true ∧ 0 < (s.tas p).pid := by
    intro p hp h0
    obtain ⟨hv, hpp⟩ := hc.table pid p hp
    exact ⟨hv, hpp ▸ h0⟩
  cases ha with
  | refus _ => exact .rien he
  | elu h0 hp hn hmax =>
    have q : Quiet _ s (s.maj s.procElu fun r => { r with prio := n }) := .chprioElu hn hidle
    exact .ordonnanceur (.un he q (Cadre.admet_prio (hC' hp)))
      (h.enCours_quiet he q) (.suspend rfl) (fun hx => absurd rfl hx)
  | @activable p h0 hp hn hmax hne hact =>
    obtain ⟨hv, hpos⟩ := hpos hp h0
    have q : Quiet _ s (((s.maj p fun r => { r with prio := n }).retire p).ajoute
        .procActivables p (·.prio)) := .chprioActivable hn hv hpos hne hact
    split
    · exact .ordonnanceur (.un he q (Cadre.admet_prio (hC' hp)))
        (h.enCours_quiet he q) (.suspend rfl) (fun hx => absurd rfl hx)
    · next hle =>
      refine .un h he q (Cadre.admetRetour_prio ?_ (hC' hp))
      intro hf
      exact absurd (by simpa using hf) hle
  | file h0 hp hn hmax hne hfile =>
    obtain ⟨hv, hpos⟩ := hpos hp h0
    exact .un h he (.chprioFile hn hv hpos hne hfile)
      (Cadre.admetRetour_prio (by simp) (hC' hp))
  | autre h0 hp hn hmax hne hz hact hfile =>
    obtain ⟨hv, hpos⟩ := hpos hp h0
    exact .un h he (.chprioAutre hn hv hpos hne hact hfile)
      (Cadre.admetRetour_prio (by simp) (hC' hp))

theorem chprio_raffine (h : Stable s.toCore) (he : s.toCore.EnCours) (hidle : s.procElu ≠ s.procIdle)
    (pid newPrio : Int) (hC : ∀ p, s.tableDesProcs pid = some p → C.prio p newPrio) :
    Raffine C (chprio pid newPrio) s :=
  wp_chprio h he hidle _ _ fun _ _ ha => ha.segment h he hidle hC

end

end GenesisOS
