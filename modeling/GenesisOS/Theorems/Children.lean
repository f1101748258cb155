import GenesisOS.Theorems.Calls
import GenesisOS.Theorems.Files
import GenesisOS.Theorems.Lifecycle
import GenesisOS.Theorems.Tables

/-!
# GenesisOS — what `waitpid` delivers

A call of `waitpid` may be suspended several times, with the address of a child
in its return point, before the step that ends it. Whatever happens meanwhile,
it then delivers the value that a terminated child of the caller has left; the
child is freed at once and delivered to nobody else (`waitpid_delivre`).
-/

namespace GenesisOS

open Lib

/-- The process `p` is a child of `f`. -/
def Core.Enfant (s : Core) (f p : Ptr) : Prop := s.vivant p = true ∧ (s.tas p).pere = some f

theorem Stable.mem_fils {s : Core} {f p : Ptr} (h : Stable s) (hf : s.vivant f = true) :
    p ∈ s.fils f ↔ s.Enfant f p := by
  constructor
  · intro hp
    obtain ⟨hv, hpere, -⟩ := h.coherent.fils f p hf hp
    exact ⟨hv, hpere⟩
  · rintro ⟨hv, hpere⟩
    refine (h.coherent.pere p f hv ?_ hpere).2
    intro hm
    rw [h.orphelins p hv hm] at hpere
    cases hpere

theorem Stable.refusWaitpid_iff {s : Core} {pid : Int} (h : Stable s) (he : s.EnCours) :
    s.RefusWaitpid pid ↔ MAX_PROCESS ≤ pid ∨
      (0 ≤ pid ∧ ∀ p, s.Enfant s.procElu p → (s.tas p).pid ≠ pid) ∨
        (pid < 0 ∧ ∀ p, ¬ s.Enfant s.procElu p) := by
  have hm : ∀ p, p ∈ s.fils s.procElu ↔ s.Enfant s.procElu p := fun p => h.mem_fils he.vivant
  unfold Core.RefusWaitpid
  rw [List.eq_nil_iff_forall_not_mem]
  simp only [hm]

-- ---------------------------------------------------------------------------
-- The store of the value
-- ---------------------------------------------------------------------------

/-- The last event is a store at `adr`, and the memory holds what it stored. -/
def Depose (adr : Nat) (s : Kernel) : Prop :=
  ∃ j p w, s.journal = j ++ [.ecriture p adr w] ∧ motA s.memoire adr = w

theorem wp_depose {c : Ptr} {retvalp : Nat} {s : Kernel} (h0 : retvalp ≠ 0) :
    wp (fun _ => True) (waitpidFin c retvalp) (fun _ s' => Depose retvalp s') s := by
  have tout : ∀ {α : Type} {m : M α} {s : Kernel} {Q : α → Kernel → Prop}, (∀ a s', Q a s') →
      wp (fun _ => True) m Q s :=
    fun hQ => wp_of (fun a s' _ => hQ a s') fun _ _ => trivial
  simp only [waitpidFin, wp_bind, wp_get]
  refine tout fun elu s₁ => ?_
  split
  · trivial
  simp only [wp_bind]
  refine tout fun _ _ => tout fun r _ => tout fun _ _ => tout fun _ _ => tout fun _ _ =>
    tout fun _ s₂ => ?_
  simp only [ne_eq, h0, not_false_eq_true, if_true, wp_bind, ecrireMot]
  split
  · exact ⟨s₂.journal, s₂.procElu, _, rfl, motA_poserMot ..⟩
  · trivial

/-- In the loops too, the call ends with the store. -/
theorem wp_depose_boucle {pid : Int} {c : Ptr} {retvalp : Nat} {s : Kernel} (h0 : retvalp ≠ 0) :
    wp (fun _ => True) (waitpidBoucle pid c retvalp)
      (fun x s' => ∀ v, x = .retour v → Depose retvalp s') s := by
  simp only [waitpidBoucle, wp_bind]
  refine wp_of (fun r s₁ _ => ?_) fun _ _ => trivial
  split
  · simp only [wp_bind, wp_get]
    exact wp_of (fun _ _ _ _ hx => by cases hx) fun _ _ => trivial
  · exact wp_imp (wp_depose h0) fun _ _ hd _ _ => hd

theorem wp_depose_filsBoucle {pid : Int} {retvalp : Nat} {s : Kernel} (h0 : retvalp ≠ 0) :
    wp (fun _ => True) (waitpidFilsBoucle pid retvalp)
      (fun x s' => ∀ v, x = .retour v → Depose retvalp s') s := by
  simp only [waitpidFilsBoucle, wp_bind, wp_get]
  refine wp_of (fun elu s₁ _ => ?_) fun _ _ => trivial
  refine wp_of (fun z s₂ _ => ?_) fun _ _ => trivial
  cases z with
  | some p => exact wp_imp (wp_depose h0) fun _ _ hd _ _ => hd
  | none =>
    simp only [wp_bind]
    exact wp_of (fun _ _ _ _ hx => by cases hx) fun _ _ => trivial

theorem wp_depose_waitpid {pid : Int} {retvalp : Nat} {s : Kernel} (h0 : retvalp ≠ 0) :
    wp (fun _ => True) (waitpid pid retvalp)
      (fun x s' => ∀ v, x = .retour v → v = -1 ∨ Depose retvalp s') s := by
  have refus : ∀ {s' : Kernel}, ∀ v, Suite.retour (-1) = .retour v → v = -1 ∨ Depose retvalp s' := by
    intro s' v hv
    cases hv
    exact .inl rfl
  simp only [waitpid, wp_bind, wp_get]
  refine wp_of (fun _ s₁ _ => ?_) fun _ _ => trivial
  split
  · exact refus
  split
  · split
    · exact refus
    · simp only [wp_bind]
      refine wp_of (fun r s₂ _ => ?_) fun _ _ => trivial
      split
      · exact refus
      · exact wp_imp (wp_depose_boucle h0) fun _ _ hd v hv => .inr (hd v hv)
  · simp only [wp_bind]
    refine wp_of (fun elu s₂ _ => ?_) fun _ _ => trivial
    split
    · exact refus
    · exact wp_imp (wp_depose_filsBoucle h0) fun _ _ hd v hv => .inr (hd v hv)

-- ---------------------------------------------------------------------------
-- The child that is delivered
-- ---------------------------------------------------------------------------

/-- The elected process is at the beginning of the loops of `waitpid(pid, retvalp)`. -/
structure Core.Attente (pid : Int) (retvalp : Nat) (s : Core) : Prop where
  stable : Stable s
  enCours : s.EnCours
  registre : s.Registre
  appel : appelEnCours s.procElu s.journal = [.attente s.procElu pid retvalp]

/-- The identifier `v`, asked for as `pid`, is free: it was that of `p`, which `f`
started and which has left the value `w`. -/
structure Core.Delivre (f : Ptr) (pid v : Int) (p : Ptr) (w : Int) (s : Core) : Prop where
  naissance : .cree (some f) p v ∈ s.journal
  mort : Trepas p w s.journal
  choix : 0 ≤ pid → v = pid
  positif : 0 ≤ v
  libre : s.tableDesProcs v = none

theorem Trepas.de_actes {s : Core} {p : Ptr} {w : Int} : Trepas p w s.actes ↔ Trepas p w s.journal := by
  unfold Trepas
  simp only [Core.mem_actes (s := s) (e := .tue p) rfl]
  have hx : ∀ w, .exit p w ∈ s.actes ↔ .exit p w ∈ s.journal := fun w => Core.mem_actes rfl
  simp only [hx]

/-- Events that are no death. -/
theorem Trepas.suite {p : Ptr} {w : Int} {j k : List Evenement} (h : Trepas p w j)
    (ht : .tue p ∉ k) (hx : ∀ v, .exit p v ∉ k) : Trepas p w (j ++ k) := by
  rcases h with ⟨hj, hjt, hju⟩ | ⟨hj, hjx, hw⟩
  · refine .inl ⟨List.mem_append_left _ hj, ?_, fun v hm => ?_⟩
    · simp [hjt, ht]
    · rcases List.mem_append.mp hm with hm | hm
      · exact hju v hm
      · exact absurd hm (hx v)
  · refine .inr ⟨List.mem_append_left _ hj, fun v => ?_, hw⟩
    simp [hjx v, hx v]

/-- The end of `waitpid`. -/
theorem FinWaitpid.delivre {s s' : Core} {pid v : Int} {retvalp : Nat} {c : Ptr}
    (h : s.Attente pid retvalp) (hc : c ∈ s.fils s.procElu) (hz : (s.tas c).etat = .zombie)
    (hpid : 0 ≤ pid → (s.tas c).pid = pid) (hf : FinWaitpid s c retvalp (.retour v) s') :
    s'.Delivre s.procElu pid v c (s.tas c).retval ∧
      ∃ j, s'.journal = j ++ stocke s.procElu retvalp (BitVec.ofInt 32 (s.tas c).retval) := by
  have hco := h.stable.coherent
  have he := h.enCours
  obtain @⟨l, s₂, hl, hlib, hvide⟩ := hf
  obtain ⟨hv, hpere, -⟩ := hco.fils _ c he.vivant hc
  have hr := hco.recolte he hc hz hl
  have R := hco.recolte_spec he hc hz hl
  have hco₂ := hr.liberation hlib
  have helu : s₂.procElu = s.procElu := (Stable.elu_liberation hr hlib).1
  have m := MemeRegistre.liberation hr hlib
  -- `c` was put in `proc_mourants`, which has been emptied
  have hmort : s₂.vivant c = false := by
    cases hx : s₂.vivant c with
    | false => rfl
    | true =>
      have het : (s₂.tas c).etat = .mourant :=
        (m.champs c hx).2.2.2.2 (by rw [R.etat, if_pos rfl])
      have hpl := hco₂.place c hx
      rw [Core.Place, het, helu] at hpl
      rcases hpl with hpl | ⟨hce, -⟩
      · have hm : c ∈ s₂.elems .procMourants := (s₂.chainage.mem_iff c _).mpr hpl
        rw [hvide] at hm
        cases hm
      · exact absurd hce (Coherent.ne_procElu_of_zombie he hz)
  obtain ⟨k, hk, hke⟩ := Ajoute.liberation hr hlib
  have hj : s₂.journal = s.journal ++ .recolte s.procElu c :: k := by
    rw [hk]
    exact List.append_assoc s.journal [_] k
  have hjs : (s₂.ecrit retvalp (BitVec.ofInt 32 (s.tas c).retval)).journal =
      s₂.journal ++ stocke s.procElu retvalp (BitVec.ofInt 32 (s.tas c).retval) := by
    rw [← helu]
    rfl
  have hstocke : ∀ e ∈ stocke s.procElu retvalp (BitVec.ofInt 32 (s.tas c).retval),
      ∃ adr u, e = .ecriture s.procElu adr u := fun e he => mem_stocke he
  refine ⟨⟨?_, ?_, hpid, (hco.pid c hv).1, ?_⟩, s₂.journal, hjs⟩
  · rw [hjs, hj, List.append_assoc]
    refine List.mem_append_left _ ((Core.mem_actes rfl).mp ?_)
    rcases h.registre.naissance c hv with ⟨-, hn⟩ | ⟨f, hf, hfp, -⟩
    · rw [hpere] at hn
      cases hn
    · rcases hfp with hn | hfp
      · rw [hpere] at hn
        cases hn
      · rwa [← hfp, hpere] at hf
  · have hd := Trepas.de_actes.mp (h.registre.mort c hv (by rw [hz]; rfl))
    have hmuet : ∀ e ∈ .recolte s.procElu c :: k ++ stocke s.procElu retvalp
        (BitVec.ofInt 32 (s.tas c).retval), e ≠ .tue c ∧ ∀ u, e ≠ .exit c u := by
      intro e hx
      rcases List.mem_append.mp hx with hx | hx
      · rcases List.mem_cons.mp hx with rfl | hx
        · exact ⟨by simp, by simp⟩
        · obtain ⟨q, rfl⟩ := hke e hx
          exact ⟨by simp, by simp⟩
      · obtain ⟨adr, u, rfl⟩ := hstocke e hx
        exact ⟨by simp, by simp⟩
    rw [hjs, hj, List.append_assoc]
    exact hd.suite (fun hx => (hmuet _ hx).1 rfl) fun u hx => (hmuet _ hx).2 u rfl
  · show s₂.tableDesProcs (s.tas c).pid = none
    cases hq : s₂.tableDesProcs (s.tas c).pid with
    | none => rfl
    | some q =>
      -- another process would have had the identifier of `c` when `c` was live
      obtain ⟨hqv, hqp⟩ := hco₂.table _ q hq
      have hins := hr.inscrit q (m.vivant q hqv)
      rw [← (m.champs q hqv).1, hqp, ← (R.champs c).1, hr.inscrit c hv] at hins
      rw [← Option.some.inj hins, hmort] at hqv
      cases hqv

/-- The step starts or resumes the call `waitpid(pid, retvalp)` of the elected
process. -/
def EnWaitpid (c : Config) (e : Signal) (pid : Int) (retvalp : Nat) : Prop :=
  (∃ r, e.Appelle .waitpid r ∧ isUserSpace r.ecx = true ∧ r.ebx.toInt = pid ∧
    r.ecx.toNat = retvalp) ∨
  e = .suite ∧ ((∃ p, (c.s.tas c.s.procElu).contexte = .waitpid pid p retvalp) ∨
    (c.s.tas c.s.procElu).contexte = .waitpidFils pid retvalp)

theorem Core.Registre.attente {s : Core} {pid : Int} {retvalp : Nat} (h : s.Registre) :
    (s.note (.attente s.procElu pid retvalp)).Registre := h.congr (MemeRegistre.refl.note rfl)

/-- The loops of `waitpid`, from a step that starts or resumes the call. -/
theorem EnWaitpid.boucle {c : Config} {e : Signal} {pid : Int} {retvalp : Nat} (h : Accessible c)
    (hp : possible c e = true) (hw : EnWaitpid c e pid retvalp) :
    wp (cadre c e).tolere (segment c e) (fun x s' =>
      (e ≠ .suite ∧ c.s.toCore.RefusWaitpid pid ∧ x = .retour (-1) ∧ s'.procElu = c.s.procElu) ∨
      ((e ≠ .suite → ¬ c.s.toCore.RefusWaitpid pid) ∧ ∃ t : Core, t.Attente pid retvalp ∧
        t.procElu = c.s.procElu ∧ BoucleWaitpid t pid retvalp x s'.toCore)) c.s := by
  have hc := h.valide
  rcases hw with ⟨r, ⟨rfl, hsv⟩, hus, rfl, rfl⟩ | ⟨rfl, hk⟩
  · simp only [possible, decide_eq_true_eq] at hp
    have he := hc.utilisateur hp.1
    rw [segment, if_pos hp, traitantIT49Switch, hsv]
    simp only [hus, Bool.not_true, Bool.false_eq_true, if_false]
    refine wp_waitpid hc.stable he _ _ fun x s' ha => ?_
    generalize hs' : s'.toCore = t at ha
    cases ha with
    | refus hr =>
      exact .inl ⟨by simp, hr, rfl, rfl⟩
    | boucle hr hb =>
      have q : Quiet { trace := true } c.s.toCore
          (c.s.toCore.note (.attente c.s.procElu r.ebx.toInt r.ecx.toNat)) := .attente _ _
      refine .inr ⟨fun _ => hr, _, ⟨hc.stable.quiet he q, hc.stable.enCours_quiet he q,
        h.registre.attente, ?_⟩, rfl, hb⟩
      show appelEnCours c.s.procElu (c.s.journal ++ [_]) = _
      rw [appelEnCours_concat rfl rfl, h.suivi.utilisateur hc hp.1]
      rfl
  · have hn : c.mode = .noyau := by simpa [possible] using hp
    obtain ⟨hst, he⟩ := hc.entree
    rw [Config.entree_noyau hn] at hst he
    have hm : (c.s.tas c.s.procElu).etat.mort = false := by rw [hc.elu.etat]; rfl
    have hmort : ¬ c.s.toCore.Mort c.s.procElu := by
      rw [Core.mort_iff, hm]
      simp
    have hsus := hc.stable.coherent.suspendu _ hc.elu.vivant
    have hfils : Core.fils (c.s.toCore.empile .iret) c.s.procElu = c.s.toCore.fils c.s.procElu := by
      simp [Core.fils, Core.empile]
    -- the events of the call that the return point continues
    have happel : appelEnCours c.s.procElu c.s.journal = [.attente c.s.procElu pid retvalp] := by
      have hS := h.suivi.elu hc.elu.vivant hm
      generalize appelEnCours c.s.procElu c.s.journal = l at hS
      rcases hk with ⟨p, hk⟩ | hk
      · rw [hk] at hS
        cases hS with
        | libre hx => cases hx
        | waitpid => rfl
      · rw [hk] at hS
        cases hS with
        | libre hx => cases hx
        | waitpidFils => rfl
    have hat : (c.s.toCore.empile .iret).Attente pid retvalp := ⟨hst, he, h.registre.empile, happel⟩
    rw [segment, wp_bind]
    refine wp_lire hc.elu.vivant ?_
    simp only [ecrire, wp_bind, wp_get, hc.elu.vivant, if_true]
    rcases hk with ⟨p, hk⟩ | hk
    · rw [hk]
      obtain ⟨h0, hf, hpp⟩ := hsus.waitpid hmort pid p retvalp hk
      refine wp_waitpidBoucle hst he ?_ ?_ h0 fun x s' hb =>
        .inr ⟨fun hx => absurd rfl hx, _, hat, rfl, hb⟩
      · rw [← hfils] at hf
        exact hf
      · show ((c.s.toCore.empile .iret).tas p).pid = pid
        exact (Core.champ_maj (g := Processus.pid) (f := fun r => { r with contexte := .iret })
          (fun _ => rfl) p).trans hpp
    · rw [hk]
      obtain ⟨h0, hne⟩ := hsus.waitpidFils hmort pid retvalp hk
      refine wp_waitpidFilsBoucle hst he ?_ h0 fun x s' hb =>
        .inr ⟨fun hx => absurd rfl hx, _, hat, rfl, hb⟩
      rw [← hfils] at hne
      exact hne

theorem EnWaitpid.depose {c : Config} {e : Signal} {pid : Int} {retvalp : Nat}
    (hp : possible c e = true) (hw : EnWaitpid c e pid retvalp) (h0 : retvalp ≠ 0) :
    wp (fun _ => True) (segment c e)
      (fun x s' => ∀ v, x = .retour v → v = -1 ∨ Depose retvalp s') c.s := by
  rcases hw with ⟨r, ⟨rfl, hsv⟩, hus, rfl, rfl⟩ | ⟨rfl, hk⟩
  · simp only [possible, decide_eq_true_eq] at hp
    rw [segment, if_pos hp, traitantIT49Switch, hsv]
    simp only [hus, Bool.not_true, Bool.false_eq_true, if_false]
    exact wp_depose_waitpid h0
  · simp only [segment, lire, wp_bind, wp_get]
    split
    · rw [wp_pure]
      refine wp_of (fun _ s₂ _ => ?_) fun _ _ => trivial
      rcases hk with ⟨p, hk⟩ | hk <;> rw [hk]
      · exact wp_imp (wp_depose_boucle h0) fun _ _ hd v hv => .inr (hd v hv)
      · exact wp_imp (wp_depose_filsBoucle h0) fun _ _ hd v hv => .inr (hd v hv)
    · trivial

/-- The configuration `c`, in which the call `waitpid(pid, retvalp)` of `f` has just
returned `v`, the identifier of `p`, with the value `w`. -/
structure Livraison (f : Ptr) (pid : Int) (retvalp : Nat) (v : Int) (p : Ptr) (w : Int)
    (c : Config) : Prop where
  delivre : c.s.toCore.Delivre f pid v p w
  appel : ∃ j, c.s.journal = j ++ [.retour f v] ∧ appelEnCours f j =
    [.attente f pid retvalp, .recolte f p] ++ stocke f retvalp (BitVec.ofInt 32 w)
  memoire : retvalp ≠ 0 → motA c.s.memoire retvalp = BitVec.ofInt 32 w
  seule : ∀ l c', execute c l = some c' →
    (c'.s.journal.filterMap Evenement.recolte?).count p = 1

/-- A child is delivered once in a run. -/
theorem Accessible.seule {c : Config} {f p : Ptr} (h : Accessible c) (hr : .recolte f p ∈ c.s.journal) :
    (c.s.journal.filterMap Evenement.recolte?).count p = 1 := by
  have hu := h.registre.unique
  have hf : c.s.toCore.actes.filterMap Evenement.recolte? =
      c.s.journal.filterMap Evenement.recolte? := by
    unfold Core.actes
    rw [List.filterMap_filter]
    refine List.filterMap_congr fun e _ => ?_
    cases e <;> rfl
  rw [hf] at hu
  exact List.count_eq_one_of_mem hu (List.mem_filterMap.mpr ⟨_, hr, rfl⟩)

/-- The end of the loops of `waitpid`, when the call returns to its caller. -/
theorem Core.Attente.livraison {c c' : Config} {e : Signal} {t : Core} {pid v : Int}
    {retvalp : Nat} {s' : Kernel} (h : Accessible c) (hp : possible c e = true)
    (ht : t.Attente pid retvalp) (helu : t.procElu = c.s.procElu)
    (hb : BoucleWaitpid t pid retvalp (.retour v) s'.toCore) (hpas : pas c e = .ok c')
    (hd : retvalp ≠ 0 → v = -1 ∨ Depose retvalp s')
    (hend : termine (.retour v) s' = .ok (c'.mode, c'.s)) :
    0 ≤ v ∧ ∃ p w, Livraison c.s.procElu pid retvalp v p w c' := by
  have h' : Accessible c' := .pas h hp trivial hpas
  have hmem : c'.s.memoire = s'.memoire := by
    obtain ⟨s₁, mode₁⟩ := c'
    cases hend
    rfl
  obtain ⟨-, hs'⟩ := of_termine_retour hend
  cases hb with
  | @recolte p _ _ hcf hz hpid hf =>
    have hvp : v = (t.tas p).pid := by
      generalize s'.toCore = u at hf
      cases hf
      rfl
    have h0 : 0 ≤ v := hvp ▸ (ht.stable.coherent.pid p
      (ht.stable.coherent.fils _ p ht.enCours.vivant hcf).1).1
    obtain ⟨helu', happel⟩ := hf.appel ht.stable ht.enCours ht.appel hcf hz
    obtain ⟨hdel, j, hj⟩ := hf.delivre ht hcf hz hpid
    rw [helu] at helu' happel hdel hj
    have hjc : c'.s.journal = s'.journal ++ [.retour c.s.procElu v] := by
      rw [hs', Core.note, helu']
    have hrec : .recolte c.s.procElu p ∈ appelEnCours c.s.procElu s'.journal := by
      rw [happel]
      simp
    refine ⟨h0, p, (t.tas p).retval, ⟨?_, ?_, hdel.choix, h0, ?_⟩, ⟨_, hjc, happel⟩, ?_, ?_⟩
    · rw [hjc]
      exact List.mem_append_left _ hdel.naissance
    · rw [hjc]
      exact hdel.mort.suite (by simp) (by simp)
    · rw [hs']
      exact hdel.libre
    · intro hne
      rw [hmem]
      rcases hd hne with hv | ⟨k, q, w, hk, hw⟩
      · omega
      · rw [hj, stocke, if_neg hne] at hk
        obtain ⟨-, hk⟩ := List.append_inj' hk rfl
        cases hk
        exact hw
    · intro l c'' hl
      obtain ⟨h'', k, hk⟩ := h'.journal hl
      refine h''.seule (f := c.s.procElu) ?_
      rw [hk, hjc, List.append_assoc]
      exact List.mem_append_left _ (List.mem_of_mem_filter (mem_of_mem_since hrec))

/-- `waitpid` returns -1, without blocking, exactly when there is no such child;
otherwise what it returns, then or later, is a child that has terminated. -/
theorem waitpid_delivre {c c' : Config} {e : Signal} {pid : Int} {retvalp : Nat}
    (h : Accessible c) (hp : possible c e = true) (hw : EnWaitpid c e pid retvalp)
    (hpas : pas c e = .ok c') :
    (e ≠ .suite → ((c'.mode = .utilisateur ∧
        c'.s.journal.getLast? = some (.retour c.s.procElu (-1))) ↔
      MAX_PROCESS ≤ pid ∨
        (0 ≤ pid ∧ ∀ p, c.s.toCore.Enfant c.s.procElu p → (c.s.tas p).pid ≠ pid) ∨
          (pid < 0 ∧ ∀ p, ¬ c.s.toCore.Enfant c.s.procElu p))) ∧
    ∀ v, c'.mode = .utilisateur → c'.s.journal.getLast? = some (.retour c.s.procElu v) →
      (v = -1 ∧ e ≠ .suite) ∨ ∃ p w, Livraison c.s.procElu pid retvalp v p w c' := by
  have hc := h.valide
  obtain ⟨x, s', hs, hend⟩ := of_pas hpas
  have dernier : ∀ {u v : Int}, x = .retour u → s'.procElu = c.s.procElu →
      c'.s.journal.getLast? = some (.retour c.s.procElu v) → v = u := by
    rintro u v rfl helu hlast
    obtain ⟨-, hs'⟩ := of_termine_retour hend
    rw [hs', Core.note, helu] at hlast
    simp only [List.getLast?_concat, Option.some.injEq, Evenement.retour.injEq, true_and] at hlast
    exact hlast.symm
  have hd : ∀ v, x = .retour v → retvalp ≠ 0 → v = -1 ∨ Depose retvalp s' :=
    fun v hv h0 => wp_ok (hw.depose hp h0) hs v hv
  rcases wp_ok (hw.boucle h hp) hs with ⟨hne, hr, rfl, helu⟩ | ⟨hr, t, ht, helu, hb⟩
  · obtain ⟨hm, hs'⟩ := of_termine_retour hend
    have hu : c.s.toCore.EnCours := by
      rcases hw with ⟨r, ⟨rfl, -⟩, -⟩ | ⟨rfl, -⟩
      · simp only [possible, decide_eq_true_eq] at hp
        exact hc.utilisateur hp.1
      · exact absurd rfl hne
    refine ⟨fun _ => ⟨fun _ => (hc.stable.refusWaitpid_iff hu).mp hr, fun _ => ⟨hm, ?_⟩⟩, ?_⟩
    · rw [hs', Core.note, helu, List.getLast?_concat]
    · intro v _ hlast
      exact .inl ⟨dernier rfl helu hlast, hne⟩
  · -- the call returns from its loops, or blocks
    have rendu : c'.mode = .utilisateur → ∃ u, x = .retour u ∧ s'.procElu = c.s.procElu ∧
        0 ≤ u ∧ ∃ p w, Livraison c.s.procElu pid retvalp u p w c' := by
      intro hm
      cases x with
      | iret =>
        generalize s'.toCore = t' at hb
        cases hb with
        | recolte _ _ _ hf => cases hf
      | ordonnanceur k => exact absurd rfl ((of_termine_utilisateur (hm ▸ hend)).1 k)
      | retour u =>
        refine ⟨u, rfl, ?_, ht.livraison h hp helu hb hpas (hd u rfl) hend⟩
        cases hb with
        | recolte hcf hz hpid hf =>
          rw [← helu]
          exact (hf.appel ht.stable ht.enCours ht.appel hcf hz).1
    refine ⟨fun hne => ⟨?_, fun hx => ?_⟩, fun v hm hlast => ?_⟩
    · rintro ⟨hm, hlast⟩
      obtain ⟨u, hxu, hel, h0, -⟩ := rendu hm
      have := dernier hxu hel hlast
      omega
    · have hu : c.s.toCore.EnCours := by
        rcases hw with ⟨r, ⟨rfl, -⟩, -⟩ | ⟨rfl, -⟩
        · simp only [possible, decide_eq_true_eq] at hp
          exact hc.utilisateur hp.1
        · exact absurd rfl hne
      exact absurd ((hc.stable.refusWaitpid_iff hu).mpr hx) (hr hne)
    · obtain ⟨u, hxu, hel, -, hl⟩ := rendu hm
      rw [dernier hxu hel hlast]
      exact .inr hl

/-- The child has left 5; its father reads it. -/
theorem waitpid_delivre_exemple : ∃ c c' p w, Accessible c ∧
    pas c (appel 17 2 0x1000000 0 0) = .ok c' ∧
      Livraison c.s.procElu 2 0x1000000 2 p w c' ∧ motA c'.s.memoire 0x1000000 = 5 := by
  obtain ⟨c, hc, h⟩ := Accessible.scenario (l := filsTermine)
    (Q := fun c => match execute c [appel 17 2 0x1000000 0 0] with
      | none => false
      | some c' => c'.mode = .utilisateur &&
          c'.s.journal.getLast? = some (.retour c.s.procElu 2) &&
            motA c'.s.memoire 0x1000000 = 5) (by decide +kernel)
  split at h
  · cases h
  next c₁ hl =>
  obtain ⟨hp, c', hpas, hl'⟩ := execute_cons.mp hl
  cases hl'
  simp only [Bool.and_eq_true, decide_eq_true_eq] at h
  obtain ⟨⟨hm, hlast⟩, hw⟩ := h
  have happ : EnWaitpid c (appel 17 2 0x1000000 0 0) 2 0x1000000 :=
    .inl ⟨_, ⟨rfl, by decide⟩, by decide, by decide, by decide⟩
  rcases (waitpid_delivre hc hp happ hpas).2 2 hm hlast with ⟨hv, -⟩ | ⟨p, w, hd⟩
  · cases hv
  · exact ⟨c, _, p, w, hc, hpas, hd, hw⟩

end GenesisOS
