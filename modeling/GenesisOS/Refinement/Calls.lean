import GenesisOS.Invariants.Calls
import GenesisOS.Refinement.Boot

/-!
# GenesisOS — every call returns what it should

The end of each call agrees with the events it has recorded (`Cloture`): by
its exact description for the calls that record something, because nothing is
recorded for the others. So the journal agrees with every call in progress all
along a run (`Atteint.suivi`).
-/

namespace GenesisOS

open Lib

/-- How a piece of kernel code ends for the call of the elected process: it
returns what the events say, or suspends the call as it should. -/
def Cloture (r : Suite) (s : Core) : Prop :=
  match r with
  | .retour v => Verdict s.procElu (appelEnCours s.procElu s.journal) v
  | .iret => appelEnCours s.procElu s.journal = []
  | .ordonnanceur k => (s.tas s.procElu).etat.mort = false →
      s.Suspens s.procElu k (appelEnCours s.procElu s.journal)

section

variable {C : Cadre} {s s' : Core} {r : Suite}

-- ---------------------------------------------------------------------------
-- Ends of a step
-- ---------------------------------------------------------------------------

/-- A process that runs its own code is in no call. -/
theorem Core.EnSuspens.libre {p : Ptr} (h : s.EnSuspens p) (hv : s.vivant p = true)
    (hm : (s.tas p).etat.mort = false)
    (hc : (s.tas p).contexte = .iret ∨ (s.tas p).contexte = .debut) :
    appelEnCours p s.journal = [] := by
  have hs := h hv hm
  generalize appelEnCours p s.journal = l at hs ⊢
  rcases hc with hk | hk <;>
  · rw [hk] at hs
    cases hs
    rfl

theorem Core.EnCours.suspens (he : s.EnCours) (h0 : appelEnCours s.procElu s.journal = []) :
    s.EnSuspens s.procElu := by
  intro _ _
  rw [h0]
  refine .libre ?_
  rcases he.contexte with hk | hk <;> rw [hk] <;> rfl

/-- The elected process returns to its code. -/
theorem Core.Ailleurs.iret (h : s.Ailleurs) (he : s.EnCours) (hcl : Cloture .iret s) : s.Suivi :=
  ⟨h, he.suspens hcl⟩

theorem Core.Ailleurs.retour {v : Int} (h : s.Ailleurs) (hc : Coherent s) (he : s.EnCours)
    (hcl : Cloture (.retour v) s) : (s.note (.retour s.procElu v)).Suivi := by
  refine ⟨⟨?_, ?_, h.reponses.concat ?_⟩, ?_⟩
  · intro e hm p hp
    rcases List.mem_append.mp hm with hm | hm
    · exact h.neuf e hm p hp
    · rw [List.mem_singleton.mp hm] at hp
      rw [← Option.some.inj hp]
      exact hc.ancien _ he.vivant
  · intro p hp hv hm
    have hmuet : ∀ e ∈ [Evenement.retour s.procElu v], e.acteur ≠ some p := by
      intro e hx
      rw [List.mem_singleton.mp hx]
      exact fun hx => hp (Option.some.inj hx).symm
    have hj : appelEnCours p (s.note (.retour s.procElu v)).journal = appelEnCours p s.journal :=
      appelEnCours_muet hmuet
    rw [hj]
    exact (h.autres p hp hv hm).congr (.inl rfl) rfl rfl (fun _ ha => ha) fun _ ha => ha
  · rintro p w hx
    cases hx
    exact hcl
  · exact Core.EnCours.suspens (s := s.note _) ⟨he.vivant, he.etat, he.contexte⟩
      appelEnCours_retour

/-- The elected process calls `ordonnanceur`. -/
theorem Core.Ailleurs.ordonnanceur {k : Reprise} {s₃ : Core} (h : s.Ailleurs) (hst : Stable s)
    (hh : s.Homogene) (hs : Segment C (.ordonnanceur k) s s')
    (hcl : Cloture (.ordonnanceur k) s')
    (hl : Relation.ReflTransGen Liberation (s'.empile k) s₃) (hvide : s₃.elems .procMourants = [])
    {s'' : Core} (hel : Election s₃ s'') : s''.Suivi := by
  obtain ⟨h₂, S⟩ := hst.segment_sortie hs
  cases hs with
  | @ordonnanceur m k _ s₁ _ hq he hso hm ht =>
    obtain ⟨ha₁, hh₁⟩ := h.calme hst hh hq
    have hst₁ := hst.calme hq
    obtain ⟨-, S₁⟩ := hst₁.sortie he hso
    have helu : s'.procElu = s₁.procElu := S₁.elu
    have hsu := ha₁.sortie hst₁ he hh₁ hso (by rw [← helu]; exact hcl)
    have hh₂ := hh₁.sortie hst₁ he hso
    have h₃ : Stable s₃ := ⟨h₂.coherent.liberation hl,
      (h₂.coherent.liberation hl).orphelins_of_vide hvide⟩
    obtain ⟨-, -, hna⟩ := Stable.sorti_liberation h₂.coherent S hl
    exact (hsu.liberation h₂.coherent hh₂ hl).election h₃ hvide hna hel

-- ---------------------------------------------------------------------------
-- Calls that record nothing
-- ---------------------------------------------------------------------------

theorem Calme.elu_muet {L : Etiquette → Prop} (h : Stable s) (hL : ∀ l, L l → l.trace = false)
    (hq : Calme L s s') :
    appelEnCours s'.procElu s'.journal = appelEnCours s.procElu s.journal := by
  induction hq with
  | refl => rfl
  | @tail s₁ s₂ hrest hlast ih =>
    obtain ⟨he, l, hl, q⟩ := hlast
    have h₁ := h.calme hrest
    have m := Gagne.quiet h₁ he q
    rw [hL l hl] at m
    rw [(h₁.elu_quiet q).1, m.elu, ih]

theorem Segment.cloture (h : Stable s) (hC : ¬ C.trace)
    (h0 : appelEnCours s.procElu s.journal = []) (hs : Segment C r s s') : Cloture r s' := by
  have hadm : ∀ l, C.admet l → l.trace = false := by
    intro l hl
    cases ht : l.trace with
    | false => rfl
    | true => exact absurd (hl.2.1 ht) hC
  cases hs with
  | retour hq he =>
    rw [Cloture, hq.elu_muet h fun l hl => hadm l hl.1, h0]
    exact .autre nofun
  | iret hq he =>
    rw [Cloture, hq.elu_muet h fun l hl => hadm l hl.1, h0]
  | @ordonnanceur m k _ s₁ _ hq he hso hm ht =>
    have hk : k.trace = false := by
      cases hk : k.trace with
      | false => rfl
      | true => exact absurd (ht hk) hC
    have g := Gagne.sortie he hso
    rw [hk] at g
    have hj : appelEnCours s'.procElu s'.journal = [] := by
      have helu : s'.procElu = s₁.procElu := ((h.calme hq).sortie he hso).2.elu
      have hg : appelEnCours s₁.procElu s'.journal = appelEnCours s₁.procElu s₁.journal := g.elu
      rw [helu, hg, hq.elu_muet h hadm, h0]
    intro _
    rw [hj]
    exact .libre hk

-- ---------------------------------------------------------------------------
-- Message files
-- ---------------------------------------------------------------------------

theorem mem_stocke {p : Ptr} {adr : Nat} {w : BitVec 32} {x : Evenement} (hx : x ∈ stocke p adr w) :
    ∃ a u, x = .ecriture p a u := by
  unfold stocke at hx
  split at hx
  · cases hx
  · exact ⟨_, _, List.mem_singleton.mp hx⟩

theorem appelEnCours_ecrit {a : Nat} {w : BitVec 32} :
    appelEnCours s.procElu (s.ecrit a w).journal =
      appelEnCours s.procElu s.journal ++ stocke s.procElu a w := by
  rw [Core.ecrit_journal, stocke]
  split
  · simp
  · exact appelEnCours_concat rfl rfl

namespace Cloture

variable {p : Ptr} {l : List Evenement} {v : Int}

theorem de_retour (helu : s.procElu = p) (hj : appelEnCours p s.journal = l) (h : Verdict p l v) :
    Cloture (.retour v) s := by
  subst helu hj
  exact h

theorem de_finFile {b : Bool} (helu : s.procElu = p) (hj : appelEnCours p s.journal = l)
    (h : Verdict p l 0) : Cloture (finFile b) s := by
  subst helu hj
  cases b with
  | true => exact fun _ => .rendu h
  | false => exact h

theorem de_suspens {k : Reprise} (helu : s.procElu = p) (hj : appelEnCours p s.journal = l)
    (h : s.Suspens p k l) : Cloture (.ordonnanceur k) s := by
  subst helu hj
  exact fun _ => h

/-- The call is refused before it records anything. -/
theorem refus (h0 : appelEnCours s.procElu s.journal = []) : Cloture (.retour v) s :=
  de_retour rfl h0 (.autre nofun)

end Cloture

/-- The elected process has just blocked on the file in entry `i`. -/
theorem Core.sur_bloqueFile {i : Int} {f : File} (hl : s.lien s.procElu = none)
    (hf : s.tableauFile i = some f) :
    ((s.bloqueFile i).tas s.procElu).etat = .attendFile ∧
      ((s.bloqueFile i).tas s.procElu).fileValue = (s.tas s.procElu).fileValue ∧
      (s.bloqueFile i).Sur s.procElu f.adr := by
  refine ⟨by simp [Core.bloqueFile], by simp [Core.bloqueFile], ?_⟩
  intro j g hp hg
  have hlien : (s.bloqueFile i).lien s.procElu = some (.file i) := by
    unfold Core.bloqueFile
    rw [Core.lien_maj, Core.lien_maj, Core.lien_ajoute hl, if_pos rfl]
  rw [hlien] at hp
  cases hp
  have hg' : s.tableauFile i = some g := hg
  rw [hf] at hg'
  rw [Option.some.inj hg']

theorem AppelPsend.cloture {fid v : Int} (hc : Coherent s) (he : s.EnCours)
    (h0 : appelEnCours s.procElu s.journal = []) (ha : AppelPsend s fid v r s') :
    Cloture r s' := by
  have emet : ∀ f : File, appelEnCours s.procElu (s.journal ++ [.emission f.adr s.procElu v]) =
      [.emission f.adr s.procElu v] := by
    intro f
    rw [appelEnCours_concat rfl rfl, h0]
    rfl
  have accepte : ∀ f : File, appelEnCours s.procElu (s.journal ++ [.emission f.adr s.procElu v] ++
      [.accepte f.adr s.procElu v]) =
        [.emission f.adr s.procElu v, .accepte f.adr s.procElu v] := by
    intro f
    rw [appelEnCours_concat rfl rfl, emet]
    rfl
  cases ha with
  | refus hf => exact .refus h0
  | @remis f p hf hvide hp =>
    have hne := hc.ne_procElu he (LinkedQueues.link_of_top hp)
    have hj : appelEnCours s.procElu (s.journal ++ [.emission f.adr s.procElu v] ++
        [.accepte f.adr s.procElu v] ++ [.livre f.adr p v]) =
          [.emission f.adr s.procElu v, .accepte f.adr s.procElu v] := by
      rw [appelEnCours_muet (by simpa [Evenement.acteur] using hne), accepte]
    exact .de_finFile rfl hj .emis
  | @bloque f hf hnon hplein =>
    have hl : (s.emet f v).lien (s.emet f v).procElu = none := hc.lien_procElu he
    obtain ⟨het, hva, hsur⟩ := Core.sur_bloqueFile (i := fid) hl hf
    have hs : ((s.emet f v).bloqueFile fid).Suspens s.procElu .psend
        [.emission f.adr s.procElu (((s.emet f v).bloqueFile fid).tas s.procElu).fileValue] :=
      .emet het hsur
    have hv : (((s.emet f v).bloqueFile fid).tas s.procElu).fileValue = v := by
      refine hva.trans ?_
      simp [Core.emet]
    rw [hv] at hs
    exact .de_suspens rfl (emet f) hs
  | @depose f adr n hf hnon hlt hn => exact .de_retour rfl (accepte f) .emis

theorem AppelPreceive.cloture {fid : Int} {m : Nat} (hc : Coherent s) (he : s.EnCours)
    (h0 : appelEnCours s.procElu s.journal = []) (ha : AppelPreceive s fid m r s') :
    Cloture r s' := by
  have recoit : ∀ f : File, appelEnCours s.procElu (s.journal ++ [.reception f.adr s.procElu m]) =
      [.reception f.adr s.procElu m] := by
    intro f
    rw [appelEnCours_concat rfl rfl, h0]
    rfl
  have livre : ∀ (f : File) (w : Int), appelEnCours s.procElu (s.journal ++
      [.reception f.adr s.procElu m] ++ [.livre f.adr s.procElu w] ++
        if m = 0 then [] else [.ecriture s.procElu m (BitVec.ofInt 32 w)]) =
          [.reception f.adr s.procElu m, .livre f.adr s.procElu w] ++
            stocke s.procElu m (BitVec.ofInt 32 w) := by
    intro f w
    have hl : appelEnCours s.procElu (s.journal ++ [.reception f.adr s.procElu m] ++
        [.livre f.adr s.procElu w]) = [.reception f.adr s.procElu m, .livre f.adr s.procElu w] := by
      rw [appelEnCours_concat rfl rfl, recoit]
      rfl
    unfold stocke
    split
    · rw [List.append_nil, hl, List.append_nil]
    · rw [appelEnCours_concat rfl rfl, hl]
  cases ha with
  | refus hf => exact .refus h0
  | @bloque f hf hvide =>
    have hl : (s.recoit f m).lien (s.recoit f m).procElu = none := hc.lien_procElu he
    obtain ⟨het, -, hsur⟩ := Core.sur_bloqueFile (i := fid) hl hf
    exact .de_suspens rfl (recoit f) (.recoit het hsur)
  | @prend f l msg hf hl hp => exact .de_retour rfl (livre f msg.message) .recu
  | @relaye f l msg p adr n hf hl hp hn =>
    have hne := hc.ne_procElu he (LinkedQueues.link_of_top hp)
    have hj := livre f msg.message
    rw [← appelEnCours_muet (k := [.accepte f.adr p (s.tas p).fileValue])
      (by simpa [Evenement.acteur] using hne)] at hj
    exact .de_finFile rfl hj .recu

-- ---------------------------------------------------------------------------
-- Semaphores
-- ---------------------------------------------------------------------------

theorem AppelWait.cloture {sid : Int} (hc : Coherent s) (he : s.EnCours)
    (h0 : appelEnCours s.procElu s.journal = []) (ha : AppelWait s sid r s') : Cloture r s' := by
  have prise : ∀ sem : Semaphore, appelEnCours s.procElu (s.journal ++
      [.semPrise sem.adr s.procElu]) = [.semPrise sem.adr s.procElu] := by
    intro sem
    rw [appelEnCours_concat rfl rfl, h0]
    rfl
  cases ha with
  | refus hv => exact .refus h0
  | @prise sem hs hpos =>
    have hj : appelEnCours s.procElu (s.journal ++ [.semPrise sem.adr s.procElu] ++
        [.semAccorde sem.adr s.procElu]) =
          [.semPrise sem.adr s.procElu, .semAccorde sem.adr s.procElu] := by
      rw [appelEnCours_concat rfl rfl, prise]
      rfl
    exact .de_retour rfl hj .accorde
  | @bloque sem hs hmin hneg =>
    refine .de_suspens rfl (prise sem) (.attend (by simp) ?_)
    intro i x hp hx
    have hl : (((s.majSem sid (some (sem.setCount (sem.count - 1)))).note
        (.semPrise sem.adr s.procElu)).maj s.procElu
          fun r => { r with etat := .attendSemaphore }).lien s.procElu = none := hc.lien_procElu he
    have hp' := (Core.lien_ajoute (t := .semaphore sid) (x := s.procElu) hl).symm.trans hp
    rw [if_pos rfl] at hp'
    cases hp'
    have hx' : Function.update s.tableauSem sid (some (sem.setCount (sem.count - 1))) sid = some x :=
      hx
    rw [Function.update_self] at hx'
    rw [← Option.some.inj hx']
    rfl

-- ---------------------------------------------------------------------------
-- Children
-- ---------------------------------------------------------------------------

/-- The call of a `waitpid` that ends. -/
theorem FinWaitpid.appel {pid : Int} {retvalp : Nat} {c : Ptr} (h : Stable s) (he : s.EnCours)
    (h0 : appelEnCours s.procElu s.journal = [.attente s.procElu pid retvalp])
    (hcf : c ∈ s.fils s.procElu) (hz : (s.tas c).etat = .zombie) (hf : FinWaitpid s c retvalp r s') :
    s'.procElu = s.procElu ∧ appelEnCours s.procElu s'.journal =
      [.attente s.procElu pid retvalp, .recolte s.procElu c] ++
        stocke s.procElu retvalp (BitVec.ofInt 32 (s.tas c).retval) := by
  obtain @⟨l, s₂, hl, hlib, hvide⟩ := hf
  have hr := h.coherent.recolte he hcf hz hl
  have helu : s₂.procElu = s.procElu := (Stable.elu_liberation hr hlib).1
  have hj : appelEnCours s.procElu s₂.journal =
      [.attente s.procElu pid retvalp, .recolte s.procElu c] := by
    have m : Gagne false (s.recolte c l) s₂ := .liberation hr hlib
    have hm : appelEnCours s.procElu s₂.journal =
        appelEnCours s.procElu (s.journal ++ [.recolte s.procElu c]) := m.elu
    rw [hm, appelEnCours_concat rfl rfl, h0]
    rfl
  have hecrit := appelEnCours_ecrit (s := s₂) (a := retvalp)
    (w := BitVec.ofInt 32 (s.tas c).retval)
  rw [helu, hj] at hecrit
  exact ⟨helu, hecrit⟩

theorem BoucleWaitpid.cloture {pid : Int} {retvalp : Nat} (h : Stable s) (he : s.EnCours)
    (h0 : appelEnCours s.procElu s.journal = [.attente s.procElu pid retvalp])
    (hb : BoucleWaitpid s pid retvalp r s') : Cloture r s' := by
  have hc := h.coherent
  cases hb with
  | attend hcf hpid hp0 hz => exact .de_suspens rfl h0 .waitpid
  | attendFils hne hz hp0 => exact .de_suspens rfl h0 .waitpidFils
  | @recolte c _ _ hcf hz hpid hf =>
    obtain ⟨helu, happel⟩ := hf.appel h he h0 hcf hz
    obtain @⟨l, s₂, hl, hlib, hvide⟩ := hf
    exact .de_retour (p := s.procElu) helu happel
      (.recolte (hc.pid c (hc.fils _ c he.vivant hcf).1).1 hpid)

theorem AppelWaitpid.cloture {pid : Int} {retvalp : Nat} (h : Stable s) (he : s.EnCours)
    (h0 : appelEnCours s.procElu s.journal = []) (ha : AppelWaitpid s pid retvalp r s') :
    Cloture r s' := by
  have hj : appelEnCours s.procElu (s.journal ++ [.attente s.procElu pid retvalp]) =
      [.attente s.procElu pid retvalp] := by
    rw [appelEnCours_concat rfl rfl, h0]
    rfl
  cases ha with
  | refus hr => exact .de_retour rfl hj .sansFils
  | boucle hr hb =>
    have q : Quiet { trace := true } s (s.note (.attente s.procElu pid retvalp)) := .attente _ _
    exact hb.cloture (h.quiet he q) (h.enCours_quiet he q) hj

end

-- ---------------------------------------------------------------------------
-- Steps
-- ---------------------------------------------------------------------------

section

variable {c c' : Config} {e : Signal}

/-- In user mode the elected process is in no call. -/
theorem Core.Suivi.utilisateur (hs : c.s.toCore.Suivi) (h : c.Valide) (hu : c.mode = .utilisateur) :
    appelEnCours c.s.procElu c.s.journal = [] := by
  have he := h.utilisateur hu
  exact hs.elu.libre he.vivant (by rw [he.etat]; rfl) he.contexte

/-- Calls whose end is described exactly. -/
theorem appel_cloture {r : Registres} {sv : Service} (h : c.Valide) (hs : c.s.toCore.Suivi)
    (hu : c.mode = .utilisateur) (hsv : r.service = some sv)
    (hmem : sv ∈ [.pcount, .psend, .preceive, .clockSettings, .waitpid, .tryWait, .wait]) :
    wp (cadre c e).tolere (traitantIT49Switch r) (fun x s' => Cloture x s'.toCore) c.s := by
  have hst := h.stable
  have hc := hst.coherent
  have he := h.utilisateur hu
  have h0 := hs.utilisateur h hu
  have garde : ∀ {b : Bool} {m : M Suite},
      wp (cadre c e).tolere m (fun x s' => Cloture x s'.toCore) c.s →
      wp (cadre c e).tolere (if b then pure (.retour (-1)) else m)
        (fun x s' => Cloture x s'.toCore) c.s := by
    intro b m hm
    cases b with
    | true => exact Cloture.refus (s := c.s.toCore) h0
    | false => exact hm
  unfold traitantIT49Switch
  rw [hsv]
  simp only [List.mem_cons, List.not_mem_nil, or_false] at hmem
  rcases hmem with rfl | rfl | rfl | rfl | rfl | rfl | rfl
  · refine garde (wp_pcount hc _ _ (fun _ => .refus h0) ?_)
    intro f s' hf hcount hs'
    have hj := appelEnCours_ecrit (s := c.s.toCore) (a := r.ecx.toNat)
      (w := BitVec.ofInt 32 (c.s.toCore.compte r.ebx.toInt f))
    rw [h0, List.nil_append] at hj
    rw [hs']
    exact .de_retour rfl hj (.autre fun x hx => mem_stocke hx)
  · exact wp_psend hst he _ _ fun x s' ha => ha.cloture hc he h0
  · exact garde (wp_preceive hst he _ _ fun x s' ha => ha.cloture hc he h0)
  · refine garde ?_
    simp only [sansValeur, clockSettings, wp_bind]
    refine wp_ecrit ?_
    intro s₁ h₁
    refine wp_ecrit ?_
    intro s₂ h₂
    have hj₁ := appelEnCours_ecrit (s := c.s.toCore) (a := r.ebx.toNat)
      (w := BitVec.ofNat 32 QUARTZ)
    have hj₂ := appelEnCours_ecrit (s := s₁.toCore) (a := r.ecx.toNat)
      (w := BitVec.ofNat 32 (QUARTZ / CLOCKFREQ))
    rw [h0, List.nil_append, ← h₁] at hj₁
    have helu : s₁.procElu = c.s.procElu := by
      rw [h₁]
      rfl
    rw [helu, hj₁, ← h₂] at hj₂
    refine .de_retour (p := c.s.procElu) (by rw [h₂]; exact helu) hj₂ (.autre ?_)
    intro x hx
    rcases List.mem_append.mp hx with hx | hx
    · exact mem_stocke hx
    · exact mem_stocke hx
  · exact garde (wp_waitpid hst he _ _ fun x s' ha => ha.cloture hst he h0)
  · exact wp_tryWait hc _ fun v s' ha => ha.cloture hc he h0
  · exact wp_wait hst he _ fun x s' ha => ha.cloture hc he h0

/-- Calls that were suspended. -/
theorem reprend_cloture {k : Reprise} {s : Kernel} {l : List Evenement} (hst : Stable s.toCore)
    (he : s.toCore.EnCours) (hs : s.toCore.Suspens s.procElu k l)
    (hl : appelEnCours s.procElu s.journal = l)
    (hw : ∀ pid p r, k = .waitpid pid p r → 0 ≤ pid ∧ p ∈ s.toCore.fils s.procElu ∧
      (s.tas p).pid = pid)
    (hf : ∀ pid r, k = .waitpidFils pid r → pid < 0 ∧ s.toCore.fils s.procElu ≠ [])
    (hk : k.trace = true ∨ ∃ v, k = .retour v) :
    wp (cadre c e).tolere (reprend k) (fun x s' => Cloture x s'.toCore) s := by
  have relaxe : ∀ {et : Etat}, (s.tas s.procElu).etat = et → et = .elu := by
    intro et hx
    rw [← hx, he.etat]
  cases hs with
  | libre hx =>
    rcases hk with hk | ⟨v, rfl⟩
    · rw [hx] at hk
      cases hk
    · exact Cloture.refus (s := s.toCore) hl
  | rendu hv => exact Cloture.de_retour (s := s.toCore) rfl hl hv
  | emet hx | recoit hx | attend hx => cases relaxe hx
  | emis _ hx =>
    refine wp_psendReprise he ?_
    rw [hx]
    exact .de_retour rfl hl .emis
  | emisEchec _ hx =>
    refine wp_psendReprise he ?_
    rw [hx]
    exact .de_retour rfl hl .emisEchec
  | @recu a m _ hx =>
    refine wp_preceiveReprise he _ (fun h0 => by rw [hx] at h0; cases h0) ?_
    intro s' _ hs'
    have hj := appelEnCours_ecrit (s := s.toCore) (a := m)
      (w := BitVec.ofInt 32 (s.tas s.procElu).fileValue)
    rw [hl] at hj
    rw [hs']
    exact .de_retour rfl hj .recu
  | recuEchec _ hx =>
    exact wp_preceiveReprise he _ (fun _ => .de_retour rfl hl .recuEchec) fun _ h0 _ => absurd hx h0
  | accorde _ hx =>
    refine wp_waitReprise he ?_
    rw [hx]
    exact .de_retour rfl hl .accorde
  | rejete _ hx =>
    refine wp_waitReprise he ?_
    rw [min_eq_right hx.le]
    exact .de_retour rfl hl (.rejete hx)
  | waitpid =>
    obtain ⟨h0, hp, hpp⟩ := hw _ _ _ rfl
    exact wp_waitpidBoucle hst he hp hpp h0 fun x s' hb => hb.cloture hst he hl
  | waitpidFils =>
    obtain ⟨h0, hne⟩ := hf _ _ rfl
    exact wp_waitpidFilsBoucle hst he hne h0 fun x s' hb => hb.cloture hst he hl

/-- The state after the return point is popped off. -/
theorem Core.Suspens.depile {s : Core} {p : Ptr} {k k' : Reprise} {l : List Evenement}
    (h : s.Suspens p k l) : (s.empile k').Suspens p k l := by
  have htas : ∀ {α : Type} (g : Processus → α), (∀ r : Processus, g { r with contexte := k' } = g r) →
      g ((s.empile k').tas p) = g (s.tas p) := by
    intro α g hg
    rw [Core.empile, Core.tas_maj]
    split
    · next hx => rw [hg, hx]
    · rfl
  exact h.congr (.inl (htas Processus.etat fun _ => rfl)) (htas Processus.operationStatus fun _ => rfl)
    (htas Processus.fileValue fun _ => rfl) (fun _ ha => ha) fun _ ha => ha

theorem Core.Ailleurs.depile {s : Core} {k : Reprise} (h : s.Ailleurs) : (s.empile k).Ailleurs := by
  refine ⟨h.neuf, ?_, h.reponses⟩
  intro p hp hv hm
  have hp' : p ≠ s.procElu := hp
  have htas : (s.empile k).tas p = s.tas p := by rw [Core.empile, Core.tas_maj, if_neg hp']
  rw [htas] at hm ⊢
  exact (h.autres p hp hv hm).depile

/-- The code of a step ends as the events of the call say. -/
theorem segment_cloture (h : c.Valide) (hs : c.s.toCore.Suivi) (hp : possible c e = true) :
    wp (cadre c e).tolere (segment c e) (fun x s' => Cloture x s'.toCore) c.s := by
  -- a step that records nothing of the elected process
  have muet : ¬ Trace c e → appelEnCours c.entree.procElu c.entree.journal = [] →
      wp (cadre c e).tolere (segment c e) (fun x s' => Cloture x s'.toCore) c.s :=
    fun ht h0 => wp_imp (segment_raffine h hp) fun x s' hx => hx.cloture h.entree.1 ht h0
  have utilisateur : c.mode = .utilisateur → ¬ Trace c e →
      wp (cadre c e).tolere (segment c e) (fun x s' => Cloture x s'.toCore) c.s := by
    intro hu ht
    refine muet ht ?_
    rw [Config.entree_utilisateur hu]
    exact hs.utilisateur h hu
  cases e with
  | int49 r =>
    have hp' := hp
    simp only [possible, decide_eq_true_eq] at hp'
    by_cases ht : Trace c (.int49 r)
    · obtain ⟨r', sv, ⟨hr, hsv⟩, hmem⟩ | ⟨hx, -⟩ := ht
      · cases hr
        rw [segment, if_pos hp']
        exact appel_cloture h hs hp'.1 hsv hmem
      · cases hx
    · exact utilisateur hp'.1 ht
  | int32 | int33 str =>
    refine utilisateur (by simpa [possible] using hp) ?_
    rintro (⟨_, _, ⟨hx, -⟩, -⟩ | ⟨hx, -⟩) <;> cases hx
  | programme m =>
    refine utilisateur (by simpa [possible] using (of_decide_eq_true hp).1) ?_
    rintro (⟨_, _, ⟨hx, -⟩, -⟩ | ⟨hx, -⟩) <;> cases hx
  | suite =>
    have hn : c.mode = .noyau := by simpa [possible] using hp
    have hent := Config.entree_noyau hn
    obtain ⟨hst, he⟩ := h.entree
    have hm : (c.s.tas c.s.procElu).etat.mort = false := by rw [h.elu.etat]; rfl
    have hmort : ¬ c.s.toCore.Mort c.s.procElu := by
      rw [Core.mort_iff, hm]
      simp
    have hS := hs.elu h.elu.vivant hm
    have hsus := h.stable.coherent.suspendu _ h.elu.vivant
    by_cases hk : (c.s.tas c.s.procElu).contexte.trace = true ∨
        ∃ v, (c.s.tas c.s.procElu).contexte = .retour v
    · rw [segment, wp_bind]
      refine wp_lire h.elu.vivant ?_
      simp only [ecrire, wp_bind, wp_get, h.elu.vivant, if_true]
      rw [hent] at hst he
      refine reprend_cloture hst he hS.depile rfl ?_ ?_ hk
      · intro pid p r hx
        obtain ⟨h0, hf, hpp⟩ := hsus.waitpid hmort pid p r hx
        refine ⟨h0, ?_, ?_⟩
        · show p ∈ Core.fils (c.s.toCore.empile .iret) c.s.procElu
          simpa [Core.fils, Core.empile] using hf
        · show ((c.s.toCore.empile .iret).tas p).pid = pid
          rw [Core.empile, Core.tas_maj]
          split
          · next hx => rw [← hx]; exact hpp
          · exact hpp
      · intro pid r hx
        obtain ⟨h0, hne⟩ := hsus.waitpidFils hmort pid r hx
        refine ⟨h0, ?_⟩
        show Core.fils (c.s.toCore.empile .iret) c.s.procElu ≠ []
        simpa [Core.fils, Core.empile] using hne
    · refine muet ?_ ?_
      · rintro (⟨_, _, ⟨hx, -⟩, -⟩ | ⟨-, ⟨m, hx⟩ | ⟨pid, p, r, hx⟩ | ⟨pid, r, hx⟩⟩)
        · cases hx
        · exact hk (.inl (by rw [hx]; rfl))
        · exact hk (.inl (by rw [hx]; rfl))
        · exact hk (.inl (by rw [hx]; rfl))
      · rw [hent]
        show appelEnCours c.s.procElu c.s.journal = []
        generalize appelEnCours c.s.procElu c.s.journal = l at hS
        generalize (c.s.tas c.s.procElu).contexte = k at hS hk
        cases hS with
        | libre => rfl
        | rendu => exact absurd (.inr ⟨_, rfl⟩) hk
        | _ => exact absurd (.inl rfl) hk

/-- A step keeps the agreement of the journal with the calls in progress. -/
theorem Core.Suivi.pas (h : c.Valide) (hh : c.s.toCore.Homogene) (hs : c.s.toCore.Suivi)
    (hp : possible c e = true) (hpas : pas c e = .ok c') : c'.s.toCore.Suivi := by
  obtain ⟨x, s', hseg, ht⟩ := of_pas hpas
  have hR := h.segment hp hseg
  have hC := wp_ok (segment_cloture h hs hp) hseg
  obtain ⟨hst, he⟩ := h.entree
  have ha : c.entree.Ailleurs := by
    unfold Config.entree
    cases c.mode with
    | utilisateur => exact hs.toAilleurs
    | noyau => exact hs.toAilleurs.depile
  have hh' : c.entree.Homogene := by
    unfold Config.entree
    cases c.mode with
    | utilisateur => exact hh
    | noyau => exact hh.depile h.stable h.elu
  cases x with
  | retour v =>
    obtain ⟨-, hs'⟩ := of_termine_retour ht
    cases hR with
    | retour hq he' =>
      rw [hs']
      exact (ha.calme hst hh' hq).1.retour (hst.calme hq).coherent he' hC
  | iret =>
    cases hR with
    | iret hq he' =>
      have hs' : c'.s = s' := by
        obtain ⟨t, mode⟩ := c'
        cases ht
        rfl
      rw [hs']
      exact (ha.calme hst hh' hq).1.iret he' hC
  | ordonnanceur k =>
    obtain ⟨-, s₃, hl, hvide, hel⟩ := of_pas_ordonnanceur h hp hseg hpas
    exact ha.ordonnanceur hst hh' hR hC hl hvide hel

end

/-- The same for start-up. -/
theorem Core.Suivi.demarrage {s₀ s : Core} {mode : Mode} (h : Initial s₀) (hh : s₀.Homogene)
    (ht : Tour {} mode s₀ s) : s.Suivi := by
  have ha : s₀.Ailleurs := by
    refine ⟨?_, ?_, ?_⟩
    · rw [h.journal]
      nofun
    · intro p hp hv
      exact absurd ((h.seul p hv).trans h.elu.symm) hp
    · rw [h.journal]
      exact .nil
  have h0 : appelEnCours s₀.procElu s₀.journal = [] := by rw [h.journal]; rfl
  have hst := h.stable
  cases ht with
  | retour hs =>
    have hC := hs.cloture hst id h0
    cases hs with
    | retour hq he => exact (ha.calme hst hh hq).1.retour (hst.calme hq).coherent he hC
  | iret hs =>
    have hC := hs.cloture hst id h0
    cases hs with
    | iret hq he => exact (ha.calme hst hh hq).1.iret he hC
  | election hs hl hvide hel =>
    exact ha.ordonnanceur hst hh hs (hs.cloture hst id h0) hl hvide hel

end GenesisOS
