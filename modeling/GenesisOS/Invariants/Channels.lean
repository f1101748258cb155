import GenesisOS.Invariants.Calls

/-!
# GenesisOS — a message file is a channel

A file is named by the address of its structure, which is never used again.
`Fichiers` says once what a transition can do to the message files, beside the
events it records; from it, since a file was last emptied:

* what it accepted is what it delivered, followed by its queue (`Canaux.fifo`);
* what it accepted was sent to it by a `psend` (`Canaux.emis`);
* a sender that waits on it has not been accepted yet (`Canaux.attente`).
-/

namespace GenesisOS

open Lib

-- ---------------------------------------------------------------------------
-- What the journal says of a file
-- ---------------------------------------------------------------------------

/-- The file that the event puts a message in or takes one out of. -/
def Evenement.canal : Evenement → Option Ptr
  | .accepte f _ _ | .livre f _ _ | .vide f => some f
  | _ => none

/-- The messages that the file at `a` accepted. -/
def acceptes (a : Ptr) (j : List Evenement) : List Int :=
  j.filterMap fun
    | .accepte f _ v => if f = a then some v else none
    | _ => none

/-- The messages that the file at `a` delivered. -/
def livres (a : Ptr) (j : List Evenement) : List Int :=
  j.filterMap fun
    | .livre f _ v => if f = a then some v else none
    | _ => none

/-- The events since the file at `a` was last emptied. -/
def depuisVide (a : Ptr) (j : List Evenement) : List Evenement := since (fun e => e = .vide a) j

/-- Each message the file at `a` accepted was sent to it before. -/
def Emis (a : Ptr) (j : List Evenement) : Prop :=
  Justified (fun j e => ∀ p v, e = .accepte a p v → .emission a p v ∈ j) j

/-- The messages in the queue of a file, the oldest first. -/
def File.contenu (f : File) : List Int := (f.queueMsg.map Message.message).reverse

section

variable {a p q : Ptr} {v : Int} {m : Nat} {j k : List Evenement}

theorem acceptes_append : acceptes a (j ++ k) = acceptes a j ++ acceptes a k :=
  List.filterMap_append ..

theorem livres_append : livres a (j ++ k) = livres a j ++ livres a k :=
  List.filterMap_append ..

@[simp] theorem acceptes_nil : acceptes a [] = [] := rfl

@[simp] theorem livres_nil : livres a [] = [] := rfl

@[simp] theorem acceptes_emission : acceptes a (.emission a p v :: k) = acceptes a k := rfl

@[simp] theorem livres_emission : livres a (.emission a p v :: k) = livres a k := rfl

@[simp] theorem acceptes_reception : acceptes a (.reception a p m :: k) = acceptes a k := rfl

@[simp] theorem livres_reception : livres a (.reception a p m :: k) = livres a k := rfl

@[simp] theorem acceptes_accepte : acceptes a (.accepte a p v :: k) = v :: acceptes a k := by
  simp [acceptes]

@[simp] theorem livres_accepte : livres a (.accepte a p v :: k) = livres a k := rfl

@[simp] theorem acceptes_livre : acceptes a (.livre a p v :: k) = acceptes a k := rfl

@[simp] theorem livres_livre : livres a (.livre a p v :: k) = v :: livres a k := by
  simp [livres]

/-- Events of other files. -/
theorem acceptes_muet (h : ∀ e ∈ k, e.canal ≠ some a) : acceptes a k = [] := by
  refine List.filterMap_eq_nil_iff.mpr ?_
  intro e he
  have hne := h e he
  cases e with
  | accepte f => exact if_neg fun hx => hne (congrArg some hx)
  | _ => rfl

theorem livres_muet (h : ∀ e ∈ k, e.canal ≠ some a) : livres a k = [] := by
  refine List.filterMap_eq_nil_iff.mpr ?_
  intro e he
  have hne := h e he
  cases e with
  | livre f => exact if_neg fun hx => hne (congrArg some hx)
  | _ => rfl

theorem depuisVide_append (h : .vide a ∉ k) : depuisVide a (j ++ k) = depuisVide a j ++ k := by
  refine since_append ?_
  intro e he
  rw [decide_eq_false_iff_not]
  rintro rfl
  exact h he

theorem depuisVide_vide : depuisVide a (j ++ [.vide a]) = [] := since_concat_of (by simp)

theorem vide_not_mem (h : ∀ e ∈ k, e.canal ≠ some a) : .vide a ∉ k := fun he => h _ he rfl

/-- Events that fill or empty other files. -/
theorem canal_muet (h : ∀ e ∈ k, e.canal ≠ some a) :
    depuisVide a (j ++ k) = depuisVide a j ++ k ∧
      acceptes a (depuisVide a j ++ k) = acceptes a (depuisVide a j) ∧
      livres a (depuisVide a j ++ k) = livres a (depuisVide a j) := by
  refine ⟨depuisVide_append (vide_not_mem h), ?_, ?_⟩
  · rw [acceptes_append, acceptes_muet h, List.append_nil]
  · rw [livres_append, livres_muet h, List.append_nil]

/-- Events that accept nothing. -/
theorem Emis.append (h : Emis a j) (hk : ∀ e ∈ k, ∀ p v, e ≠ .accepte a p v) : Emis a (j ++ k) := by
  refine Justified.append h ?_
  intro e he j p v hx
  exact absurd hx (hk e he p v)

theorem recu_muet (hk : ∀ e ∈ k, e.canal ≠ some a) :
    ∀ e ∈ .reception a p m :: .livre a p v :: k, ∀ q w, e ≠ .accepte a q w := by
  intro e he q w hx
  simp only [List.mem_cons] at he
  rcases he with rfl | rfl | he
  · cases hx
  · cases hx
  · exact hk e he (congrArg Evenement.canal hx)

theorem Emis.accepte (h : Emis a j) (hm : .emission a p v ∈ j) : Emis a (j ++ [.accepte a p v]) := by
  refine Justified.concat h ?_
  rintro _ _ ⟨⟩
  exact hm

theorem Emis.envoi (h : Emis a j) : Emis a (j ++ [.emission a p v, .accepte a p v]) := by
  rw [List.append_cons]
  exact (h.append (by simp)).accepte (by simp)

end

-- ---------------------------------------------------------------------------
-- What a transition does to the files
-- ---------------------------------------------------------------------------

/-- What a transition does to the message files while it records `k`. It empties
or deletes only the files that satisfy `E`. -/
inductive Fichiers (E : Ptr → Prop) (s s' : Core) : List Evenement → Prop
  | rien {k : List Evenement} (hf : s'.tableauFile = s.tableauFile)
      (hk : ∀ e ∈ k, e.canal = none) : Fichiers E s s' k
  | cree {fid n : Int} {adr : Ptr} (hlibre : s.tableauFile fid = none) (hadr : s.prochain ≤ adr)
      (hm : adr < s'.prochain)
      (hf : s'.tableauFile = Function.update s.tableauFile fid
        (some { adr := adr, fid := fid, maxMsg := n, queueMsg := [] })) : Fichiers E s s' []
  | vide {fid : Int} {f : File} (hE : E f.adr) (hf₀ : s.tableauFile fid = some f)
      (hf : s'.tableauFile = Function.update s.tableauFile fid (some { f with queueMsg := [] })) :
      Fichiers E s s' [.vide f.adr]
  | supprime {fid : Int} {f : File} (hE : E f.adr) (hf₀ : s.tableauFile fid = some f)
      (hf : s'.tableauFile = Function.update s.tableauFile fid none) : Fichiers E s s' []
  | remis {fid v : Int} {f : File} {p q : Ptr} (hf₀ : s.tableauFile fid = some f)
      (hvide : f.queueMsg = []) (hf : s'.tableauFile = s.tableauFile) :
      Fichiers E s s' [.emission f.adr p v, .accepte f.adr p v, .livre f.adr q v]
  | depose {fid v : Int} {f : File} {p : Ptr} {m : Ptr} (hf₀ : s.tableauFile fid = some f)
      (hnon : f.queueMsg ≠ [] ∨ s.elems (.file fid) = [])
      (hf : s'.tableauFile = Function.update s.tableauFile fid
        (some { f with queueMsg := ⟨m, v⟩ :: f.queueMsg })) :
      Fichiers E s s' [.emission f.adr p v, .accepte f.adr p v]
  | prend {fid : Int} {f : File} {l : List Message} {msg : Message} {p : Ptr} {m : Nat}
      {k : List Evenement} (hf₀ : s.tableauFile fid = some f) (hl : f.queueMsg = l ++ [msg])
      (hf : s'.tableauFile = Function.update s.tableauFile fid (some { f with queueMsg := l }))
      (hk : ∀ e ∈ k, e.canal = none) :
      Fichiers E s s' (.reception f.adr p m :: .livre f.adr p msg.message :: k)
  | relaye {fid : Int} {f : File} {l : List Message} {msg : Message} {p q a : Ptr} {m : Nat}
      {k : List Evenement} (hf₀ : s.tableauFile fid = some f) (hl : f.queueMsg = l ++ [msg])
      (hq : s.lien q = some (.file fid))
      (hf : s'.tableauFile = Function.update s.tableauFile fid
        (some { f with queueMsg := ⟨a, (s.tas q).fileValue⟩ :: l }))
      (hk : ∀ e ∈ k, e.canal = none) :
      Fichiers E s s' (.reception f.adr p m :: .livre f.adr p msg.message ::
        (k ++ [.accepte f.adr q (s.tas q).fileValue]))

/-- The journal gains the events of `k`, and the files change accordingly. -/
def Core.Touche (E : Ptr → Prop) (s s' : Core) : Prop :=
  ∃ k, s'.journal = s.journal ++ k ∧ Fichiers E s s' k

namespace Core.Touche

variable {E : Ptr → Prop} {s s' s'' : Core} {e : Evenement}

/-- The files do not change, and what is recorded does not concern them. -/
def Rien (s s' : Core) : Prop :=
  s'.tableauFile = s.tableauFile ∧ Ajoute (fun e => e.canal = none) s s'

theorem Rien.touche (h : Rien s s') : Touche E s s' := by
  obtain ⟨hf, k, hj, hk⟩ := h
  exact ⟨k, hj, .rien hf hk⟩

theorem Rien.refl : Rien s s := ⟨rfl, .refl⟩

theorem Rien.meme (h : Rien s s') (hf : s''.tableauFile = s'.tableauFile := by rfl)
    (hj : s''.journal = s'.journal := by rfl) : Rien s s'' :=
  ⟨hf.trans h.1, h.2.meme hj⟩

theorem Rien.note (h : Rien s s') (hj : s''.journal = s'.journal ++ [e]) (he : e.canal = none)
    (hf : s''.tableauFile = s'.tableauFile := by rfl) : Rien s s'' :=
  ⟨hf.trans h.1, h.2.note he hj⟩

theorem Rien.reveillePere (h : Rien s s') {q : Ptr} : Rien s (s'.reveillePere q) := by
  refine ⟨?_, h.2.reveillePere⟩
  unfold Core.reveillePere
  split
  · exact h.1
  · exact h.1

theorem Rien.rejets {sid status : Int} {sem : Semaphore}
    (hr : Relation.ReflTransGen (Rejet sid sem status) s s') : Rien s s' := by
  refine ⟨?_, (Ajoute.rejets hr).mono ?_⟩
  · induction hr with
    | refl => rfl
    | tail _ hlast ih =>
      obtain ⟨q, hq, rfl⟩ := hlast
      exact ih
  · rintro _ ⟨p, rfl⟩
    rfl

theorem Rien.liberation (h : Coherent s) (hl : Relation.ReflTransGen Liberation s s') :
    Rien s s' := by
  refine ⟨?_, (Ajoute.liberation h hl).mono ?_⟩
  · induction hl with
    | refl => rfl
    | tail hrest hlast ih =>
      obtain ⟨q, adr, n, -, -, L⟩ := (h.liberation hrest).liberation_spec hlast
      exact L.file.trans ih
  · rintro _ ⟨q, rfl⟩
    rfl

/-- What is stored for a process. -/
theorem canal_stocke (p : Ptr) (adr : Nat) (w : BitVec 32) :
    ∀ e ∈ stocke p adr w, e.canal = none := by
  intro e he
  unfold stocke at he
  split at he
  · cases he
  · rw [List.mem_singleton.mp he]
    rfl

end Core.Touche

open Core.Touche in
theorem Quiet.touche {l : Etiquette} {s s' : Core} (h : Stable s) (q : Quiet l s s') :
    Core.Touche (fun a => l.efface = some (.file a)) s s' := by
  have hc := h.coherent
  have r : Rien s s := .refl
  cases q with
  | ecriture adr w => exact Rien.touche ⟨rfl, _, rfl, canal_stocke s.procElu adr w⟩
  | attente pid rv => exact (r.note rfl rfl).touche
  | cree hl hp hn hpid hetat hctx hfils hprio hret => exact (r.note rfl rfl).touche
  | tueZombie hpid hp hz hm ht hpere =>
    refine Rien.touche (.reveillePere ?_)
    exact r.note rfl rfl
  | tueMourant hpid hp hz hm ht hpere => exact (r.note rfl rfl).touche
  | recolte hcf hz hl => exact (r.note rfl rfl).touche
  | liberation hl hvide => exact (Rien.liberation hc hl).touche
  | @creeFile _ fid n adr l cell m hl hfid h0 hN hn hadr hm =>
    have hcell : cell ∈ s.fidListe := by rw [hl]; simp
    exact ⟨[], (List.append_nil _).symm,
      .cree (hfid ▸ (hc.fidLibre cell hcell).2.2) hadr hm rfl⟩
  | echec hf hp => exact (r.note rfl rfl).touche
  | @vide _ fid f hf hp => exact ⟨_, rfl, .vide rfl hf rfl⟩
  | supprimeFile hf hp hn => exact ⟨[], (List.append_nil _).symm, .supprime rfl hf rfl⟩
  | @remis _ fid v f p hidle hf hvide hp =>
    refine ⟨_, ?_, .remis (p := s.procElu) (q := p) (v := v) hf hvide rfl⟩
    simp [Core.emet, Core.eveille]
  | @depose _ fid v f adr n hidle hf hnon hlt hn =>
    refine ⟨_, ?_, .depose (p := s.procElu) (v := v) hf hnon rfl⟩
    simp [Core.emet]
  | @prend _ fid f l msg m hidle hf hl hp =>
    refine ⟨_, ?_, .prend (p := s.procElu) (m := m) hf hl rfl
      (canal_stocke s.procElu m (BitVec.ofInt 32 msg.message))⟩
    simp [Core.recoit, stocke]
  | @relaye _ fid f l msg p a m n hidle hf hl hp hn =>
    refine ⟨_, ?_, .relaye (p := s.procElu) (m := m) hf hl (LinkedQueues.link_of_top hp) rfl
      (canal_stocke s.procElu m (BitVec.ofInt 32 msg.message))⟩
    simp [Core.recoit, Core.eveille, stocke]
  | creeSem hl hsid hcount hsem hadr hfrais hm => exact (r.note rfl rfl).touche
  | sdelete hs hr hp hn hb => exact ((Rien.rejets hr).meme).touche
  | sreset hs hr hp h0 hcount hb => exact ((Rien.rejets hr).meme).touche
  | signale hs hmax hpos => exact (r.note rfl rfl).touche
  | @signaleReveil _ sid sem p hs hmax hneg hp =>
    have m : Rien s ((s.majSem sid (some (sem.setCount (sem.count + 1)))).note
        (.semUnite sem.adr s.procElu)) := r.note rfl rfl
    exact (m.note rfl rfl).touche
  | @prendSem _ sid sem hs hpos =>
    have m : Rien s ((s.majSem sid (some (sem.setCount (sem.count - 1)))).note
        (.semPrise sem.adr s.procElu)) := r.note rfl rfl
    exact (m.note rfl rfl).touche
  | _ => exact r.meme.touche

open Core.Touche in
theorem Sortie.rien {m : Motif} {k : Reprise} {s s' : Core} (q : Sortie m k s s') :
    Rien s (s'.empile k) := by
  have r : Rien s s := .refl
  cases q with
  | emission hidle hf hnon hplein => exact r.note rfl rfl
  | reception hidle hf hvide => exact r.note rfl rfl
  | wait hidle hs hmin hneg => exact r.note rfl rfl
  | @exitZombie _ v pere hidle hpere =>
    have m : Rien s (((s.maj s.procElu fun r => { r with retval := v }).note
        (.exit s.procElu v)).maj s.procElu fun r => { r with etat := .zombie }) := r.note rfl rfl
    exact m.reveillePere.meme
  | exitMourant hidle hpere => exact r.note rfl rfl
  | suicideZombie hidle hpere => exact r.note rfl rfl
  | suicideMourant hidle hpere => exact r.note rfl rfl
  | _ => exact r.meme

-- ---------------------------------------------------------------------------
-- The invariant
-- ---------------------------------------------------------------------------

/-- Each message file is a channel. -/
structure Core.Canaux (s : Core) : Prop where
  distinct : ∀ i i' f f', s.tableauFile i = some f → s.tableauFile i' = some f' →
    f.adr = f'.adr → i = i'
  ancien : ∀ i f, s.tableauFile i = some f → f.adr < s.prochain
  neuf : ∀ e ∈ s.journal, ∀ a, e.canal = some a → a < s.prochain
  fifo : ∀ i f, s.tableauFile i = some f → Fifo (acceptes f.adr (depuisVide f.adr s.journal))
    (livres f.adr (depuisVide f.adr s.journal)) f.contenu
  ordre : ∀ a, livres a (depuisVide a s.journal) <+: acceptes a (depuisVide a s.journal)
  emis : ∀ a, Emis a (depuisVide a s.journal)
  attente : ∀ i f p, s.tableauFile i = some f → s.lien p = some (.file i) → f.queueMsg ≠ [] →
    .emission f.adr p (s.tas p).fileValue ∈ depuisVide f.adr s.journal

/-- A process that waits on a file with messages waited on it before, or has
just sent it a message. -/
def Core.AttenteFile (k : List Evenement) (s s' : Core) : Prop :=
  ∀ i f p, s'.tableauFile i = some f → s'.lien p = some (.file i) → f.queueMsg ≠ [] →
    (s.lien p = some (.file i) ∧ (s'.tas p).fileValue = (s.tas p).fileValue) ∨
      .emission f.adr p (s'.tas p).fileValue ∈ k

namespace Core.Canaux

variable {E : Ptr → Prop} {s s' : Core} {k : List Evenement}

/-- The files that the new events do not concern. -/
theorem autre (h : s.Canaux) (hj : s'.journal = s.journal ++ k) {a : Ptr}
    (hk : ∀ e ∈ k, e.canal ≠ some a) :
    depuisVide a s'.journal = depuisVide a s.journal ++ k ∧
      acceptes a (depuisVide a s'.journal) = acceptes a (depuisVide a s.journal) ∧
        livres a (depuisVide a s'.journal) = livres a (depuisVide a s.journal) ∧
          Emis a (depuisVide a s'.journal) := by
  obtain ⟨hK, ha, hl⟩ := canal_muet (j := s.journal) hk
  rw [hj, hK]
  exact ⟨rfl, ha, hl, (h.emis a).append fun e he p v hx => hk e he (congrArg Evenement.canal hx)⟩

theorem neuf_suite (h : s.Canaux) (hpro : s.prochain ≤ s'.prochain)
    (hj : s'.journal = s.journal ++ k) (hk : ∀ e ∈ k, ∀ a, e.canal = some a → a < s.prochain) :
    ∀ e ∈ s'.journal, ∀ a, e.canal = some a → a < s'.prochain := by
  intro e he a ha
  rw [hj] at he
  rcases List.mem_append.mp he with he | he
  · exact (h.neuf e he a ha).trans_le hpro
  · exact (hk e he a ha).trans_le hpro

/-- The senders that wait on a file that is not emptied. -/
theorem attente_suite (h : s.Canaux) (hj : s'.journal = s.journal ++ k)
    (hatt : s.AttenteFile k s') {i : Int} {f f' : File} {p : Ptr} (hf : s.tableauFile i = some f)
    (hf' : s'.tableauFile i = some f') (hadr : f'.adr = f.adr) (hvide : .vide f.adr ∉ k)
    (hp : s'.lien p = some (.file i)) (hne : f'.queueMsg ≠ [])
    (hnon : s.lien p = some (.file i) → f.queueMsg ≠ []) :
    .emission f'.adr p (s'.tas p).fileValue ∈ depuisVide f'.adr s'.journal := by
  rw [hadr, hj, depuisVide_append hvide]
  rcases hatt i f' p hf' hp hne with ⟨hp', hva⟩ | he
  · rw [hva]
    exact List.mem_append_left _ (h.attente i f p hf hp' (hnon hp'))
  · rw [hadr] at he
    exact List.mem_append_right _ he

/-- The transition concerns one file. -/
theorem une (h : s.Canaux) {i : Int} {f f' : File} (hf₀ : s.tableauFile i = some f)
    (hf : s'.tableauFile = Function.update s.tableauFile i (some f')) (hadr : f'.adr = f.adr)
    (hpro : s.prochain ≤ s'.prochain) (hj : s'.journal = s.journal ++ k)
    (hk : ∀ e ∈ k, e.canal = none ∨ e.canal = some f.adr)
    (hfifo : Fifo (acceptes f.adr (depuisVide f.adr s'.journal))
      (livres f.adr (depuisVide f.adr s'.journal)) f'.contenu)
    (hemis : Emis f.adr (depuisVide f.adr s'.journal)) (hatt : s.AttenteFile k s')
    (hnon : f'.queueMsg ≠ [] → .vide f.adr ∉ k ∧ ∀ p, s.lien p = some (.file i) → f.queueMsg ≠ []) :
    s'.Canaux := by
  have hlire : ∀ {j : Int} {g : File}, s'.tableauFile j = some g →
      j = i ∧ g = f' ∨ j ≠ i ∧ s.tableauFile j = some g := by
    intro j g hg
    rw [hf, Function.update_apply] at hg
    split at hg
    · next hji => exact .inl ⟨hji, (Option.some.inj hg).symm⟩
    · next hji => exact .inr ⟨hji, hg⟩
  have hmuet : ∀ {a : Ptr}, a ≠ f.adr → ∀ e ∈ k, e.canal ≠ some a := by
    intro a ha e he hx
    rcases hk e he with hn | hn
    · rw [hn] at hx
      cases hx
    · rw [hn] at hx
      exact ha (Option.some.inj hx).symm
  have hautre : ∀ {j : Int} {g : File}, j ≠ i → s.tableauFile j = some g → g.adr ≠ f.adr :=
    fun hji hg hx => hji (h.distinct _ _ _ _ hg hf₀ hx)
  constructor
  · intro j j' g g' hg hg' hx
    rcases hlire hg with ⟨rfl, rfl⟩ | ⟨hji, hg⟩ <;> rcases hlire hg' with ⟨rfl, rfl⟩ | ⟨hji', hg'⟩
    · rfl
    · exact absurd (hx.symm.trans hadr) (hautre hji' hg')
    · exact absurd (hx.trans hadr) (hautre hji hg)
    · exact h.distinct _ _ _ _ hg hg' hx
  · intro j g hg
    rcases hlire hg with ⟨rfl, rfl⟩ | ⟨-, hg⟩
    · rw [hadr]
      exact (h.ancien _ _ hf₀).trans_le hpro
    · exact (h.ancien _ _ hg).trans_le hpro
  · refine h.neuf_suite hpro hj ?_
    intro e he a ha
    rcases hk e he with hn | hn
    · rw [hn] at ha
      cases ha
    · rw [hn] at ha
      rw [← Option.some.inj ha]
      exact h.ancien _ _ hf₀
  · intro j g hg
    rcases hlire hg with ⟨rfl, rfl⟩ | ⟨hji, hg⟩
    · rw [hadr]
      exact hfifo
    · obtain ⟨-, ha, hl, -⟩ := h.autre hj (hmuet (hautre hji hg))
      rw [ha, hl]
      exact h.fifo _ _ hg
  · intro a
    by_cases ha : a = f.adr
    · rw [ha]
      exact hfifo.outs_prefix
    · obtain ⟨-, ha, hl, -⟩ := h.autre hj (hmuet ha)
      rw [ha, hl]
      exact h.ordre a
  · intro a
    by_cases ha : a = f.adr
    · rw [ha]
      exact hemis
    · exact (h.autre hj (hmuet ha)).2.2.2
  · intro j g p hg hp hne
    rcases hlire hg with ⟨rfl, rfl⟩ | ⟨hji, hg'⟩
    · obtain ⟨hvide, hnon⟩ := hnon hne
      exact h.attente_suite hj hatt hf₀ hg hadr hvide hp hne (hnon p)
    · exact h.attente_suite hj hatt hg' hg rfl (vide_not_mem (hmuet (hautre hji hg'))) hp hne
        fun _ => hne

/-- What a transition does to the files keeps them channels. -/
theorem touche (h : s.Canaux) (hpro : s.prochain ≤ s'.prochain) (hj : s'.journal = s.journal ++ k)
    (ht : Fichiers E s s' k) (hatt : s.AttenteFile k s') : s'.Canaux := by
  -- a file that is not emptied keeps its events
  have garde : ∀ {f : File}, .vide f.adr ∉ k →
      depuisVide f.adr s'.journal = depuisVide f.adr s.journal ++ k :=
    fun hv => by rw [hj, depuisVide_append hv]
  cases ht with
  | rien hf hk =>
    have hmuet : ∀ a, ∀ e ∈ k, e.canal ≠ some a := by
      intro a e he
      rw [hk e he]
      nofun
    refine ⟨by rw [hf]; exact h.distinct, ?_, ?_, ?_, ?_, fun a => (h.autre hj (hmuet a)).2.2.2, ?_⟩
    · intro i f hf'
      rw [hf] at hf'
      exact (h.ancien i f hf').trans_le hpro
    · refine h.neuf_suite hpro hj ?_
      intro e he a ha
      exact absurd ha (hmuet a e he)
    · intro i f hf'
      rw [hf] at hf'
      obtain ⟨-, ha, hl, -⟩ := h.autre hj (hmuet f.adr)
      rw [ha, hl]
      exact h.fifo i f hf'
    · intro a
      obtain ⟨-, ha, hl, -⟩ := h.autre hj (hmuet a)
      rw [ha, hl]
      exact h.ordre a
    · intro i f p hf' hp hne
      exact h.attente_suite hj hatt (by rw [← hf]; exact hf') hf' rfl (vide_not_mem (hmuet _)) hp hne
        fun _ => hne
  | @cree i n adr hlibre hadr hm hf =>
    rw [List.append_nil] at hj
    have hlire : ∀ {j : Int} {g : File}, s'.tableauFile j = some g →
        j = i ∧ g.adr = adr ∧ g.queueMsg = [] ∨ j ≠ i ∧ s.tableauFile j = some g := by
      intro j g hg
      rw [hf, Function.update_apply] at hg
      split at hg
      · next hji =>
        rw [← Option.some.inj hg]
        exact .inl ⟨hji, rfl, rfl⟩
      · next hji => exact .inr ⟨hji, hg⟩
    have hne : ∀ {j : Int} {g : File}, s.tableauFile j = some g → g.adr ≠ adr :=
      fun hg hx => absurd (h.ancien _ _ hg) (not_lt.mpr (hx ▸ hadr))
    refine ⟨?_, ?_, h.neuf_suite (k := []) hpro (by rw [hj, List.append_nil]) (by simp), ?_,
      by rw [hj]; exact h.ordre, by rw [hj]; exact h.emis, ?_⟩
    · intro j j' g g' hg hg' hx
      rcases hlire hg with ⟨rfl, hadr, -⟩ | ⟨-, hg⟩ <;> rcases hlire hg' with ⟨rfl, hadr', -⟩ | ⟨-, hg'⟩
      · rfl
      · exact absurd (hx.symm.trans hadr) (hne hg')
      · exact absurd (hx.trans hadr') (hne hg)
      · exact h.distinct _ _ _ _ hg hg' hx
    · intro j g hg
      rcases hlire hg with ⟨-, hadr, -⟩ | ⟨-, hg⟩
      · rw [hadr]
        exact hm
      · exact (h.ancien _ _ hg).trans_le hpro
    · intro j g hg
      rw [hj]
      rcases hlire hg with ⟨-, rfl, hvide⟩ | ⟨-, hg⟩
      · -- nothing is known of a new address
        have hmuet : ∀ e ∈ depuisVide g.adr s.journal, e.canal ≠ some g.adr := by
          intro e he hx
          exact absurd (h.neuf e (mem_of_mem_since he) _ hx) (not_lt.mpr hadr)
        rw [acceptes_muet hmuet, livres_muet hmuet, File.contenu, hvide]
        exact .empty
      · exact h.fifo _ _ hg
    · intro j g p hg hp hnon
      rcases hlire hg with ⟨-, -, hvide⟩ | ⟨-, hg'⟩
      · exact absurd hvide hnon
      · exact h.attente_suite (k := []) (by rw [hj, List.append_nil]) hatt hg' hg rfl (by simp) hp hnon
          fun _ => hnon
  | @vide i f hE hf₀ hf =>
    have hK : depuisVide f.adr s'.journal = [] := by rw [hj, depuisVide_vide]
    refine h.une hf₀ hf rfl hpro hj (by simp [Evenement.canal]) ?_ ?_ hatt (fun hx => absurd rfl hx)
    · rw [hK]
      exact .empty
    · rw [hK]
      exact Justified.nil
  | @supprime i f hE hf₀ hf =>
    rw [List.append_nil] at hj
    have hlire : ∀ {j : Int} {g : File}, s'.tableauFile j = some g → s.tableauFile j = some g := by
      intro j g hg
      rw [hf, Function.update_apply] at hg
      split at hg
      · cases hg
      · exact hg
    refine ⟨fun j j' g g' hg hg' => h.distinct _ _ _ _ (hlire hg) (hlire hg'),
      fun j g hg => (h.ancien _ _ (hlire hg)).trans_le hpro,
      h.neuf_suite (k := []) hpro (by rw [hj, List.append_nil]) (by simp), ?_,
      by rw [hj]; exact h.ordre, by rw [hj]; exact h.emis, ?_⟩
    · intro j g hg
      rw [hj]
      exact h.fifo _ _ (hlire hg)
    · intro j g p hg hp hnon
      exact h.attente_suite (k := []) (by rw [hj, List.append_nil]) hatt (hlire hg) hg rfl (by simp) hp
        hnon fun _ => hnon
  | @remis i v f p q hf₀ hvide hf =>
    have hK := garde (f := f) (by simp)
    have hfifo := h.fifo i f hf₀
    rw [File.contenu, hvide] at hfifo
    refine h.une hf₀ (by rw [hf, Function.update_eq_self_iff.mpr hf₀.symm]) rfl hpro hj
      (by simp [Evenement.canal]) ?_ ?_ hatt fun hx => absurd hvide hx
    · rw [hK, acceptes_append, livres_append, File.contenu, hvide]
      simpa using hfifo.pass
    · rw [hK]
      show Emis f.adr (_ ++ ([_, _] ++ [_]))
      rw [← List.append_assoc]
      exact ((h.emis f.adr).envoi (p := p) (v := v)).append (by simp)
  | @depose i v f p m hf₀ hnon hf =>
    have hK := garde (f := f) (by simp)
    refine h.une hf₀ hf rfl hpro hj (by simp [Evenement.canal]) ?_ ?_ hatt ?_
    · rw [hK, acceptes_append, livres_append]
      simpa [File.contenu] using (h.fifo i f hf₀).push
    · rw [hK]
      exact (h.emis f.adr).envoi
    · refine fun _ => ⟨by simp, fun p hp => ?_⟩
      rcases hnon with hnon | hnon
      · exact hnon
      · have hm : p ∈ s.elems (.file i) := (s.chainage.mem_iff p _).mpr hp
        rw [hnon] at hm
        cases hm
  | @prend i f l msg p m k hf₀ hl hf hk =>
    have hm : ∀ e ∈ k, e.canal ≠ some f.adr := fun e he => by rw [hk e he]; nofun
    have hvide : .vide f.adr ∉ .reception f.adr p m :: .livre f.adr p msg.message :: k := by
      simpa using vide_not_mem hm
    have hK := garde (f := f) hvide
    have hfifo := h.fifo i f hf₀
    have hcontenu : f.contenu = msg.message :: (l.map Message.message).reverse := by
      simp [File.contenu, hl]
    rw [hcontenu] at hfifo
    refine h.une hf₀ hf rfl hpro hj ?_ ?_ ?_ hatt fun _ => ⟨hvide, fun _ _ => by simp [hl]⟩
    · intro e he
      simp only [List.mem_cons] at he
      rcases he with rfl | rfl | he
      · exact .inl rfl
      · exact .inr rfl
      · exact .inl (hk e he)
    · rw [hK, acceptes_append, livres_append, acceptes_reception, acceptes_livre, livres_reception,
        livres_livre, acceptes_muet hm, livres_muet hm, List.append_nil]
      exact hfifo.pop
    · rw [hK]
      exact (h.emis f.adr).append (recu_muet hm)
  | @relaye i f l msg p q a m k hf₀ hl hq hf hk =>
    have hm : ∀ e ∈ k, e.canal ≠ some f.adr := fun e he => by rw [hk e he]; nofun
    have hvide : .vide f.adr ∉ .reception f.adr p m :: .livre f.adr p msg.message ::
        (k ++ [.accepte f.adr q (s.tas q).fileValue]) := by simpa using vide_not_mem hm
    have hK := garde (f := f) hvide
    have hfifo := h.fifo i f hf₀
    have hcontenu : f.contenu = msg.message :: (l.map Message.message).reverse := by
      simp [File.contenu, hl]
    rw [hcontenu] at hfifo
    refine h.une hf₀ hf rfl hpro hj ?_ ?_ ?_ hatt fun _ => ⟨hvide, fun _ _ => by simp [hl]⟩
    · intro e he
      simp only [List.mem_cons, List.mem_append, List.not_mem_nil, or_false] at he
      rcases he with rfl | rfl | he | rfl
      · exact .inl rfl
      · exact .inr rfl
      · exact .inl (hk e he)
      · exact .inr rfl
    · rw [hK, acceptes_append, livres_append, acceptes_reception, acceptes_livre, livres_reception,
        livres_livre, acceptes_append, livres_append, acceptes_muet hm, livres_muet hm]
      simpa [File.contenu] using hfifo.cycle
    · -- the sender that waits is accepted
      have hsend := h.attente i f q hf₀ hq (by simp [hl])
      rw [hK, ← List.cons_append, ← List.cons_append, ← List.append_assoc]
      exact ((h.emis f.adr).append (recu_muet hm)).accepte (List.mem_append_left _ hsend)

end Core.Canaux

-- ---------------------------------------------------------------------------
-- Who waits
-- ---------------------------------------------------------------------------

/-- A process that is not concerned, and that waits on a file, waited on it. -/
theorem Inchange.attenteFile {p : Ptr} {s s' : Core} (h : Inchange p s s') {i : Int} {f : File}
    (hf : s'.tableauFile i = some f) (hp : s'.lien p = some (.file i)) :
    s.lien p = some (.file i) ∧ (s'.tas p).fileValue = (s.tas p).fileValue :=
  ⟨(h.file i f hp hf).1, h.valeur⟩

theorem Evolue.attenteFile {p : Ptr} {s s' : Core} (h : Evolue p s s') (hc' : Coherent s') {i : Int}
    {f : File} (hf : s'.tableauFile i = some f) (hp : s'.lien p = some (.file i)) :
    s.lien p = some (.file i) ∧ (s'.tas p).fileValue = (s.tas p).fileValue := by
  cases h with
  | reste hi => exact hi.attenteFile hf hp
  | libere _ hv =>
    rw [hc'.lie p _ hp] at hv
    cases hv
  | relache _ _ hd =>
    have het : (s'.tas p).etat = .attendFile := hc'.etat_of_lien hp
    rw [het] at hd
    cases hd with
    | meurt _ hm => cases hm

theorem Quiet.attenteFile {l : Etiquette} {s s' : Core} {k : List Evenement} (h : Stable s)
    (he : s.EnCours) (q : Quiet l s s') : s.AttenteFile k s' := by
  intro i f p hf hp _
  have hc' := (h.quiet he q).coherent
  have hv' := hc'.lie p _ hp
  have hne : p ≠ s.procElu := by
    rw [← (h.elu_quiet q).1]
    exact hc'.ne_procElu (h.enCours_quiet he q) hp
  cases hv : s.vivant p with
  | false =>
    -- a new process waits for nothing
    have hctx := q.nouveau h he hv hv'
    rcases (hc'.suspendu p hv').file (hc'.etat_of_lien hp) with hk | ⟨m, hk⟩ <;>
    · rw [hctx] at hk
      cases hk
  | true => exact .inl ((q.evolue h he hv hne).attenteFile hc' hf hp)

/-- The elected process leaves the processor to wait on a file. -/
theorem Sortie.attenteElu {m : Motif} {r : Reprise} {s s' : Core} (q : Sortie m r s s') {i : Int}
    (hl : s.lien s.procElu = none) (het : (s'.tas s.procElu).etat = .attendFile)
    (hp : s'.lien s.procElu = some (.file i)) : ∃ f, s.tableauFile i = some f ∧ (f.queueMsg = [] ∨
      s'.journal = s.journal ++ [.emission f.adr s.procElu (s'.tas s.procElu).fileValue]) := by
  cases q with
  | @emission _ fid v f hidle hf hnon hplein =>
    have hl' : (s.emet f v).lien s.procElu = none := hl
    have hp' : ((s.emet f v).ajoute (.file fid) s.procElu (·.prio)).lien s.procElu =
        some (.file i) := hp
    rw [Core.lien_ajoute hl', if_pos rfl] at hp'
    cases hp'
    refine ⟨f, hf, .inr ?_⟩
    simp [Core.bloqueFile, Core.emet]
  | @reception _ fid f m hidle hf hvide =>
    have hl' : (s.recoit f m).lien s.procElu = none := hl
    have hp' : ((s.recoit f m).ajoute (.file fid) s.procElu (·.prio)).lien s.procElu =
        some (.file i) := hp
    rw [Core.lien_ajoute hl', if_pos rfl] at hp'
    cases hp'
    exact ⟨f, hf, .inl hvide⟩
  | suspend hk =>
    rw [hl] at hp
    cases hp
  | exitZombie hidle hpere =>
    unfold Core.reveillePere at het
    split at het <;> simp [Core.active, Function.update_apply] at het
    split at het <;> simp at het
  | _ => simp at het

theorem Sortie.attenteFile {m : Motif} {r : Reprise} {s s' : Core} {k : List Evenement}
    (h : Stable s) (he : s.EnCours) (q : Sortie m r s s') (hj : s'.journal = s.journal ++ k) :
    s.AttenteFile k (s'.empile r) := by
  intro i f p hf hp hne
  have hc := h.coherent
  have hc' := (h.sortie he q).1.coherent
  have hv : s.vivant p = true := by
    rw [← q.vivant]
    exact hc'.lie p _ hp
  by_cases hpe : p = s.procElu
  · subst hpe
    have helu : s'.procElu = s.procElu := (h.sortie he q).2.elu
    have htas : (s'.empile r).tas s.procElu = { s'.tas s.procElu with contexte := r } := by
      rw [Core.empile, helu, Core.tas_maj, if_pos rfl]
    have het : ((s'.empile r).tas s.procElu).etat = .attendFile := hc'.etat_of_lien hp
    rw [htas] at het ⊢
    obtain ⟨g, hg, hor⟩ := q.attenteElu (hc.lien_procElu he) het hp
    have hfg : g = f := by
      have hf' : s'.tableauFile i = some f := hf
      rw [q.rien.1] at hf
      rw [hg] at hf
      exact Option.some.inj hf
    subst hfg
    rcases hor with hx | hx
    · exact absurd hx hne
    · rw [hj] at hx
      rw [List.append_cancel_left hx]
      exact .inr (by simp)
  · exact .inl ((q.inchange h he hv hpe).attenteFile hf hp)

namespace Core.Canaux

variable {s s' : Core}

theorem conserve {C : Cadre} : Conserve C Core.Canaux where
  quiet hst he h _ q := by
    obtain ⟨k, hj, ht⟩ := q.touche hst
    exact h.touche (q.vieillit hst).prochain hj ht (q.attenteFile hst he)
  sortie hst he h _ q := by
    obtain ⟨hf, k, hj, hk⟩ := q.rien
    exact h.touche (E := fun _ => False) q.vieillit.prochain hj (.rien hf hk) (q.attenteFile hst he hj)
  libere hc h hl := by
    obtain ⟨hf, k, hj, hk⟩ := Core.Touche.Rien.liberation hc (.single hl)
    have hl' : Relation.ReflTransGen Liberation _ _ := .single hl
    refine h.touche (E := fun _ => False) (Vieillit.liberation_pas hc hl).prochain hj (.rien hf hk) ?_
    intro i f p hf' hp _
    have hc' := hc.liberation_pas hl
    have hv := (MemeRegistre.liberation hc hl').vivant p (hc'.lie p _ hp)
    exact .inl ((hc.survit hv hl').evolue.attenteFile hc' hf' hp)
  election hst hvide hna h hel := by
    have hr : ∀ p, Reste p _ _ := fun p => hel.reste hst hvide hna
    refine h.touche (E := fun _ => False) (k := []) (hel.vieillit hst hvide hna).prochain
      (by rw [(hr 0).journal, List.append_nil]) (.rien (hr 0).file (by simp)) ?_
    intro i f p _ hp _
    rcases (hr p).lien _ hp with hx | hx | hx
    · cases hx
    · cases hx
    · exact .inl ⟨hx, (hr p).valeur⟩
  retour v _ _ h :=
    h.touche (E := fun _ => False) le_rfl rfl (.rien rfl (by simp [Evenement.canal]))
      fun _ _ _ _ hp _ => .inl ⟨hp, rfl⟩

/-- Popping the return point of a process just elected. -/
theorem depile {k : Reprise} (h : s.Canaux) : (s.empile k).Canaux := by
  refine h.touche (E := fun _ => False) (k := []) le_rfl (List.append_nil _).symm
    (.rien rfl (by simp)) ?_
  intro i f p _ hp _
  refine .inl ⟨hp, ?_⟩
  rw [Core.empile, Core.tas_maj]
  split
  · next hx => rw [hx]
  · rfl

theorem initial {s : Core} (hf : ∀ i, s.tableauFile i = none) (hj : s.journal = []) : s.Canaux := by
  refine ⟨?_, ?_, by simp [hj], ?_, ?_, ?_, ?_⟩
  · intro i i' f f' h
    rw [hf] at h
    cases h
  · intro i f h
    rw [hf] at h
    cases h
  · intro i f h
    rw [hf] at h
    cases h
  · intro a
    rw [hj]
    exact List.prefix_refl _
  · intro a
    rw [hj]
    exact Justified.nil
  · intro i f p h
    rw [hf] at h
    cases h

end Core.Canaux

-- ---------------------------------------------------------------------------
-- A file that is not emptied
-- ---------------------------------------------------------------------------

/-- The file at `a`, of `n` messages at most, is in entry `fid` and has never
been emptied. -/
structure Core.Ouvert (fid : Int) (a : Ptr) (n : Int) (s : Core) : Prop where
  file : ∃ f, s.tableauFile fid = some f ∧ f.adr = a ∧ f.maxMsg = n
  jamais : .vide a ∉ s.journal

namespace Core.Ouvert

variable {E : Ptr → Prop} {fid n : Int} {a : Ptr} {s s' : Core} {k : List Evenement}

theorem touche (h : s.Ouvert fid a n) (hj : s'.journal = s.journal ++ k)
    (ht : Fichiers E s s' k) (hE : ¬ E a) : s'.Ouvert fid a n := by
  obtain ⟨⟨f, hf, hadr, hn⟩, hjamais⟩ := h
  have hjournal : .vide a ∉ k → .vide a ∉ s'.journal := by
    intro hk hx
    rw [hj] at hx
    rcases List.mem_append.mp hx with hx | hx
    · exact hjamais hx
    · exact hk hx
  -- the file in entry `i` becomes `g`
  have une : ∀ {i : Int} {f₀ g : File}, s.tableauFile i = some f₀ →
      s'.tableauFile = Function.update s.tableauFile i (some g) → g.adr = f₀.adr →
      g.maxMsg = f₀.maxMsg → ∃ f, s'.tableauFile fid = some f ∧ f.adr = a ∧ f.maxMsg = n := by
    intro i f₀ g hf₀ hg hga hgn
    rw [hg]
    by_cases hi : fid = i
    · subst hi
      rw [hf] at hf₀
      cases hf₀
      exact ⟨g, Function.update_self .., hga.trans hadr, hgn.trans hn⟩
    · exact ⟨f, by rw [Function.update_of_ne hi]; exact hf, hadr, hn⟩
  -- a file that is emptied is another one
  have autre : ∀ {i : Int} {f₀ : File}, s.tableauFile i = some f₀ → E f₀.adr →
      fid ≠ i ∧ f₀.adr ≠ a := by
    intro i f₀ hf₀ hE₀
    refine ⟨?_, fun hx => hE (hx ▸ hE₀)⟩
    rintro rfl
    rw [hf] at hf₀
    cases hf₀
    exact hE (hadr ▸ hE₀)
  have sans : ∀ {k : List Evenement}, (∀ e ∈ k, e.canal = none) → .vide a ∉ k :=
    fun hk hx => absurd (hk _ hx) nofun
  cases ht with
  | rien hf' hk => exact ⟨⟨f, by rw [hf']; exact hf, hadr, hn⟩, hjournal (sans hk)⟩
  | @cree i m adr hlibre hfrais hm hf' =>
    have hi : fid ≠ i := by
      rintro rfl
      rw [hf] at hlibre
      cases hlibre
    exact ⟨⟨f, by rw [hf', Function.update_of_ne hi]; exact hf, hadr, hn⟩, hjournal (by simp)⟩
  | @vide i f₀ hE₀ hf₀ hf' =>
    obtain ⟨hi, hne⟩ := autre hf₀ hE₀
    exact ⟨une hf₀ hf' rfl rfl, hjournal (by simpa using hne.symm)⟩
  | @supprime i f₀ hE₀ hf₀ hf' =>
    obtain ⟨hi, -⟩ := autre hf₀ hE₀
    exact ⟨⟨f, by rw [hf', Function.update_of_ne hi]; exact hf, hadr, hn⟩, hjournal (by simp)⟩
  | remis hf₀ hvide hf' => exact ⟨⟨f, by rw [hf']; exact hf, hadr, hn⟩, hjournal (by simp)⟩
  | depose hf₀ hnon hf' => exact ⟨une hf₀ hf' rfl rfl, hjournal (by simp)⟩
  | prend hf₀ hl hf' hk => exact ⟨une hf₀ hf' rfl rfl, hjournal (by simpa using sans hk)⟩
  | relaye hf₀ hl hq hf' hk => exact ⟨une hf₀ hf' rfl rfl, hjournal (by simpa using sans hk)⟩

theorem rien (h : s.Ouvert fid a n) (hf : s'.tableauFile = s.tableauFile)
    (hj : s'.journal = s.journal ++ k) (hk : ∀ e ∈ k, e.canal = none) : s'.Ouvert fid a n := by
  obtain ⟨hfile, hjamais⟩ := h
  refine ⟨by rw [hf]; exact hfile, ?_⟩
  intro hx
  rw [hj] at hx
  rcases List.mem_append.mp hx with hx | hx
  · exact hjamais hx
  · exact absurd (hk _ hx) nofun

theorem conserve {C : Cadre} (hC : ¬ C.efface (.file a)) :
    Conserve C fun s => s.Canaux ∧ s.Ouvert fid a n where
  quiet hst he h hl q := by
    obtain ⟨k, hj, ht⟩ := q.touche hst
    exact ⟨Canaux.conserve.quiet hst he h.1 hl q, h.2.touche hj ht fun hE => hC (hl.2.2.1 _ hE)⟩
  sortie hst he h hm q := by
    obtain ⟨hf, k, hj, hk⟩ := q.rien
    exact ⟨Canaux.conserve.sortie hst he h.1 hm q, h.2.rien hf hj hk⟩
  libere hc h hl := by
    obtain ⟨hf, k, hj, hk⟩ := Core.Touche.Rien.liberation hc (.single hl)
    exact ⟨Canaux.conserve (C := C).libere hc h.1 hl, h.2.rien hf hj hk⟩
  election hst hvide hna h hel := by
    have hr := hel.reste (p := 0) hst hvide hna
    exact ⟨Canaux.conserve (C := C).election hst hvide hna h.1 hel,
      h.2.rien (k := []) hr.file (by rw [hr.journal, List.append_nil]) (by simp)⟩
  retour v hst he h :=
    ⟨Canaux.conserve (C := C).retour v hst he h.1, h.2.rien rfl rfl (by simp [Evenement.canal])⟩

end Core.Ouvert

end GenesisOS
