import GenesisOS.Invariants.Filiation
import GenesisOS.Invariants.Semaphores
import GenesisOS.Lib.Trace

/-!
# GenesisOS — what a semaphore grants

A semaphore is named by the address of its structure. As long as it is neither
reset nor deleted, and none of its waiting processes is terminated
(`Core.Compteur`):

* its counter is its first value, plus the units added, minus the units taken;
* the processes that took a unit are those it was granted to, followed by its
  queue: a process that waits is granted in its turn, because the key of the
  queue, `place`, is 0 for all of them (`Core.Places`).
-/

namespace GenesisOS

open Lib

-- ---------------------------------------------------------------------------
-- The key of the queues
-- ---------------------------------------------------------------------------

/-- Nothing is ever written to the field `place`, which is 0 in a new process. -/
def Core.Places (s : Core) : Prop :=
  ∀ p, s.vivant p = true → p ≠ s.procIdle → (s.tas p).place = 0

/-- No live process has changed `place`. -/
structure MemesPlaces (s s' : Core) : Prop where
  idle : s'.procIdle = s.procIdle
  vivant : ∀ p, s'.vivant p = true → s.vivant p = true
  place : ∀ p, s'.vivant p = true → (s'.tas p).place = (s.tas p).place

namespace MemesPlaces

variable {s s' s'' : Core} {p : Ptr}

theorem refl : MemesPlaces s s := ⟨rfl, fun _ h => h, fun _ _ => rfl⟩

theorem trans (m : MemesPlaces s s') (m' : MemesPlaces s' s'') : MemesPlaces s s'' :=
  ⟨m'.idle.trans m.idle, fun p hv => m.vivant p (m'.vivant p hv),
    fun p hv => (m'.place p hv).trans (m.place p (m'.vivant p hv))⟩

theorem meme (m : MemesPlaces s s') (ht : s''.tas = s'.tas := by rfl)
    (hv : s''.vivant = s'.vivant := by rfl) (hi : s''.procIdle = s'.procIdle := by rfl) :
    MemesPlaces s s'' :=
  m.trans ⟨hi, fun p h => by rwa [hv] at h, fun p _ => by rw [ht]⟩

/-- Other fields of a process change. -/
theorem maj (m : MemesPlaces s s') (p : Ptr) (f : Processus → Processus)
    (ht : s''.tas = (s'.maj p f).tas := by rfl)
    (hf : ∀ r, (f r).place = r.place := by exact fun _ => rfl)
    (hv : s''.vivant = s'.vivant := by rfl) (hi : s''.procIdle = s'.procIdle := by rfl) :
    MemesPlaces s s'' :=
  m.trans ⟨hi, fun p h => by rwa [hv] at h, fun x _ => by
    rw [ht]
    exact Core.champ_maj (g := Processus.place) hf x⟩

theorem emet {f : File} {v : Int} : MemesPlaces s (s.emet f v) :=
  refl.maj s.procElu fun r => { r with fileValue := v, operationStatus := 1 }

theorem recoit {f : File} {m : Nat} : MemesPlaces s (s.recoit f m) :=
  refl.maj s.procElu fun r => { r with fileValue := -1, operationStatus := 1 }

theorem reveillePere (m : MemesPlaces s s') : MemesPlaces s (s'.reveillePere p) := by
  unfold Core.reveillePere
  split
  · exact m.maj p fun r => { r with etat := .activable }
  · exact m

theorem rejets {sid status : Int} {sem : Semaphore}
    (hr : Relation.ReflTransGen (Rejet sid sem status) s s') : MemesPlaces s s' := by
  induction hr with
  | refl => exact refl
  | tail _ hlast ih =>
    obtain ⟨p, hp, rfl⟩ := hlast
    exact ih.maj p fun r => { r with operationStatus := status, etat := .activable }

theorem liberation_pas (h : Coherent s) (hl : Liberation s s') : MemesPlaces s s' := by
  obtain ⟨p, adr, n, hp, hn, L⟩ := h.liberation_spec hl
  refine ⟨L.idle, fun x hx => (L.vivant_of hx).2, fun x _ => ?_⟩
  rw [L.tas]
  split
  · split <;> rfl
  · rfl

theorem liberation (h : Coherent s) (hl : Relation.ReflTransGen Liberation s s') :
    MemesPlaces s s' := by
  induction hl with
  | refl => exact refl
  | tail hrest hlast ih => exact ih.trans (liberation_pas (h.liberation hrest) hlast)

theorem depose : MemesPlaces s s.depose := by
  unfold Core.depose
  split
  · exact refl.meme
  · exact refl.maj s.procElu fun r => { r with etat := .activable }
  · exact refl.maj s.procElu fun r => { r with etat := .activable }
  · exact refl

theorem election (hel : Election s s') : MemesPlaces s s' := by
  cases hel with
  | aucune _ => exact refl
  | @elit p hv hp => exact depose.maj p fun r => { r with etat := .elu }

end MemesPlaces

namespace Core.Places

variable {s s' : Core}

theorem memes (h : s.Places) (m : MemesPlaces s s') : s'.Places := by
  intro p hv hp
  rw [m.idle] at hp
  rw [m.place p hv]
  exact h p (m.vivant p hv) hp

theorem quiet {l : Etiquette} (h : s.Places) (hst : Stable s) (he : s.EnCours)
    (q : Quiet l s s') : s'.Places := by
  have r : MemesPlaces s s := .refl
  cases q with
  | rendPid hl hn ht =>
    refine h.memes ⟨rfl, fun _ hv => hv, fun p hv => ?_⟩
    exact congrArg Processus.place (ht p (hst.coherent.ancien p hv))
  | @cree _ q r cell reste adr n hl hq hn hpid hetat hctx hfils hprio hret hplace =>
    have C := hst.coherent.cree_spec he r reste adr n hq
    intro p hv hp
    by_cases hpq : p = q
    · rw [hpq, C.nouveau]
      exact hplace
    · rw [C.vivant, if_neg hpq] at hv
      rw [← h p hv hp]
      -- the father of `q` gets a child
      simp only [Core.cree, Core.ajoute_tas, Core.note_tas, if_neg hpq]
      split <;> rfl
  | @chprioElu _ n hn hidle => exact h.memes (r.maj s.procElu fun r => { r with prio := n })
  | @chprioActivable _ p n hn hv hpid hp he' => exact h.memes (r.maj p fun r => { r with prio := n })
  | @chprioFile _ p n hn hv hpid hp he' => exact h.memes (r.maj p fun r => { r with prio := n })
  | @chprioAutre _ p n hn hv hpid hp he' => exact h.memes (r.maj p fun r => { r with prio := n })
  | @tueZombie _ p pere t hpid hp hz hm ht hpere =>
    have m : MemesPlaces s (((s.note (.tue p)).retire p).maj p fun r => { r with etat := .zombie }) :=
      r.maj p fun r => { r with etat := .zombie }
    exact h.memes m.reveillePere
  | @tueMourant _ p t hpid hp hz hm ht hpere =>
    exact h.memes (r.maj p fun r => { r with etat := .mourant })
  | @recolte _ c l hc hz hl =>
    have m : MemesPlaces s (s.maj s.procElu fun r => { r with filsTete := l }) := r.maj _ _
    exact h.memes (m.maj c fun r => { r with etat := .mourant, pere := none })
  | liberation hl hvide => exact h.memes (.liberation hst.coherent hl)
  | @reveil _ p hp => exact h.memes (r.maj p fun r => { r with etat := .activable })
  | @reveilEs _ p hp => exact h.memes (r.maj p fun r => { r with etat := .activable })
  | @echec _ fid f p hf hp =>
    exact h.memes (r.maj p fun r => { r with fid := -1, operationStatus := 0, etat := .activable })
  | @remis _ fid v f p hidle hf hvide hp =>
    have m : MemesPlaces s (s.emet f v) := .emet
    exact h.memes (m.maj p fun r =>
      { r with fid := -1, fileValue := v, operationStatus := 1, etat := .activable })
  | @depose _ fid v f adr n hidle hf hnon hlt hn =>
    have m : MemesPlaces s (s.emet f v) := .emet
    exact h.memes m.meme
  | @prend _ fid f l msg m hidle hf hl hp =>
    have m₁ : MemesPlaces s (s.recoit f m) := .recoit
    exact h.memes m₁.meme
  | @relaye _ fid f l msg p a m n hidle hf hl hp hn =>
    have m₁ : MemesPlaces s (s.recoit f m) := .recoit
    exact h.memes (m₁.maj p fun r => { r with fid := -1, operationStatus := 1, etat := .activable })
  | sdelete hs hr hp hn hb => exact h.memes (MemesPlaces.rejets hr).meme
  | sreset hs hr hp h0 hcount hb => exact h.memes (MemesPlaces.rejets hr).meme
  | @signaleReveil _ sid sem p hs hmax hneg hp =>
    exact h.memes (r.maj p fun r => { r with operationStatus := 1, etat := .activable })
  | _ => exact h.memes r.meme

theorem sortie {m : Motif} {k : Reprise} (h : s.Places) (q : Sortie m k s s') :
    (s'.empile k).Places := by
  have r : MemesPlaces s s := .refl
  suffices hm : MemesPlaces s s' from h.memes (hm.maj s'.procElu fun r => { r with contexte := k })
  cases q with
  | suspend hk => exact r
  | @endort _ t hidle => exact r.maj s.procElu fun r => { r with etat := .endormi, secReveille := t }
  | @emission _ fid v f hidle hf hnon hplein =>
    have m : MemesPlaces s (s.emet f v) := .emet
    exact (m.maj s.procElu fun r => { r with fid := fid }).maj s.procElu
      fun r => { r with etat := .attendFile }
  | @reception _ fid f m hidle hf hvide =>
    have m : MemesPlaces s (s.recoit f m) := .recoit
    exact (m.maj s.procElu fun r => { r with fid := fid }).maj s.procElu
      fun r => { r with etat := .attendFile }
  | wait hidle hs hmin hneg => exact r.maj s.procElu fun r => { r with etat := .attendSemaphore }
  | consRead hidle => exact r.maj s.procElu fun r => { r with etat := .attendEs }
  | waitpid hidle hcf hpid h0 hz => exact r.maj s.procElu _
  | waitpidFils hidle hne hz h0 => exact r.maj s.procElu _
  | @exitZombie _ v pere hidle hpere =>
    have m : MemesPlaces s ((s.maj s.procElu fun r => { r with retval := v }).note
        (.exit s.procElu v)) := r.maj s.procElu fun r => { r with retval := v }
    have m₁ : MemesPlaces s (((s.maj s.procElu fun r => { r with retval := v }).note
        (.exit s.procElu v)).maj s.procElu fun r => { r with etat := .zombie }) := m.maj s.procElu _
    exact m₁.reveillePere
  | @exitMourant _ v hidle hpere =>
    have m : MemesPlaces s ((s.maj s.procElu fun r => { r with retval := v }).note
        (.exit s.procElu v)) := r.maj s.procElu fun r => { r with retval := v }
    exact m.maj s.procElu fun r => { r with etat := .mourant }
  | suicideZombie hidle hpere => exact r.maj s.procElu fun r => { r with etat := .zombie }
  | suicideMourant hidle hpere => exact r.maj s.procElu fun r => { r with etat := .mourant }

theorem conserve {C : Cadre} : Conserve C Core.Places where
  quiet hst he h _ q := h.quiet hst he q
  sortie _ _ h _ q := h.sortie q
  libere hc h hl := h.memes (.liberation_pas hc hl)
  election _ _ _ h hel := h.memes (.election hel)
  retour _ _ _ h := h.memes MemesPlaces.refl.meme

end Core.Places

-- ---------------------------------------------------------------------------
-- What the journal says of a semaphore
-- ---------------------------------------------------------------------------

/-- The processes that took a unit of the semaphore at `a`, or asked for one. -/
def prises (a : Ptr) (j : List Evenement) : List Ptr :=
  j.filterMap fun
    | .semPrise b p => if b = a then some p else none
    | _ => none

/-- The processes that were granted a unit of it. -/
def accordes (a : Ptr) (j : List Evenement) : List Ptr :=
  j.filterMap fun
    | .semAccorde b p => if b = a then some p else none
    | _ => none

/-- The processes that added a unit to it. -/
def unites (a : Ptr) (j : List Evenement) : List Ptr :=
  j.filterMap fun
    | .semUnite b p => if b = a then some p else none
    | _ => none

/-- What an event makes of the holders `l` of units of the semaphore at `a`. -/
def Evenement.detient (a : Ptr) (l : List Ptr) : Evenement → List Ptr
  | .semAccorde b p => if b = a then p :: l else l
  | .semUnite b p => if b = a then l.erase p else l
  | _ => l

/-- The processes that were granted a unit of it and have not added one since. -/
def detenteurs (a : Ptr) (j : List Evenement) : List Ptr := j.foldl (Evenement.detient a) []

section

variable {a p : Ptr} {j k : List Evenement}

theorem prises_append : prises a (j ++ k) = prises a j ++ prises a k := List.filterMap_append ..

theorem accordes_append : accordes a (j ++ k) = accordes a j ++ accordes a k :=
  List.filterMap_append ..

theorem unites_append : unites a (j ++ k) = unites a j ++ unites a k := List.filterMap_append ..

@[simp] theorem prises_prise : prises a (.semPrise a p :: k) = p :: prises a k := by simp [prises]

@[simp] theorem prises_accorde : prises a (.semAccorde a p :: k) = prises a k := rfl

@[simp] theorem prises_unite : prises a (.semUnite a p :: k) = prises a k := rfl

@[simp] theorem prises_nil : prises a [] = [] := rfl

@[simp] theorem accordes_prise : accordes a (.semPrise a p :: k) = accordes a k := rfl

@[simp] theorem accordes_accorde : accordes a (.semAccorde a p :: k) = p :: accordes a k := by
  simp [accordes]

@[simp] theorem accordes_unite : accordes a (.semUnite a p :: k) = accordes a k := rfl

@[simp] theorem accordes_nil : accordes a [] = [] := rfl

@[simp] theorem unites_prise : unites a (.semPrise a p :: k) = unites a k := rfl

@[simp] theorem unites_accorde : unites a (.semAccorde a p :: k) = unites a k := rfl

@[simp] theorem unites_unite : unites a (.semUnite a p :: k) = p :: unites a k := by simp [unites]

@[simp] theorem unites_nil : unites a [] = [] := rfl

/-- Events of other semaphores. -/
theorem jeton_muet (h : ∀ e ∈ k, e.jeton ≠ some a) :
    prises a k = [] ∧ accordes a k = [] ∧ unites a k = [] := by
  refine ⟨List.filterMap_eq_nil_iff.mpr ?_, List.filterMap_eq_nil_iff.mpr ?_,
    List.filterMap_eq_nil_iff.mpr ?_⟩
  · intro e he
    have hne := h e he
    cases e with
    | semPrise b => exact if_neg fun hx => hne (congrArg some hx)
    | _ => rfl
  · intro e he
    have hne := h e he
    cases e with
    | semAccorde b => exact if_neg fun hx => hne (congrArg some hx)
    | _ => rfl
  · intro e he
    have hne := h e he
    cases e with
    | semUnite b => exact if_neg fun hx => hne (congrArg some hx)
    | _ => rfl

/-- If only the holders add units, each unit granted is held or was added. -/
theorem detenteurs_length (h : Justified (fun j e => ∀ p, e = .semUnite a p → p ∈ detenteurs a j) j) :
    (detenteurs a j).length + (unites a j).length = (accordes a j).length := by
  induction j using List.reverseRecOn with
  | nil => rfl
  | append_singleton j e ih =>
    have hj := ih fun j₁ e' j₂ hj => h j₁ e' (j₂ ++ [e]) (by rw [hj, List.append_assoc]; rfl)
    have he := h j e [] rfl
    have hd : detenteurs a (j ++ [e]) = e.detient a (detenteurs a j) := List.foldl_append ..
    rw [unites_append, accordes_append, List.length_append, List.length_append, hd]
    cases e with
    | semAccorde b p =>
      rw [Evenement.detient]
      by_cases hb : b = a
      · subst hb
        rw [if_pos rfl, List.length_cons, accordes_accorde]
        simp
        omega
      · have hm := jeton_muet (a := a) (k := [.semAccorde b p]) (by simpa [Evenement.jeton] using hb)
        rw [hm.2.1, hm.2.2, if_neg hb]
        simpa using hj
    | semUnite b p =>
      rw [Evenement.detient]
      by_cases hb : b = a
      · subst hb
        have hp := List.length_erase_of_mem (he p rfl)
        have hpos := List.length_pos_of_mem (he p rfl)
        rw [if_pos rfl, hp, unites_unite]
        simp
        omega
      · have hm := jeton_muet (a := a) (k := [.semUnite b p]) (by simpa [Evenement.jeton] using hb)
        rw [hm.2.1, hm.2.2, if_neg hb]
        simpa using hj
    | _ => exact hj

end

-- ---------------------------------------------------------------------------
-- The addresses of semaphores
-- ---------------------------------------------------------------------------

/-- The semaphores, and those the journal names, are at addresses already used. -/
structure Core.AdressesSem (s : Core) : Prop where
  table : ∀ i x, s.tableauSem i = some x → x.adr < s.prochain
  journal : ∀ e ∈ s.journal, ∀ a, e.jeton = some a → a < s.prochain

namespace Core.AdressesSem

variable {E : Ptr → Prop} {K : Int → Prop} {s s' : Core} {k : List Evenement}

/-- No address but those of existing semaphores and new ones. -/
theorem suite (h : s.AdressesSem) (hpro : s.prochain ≤ s'.prochain) (hj : s'.journal = s.journal ++ k)
    (htable : ∀ i y, s'.tableauSem i = some y →
      (∃ x, s.tableauSem i = some x ∧ x.adr = y.adr) ∨ y.adr < s'.prochain)
    (hk : ∀ e ∈ k, ∀ a, e.jeton = some a →
      (∃ i x, s.tableauSem i = some x ∧ x.adr = a) ∨ a < s'.prochain) : s'.AdressesSem := by
  refine ⟨?_, ?_⟩
  · intro i y hy
    rcases htable i y hy with ⟨x, hx, hadr⟩ | hm
    · rw [← hadr]
      exact (h.table i x hx).trans_le hpro
    · exact hm
  · intro e he a ha
    rw [hj] at he
    rcases List.mem_append.mp he with he | he
    · exact (h.journal e he a ha).trans_le hpro
    · rcases hk e he a ha with ⟨i, x, hx, rfl⟩ | hm
      · exact (h.table i x hx).trans_le hpro
      · exact hm

theorem memes (h : s.AdressesSem) (m : MemesSem s s') (hpro : s.prochain ≤ s'.prochain)
    (hj : s'.journal = s.journal ++ k) (hk : ∀ e ∈ k, e.jeton = none) : s'.AdressesSem := by
  refine h.suite hpro hj ?_ ?_
  · intro i y hy
    rw [m.sem] at hy
    exact .inl ⟨y, hy, rfl⟩
  · intro e he a ha
    rw [hk e he] at ha
    cases ha

theorem jetonne (h : s.AdressesSem) (hpro : s.prochain ≤ s'.prochain) (ht : Core.Jetonne E K s s') :
    s'.AdressesSem := by
  obtain ⟨k, hj, ht⟩ := ht
  -- the entry that changes, if any, holds a semaphore at the address of `x` or none
  have un : ∀ {i : Int} {x : Semaphore}, AutresSem i s s' → s.tableauSem i = some x →
      (∀ y, s'.tableauSem i = some y → y.adr = x.adr) →
      (∀ e ∈ k, e.jeton = some x.adr) → s'.AdressesSem := by
    intro i x m hx hy hk
    refine h.suite hpro hj ?_ ?_
    · intro i' y hy'
      by_cases hi : i' = i
      · subst hi
        exact .inl ⟨x, hx, (hy y hy').symm⟩
      · rw [m.sem i' hi] at hy'
        exact .inl ⟨y, hy', rfl⟩
    · intro e he a ha
      rw [hk e he] at ha
      exact .inl ⟨i, x, hx, Option.some.inj ha⟩
  have meme : ∀ {i : Int} {x y : Semaphore}, s'.tableauSem i = some y → y.adr = x.adr →
      ∀ z, s'.tableauSem i = some z → z.adr = x.adr := by
    intro i x y hy hadr z hz
    rw [hy] at hz
    rw [← Option.some.inj hz, hadr]
  cases ht with
  | rien m hk => exact h.memes m hpro hj hk
  | @cree i x m hlibre hfrais hm hs h0 hf =>
    refine h.suite hpro hj ?_ ?_
    · intro i' y hy
      by_cases hi : i' = i
      · subst hi
        rw [hs] at hy
        rw [← Option.some.inj hy]
        exact .inr hm
      · rw [m.sem i' hi] at hy
        exact .inl ⟨y, hy, rfl⟩
    · intro e he a ha
      rw [List.mem_singleton.mp he] at ha
      rw [← Option.some.inj ha]
      exact .inr hm
  | efface m hs₀ hE hs hf hk =>
    refine un m hs₀ (fun y hy => (hs y hy).1) fun e he => ?_
    obtain ⟨p, v, rfl⟩ := hk e he
    rfl
  | @perd i k p m hK hs hf hk =>
    refine h.suite hpro hj ?_ fun e he a ha => ?_
    · intro i' y hy
      by_cases hi : i' = i
      · subst hi
        rw [hs] at hy
        exact .inl ⟨y, hy, rfl⟩
      · rw [m.sem i' hi] at hy
        exact .inl ⟨y, hy, rfl⟩
    · rw [hk e he] at ha
      cases ha
  | unite m hs₀ hpos hs hadr => exact un m hs₀ (meme hs hadr) (by simp [Evenement.jeton])
  | reveil m hs₀ hneg hs hadr => exact un m hs₀ (meme hs hadr) (by simp [Evenement.jeton])
  | prise m hs₀ hpos hs hadr => exact un m hs₀ (meme hs hadr) (by simp [Evenement.jeton])
  | attend m hs₀ hneg hs hadr => exact un m hs₀ (meme hs hadr) (by simp [Evenement.jeton])

theorem conserve {C : Cadre} : Conserve C Core.AdressesSem where
  quiet hst he h _ q := h.jetonne (q.vieillit hst).prochain (q.jetonne hst he)
  sortie hst he h _ q := h.jetonne q.vieillit.prochain (q.jetonne hst.coherent he)
  libere hc h hl := by
    obtain ⟨k, hj, hk⟩ := Ajoute.liberation hc (.single hl)
    refine h.memes (hc.memesSem_liberation_pas hl) (Vieillit.liberation_pas hc hl).prochain hj ?_
    intro e he
    obtain ⟨q, rfl⟩ := hk e he
    rfl
  election hst hvide hna h hel := by
    have hj := (hel.reste (p := 0) hst hvide hna).journal
    exact h.memes (hst.memesSem_election hvide hna hel) (hel.vieillit hst hvide hna).prochain
      (k := []) (by rw [hj, List.append_nil]) (by simp)
  retour _ _ _ h := h.memes ⟨rfl, fun _ => rfl⟩ le_rfl rfl (by simp [Evenement.jeton])

end Core.AdressesSem

-- ---------------------------------------------------------------------------
-- The invariant
-- ---------------------------------------------------------------------------

/-- The semaphore at `a` is in entry `sid`, its first value was `c`, and it has
granted units in the order in which they were taken. -/
structure Core.Compteur (sid : Int) (a : Ptr) (c : Int) (s : Core) : Prop where
  sem : ∃ x, s.tableauSem sid = some x ∧ x.adr = a ∧
    x.count = c + (unites a s.journal).length - (prises a s.journal).length ∧
      ((s.elems (.semaphore sid)).length : Int) = max 0 (-x.count)
  seul : ∀ i x, s.tableauSem i = some x → x.adr = a → i = sid
  ancien : a < s.prochain
  fifo : Fifo (prises a s.journal) (accordes a s.journal) (s.elems (.semaphore sid)).reverse
  admis : ∀ p v, .semRejet a p v ∉ s.journal

namespace Core.Compteur

variable {E : Ptr → Prop} {K : Int → Prop} {sid c : Int} {a : Ptr} {s s' : Core}
  {k : List Evenement}

/-- The transition concerns another semaphore. -/
theorem autre (h : s.Compteur sid a c) (hpro : s.prochain ≤ s'.prochain)
    (hj : s'.journal = s.journal ++ k) (hk : ∀ e ∈ k, e.jeton ≠ some a) {i : Int} (hi : sid ≠ i)
    (m : AutresSem i s s') (hseul : ∀ y, s'.tableauSem i = some y → y.adr ≠ a) :
    s'.Compteur sid a c := by
  obtain ⟨hp, ha, hu⟩ := jeton_muet hk
  have hp' : prises a s'.journal = prises a s.journal := by
    rw [hj, prises_append, hp, List.append_nil]
  have ha' : accordes a s'.journal = accordes a s.journal := by
    rw [hj, accordes_append, ha, List.append_nil]
  have hu' : unites a s'.journal = unites a s.journal := by
    rw [hj, unites_append, hu, List.append_nil]
  refine ⟨?_, ?_, h.ancien.trans_le hpro, ?_, ?_⟩
  · rw [m.sem sid hi, m.elems sid hi, hp', hu']
    exact h.sem
  · intro i' x hx hadr
    by_cases hii : i' = i
    · subst hii
      exact absurd hadr (hseul x hx)
    · rw [m.sem i' hii] at hx
      exact h.seul i' x hx hadr
  · rw [m.elems sid hi, hp', ha']
    exact h.fifo
  · intro p v hm
    rw [hj] at hm
    rcases List.mem_append.mp hm with hm | hm
    · exact h.admis p v hm
    · exact hk _ hm rfl

/-- The transition concerns this semaphore: `k` accounts for its new counter and
its new queue. -/
theorem un {x y : Semaphore} (h : s.Compteur sid a c) (hpro : s.prochain ≤ s'.prochain)
    (hj : s'.journal = s.journal ++ k) (m : AutresSem sid s s') (hs₀ : s.tableauSem sid = some x)
    (hs : s'.tableauSem sid = some y) (hadr : y.adr = x.adr)
    (hc : y.count = x.count + (unites a k).length - (prises a k).length)
    (hlen : ((s.elems (.semaphore sid)).length : Int) = max 0 (-x.count) →
      ((s'.elems (.semaphore sid)).length : Int) = max 0 (-y.count))
    (hfifo : Fifo (prises a (s.journal ++ k)) (accordes a (s.journal ++ k))
      (s'.elems (.semaphore sid)).reverse) (hrej : ∀ p v, .semRejet a p v ∉ k) :
    s'.Compteur sid a c := by
  obtain ⟨x', hx, hax, hcx, hle⟩ := h.sem
  rw [hs₀] at hx
  cases hx
  refine ⟨⟨y, hs, hadr.trans hax, ?_, hlen hle⟩, ?_, h.ancien.trans_le hpro, by rwa [hj], ?_⟩
  · rw [hc, hcx, hj, unites_append, prises_append, List.length_append, List.length_append]
    push_cast
    omega
  · intro i z hz hzadr
    by_cases hi : i = sid
    · exact hi
    · rw [m.sem i hi] at hz
      exact h.seul i z hz hzadr
  · intro p v hm
    rw [hj] at hm
    rcases List.mem_append.mp hm with hm | hm
    · exact h.admis p v hm
    · exact hrej p v hm

theorem jetonne (h : s.Compteur sid a c) (hpl : s.Places) (hc : Coherent s)
    (hpro : s.prochain ≤ s'.prochain) (ht : Core.Jetonne E K s s') (hE : ¬ E a) (hK : ¬ K sid) :
    s'.Compteur sid a c := by
  obtain ⟨k, hj, ht⟩ := ht
  obtain ⟨x, hx, hax, hcx, hle⟩ := h.sem
  -- a semaphore in another entry is another one, and the one in this entry is at `a`
  have ailleurs : ∀ {i : Int} {z : Semaphore}, s.tableauSem i = some z → sid ≠ i → z.adr ≠ a :=
    fun hz hi hadr => hi (h.seul _ _ hz hadr).symm
  have ici : ∀ {z : Semaphore}, s.tableauSem sid = some z → z = x := by
    intro z hz
    rw [hx] at hz
    exact (Option.some.inj hz).symm
  have seul : ∀ {i : Int} {z y : Semaphore}, s.tableauSem i = some z → sid ≠ i →
      s'.tableauSem i = some y → y.adr = z.adr → ∀ y', s'.tableauSem i = some y' → y'.adr ≠ a := by
    intro i z y hz hi hy hadr y' hy'
    rw [hy] at hy'
    rw [← Option.some.inj hy', hadr]
    exact ailleurs hz hi
  cases ht with
  | rien m hk =>
    refine h.autre hpro hj (fun e he hx => ?_) (i := sid + 1) (by omega)
      ⟨fun _ _ => by rw [m.sem], fun i _ => m.elems i⟩ ?_
    · rw [hk e he] at hx
      cases hx
    · intro y hy
      rw [m.sem] at hy
      exact ailleurs hy (by omega)
  | @cree i y m hlibre hfrais hm hs h0 hf =>
    have hne : y.adr ≠ a := (h.ancien.trans_le hfrais).ne'
    refine h.autre hpro hj (by simpa [Evenement.jeton] using hne) ?_ m ?_
    · rintro rfl
      rw [hx] at hlibre
      cases hlibre
    · intro y' hy'
      rw [hs] at hy'
      rwa [← Option.some.inj hy']
  | @efface i z k m hs₀ hEz hs hf hk =>
    have hi : sid ≠ i := by
      rintro rfl
      obtain rfl := ici hs₀
      exact hE (hax ▸ hEz)
    refine h.autre hpro hj ?_ hi m fun y hy => by rw [(hs y hy).1]; exact ailleurs hs₀ hi
    intro e he
    obtain ⟨p, v, rfl⟩ := hk e he
    exact fun hx => ailleurs hs₀ hi (Option.some.inj hx)
  | @perd i k p m hKi hs hf hk =>
    have hi : sid ≠ i := by
      rintro rfl
      exact hK hKi
    refine h.autre hpro hj (fun e he hx => ?_) hi m fun y hy => ailleurs (hs ▸ hy) hi
    rw [hk e he] at hx
    cases hx
  | @unite i z y p m hs₀ hpos hs hadr hcount hf =>
    by_cases hi : sid = i
    · subst hi
      obtain rfl := ici hs₀
      subst hax
      refine h.un hpro hj m hs₀ hs hadr (by simp [hcount]) ?_ ?_ (by simp)
      · rw [hf, hcount]
        exact fun hold => signal_libre hold hpos
      · rw [hf, prises_append, accordes_append]
        simpa using h.fifo
    · exact h.autre hpro hj (by simpa [Evenement.jeton] using ailleurs hs₀ hi) hi m
        (seul hs₀ hi hs hadr)
  | @reveil i z y p q m hs₀ hneg hs hadr hcount hf =>
    by_cases hi : sid = i
    · subst hi
      obtain rfl := ici hs₀
      subst hax
      refine h.un hpro hj m hs₀ hs hadr (by simp [hcount]) ?_ ?_ (by simp)
      · rw [hf, List.length_append, List.length_singleton, hcount]
        exact fun hold => signal_attente hold hneg
      · -- the head of the queue is granted
        have hfifo := h.fifo
        rw [hf, List.reverse_append] at hfifo
        rw [prises_append, accordes_append]
        simpa using hfifo.pop
    · exact h.autre hpro hj (by simpa [Evenement.jeton] using ailleurs hs₀ hi) hi m
        (seul hs₀ hi hs hadr)
  | @prise i z y p m hs₀ hpos hs hadr hcount hf =>
    by_cases hi : sid = i
    · subst hi
      obtain rfl := ici hs₀
      subst hax
      have hvide : s.elems (.semaphore sid) = [] := by
        refine List.length_eq_zero_iff.mp ?_
        omega
      refine h.un hpro hj m hs₀ hs hadr (by simp [hcount]) ?_ ?_ (by simp)
      · rw [hf, hcount]
        exact fun hold => prise_libre hold hpos
      · have hfifo := h.fifo
        rw [hf]
        rw [hvide] at hfifo ⊢
        rw [prises_append, accordes_append]
        simpa using hfifo.pass
    · exact h.autre hpro hj (by simpa [Evenement.jeton] using ailleurs hs₀ hi) hi m
        (seul hs₀ hi hs hadr)
  | @attend i z y p m hs₀ hneg hs hadr hcount hv hidle hf =>
    by_cases hi : sid = i
    · subst hi
      obtain rfl := ici hs₀
      subst hax
      refine h.un hpro hj m hs₀ hs hadr (by simp [hcount]) ?_ ?_ (by simp)
      · rw [hf, hcount, List.orderedInsert_length]
        exact fun hold => prise_attente hold hneg
      · -- all the keys are 0: the caller waits behind the others
        have hcle : ∀ q ∈ s.elems (.semaphore sid), (s.tas p).place ≤ (s.tas q).place := by
          intro q hq
          have hl : s.lien q = some (.semaphore sid) := LinkedQueues.link_of_mem hq
          have het : (s.tas q).etat = .attendSemaphore := hc.etat_of_lien hl
          rw [hpl p hv hidle, hpl q (hc.lie q _ hl) (hc.ne_idle_of_etat (by rw [het]; nofun)
            (by rw [het]; nofun))]
        rw [hf, insertByKey_of_le hcle, List.reverse_cons, prises_append, accordes_append]
        simpa using h.fifo.push
    · exact h.autre hpro hj (by simpa [Evenement.jeton] using ailleurs hs₀ hi) hi m
        (seul hs₀ hi hs hadr)

/-- Nothing happens to the semaphores. -/
theorem memes (h : s.Compteur sid a c) (m : MemesSem s s') (hpro : s.prochain ≤ s'.prochain)
    (hj : s'.journal = s.journal ++ k) (hk : ∀ e ∈ k, e.jeton = none) : s'.Compteur sid a c := by
  refine h.autre hpro hj (fun e he hx => ?_) (i := sid + 1) (by omega)
    ⟨fun _ _ => by rw [m.sem], fun i _ => m.elems i⟩ ?_
  · rw [hk e he] at hx
    cases hx
  · intro y hy
    rw [m.sem] at hy
    exact fun hadr => absurd (h.seul _ _ hy hadr) (by omega)

theorem conserve {C : Cadre} (hE : ¬ C.efface (.sem a)) (hK : ¬ C.victime (.semaphore sid)) :
    Conserve C fun s => s.Places ∧ s.Compteur sid a c where
  quiet hst he h hl q :=
    ⟨h.1.quiet hst he q, h.2.jetonne h.1 hst.coherent (q.vieillit hst).prochain
      (q.jetonne hst he) (fun hx => hE (hl.2.2.1 _ hx)) fun hx => hK (hl.1 _ hx)⟩
  sortie hst he h _ q :=
    ⟨h.1.sortie q, h.2.jetonne h.1 hst.coherent q.vieillit.prochain (q.jetonne hst.coherent he) id id⟩
  libere hc h hl := by
    obtain ⟨k, hj, hk⟩ := Ajoute.liberation hc (.single hl)
    refine ⟨h.1.memes (.liberation_pas hc hl), h.2.memes (hc.memesSem_liberation_pas hl)
      (Vieillit.liberation_pas hc hl).prochain hj fun e he => ?_⟩
    obtain ⟨q, rfl⟩ := hk e he
    rfl
  election hst hvide hna h hel := by
    have hj := (hel.reste (p := 0) hst hvide hna).journal
    exact ⟨h.1.memes (.election hel), h.2.memes (hst.memesSem_election hvide hna hel)
      (hel.vieillit hst hvide hna).prochain (k := []) (by rw [hj, List.append_nil]) (by simp)⟩
  retour _ _ _ h :=
    ⟨h.1.memes MemesPlaces.refl.meme,
      h.2.memes ⟨rfl, fun _ => rfl⟩ le_rfl rfl (by simp [Evenement.jeton])⟩

end Core.Compteur

end GenesisOS
