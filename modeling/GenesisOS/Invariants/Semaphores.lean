import GenesisOS.Abstract.Lives

/-!
# GenesisOS — semaphore counters

`Jetons` says once what a transition can do to the semaphores, beside the
events it records. A negative counter counts the waiting processes (`Compte`).
Every transition keeps this, except the `kill` of a process that waits on a
semaphore: it leaves the queue and the counter is not told.
-/

namespace GenesisOS

open Lib

/-- The counter of a semaphore agrees with its waiting queue. -/
def Core.Compte (s : Core) : Prop :=
  ∀ sid sem, s.tableauSem sid = some sem →
    ((s.elems (.semaphore sid)).length : Int) = max 0 (-sem.count)

/-- The queues of semaphores and the counters are the same. -/
structure MemesSem (s s' : Core) : Prop where
  sem : s'.tableauSem = s.tableauSem
  elems : ∀ sid, s'.elems (.semaphore sid) = s.elems (.semaphore sid)

/-- The two states differ at the semaphore `sid` only. -/
structure AutresSem (sid : Int) (s s' : Core) : Prop where
  sem : ∀ i, i ≠ sid → s'.tableauSem i = s.tableauSem i
  elems : ∀ i, i ≠ sid → s'.elems (.semaphore i) = s.elems (.semaphore i)

namespace Core.Compte

variable {s s' : Core} {sid : Int}

theorem congr (h : s.Compte) (m : MemesSem s s') : s'.Compte := by
  intro sid sem hs
  rw [m.sem] at hs
  rw [m.elems]
  exact h sid sem hs

/-- One semaphore changes, and agrees with its queue afterwards. -/
theorem autre {n : Int} (h : s.Compte) (m : AutresSem n s s')
    (hn : ∀ sem, s'.tableauSem n = some sem →
      ((s'.elems (.semaphore n)).length : Int) = max 0 (-sem.count)) : s'.Compte := by
  intro i sem hs
  by_cases hi : i = n
  · subst hi
    exact hn sem hs
  · rw [m.sem i hi] at hs
    rw [m.elems i hi]
    exact h i sem hs

end Core.Compte

namespace Coherent

variable {s s' : Core}

theorem memesSem_liberation_pas (h : Coherent s) (hl : Liberation s s') : MemesSem s s' := by
  obtain ⟨p, adr, n, hp, hn, L⟩ := h.liberation_spec hl
  exact ⟨L.sem, fun sid => L.elems _ (by simp)⟩

theorem memesSem_liberation (h : Coherent s) (hl : Relation.ReflTransGen Liberation s s') :
    MemesSem s s' := by
  induction hl with
  | refl => exact ⟨rfl, fun _ => rfl⟩
  | tail hrest hlast ih =>
    have m := (h.liberation hrest).memesSem_liberation_pas hlast
    exact ⟨m.sem.trans ih.sem, fun sid => (m.elems sid).trans (ih.elems sid)⟩

end Coherent

theorem Stable.memesSem_election {s s' : Core} (h : Stable s) (hvide : s.elems .procMourants = [])
    (hna : (s.tas s.procElu).etat ≠ .activable) (hel : Election s s') : MemesSem s s' := by
  cases hel with
  | aucune _ => exact ⟨rfl, fun _ => rfl⟩
  | @elit p hv hp =>
    have D := h.depose hv hna hvide
    refine ⟨s.depose_tables.2.1, fun sid => ?_⟩
    exact (Core.elems_elit (LinkedQueues.link_of_top hp) (by simp)).trans
      (D.elems _ (by simp) (by simp))

theorem AutresSem.refl {sid : Int} {s : Core} : AutresSem sid s s := ⟨fun _ _ => rfl, fun _ _ => rfl⟩

theorem AutresSem.trans {sid : Int} {s s' s'' : Core} (m : AutresSem sid s s')
    (m' : AutresSem sid s' s'') : AutresSem sid s s'' where
  sem i hi := (m'.sem i hi).trans (m.sem i hi)
  elems i hi := (m'.elems i hi).trans (m.elems i hi)

theorem autresSem_eveille {s : Core} {sid : Int} {p : Ptr} (hp : s.lien p = some (.semaphore sid))
    (f : Processus → Processus) : AutresSem sid s (s.eveille p f) where
  sem _ _ := rfl
  elems i hi := Core.elems_eveille_of_ne hp (by simpa using hi) (by simp)

theorem autresSem_majSem {s : Core} {sid : Int} {sem : Option Semaphore} :
    AutresSem sid s (s.majSem sid sem) where
  sem i hi := by simp [hi]
  elems _ _ := rfl

theorem autresSem_rejets {s s' : Core} {sid : Int} {sem : Semaphore} {status : Int}
    (hr : Relation.ReflTransGen (Rejet sid sem status) s s') : AutresSem sid s s' := by
  induction hr with
  | refl => exact .refl
  | tail _ hlast ih =>
    obtain ⟨p, hp, rfl⟩ := hlast
    have m := autresSem_eveille (LinkedQueues.link_of_top hp)
      fun r => { r with operationStatus := status }
    exact ih.trans ⟨m.sem, m.elems⟩

-- the four ways a counter changes, `n` being the length of the queue

theorem signal_libre {n : Nat} {c : Int} (h : (n : Int) = max 0 (-c)) (hc : 0 < c + 1) :
    (n : Int) = max 0 (-(c + 1)) := by omega

theorem signal_attente {n : Nat} {c : Int} (h : ((n + 1 : Nat) : Int) = max 0 (-c))
    (hc : c + 1 ≤ 0) : (n : Int) = max 0 (-(c + 1)) := by omega

theorem prise_libre {n : Nat} {c : Int} (h : (n : Int) = max 0 (-c)) (hc : 0 < c) :
    (n : Int) = max 0 (-(c - 1)) := by omega

theorem prise_attente {n : Nat} {c : Int} (h : (n : Int) = max 0 (-c)) (hc : c - 1 < 0) :
    ((n + 1 : Nat) : Int) = max 0 (-(c - 1)) := by omega

theorem Semaphore.setCount_count {sem : Semaphore} {x : Int} (hlo : SHORTINT_MIN ≤ x)
    (hhi : x ≤ SHORTINT_MAX) : (sem.setCount x).count = x := versShort_of_bounds hlo hhi

-- ---------------------------------------------------------------------------
-- What a transition does to the semaphores
-- ---------------------------------------------------------------------------

/-- The semaphore the event is about. -/
def Evenement.jeton : Evenement → Option Ptr
  | .semCree a _ | .semPrise a _ | .semUnite a _ | .semAccorde a _ | .semRejet a _ _ => some a
  | _ => none

/-- What a transition does to the semaphores while it records `k`. It empties or
deletes only the semaphores that satisfy `E`, and terminates waiting processes
of the entries that satisfy `K` only. -/
inductive Jetons (E : Ptr → Prop) (K : Int → Prop) (s s' : Core) : List Evenement → Prop
  | rien {k : List Evenement} (m : MemesSem s s') (hk : ∀ e ∈ k, e.jeton = none) : Jetons E K s s' k
  | cree {i : Int} {x : Semaphore} (m : AutresSem i s s') (hlibre : s.tableauSem i = none)
      (hfrais : s.prochain ≤ x.adr) (hm : x.adr < s'.prochain) (hs : s'.tableauSem i = some x)
      (h0 : 0 ≤ x.count) (hf : s'.elems (.semaphore i) = []) :
      Jetons E K s s' [.semCree x.adr x.count]
  | efface {i : Int} {x : Semaphore} {k : List Evenement} (m : AutresSem i s s')
      (hs₀ : s.tableauSem i = some x) (hE : E x.adr)
      (hs : ∀ y, s'.tableauSem i = some y → y.adr = x.adr ∧ 0 ≤ y.count)
      (hf : s'.elems (.semaphore i) = []) (hk : ∀ e ∈ k, ∃ p v, e = .semRejet x.adr p v) :
      Jetons E K s s' k
  | perd {i : Int} {k : List Evenement} {p : Ptr} (m : AutresSem i s s') (hK : K i)
      (hs : s'.tableauSem i = s.tableauSem i)
      (hf : s'.elems (.semaphore i) = (s.elems (.semaphore i)).erase p)
      (hk : ∀ e ∈ k, e.jeton = none) : Jetons E K s s' k
  | unite {i : Int} {x y : Semaphore} {p : Ptr} (m : AutresSem i s s')
      (hs₀ : s.tableauSem i = some x) (hpos : 0 < x.count + 1) (hs : s'.tableauSem i = some y)
      (hadr : y.adr = x.adr) (hc : y.count = x.count + 1)
      (hf : s'.elems (.semaphore i) = s.elems (.semaphore i)) :
      Jetons E K s s' [.semUnite x.adr p]
  | reveil {i : Int} {x y : Semaphore} {p q : Ptr} (m : AutresSem i s s')
      (hs₀ : s.tableauSem i = some x) (hneg : x.count + 1 ≤ 0) (hs : s'.tableauSem i = some y)
      (hadr : y.adr = x.adr) (hc : y.count = x.count + 1)
      (hf : s.elems (.semaphore i) = s'.elems (.semaphore i) ++ [q]) :
      Jetons E K s s' [.semUnite x.adr p, .semAccorde x.adr q]
  | prise {i : Int} {x y : Semaphore} {p : Ptr} (m : AutresSem i s s')
      (hs₀ : s.tableauSem i = some x) (hpos : 0 < x.count) (hs : s'.tableauSem i = some y)
      (hadr : y.adr = x.adr) (hc : y.count = x.count - 1)
      (hf : s'.elems (.semaphore i) = s.elems (.semaphore i)) :
      Jetons E K s s' [.semPrise x.adr p, .semAccorde x.adr p]
  | attend {i : Int} {x y : Semaphore} {p : Ptr} (m : AutresSem i s s')
      (hs₀ : s.tableauSem i = some x) (hneg : x.count - 1 < 0) (hs : s'.tableauSem i = some y)
      (hadr : y.adr = x.adr) (hc : y.count = x.count - 1) (hp : s.vivant p = true)
      (hidle : p ≠ s.procIdle)
      (hf : s'.elems (.semaphore i) =
        Lib.insertByKey (fun p => (s.tas p).place) p (s.elems (.semaphore i))) :
      Jetons E K s s' [.semPrise x.adr p]

/-- The journal gains the events of `k`, and the semaphores change accordingly. -/
def Core.Jetonne (E : Ptr → Prop) (K : Int → Prop) (s s' : Core) : Prop :=
  ∃ k, s'.journal = s.journal ++ k ∧ Jetons E K s s' k

namespace Core.Jetonne

variable {E : Ptr → Prop} {K : Int → Prop} {s s' : Core}

/-- Nothing happens to the semaphores. -/
theorem memes (m : MemesSem s s') (h : Ajoute (fun e => e.jeton = none) s s') : Jetonne E K s s' := by
  obtain ⟨k, hj, hk⟩ := h
  exact ⟨k, hj, .rien m hk⟩

theorem ailleurs (h : Ajoute (fun e => e.jeton = none) s s') (hs : s'.tableauSem = s.tableauSem := by rfl)
    (he : ∀ sid, s'.elems (.semaphore sid) = s.elems (.semaphore sid) := by exact fun _ => rfl) :
    Jetonne E K s s' := memes ⟨hs, he⟩ h

/-- A process leaves a list, which may be the queue of a semaphore. -/
theorem retire {p : Ptr} {t : Tete} (ht : s.lien p = some t) (hK : ∀ sid, t = .semaphore sid → K sid)
    (hs : s'.tableauSem = s.tableauSem)
    (he : ∀ sid, s'.elems (.semaphore sid) = (s.retire p).elems (.semaphore sid))
    (h : Ajoute (fun e => e.jeton = none) s s') : Jetonne E K s s' := by
  by_cases hsid : ∃ sid, t = .semaphore sid
  · obtain ⟨sid, rfl⟩ := hsid
    obtain ⟨k, hj, hk⟩ := h
    refine ⟨k, hj, .perd (i := sid) (p := p) ⟨fun i _ => by rw [hs], ?_⟩ (hK sid rfl) (by rw [hs])
      (he sid) hk⟩
    intro i hi
    rw [he, Core.elems_retire_of_ne]
    rw [ht]
    exact fun hx => hi (by simpa using hx.symm)
  · refine memes ⟨hs, fun sid => ?_⟩ h
    rw [he, Core.elems_retire_of_ne]
    rw [ht]
    exact fun hx => hsid ⟨sid, Option.some.inj hx⟩

end Core.Jetonne

theorem Core.elems_empile {s : Core} {k : Reprise} {t : Tete} : (s.empile k).elems t = s.elems t := rfl

open Core.Jetonne in
theorem Quiet.jetonne {l : Etiquette} {s s' : Core} (h : Stable s) (he : s.EnCours)
    (q : Quiet l s s') : Core.Jetonne (fun a => l.efface = some (.sem a))
      (fun sid => l.victime = some (.semaphore sid)) s s' := by
  have hc := h.coherent
  have r : ∀ {P : Evenement → Prop}, Ajoute P s s := .refl
  -- a process of another list
  have deplace : ∀ {p : Ptr} {t : Tete} {f : Processus → Processus}, s.lien p = some t →
      (∀ sid, t ≠ .semaphore sid) →
      ∀ sid, (s.eveille p f).elems (.semaphore sid) = s.elems (.semaphore sid) :=
    fun hp ht sid => Core.elems_eveille_of_ne hp (ht sid).symm (by simp)
  have sansElems : ∀ {p : Ptr} {e : Etat}, (s.tas p).etat = e → e ≠ .attendSemaphore → ∀ sid,
      (s.retire p).elems (.semaphore sid) = s.elems (.semaphore sid) := by
    intro p e hpe hne sid
    refine Core.elems_retire_of_ne fun hx => hne ?_
    rw [← hpe]
    exact hc.etat_of_lien (t := .semaphore sid) hx
  cases q with
  -- other tables and lists
  | ecriture adr w => exact ailleurs (r.ecrit fun _ _ _ => rfl)
  | attente pid rv => exact ailleurs (r.note rfl)
  | cree hl hp hn hpid hetat hctx hfils hprio hret =>
    exact ailleurs (r.note rfl) rfl fun sid => Core.elems_ajoute_of_ne (by simp)
  | @chprioActivable _ p n hn hvp hpid hp he' =>
    exact ailleurs r.meme rfl fun sid =>
      (Core.elems_ajoute_of_ne (by simp)).trans (sansElems he' (by simp) sid)
  | @chprioFile _ p n hn hvp hpid hp he' =>
    exact ailleurs r.meme rfl fun sid =>
      (Core.elems_ajoute_of_ne (by simp)).trans (sansElems he' (by simp) sid)
  | @tueZombie _ p pere t hpid hp hz hm ht hpere =>
    refine Core.Jetonne.retire ht (fun sid hx => congrArg some hx) ?_ ?_ (.reveillePere ?_)
    · unfold Core.reveillePere
      split <;> rfl
    · exact fun sid => Core.elems_reveillePere_of_ne (by simp)
    · exact r.note rfl
  | @tueMourant _ p t hpid hp hz hm ht hpere =>
    exact Core.Jetonne.retire ht (fun sid hx => congrArg some hx) rfl
      (fun sid => Core.elems_ajoute_of_ne (by simp)) (r.note rfl)
  | recolte hcf hz hl =>
    have R := hc.recolte_spec he hcf hz hl
    exact ailleurs (r.note rfl) rfl fun sid => R.elems _ (by simp)
  | liberation hlib hvide =>
    refine memes (hc.memesSem_liberation hlib) ((Ajoute.liberation hc hlib).mono ?_)
    rintro _ ⟨q, rfl⟩
    rfl
  | reveil hp => exact ailleurs r.meme rfl (deplace (LinkedQueues.link_of_mem hp) (by simp))
  | reveilEs hp => exact ailleurs r.meme rfl (deplace (LinkedQueues.link_of_top hp) (by simp))
  | creeFile hl hfid h0 hN hn hadr hm =>
    exact ailleurs r.meme rfl fun sid => LinkedQueues.elems_reset.trans (if_neg (by simp))
  | echec hf hp =>
    exact ailleurs (r.note rfl) rfl (deplace (LinkedQueues.link_of_top hp) (by simp))
  | vide hf hp => exact ailleurs (r.note rfl)
  | @remis _ fid v f p hidle hf hvide hp =>
    have m : Ajoute (fun e => e.jeton = none) s (s.emet f v) := r.note rfl
    have m₁ : Ajoute (fun e => e.jeton = none) s (((s.emet f v).eveille p fun r =>
        { r with fid := -1, fileValue := v, operationStatus := 1 }).note
          (.accepte f.adr s.procElu v)) := m.note rfl
    exact ailleurs (m₁.note rfl) rfl fun sid =>
      Core.elems_eveille_of_ne (LinkedQueues.link_of_top hp) (by simp) (by simp)
  | @depose _ fid v f adr n hidle hf hnon hlt hn =>
    have m : Ajoute (fun e => e.jeton = none) s (s.emet f v) := r.note rfl
    exact ailleurs (m.note rfl)
  | @prend _ fid f l msg m hidle hf hl hp =>
    have m₁ : Ajoute (fun e => e.jeton = none) s (s.recoit f m) := r.note rfl
    have m₂ : Ajoute (fun e => e.jeton = none) s (((s.recoit f m).majFile fid
        (some { f with queueMsg := l })).note (.livre f.adr s.procElu msg.message)) := m₁.note rfl
    exact ailleurs (m₂.ecrit fun _ _ _ => rfl)
  | @relaye _ fid f l msg p a m n hidle hf hl hp hn =>
    have m₁ : Ajoute (fun e => e.jeton = none) s (s.recoit f m) := r.note rfl
    have m₂ : Ajoute (fun e => e.jeton = none) s ((((s.recoit f m).majFile fid
        (some { f with queueMsg := ⟨a, (s.tas p).fileValue⟩ :: l })).alloue n).note
          (.livre f.adr s.procElu msg.message)) := m₁.note rfl
    have m₃ := m₂.ecrit (a := m) (w := BitVec.ofInt 32 msg.message) fun _ _ _ => rfl
    exact ailleurs (m₃.note (e := .accepte f.adr p (s.tas p).fileValue) rfl) rfl fun sid =>
      Core.elems_eveille_of_ne (LinkedQueues.link_of_top hp) (by simp) (by simp)
  -- semaphores
  | @creeSem _ sid c adr l cell m sem hl hsid h0 hsem hadr hfrais hm hnom =>
    have hlibre : s.tableauSem sid = none := hsid ▸ (hc.sidLibre cell (by rw [hl]; simp)).2.2
    refine ⟨[.semCree adr c], rfl, ?_⟩
    rw [← hadr, ← hsem]
    refine .cree (i := sid) ⟨fun i hi => by simp [hi], fun i hi => ?_⟩ hlibre (hadr ▸ hfrais)
      (hadr ▸ hm) (by simp) (hsem ▸ h0) (LinkedQueues.elems_reset.trans (if_pos rfl))
    exact LinkedQueues.elems_reset.trans (if_neg (by simpa using hi))
  | @sdelete _ s₁ sid sem adr n b hs hr hp hn hb =>
    obtain ⟨k, hj, hk⟩ := Ajoute.rejets hr
    refine ⟨k, hj, .efface (i := sid) ((autresSem_rejets hr).trans ⟨fun i hi => by simp [hi],
      fun _ _ => rfl⟩) hs rfl ?_ hp fun e hx => ?_⟩
    · intro y hy
      simp at hy
    · obtain ⟨p, rfl⟩ := hk e hx
      exact ⟨p, _, rfl⟩
  | @sreset _ s₁ sid c sem b hs hr hp h0 hcount hb =>
    obtain ⟨k, hj, hk⟩ := Ajoute.rejets hr
    refine ⟨k, hj, .efface (i := sid) ((autresSem_rejets hr).trans autresSem_majSem) hs rfl ?_ hp
      fun e hx => ?_⟩
    · intro y hy
      obtain rfl : sem.setCount c = y := by simpa using hy
      rw [Semaphore.setCount_count (by unfold SHORTINT_MIN; omega) hcount]
      exact ⟨rfl, h0⟩
    · obtain ⟨p, rfl⟩ := hk e hx
      exact ⟨p, _, rfl⟩
  | @signale _ sid sem hs hmax hpos =>
    have hcs := sem.count_short
    exact ⟨_, rfl, .unite (i := sid) ⟨fun i hi => by simp [hi], fun _ _ => rfl⟩ hs hpos
      (Function.update_self ..) rfl (Semaphore.setCount_count (by omega) (by omega)) rfl⟩
  | @signaleReveil _ sid sem p hs hmax hneg hp =>
    have hcs := sem.count_short
    have m := autresSem_eveille (LinkedQueues.link_of_top hp) fun r => { r with operationStatus := 1 }
    refine ⟨_, (List.append_assoc ..).trans rfl, .reveil (i := sid) (p := s.procElu) (q := p)
      ⟨fun i hi => by simp [Core.eveille, hi], m.elems⟩ hs hneg (Function.update_self ..) rfl
      (Semaphore.setCount_count (by omega) (by omega)) ?_⟩
    exact Core.elems_eveille_top (f := fun r => { r with operationStatus := 1 }) hp (by simp)
  | @prendSem _ sid sem hs hpos =>
    have hcs := sem.count_short
    refine ⟨_, (List.append_assoc ..).trans rfl, .prise (i := sid) (p := s.procElu)
      ⟨fun i hi => by simp [hi], fun _ _ => rfl⟩ hs hpos (Function.update_self ..) rfl
      (Semaphore.setCount_count (by unfold SHORTINT_MIN at hcs ⊢; omega) (by omega)) rfl⟩
  | _ => exact ailleurs r.meme

open Core.Jetonne in
theorem Sortie.jetonne {m : Motif} {k : Reprise} {s s' : Core} (h : Coherent s) (he : s.EnCours)
    (q : Sortie m k s s') : Core.Jetonne (fun _ => False) (fun _ => False) s (s'.empile k) := by
  have r : ∀ {P : Evenement → Prop}, Ajoute P s s := .refl
  have hl := h.lien_procElu he
  cases q with
  | suspend hk => exact ailleurs r.meme
  | endort hidle =>
    exact ailleurs r.meme rfl fun sid => Core.elems_empile.trans (Core.elems_ajoute_of_ne (by simp))
  | emission hidle hf hnon hplein =>
    exact ailleurs (r.note rfl) rfl fun sid =>
      Core.elems_empile.trans (Core.elems_ajoute_of_ne (by simp))
  | reception hidle hf hvide =>
    exact ailleurs (r.note rfl) rfl fun sid =>
      Core.elems_empile.trans (Core.elems_ajoute_of_ne (by simp))
  | @wait _ sid sem hidle hs hmin hneg =>
    have hcs := sem.count_short
    refine ⟨_, rfl, .attend (i := sid) (p := s.procElu) ⟨fun i hi => by simp [hi, Core.empile],
      fun i hi => Core.elems_empile.trans (Core.elems_ajoute_of_ne (by simpa using hi))⟩ hs hneg
      (Function.update_self ..) rfl (Semaphore.setCount_count (by omega) (by omega)) he.vivant hidle ?_⟩
    refine ((LinkedQueues.elems_add hl).trans (if_pos rfl)).trans ?_
    -- the state of the caller changes, no `place` does
    refine congrArg (fun key => insertByKey key s.procElu (s.elems (.semaphore sid))) ?_
    funext x
    by_cases hx : x = s.procElu <;> simp [hx]
  | consRead hidle =>
    exact ailleurs r.meme rfl fun sid => Core.elems_empile.trans (Core.elems_ajoute_of_ne (by simp))
  | waitpid hidle hcf hpid h0 hz => exact ailleurs r.meme
  | waitpidFils hidle hne hz h0 => exact ailleurs r.meme
  | @exitZombie _ v pere hidle hpere =>
    have m : Ajoute (fun e => e.jeton = none) s (((s.maj s.procElu fun r => { r with retval := v }).note
        (.exit s.procElu v)).maj s.procElu fun r => { r with etat := .zombie }) := r.note rfl
    refine ailleurs (m.reveillePere.meme) ?_ fun sid =>
      Core.elems_empile.trans (Core.elems_reveillePere_of_ne (by simp))
    unfold Core.reveillePere
    split <;> rfl
  | exitMourant hidle hpere => exact ailleurs (r.note rfl)
  | suicideZombie hidle hpere => exact ailleurs (r.note rfl)
  | suicideMourant hidle hpere => exact ailleurs (r.note rfl)

-- ---------------------------------------------------------------------------
-- Counters and queues
-- ---------------------------------------------------------------------------

namespace Core.Compte

variable {E : Ptr → Prop} {K : Int → Prop} {s s' : Core}

/-- No waiting process is terminated. -/
theorem jetonne (h : s.Compte) (ht : Core.Jetonne E K s s') (hK : ∀ sid, ¬ K sid) : s'.Compte := by
  obtain ⟨k, -, ht⟩ := ht
  -- the one semaphore that changes
  have autre : ∀ {sid : Int} {y : Semaphore}, AutresSem sid s s' → s'.tableauSem sid = some y →
      ((s'.elems (.semaphore sid)).length : Int) = max 0 (-y.count) → s'.Compte := by
    intro sid y m hs hy
    refine h.autre m ?_
    intro y' hs'
    rw [hs] at hs'
    rwa [← Option.some.inj hs']
  cases ht with
  | rien m hk => exact h.congr m
  | @cree sid x m hlibre hfrais hm hs h0 hf => exact autre m hs (by rw [hf]; simpa using h0)
  | @efface sid x k m hs₀ hE hs hf hk =>
    refine h.autre m ?_
    intro y hy
    have h0 := (hs y hy).2
    rw [hf]
    simpa using h0
  | perd m hKs hs hf hk => exact absurd hKs (hK _)
  | @unite sid x y p m hs₀ hpos hs hadr hc hf =>
    have hold := h sid x hs₀
    refine autre m hs ?_
    rw [hf, hc]
    exact signal_libre hold hpos
  | @reveil sid x y p q m hs₀ hneg hs hadr hc hf =>
    have hold := h sid x hs₀
    rw [hf, List.length_append, List.length_singleton] at hold
    refine autre m hs ?_
    rw [hc]
    exact signal_attente hold hneg
  | @prise sid x y p m hs₀ hpos hs hadr hc hf =>
    have hold := h sid x hs₀
    refine autre m hs ?_
    rw [hf, hc]
    exact prise_libre hold hpos
  | @attend sid x y p m hs₀ hneg hs hadr hc hv hidle hf =>
    have hold := h sid x hs₀
    refine autre m hs ?_
    rw [hf, hc, List.orderedInsert_length]
    exact prise_attente hold hneg

theorem quiet {l : Etiquette} (h : s.Compte) (hst : Stable s) (he : s.EnCours) (q : Quiet l s s')
    (hv : ∀ sid, l.victime ≠ some (.semaphore sid)) : s'.Compte := h.jetonne (q.jetonne hst he) hv

theorem election (h : s.Compte) (hst : Stable s) (hvide : s.elems .procMourants = [])
    (hna : (s.tas s.procElu).etat ≠ .activable) (hel : Election s s') : s'.Compte :=
  h.congr (hst.memesSem_election hvide hna hel)

theorem conserve {C : Cadre} (hC : ∀ sid, ¬ C.victime (.semaphore sid)) : Conserve C Core.Compte where
  quiet hst he h hl q := h.quiet hst he q fun sid hv => hC sid (hl.1 _ hv)
  sortie hst he h _ q := h.jetonne (q.jetonne hst.coherent he) fun _ => id
  libere hc h hl := h.congr (hc.memesSem_liberation_pas hl)
  election hst hvide hna h hel := h.election hst hvide hna hel
  retour _ _ _ h := h.congr ⟨rfl, fun _ => rfl⟩

end Core.Compte

end GenesisOS
