import GenesisOS.Invariants.Queues

/-!
# GenesisOS — sleeping processes

The list of sleeping processes is sorted by wake-up time (`Core.Trie`). A process
leaves it when the clock interrupt wakes it, or when it is killed: no other
transition touches it, and its wake-up time does not change meanwhile.
-/

namespace GenesisOS

open Lib

/-- The sleeping processes are sorted by wake-up time. -/
def Core.Trie (s : Core) : Prop :=
  (s.elems .procEndormis).Pairwise fun a b => (s.tas a).secReveille ≤ (s.tas b).secReveille

/-- The list of sleeping processes has only lost elements, and the wake-up times
are the same. -/
structure Dormants (s s' : Core) : Prop where
  prochain : s.prochain ≤ s'.prochain
  elems : (s'.elems .procEndormis).Sublist (s.elems .procEndormis)
  sec : ∀ x, x < s.prochain → (s'.tas x).secReveille = (s.tas x).secReveille

section

variable {s s' s'' : Core} {p : Ptr}

theorem Reduit.dormants (r : Reduit .procEndormis s s') : Dormants s s' :=
  ⟨r.prochain, r.elems, fun x hx => congrArg Prod.snd (r.cles x hx)⟩

theorem Coherent.lt_of_endormi (h : Coherent s) {x : Ptr} (hx : x ∈ s.elems .procEndormis) :
    x < s.prochain :=
  h.ancien x (h.lie x _ (LinkedQueues.link_of_mem hx))

theorem Core.Trie.dormants (ht : s.Trie) (h : Coherent s) (d : Dormants s s') : s'.Trie := by
  refine List.Pairwise.imp_of_mem ?_ (List.Pairwise.sublist d.elems ht)
  intro a b ha hb hab
  rw [d.sec a (h.lt_of_endormi (d.elems.subset ha)), d.sec b (h.lt_of_endormi (d.elems.subset hb))]
  exact hab

-- ---------------------------------------------------------------------------
-- Transitions
-- ---------------------------------------------------------------------------

theorem Quiet.dormants {l : Etiquette} (h : Stable s) (he : s.EnCours) (q : Quiet l s s') :
    Dormants s s' := by
  by_cases hl : l.prio = none
  · exact (q.reduit (t := .procEndormis) h he hl ⟨nofun, nofun⟩).dormants
  · cases q with
    | @chprioElu _ n | @chprioAutre _ p n =>
      exact ⟨le_rfl, .refl _, fun x _ =>
        Core.champ_maj (f := fun r => { r with prio := n }) (fun _ => rfl) x⟩
    | @chprioActivable _ p n | @chprioFile _ p n =>
      refine ⟨le_rfl, ?_, fun x _ =>
        Core.champ_maj (f := fun r => { r with prio := n }) (fun _ => rfl) x⟩
      rw [Core.elems_ajoute_of_ne (show Tete.procEndormis ≠ _ by nofun)]
      exact List.erase_sublist
    | _ => exact absurd rfl hl

/-- The list of sleeping processes and the wake-up times are the same. -/
structure MemeSommeil (s s' : Core) : Prop where
  elems : s'.elems .procEndormis = s.elems .procEndormis
  sec : ∀ x, (s'.tas x).secReveille = (s.tas x).secReveille

namespace MemeSommeil

theorem refl : MemeSommeil s s := ⟨rfl, fun _ => rfl⟩

theorem trans (m : MemeSommeil s s') (m' : MemeSommeil s' s'') : MemeSommeil s s'' :=
  ⟨m'.elems.trans m.elems, fun x => (m'.sec x).trans (m.sec x)⟩

theorem note (m : MemeSommeil s s') {e : Evenement} : MemeSommeil s (s'.note e) := ⟨m.elems, m.sec⟩

theorem maj (m : MemeSommeil s s') {f : Processus → Processus}
    (hf : ∀ r, (f r).secReveille = r.secReveille := by intro _; rfl) : MemeSommeil s (s'.maj p f) :=
  ⟨m.elems, fun x => (Core.champ_maj hf x).trans (m.sec x)⟩

theorem ajoute (m : MemeSommeil s s') {t : Tete} {k : Processus → Int}
    (ht : .procEndormis ≠ t := by nofun) : MemeSommeil s (s'.ajoute t p k) :=
  ⟨(Core.elems_ajoute_of_ne ht).trans m.elems, m.sec⟩

theorem reveillePere (m : MemeSommeil s s') : MemeSommeil s (s'.reveillePere p) := by
  unfold Core.reveillePere
  split
  · exact .ajoute (.maj m)
  · exact m

theorem bloqueFile (m : MemeSommeil s s') {fid : Int} : MemeSommeil s (s'.bloqueFile fid) :=
  .maj (.maj (.ajoute m))

theorem liberation (h : Coherent s) (hl : Relation.ReflTransGen Liberation s s') :
    MemeSommeil s s' := by
  obtain ⟨helems, hcles⟩ := h.liberation_listes (t := .procEndormis) ⟨nofun, nofun⟩ hl
  exact ⟨helems, fun x => congrArg Prod.snd (hcles x)⟩

theorem election (hel : Election s s') : MemeSommeil s s' := by
  obtain ⟨helems, hcles⟩ := hel.listes (t := .procEndormis) ⟨nofun, nofun⟩
  exact ⟨helems, fun x => congrArg Prod.snd (hcles x)⟩

/-- The list stays sorted. -/
theorem trie (m : MemeSommeil s s') (ht : s.Trie) : s'.Trie := by
  unfold Core.Trie
  rw [m.elems]
  refine List.Pairwise.imp ?_ ht
  intro a b hab
  rw [m.sec a, m.sec b]
  exact hab

end MemeSommeil

theorem lien_eveille_top {u : Core} {q : Ptr} {t : Tete} {f : Processus → Processus}
    (hq : s.chainage.top t = some q) (ht : t ≠ .procEndormis) (hp : s.lien p = some .procEndormis)
    (hu : u.chainage = s.chainage) : (u.eveille q f).lien p = some .procEndormis := by
  have hne : p ≠ q := by
    rintro rfl
    have hl : s.lien p = some t := LinkedQueues.link_of_top hq
    rw [hp] at hl
    exact ht (Option.some.inj hl).symm
  rw [Core.lien_eveille, if_neg hne, Core.lien, hu]
  exact hp

theorem lien_rejets {sid status : Int} {sem : Semaphore}
    (hr : Relation.ReflTransGen (Rejet sid sem status) s s') (hp : s.lien p = some .procEndormis) :
    s'.lien p = some .procEndormis := by
  induction hr with
  | refl => exact hp
  | tail _ hlast ih =>
    obtain ⟨q, hq, rfl⟩ := hlast
    exact lien_eveille_top hq nofun ih rfl

/-- A sleeping process leaves its list when it is woken, or when one is killed. -/
theorem Quiet.endormi {l : Etiquette} (h : Stable s) (he : s.EnCours) (q : Quiet l s s')
    (hp : s.lien p = some .procEndormis) :
    s'.lien p = some .procEndormis ∨ l.reveil = some p ∨ l.victime = some .procEndormis := by
  have hc := h.coherent
  have hetat := hc.etat_of_lien hp
  have hmem : p ∈ s.elems .procEndormis := (s.chainage.mem_iff _ _).mpr hp
  have reste : ∀ {u : Core}, u.elems .procEndormis = s.elems .procEndormis →
      u.lien p = some .procEndormis := by
    intro u hu
    exact LinkedQueues.link_of_mem (show p ∈ u.elems .procEndormis from hu ▸ hmem)
  -- a process is killed
  have tue : ∀ {u : Core} {x : Ptr} {t : Tete}, s.lien x = some t →
      u.elems .procEndormis = (s.elems .procEndormis).erase x →
        u.lien p = some .procEndormis ∨ t = .procEndormis := by
    intro u x t hx hu
    by_cases hpx : p = x
    · subst hpx
      rw [hp] at hx
      exact .inr (Option.some.inj hx).symm
    · have hm : p ∈ u.elems .procEndormis := by
        rw [hu]
        exact (List.mem_erase_of_ne hpx).mpr hmem
      exact .inl (LinkedQueues.link_of_mem hm)
  cases q with
  | @cree _ x r cell reste adr n hl hx hn hpid he' hctx hfils hprio hret =>
    have C := hc.cree_spec he r reste adr n hx
    have hne : p ≠ x := ((hc.ancien p (hc.lie p _ hp)).trans_le hx).ne
    exact .inl (by rw [C.lien, if_neg hne]; exact hp)
  | chprioActivable hn hv hpid hx he' | chprioFile hn hv hpid hx he' =>
    left
    rw [Core.lien_deplace rfl, if_neg]
    · exact hp
    · rintro rfl
      rw [hetat] at he'
      cases he'
  | @tueZombie _ x pere t hpid hx hz hm ht hpere =>
    refine (tue ht ?_).imp_right fun hv => .inr (congrArg some hv)
    exact Core.elems_reveillePere_of_ne nofun
  | @tueMourant _ x t hpid hx hz hm ht hpere =>
    refine (tue ht ?_).imp_right fun hv => .inr (congrArg some hv)
    exact Core.elems_ajoute_of_ne nofun
  | recolte hcf hz hl =>
    refine .inl (reste ?_)
    exact Core.elems_ajoute_of_ne nofun
  | liberation hlib hvide =>
    exact .inl (reste (hc.liberation_listes (t := .procEndormis) ⟨nofun, nofun⟩ hlib).1)
  | @reveil _ x hx =>
    by_cases hxp : p = x
    · exact .inr (.inl (congrArg some hxp.symm))
    · exact .inl (by rw [Core.lien_eveille, if_neg hxp]; exact hp)
  | reveilEs hq => exact .inl (lien_eveille_top hq nofun hp rfl)
  | creeFile | creeSem =>
    left
    refine (LinkedQueues.link_reset (q := s.chainage)).trans (if_neg ?_) |>.trans hp
    rw [show s.chainage.link p = some .procEndormis from hp]
    nofun
  | echec hf hq => exact .inl (lien_eveille_top hq nofun hp rfl)
  | remis hidle hf hvide hq => exact .inl (lien_eveille_top hq nofun hp rfl)
  | relaye hidle hf hl hq hn => exact .inl (lien_eveille_top hq nofun hp rfl)
  | sdelete hs hr hvide hn hb | sreset hs hr hvide h0 hcount hb =>
    have hl := lien_rejets hr hp
    exact .inl hl
  | signaleReveil hs hmax hneg hq => exact .inl (lien_eveille_top hq nofun hp rfl)
  | _ => exact .inl hp

/-- The elected process leaves the others asleep; it may fall asleep. -/
theorem Sortie.endormis {m : Motif} {k : Reprise} (q : Sortie m k s s') :
    MemeSommeil s s' ∨ ∃ t, s' = (s.maj s.procElu fun r =>
      { r with etat := .endormi, secReveille := t }).ajoute .procEndormis s.procElu (·.secReveille) := by
  have r : MemeSommeil s s := .refl
  cases q with
  | suspend hk => exact .inl r
  | @endort _ t hidle => exact .inr ⟨t, rfl⟩
  | emission hidle hf hnon hplein => exact .inl (.bloqueFile (.maj r.note))
  | reception hidle hf hvide => exact .inl (.bloqueFile (.maj r.note))
  | wait hidle hs hmin hneg =>
    refine .inl (.ajoute (.maj (.note ?_)))
    exact ⟨rfl, fun _ => rfl⟩
  | consRead hidle => exact .inl (.ajoute (.maj r))
  | waitpid | waitpidFils => exact .inl (.maj r)
  | exitZombie hidle hpere => exact .inl (.reveillePere (.maj (.note (.maj r))))
  | exitMourant hidle hpere => exact .inl (.maj (.note (.maj r)))
  | suicideZombie hidle hpere | suicideMourant hidle hpere => exact .inl (.maj r.note)

/-- Falling asleep, the elected process takes its place. -/
theorem Core.Trie.endort {n : Nat} (ht : s.Trie) (h : Coherent s) (he : s.EnCours) :
    ((s.maj s.procElu fun r => { r with etat := .endormi, secReveille := n }).ajoute .procEndormis
      s.procElu (·.secReveille)).Trie := by
  have hl : s.lien s.procElu = none := h.lien_procElu he
  have hnot : ∀ x ∈ s.elems .procEndormis, x ≠ s.procElu := by
    rintro x hx rfl
    exact LinkedQueues.notMem_of_link_none hl hx
  unfold Core.Trie
  generalize hu : (s.maj s.procElu fun r => { r with etat := .endormi, secReveille := n }) = u
  have hlu : u.lien s.procElu = none := by rw [← hu]; exact hl
  have hutri : (u.elems .procEndormis).Pairwise fun a b =>
      ((u.tas a).secReveille : Int) ≤ (u.tas b).secReveille := by
    rw [← hu]
    refine List.Pairwise.imp_of_mem ?_ ht
    intro a b ha hb hab
    rw [Core.tas_maj, Core.tas_maj, if_neg (hnot a ha), if_neg (hnot b hb)]
    exact Int.ofNat_le.mpr hab
  rw [Core.elems_ajoute hlu]
  refine List.Pairwise.imp ?_ (List.Pairwise.orderedInsert s.procElu _ hutri)
  intro a b hab
  exact Int.ofNat_le.mp hab

/-- Every step keeps the sleeping processes sorted. -/
theorem Core.Trie.conserve (C : Cadre) : Conserve C Core.Trie where
  quiet h he hi _ q := hi.dormants h.coherent (q.dormants h he)
  sortie {m k s s'} h he hi _ q := by
    have hempile : s'.Trie → (s'.empile k).Trie :=
      (MemeSommeil.maj (f := fun r => { r with contexte := k }) .refl).trie
    refine hempile ?_
    rcases q.endormis with hm | ⟨t, rfl⟩
    · exact hm.trie hi
    · exact hi.endort h.coherent he
  libere h hi hl := (MemeSommeil.liberation h (.single hl)).trie hi
  election _ _ _ hi hel := (MemeSommeil.election hel).trie hi
  retour _ _ _ hi := (MemeSommeil.note .refl).trie hi

-- ---------------------------------------------------------------------------
-- One sleeping process
-- ---------------------------------------------------------------------------

/-- The process sleeps until `w`. -/
def Core.Dort (s : Core) (p : Ptr) (w : Nat) : Prop :=
  s.lien p = some .procEndormis ∧ (s.tas p).secReveille = w

theorem Core.Dort.meme {w : Nat} (hd : s.Dort p w) (m : MemeSommeil s s') : s'.Dort p w := by
  have hm : p ∈ s'.elems .procEndormis := by
    rw [m.elems]
    exact (s.chainage.mem_iff _ _).mpr hd.1
  exact ⟨LinkedQueues.link_of_mem hm, (m.sec p).trans hd.2⟩

theorem Calme.dort {L : Etiquette → Prop} {w : Nat} (h : Stable s) (hq : Calme L s s')
    (hd : s.Dort p w) :
    s'.Dort p w ∨ ∃ l, L l ∧ (l.reveil = some p ∨ l.victime = some .procEndormis) := by
  induction hq with
  | refl => exact .inl hd
  | @tail s₁ s₂ hrest hlast ih =>
    obtain ⟨he, l, hl, q⟩ := hlast
    rcases ih with ih | ih
    · have h₁ := h.calme hrest
      rcases q.endormi h₁ he ih.1 with hp | hx
      · have hlt := h₁.coherent.ancien p (h₁.coherent.lie p _ ih.1)
        exact .inl ⟨hp, ((q.dormants h₁ he).sec p hlt).trans ih.2⟩
      · exact .inr ⟨l, hl, hx⟩
    · exact .inr ih

/-- Leaving the processor, the elected process lets the others sleep. -/
theorem Sortie.dort {m : Motif} {k : Reprise} {w : Nat} (q : Sortie m k s s') (h : Coherent s)
    (he : s.EnCours) (hd : s.Dort p w) : s'.Dort p w := by
  rcases q.endormis with hm | ⟨t, rfl⟩
  · exact hd.meme hm
  · have hl : s.lien s.procElu = none := h.lien_procElu he
    have hne : p ≠ s.procElu := by
      rintro rfl
      rw [hd.1] at hl
      cases hl
    refine ⟨?_, ?_⟩
    · rw [Core.lien_ajoute_of_ne hne]
      exact hd.1
    · rw [Core.ajoute_tas, Core.tas_maj, if_neg hne]
      exact hd.2

/-- Over the kernel code of a step, the process stays asleep unless the clock
interrupt wakes it or a sleeping process is killed. -/
theorem Segment.dort {C : Cadre} {x : Suite} {w : Nat} (h : Stable s) (hs : Segment C x s s')
    (hd : s.Dort p w) : s'.Dort p w ∨ C.reveil p ∨ C.victime .procEndormis := by
  have admis : ∀ {l : Etiquette}, C.admet l →
      l.reveil = some p ∨ l.victime = some .procEndormis → C.reveil p ∨ C.victime .procEndormis := by
    rintro l hl (hr | hv)
    · exact .inl (hl.2.2.2.2 p hr)
    · exact .inr (hl.1 _ hv)
  cases hs with
  | retour hq _ | iret hq _ =>
    refine (hq.dort h hd).imp_right ?_
    rintro ⟨l, hl, hx⟩
    exact admis hl.1 hx
  | @ordonnanceur m k _ s₁ _ hq he hso hm =>
    rcases hq.dort h hd with hd₁ | ⟨l, hl, hx⟩
    · exact .inl (hso.dort (h.calme hq).coherent he hd₁)
    · exact .inr (admis hl hx)

end

end GenesisOS
