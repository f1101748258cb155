import GenesisOS.Invariants.Files
import GenesisOS.Refinement.Boot

/-!
# GenesisOS — the waiting processes of a message file

Receivers wait on an empty file, senders on a full one, and nobody waits on
the others. So `pcount` is exact and the assertions of `files.c` hold.
-/

namespace GenesisOS

open Lib

namespace Core

variable (s : Core)

/-- The process is blocked in `preceive` on the file in entry `fid`. -/
def DansPreceive (fid : Int) (p : Ptr) : Prop :=
  s.vivant p = true ∧ (s.tas p).etat = .attendFile ∧ (s.tas p).fid = fid ∧
    ∃ m, (s.tas p).contexte = .preceive m

/-- The process is blocked in `psend` on the file in entry `fid`. -/
def DansPsend (fid : Int) (p : Ptr) : Prop :=
  s.vivant p = true ∧ (s.tas p).etat = .attendFile ∧ (s.tas p).fid = fid ∧
    (s.tas p).contexte = .psend

end Core

theorem Coherent.mem_file {s : Core} (h : Coherent s) {fid : Int} {p : Ptr} :
    p ∈ s.elems (.file fid) ↔
      s.vivant p = true ∧ (s.tas p).etat = .attendFile ∧ (s.tas p).fid = fid := by
  constructor
  · intro hm
    have hl : s.lien p = some (.file fid) := LinkedQueues.link_of_mem hm
    exact ⟨h.lie p _ hl, h.etat_of_lien hl, h.fid_of_lien hl⟩
  · rintro ⟨hv, het, rfl⟩
    have hpl := h.place p hv
    unfold Core.Place at hpl
    rw [het] at hpl
    exact (s.chainage.mem_iff p _).mpr hpl

/-- Who waits on a file. -/
theorem Core.Homogene.attente {s : Core} (h : s.Homogene) (hc : Coherent s) {fid : Int} {f : File}
    (hf : s.tableauFile fid = some f) (hne : s.elems (.file fid) ≠ []) :
    (f.queueMsg = [] ∧ ∀ p, p ∈ s.elems (.file fid) ↔ s.DansPreceive fid p) ∨
      (getNbMsg f = f.maxMsg ∧ ∀ p, p ∈ s.elems (.file fid) ↔ s.DansPsend fid p) := by
  obtain ⟨q, hq⟩ := List.exists_mem_of_ne_nil _ hne
  have hmax := (hc.file fid f hf).2.2.2.1
  -- the number of messages excludes one of the two cases for every process
  have cas : ∀ p ∈ s.elems (.file fid),
      (f.queueMsg = [] ∧ s.DansPreceive fid p) ∨ (getNbMsg f = f.maxMsg ∧ s.DansPsend fid p) := by
    intro p hp
    obtain ⟨hv, het, hfid⟩ := hc.mem_file.mp hp
    rcases h fid f p hf (LinkedQueues.link_of_mem hp) with ⟨hvide, hm⟩ | ⟨hplein, hk⟩
    · exact .inl ⟨hvide, hv, het, hfid, hm⟩
    · exact .inr ⟨hplein, hv, het, hfid, hk⟩
  have exclu : f.queueMsg = [] → getNbMsg f ≠ f.maxMsg := by
    intro hvide hplein
    rw [getNbMsg, hvide] at hplein
    simp at hplein
    omega
  rcases cas q hq with ⟨hvide, -⟩ | ⟨hplein, -⟩
  · refine .inl ⟨hvide, fun p => ⟨fun hp => ?_, fun hp => hc.mem_file.mpr ⟨hp.1, hp.2.1, hp.2.2.1⟩⟩⟩
    rcases cas p hp with ⟨-, hd⟩ | ⟨hplein, -⟩
    · exact hd
    · exact absurd hplein (exclu hvide)
  · refine .inr ⟨hplein, fun p => ⟨fun hp => ?_, fun hp => hc.mem_file.mpr ⟨hp.1, hp.2.1, hp.2.2.1⟩⟩⟩
    rcases cas p hp with ⟨hvide, -⟩ | ⟨-, hd⟩
    · exact absurd hplein (exclu hvide)
    · exact hd

theorem Initial.homogene {s : Core} (h : Initial s) : s.Homogene := by
  intro fid f p hf
  rw [h.file fid] at hf
  cases hf

theorem Atteint.homogene {P : Config → Signal → Prop} {c : Config} (h : Atteint P c) :
    c.s.toCore.Homogene :=
  h.invariant (fun _ h₀ => h₀.homogene) Core.Homogene.conserve (fun hst he hi => hi.depile hst he)
    fun _ _ _ _ => Core.Homogene.conserve

-- ---------------------------------------------------------------------------
-- `pcount`
-- ---------------------------------------------------------------------------

theorem isUserSpace_of_plageUser {adr : BitVec 32} {n : Nat} (h : plageUser adr.toNat n = true)
    (hn : 0 < n) : isUserSpace adr = true := by
  simp only [plageUser, Bool.and_eq_true, decide_eq_true_eq] at h
  have hint : adr.toInt = adr.toNat := by
    refine BitVec.toInt_eq_toNat_of_lt ?_
    unfold USER_END at h
    omega
  simp only [isUserSpace, hint, Bool.or_eq_true, Bool.and_eq_true, decide_eq_true_eq]
  right
  omega

/-- `pcount` with a pointer to four bytes of user memory. -/
theorem pcount_exact {s : Kernel} (h : Coherent s.toCore) {fid : Int} {f : File} {count : Nat}
    (hf : s.tableauFile fid = some f) (hplage : plageUser count 4 = true) :
    wp (fun _ => False) (pcount fid count) (fun x s' => x = .retour 0 ∧
      s'.toCore = s.toCore.note (.ecriture s.procElu count (BitVec.ofInt 32 (s.toCore.compte fid f))) ∧
      s'.memoire = poserMot s.memoire count (BitVec.ofInt 32 (s.toCore.compte fid f))) s := by
  have h0 : count ≠ 0 := by
    simp only [plageUser, Bool.and_eq_true, decide_eq_true_eq] at hplage
    unfold USER_START at hplage
    omega
  simp only [pcount, wp_bind, wp_get, isFidValideAndExist_eq h, hf, Option.isSome_some,
    Bool.not_true, Bool.false_eq_true, if_false, ne_eq, h0, not_false_eq_true, if_true]
  split
  · next hnb =>
    rw [wp_bind, ecrireMot, if_pos hplage, Core.compte, if_pos hnb]
    exact ⟨rfl, rfl, rfl⟩
  · next hnb =>
    rw [wp_bind, ecrireMot, if_pos hplage, Core.compte, if_neg hnb]
    exact ⟨rfl, rfl, rfl⟩

/-- What `pcount` stores, from the lists of the processes blocked in `preceive`
and in `psend` on the file. -/
theorem Core.Homogene.compte_eq {s : Core} (h : s.Homogene) (hc : Coherent s) {fid : Int} {f : File}
    (hf : s.tableauFile fid = some f) {recepteurs emetteurs : List Ptr} (hr : recepteurs.Nodup)
    (hrm : ∀ p, p ∈ recepteurs ↔ s.DansPreceive fid p) (he : emetteurs.Nodup)
    (hem : ∀ p, p ∈ emetteurs ↔ s.DansPsend fid p) :
    s.compte fid f = if f.queueMsg = [] then -(recepteurs.length : Int)
      else getNbMsg f + emetteurs.length := by
  have hnd := s.chainage.nodup (.file fid)
  -- a process blocked on the file is in its queue
  have hr' : ∀ p ∈ recepteurs, p ∈ s.elems (.file fid) := by
    intro p hp
    obtain ⟨hv, het, hfid, -⟩ := (hrm p).mp hp
    exact hc.mem_file.mpr ⟨hv, het, hfid⟩
  have he' : ∀ p ∈ emetteurs, p ∈ s.elems (.file fid) := by
    intro p hp
    obtain ⟨hv, het, hfid, -⟩ := (hem p).mp hp
    exact hc.mem_file.mpr ⟨hv, het, hfid⟩
  have long : ∀ {l : List Ptr}, l.Nodup → (∀ p, p ∈ l ↔ p ∈ s.elems (.file fid)) →
      (s.elems (.file fid)).length = l.length := by
    intro l hl hm
    exact ((List.perm_ext_iff_of_nodup hnd hl).mpr fun p => (hm p).symm).length_eq
  have hnb : getNbMsg f = 0 ↔ f.queueMsg = [] := getNbMsg_eq_zero
  unfold Core.compte
  by_cases hvide : f.queueMsg = []
  · rw [if_pos (hnb.mpr hvide), if_pos hvide, long hr]
    intro p
    refine ⟨hr' p, fun hp => (hrm p).mpr ?_⟩
    rcases h.attente hc hf (List.ne_nil_of_mem hp) with ⟨-, hd⟩ | ⟨hplein, -⟩
    · exact (hd p).mp hp
    · rw [hnb.mpr hvide] at hplein
      have := (hc.file fid f hf).2.2.2.1
      omega
  · rw [if_neg (fun hx => hvide (hnb.mp hx)), if_neg hvide, long he]
    intro p
    refine ⟨he' p, fun hp => (hem p).mpr ?_⟩
    rcases h.attente hc hf (List.ne_nil_of_mem hp) with ⟨hx, -⟩ | ⟨-, hd⟩
    · exact absurd hx hvide
    · exact (hd p).mp hp

-- ---------------------------------------------------------------------------
-- Runs
-- ---------------------------------------------------------------------------

/-- In every reachable configuration the waiting processes of a file are all
receivers or all senders, as its number of messages says; no step fails an
assertion of `files.c` or takes a message from an empty queue; and `pcount`
stores the number of messages and of blocked senders, or minus the number of
blocked receivers. -/
theorem files_homogenes {c : Config} (h : Accessible c) :
    (∀ fid f, c.s.tableauFile fid = some f → 0 ≤ getNbMsg f ∧ getNbMsg f ≤ f.maxMsg ∧
      (c.s.elems (.file fid) ≠ [] →
        (getNbMsg f = 0 ∧ ∀ p ∈ c.s.elems (.file fid), c.s.toCore.DansPreceive fid p) ∨
        (getNbMsg f = f.maxMsg ∧ ∀ p ∈ c.s.elems (.file fid), c.s.toCore.DansPsend fid p))) ∧
    (∀ e, possible c e = true → pas c e ≠ .error (.assertion .addMsg) ∧
      pas c e ≠ .error (.assertion .retireProc) ∧ pas c e ≠ .error (.accesNul .retireMsg)) ∧
    ∀ (r : Registres) (f : File) (recepteurs emetteurs : List Ptr),
      possible c (.int49 r) = true → r.service = some .pcount →
      c.s.tableauFile r.ebx.toInt = some f → plageUser r.ecx.toNat 4 = true →
      recepteurs.Nodup → (∀ p, p ∈ recepteurs ↔ c.s.toCore.DansPreceive r.ebx.toInt p) →
      emetteurs.Nodup → (∀ p, p ∈ emetteurs ↔ c.s.toCore.DansPsend r.ebx.toInt p) →
      ∃ c', pas c (.int49 r) = .ok c' ∧ c'.mode = .utilisateur ∧
        c'.s.journal.getLast? = some (.retour c.s.procElu 0) ∧
        motA c'.s.memoire r.ecx.toNat = BitVec.ofInt 32
          (if f.queueMsg = [] then -(recepteurs.length : Int)
            else getNbMsg f + emetteurs.length) := by
  have hv := h.valide
  have hc := hv.stable.coherent
  have hh := h.homogene
  refine ⟨?_, ?_, ?_⟩
  · intro fid f hf
    refine ⟨by unfold getNbMsg; omega, (hc.file fid f hf).2.2.2.2, ?_⟩
    intro hne
    rcases hh.attente hc hf hne with ⟨hvide, hd⟩ | ⟨hplein, hd⟩
    · exact .inl ⟨getNbMsg_eq_zero.mpr hvide, fun p hp => (hd p).mp hp⟩
    · exact .inr ⟨hplein, fun p hp => (hd p).mp hp⟩
  · intro e hp
    have hf := (pas_raffine hv hp).2
    refine ⟨?_, ?_, ?_⟩
    · intro hx
      rcases hf _ hx with hx | hx <;> cases hx
    · intro hx
      rcases hf _ hx with hx | hx <;> cases hx
    · intro hx
      rcases hf _ hx with hx | hx <;> cases hx
  · intro r f recepteurs emetteurs hp hsv hf hplage hr hrm he hem
    have hp' := hp
    simp only [possible, decide_eq_true_eq] at hp'
    have hwp : wp (fun _ => False) (segment c (.int49 r)) (fun x s' => x = .retour 0 ∧
        s'.procElu = c.s.procElu ∧ s'.memoire = poserMot c.s.memoire r.ecx.toNat
          (BitVec.ofInt 32 (c.s.toCore.compte r.ebx.toInt f))) c.s := by
      rw [segment, if_pos hp', traitantIT49Switch, hsv]
      simp only [isUserSpace_of_plageUser hplage (by omega), Bool.not_true, Bool.false_eq_true,
        if_false]
      refine wp_imp (pcount_exact hc hf hplage) ?_
      rintro x s' ⟨hx, hs', hm⟩
      exact ⟨hx, by rw [hs']; rfl, hm⟩
    obtain ⟨c', s', hpas, ⟨helu, hm⟩, hmode, hs'⟩ := pas_retour hwp
    refine ⟨c', hpas, hmode, ?_, ?_⟩
    · rw [hs', helu]
      simp [Core.note]
    · rw [hs']
      show motA s'.memoire _ = _
      rw [hm, motA_poserMot, hh.compte_eq hc hf hr hrm he hem]

/-- The user process creates a file of one message and starts a child, which
sends a first message and blocks on the second one. -/
def attenteFile : List Signal :=
  [.suite, appel 9 1 0 0 0, appel 2 0x1000000 0 2 0, .suite, appel 13 9 7 0 0, appel 13 9 8 0 0,
   .suite]

/-- Its father calls `pcount`. -/
def comptage : Registres := ⟨8, 9, 0x1000000, 0, 0, 0⟩

/-- One message and one blocked sender. -/
theorem files_homogenes_exemple : ∃ c c', Accessible c ∧ pas c (.int49 comptage) = .ok c' ∧
    motA c'.s.memoire comptage.ecx.toNat = 2 := by
  obtain ⟨c, hacc, h⟩ := Accessible.scenario (l := attenteFile)
    (Q := fun c => possible c (.int49 comptage) && (c.s.tableauFile 9).any fun f : File =>
      decide (f.queueMsg.length = 1) && decide ((c.s.elems (.file 9)).length = 1)) (by decide +kernel)
  rw [Bool.and_eq_true] at h
  obtain ⟨hp, hf⟩ := h
  obtain ⟨f, hf, hQ⟩ := (Option.any_eq_true _ _).mp hf
  simp only [Bool.and_eq_true, decide_eq_true_eq] at hQ
  obtain ⟨hnb, hlen⟩ := hQ
  have hne : f.queueMsg ≠ [] := by
    intro hx
    rw [hx] at hnb
    cases hnb
  -- the child is in the queue of the file, a sender
  have hc := hacc.valide.stable.coherent
  have hem : ∀ p, p ∈ c.s.elems (.file 9) ↔ c.s.toCore.DansPsend 9 p := by
    rcases hacc.homogene.attente hc hf (List.ne_nil_of_length_pos (by rw [hlen]; exact one_pos)) with
      ⟨hx, -⟩ | ⟨-, hd⟩
    · exact absurd hx hne
    · exact hd
  have hrm : ∀ p, p ∈ ([] : List Ptr) ↔ c.s.toCore.DansPreceive 9 p := by
    intro p
    refine ⟨fun hx => (List.not_mem_nil hx).elim, ?_⟩
    rintro ⟨hv, het, hfid, m, hk⟩
    have hsend := ((hem p).mp (hc.mem_file.mpr ⟨hv, het, hfid⟩)).2.2.2
    rw [hk] at hsend
    cases hsend
  obtain ⟨c', hpas, -, -, hm⟩ := (files_homogenes hacc).2.2 comptage f [] (c.s.elems (.file 9)) hp rfl hf
    (by decide) List.nodup_nil hrm (c.s.chainage.nodup _) hem
  refine ⟨c, c', hacc, hpas, ?_⟩
  rw [hm, if_neg hne, hlen, getNbMsg, hnb]
  rfl

end GenesisOS
