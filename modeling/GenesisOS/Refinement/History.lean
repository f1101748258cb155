import GenesisOS.Lib.CStrings
import GenesisOS.Refinement.Pointers

/-!
# GenesisOS — the history of commands

What a completed `cons_read` saves: `strlen` and `strcpy` read the string of the
caller up to its terminator, wherever that is, and the new entry takes the place of
the oldest one when the history is full.
-/

namespace GenesisOS

open Lib

/-- The C string `l` lies in user memory at `adr`, its terminator included. -/
structure ChaineUser (m : Nat → UInt8) (adr : Nat) (l : List UInt8) : Prop where
  chaine : CString 0 m adr l
  plage : ∀ i ≤ l.length, plageUser (adr + i) 1 = true

section

variable {s : Kernel} {Q : List UInt8 → Kernel → Prop} {n adr : Nat} {l : List UInt8}
  {m : Nat → UInt8}

theorem ChaineUser.cons_iff {c : UInt8} : ChaineUser m adr (c :: l) ↔
    plageUser adr 1 = true ∧ m adr = c ∧ c ≠ 0 ∧ ChaineUser m (adr + 1) l := by
  constructor
  · rintro ⟨h, hp⟩
    obtain ⟨hc, hne, hl⟩ := CString.cons_iff.mp h
    refine ⟨hp 0 (Nat.zero_le _), hc, hne, hl, fun i hi => ?_⟩
    rw [Nat.add_assoc, Nat.add_comm 1]
    exact hp (i + 1) (Nat.succ_le_succ hi)
  · rintro ⟨h0, hc, hne, hl, hp⟩
    refine ⟨CString.cons_iff.mpr ⟨hc, hne, hl⟩, fun i hi => ?_⟩
    cases i with
    | zero => exact h0
    | succ i =>
      have h := hp i (Nat.le_of_succ_le_succ hi)
      rw [Nat.add_assoc, Nat.add_comm 1] at h
      exact h

theorem ChaineUser.nil_iff : ChaineUser m adr [] ↔ plageUser adr 1 = true ∧ m adr = 0 := by
  constructor
  · rintro ⟨h, hp⟩
    exact ⟨hp 0 le_rfl, CString.nil_iff.mp h⟩
  · rintro ⟨hp, h⟩
    exact ⟨CString.nil_iff.mpr h, fun i hi => by rw [Nat.le_zero.mp hi]; exact hp⟩

/-- Reading a string ends when its terminator comes in time. -/
theorem wp_lireChaineBornee_iff (hn : ¬ plageUser (adr + n - 1) 1 = true) (h0 : 0 < n) :
    wp (fun _ => False) (lireChaineBornee n adr) Q s ↔ ∃ l, ChaineUser s.memoire adr l ∧ Q l s := by
  induction n generalizing adr Q with
  | zero => exact absurd h0 (lt_irrefl 0)
  | succ n ih =>
    simp only [lireChaineBornee, lireOctet, wp_bind, wp_get, wp_ite, wp_pure, wp_throw]
    by_cases hp : plageUser adr 1 = true
    swap
    · constructor
      · rintro ⟨-, h⟩
        exact (h hp).elim
      · rintro ⟨l, hl, -⟩
        exact absurd (hl.plage 0 (Nat.zero_le _)) hp
    rw [and_iff_left fun h => absurd hp h, imp_iff_right hp]
    by_cases hc : s.memoire adr = 0
    · rw [imp_iff_right hc, and_iff_left fun h => absurd hc h]
      constructor
      · exact fun h => ⟨[], ChaineUser.nil_iff.mpr ⟨hp, hc⟩, h⟩
      · rintro ⟨l, hl, h⟩
        obtain rfl := (ChaineUser.nil_iff.mpr ⟨hp, hc⟩).chaine.unique hl.chaine
        exact h
    · rw [and_iff_right fun h => absurd h hc, imp_iff_right hc]
      have h0' : 0 < n := by
        rcases Nat.eq_zero_or_pos n with rfl | hpos
        · exact absurd hp hn
        · exact hpos
      rw [ih (by rwa [show adr + 1 + n - 1 = adr + (n + 1) - 1 by omega]) h0']
      constructor
      · rintro ⟨l, hl, h⟩
        exact ⟨s.memoire adr :: l, ChaineUser.cons_iff.mpr ⟨hp, rfl, hc, hl⟩, h⟩
      · rintro ⟨l, hl, h⟩
        cases l with
        | nil => exact absurd (ChaineUser.nil_iff.mp hl).2 hc
        | cons c l =>
          obtain ⟨-, rfl, -, hl⟩ := ChaineUser.cons_iff.mp hl
          exact ⟨l, hl, h⟩

/-- `strlen` and `strcpy` end when there is a terminator in user memory. -/
theorem wp_lireChaine_iff :
    wp (fun _ => False) (lireChaine adr) Q s ↔ ∃ l, ChaineUser s.memoire adr l ∧ Q l s := by
  refine wp_lireChaineBornee_iff ?_ (Nat.succ_pos _)
  unfold plageUser
  rw [Bool.and_eq_true, decide_eq_true_eq, decide_eq_true_eq]
  omega

end

-- ---------------------------------------------------------------------------
-- Saving a line
-- ---------------------------------------------------------------------------

/-- The history without its oldest entry. -/
def Clavier.decale (k : Clavier) : Clavier := { k with
  history := fun j => if j < HISTORY_SIZE - 1 then k.history (j + 1) else k.history j
  indexHistory := k.indexHistory - 1 }

/-- The history with a new entry, on which the cursor is put. -/
def Clavier.inscrit (k : Clavier) (h : Ligne) : Clavier := { k with
  history := Function.update k.history k.indexHistory (some h)
  indexHistory := k.indexHistory + 1
  currentIndexHistory := k.indexHistory + 1 }

/-- A new entry for the line that has been read. -/
def pose (texte : List UInt8) : M Unit := do
  let adr ← memAllocNonNul .consRead (texte.length + 1)
  surClavier fun k => k.inscrit ⟨adr, texte⟩

/-- `memorise`, the string being read. -/
def inscris (texte : List UInt8) : M Unit := do
  evince
  pose texte

/-- The end of `cons_read`, from the saving of the line on; `n` characters are taken. -/
def consReadFin (texte : List UInt8) (n : Nat) : M Suite := do
  inscris texte
  surClavier fun k => { k with
    tampon := fun j => if j < k.ptampon - n then k.tampon (j + n) else 0
    ptampon := k.ptampon - n
    lectures := k.lectures ++ [(List.range n).map k.tampon] }
  pure (.retour n)

section

variable {s : Kernel} {Q : Unit → Kernel → Prop} {string : Nat} {texte : List UInt8}
  {m : Nat → UInt8}

theorem wp_evince_iff : wp (fun _ => False) evince Q s ↔
    if s.clavier.indexHistory = HISTORY_SIZE then
      ∃ h, s.clavier.history 0 = some h ∧ s.blocs h.adr = some (h.texte.length + 1) ∧
        Q () { s with
          blocs := Function.update s.blocs h.adr none
          clavier := s.clavier.decale }
    else Q () s := by
  rw [evince, wp_bind, wp_get]
  by_cases hi : s.clavier.indexHistory = HISTORY_SIZE
  · rw [if_pos hi, if_pos hi]
    cases hh : s.clavier.history 0 with
    | none => exact ⟨False.elim, nofun⟩
    | some h =>
      simp only [memFree, surClavier, wp_bind, wp_get, wp_ite, wp_set, wp_throw, wp_modify,
        Option.some.injEq, exists_eq_left']
      by_cases hb : s.blocs h.adr = some (h.texte.length + 1)
      · rw [imp_iff_right hb, and_iff_left fun hx => absurd hb hx, and_iff_right hb]
        exact Iff.rfl
      · exact ⟨fun hx => (hx.2 hb).elim, fun hx => absurd hx.1 hb⟩
  · rw [if_neg hi, if_neg hi]
    exact Iff.rfl

/-- The state with a new entry. -/
def Kernel.inscrit (s : Kernel) (texte : List UInt8) : Kernel := { s with
  prochain := s.prochain + 1
  blocs := Function.update s.blocs s.prochain (some (texte.length + 1))
  clavier := s.clavier.inscrit ⟨s.prochain, texte⟩ }

theorem wp_pose_iff : wp (fun _ => False) (pose texte) Q s ↔
    s.materiel.memAlloc s.prochain = true ∧ Q () (s.inscrit texte) := by
  simp only [pose, memAllocNonNul, memAlloc, surClavier, wp_bind, wp_get, wp_ite, wp_set, wp_pure,
    wp_throw, wp_modify]
  constructor
  · rintro ⟨h, h'⟩
    by_cases ha : s.materiel.memAlloc s.prochain = true
    · exact ⟨ha, h ha⟩
    · exact (h' ha).elim
  · rintro ⟨ha, h⟩
    exact ⟨fun _ => h, fun h' => absurd ha h'⟩

/-- Saving a line that has been read does not depend on user memory. -/
theorem wp_inscris_memoire : wp (fun _ => False) (inscris texte) Q { s with memoire := m } ↔
    wp (fun _ => False) (inscris texte) (fun a s' => Q a { s' with memoire := m }) s := by
  rw [inscris, wp_bind, wp_bind, wp_evince_iff, wp_evince_iff]
  simp only [wp_pose_iff]
  exact Iff.rfl

theorem wp_memorise_iff : wp (fun _ => False) (memorise string) Q s ↔
    ∃ texte, ChaineUser s.memoire string texte ∧ wp (fun _ => False) (inscris texte) Q s := by
  have hmem : memorise string = evince >>= fun _ => lireChaine string >>= pose := rfl
  have hlit : ∀ s₁ : Kernel, s₁.memoire = s.memoire →
      (wp (fun _ => False) (lireChaine string >>= pose) Q s₁ ↔
        ∃ texte, ChaineUser s.memoire string texte ∧ wp (fun _ => False) (pose texte) Q s₁) := by
    intro s₁ h₁
    rw [wp_bind, wp_lireChaine_iff, h₁]
  simp only [hmem, inscris, wp_bind (m := evince), wp_evince_iff]
  by_cases hi : s.clavier.indexHistory = HISTORY_SIZE
  · simp only [hi, if_true]
    constructor
    · rintro ⟨h, hh, hb, hw⟩
      obtain ⟨texte, ht, hw⟩ := (hlit { s with
        blocs := Function.update s.blocs h.adr none
        clavier := s.clavier.decale } rfl).mp hw
      exact ⟨texte, ht, h, hh, hb, hw⟩
    · rintro ⟨texte, ht, h, hh, hb, hw⟩
      exact ⟨h, hh, hb, (hlit { s with
        blocs := Function.update s.blocs h.adr none
        clavier := s.clavier.decale } rfl).mpr ⟨texte, ht, hw⟩⟩
  · simp only [hi, if_false]
    exact hlit s rfl

end

-- ---------------------------------------------------------------------------
-- A completed call
-- ---------------------------------------------------------------------------

/-- The state in which `cons_read` saves the line. -/
def Kernel.lu (s : Kernel) (string length : Nat) : Kernel := { s with
  memoire := s.memoireLue string length
  clavier := { s.clavier with read := false } }

section

variable {s s' : Kernel} {string length : Nat} {v : Int} {m : Nat → UInt8}

theorem wp_copieTampon_iff {Q : Unit → Kernel → Prop} {n : Nat}
    (hplage : plageUser string length = true) (hn : n ≤ length) :
    wp (fun _ => False) (copieTampon string n) Q s ↔ Q () { s with
      memoire := fun a =>
        if string ≤ a ∧ a < string + n then s.clavier.tampon (a - string) else s.memoire a } :=
  wp_of_run (wp_run.mp (wp_copieTampon hplage n hn fun _ h => ⟨rfl, h⟩))

/-- A call for several characters returns when it does not block, the string of the
caller lies in user memory, and what is saved of it has a terminator there. -/
theorem consRead_retour_iff (h1 : 1 < length) :
    consRead string length s = .ok (.retour v, s') ↔
      ¬ s.clavier.Bloque length ∧ plageUser string length = true ∧ ∃ texte,
        ChaineUser (s.memoireLue string length) string texte ∧
          consReadFin texte (s.clavier.preleve length) (s.lu string length) =
            .ok (.retour v, s') := by
  have h0 : length ≠ 0 := by omega
  simp only [← wp_run]
  rw [consRead, wp_bind, wp_get, if_neg h0]
  by_cases hb : s.clavier.Bloque length
  · rw [if_pos (show s.clavier.read = false ∧ _ from hb)]
    simp only [hb, not_true_eq_false, false_and, iff_false]
    intro h
    simp only [wp_bind, wp_pure] at h
    obtain ⟨-, s₁, -, h⟩ := wp_exists h
    obtain ⟨-, s₂, -, hx, -⟩ := wp_exists h
    cases hx
  rw [if_neg (show ¬ (s.clavier.read = false ∧ _) from hb)]
  by_cases hplage : plageUser string length = true
  swap
  · simp only [memsetUser, h0, hplage, if_false, wp_bind]
    exact ⟨False.elim, fun h => absurd h.2.1 Bool.false_ne_true⟩
  have hn := s.clavier.preleve_le length
  rw [wp_bind, memsetUser, if_neg h0, if_pos hplage, wp_modify, wp_bind]
  rw [show surClavier (fun k : Clavier => { k with read := false }) = (modify fun s : Kernel =>
    { s with clavier := { s.clavier with read := false } } : M Unit) from rfl, wp_modify]
  rw [show min (BitVec.ofNat 32 length).toInt.toNat s.clavier.ptampon = s.clavier.preleve length
    from rfl, wp_bind, wp_copieTampon_iff hplage hn]
  rw [if_pos h1, wp_bind, wp_memorise_iff, and_iff_right hb, and_iff_right hplage]
  refine exists_congr fun texte => and_congr Iff.rfl ?_
  rw [consReadFin, wp_bind]
  exact Iff.rfl

theorem wp_consReadFin_iff {Q : Suite → Kernel → Prop} {texte : List UInt8} {n : Nat} :
    wp (fun _ => False) (consReadFin texte n) Q s ↔
      wp (fun _ => False) (inscris texte) (fun _ s₁ => Q (.retour n) { s₁ with
        clavier := { s₁.clavier with
          tampon := fun j => if j < s₁.clavier.ptampon - n then s₁.clavier.tampon (j + n) else 0
          ptampon := s₁.clavier.ptampon - n
          lectures := s₁.clavier.lectures ++ [(List.range n).map s₁.clavier.tampon] } }) s := by
  rw [consReadFin, wp_bind]
  exact Iff.rfl

/-- The call returns the number of characters taken, and the newest entry of the
history is the string it has read. -/
theorem consReadFin_retour {texte : List UInt8} {n : Nat}
    (h : consReadFin texte n s = .ok (.retour v, s')) : v = n ∧ s'.memoire = s.memoire ∧
      ∃ i a, s'.clavier.indexHistory = i + 1 ∧ s'.clavier.history i = some ⟨a, texte⟩ := by
  rw [← wp_run, wp_consReadFin_iff, inscris, wp_bind, wp_evince_iff] at h
  have hpose : ∀ (t : Kernel), t.memoire = s.memoire → wp (fun _ => False) (pose texte) (fun _ s₁ =>
      Suite.retour (n : Int) = .retour v ∧ { s₁ with
        clavier := { s₁.clavier with
          tampon := fun j => if j < s₁.clavier.ptampon - n then s₁.clavier.tampon (j + n) else 0
          ptampon := s₁.clavier.ptampon - n
          lectures := s₁.clavier.lectures ++ [(List.range n).map s₁.clavier.tampon] } } = s') t →
      v = n ∧ s'.memoire = s.memoire ∧
        ∃ i a, s'.clavier.indexHistory = i + 1 ∧ s'.clavier.history i = some ⟨a, texte⟩ := by
    intro t ht hp
    rw [wp_pose_iff] at hp
    obtain ⟨-, hv, rfl⟩ := hp
    exact ⟨(Suite.retour.inj hv).symm, ht, t.clavier.indexHistory, t.prochain, rfl,
      Function.update_self _ _ _⟩
  split at h
  · obtain ⟨h₀, -, -, h⟩ := h
    exact hpose { s with
      blocs := Function.update s.blocs h₀.adr none
      clavier := s.clavier.decale } rfl h
  · exact hpose s rfl h

/-- What follows the reading of the string does not depend on user memory. -/
theorem consReadFin_memoire {texte : List UInt8} {n : Nat} {x : Suite}
    (h : consReadFin texte n s = .ok (x, s')) :
    consReadFin texte n { s with memoire := m } = .ok (x, { s' with memoire := m }) := by
  rw [← wp_run, wp_consReadFin_iff] at h ⊢
  rw [wp_inscris_memoire]
  refine wp_imp h ?_
  rintro _ s₁ ⟨rfl, rfl⟩
  exact ⟨rfl, rfl⟩

end

end GenesisOS
