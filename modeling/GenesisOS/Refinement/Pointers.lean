import GenesisOS.Refinement.Frames
import GenesisOS.Abstract.Transitions

/-!
# GenesisOS — accesses through pointer arguments

`Acces c e adr n`: the step accesses the `n` bytes at `adr` through a pointer
argument of a system call. A step that only makes accesses that `E` admits stops
at faults of `E`, and leaves the keyboard variables alone unless it runs
`keyboard_data` or `cons_read`; `wp_consRead` says what a call of `cons_read` does.
-/

namespace GenesisOS

open Lib

-- ---------------------------------------------------------------------------
-- The accesses of a step
-- ---------------------------------------------------------------------------

/-- `cons_read` cannot return: no end of line, and too few characters. -/
def Clavier.Bloque (k : Clavier) (length : Nat) : Prop :=
  k.read = false ∧ (k.ptampon : Int) < (BitVec.ofNat 32 length).toInt

/-- The number of characters `cons_read` takes. -/
def Clavier.preleve (k : Clavier) (length : Nat) : Nat :=
  min (BitVec.ofNat 32 length).toInt.toNat k.ptampon

/-- Memory when `cons_read` has filled the string of the caller. -/
def Kernel.memoireLue (s : Kernel) (string length : Nat) : Nat → UInt8 := fun a =>
  if string ≤ a ∧ a < string + s.clavier.preleve length then s.clavier.tampon (a - string)
  else if string ≤ a ∧ a < string + length then 0
  else s.memoire a

/-- `cons_read` clears the whole string, and reads it back to save it. -/
def AccesLecture (s : Kernel) (string length adr n : Nat) : Prop :=
  length ≠ 0 ∧ ¬ s.clavier.Bloque length ∧
    ((adr = string ∧ n = length) ∨
      (1 < length ∧ n = 1 ∧ ∃ i, i < USER_END - string + 1 ∧ adr = string + i ∧
        ∀ j < i, s.memoireLue string length (string + j) ≠ 0))

/-- The accesses of a system call. -/
def AccesAppel (s : Kernel) (r : Registres) (adr n : Nat) : Prop :=
  match r.service with
  | some .consPutbytes | some .consWrite =>
    isUserSpace r.ebx = true ∧ n = 1 ∧ ∃ i < r.ecx.toInt.toNat, adr = r.ebx.toNat + i
  | some .start =>
    isUserSpace r.ebx = true ∧ isUserSpace r.esi = true ∧ r.esi ≠ 0 ∧ n = 1 ∧
      ∃ m, s.CopieNom r.ecx.toNat r.edx.toInt m ∧
        ∃ i < 19, adr = r.esi.toNat + i ∧ ∀ j < i, m (r.esi.toNat + j) ≠ 0
  | some .pcount =>
    isUserSpace r.ecx = true ∧ isFidValideAndExist s r.ebx.toInt = true ∧ r.ecx ≠ 0 ∧
      adr = r.ecx.toNat ∧ n = 4
  | some .preceive =>
    isUserSpace r.ecx = true ∧ isFidValideAndExist s r.ebx.toInt = true ∧
      (∃ f, s.tableauFile r.ebx.toInt = some f ∧ f.queueMsg ≠ []) ∧ r.ecx ≠ 0 ∧
        adr = r.ecx.toNat ∧ n = 4
  | some .clockSettings =>
    isUserSpace r.ebx = true ∧ isUserSpace r.ecx = true ∧ n = 4 ∧
      (adr = r.ebx.toNat ∨ adr = r.ecx.toNat)
  | some .waitpid =>
    isUserSpace r.ecx = true ∧ s.Recolte r.ebx.toInt ∧ r.ecx ≠ 0 ∧ adr = r.ecx.toNat ∧ n = 4
  | some .consRead => isUserSpace r.ebx = true ∧ AccesLecture s r.ebx.toNat r.ecx.toNat adr n
  | _ => False

/-- The accesses of a suspended call that continues. -/
def AccesReprise (s : Kernel) (k : Reprise) (adr n : Nat) : Prop :=
  match k with
  | .preceive message =>
    (s.tas s.procElu).operationStatus ≠ 0 ∧ message ≠ 0 ∧ adr = message ∧ n = 4
  | .waitpid _ p retvalp => (s.tas p).etat = .zombie ∧ retvalp ≠ 0 ∧ adr = retvalp ∧ n = 4
  | .waitpidFils _ retvalp =>
    (∃ f ∈ (s.tas s.procElu).filsTete, (s.tas f.procFils).etat = .zombie) ∧ retvalp ≠ 0 ∧
      adr = retvalp ∧ n = 4
  | .consRead string length => AccesLecture s string length adr n
  | _ => False

/-- The step accesses the `n` bytes at `adr` through a pointer argument. -/
def Acces (c : Config) (e : Signal) (adr n : Nat) : Prop :=
  match e with
  | .int49 r => AccesAppel c.s r adr n
  | .suite => AccesReprise c.s (c.s.tas c.s.procElu).contexte adr n
  | _ => False

section

variable {E : Faute → Prop} {s : Kernel}

-- ---------------------------------------------------------------------------
-- `cons_read`
-- ---------------------------------------------------------------------------

/-- A call of `cons_read` has taken characters from the buffer. -/
structure Lecture (s : Kernel) (string length : Nat) (s' : Kernel) : Prop where
  memoire : s'.memoire = s.memoireLue string length
  tampon : s'.clavier.tampon = fun j =>
    if j < s.clavier.ptampon - s.clavier.preleve length then
      s.clavier.tampon (j + s.clavier.preleve length)
    else 0
  ptampon : s'.clavier.ptampon = s.clavier.ptampon - s.clavier.preleve length
  read : s'.clavier.read = false
  frappes : s'.clavier.frappes = s.clavier.frappes
  lectures : s'.clavier.lectures =
    s.clavier.lectures ++ [(List.range (s.clavier.preleve length)).map s.clavier.tampon]

theorem Clavier.preleve_le (k : Clavier) (length : Nat) : k.preleve length ≤ length := by
  have hle : (BitVec.ofNat 32 length).toInt ≤ length := by
    have hmod := Nat.mod_le length (2 ^ 32)
    rw [BitVec.toInt_eq_toNat_cond, BitVec.toNat_ofNat]
    split <;> omega
  unfold Clavier.preleve
  omega

theorem Kernel.memoireLue_of_preleve {string length i : Nat} (h : i < s.clavier.preleve length) :
    s.memoireLue string length (string + i) = s.clavier.tampon i := by
  unfold Kernel.memoireLue
  rw [if_pos ⟨Nat.le_add_right _ _, Nat.add_lt_add_left h _⟩, Nat.add_sub_cancel_left]

/-- The loop that copies the characters. -/
theorem wp_copieTampon {string length : Nat} (hplage : plageUser string length = true) (k : Nat)
    (hk : k ≤ length) {Q : Unit → Kernel → Prop}
    (hQ : ∀ s', s' = { s with memoire := fun a =>
      if string ≤ a ∧ a < string + k then s.clavier.tampon (a - string) else s.memoire a } →
        Q () s') : wp E (copieTampon string k) Q s := by
  induction k generalizing Q with
  | zero =>
    refine hQ s ?_
    have hm : (fun a => if string ≤ a ∧ a < string + 0 then s.clavier.tampon (a - string)
        else s.memoire a) = s.memoire := by
      funext a
      rw [if_neg (by omega)]
    rw [hm]
  | succ k ih =>
    have hoctet : plageUser (string + k) 1 = true := by
      simp only [plageUser, Bool.and_eq_true, decide_eq_true_eq] at hplage ⊢
      omega
    rw [copieTampon, List.range_succ, wp_forM_append]
    refine ih (Nat.le_of_succ_le hk) ?_
    rintro s' rfl
    show wp E (do
      let s ← get
      ecrireOctet (string + k) (s.clavier.tampon k)
      pure ()) Q _
    simp only [ecrireOctet, hoctet, if_true, wp_bind, wp_get, wp_modify, wp_pure]
    refine hQ _ ?_
    congr 1
    funext a
    rw [Function.update_apply]
    by_cases ha : a = string + k
    · rw [if_pos ha, if_pos (by omega), ha, Nat.add_sub_cancel_left]
    · rw [if_neg ha]
      have hiff : string ≤ a ∧ a < string + (k + 1) ↔ string ≤ a ∧ a < string + k := by omega
      rw [if_congr hiff rfl rfl]

/-- The keyboard variables without the history, and user memory. -/
def Kernel.saisie (s : Kernel) : Clavier × (Nat → UInt8) :=
  ({ s.clavier with history := fun _ => none, indexHistory := 0, currentIndexHistory := 0 },
    s.memoire)

/-- Saving the line only changes the history. -/
theorem wp_memorise_saisie {string : Nat} (hE : ∀ f : Faute, f.Interne → E f)
    (hl : Lisible E s.memoire string (USER_END - string + 1)) :
    wp E (memorise string) (fun _ s' => s'.saisie = s.saisie) s := by
  have hevince : Keeps E Kernel.saisie evince := by
    refine .of_bind .of_get fun s => .of_ite ?_ (.of_pure _)
    cases s.clavier.history 0 with
    | none => exact .of_throw (hE _ (by rintro ⟨⟩))
    | some h =>
      refine .of_bind (fun s => ?_) fun _ => .of_modify fun _ => rfl
      simp only [memFree, wp_bind, wp_get]
      split
      · rfl
      · exact hE _ (by rintro ⟨⟩)
  rw [memorise, wp_bind]
  refine wp_imp (hevince s) fun _ s₁ h₁ => ?_
  have hm : s₁.memoire = s.memoire := congrArg Prod.snd h₁
  rw [wp_bind]
  refine wp_imp (wp_lireChaineBornee (g := id) (by rw [hm]; exact hl)) ?_
  rintro texte s₂ rfl
  simp only [memAllocNonNul, memAlloc, wp_bind, wp_get]
  split
  · exact h₁
  · exact hE _ (by rintro ⟨⟩)

/-- A call of `cons_read` that only makes accesses that `E` admits: it returns at
once for a null length, blocks, or takes characters. -/
theorem wp_consRead {Q : Suite → Kernel → Prop} {string length : Nat}
    (hE : ∀ f : Faute, f.Interne → E f)
    (hA : ∀ adr n, AccesLecture s string length adr n → Admet E adr n)
    (hrien : length = 0 → Q (.retour 0) s)
    (hbloque : length ≠ 0 → s.clavier.Bloque length → ∀ s', s' = { s with
      toCore := (s.toCore.maj s.procElu fun r => { r with etat := .attendEs }).ajoute
        .procBloqueEs s.procElu (·.prio) } → Q (.ordonnanceur (.consRead string length)) s')
    (hlit : length ≠ 0 → ¬ s.clavier.Bloque length → ∀ s', Lecture s string length s' →
      Q (.retour (s.clavier.preleve length)) s') :
    wp E (consRead string length) Q s := by
  rw [consRead, wp_bind, wp_get]
  by_cases h0 : length = 0
  · rw [if_pos h0]
    exact hrien h0
  rw [if_neg h0]
  by_cases hb : s.clavier.Bloque length
  · rw [if_pos (show s.clavier.read = false ∧ _ from hb)]
    simp only [ecrire, queueAdd, surCore, wp_bind, wp_get, wp_ite, wp_modify, wp_throw, wp_pure]
    exact ⟨fun _ => ⟨fun _ => hbloque h0 hb _ rfl, fun _ => hE _ (by rintro ⟨⟩)⟩,
      fun _ => hE _ (by rintro ⟨⟩)⟩
  rw [if_neg (show ¬ (s.clavier.read = false ∧ _) from hb)]
  by_cases hplage : plageUser string length = true
  swap
  · simp only [memsetUser, h0, hplage, if_false, wp_bind]
    exact (hA string length ⟨h0, hb, .inl ⟨rfl, rfl⟩⟩).resolve_left hplage
  have hn := s.clavier.preleve_le length
  simp only [memsetUser, h0, hplage, if_false, if_true, wp_bind, wp_modify]
  refine wp_copieTampon hplage _ hn ?_
  intro s₁ h₁
  have hsaisie : s₁.saisie = ({ s with
      memoire := s.memoireLue string length
      clavier := { s.clavier with read := false } } : Kernel).saisie := by
    subst h₁
    rfl
  have hfin : ∀ s' : Kernel, s'.saisie = s₁.saisie → wp E (do
      surClavier fun k => { k with
        tampon := fun j => if j < k.ptampon - s.clavier.preleve length then
          k.tampon (j + s.clavier.preleve length) else 0
        ptampon := k.ptampon - s.clavier.preleve length
        lectures := k.lectures ++ [(List.range (s.clavier.preleve length)).map k.tampon] }
      pure (.retour (s.clavier.preleve length)) : M Suite) Q s' := by
    intro s' hs'
    rw [hsaisie] at hs'
    have htampon : s'.clavier.tampon = s.clavier.tampon := congrArg (fun x => x.1.tampon) hs'
    have hptampon : s'.clavier.ptampon = s.clavier.ptampon := congrArg (fun x => x.1.ptampon) hs'
    have hread : s'.clavier.read = false := congrArg (fun x => x.1.read) hs'
    have hfrappes : s'.clavier.frappes = s.clavier.frappes := congrArg (fun x => x.1.frappes) hs'
    have hlectures : s'.clavier.lectures = s.clavier.lectures :=
      congrArg (fun x => x.1.lectures) hs'
    refine hlit h0 hb _ ⟨congrArg Prod.snd hs', ?_, ?_, hread, hfrappes, ?_⟩
    · show (fun j => if j < s'.clavier.ptampon - _ then s'.clavier.tampon (j + _) else 0) = _
      rw [hptampon, htampon]
    · show s'.clavier.ptampon - _ = _
      rw [hptampon]
    · show s'.clavier.lectures ++ [(List.range _).map s'.clavier.tampon] = _
      rw [hlectures, htampon]
  split
  · next h1 =>
    rw [wp_bind]
    refine wp_imp (wp_memorise_saisie hE ?_) fun _ s' hs' => hfin s' hs'
    intro i hi hnz
    have hm : s₁.memoire = s.memoireLue string length := congrArg Prod.snd hsaisie
    rw [hm] at hnz
    exact hA _ 1 ⟨h0, hb, .inr ⟨h1, rfl, i, hi, rfl, hnz⟩⟩
  · exact hfin s₁ rfl

-- ---------------------------------------------------------------------------
-- System calls
-- ---------------------------------------------------------------------------

theorem sobreEn_garde {b : Bool} {m : M Suite} (h : b = true → SobreEn E m s) :
    SobreEn E (if !b then pure (.retour (-1)) else m) s := by
  cases b with
  | false => rfl
  | true => exact h rfl

theorem sobreEn_deuxGardes {b b' : Bool} {m : M Suite}
    (h : b = true → b' = true → SobreEn E m s) :
    SobreEn E (if !b || !b' then pure (.retour (-1)) else m) s := by
  rw [← Bool.not_and]
  refine sobreEn_garde fun hu => ?_
  rw [Bool.and_eq_true] at hu
  exact h hu.1 hu.2

/-- The system calls other than `cons_read`. -/
theorem sobreEn_traitant {r : Registres} (hE : ∀ f : Faute, f.Interne → E f)
    (hA : ∀ adr n, AccesAppel s r adr n → Admet E adr n) (hcr : r.service ≠ some .consRead) :
    SobreEn E (traitantIT49Switch r) s := by
  unfold AccesAppel at hA
  unfold traitantIT49Switch
  have ecrit : ∀ k : Nat, (isUserSpace r.ebx = true → ∀ i < k, Admet E (r.ebx.toNat + i) 1) →
      SobreEn E (if !isUserSpace r.ebx then pure (.retour (-1))
        else sansValeur (consWrite k r.ebx.toNat)) s := fun k h => sobreEn_garde fun hu =>
    Keeps.of_bind (keeps_consWrite hE (h hu)) (fun _ => .of_pure _) s
  cases hsv : r.service with
  | none => rfl
  | some sv =>
    rw [hsv] at hA
    cases sv
    case getpid => exact discret_getpid.sobre.mono hE s
    case consPutbytes => exact ecrit _ fun hu i hi => hA _ 1 ⟨hu, rfl, i, hi, rfl⟩
    case consWrite => exact ecrit _ fun hu i hi => hA _ 1 ⟨hu, rfl, i, hi, rfl⟩
    case start =>
      refine sobreEn_deuxGardes fun hebx hesi => sobreEn_start hE fun a m ha hm i hi hnz => ?_
      unfold nomUser at ha
      split at ha
      · cases ha
      · next hne =>
        cases ha
        exact hA _ 1 ⟨hebx, hesi, hne, rfl, m, hm, i, hi, rfl, hnz⟩
    case exit => exact (discret_exit _).sobre.mono hE s
    case kill => exact (sobre_kill _).mono hE s
    case ps => exact (sobre_sansValeur discret_afficheTableProcess.sobre).mono hE s
    case getprio => exact (discret_getprio _).sobre.mono hE s
    case chprio => exact (discret_chprio _ _).sobre.mono hE s
    case pcount =>
      refine sobreEn_garde fun hu => ?_
      by_cases hf : isFidValideAndExist s r.ebx.toInt = true
      · exact keeps_pcount hE (fun h0 => hA _ 4 ⟨hu, hf, fun hx => h0 (by rw [hx]; rfl), rfl, rfl⟩) s
      · unfold SobreEn
        simp only [pcount, wp_bind, wp_get, hf, Bool.not_false, if_true]
        rfl
    case pcreate => exact (sobre_pcreate _).mono hE s
    case pdelete => exact (sobre_pdelete _).mono hE s
    case preceive =>
      refine sobreEn_garde fun hu => ?_
      by_cases hf : isFidValideAndExist s r.ebx.toInt = true
      · exact sobreEn_preceive hE fun f hf' hne h0 =>
          hA _ 4 ⟨hu, hf, ⟨f, hf', hne⟩, fun hx => h0 (by rw [hx]; rfl), rfl, rfl⟩
      · unfold SobreEn
        simp only [preceive, wp_bind, wp_get, hf, Bool.not_false, if_true]
        rfl
    case preset => exact (sobre_preset _).mono hE s
    case psend => exact (sobre_psend _ _).mono hE s
    case clockSettings =>
      refine sobreEn_deuxGardes fun hebx hecx => ?_
      exact Keeps.of_bind (keeps_clockSettings (hA _ 4 ⟨hebx, hecx, rfl, .inl rfl⟩)
        (hA _ 4 ⟨hebx, hecx, rfl, .inr rfl⟩)) (fun _ => .of_pure _) s
    case currentClock => rfl
    case waitClock => exact (discret_waitClock _).sobre.mono hE s
    case waitpid =>
      refine sobreEn_garde fun hu => sobreEn_waitpid hE fun hr h0 => ?_
      exact hA _ 4 ⟨hu, hr, fun hx => h0 (by rw [hx]; rfl), rfl, rfl⟩
    case consEcho => exact (sobre_sansValeur (sobre_surConsole _)).mono hE s
    case consRead => exact absurd hsv hcr
    case exitKernel => exact hE _ (by rintro ⟨⟩)
    case setColor => exact (sobre_sansValeur (sobre_surConsole _)).mono hE s
    case scount => exact (discret_scount _).sobre.mono hE s
    case screate => exact (sobre_screate _).mono hE s
    case sdelete => exact (sobre_sdelete _).mono hE s
    case sreset => exact (sobre_sreset _ _).mono hE s
    case signal => exact (sobre_signal _).mono hE s
    case signaln => exact (sobre_signaln _ _).mono hE s
    case tryWait => exact (sobre_tryWait _).mono hE s
    case wait => exact (sobre_wait _).mono hE s
    case playSound => rfl
    case consSwitchEcho => exact (sobre_sansValeur (sobre_surConsole _)).mono hE s
    case setIdStart => exact (sobre_sansValeur (sobre_surConsole _)).mono hE s
    case echoHist => exact (sobre_sansValeur discret_afficherHistorique.sobre).mono hE s

/-- The call that continues runs neither `keyboard_data` nor `cons_read`. -/
def Reprise.SansClavier : Reprise → Prop
  | .consRead _ _ | .keyboardData _ | .keyboardFin => False
  | _ => True

/-- The suspended calls other than `cons_read` and `keyboard_data`. -/
theorem sobreEn_reprend {k : Reprise} (hE : ∀ f : Faute, f.Interne → E f)
    (hA : ∀ adr n, AccesReprise s k adr n → Admet E adr n) (hk : k.SansClavier) :
    SobreEn E (reprend k) s := by
  cases k with
  | debut | retour | iret => rfl
  | exitFin => exact hE _ nofun
  | psend => exact discret_psendReprise.sobre.mono hE s
  | preceive message => exact sobreEn_preceiveReprise hE fun ho h0 => hA _ 4 ⟨ho, h0, rfl, rfl⟩
  | wait => exact discret_waitReprise.sobre.mono hE s
  | waitpid pid p retvalp => exact sobreEn_waitpidBoucle hE fun hz h0 => hA _ 4 ⟨hz, h0, rfl, rfl⟩
  | waitpidFils pid retvalp =>
    exact sobreEn_waitpidFilsBoucle hE fun hz h0 => hA _ 4 ⟨hz, h0, rfl, rfl⟩
  | consRead | keyboardData | keyboardFin => exact hk.elim
  | ticPIT => exact discret_ticPITFin.sobre.mono hE s

-- ---------------------------------------------------------------------------
-- Start-up and steps
-- ---------------------------------------------------------------------------

theorem sobre_initListHead (t : Tete) : Sobre (initListHead t) := sobre_surCore _

theorem sobre_initPids (n : Nat) (pid : Int) : Sobre (initPids n pid) := by
  induction n generalizing pid with
  | zero => exact .of_pure _
  | succ n ih =>
    exact .of_bind (sobre_memAllocNonNul _ _) fun _ => .of_bind (sobre_surCore _) fun _ => ih _

theorem sobre_initIdle : Sobre initIdle := by
  refine .of_bind sobre_allocProcessus fun o => ?_
  cases o with
  | none => exact .of_throw nofun
  | some p => exact .of_bind (sobre_ecrire _ _ _) fun _ => sobre_surCore _

/-- Start-up leaves the keyboard variables alone. -/
theorem sobre_kernelStart : Sobre kernelStart := by
  refine .of_bind (sobre_traiteCar _) fun _ => .of_bind ?_ fun x => sobre_termine x
  refine .of_bind (sobre_initPids _ _) fun _ => .of_bind ?_ fun _ => ?_
  · exact .of_bind (sobre_initListHead _) fun _ => .of_bind (sobre_initListHead _) fun _ =>
      .of_bind (sobre_initListHead _) fun _ => sobre_initListHead _
  refine .of_bind (.of_forM (fun i : Nat => sobre_addSid i) _) fun _ => .of_bind sobre_initIdle fun _ => ?_
  refine .of_bind (.of_forM (fun i : Nat => sobre_addFid i) _) fun _ => ?_
  have hstart : Sobre (start 0 1 (.noyau (octets "USER")) 0) := fun s =>
    sobreEn_start (fun _ h => h) nofun
  refine .of_bind hstart fun x => ?_
  cases x <;> exact .of_pure _

theorem depart_clavier {mat : Materiel} {m : Nat → UInt8} {c : Config} (h : depart mat m = .ok c) :
    c.s.clavier = {} := by
  have hs := sobre_kernelStart (etatZero mat m)
  unfold depart at h
  cases hm : kernelStart (etatZero mat m) with
  | ok r =>
    rw [hm] at h
    cases h
    exact congrArg Prod.fst (wp_ok hs hm)
  | error f =>
    rw [hm] at h
    cases h

/-- The step runs neither `keyboard_data` nor `cons_read`. -/
def Config.SansClavier (c : Config) (e : Signal) : Prop :=
  match e with
  | .int49 r => r.service ≠ some .consRead
  | .int33 _ => False
  | .suite => (c.s.tas c.s.procElu).contexte.SansClavier
  | _ => True

/-- The accesses of a suspended call do not depend on its return point. -/
theorem AccesReprise.depile {k k' : Reprise} {adr n : Nat}
    (h : AccesReprise { s with
      toCore := s.toCore.maj s.procElu fun r => { r with contexte := k' } } k adr n) :
    AccesReprise s k adr n := by
  have htas : ∀ x, ((s.toCore.maj s.procElu fun r => { r with contexte := k' }).tas x).etat =
        (s.tas x).etat ∧
      ((s.toCore.maj s.procElu fun r => { r with contexte := k' }).tas x).operationStatus =
        (s.tas x).operationStatus ∧
      ((s.toCore.maj s.procElu fun r => { r with contexte := k' }).tas x).filsTete =
        (s.tas x).filsTete := by
    intro x
    rw [Core.tas_maj]
    split
    · next hx =>
      subst hx
      exact ⟨rfl, rfl, rfl⟩
    · exact ⟨rfl, rfl, rfl⟩
  cases k with
  | preceive message => exact ⟨(htas _).2.1 ▸ h.1, h.2⟩
  | waitpid pid p retvalp => exact ⟨(htas _).1 ▸ h.1, h.2⟩
  | waitpidFils pid retvalp =>
    obtain ⟨⟨f, hf, hz⟩, h⟩ := h
    exact ⟨⟨f, (htas _).2.2 ▸ hf, (htas _).1 ▸ hz⟩, h⟩
  | _ => exact h

/-- The code a step runs, on the state it starts from. -/
theorem wp_segment_suite {c : Config} {Q : Suite → Kernel → Prop}
    (hE : ∀ f : Faute, f.Interne → E f)
    (h : c.s.vivant c.s.procElu = true → wp E (reprend (c.s.tas c.s.procElu).contexte) Q { c.s with
      toCore := c.s.toCore.maj c.s.procElu fun r => { r with contexte := .iret } }) :
    wp E (segment c .suite) Q c.s := by
  simp only [segment, lire, ecrire, surCore, wp_bind, wp_get]
  split
  · next hv =>
    simp only [wp_pure, hv, if_true, wp_modify]
    exact h hv
  · exact hE _ (by rintro ⟨⟩)

/-- A step that runs neither `keyboard_data` nor `cons_read` leaves the keyboard
variables alone, and stops only at faults of `E` when `E` admits its accesses. -/
theorem wp_segment_sobre {c : Config} {e : Signal} (hE : ∀ f : Faute, f.Interne → E f)
    (hA : ∀ adr n, Acces c e adr n → Admet E adr n) (hc : c.SansClavier e) :
    wp E (segment c e) (fun _ s' => s'.clavier = c.s.clavier) c.s := by
  have hclavier : ∀ {m : M Suite} {s : Kernel}, s.clavier = c.s.clavier → SobreEn E m s →
      wp E m (fun _ s' => s'.clavier = c.s.clavier) s := fun hs h =>
    wp_imp h fun _ _ h' => (congrArg Prod.fst h').trans hs
  cases e with
  | int49 r =>
    rw [segment]
    split
    · exact hclavier rfl (sobreEn_traitant hE hA hc)
    · rfl
  | int32 =>
    rw [segment]
    split
    · exact wp_mono (wp_ticPIT_cadran c.s) hE fun _ _ h => congrArg Prod.fst h
    · rfl
  | int33 str => exact hc.elim
  | programme m =>
    rw [segment]
    split <;> rfl
  | suite =>
    exact wp_segment_suite hE fun _ => hclavier rfl
      (sobreEn_reprend hE (fun adr n ha => hA adr n ha.depile) hc)

end

end GenesisOS
