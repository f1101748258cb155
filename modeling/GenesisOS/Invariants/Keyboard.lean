import GenesisOS.Refinement.Pointers
import GenesisOS.Refinement.Input

/-!
# GenesisOS — the keyboard buffer

`keyboard_data` stores one character at a time while there is room, but an arrow
key copies a whole line of the history into `tampon`. `Clavier.rappels` lists these
lines, `Core.Deborde` says that one of them does not fit, and `wp_boucle_tampon`
that the loop leaves the buffer exactly then.
-/

namespace GenesisOS

open Lib

-- ---------------------------------------------------------------------------
-- The lines recalled
-- ---------------------------------------------------------------------------

/-- The line the escape sequence `ESC [ c` copies into `tampon`. -/
def Clavier.ligneRappelee (k : Clavier) (c : UInt8) : Option Ligne :=
  if c = 65 then
    if k.currentIndexHistory = 0 then none else k.history (k.currentIndexHistory - 1)
  else if c = 66 then
    if k.indexHistory > k.currentIndexHistory then k.history k.currentIndexHistory else none
  else none

/-- One more call of `verifie_es` before each line. -/
def apresEveil (l : List (Nat × Ligne)) : List (Nat × Ligne) := l.map fun x => (x.1 + 1, x.2)

/-- The lines `keyboard_data` recalls, none of its calls of `verifie_es` asking for
an election, each with the number of these calls before. -/
def Clavier.rappels : Clavier → Nat → List UInt8 → List (Nat × Ligne)
  | _, _, [] => []
  | k, saute + 1, _ :: reste => k.rappels saute reste
  | k, 0, c :: reste =>
    if ¬ (k.ptampon < BUFFER_SIZE ∨ c = 127) then []
    else if c = 27 then
      match reste with
      | c1 :: c2 :: _ =>
        if c1 = 91 then
          ((k.ligneRappelee c2).toList.map fun x => (0, x)) ++
            (k.apresSequence c2).rappels (if c2 = 53 ∨ c2 = 54 then 3 else 2) reste
        else k.rappels 0 reste
      | _ => k.rappels 0 reste
    else if c = 127 then
      (if k.ptampon > 0 then { k with ptampon := k.ptampon - 1 } else k).rappels 0 reste
    else if c = 9 then apresEveil ({ k.pose c with read := true }.rappels 0 reste)
    else if c = 13 then apresEveil ({ k with read := true }.rappels 0 reste)
    else if c = 10 ∨ (c ≥ 32 ∧ c ≤ 126) then apresEveil ((k.pose c).rappels 0 reste)
    else k.rappels 0 reste

/-- One of the lines does not fit in `tampon`, and no call of `verifie_es` before it
asks for an election. -/
def Core.Deborde (s : Core) (l : List (Nat × Ligne)) : Prop :=
  ∃ x ∈ l, BUFFER_SIZE ≤ x.2.texte.length ∧
    ∀ p ∈ s.reveillesEs x.1, (s.tas s.procElu).prio ≤ (s.tas p).prio

namespace Core.Deborde

variable {s : Core} {l l' : List (Nat × Ligne)} {p : Ptr}

theorem append : s.Deborde (l ++ l') ↔ s.Deborde l ∨ s.Deborde l' := by
  unfold Core.Deborde
  simp only [List.mem_append, or_and_right, exists_or]

/-- A line recalled at once. -/
theorem premier {o : Option Ligne} : s.Deborde (o.toList.map fun x => (0, x)) ↔
    ∃ x, o = some x ∧ BUFFER_SIZE ≤ x.texte.length := by
  have hvide : s.reveillesEs 0 = [] := List.take_zero
  unfold Core.Deborde
  constructor
  · rintro ⟨x, hx, hlen, -⟩
    obtain ⟨y, hy, rfl⟩ := List.mem_map.mp hx
    exact ⟨y, Option.mem_toList.mp hy, hlen⟩
  · rintro ⟨x, rfl, hlen⟩
    refine ⟨(0, x), by simp, hlen, ?_⟩
    rw [hvide]
    exact nofun

/-- No process waits for a character. -/
theorem sans (hvide : s.elems .procBloqueEs = []) : s.Deborde (apresEveil l) ↔ s.Deborde l := by
  have hrev : ∀ n, s.reveillesEs n = [] := by
    intro n
    rw [Core.reveillesEs, hvide, List.reverse_nil, List.take_nil]
  unfold Core.Deborde apresEveil
  simp only [hrev, List.not_mem_nil, false_imp_iff, implies_true, and_true, List.mem_map,
    exists_exists_and_eq_and]

/-- The process woken does not take the processor. -/
theorem reveil (hp : s.chainage.top .procBloqueEs = some p)
    (hle : (s.tas s.procElu).prio ≤ (s.tas p).prio) :
    s.Deborde (apresEveil l) ↔ (s.eveille p id).Deborde l := by
  have hprio : ∀ x, ((s.eveille p id).tas x).prio = (s.tas x).prio := fun x =>
    Core.prio_eveille (f := id) (fun _ => rfl) x
  have helu : (s.eveille p id).procElu = s.procElu := rfl
  unfold Core.Deborde apresEveil
  simp only [List.mem_map, exists_exists_and_eq_and, Core.reveillesEs_succ _ hp, List.mem_cons,
    forall_eq_or_imp, hprio, helu, hle, true_and]

/-- The process woken takes the processor. -/
theorem cede (hp : s.chainage.top .procBloqueEs = some p)
    (hgt : (s.tas p).prio < (s.tas s.procElu).prio) : ¬ s.Deborde (apresEveil l) := by
  rintro ⟨x, hx, -, hle⟩
  obtain ⟨y, -, rfl⟩ := List.mem_map.mp hx
  dsimp only at hle
  rw [Core.reveillesEs_succ _ hp] at hle
  exact absurd (hle p List.mem_cons_self) (not_le.mpr hgt)

end Core.Deborde

/-- The number of characters fits, and nothing has been stored past the end. -/
structure Clavier.Borne (k : Clavier) : Prop where
  ptampon : k.ptampon ≤ BUFFER_SIZE
  reste : ∀ j, BUFFER_SIZE ≤ j → k.tampon j = 0

namespace Clavier.Borne

variable {k : Clavier}

theorem pose (h : k.Borne) {c : UInt8} (hp : k.ptampon < BUFFER_SIZE) : (k.pose c).Borne where
  ptampon := hp
  reste j hj := (Function.update_of_ne (by omega) _ _).trans (h.reste j hj)

theorem efface (h : k.Borne) : { k with ptampon := k.ptampon - 1 }.Borne :=
  ⟨(Nat.sub_le _ _).trans h.ptampon, h.reste⟩

theorem lu (h : k.Borne) : { k with read := true }.Borne := ⟨h.ptampon, h.reste⟩

end Clavier.Borne

-- ---------------------------------------------------------------------------
-- The loop of `keyboard_data`
-- ---------------------------------------------------------------------------

/-- The code writes out of `tampon` if and only if `D`, unless it stops before at
another fault; otherwise the buffer stays within its bounds. -/
def Tient (D : Prop) (m : M Suite) (s : Kernel) : Prop :=
  wp (fun f => f.Interne ∨ (f = .horsBornes .keyboardData ∧ D)) m
    (fun _ s' => ¬ D ∧ (s.clavier.Borne → s'.clavier.Borne)) s

section

variable {D D' : Prop} {α : Type} {s : Kernel} {k : α → M Suite} {ku : Unit → M Suite}

theorem Tient.congr {m : M Suite} (h : Tient D m s) (hD : D ↔ D') : Tient D' m s := by
  unfold Tient at *
  rwa [hD] at h

/-- The display changes neither the lists nor the keyboard variables. -/
theorem keeps_surConsole (f : Console → Option Console) :
    Keeps Faute.Interne (fun s : Kernel => (s.toCore, s.clavier)) (surConsole f) := by
  intro s
  simp only [surConsole, wp_bind, wp_get]
  split
  · rfl
  · rintro ⟨⟩

theorem keeps_afficheTampon :
    Keeps Faute.Interne (fun s : Kernel => (s.toCore, s.clavier)) afficheTampon :=
  .of_bind (keeps_surConsole _) fun _ => .of_bind .of_get fun _ =>
    .of_forM (fun _ => keeps_surConsole _) _

theorem Tient.console {m : M α}
    (hm : Keeps Faute.Interne (fun s : Kernel => (s.toCore, s.clavier)) m)
    (hk : ∀ a s₁, s₁.toCore = s.toCore → s₁.clavier = s.clavier → Tient D (k a) s₁) :
    Tient D (m >>= k) s := by
  unfold Tient
  rw [wp_bind]
  refine wp_mono (hm s) (fun _ hf => .inl hf) ?_
  intro a s₁ h₁
  have hk₁ : s₁.clavier = s.clavier := congrArg Prod.snd h₁
  have h := hk a s₁ (congrArg Prod.fst h₁) hk₁
  unfold Tient at h
  rwa [hk₁] at h

theorem Tient.clavier {f : Clavier → Clavier} (hf : s.clavier.Borne → (f s.clavier).Borne)
    (hk : ∀ s₁, s₁.toCore = s.toCore → s₁.clavier = f s.clavier → Tient D (ku ()) s₁) :
    Tient D (surClavier f >>= ku) s := by
  have h := hk { s with clavier := f s.clavier } rfl rfl
  unfold Tient at h ⊢
  exact wp_imp h fun _ _ hs' => ⟨hs'.1, fun hb => hs'.2 (hf hb)⟩

theorem Tient.pose {c : UInt8} (hp : s.clavier.ptampon < BUFFER_SIZE)
    (hk : ∀ s₁, s₁.toCore = s.toCore → s₁.clavier = s.clavier.pose c → Tient D (ku ()) s₁) :
    Tient D (poserTampon c >>= ku) s := by
  have h := Tient.clavier (f := fun k => k.pose c) (fun hb => hb.pose hp) hk
  unfold Tient at h ⊢
  simp only [poserTampon, wp_bind, wp_get, hp, if_true] at h ⊢
  exact h

/-- `strcpy` leaves the buffer when the line is too long. -/
theorem Tient.rappelle {i : Nat}
    (hD : D ↔ (∃ x, s.clavier.history i = some x ∧ BUFFER_SIZE ≤ x.texte.length) ∨ D')
    (hk : ∀ s₁, s₁.toCore = s.toCore → s₁.clavier = s.clavier.rappel i → Tient D' (ku ()) s₁) :
    Tient D (rappelle i >>= ku) s := by
  unfold Tient
  simp only [GenesisOS.rappelle, wp_bind, wp_get]
  cases hi : s.clavier.history i with
  | none => exact .inl (by rintro ⟨⟩)
  | some x =>
    dsimp only
    split
    · exact .inl (by rintro ⟨⟩)
    split
    · next hlt =>
      have hlong : ¬ ∃ x, s.clavier.history i = some x ∧ BUFFER_SIZE ≤ x.texte.length := by
        rintro ⟨y, hy, hle⟩
        rw [hi] at hy
        cases hy
        exact absurd hlt (not_lt.mpr hle)
      rw [or_iff_right hlong] at hD
      have h := (hk { s with clavier := s.clavier.rappel i } rfl rfl).congr hD.symm
      unfold Tient at h
      simp only [Clavier.rappel, hi] at h
      rw [surClavier, wp_modify]
      refine wp_imp h fun _ _ hs' => ⟨hs'.1, fun hb => hs'.2 ⟨le_of_lt hlt, fun j hj => ?_⟩⟩
      show (if j ≤ x.texte.length then x.texte.getD j 0 else s.clavier.tampon j) = 0
      rw [if_neg (by omega)]
      exact hb.reste j hj
    · next hge => exact .inr ⟨rfl, hD.mpr (.inl ⟨x, hi, not_lt.mp hge⟩)⟩

theorem Tient.sequence {c : UInt8}
    (hD : D ↔ (∃ x, s.clavier.ligneRappelee c = some x ∧ BUFFER_SIZE ≤ x.texte.length) ∨ D')
    (hk : ∀ s₁, s₁.toCore = s.toCore → s₁.clavier = s.clavier.apresSequence c →
      Tient D' (ku ()) s₁) : Tient D (sequence c >>= ku) s := by
  have hsans : s.clavier.ligneRappelee c = none → (D ↔ D') := by
    intro hn
    rw [hD, hn]
    simp only [reduceCtorEq, false_and, exists_false, false_or]
  unfold Clavier.apresSequence at hk
  unfold Clavier.ligneRappelee at hD hsans
  have lecture : ∀ {m : Kernel → M Unit}, Tient D (m s >>= ku) s →
      Tient D ((do let s ← get; m s) >>= ku) s := by
    intro m h
    unfold Tient at h ⊢
    simp only [wp_bind, wp_get] at h ⊢
    exact h
  have affiche : ∀ {s₂ : Kernel}, (∀ s₁, s₁.toCore = s₂.toCore → s₁.clavier = s₂.clavier →
      Tient D' (ku ()) s₁) → Tient D' (afficheTampon >>= ku) s₂ := fun h =>
    .console keeps_afficheTampon fun _ => h
  have deplace : ∀ {f : Console → Option Console}, (D ↔ D') →
      (∀ s₁, s₁.toCore = s.toCore → s₁.clavier = s.clavier → Tient D' (ku ()) s₁) →
        Tient D (surConsole f >>= ku) s := fun hD h =>
    .congr (.console (keeps_surConsole _) fun _ => h) hD.symm
  refine lecture ?_
  dsimp only
  split
  · next hc =>
    rw [if_pos hc] at hk hD hsans
    split
    · next h0 =>
      rw [if_pos h0] at hk hsans
      exact (hk s rfl rfl).congr (hsans rfl).symm
    · next h0 =>
      rw [if_neg h0] at hk hD
      simp only [bind_assoc]
      refine .rappelle hD fun s₁ h₁ hk₁ => ?_
      refine .clavier (fun hb => ⟨hb.ptampon, hb.reste⟩) fun s₂ h₂ hk₂ => ?_
      refine affiche fun s₃ h₃ hk₃ => hk s₃ (h₃.trans (h₂.trans h₁)) ?_
      have hcur : (s.clavier.rappel (s.clavier.currentIndexHistory - 1)).currentIndexHistory =
          s.clavier.currentIndexHistory := by
        unfold Clavier.rappel
        split <;> rfl
      rw [hk₃, hk₂, hk₁, hcur]
  next hA =>
  rw [if_neg hA] at hk hD hsans
  split
  · next hc =>
    rw [if_pos hc] at hk hD hsans
    split
    · next hlt =>
      rw [if_pos hlt] at hk hD
      simp only [bind_assoc]
      refine .clavier (fun hb => ⟨hb.ptampon, hb.reste⟩) fun s₁ h₁ hk₁ => ?_
      refine .rappelle (by rw [hk₁]; exact hD) fun s₂ h₂ hk₂ => ?_
      refine affiche fun s₃ h₃ hk₃ => hk s₃ (h₃.trans (h₂.trans h₁)) ?_
      rw [hk₃, hk₂, hk₁]
    · next hge =>
      rw [if_neg hge] at hk hsans
      simp only [bind_assoc]
      refine .clavier (fun hb => ⟨Nat.zero_le _, hb.reste⟩) fun s₁ h₁ hk₁ => ?_
      refine .congr (.console (keeps_surConsole _) fun _ s₂ h₂ hk₂ => ?_) (hsans rfl).symm
      exact hk s₂ (h₂.trans h₁) (hk₂.trans hk₁)
  next hB =>
  rw [if_neg hB] at hk hsans
  split
  · exact deplace (hsans rfl) hk
  split
  · exact deplace (hsans rfl) hk
  split
  · exact deplace (hsans rfl) hk
  split
  · exact deplace (hsans rfl) hk
  · exact (hk s rfl rfl).congr (hsans rfl).symm

/-- A call of `verifie_es` wakes at most the first process that waits. -/
theorem wp_verifieEs_libre (s : Kernel) : wp Faute.Interne verifieEs (fun b s' =>
    s'.clavier = s.clavier ∧ ((s.elems .procBloqueEs = [] ∧ b = false ∧ s' = s) ∨
      ∃ p, s.chainage.top .procBloqueEs = some p ∧ s'.toCore = s.toCore.eveille p id ∧
        b = decide ((s.tas s.procElu).prio > (s.tas p).prio))) s := by
  simp only [verifieEs, queueOut, wp_bind, wp_get]
  cases hp : s.chainage.top .procBloqueEs with
  | none => exact ⟨rfl, .inl ⟨List.getLast?_eq_none_iff.mp hp, rfl, rfl⟩⟩
  | some p =>
    simp only [ecrire, queueAdd, lire, surCore, wp_bind, wp_get, wp_ite, wp_modify, wp_throw, wp_pure]
    refine ⟨fun _ => ⟨fun _ => ⟨fun _ => ⟨fun _ => ?_, fun _ => by rintro ⟨⟩⟩,
      fun _ => by rintro ⟨⟩⟩, fun _ => by rintro ⟨⟩⟩, fun _ => by rintro ⟨⟩⟩
    have hprio : ∀ x, ((s.toCore.eveille p id).tas x).prio = (s.tas x).prio := fun x =>
      Core.prio_eveille (f := id) (fun _ => rfl) x
    refine ⟨trivial, .inr ⟨p, rfl, rfl, ?_⟩⟩
    rw [← hprio s.procElu, ← hprio p]
    rfl

theorem Tient.eveil {l : List (Nat × Ligne)} {w : Reprise} {m : M Suite}
    (hm : ∀ s₁ : Kernel, s₁.clavier = s.clavier → Tient (s₁.toCore.Deborde l) m s₁) :
    Tient (s.toCore.Deborde (apresEveil l))
      (verifieEs >>= fun b => if b = true then pure (.ordonnanceur w) else m) s := by
  unfold Tient
  rw [wp_bind]
  refine wp_mono (wp_verifieEs_libre s) (fun _ hf => .inl hf) ?_
  have suite : ∀ s₁ : Kernel, s₁.clavier = s.clavier →
      (s₁.toCore.Deborde l ↔ s.toCore.Deborde (apresEveil l)) →
        Tient (s.toCore.Deborde (apresEveil l)) m s₁ := fun s₁ hk h => (hm s₁ hk).congr h
  rintro b s₁ ⟨hk, ⟨hvide, rfl, rfl⟩ | ⟨p, hp, h₁, rfl⟩⟩
  · exact suite s₁ rfl (Core.Deborde.sans hvide).symm
  by_cases hgt : (s.tas s.procElu).prio > (s.tas p).prio
  · rw [decide_eq_true hgt, if_pos rfl]
    exact ⟨Core.Deborde.cede hp hgt, fun hb => by rw [hk]; exact hb⟩
  · rw [decide_eq_false hgt, if_neg (by decide)]
    have h := suite s₁ hk (by rw [h₁]; exact (Core.Deborde.reveil hp (not_lt.mp hgt)).symm)
    unfold Tient at h
    rwa [hk] at h

theorem tient_keyboardDataFin {l : List (Nat × Ligne)} (h : ¬ s.toCore.Deborde l) :
    Tient (s.toCore.Deborde l) keyboardDataFin s := by
  have iret : ∀ s₁ : Kernel, ¬ s₁.toCore.Deborde [] := fun _ => nofun
  have sonnerie : Tient (s.toCore.Deborde (apresEveil [])) (verifieEs >>= fun b =>
      if b = true then pure (.ordonnanceur .keyboardFin) else do
        traiteCar 7
        pure .iret) s := by
    refine .eveil fun s₁ hk₁ => .console (keeps_surConsole _) fun _ s₂ h₂ hk₂ => ?_
    exact ⟨iret s₁, id⟩
  have hfaux : s.toCore.Deborde (apresEveil []) ↔ s.toCore.Deborde l := iff_of_false nofun h
  have hs := sonnerie.congr hfaux
  unfold Tient at hs ⊢
  rw [keyboardDataFin, wp_bind, wp_get]
  split
  · exact hs
  · exact ⟨h, id⟩

/-- The loop of `keyboard_data` writes out of `tampon` exactly when it recalls a
line that does not fit. -/
theorem tient_keyboardBoucle (str : List UInt8) (saute : Nat) (s : Kernel) :
    Tient (s.toCore.Deborde (s.clavier.rappels saute str)) (keyboardBoucle saute str) s := by
  induction str generalizing s saute with
  | nil => cases saute <;> exact tient_keyboardDataFin nofun
  | cons c reste ih =>
    cases saute with
    | succ saute => exact ih saute s
    | zero =>
      -- the loop goes on from a state that differs by the keyboard variables
      have boucle : ∀ (saute : Nat) (k : Clavier) (s₁ : Kernel), s₁.toCore = s.toCore →
          s₁.clavier = k → Tient (s.toCore.Deborde (k.rappels saute reste))
            (keyboardBoucle saute reste) s₁ := by
        rintro saute k s₁ h₁ rfl
        rw [← h₁]
        exact ih saute s₁
      -- or it calls `verifie_es` first
      have eveil : ∀ (k : Clavier) (s₁ : Kernel), s₁.toCore = s.toCore → s₁.clavier = k →
          Tient (s.toCore.Deborde (apresEveil (k.rappels 0 reste))) (verifieEs >>= fun b =>
            if b = true then pure (.ordonnanceur (.keyboardData reste)) else keyboardBoucle 0 reste)
              s₁ := by
        rintro k s₁ h₁ rfl
        rw [← h₁]
        refine .eveil fun s₂ hk₂ => ?_
        rw [← hk₂]
        exact ih 0 s₂
      by_cases hplace : s.clavier.ptampon < BUFFER_SIZE ∨ c = 127
      swap
      · have hfin : s.clavier.rappels 0 (c :: reste) = [] := by
          rw [Clavier.rappels.eq_def]
          exact if_pos hplace
        rw [hfin]
        have h := tient_keyboardDataFin (s := s) (l := []) nofun
        unfold Tient at h ⊢
        rw [keyboardBoucle.eq_def]
        dsimp only
        rwa [wp_bind, wp_get, if_pos hplace]
      generalize hl : s.clavier.rappels 0 (c :: reste) = l
      -- the character itself, once echoed
      have corps : ∀ {s₁ : Kernel}, s₁.toCore = s.toCore → s₁.clavier = s.clavier →
          Tient (s.toCore.Deborde l) (do
            if c = 27 then
              match reste with
              | c1 :: c2 :: _ =>
                if c1 = 91 then do
                  sequence c2
                  keyboardBoucle (if c2 = 53 ∨ c2 = 54 then 3 else 2) reste
                else keyboardBoucle 0 reste
              | _ => keyboardBoucle 0 reste
            else if c = 127 then do
              if s.clavier.ptampon > 0 then
                surClavier fun k => { k with ptampon := k.ptampon - 1 }
              else traiteCar 7
              keyboardBoucle 0 reste
            else if c = 9 then do
              poserTampon c
              surClavier fun k => { k with read := true }
              if ← verifieEs then pure (.ordonnanceur (.keyboardData reste))
              else keyboardBoucle 0 reste
            else if c = 13 then do
              surClavier fun k => { k with read := true }
              if ← verifieEs then pure (.ordonnanceur (.keyboardData reste))
              else keyboardBoucle 0 reste
            else if c = 10 ∨ (c ≥ 32 ∧ c ≤ 126) then do
              poserTampon c
              if ← verifieEs then pure (.ordonnanceur (.keyboardData reste))
              else keyboardBoucle 0 reste
            else keyboardBoucle 0 reste) s₁ := by
        intro s₁ h₁ hk₁
        have hpl : c ≠ 127 → s₁.clavier.ptampon < BUFFER_SIZE := by
          intro hc
          rw [hk₁]
          exact hplace.resolve_right hc
        rw [← hl, Clavier.rappels.eq_def]
        simp only [not_not.mpr hplace, if_false]
        split
        · next hc =>
          split
          · next c1 c2 fin =>
            split
            · next h91 =>
              refine .sequence (by
                rw [hk₁]
                exact Core.Deborde.append.trans (or_congr_left Core.Deborde.premier))
                fun s₂ h₂ hk₂ => ?_
              exact boucle _ _ s₂ (h₂.trans h₁) (by rw [hk₂, hk₁])
            · exact boucle 0 _ s₁ h₁ hk₁
          · exact boucle 0 _ s₁ h₁ hk₁
        next h27 =>
        split
        · next hc =>
          split
          · next hpos =>
            refine .clavier Clavier.Borne.efface fun s₂ h₂ hk₂ => ?_
            exact boucle 0 _ s₂ (h₂.trans h₁) (by rw [hk₂, hk₁])
          · next hpos =>
            refine .console (keeps_surConsole _) fun _ s₂ h₂ hk₂ => ?_
            exact boucle 0 _ s₂ (h₂.trans h₁) (hk₂.trans hk₁)
        next h127 =>
        split
        · refine .pose (hpl h127) fun s₂ h₂ hk₂ => .clavier Clavier.Borne.lu fun s₃ h₃ hk₃ => ?_
          exact eveil _ s₃ (h₃.trans (h₂.trans h₁)) (by rw [hk₃, hk₂, hk₁])
        split
        · refine .clavier Clavier.Borne.lu fun s₂ h₂ hk₂ => ?_
          exact eveil _ s₂ (h₂.trans h₁) (by rw [hk₂, hk₁])
        split
        · refine .pose (hpl h127) fun s₂ h₂ hk₂ => ?_
          exact eveil _ s₂ (h₂.trans h₁) (by rw [hk₂, hk₁])
        · exact boucle 0 _ s₁ h₁ hk₁
      by_cases hecho : s.console.echo = true
      · have h := Tient.console (keeps_surConsole (·.traiteCar (charVal c))) fun _ s₁ => @corps s₁
        unfold Tient at h ⊢
        rw [keyboardBoucle.eq_def]
        dsimp only
        rw [wp_bind, wp_get, if_neg (not_not.mpr hplace), if_pos hecho]
        exact h
      · have h := @corps s rfl rfl
        unfold Tient at h ⊢
        rw [keyboardBoucle.eq_def]
        dsimp only
        rw [wp_bind, wp_get, if_neg (not_not.mpr hplace), if_neg hecho]
        exact h

end

end GenesisOS
