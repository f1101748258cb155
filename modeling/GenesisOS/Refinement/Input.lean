import GenesisOS.Refinement.Semaphores

/-!
# GenesisOS — keyboard and console input refine the transitions

`keyboard_data` calls `verifie_es` once for each character it stores or that
ends a line, as long as none of these calls asks for an election:
`Clavier.deroule` lists these calls from the keyboard variables alone, and
`Frappe` says what they do; `Clavier.eveils` counts them, and `AppelClavier` says
what so many calls do to the processes.
-/

namespace GenesisOS

open Lib

-- ---------------------------------------------------------------------------
-- The keyboard variables
-- ---------------------------------------------------------------------------

namespace Clavier

/-- After `tampon[ptampon] = c; ptampon++;`. -/
def pose (k : Clavier) (c : UInt8) : Clavier :=
  { k with
    tampon := Function.update k.tampon k.ptampon c
    ptampon := k.ptampon + 1
    frappes := k.frappes ++ [c] }

/-- After `strcpy(tampon, history[i])`. -/
def rappel (k : Clavier) (i : Nat) : Clavier :=
  match k.history i with
  | none => k
  | some h =>
    { k with
      tampon := fun j => if j ≤ h.texte.length then h.texte.getD j 0 else k.tampon j
      ptampon := h.texte.length }

/-- After an escape sequence `ESC [ c`. -/
def apresSequence (k : Clavier) (c : UInt8) : Clavier :=
  if c = 65 then
    if k.currentIndexHistory = 0 then k
    else { k.rappel (k.currentIndexHistory - 1) with
      currentIndexHistory := k.currentIndexHistory - 1 }
  else if c = 66 then
    if k.indexHistory > k.currentIndexHistory then
      { k with currentIndexHistory := k.currentIndexHistory + 1 }.rappel k.currentIndexHistory
    else { k with ptampon := 0 }
  else k

/-- The calls of `verifie_es` after the loop. -/
def eveilsFin (k : Clavier) : Nat := if k.ptampon = BUFFER_SIZE then 1 else 0

/-- The calls of `verifie_es` in `keyboard_data`, none of them asking for an
election. -/
def eveils : Clavier → Nat → List UInt8 → Nat
  | k, _, [] => k.eveilsFin
  | k, saute + 1, _ :: reste => k.eveils saute reste
  | k, 0, c :: reste =>
    if ¬ (k.ptampon < BUFFER_SIZE ∨ c = 127) then k.eveilsFin
    else if c = 27 then
      match reste with
      | c1 :: c2 :: _ =>
        if c1 = 91 then (k.apresSequence c2).eveils (if c2 = 53 ∨ c2 = 54 then 3 else 2) reste
        else k.eveils 0 reste
      | _ => k.eveils 0 reste
    else if c = 127 then
      (if k.ptampon > 0 then { k with ptampon := k.ptampon - 1 } else k).eveils 0 reste
    else if c = 9 then { k.pose c with read := true }.eveils 0 reste + 1
    else if c = 13 then { k with read := true }.eveils 0 reste + 1
    else if c = 10 ∨ (c ≥ 32 ∧ c ≤ 126) then (k.pose c).eveils 0 reste + 1
    else k.eveils 0 reste

/-- The call of `verifie_es` after the loop, and the keyboard variables then. -/
def derouleFin (k : Clavier) : List (Clavier × Reprise) × Clavier :=
  if k.ptampon = BUFFER_SIZE then ([(k, .keyboardFin)], k) else ([], k)

/-- The calls of `verifie_es` in `keyboard_data`, none of them asking for an
election, each with the keyboard variables at the call and its return point; and
the keyboard variables at the end. -/
def deroule : Clavier → Nat → List UInt8 → List (Clavier × Reprise) × Clavier
  | k, _, [] => k.derouleFin
  | k, saute + 1, _ :: reste => k.deroule saute reste
  | k, 0, c :: reste =>
    -- the character has changed `k` into `k'`, and `verifie_es` is called
    let appel (k' : Clavier) (d : List (Clavier × Reprise) × Clavier) :=
      ((k', Reprise.keyboardData reste) :: d.1, d.2)
    if ¬ (k.ptampon < BUFFER_SIZE ∨ c = 127) then k.derouleFin
    else if c = 27 then
      match reste with
      | c1 :: c2 :: _ =>
        if c1 = 91 then (k.apresSequence c2).deroule (if c2 = 53 ∨ c2 = 54 then 3 else 2) reste
        else k.deroule 0 reste
      | _ => k.deroule 0 reste
    else if c = 127 then
      (if k.ptampon > 0 then { k with ptampon := k.ptampon - 1 } else k).deroule 0 reste
    else if c = 9 then
      appel { k.pose c with read := true } ({ k.pose c with read := true }.deroule 0 reste)
    else if c = 13 then appel { k with read := true } ({ k with read := true }.deroule 0 reste)
    else if c = 10 ∨ (c ≥ 32 ∧ c ≤ 126) then appel (k.pose c) ((k.pose c).deroule 0 reste)
    else k.deroule 0 reste

theorem eveils_eq (k : Clavier) (saute : Nat) (str : List UInt8) :
    k.eveils saute str = (k.deroule saute str).1.length := by
  have fin : ∀ k : Clavier, k.eveilsFin = k.derouleFin.1.length := by
    intro k
    unfold eveilsFin derouleFin
    split <;> rfl
  induction str generalizing k saute with
  | nil => cases saute <;> exact fin k
  | cons c reste ih =>
    cases saute with
    | succ saute => exact ih k saute
    | zero =>
      simp only [eveils, deroule, fin, ih]
      split
      · rfl
      split
      · split
        · split <;> rfl
        · rfl
      split
      · rfl
      split
      · rfl
      split
      · rfl
      split <;> rfl

end Clavier

section

variable {C : Cadre} {s : Kernel} {R : Unit → Kernel → Prop}

theorem wp_surConsole {f : Console → Option Console}
    (h : ∀ s', s'.toCore = s.toCore → s'.clavier = s.clavier → R () s') :
    wp C.tolere (surConsole f) R s := by
  simp only [surConsole, wp_bind, wp_get]
  split
  · exact h _ rfl rfl
  · exact .inl rfl

theorem wp_printf (l : List UInt8)
    (h : ∀ s', s'.toCore = s.toCore → s'.clavier = s.clavier → R () s') :
    wp C.tolere (printf l) R s := by
  induction l generalizing s with
  | nil => exact h s rfl rfl
  | cons c l ih =>
    show wp C.tolere (traiteCar c >>= fun _ => printf l) R s
    rw [wp_bind]
    refine wp_surConsole ?_
    intro s₁ h₁ hk₁
    refine ih ?_
    intro s₂ h₂ hk₂
    exact h s₂ (h₂.trans h₁) (hk₂.trans hk₁)

theorem wp_surClavier {f : Clavier → Clavier}
    (h : ∀ s', s'.toCore = s.toCore → s'.clavier = f s.clavier → R () s') :
    wp C.tolere (surClavier f) R s := h _ rfl rfl

theorem wp_poserTampon {c : UInt8}
    (h : ∀ s', s'.toCore = s.toCore → s'.clavier = s.clavier.pose c → R () s') :
    wp C.tolere (poserTampon c) R s := by
  simp only [poserTampon, wp_bind, wp_get]
  split
  · exact wp_surClavier h
  · exact .inl rfl

theorem wp_rappelle {i : Nat}
    (h : ∀ s', s'.toCore = s.toCore → s'.clavier = s.clavier.rappel i → R () s') :
    wp C.tolere (rappelle i) R s := by
  simp only [rappelle, wp_bind, wp_get]
  cases hi : s.clavier.history i with
  | none => exact .inl rfl
  | some l =>
    have hrap : ∀ s', s'.toCore = s.toCore →
        s'.clavier = { s.clavier with
          tampon := fun j => if j ≤ l.texte.length then l.texte.getD j 0 else s.clavier.tampon j
          ptampon := l.texte.length } → R () s' := by
      intro s' hs' hk'
      refine h s' hs' ?_
      rw [hk', Clavier.rappel, hi]
    show wp C.tolere (if s.blocs l.adr = none then throw _ else _) R s
    split
    · exact .inl rfl
    · split
      · exact wp_surClavier hrap
      · exact .inl rfl

theorem wp_afficheTampon (h : ∀ s', s'.toCore = s.toCore → s'.clavier = s.clavier → R () s') :
    wp C.tolere afficheTampon R s := by
  simp only [afficheTampon, wp_bind, wp_get]
  refine wp_surConsole ?_
  intro s₁ h₁ hk₁
  refine wp_printf _ ?_
  intro s₂ h₂ hk₂
  exact h s₂ (h₂.trans h₁) (hk₂.trans hk₁)

theorem wp_sequence {c : UInt8}
    (h : ∀ s', s'.toCore = s.toCore → s'.clavier = s.clavier.apresSequence c → R () s') :
    wp C.tolere (sequence c) R s := by
  simp only [sequence, wp_bind, wp_get]
  unfold Clavier.apresSequence at h
  split
  · next hc =>
    simp only [hc, if_true] at h
    split
    · next h0 =>
      rw [if_pos h0] at h
      exact h s rfl rfl
    · next h0 =>
      rw [if_neg h0] at h
      simp only [wp_bind]
      refine wp_rappelle ?_
      intro s₁ h₁ hk₁
      refine wp_surClavier ?_
      intro s₂ h₂ hk₂
      refine wp_afficheTampon ?_
      intro s₃ h₃ hk₃
      refine h s₃ (h₃.trans (h₂.trans h₁)) ?_
      have hcur : (s.clavier.rappel (s.clavier.currentIndexHistory - 1)).currentIndexHistory =
          s.clavier.currentIndexHistory := by
        unfold Clavier.rappel
        split <;> rfl
      rw [hk₃, hk₂, hk₁, hcur]
  next hA =>
  rw [if_neg hA] at h
  split
  · next hc =>
    simp only [hc, if_true] at h
    split
    · next hlt =>
      rw [if_pos hlt] at h
      simp only [wp_bind]
      refine wp_surClavier ?_
      intro s₁ h₁ hk₁
      refine wp_rappelle ?_
      intro s₂ h₂ hk₂
      refine wp_afficheTampon ?_
      intro s₃ h₃ hk₃
      refine h s₃ (h₃.trans (h₂.trans h₁)) ?_
      rw [hk₃, hk₂, hk₁]
    · next hge =>
      rw [if_neg hge] at h
      simp only [wp_bind]
      refine wp_surClavier ?_
      intro s₁ h₁ hk₁
      refine wp_surConsole ?_
      intro s₂ h₂ hk₂
      exact h s₂ (h₂.trans h₁) (hk₂.trans hk₁)
  next hB =>
  rw [if_neg hB] at h
  split
  · exact wp_surConsole h
  split
  · exact wp_surConsole h
  split
  · exact wp_surConsole h
  split
  · exact wp_surConsole h
  · exact h s rfl rfl

-- ---------------------------------------------------------------------------
-- `keyboard_data`
-- ---------------------------------------------------------------------------

/-- What `n` calls of `verifie_es` do, up to the first that asks for an
election: each wakes the first process waiting for a character, if any. -/
inductive AppelClavier : Nat → Suite → Core → Core → Prop
  | fin {s : Core} : AppelClavier 0 .iret s s
  | vide {n : Nat} {r : Suite} {s s' : Core} (hvide : s.elems .procBloqueEs = [])
      (h : AppelClavier n r s s') : AppelClavier (n + 1) r s s'
  | reveil {n : Nat} {r : Suite} {s s' : Core} {p : Ptr}
      (hp : s.chainage.top .procBloqueEs = some p)
      (hle : (s.tas s.procElu).prio ≤ (s.tas p).prio)
      (h : AppelClavier n r (s.eveille p id) s') : AppelClavier (n + 1) r s s'
  | cede {n : Nat} {k : Reprise} {s : Core} {p : Ptr}
      (hp : s.chainage.top .procBloqueEs = some p)
      (hgt : (s.tas p).prio < (s.tas s.procElu).prio) (hk : k.volontaire = true) :
      AppelClavier (n + 1) (.ordonnanceur k) s (s.eveille p id)

/-- What the calls `l` of `verifie_es` do, up to the first that asks for an
election, and the keyboard variables then: `fin` when none does. -/
inductive Frappe (fin : Clavier) : List (Clavier × Reprise) → Suite → Core → Clavier → Core → Prop
  | fin {s : Core} : Frappe fin [] .iret s fin s
  | vide {a : Clavier × Reprise} {l : List (Clavier × Reprise)} {r : Suite} {s s' : Core}
      {k' : Clavier} (hvide : s.elems .procBloqueEs = []) (h : Frappe fin l r s k' s') :
      Frappe fin (a :: l) r s k' s'
  | reveil {a : Clavier × Reprise} {l : List (Clavier × Reprise)} {r : Suite} {s s' : Core}
      {k' : Clavier} {p : Ptr} (hp : s.chainage.top .procBloqueEs = some p)
      (hle : (s.tas s.procElu).prio ≤ (s.tas p).prio) (h : Frappe fin l r (s.eveille p id) k' s') :
      Frappe fin (a :: l) r s k' s'
  | cede {k : Clavier} {w : Reprise} {l : List (Clavier × Reprise)} {s : Core} {p : Ptr}
      (hp : s.chainage.top .procBloqueEs = some p)
      (hgt : (s.tas p).prio < (s.tas s.procElu).prio) (hw : w.volontaire = true) :
      Frappe fin ((k, w) :: l) (.ordonnanceur w) s k (s.eveille p id)

theorem Frappe.appel {fin k' : Clavier} {l : List (Clavier × Reprise)} {r : Suite} {s s' : Core}
    (h : Frappe fin l r s k' s') : AppelClavier l.length r s s' := by
  induction h with
  | fin => exact .fin
  | vide hvide _ ih => exact .vide hvide ih
  | reveil hp hle _ ih => exact .reveil hp hle ih
  | cede hp hgt hw => exact .cede hp hgt hw

/-- Waking a process leaves the keyboard variables alone. -/
theorem clavier_verifieEs :
    wp (fun _ => True) verifieEs (fun _ s' => s'.clavier = s.clavier) s := by
  simp only [verifieEs, queueOut, wp_bind, wp_get]
  cases s.chainage.top .procBloqueEs with
  | none => exact rfl
  | some p =>
    simp only [wp_bind, ecrire, queueAdd, lire, surCore, wp_get, wp_ite, wp_modify, wp_throw, wp_pure,
      implies_true, and_true]

/-- A call of `verifie_es` and what follows it. -/
theorem wp_eveil {Q : Suite → Kernel → Prop} {k : Reprise} {fin : Clavier}
    {l : List (Clavier × Reprise)} {m : M Suite}
    (h : Stable s.toCore) (he : s.toCore.EnCours) (hk : k.volontaire = true)
    (hm : ∀ s₁ : Kernel, Stable s₁.toCore → s₁.toCore.EnCours → s₁.clavier = s.clavier →
      wp C.tolere m (fun r s' => Frappe fin l r s₁.toCore s'.clavier s'.toCore) s₁)
    (hQ : ∀ r s', Frappe fin ((s.clavier, k) :: l) r s.toCore s'.clavier s'.toCore → Q r s') :
    wp C.tolere (verifieEs >>= fun b => if b = true then pure (.ordonnanceur k) else m) Q s := by
  rw [wp_bind]
  refine wp_imp (wp_and (wp_verifieEs (Q := fun b s' =>
      (b = false ∧ s.elems .procBloqueEs = [] ∧ s' = s) ∨
        ∃ p, s.chainage.top .procBloqueEs = some p ∧ s'.toCore = s.toCore.eveille p id ∧
          Quiet { fort := s.fort p } s.toCore s'.toCore ∧
            b = decide ((s.tas s.procElu).prio > (s.tas p).prio)) h he ?_ ?_) clavier_verifieEs) ?_
  · intro hvide
    exact .inl ⟨rfl, hvide, rfl⟩
  · intro p s' hp hs' q
    exact .inr ⟨p, hp, hs', q, rfl⟩
  rintro b s₁ ⟨⟨rfl, hvide, rfl⟩ | ⟨p, hp, hs₁, q, rfl⟩, hcl⟩
  · simp only [Bool.false_eq_true, if_false]
    refine wp_imp (hm s₁ h he rfl) ?_
    intro r s' ha
    exact hQ r s' (.vide hvide ha)
  · by_cases hgt : (s.tas s.procElu).prio > (s.tas p).prio
    · simp only [hgt, decide_true, if_true, wp_pure]
      refine hQ _ s₁ ?_
      rw [hs₁, hcl]
      exact .cede hp hgt hk
    · simp only [hgt, decide_false, Bool.false_eq_true, if_false]
      refine wp_imp (hm s₁ (h.quiet he q) (h.enCours_quiet he q) hcl) ?_
      intro r s' ha
      rw [hs₁] at ha
      exact hQ r s' (.reveil hp (not_lt.mp hgt) ha)

theorem wp_keyboardDataFin {Q : Suite → Kernel → Prop} (h : Stable s.toCore) (he : s.toCore.EnCours)
    (hQ : ∀ r s', Frappe s.clavier.derouleFin.2 s.clavier.derouleFin.1 r s.toCore s'.clavier
      s'.toCore → Q r s') :
    wp C.tolere keyboardDataFin Q s := by
  unfold Clavier.derouleFin at hQ
  rw [keyboardDataFin, wp_bind, wp_get]
  split
  · next hplein =>
    rw [if_pos hplein] at hQ
    refine wp_eveil h he rfl ?_ hQ
    intro s₁ _ _ hk₁
    rw [wp_bind]
    refine wp_surConsole ?_
    intro s₂ h₂ hk₂
    rw [wp_pure, h₂, hk₂, hk₁]
    exact .fin
  · next hplein =>
    rw [if_neg hplein] at hQ
    exact hQ _ s .fin

theorem wp_frappe {Q : Suite → Kernel → Prop} (str : List UInt8) (saute : Nat)
    (h : Stable s.toCore) (he : s.toCore.EnCours)
    (hQ : ∀ r s', Frappe (s.clavier.deroule saute str).2 (s.clavier.deroule saute str).1 r s.toCore
      s'.clavier s'.toCore → Q r s') :
    wp C.tolere (keyboardBoucle saute str) Q s := by
  induction str generalizing s saute Q with
  | nil =>
    cases saute with
    | zero => exact wp_keyboardDataFin h he hQ
    | succ saute => exact wp_keyboardDataFin h he hQ
  | cons c reste ih =>
    cases saute with
    | succ saute => exact ih saute h he hQ
    | zero =>
      -- the loop goes on from a state that differs by the keyboard variables
      have boucle : ∀ {s₁ : Kernel} (saute : Nat), s₁.toCore = s.toCore →
          (∀ r s', Frappe (s₁.clavier.deroule saute reste).2 (s₁.clavier.deroule saute reste).1 r
            s.toCore s'.clavier s'.toCore → Q r s') →
          wp C.tolere (keyboardBoucle saute reste) Q s₁ := by
        intro s₁ saute h₁ hQ₁
        refine ih saute (by rw [h₁]; exact h) (by rw [h₁]; exact he) ?_
        rw [h₁]
        exact hQ₁
      -- or it calls `verifie_es` first
      have eveil : ∀ s₁ : Kernel, s₁.toCore = s.toCore →
          (∀ r s', Frappe (s₁.clavier.deroule 0 reste).2
            ((s₁.clavier, .keyboardData reste) :: (s₁.clavier.deroule 0 reste).1) r s.toCore
              s'.clavier s'.toCore → Q r s') →
          wp C.tolere (verifieEs >>= fun b =>
            if b = true then pure (.ordonnanceur (.keyboardData reste)) else keyboardBoucle 0 reste)
              Q s₁ := by
        intro s₁ h₁ hQ₁
        rw [← h₁] at hQ₁
        refine wp_eveil (by rw [h₁]; exact h) (by rw [h₁]; exact he) rfl ?_ hQ₁
        intro s₂ hst₂ he₂ hk₂
        refine ih 0 hst₂ he₂ ?_
        rw [hk₂]
        exact fun r s' ha => ha
      -- the character itself, once echoed
      have corps : ∀ {s₁ : Kernel}, s₁.toCore = s.toCore → s₁.clavier = s.clavier →
          (s.clavier.ptampon < BUFFER_SIZE ∨ c = 127) →
          wp C.tolere (do
            if c = 27 then
              match reste with
              | c1 :: c2 :: _ =>
                if c1 = 91 then do
                  sequence c2
                  keyboardBoucle (if c2 = 53 ∨ c2 = 54 then 3 else 2) reste
                else keyboardBoucle 0 reste
              | _ => keyboardBoucle 0 reste
            else if c = 127 then do
              if s.clavier.ptampon > 0 then
                surClavier fun k => { k with ptampon := k.ptampon - 1 }
              else traiteCar 7
              keyboardBoucle 0 reste
            else if c = 9 then do
              poserTampon c
              surClavier fun k => { k with read := true }
              if ← verifieEs then pure (.ordonnanceur (.keyboardData reste))
              else keyboardBoucle 0 reste
            else if c = 13 then do
              surClavier fun k => { k with read := true }
              if ← verifieEs then pure (.ordonnanceur (.keyboardData reste))
              else keyboardBoucle 0 reste
            else if c = 10 ∨ (c ≥ 32 ∧ c ≤ 126) then do
              poserTampon c
              if ← verifieEs then pure (.ordonnanceur (.keyboardData reste))
              else keyboardBoucle 0 reste
            else keyboardBoucle 0 reste) Q s₁ := by
        intro s₁ h₁ hk₁ hplace
        simp only [Clavier.deroule, not_not.mpr hplace, if_false] at hQ
        split
        · next hc =>
          rw [if_pos hc] at hQ
          split
          · next c1 c2 fin =>
            dsimp only at hQ
            split
            · next h91 =>
              rw [if_pos h91] at hQ
              rw [wp_bind]
              refine wp_sequence ?_
              intro s₂ h₂ hk₂
              exact boucle _ (h₂.trans h₁) (by rw [hk₂, hk₁]; exact hQ)
            · next h91 =>
              rw [if_neg h91] at hQ
              exact boucle 0 h₁ (by rw [hk₁]; exact hQ)
          · next hcourt =>
            refine boucle 0 h₁ ?_
            rw [hk₁]
            split at hQ
            · next c1 c2 fin => exact absurd rfl (hcourt c1 c2 fin)
            · exact hQ
        next h27 =>
        rw [if_neg h27] at hQ
        split
        · next hc =>
          rw [if_pos hc] at hQ
          split
          · next hpos =>
            rw [if_pos hpos] at hQ
            rw [wp_bind]
            refine wp_surClavier ?_
            intro s₂ h₂ hk₂
            exact boucle 0 (h₂.trans h₁) (by rw [hk₂, hk₁]; exact hQ)
          · next hpos =>
            rw [if_neg hpos] at hQ
            rw [wp_bind]
            refine wp_surConsole ?_
            intro s₂ h₂ hk₂
            exact boucle 0 (h₂.trans h₁) (by rw [hk₂, hk₁]; exact hQ)
        next h127 =>
        rw [if_neg h127] at hQ
        split
        · next hc =>
          rw [if_pos hc] at hQ
          simp only [wp_bind]
          refine wp_poserTampon ?_
          intro s₂ h₂ hk₂
          refine wp_surClavier ?_
          intro s₃ h₃ hk₃
          have hs₃ := eveil s₃ (h₃.trans (h₂.trans h₁)) (by rw [hk₃, hk₂, hk₁]; exact hQ)
          simpa only [wp_bind] using hs₃
        next h9 =>
        rw [if_neg h9] at hQ
        split
        · next hc =>
          rw [if_pos hc] at hQ
          simp only [wp_bind]
          refine wp_surClavier ?_
          intro s₂ h₂ hk₂
          have hs₂ := eveil s₂ (h₂.trans h₁) (by rw [hk₂, hk₁]; exact hQ)
          simpa only [wp_bind] using hs₂
        next h13 =>
        rw [if_neg h13] at hQ
        split
        · next hc =>
          rw [if_pos hc] at hQ
          simp only [wp_bind]
          refine wp_poserTampon ?_
          intro s₂ h₂ hk₂
          have hs₂ := eveil s₂ (h₂.trans h₁) (by rw [hk₂, hk₁]; exact hQ)
          simpa only [wp_bind] using hs₂
        · next hc =>
          rw [if_neg hc] at hQ
          exact boucle 0 h₁ (by rw [hk₁]; exact hQ)
      simp only [keyboardBoucle, wp_bind, wp_get]
      split
      · next hplein =>
        simp only [Clavier.deroule, hplein, not_false_eq_true, if_true] at hQ
        exact wp_keyboardDataFin h he hQ
      next hplace =>
      split
      · rw [wp_bind]
        refine wp_surConsole ?_
        intro s₁ h₁ hk₁
        exact corps h₁ hk₁ (not_not.mp hplace)
      · exact corps rfl rfl (not_not.mp hplace)

theorem wp_keyboardBoucle {Q : Suite → Kernel → Prop} (str : List UInt8) (saute : Nat)
    (h : Stable s.toCore) (he : s.toCore.EnCours)
    (hQ : ∀ r s', AppelClavier (s.clavier.eveils saute str) r s.toCore s'.toCore → Q r s') :
    wp C.tolere (keyboardBoucle saute str) Q s :=
  wp_frappe str saute h he fun r s' ha => hQ r s' (s.clavier.eveils_eq saute str ▸ ha.appel)

theorem wp_keyboardData {Q : Suite → Kernel → Prop} (str : List UInt8) (h : Stable s.toCore)
    (he : s.toCore.EnCours)
    (hQ : ∀ r s', AppelClavier (s.clavier.eveils 0 (str.takeWhile (· ≠ 0))) r s.toCore s'.toCore →
      Q r s') : wp C.tolere (keyboardData str) Q s := wp_keyboardBoucle _ 0 h he hQ

theorem wp_keyboardFinReprise {Q : Suite → Kernel → Prop}
    (hQ : ∀ r s', AppelClavier 0 r s.toCore s'.toCore → Q r s') :
    wp C.tolere keyboardFinReprise Q s := by
  rw [keyboardFinReprise, wp_bind]
  refine wp_surConsole ?_
  intro s₁ h₁ _
  refine hQ _ s₁ ?_
  rw [h₁]
  exact .fin

/-- The processes `n` calls of `verifie_es` wake when none asks for an
election. -/
def Core.reveillesEs (s : Core) (n : Nat) : List Ptr := (s.elems .procBloqueEs).reverse.take n

theorem Core.reveillesEs_succ {s : Core} {p : Ptr} (n : Nat)
    (hp : s.chainage.top .procBloqueEs = some p) :
    s.reveillesEs (n + 1) = p :: (s.eveille p id).reveillesEs n := by
  simp only [Core.reveillesEs, Core.elems_eveille_top (f := id) hp (by decide),
    List.reverse_append, List.reverse_singleton, List.singleton_append, List.take_succ_cons]

/-- The transitions of `n` calls of `verifie_es`, of which those that return
to user mode may wake a process of greater priority. -/
theorem AppelClavier.segment {n : Nat} {r : Suite} {s s' : Core} (h : Stable s) (he : s.EnCours)
    (hfort : ∀ p ∈ s.reveillesEs n, s.fort p = true → C.fort)
    (ha : AppelClavier n r s s') : Segment C r s s' := by
  suffices hS : ∀ {s₀ : Core}, Calme C.admetRetour s₀ s → Segment C r s₀ s' from hS .refl
  induction ha with
  | fin =>
    intro s₀ hq
    exact .iret hq he
  | vide hvide _ ih =>
    intro s₀ hq
    refine ih h he ?_ hq
    intro p hp
    simp [Core.reveillesEs, hvide] at hp
  | @reveil n r s s' p hp hle _ ih =>
    intro s₀ hq
    have q : Quiet { fort := s.fort p } s (s.eveille p id) := .reveilEs hp
    rw [Core.reveillesEs_succ n hp] at hfort
    have hq' := hq.puis he q (Cadre.admetRetour_of rfl nofun (hfort p List.mem_cons_self) nofun nofun nofun)
    refine ih (h.quiet he q) (h.enCours_quiet he q) ?_ hq'
    intro x hx hf
    rw [Core.fort_eveille (f := id) (fun _ => rfl)] at hf
    exact hfort x (List.mem_cons_of_mem _ hx) hf
  | @cede n k s p hp hgt hk =>
    intro s₀ hq
    have q : Quiet { fort := s.fort p } s (s.eveille p id) := .reveilEs hp
    have hq' : Calme C.admet s₀ (s.eveille p id) :=
      (hq.mono fun l hl => hl.1).puis he q Cadre.admet_muette
    exact .ordonnanceur hq' (h.enCours_quiet he q) (.suspend hk) (fun hx => absurd rfl hx)
      fun hx => absurd hx (Reprise.trace_of_volontaire hk)

-- ---------------------------------------------------------------------------
-- `cons_read`
-- ---------------------------------------------------------------------------

theorem consRead_raffine (h : Stable s.toCore) (he : s.toCore.EnCours)
    (hidle : s.procElu ≠ s.procIdle) (string length : Nat) :
    Raffine C (consRead string length) s := by
  unfold Raffine
  simp only [consRead, wp_bind, wp_get]
  split
  · exact .rien he
  split
  · simp only [wp_bind]
    refine wp_ecrire he.vivant ?_
    intro s₁ h₁
    refine wp_queueAdd (by rw [h₁]; exact h.coherent.lien_procElu he) ?_
    intro s₂ h₂
    rw [wp_pure, h₂, h₁]
    exact .ordonnanceur .refl he (.consRead hidle) (fun hx => absurd rfl hx)
  simp only [wp_bind]
  refine inerte_memsetUser _ _ C _ s ?_
  intro _ s₁ h₁
  refine inerte_surClavier _ C _ s₁ ?_
  intro _ s₂ h₂
  refine inerte_copieTampon _ _ C _ s₂ ?_
  intro _ s₃ h₃
  have hs₃ : s₃.toCore = s.toCore := h₃.trans (h₂.trans h₁)
  -- the line is saved or not, then the buffer is shifted
  have suite : ∀ (s₄ : Kernel) (f : Clavier → Clavier) (v : Int),
      Calme C.admetRetour s.toCore s₄.toCore → s₄.toCore.EnCours →
      wp C.tolere (surClavier f) (fun _ s' => Segment C (.retour v) s.toCore s'.toCore) s₄ := by
    intro s₄ f v hq he₄
    refine inerte_surClavier f C _ s₄ ?_
    intro _ s₅ h₅
    rw [h₅]
    exact .retour hq he₄
  split
  · simp only [wp_bind, wp_pure]
    refine wp_memorise string ?_
    intro s₄ h₄
    have q : Quiet {} s.toCore s₄.toCore := by
      rw [h₄, hs₃]
      exact .alloue (Nat.le_succ _)
    exact suite s₄ _ _ (.un he q Cadre.admetRetour_muette) (h.enCours_quiet he q)
  · simp only [wp_bind, wp_pure]
    exact suite s₃ _ _ (by rw [hs₃]; exact .refl) (by rw [hs₃]; exact he)

end

end GenesisOS
