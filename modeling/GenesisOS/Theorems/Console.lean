import GenesisOS.Refinement.Boot
import GenesisOS.Refinement.Display

/-!
# GenesisOS — bounds of the text console

`Affiche C` are the consoles met by sequences of operations that all satisfy
`C`.

* The writes stay inside the screen as long as no operation brings the cursor
  to a left margin equal to `LARGEUR`, starts a row below the last one, draws
  back more than `HAUTEUR` lines, or runs past the end of `screen_buffer`
  (`console_dans_ecran`).
* The accesses stay inside `screen_buffer` as long as its lines are not
  exhausted and the screen does not scroll past them (`console_dans_tampon`).
-/

namespace GenesisOS

namespace Console

variable {k k' : Console} {c : Int} {e b : List (Nat × Nat)}

/-- What every operation keeps. -/
structure Regle (k : Console) : Prop where
  marge     : 0 ≤ k.idColStart ∧ k.idColStart ≤ LARGEUR
  buffLigne : k.buffLigne < 65536

theorem Regle.congr (h : Regle k) (hi : k'.idColStart = k.idColStart)
    (hb : k'.buffLigne = k.buffLigne ∨ k'.buffLigne = incr16 k.buffLigne) : Regle k' := by
  refine ⟨hi ▸ h.marge, ?_⟩
  have hl := h.buffLigne
  unfold incr16 at hb
  omega

theorem Geste.idColStart {k₁ : Console} (g : Geste k c k₁) : k₁.idColStart = k.idColStart := by
  cases g with
  | bs | ht | htLigne | lf | cr | rien => rfl
  | ff =>
    obtain ⟨k₂, e, hd, -, heq⟩ := dessine_effaceEcran k
    rw [heq]
    exact hd.idColStart
  | del _ hd => exact hd.idColStart
  | controle _ _ h => rw [traiteCarFin_idColStart, h.idColStart]
  | controleCar _ _ h _ h' => rw [h'.idColStart, traiteCarFin_idColStart, h.idColStart]
  | imprime _ _ h => exact h.idColStart

/-- The characters that begin a line of the buffer. -/
def Tourne (k : Console) (c : Int) : Prop := c = 10 ∨ (c = 9 ∧ 8 ≤ k.colonne)

instance (k : Console) (c : Int) : Decidable (k.Tourne c) := inferInstanceAs (Decidable (_ ∨ _))

instance (c : Int) : Decidable (Special c) := inferInstanceAs (Decidable (_ ∨ _))

instance (k : Console) (c : Int) : Decidable (k.Ecrit c) := inferInstanceAs (Decidable (_ ∨ _))

theorem Geste.buffLigne {k₁ : Console} (g : Geste k c k₁) :
    (k.Tourne c → k₁.buffLigne = incr16 k.buffLigne) ∧
    (¬ k.Tourne c → k₁.buffLigne = k.buffLigne) := by
  have hne : ∀ {n : Nat}, ¬ k.Tourne c → n = k.buffLigne →
      (k.Tourne c → n = incr16 k.buffLigne) ∧ (¬ k.Tourne c → n = k.buffLigne) :=
    fun hn h => ⟨fun ht => absurd ht hn, fun _ => h⟩
  unfold Tourne at *
  cases g with
  | bs => exact hne (by omega) rfl
  | ht h => exact hne (by omega) rfl
  | htLigne h => exact ⟨fun _ => rfl, fun hn => absurd (.inr ⟨rfl, h⟩) hn⟩
  | lf => exact ⟨fun _ => rfl, fun hn => absurd (.inl rfl) hn⟩
  | ff =>
    obtain ⟨k₂, e, hd, -, heq⟩ := dessine_effaceEcran k
    exact hne (by omega) (by rw [heq]; exact hd.buffLigne)
  | cr => exact hne (by omega) rfl
  | del _ hd => exact hne (by omega) hd.buffLigne
  | rien hc => exact hne (by omega) rfl
  | controle hc hs h =>
    unfold Special at hs
    exact hne (by omega) (by rw [traiteCarFin_buffLigne, h.buffLigne])
  | controleCar hc hs h _ h' =>
    unfold Special at hs
    exact hne (by omega) (by rw [h'.buffLigne, traiteCarFin_buffLigne, h.buffLigne])
  | imprime hc _ h => exact hne (by omega) h.buffLigne

-- ---------------------------------------------------------------------------
-- The screen
-- ---------------------------------------------------------------------------

/-- All writes to the screen have been to its cells. -/
def EcritsDedans (k : Console) : Prop := ∀ a ∈ k.ecrits, a.1 < HAUTEUR ∧ a.2 < LARGEUR

theorem EcritsDedans.append (h : k.EcritsDedans) (hk : k'.ecrits = k.ecrits ++ e) :
    k'.EcritsDedans ↔ ∀ a ∈ e, a.1 < HAUTEUR ∧ a.2 < LARGEUR := by
  unfold EcritsDedans
  rw [hk]
  exact ⟨fun h' a ha => h' a (List.mem_append_right _ ha),
    fun he a ha => (List.mem_append.mp ha).elim (h a) (he a)⟩

theorem EcritsDedans.case {lig col : Nat} (h : k.EcritsDedans)
    (hk : k'.ecrits = k.ecrits ++ [(lig, col)]) (hl : lig < HAUTEUR) (hc : col < LARGEUR) :
    k'.EcritsDedans := by
  refine (h.append hk).mpr fun a ha => ?_
  rw [List.mem_singleton.mp ha]
  exact ⟨hl, hc⟩

theorem EcritsDedans.fin (h : k.EcritsDedans) : k.traiteCarFin.EcritsDedans := by
  by_cases hl : k.ligne = 24
  · exact (h.append (defile_traiteCarFin hl).ecrits).mpr fun _ => cellulesDefilees_dans
  · rwa [traiteCarFin_of_ne hl]

/-- The cursor and all writes are inside the screen. -/
structure DansEcran (k : Console) : Prop where
  ligne   : k.ligne < HAUTEUR
  colonne : k.colonne < LARGEUR
  ecrits  : k.EcritsDedans

theorem fin_dansEcran (h : k.EcritsDedans) :
    k.traiteCarFin.DansEcran ↔ k.ligne = 24 ∨ (k.ligne < HAUTEUR ∧ k.colonne < LARGEUR) := by
  by_cases hl : k.ligne = 24
  · have hd := defile_traiteCarFin hl
    exact ⟨fun _ => .inl hl, fun _ => ⟨by rw [hd.ligne]; decide, by rw [hd.colonne]; decide, h.fin⟩⟩
  · rw [traiteCarFin_of_ne hl]
    exact ⟨fun hd => .inr ⟨hd.ligne, hd.colonne⟩,
      fun hx => ⟨(hx.resolve_left hl).1, (hx.resolve_left hl).2, h⟩⟩

/-- The characters that leave the cursor inside the screen: a tab begins no row
below the last one, and a margin equal to `LARGEUR` is not reached. -/
def CarDedans (k : Console) (c : Int) : Prop :=
  (c = 9 → ¬ (k.ligne + 1 = HAUTEUR ∧ 8 ≤ k.colonne)) ∧
  (k.idColStart = LARGEUR →
    (c = 8 ∨ c = 13 → k.ligne + 1 = HAUTEUR) ∧ (c = 10 → k.ligne + 2 = HAUTEUR))

instance (k : Console) (c : Int) : Decidable (k.CarDedans c) := inferInstanceAs (Decidable (_ ∧ _))

theorem Geste.dansEcran {k₁ : Console} (hr : k.Regle) (hk : k.DansEcran) (g : Geste k c k₁) :
    k₁.EcritsDedans ∧
    (k₁.ligne = 24 ∨ (k₁.ligne < HAUTEUR ∧ k₁.colonne < LARGEUR) ↔ k.CarDedans c) := by
  obtain ⟨hl, hcol, hek⟩ := hk
  obtain ⟨h0, h80⟩ := hr.marge
  unfold CarDedans
  unfold HAUTEUR LARGEUR at *
  cases g with
  | bs =>
    refine ⟨hek, ?_⟩
    rw [placeCurseur_ligne (by omega) (by omega),
      placeCurseur_colonne (by split <;> omega) (by split <;> omega)]
    split <;> omega
  | ht h =>
    refine ⟨hek, ?_⟩
    rw [placeCurseur_ligne (by omega) (by omega), placeCurseur_colonne (by omega) (by omega)]
    omega
  | htLigne h hx =>
    refine ⟨hek, ?_⟩
    rw [placeCurseur_ligne (by omega) (by omega), placeCurseur_colonne (by omega) (by omega)]
    omega
  | lf =>
    refine ⟨hek, ?_⟩
    show (k.placeCurseur ((k.ligne + 1) % 25 : Nat) k.idColStart).ligne = 24 ∨
      (k.placeCurseur ((k.ligne + 1) % 25 : Nat) k.idColStart).ligne < 25 ∧
      (k.placeCurseur ((k.ligne + 1) % 25 : Nat) k.idColStart).colonne < 80 ↔ _
    rw [placeCurseur_ligne (by omega) (by omega), placeCurseur_colonne (by omega) (by omega)]
    omega
  | ff =>
    obtain ⟨k₂, e, hd, he, heq⟩ := dessine_effaceEcran k
    rw [heq, placeCurseur_ligne (by omega) (by omega), placeCurseur_colonne (by omega) (by omega)]
    exact ⟨(hek.append hd.ecrits).mpr he, by omega⟩
  | cr =>
    refine ⟨hek, ?_⟩
    rw [placeCurseur_ligne (by omega) (by omega), placeCurseur_colonne (by omega) (by omega)]
    omega
  | del hx hd =>
    refine ⟨hek.case hd.ecrits hl (by unfold LARGEUR; omega), ?_⟩
    rw [placeCurseur_ligne (by omega) (by rw [hd.ligne]; omega),
      placeCurseur_colonne (by rw [hd.colonne]; omega) (by rw [hd.colonne]; omega), hd.ligne, hd.colonne]
    omega
  | rien hc => exact ⟨hek, by omega⟩
  | imprime hc _ h =>
    refine ⟨hek.case h.ecrits hl hcol, ?_⟩
    have hcur := h.curseur
    unfold HAUTEUR LARGEUR at hcur
    split at hcur <;> omega
  | controle hc hs h =>
    unfold Special at hs
    have he := hek.case h.ecrits hl hcol
    have hcur := h.curseur
    refine ⟨he.fin, ?_⟩
    unfold HAUTEUR LARGEUR at hcur
    have hd := (fin_dansEcran he).mpr (by unfold HAUTEUR LARGEUR; split at hcur <;> omega)
    have hl' := hd.ligne
    have hc' := hd.colonne
    unfold HAUTEUR at hl'
    unfold LARGEUR at hc'
    omega
  | controleCar hc hs h hc' h' =>
    unfold Special at hs
    have he := hek.case h.ecrits hl hcol
    have hcur := h.curseur
    unfold HAUTEUR LARGEUR at hcur
    have hd := (fin_dansEcran he).mpr (by unfold HAUTEUR LARGEUR; split at hcur <;> omega)
    have hl' := hd.ligne
    have hc' := hd.colonne
    refine ⟨he.fin.case h'.ecrits hl' hc', ?_⟩
    have hcur' := h'.curseur
    unfold HAUTEUR at hl'
    unfold LARGEUR at hc'
    unfold HAUTEUR LARGEUR at hcur'
    split at hcur' <;> omega

/-- Drawing the lines back stays inside the screen when there are at most
`HAUTEUR` of them. -/
theorem cellulesAffichees_dans :
    (∀ x ∈ k.cellulesAffichees, x.1 < HAUTEUR ∧ x.2 < LARGEUR) ↔
      k.buffLigne < k.buffDisplayLigne + HAUTEUR := by
  have hmem : ∀ x, x ∈ k.cellulesAffichees ↔
      ∃ i ∈ k.lignesAffichees, ∃ j < LARGEUR, (i - k.buffDisplayLigne, j) = x := by
    intro x
    simp only [cellulesAffichees, List.mem_flatMap, List.mem_map, List.mem_range]
  constructor
  · intro hx
    by_contra hb
    have := (hx (k.buffLigne - k.buffDisplayLigne, 0) ((hmem _).mpr ⟨k.buffLigne,
      mem_lignesAffichees.mpr ⟨by omega, le_refl _⟩, 0, by decide, rfl⟩)).1
    simp only at this
    omega
  · intro hb x hx
    obtain ⟨i, hi, j, hj, rfl⟩ := (hmem x).mp hx
    obtain ⟨hi, hi'⟩ := mem_lignesAffichees.mp hi
    exact ⟨by simp only; omega, hj⟩

/-- The erasure of a line moves the cursor to the margin. -/
theorem Efface.dansEcran (hr : k.Regle) (hl : k.ligne < HAUTEUR) (hek : k.EcritsDedans)
    (he : Efface k k') : k'.DansEcran ↔ k.idColStart ≠ LARGEUR := by
  obtain ⟨h0, h80⟩ := hr.marge
  have hcol := he.colonne
  have hlig := he.ligne
  unfold HAUTEUR at hl
  unfold LARGEUR at *
  rw [Int.emod_eq_of_lt h0 (by omega)] at hcol
  constructor
  · intro hd
    have := hd.colonne
    unfold LARGEUR at this
    omega
  · intro hne
    refine ⟨by unfold HAUTEUR; omega, by unfold LARGEUR; omega, (hek.append he.ecrits).mpr ?_⟩
    intro x hx
    obtain ⟨j, hj, rfl⟩ := List.mem_map.mp hx
    exact ⟨hl, (mem_colonnesEffacees.mp hj).2⟩

-- ---------------------------------------------------------------------------
-- The buffer
-- ---------------------------------------------------------------------------

/-- All accesses to `screen_buffer` have been inside it. -/
def AccesDedans (k : Console) : Prop := ∀ a ∈ k.accesBuffer, a.1 < HAUTEUR * 100 ∧ a.2 < LARGEUR

theorem AccesDedans.append (h : k.AccesDedans) (hk : k'.accesBuffer = k.accesBuffer ++ b) :
    k'.AccesDedans ↔ ∀ a ∈ b, a.1 < HAUTEUR * 100 ∧ a.2 < LARGEUR := by
  unfold AccesDedans
  rw [hk]
  exact ⟨fun h' a ha => h' a (List.mem_append_right _ ha),
    fun he a ha => (List.mem_append.mp ha).elim (h a) (he a)⟩

theorem AccesDedans.congr (h : k.AccesDedans) (hk : k'.accesBuffer = k.accesBuffer) :
    k'.AccesDedans := by
  unfold AccesDedans
  rwa [hk]

theorem AccesDedans.case {lig col : Nat} (h : k.AccesDedans)
    (hk : k'.accesBuffer = k.accesBuffer ++ [(lig, col)]) (hc : col < LARGEUR) :
    k'.AccesDedans ↔ lig < HAUTEUR * 100 := by
  rw [h.append hk]
  constructor
  · exact fun hx => (hx _ List.mem_cons_self).1
  · intro hl a ha
    rw [List.mem_singleton.mp ha]
    exact ⟨hl, hc⟩

theorem traiteCarFin_accesBuffer : k.traiteCarFin.accesBuffer = k.accesBuffer := by
  by_cases h : k.ligne = 24
  · exact (defile_traiteCarFin h).accesBuffer
  · rw [traiteCarFin_of_ne h]

theorem Geste.accesDedans {k₁ : Console} (hcol : k.colonne < LARGEUR) (hk : k.AccesDedans)
    (g : Geste k c k₁) : k₁.AccesDedans ↔ (k.Ecrit c → k.buffLigne < HAUTEUR * 100) := by
  have hne : ¬ k.Ecrit c → k₁.accesBuffer = k.accesBuffer →
      (k₁.AccesDedans ↔ (k.Ecrit c → k.buffLigne < HAUTEUR * 100)) :=
    fun hn h => ⟨fun _ he => absurd he hn, fun _ => hk.congr h⟩
  have hpos : ∀ {col : Nat}, k.Ecrit c → k₁.accesBuffer = k.accesBuffer ++ [(k.buffLigne, col)] →
      col < LARGEUR → (k₁.AccesDedans ↔ (k.Ecrit c → k.buffLigne < HAUTEUR * 100)) :=
    fun he h hc => (hk.case h hc).trans ⟨fun h _ => h, fun h => h he⟩
  unfold Ecrit Special at *
  cases g with
  | bs | ht | htLigne | lf | cr => exact hne (by omega) rfl
  | rien hc => exact hne (by omega) rfl
  | ff =>
    obtain ⟨k₂, e, hd, -, heq⟩ := dessine_effaceEcran k
    refine hne (by omega) ?_
    rw [heq]
    exact hd.accesBuffer.trans (List.append_nil _)
  | del hx hd => exact hpos (by omega) hd.accesBuffer (by omega)
  | imprime hc hc' h => exact hpos (by omega) h.accesBuffer hcol
  | controle hc hs h =>
    unfold Special at hs
    exact hpos (by omega) (traiteCarFin_accesBuffer.trans h.accesBuffer) hcol
  | controleCar hc hs h _ h' =>
    have he : (c < 32 ∧ ¬ (c = 7 ∨ c = 8 ∨ c = 9 ∨ c = 10 ∨ c = 12 ∨ c = 13 ∨ c = 27)) := ⟨hc, hs⟩
    have hcol' := traiteCarFin_colonne_lt (h.colonne_lt hcol)
    have hb := (traiteCarFin_buffLigne (k := _)).trans h.buffLigne
    have hacc := h'.accesBuffer
    rw [hb] at hacc
    have hfin := traiteCarFin_accesBuffer.trans h.accesBuffer
    constructor
    · intro hx _
      exact (hx (k.buffLigne, _) (by rw [hacc]; exact List.mem_append_right _ List.mem_cons_self)).1
    · intro hx
      have hl := hx (.inl he)
      exact (((hk.case hfin hcol).mpr hl).case hacc hcol').mpr hl

theorem traiteCarFin_buffDisplayLigne : k.traiteCarFin.buffDisplayLigne =
    if k.ligne = 24 then (k.buffDisplayLigne + 1) % 65536 else k.buffDisplayLigne := by
  split
  · next h => exact (defile_traiteCarFin h).buffDisplayLigne
  · next h => rw [traiteCarFin_of_ne h]

theorem traiteCarFin_ligne_ne : k.traiteCarFin.ligne ≠ 24 := by
  by_cases h : k.ligne = 24
  · rw [(defile_traiteCarFin h).ligne]
    decide
  · rwa [traiteCarFin_of_ne h]

/-- The characters that scroll the screen without beginning a line of the
buffer: they wrap around the end of the last row but one, or the cursor was on
the last row. -/
def Glisse (k : Console) (c : Int) : Prop :=
  ¬ k.Tourne c ∧ c ≠ 12 ∧
  ((k.ligne + 1 = HAUTEUR ∧ (Special c ∨ 126 < c ∨ k.colonne + 1 ≠ LARGEUR)) ∨
   (k.ligne % HAUTEUR + 2 = HAUTEUR ∧ ¬ Special c ∧ c ≤ 126 ∧
    (k.colonne + 1 = LARGEUR ∨ (k.colonne + 2 = LARGEUR ∧ c < 32 ∧ -32 ≤ c))))

instance (k : Console) (c : Int) : Decidable (k.Glisse c) := inferInstanceAs (Decidable (_ ∧ _))

/-- What a character does to the first line shown. -/
structure Montre (k k' : Console) (c : Int) : Prop where
  tourne : k.Tourne c → k'.buffDisplayLigne = k.buffDisplayLigne ∨
    k'.buffDisplayLigne = (k.buffDisplayLigne + 1) % 65536
  glisse : k.Glisse c → k'.buffDisplayLigne = (k.buffDisplayLigne + 1) % 65536
  reste  : ¬ k.Tourne c → ¬ k.Glisse c → k'.buffDisplayLigne = k.buffDisplayLigne ∨
    k'.buffDisplayLigne = k.buffLigne

theorem Montre.of_tourne (ht : k.Tourne c) {l : Nat} (h : k'.buffDisplayLigne =
    if l = 24 then (k.buffDisplayLigne + 1) % 65536 else k.buffDisplayLigne) : Montre k k' c := by
  refine ⟨fun _ => ?_, fun hg => absurd ht hg.1, fun hn => absurd ht hn⟩
  rw [h]
  split
  · exact .inr rfl
  · exact .inl rfl

/-- A character that begins no line: it scrolls when it leaves the cursor on
the row `l` and this is the last one. -/
theorem Montre.of_ligne (ht : ¬ k.Tourne c) {l : Nat} (hl : l = 24 ↔ k.Glisse c)
    (h : k'.buffDisplayLigne =
      if l = 24 then (k.buffDisplayLigne + 1) % 65536 else k.buffDisplayLigne) : Montre k k' c := by
  refine ⟨fun hx => absurd hx ht, fun hg => ?_, fun _ hg => ?_⟩
  · rw [h, if_pos (hl.mpr hg)]
  · rw [h, if_neg fun hx => hg (hl.mp hx)]
    exact .inl rfl

theorem Geste.montre {k₁ : Console} (hl : k.ligne < 65536) (hcol : k.colonne < LARGEUR)
    (g : Geste k c k₁) : Montre k k₁.traiteCarFin c := by
  have hfin := traiteCarFin_buffDisplayLigne (k := k₁)
  cases g with
  | bs =>
    rw [placeCurseur_ligne (by omega) (by omega)] at hfin
    refine .of_ligne (by unfold Tourne; omega) ?_ hfin
    unfold Glisse Tourne Special HAUTEUR
    omega
  | ht h =>
    rw [placeCurseur_ligne (by omega) (by omega)] at hfin
    refine .of_ligne (by unfold Tourne; omega) ?_ hfin
    unfold Glisse Tourne Special HAUTEUR
    omega
  | htLigne h => exact .of_tourne (.inr ⟨rfl, h⟩) hfin
  | lf => exact .of_tourne (.inl rfl) hfin
  | ff =>
    obtain ⟨k₂, e, hd, -, heq⟩ := dessine_effaceEcran k
    rw [placeCurseur_ligne (by omega) (by omega), if_neg (by decide), heq] at hfin
    exact ⟨fun ht => by unfold Tourne at ht; omega, fun hg => absurd rfl hg.2.1,
      fun _ _ => .inr (heq ▸ hfin.trans hd.buffLigne)⟩
  | cr =>
    rw [placeCurseur_ligne (by omega) (by omega)] at hfin
    refine .of_ligne (by unfold Tourne; omega) ?_ hfin
    unfold Glisse Tourne Special HAUTEUR
    omega
  | del hx hd =>
    rw [placeCurseur_ligne (by omega) (by rw [hd.ligne]; omega), placeCurseur_buffDisplayLigne,
      hd.buffDisplayLigne] at hfin
    refine .of_ligne (by unfold Tourne; omega) ?_ hfin
    rw [hd.ligne]
    unfold Glisse Tourne Special HAUTEUR
    omega
  | rien hc =>
    refine .of_ligne (by unfold Tourne; omega) ?_ hfin
    unfold Glisse Tourne Special HAUTEUR
    omega
  | imprime hc hc' h =>
    rw [h.buffDisplayLigne] at hfin
    have hcur := h.deplace hl hcol
    refine .of_ligne (by unfold Tourne; omega) ?_ hfin
    unfold Glisse Tourne Special
    unfold HAUTEUR LARGEUR at *
    split at hcur <;> omega
  | @controle _ k₂ hc hs h =>
    rw [if_neg traiteCarFin_ligne_ne, traiteCarFin_buffDisplayLigne (k := k₂), h.buffDisplayLigne] at hfin
    have hcur := h.deplace hl hcol
    unfold Special at hs
    refine .of_ligne (by unfold Tourne; omega) ?_ hfin
    unfold Glisse Tourne Special
    unfold HAUTEUR LARGEUR at *
    split at hcur <;> omega
  | @controleCar _ k₂ _ hc hs h hc' h' =>
    rw [h'.buffDisplayLigne] at hfin
    have hcur := h.deplace hl hcol
    unfold Special at hs
    by_cases hl₂ : k₂.ligne = 24
    · have hd := defile_traiteCarFin hl₂
      have hcur' := h'.deplace (by rw [hd.ligne]; decide) (by rw [hd.colonne]; decide)
      rw [hd.colonne, hd.ligne, if_neg (by decide)] at hcur'
      rw [if_neg (by omega), hd.buffDisplayLigne, h.buffDisplayLigne] at hfin
      refine .of_ligne (l := 24) (by unfold Tourne; omega) ?_ (by rw [if_pos rfl]; exact hfin)
      unfold Glisse Tourne Special
      unfold HAUTEUR LARGEUR at *
      split at hcur <;> omega
    · rw [traiteCarFin_of_ne hl₂] at h' hfin
      have hl' : k₂.ligne < 65536 := by
        unfold HAUTEUR at hcur
        split at hcur <;> omega
      have hcur' := h'.deplace hl' (h.colonne_lt hcol)
      rw [h.buffDisplayLigne] at hfin
      refine .of_ligne (by unfold Tourne; omega) ?_ hfin
      unfold Glisse Tourne Special
      unfold HAUTEUR LARGEUR at *
      split at hcur <;> split at hcur' <;> omega

theorem traiteCarFin_ligne_lt (h : k.ligne < 65536) : k.traiteCarFin.ligne < 65536 := by
  by_cases hl : k.ligne = 24
  · rw [(defile_traiteCarFin hl).ligne]
    decide
  · rwa [traiteCarFin_of_ne hl]

/-- A cursor that stays left of a margin inside the screen. -/
structure Curseur (k : Console) : Prop where
  ligne   : k.ligne < 65536
  colonne : k.colonne < LARGEUR
  marge   : 0 ≤ k.idColStart ∧ k.idColStart < LARGEUR
  buff    : k.buffLigne < 65536

theorem Curseur.placeCurseur (h : k.Curseur) {lig col : Int} (h0 : 0 ≤ col) (hc : col < LARGEUR) :
    (k.placeCurseur lig col).Curseur := by
  unfold LARGEUR at hc
  refine ⟨by show (lig % 65536).toNat < 65536; omega, ?_, h.marge, h.buff⟩
  rw [placeCurseur_colonne h0 (by omega)]
  unfold LARGEUR
  omega

theorem Curseur.imprime (h : k.Curseur) (hi : Imprime k k') : k'.Curseur := by
  have hcur := hi.deplace h.ligne h.colonne
  have hl := h.ligne
  refine ⟨?_, hi.colonne_lt h.colonne, hi.idColStart ▸ h.marge, hi.buffLigne ▸ h.buff⟩
  unfold HAUTEUR at hcur
  split at hcur <;> omega

theorem Curseur.fin (h : k.Curseur) : k.traiteCarFin.Curseur := by
  refine ⟨traiteCarFin_ligne_lt h.ligne, traiteCarFin_colonne_lt h.colonne, ?_, ?_⟩
  · rw [traiteCarFin_idColStart]
    exact h.marge
  · rw [traiteCarFin_buffLigne]
    exact h.buff

theorem Curseur.incr (h : k.Curseur) : Curseur { k with buffLigne := incr16 k.buffLigne } :=
  ⟨h.ligne, h.colonne, h.marge, Nat.mod_lt _ (by decide)⟩

theorem Dessine.curseur (hd : Dessine k k' e b) (h : k.Curseur) : k'.Curseur :=
  ⟨hd.ligne ▸ h.ligne, hd.colonne ▸ h.colonne, hd.idColStart ▸ h.marge, hd.buffLigne ▸ h.buff⟩

theorem Efface.curseur (he : Efface k k') (hm : 0 ≤ k.idColStart ∧ k.idColStart < LARGEUR)
    (hb : k.buffLigne < 65536) : k'.Curseur := by
  obtain ⟨h0, h80⟩ := hm
  have hl := he.ligne
  have hc := he.colonne
  refine ⟨by omega, ?_, he.idColStart ▸ ⟨h0, h80⟩, he.buffLigne ▸ hb⟩
  unfold LARGEUR at *
  omega

theorem Efface.accesDedans (he : Efface k k') (hm : 0 ≤ k.idColStart ∧ k.idColStart < LARGEUR)
    (hk : k.AccesDedans) : k'.AccesDedans ↔ k.buffLigne < HAUTEUR * 100 := by
  obtain ⟨h0, h80⟩ := hm
  rw [hk.append he.accesBuffer]
  constructor
  · intro hx
    have hj : LARGEUR - 1 ∈ k.colonnesEffacees :=
      mem_colonnesEffacees.mpr ⟨by omega, by decide⟩
    exact (hx _ (List.mem_map_of_mem hj)).1
  · intro hl a ha
    obtain ⟨j, hj, rfl⟩ := List.mem_map.mp ha
    exact ⟨hl, (mem_colonnesEffacees.mp hj).2⟩

theorem cellulesLues_dans (h : k.buffDisplayLigne ≤ k.buffLigne) :
    (∀ a ∈ k.cellulesLues, a.1 < HAUTEUR * 100 ∧ a.2 < LARGEUR) ↔ k.buffLigne < HAUTEUR * 100 := by
  have hmem : ∀ a, a ∈ k.cellulesLues ↔
      ∃ i ∈ k.lignesAffichees, ∃ j < LARGEUR, (i, j) = a := by
    intro a
    simp only [cellulesLues, List.mem_flatMap, List.mem_map, List.mem_range]
  constructor
  · intro hx
    exact (hx (k.buffLigne, 0) ((hmem _).mpr
      ⟨k.buffLigne, mem_lignesAffichees.mpr ⟨h, le_refl _⟩, 0, by decide, rfl⟩)).1
  · intro hl a ha
    obtain ⟨i, hi, j, hj, rfl⟩ := (hmem a).mp ha
    exact ⟨lt_of_le_of_lt (mem_lignesAffichees.mp hi).2 hl, hj⟩

/-- Drawing lines of the buffer. -/
theorem displayBuff_acces (hk : k.AccesDedans) (h : k.buffDisplayLigne ≤ k.buffLigne) :
    (k.buffLigne < HAUTEUR * 100 → ∃ k', k.displayBuff = some k') ∧
    ∀ k', Dessine k k' k.cellulesAffichees k.cellulesLues →
      (k'.AccesDedans ↔ k.buffLigne < HAUTEUR * 100) :=
  ⟨fun hl => displayBuff_isSome fun _ hi => lt_of_le_of_lt (mem_lignesAffichees.mp hi).2 hl,
    fun _ hd => (hk.append hd.accesBuffer).trans (cellulesLues_dans h)⟩

/-- All accesses have been inside the buffer, and its first line shown exists. -/
structure DansTampon (k : Console) : Prop where
  acces : k.AccesDedans
  ligne : k.buffDisplayLigne ≤ k.buffLigne

theorem Efface.dansTampon (he : Efface k k') (hm : 0 ≤ k.idColStart ∧ k.idColStart < LARGEUR)
    (hk : k.AccesDedans) (hbd : k.buffDisplayLigne ≤ k.buffLigne) :
    k'.DansTampon ↔ k.buffLigne < HAUTEUR * 100 := by
  rw [← he.accesDedans hm hk]
  refine ⟨fun hd => hd.acces, fun ha => ⟨ha, ?_⟩⟩
  rw [he.buffDisplayLigne, he.buffLigne]
  exact hbd

theorem defillementBas_isSome_iff (hm : k.idColStart.toNat < LARGEUR) (hb : k.buffLigne < 65536) :
    (∃ k', k.defillementBas = some k') ↔ k.buffLigne < HAUTEUR * 100 := by
  by_cases hbas : k.buffDisplayLigne + HAUTEUR ≤ k.buffLigne + 1
  · have hle : incr16 k.buffDisplayLigne ≤ k.buffLigne := by
      unfold HAUTEUR at hbas
      unfold incr16
      omega
    constructor
    · rintro ⟨k', h⟩
      unfold defillementBas at h
      rw [if_pos hbas] at h
      obtain ⟨k₁, h₁, -⟩ := Option.bind_eq_some_iff.mp h
      exact displayBuff_lt h₁ (mem_lignesAffichees.mpr ⟨hle, le_refl _⟩)
    · intro hl
      obtain ⟨k₁, h₁⟩ := displayBuff_isSome (k := { k with buffDisplayLigne := incr16 k.buffDisplayLigne })
        fun i hi => lt_of_le_of_lt (mem_lignesAffichees.mp hi).2 hl
      obtain ⟨k', h⟩ := effaceLigne_isSome (k := k₁.placeCurseur (HAUTEUR - 1 : Nat) k₁.idColStart)
        ((displayBuff_some h₁).buffLigne.symm ▸ hl)
      refine ⟨k', ?_⟩
      unfold defillementBas
      rw [if_pos hbas, h₁]
      exact h
  · have hbas : k.defillementBas = k.effaceLigne := by
      unfold defillementBas
      rw [if_neg hbas]
      rfl
    rw [hbas]
    exact ⟨fun ⟨_, h⟩ => effaceLigne_lt hm h, effaceLigne_isSome⟩

theorem defillementBas_acces (hk : k.Curseur) (ht : k.DansTampon) :
    (k.buffLigne < HAUTEUR * 100 → ∃ k', k.defillementBas = some k') ∧
    ∀ k', k.defillementBas = some k' → (k'.DansTampon ↔ k.buffLigne < HAUTEUR * 100) := by
  obtain ⟨hac, hbd⟩ := ht
  have hbuff := hk.buff
  obtain ⟨h0, h80⟩ := hk.marge
  refine ⟨(defillementBas_isSome_iff (by omega) hbuff).mpr, fun k' h => ?_⟩
  obtain ⟨k₁, e, b, n, he, -, hb₁, hi, hbl, hn, hx⟩ := defillementBas_some h
  have he := effaceLigne_some he
  by_cases hbas : k.buffDisplayLigne + HAUTEUR ≤ k.buffLigne + 1
  · have hle : incr16 k.buffDisplayLigne ≤ k.buffLigne := by
      unfold HAUTEUR at hbas
      unfold incr16
      omega
    rw [if_pos hbas] at hx
    obtain ⟨rfl, -, -, rfl⟩ := hx
    constructor
    · intro hd
      refine (cellulesLues_dans (k := { k with buffDisplayLigne := incr16 k.buffDisplayLigne })
        hle).mp fun a ha => hd.acces a ?_
      rw [he.accesBuffer, hb₁]
      exact List.mem_append_left _ (List.mem_append_right _ ha)
    · intro hl
      refine (he.dansTampon (hi ▸ hk.marge) ?_ (by rw [hn, hbl]; exact hle)).mpr (hbl ▸ hl)
      exact (hac.append hb₁).mpr ((cellulesLues_dans
        (k := { k with buffDisplayLigne := incr16 k.buffDisplayLigne }) hle).mpr hl)
  · rw [if_neg hbas] at hx
    obtain ⟨rfl, -, -⟩ := hx
    exact he.dansTampon hk.marge hac hbd

theorem Geste.curseur {k₁ : Console} (h : k.Curseur) (g : Geste k c k₁) : k₁.Curseur := by
  obtain ⟨h0, h80⟩ := h.marge
  have hcol := h.colonne
  cases g with
  | bs => exact h.placeCurseur (by split <;> omega) (by split <;> omega)
  | ht => exact h.placeCurseur (by omega) (by decide)
  | htLigne _ hx => exact h.incr.placeCurseur (by omega) (by omega)
  | lf => exact (h.placeCurseur h0 h80).incr
  | ff =>
    obtain ⟨k₂, e, hd, -, heq⟩ := dessine_effaceEcran k
    have h₂ := hd.curseur h
    rw [heq]
    exact Curseur.placeCurseur (k := { k₂ with buffDisplayLigne := k₂.buffLigne })
      ⟨h₂.ligne, h₂.colonne, h₂.marge, h₂.buff⟩ (by omega) (by decide)
  | cr => exact h.placeCurseur h0 h80
  | del hx hd =>
    have hc := hd.colonne
    exact (hd.curseur h).placeCurseur (by omega) (by omega)
  | rien => exact h
  | controle _ _ hi => exact (h.imprime hi).fin
  | controleCar _ _ hi _ hi' => exact (h.imprime hi).fin.imprime hi'
  | imprime _ _ hi => exact h.imprime hi

end Console

-- ---------------------------------------------------------------------------
-- Sequences of operations
-- ---------------------------------------------------------------------------

/-- The operations on the display. -/
inductive Affichage where
  /-- `traite_car`, from `cons_write`, `console_putbytes` or the echo. -/
  | car (c : UInt8)
  | setIdStart (i : Int)
  | avanceCurseur
  | effaceLigne
  | defillementHaut
  | defillementBas

def Affichage.applique : Affichage → Console → Option Console
  | .car c, k => k.traiteCar (charVal c)
  | .setIdStart i, k => some (k.setIdStart i)
  | .avanceCurseur, k => some k.avanceCurseur
  | .effaceLigne, k => k.effaceLigne
  | .defillementHaut, k => k.defillementHaut
  | .defillementBas, k => k.defillementBas

/-- The consoles met by sequences of operations that all satisfy `C`. -/
inductive Affiche (C : Console → Affichage → Prop) : Console → Prop
  | debut : Affiche C {}
  | suite {k k' : Console} {a : Affichage} (h : Affiche C k) (hC : C k a)
      (ha : a.applique k = some k') : Affiche C k'

namespace Affichage

open Console

variable {k k' : Console} {a : Affichage}

theorem regle (hr : k.Regle) (hcol : k.colonne < LARGEUR) (h : a.applique k = some k') :
    k'.Regle := by
  cases a with
  | car c =>
    obtain ⟨k₁, g, rfl⟩ := geste_of_traiteCar hcol h
    refine hr.congr (traiteCarFin_idColStart.trans g.idColStart) ?_
    rw [traiteCarFin_buffLigne]
    by_cases ht : k.Tourne (charVal c)
    · exact .inr (g.buffLigne.1 ht)
    · exact .inl (g.buffLigne.2 ht)
  | setIdStart i =>
    cases h
    refine ⟨?_, by unfold Console.setIdStart; split <;> exact hr.buffLigne⟩
    have hm := hr.marge
    unfold Console.setIdStart
    split
    · exact hm
    · exact ⟨by show 0 ≤ i; omega, by show i ≤ LARGEUR; omega⟩
  | avanceCurseur =>
    cases h
    unfold Console.avanceCurseur
    split
    · exact hr
    · exact hr.congr rfl (.inl rfl)
  | effaceLigne =>
    have he := effaceLigne_some h
    exact hr.congr he.idColStart (.inl he.buffLigne)
  | defillementHaut =>
    rcases defillementHaut_some h with ⟨-, rfl⟩ | ⟨-, hd⟩
    · exact hr
    · exact hr.congr hd.idColStart (.inl hd.buffLigne)
  | defillementBas =>
    obtain ⟨k₁, e, b, n, he, -, -, hi, hb, -⟩ := defillementBas_some h
    have he := effaceLigne_some he
    exact hr.congr (he.idColStart.trans hi) (.inl (he.buffLigne.trans hb))

/-- The operations that leave the cursor inside the screen and write inside it. -/
def Dedans (a : Affichage) (k : Console) : Prop :=
  match a with
  | .car c => k.CarDedans (charVal c)
  | .setIdStart _ => True
  | .avanceCurseur => True
  | .effaceLigne => k.idColStart ≠ LARGEUR
  | .defillementHaut => k.buffDisplayLigne = 0 ∨ k.buffLigne + 1 < k.buffDisplayLigne + HAUTEUR
  | .defillementBas => k.idColStart ≠ LARGEUR ∧ k.buffLigne ≤ k.buffDisplayLigne + HAUTEUR

instance (a : Affichage) (k : Console) : Decidable (a.Dedans k) :=
  match a with
  | .car c => inferInstanceAs (Decidable (k.CarDedans (charVal c)))
  | .setIdStart _ => .isTrue trivial
  | .avanceCurseur => .isTrue trivial
  | .effaceLigne => inferInstanceAs (Decidable (k.idColStart ≠ LARGEUR))
  | .defillementHaut => inferInstanceAs (Decidable (_ ∨ _))
  | .defillementBas => inferInstanceAs (Decidable (_ ∧ _))

/-- One operation on a console inside the screen. -/
theorem dansEcran (hr : k.Regle) (hk : k.DansEcran) (h : a.applique k = some k') :
    k'.DansEcran ↔ a.Dedans k := by
  obtain ⟨hl, hcol, hek⟩ := hk
  obtain ⟨h0, h80⟩ := hr.marge
  have hlb := hr.buffLigne
  cases a with
  | car c =>
    obtain ⟨k₁, g, rfl⟩ := geste_of_traiteCar hcol h
    obtain ⟨he, hx⟩ := g.dansEcran hr ⟨hl, hcol, hek⟩
    exact (fin_dansEcran he).trans hx
  | setIdStart i =>
    cases h
    refine ⟨fun _ => trivial, fun _ => ?_⟩
    unfold Console.setIdStart
    split <;> exact ⟨hl, hcol, hek⟩
  | avanceCurseur =>
    cases h
    refine ⟨fun _ => trivial, fun _ => ?_⟩
    unfold Console.avanceCurseur
    unfold HAUTEUR LARGEUR at *
    split
    · exact ⟨hl, hcol, hek⟩
    · refine ⟨?_, ?_, hek⟩
      · rw [placeCurseur_ligne (by omega) (by omega)]
        unfold HAUTEUR
        omega
      · rw [placeCurseur_colonne (by omega) (by omega)]
        unfold LARGEUR
        omega
  | effaceLigne => exact (effaceLigne_some h).dansEcran hr hl hek
  | defillementHaut =>
    rcases defillementHaut_some h with ⟨hz, rfl⟩ | ⟨hpos, hd⟩
    · exact ⟨fun _ => .inl hz, fun _ => ⟨hl, hcol, hek⟩⟩
    · have hiff := (hek.append (k := k.remonte) hd.ecrits).trans cellulesAffichees_dans
      have hb : k.remonte.buffLigne < k.remonte.buffDisplayLigne + HAUTEUR ↔
          k.buffLigne + 1 < k.buffDisplayLigne + HAUTEUR := by
        show k.buffLigne < k.buffDisplayLigne - 1 + HAUTEUR ↔ _
        omega
      constructor
      · intro hx
        exact .inr (hb.mp (hiff.mp hx.ecrits))
      · intro hx
        have hx : k.buffLigne + 1 < k.buffDisplayLigne + HAUTEUR := hx.resolve_left (by omega)
        exact ⟨hd.ligne ▸ hl, hd.colonne ▸ hcol, hiff.mpr (hb.mpr hx)⟩
  | defillementBas =>
    obtain ⟨k₁, e, b, n, he, hek₁, -, hi, hbl, hn, hx⟩ := defillementBas_some h
    have he := effaceLigne_some he
    have hr₁ : k₁.Regle := hr.congr hi (.inl hbl)
    show k'.DansEcran ↔ k.idColStart ≠ LARGEUR ∧ k.buffLigne ≤ k.buffDisplayLigne + HAUTEUR
    split at hx
    · next hbas =>
      obtain ⟨hn', hl₁, rfl, -⟩ := hx
      have hbd : n = k.buffDisplayLigne + 1 := by
        unfold HAUTEUR at hbas
        rw [hn', incr16, Nat.mod_eq_of_lt (by omega)]
      have hiff := (hek.append hek₁).trans cellulesAffichees_dans
      change k₁.EcritsDedans ↔ k.buffLigne < n + HAUTEUR at hiff
      constructor
      · intro hd
        have hek₁ : k₁.EcritsDedans := fun x hx => hd.ecrits x (he.ecrits ▸ List.mem_append_left _ hx)
        have hlt := hiff.mp hek₁
        exact ⟨hi ▸ (he.dansEcran hr₁ (by rw [hl₁]; decide) hek₁).mp hd, by omega⟩
      · rintro ⟨hne, hle⟩
        exact (he.dansEcran hr₁ (by rw [hl₁]; decide) (hiff.mpr (by omega))).mpr (hi.symm ▸ hne)
    · next hbas =>
      obtain ⟨rfl, -, -⟩ := hx
      rw [he.dansEcran hr hl hek]
      exact ⟨fun hne => ⟨hne, by omega⟩, fun hx => hx.1⟩

/-- The operations that do not run past the end of `screen_buffer`: the current
line is in it when a character is stored or erased there, and so is the last
line drawn back. -/
def EnTampon (a : Affichage) (k : Console) : Prop :=
  match a with
  | .car c => k.Ecrit (charVal c) → k.buffLigne < HAUTEUR * 100
  | .setIdStart _ => True
  | .avanceCurseur => True
  | .effaceLigne => k.buffLigne < HAUTEUR * 100
  | .defillementHaut =>
    k.buffDisplayLigne = 0 ∨ k.buffLigne + 1 < k.buffDisplayLigne ∨ k.buffLigne < HAUTEUR * 100
  | .defillementBas => k.buffLigne < HAUTEUR * 100

instance (a : Affichage) (k : Console) : Decidable (a.EnTampon k) :=
  match a with
  | .car _ => inferInstanceAs (Decidable (_ → _))
  | .setIdStart _ => .isTrue trivial
  | .avanceCurseur => .isTrue trivial
  | .effaceLigne => inferInstanceAs (Decidable (_ < _))
  | .defillementHaut => inferInstanceAs (Decidable (_ ∨ _))
  | .defillementBas => inferInstanceAs (Decidable (_ < _))

/-- An operation inside the screen ends if and only if it stays in the buffer. -/
theorem applique_isSome (hr : k.Regle) (hcol : k.colonne < LARGEUR) (hd : a.Dedans k) :
    (∃ k', a.applique k = some k') ↔ a.EnTampon k := by
  obtain ⟨h0, h80⟩ := hr.marge
  have hlb := hr.buffLigne
  have hmarge : k.idColStart ≠ LARGEUR → k.idColStart.toNat < LARGEUR := by
    unfold LARGEUR at *
    omega
  cases a with
  | car c => exact ⟨fun ⟨_, hk⟩ he => traiteCar_lt hk he, traiteCar_isSome hcol⟩
  | setIdStart i => exact ⟨fun _ => trivial, fun _ => ⟨_, rfl⟩⟩
  | avanceCurseur => exact ⟨fun _ => trivial, fun _ => ⟨_, rfl⟩⟩
  | effaceLigne => exact ⟨fun ⟨_, hk⟩ => effaceLigne_lt (hmarge hd) hk, effaceLigne_isSome⟩
  | defillementHaut =>
    by_cases hz : k.buffDisplayLigne = 0
    · exact ⟨fun _ => .inl hz, fun _ => ⟨k, if_neg (by omega)⟩⟩
    have hhaut : k.defillementHaut = k.remonte.displayBuff := if_pos (by omega)
    constructor
    · rintro ⟨k', hk⟩
      by_cases hvide : k.buffLigne + 1 < k.buffDisplayLigne
      · exact .inr (.inl hvide)
      · refine .inr (.inr (displayBuff_lt (hhaut.symm.trans hk) (mem_lignesAffichees.mpr ⟨?_, le_refl _⟩)))
        show k.buffDisplayLigne - 1 ≤ k.buffLigne
        omega
    · rintro (hx | hx | hx)
      · exact absurd hx hz
      all_goals
        obtain ⟨k', hk⟩ := displayBuff_isSome (k := k.remonte) fun i hi => by
          obtain ⟨hi, hi'⟩ := mem_lignesAffichees.mp hi
          change k.buffDisplayLigne - 1 ≤ i at hi
          change i ≤ k.buffLigne at hi'
          omega
        exact ⟨k', hhaut.trans hk⟩
  | defillementBas => exact defillementBas_isSome_iff (hmarge hd.1) hlb

/-- The left margin stays inside the screen. -/
def Marge : Affichage → Prop
  | .setIdStart i => i ≠ LARGEUR
  | _ => True

/-- The operations for which the buffer is long enough: it has a current line
when they access it, and no character scrolls the screen past that line. -/
def Borne (a : Affichage) (k : Console) : Prop :=
  match a with
  | .car c => (k.Ecrit (charVal c) → k.buffLigne < HAUTEUR * 100) ∧
      (k.Tourne (charVal c) → k.buffLigne < 65535) ∧
      (k.Glisse (charVal c) → k.buffDisplayLigne < k.buffLigne)
  | .setIdStart _ => True
  | .avanceCurseur => True
  | .effaceLigne => k.buffLigne < HAUTEUR * 100
  | .defillementHaut => k.buffDisplayLigne = 0 ∨ k.buffLigne < HAUTEUR * 100
  | .defillementBas => k.buffLigne < HAUTEUR * 100

instance (a : Affichage) : Decidable a.Marge :=
  match a with
  | .car _ => .isTrue trivial
  | .setIdStart i => inferInstanceAs (Decidable (i ≠ LARGEUR))
  | .avanceCurseur => .isTrue trivial
  | .effaceLigne => .isTrue trivial
  | .defillementHaut => .isTrue trivial
  | .defillementBas => .isTrue trivial

instance (a : Affichage) (k : Console) : Decidable (a.Borne k) :=
  match a with
  | .car _ => inferInstanceAs (Decidable (_ ∧ _))
  | .setIdStart _ => .isTrue trivial
  | .avanceCurseur => .isTrue trivial
  | .effaceLigne => inferInstanceAs (Decidable (_ < _))
  | .defillementHaut => inferInstanceAs (Decidable (_ ∨ _))
  | .defillementBas => inferInstanceAs (Decidable (_ < _))

theorem curseur (hk : k.Curseur) (ha : a.Marge) (h : a.applique k = some k') : k'.Curseur := by
  obtain ⟨h0, h80⟩ := hk.marge
  cases a with
  | car c =>
    obtain ⟨k₁, g, rfl⟩ := geste_of_traiteCar hk.colonne h
    exact (g.curseur hk).fin
  | setIdStart i =>
    cases h
    unfold Console.setIdStart
    split
    · exact hk
    · next hi =>
      have hne : i ≠ LARGEUR := ha
      exact ⟨hk.ligne, hk.colonne, ⟨by show 0 ≤ i; omega, by show i < LARGEUR; omega⟩, hk.buff⟩
  | avanceCurseur =>
    cases h
    have hcol := hk.colonne
    unfold Console.avanceCurseur
    unfold LARGEUR at *
    split
    · exact hk
    · exact hk.placeCurseur (by omega) (by unfold LARGEUR; omega)
  | effaceLigne => exact (effaceLigne_some h).curseur hk.marge hk.buff
  | defillementHaut =>
    rcases defillementHaut_some h with ⟨-, rfl⟩ | ⟨-, hd⟩
    · exact hk
    · exact hd.curseur ⟨hk.ligne, hk.colonne, hk.marge, hk.buff⟩
  | defillementBas =>
    obtain ⟨k₁, e, b, n, he, -, -, hi, hb, -⟩ := defillementBas_some h
    exact (effaceLigne_some he).curseur (hi ▸ hk.marge) (hb ▸ hk.buff)

/-- One operation on a console whose accesses have been inside the buffer. -/
theorem dansTampon (hk : k.Curseur) (ht : k.DansTampon) :
    (a.Borne k → ∃ k', a.applique k = some k' ∧ k'.DansTampon) ∧
    (k.buffLigne < 65535 → ∀ k', a.applique k = some k' → k'.DansTampon → a.Borne k) := by
  obtain ⟨hac, hbd⟩ := ht
  have hcol := hk.colonne
  have hbuff := hk.buff
  cases a with
  | car c =>
    have hgeste : ∀ k₁, Geste k (charVal c) k₁ → 
        (k₁.traiteCarFin.AccesDedans ↔ (k.Ecrit (charVal c) → k.buffLigne < HAUTEUR * 100)) := by
      intro k₁ g
      rw [← g.accesDedans hcol hac]
      unfold AccesDedans
      rw [traiteCarFin_accesBuffer]
    constructor
    · rintro ⟨hacc, htourne, hglisse⟩
      obtain ⟨k', h⟩ := traiteCar_isSome hcol hacc
      refine ⟨k', h, ?_⟩
      obtain ⟨k₁, g, rfl⟩ := geste_of_traiteCar hcol h
      refine ⟨(hgeste k₁ g).mpr hacc, ?_⟩
      have hm := g.montre hk.ligne hcol
      rw [traiteCarFin_buffLigne]
      by_cases hto : k.Tourne (charVal c)
      · have hlt := htourne hto
        rw [g.buffLigne.1 hto, incr16, Nat.mod_eq_of_lt (by omega)]
        rcases hm.tourne hto with h | h <;> omega
      · rw [g.buffLigne.2 hto]
        by_cases hgl : k.Glisse (charVal c)
        · have hlt := hglisse hgl
          have h := hm.glisse hgl
          omega
        · rcases hm.reste hto hgl with h | h <;> omega
    · intro hlt k' h hd
      obtain ⟨k₁, g, rfl⟩ := geste_of_traiteCar hcol h
      refine ⟨(hgeste k₁ g).mp hd.acces, fun _ => hlt, fun hg => ?_⟩
      have hle := hd.ligne
      rw [traiteCarFin_buffLigne, (g.montre hk.ligne hcol).glisse hg, g.buffLigne.2 hg.1] at hle
      omega
  | setIdStart i =>
    refine ⟨fun _ => ⟨_, rfl, ?_⟩, fun _ _ _ _ => trivial⟩
    unfold Console.setIdStart
    split <;> exact ⟨hac, hbd⟩
  | avanceCurseur =>
    refine ⟨fun _ => ⟨_, rfl, ?_⟩, fun _ _ _ _ => trivial⟩
    unfold Console.avanceCurseur
    split <;> exact ⟨hac, hbd⟩
  | effaceLigne =>
    constructor
    · intro hl
      obtain ⟨k', h⟩ := effaceLigne_isSome (k := k) hl
      have he := effaceLigne_some h
      refine ⟨k', h, (he.accesDedans hk.marge hac).mpr hl, ?_⟩
      rw [he.buffDisplayLigne, he.buffLigne]
      exact hbd
    · intro _ k' h hd
      exact ((effaceLigne_some h).accesDedans hk.marge hac).mp hd.acces
  | defillementHaut =>
    have hac' : k.remonte.AccesDedans := hac
    obtain ⟨hsome, hiff⟩ := displayBuff_acces hac' (le_trans (Nat.sub_le _ _) hbd)
    constructor
    · rintro (hz | hl)
      · refine ⟨k, if_neg (by omega), hac, hbd⟩
      · by_cases hz : k.buffDisplayLigne = 0
        · exact ⟨k, if_neg (by omega), hac, hbd⟩
        · obtain ⟨k', h⟩ := hsome hl
          have hd := displayBuff_some h
          refine ⟨k', (if_pos (by omega)).trans h, (hiff k' hd).mpr hl, ?_⟩
          rw [hd.buffDisplayLigne, hd.buffLigne]
          exact le_trans (Nat.sub_le _ _) hbd
    · intro _ k' h hx
      rcases defillementHaut_some h with ⟨hz, -⟩ | ⟨-, hd⟩
      · exact .inl hz
      · exact .inr ((hiff k' hd).mp hx.acces)
  | defillementBas =>
    obtain ⟨hsome, hiff⟩ := defillementBas_acces hk ⟨hac, hbd⟩
    constructor
    · intro hl
      obtain ⟨k', h⟩ := hsome hl
      exact ⟨k', h, (hiff k' h).mpr hl⟩
    · exact fun _ k' h hd => (hiff k' h).mp hd

end Affichage

/-- A sequence of operations that all satisfy `C`. -/
def Affichage.enchaine (C : Console → Affichage → Prop) [∀ k a, Decidable (C k a)] :
    List Affichage → Console → Option Console
  | [], k => some k
  | a :: l, k => if C k a then (a.applique k).bind (enchaine C l) else none

theorem Affiche.enchaine {C : Console → Affichage → Prop} [∀ k a, Decidable (C k a)]
    {l : List Affichage} {k k' : Console} (h : Affiche C k)
    (hl : Affichage.enchaine C l k = some k') : Affiche C k' := by
  induction l generalizing k with
  | nil =>
    cases hl
    exact h
  | cons a l ih =>
    rw [Affichage.enchaine] at hl
    split at hl
    · next hC =>
      obtain ⟨k₁, h₁, hl⟩ := Option.bind_eq_some_iff.mp hl
      exact ih (.suite h hC h₁) hl
    · cases hl

theorem Affiche.of_any {C : Console → Affichage → Prop} [∀ k a, Decidable (C k a)]
    {l : List Affichage} {Q : Console → Bool} (h : (Affichage.enchaine C l {}).any Q = true) :
    ∃ k, Affiche C k ∧ Q k = true := by
  obtain ⟨k, hk, hq⟩ := (Option.any_eq_true _ _).mp h
  exact ⟨k, Affiche.debut.enchaine hk, hq⟩

/-- As long as the operations satisfy `Dedans` and stay in the buffer, the cursor is
inside the screen and so are all writes, and the next operation ends and keeps that if
and only if it does the same. -/
theorem console_dans_ecran {k : Console} (h : Affiche (fun k a => a.Dedans k ∧ a.EnTampon k) k) :
    k.DansEcran ∧ ∀ a : Affichage,
      ((∃ k', a.applique k = some k' ∧ k'.DansEcran) ↔ a.Dedans k ∧ a.EnTampon k) := by
  have hinv : k.Regle ∧ k.DansEcran := by
    induction h with
    | debut =>
      refine ⟨⟨by decide, by decide⟩, by decide, by decide, ?_⟩
      intro a ha
      cases ha
    | suite h hC ha ih =>
      exact ⟨Affichage.regle ih.1 ih.2.colonne ha, (Affichage.dansEcran ih.1 ih.2 ha).mpr hC.1⟩
  obtain ⟨hr, hk⟩ := hinv
  refine ⟨hk, fun a => ⟨?_, ?_⟩⟩
  · rintro ⟨k', ha, hk'⟩
    have hd := (Affichage.dansEcran hr hk ha).mp hk'
    exact ⟨hd, (Affichage.applique_isSome hr hk.colonne hd).mp ⟨k', ha⟩⟩
  · rintro ⟨hd, ht⟩
    obtain ⟨k', ha⟩ := (Affichage.applique_isSome hr hk.colonne hd).mpr ht
    exact ⟨k', ha, (Affichage.dansEcran hr hk ha).mpr hd⟩

/-- Thirty lines scroll the screen; after one scroll-back key the next `defillement_bas`
stays inside the screen and the next `defillement_haut` does not. -/
theorem console_dans_ecran_exemple : ∃ k,
    Affiche (fun k a => a.Dedans k ∧ a.EnTampon k) k ∧ k.buffLigne = 30 ∧ k.buffDisplayLigne = 6 ∧
    (∃ k', Affichage.defillementBas.applique k = some k' ∧ k'.DansEcran) ∧
    ¬ ∃ k', Affichage.defillementHaut.applique k = some k' ∧ k'.DansEcran := by
  obtain ⟨k, hk, hq⟩ := Affiche.of_any (C := fun k a => a.Dedans k ∧ a.EnTampon k)
    (l := List.replicate 30 (.car 10) ++ [.car 97, .car 9, .defillementHaut])
    (Q := fun k => decide (k.buffLigne = 30 ∧ k.buffDisplayLigne = 6 ∧
      (Affichage.defillementBas.Dedans k ∧ Affichage.defillementBas.EnTampon k) ∧
      ¬ Affichage.defillementHaut.Dedans k)) (by decide +kernel)
  obtain ⟨hb, hd, hbas, hhaut⟩ := of_decide_eq_true hq
  have h := (console_dans_ecran hk).2
  exact ⟨k, hk, hb, hd, (h .defillementBas).mpr hbas, fun hx => hhaut ((h .defillementHaut).mp hx).1⟩

/-- A process sets the left margin to 80 and a carriage return is typed. -/
theorem console_dans_ecran_faux :
    (∃ k, Affiche (fun _ _ => True) k ∧ ¬ k.DansEcran) ∧ ∃ c, Accessible c ∧ ¬ c.s.console.DansEcran := by
  constructor
  · have h₁ : Affiche (fun _ _ => True) (Console.setIdStart 80 {}) :=
      .suite (a := .setIdStart 80) .debut trivial rfl
    have h₂ : (Affichage.car 13).applique (Console.setIdStart 80 {}) =
        some ((Console.setIdStart 80 {}).placeCurseur 0 80) := rfl
    exact ⟨_, .suite h₁ trivial h₂, fun h => absurd h.colonne (by decide)⟩
  · obtain ⟨c, hc, h⟩ := Accessible.scenario (l := [.suite, appel 33 80 0 0 0, .int33 [13]])
      (Q := fun c => decide (c.s.console.colonne = 80)) (by decide +kernel)
    have hcol : c.s.console.colonne = 80 := of_decide_eq_true h
    refine ⟨c, hc, fun hd => ?_⟩
    have := hd.colonne
    rw [hcol] at this
    exact absurd this (by decide)

/-- As long as the margin stays inside the screen and the operations satisfy
`Borne`, all accesses are inside the buffer and the first line shown exists;
while the counter of its lines has not wrapped, only these operations keep that. -/
theorem console_dans_tampon {k : Console} (h : Affiche (fun k a => a.Marge ∧ a.Borne k) k) :
    k.DansTampon ∧ ∀ a : Affichage,
      (a.Borne k → ∃ k', a.applique k = some k' ∧ k'.DansTampon) ∧
      (k.buffLigne < 65535 → ∀ k', a.applique k = some k' → k'.DansTampon → a.Borne k) := by
  have hinv : k.Curseur ∧ k.DansTampon := by
    induction h with
    | debut =>
      refine ⟨⟨by decide, by decide, by decide, by decide⟩, ?_, by decide⟩
      intro a ha
      cases ha
    | @suite k k' a h hC ha ih =>
      refine ⟨Affichage.curseur ih.1 hC.1 ha, ?_⟩
      obtain ⟨k₁, h₁, hd⟩ := (Affichage.dansTampon ih.1 ih.2).1 hC.2
      rw [ha] at h₁
      cases h₁
      exact hd
  exact ⟨hinv.2, fun _ => Affichage.dansTampon hinv.1 hinv.2⟩

/-- Lines are begun one after the other without an access to the buffer. -/
theorem Affiche.lignes (n : Nat) (hn : n < 65536) :
    ∃ k, Affiche (fun _ a => a.Marge) k ∧ k.Curseur ∧ k.buffLigne = n := by
  induction n with
  | zero => exact ⟨{}, .debut, ⟨by decide, by decide, by decide, by decide⟩, rfl⟩
  | succ n ih =>
    obtain ⟨k, hk, hcur, hb⟩ := ih (by omega)
    obtain ⟨k', h⟩ := Console.traiteCar_isSome (c := 10) hcur.colonne fun he => by
      unfold Console.Ecrit Console.Special at he
      omega
    refine ⟨k', .suite (a := .car 10) hk trivial h, Affichage.curseur (a := .car 10) hcur trivial h, ?_⟩
    obtain ⟨k₁, g, rfl⟩ := Console.geste_of_traiteCar hcur.colonne h
    rw [Console.traiteCarFin_buffLigne, g.buffLigne.1 (.inl rfl), hb]
    exact Nat.mod_eq_of_lt hn

/-- After 2500 newlines a printed character is stored past the buffer. -/
theorem console_dans_tampon_faux : ∃ k, Affiche (fun _ a => a.Marge) k ∧
    (Affichage.car 97).applique k = none := by
  obtain ⟨k, hk, -, hb⟩ := Affiche.lignes 2500 (by decide)
  refine ⟨k, hk, ?_⟩
  show k.traiteCar 97 = none
  rw [Console.traiteCar_imprime (by decide) (by decide),
    Console.imprime_none (by rw [hb]; decide)]
  rfl

/-- After thirty lines and a scroll-back key a character is still stored in the buffer. -/
theorem console_dans_tampon_exemple : ∃ k k', Affiche (fun k a => a.Marge ∧ a.Borne k) k ∧
    k.buffLigne = 30 ∧ k.buffDisplayLigne = 6 ∧
    (Affichage.car 97).applique k = some k' ∧ k'.DansTampon := by
  obtain ⟨k, hk, hq⟩ := Affiche.of_any (C := fun k a => a.Marge ∧ a.Borne k)
    (l := List.replicate 30 (.car 10) ++ [.car 97, .car 9, .defillementHaut])
    (Q := fun k => decide (k.buffLigne = 30 ∧ k.buffDisplayLigne = 6 ∧ (Affichage.car 97).Borne k))
    (by decide +kernel)
  obtain ⟨hb, hd, hcar⟩ := of_decide_eq_true hq
  obtain ⟨k', h⟩ := ((console_dans_tampon hk).2 (.car 97)).1 hcar
  exact ⟨k, k', hk, hb, hd, h⟩

end GenesisOS
