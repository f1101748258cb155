import GenesisOS.Theorems.Console

/-!
# GenesisOS — screen and scroll-back buffer

The row of the cursor on the screen and the current line of `screen_buffer` are two
counters. They stay in step as long as no character wraps around the end of a row:
newlines, tabs, form feeds and the scrolling of the screen move both, the wrapping
only moves the cursor.
-/

namespace GenesisOS

namespace Console

variable {k k' k₁ : Console} {c : Int}

/-- The two rows are in step: `display_buff` would draw the current line at the row
of the cursor. -/
def Aligne (k : Console) : Prop := k.buffLigne = k.buffDisplayLigne + k.ligne

instance : Decidable (Special c) :=
  inferInstanceAs (Decidable (c = 7 ∨ c = 8 ∨ c = 9 ∨ c = 10 ∨ c = 12 ∨ c = 13 ∨ c = 27))

/-- The number of columns a character takes: a control character is shown as `^`,
followed by a letter when there is one. -/
def largeur (c : Int) : Nat :=
  if Special c ∨ 126 < c then 0
  else if -32 ≤ c ∧ c < 32 then 2
  else 1

/-- The character wraps around the end of a row. -/
def Deborde (k : Console) (c : Int) : Prop := LARGEUR ≤ k.colonne + largeur c

/-- The character leads to another row. -/
def ChangeRangee (k : Console) (c : Int) : Prop := k.Tourne c ∨ c = 12 ∨ k.Deborde c

instance : Decidable (k.Tourne c) := inferInstanceAs (Decidable (_ ∨ _ ∧ _))

instance : Decidable (k.Deborde c) := inferInstanceAs (Decidable (_ ≤ _))

instance : Decidable (k.ChangeRangee c) := inferInstanceAs (Decidable (_ ∨ _ ∨ _))

-- ---------------------------------------------------------------------------
-- The two counters
-- ---------------------------------------------------------------------------

/-- The end of `traite_car` leaves the last row, and moves both counters. -/
theorem traiteCarFin_rangee (hl : k.ligne ≤ 24) (hd : k.buffDisplayLigne < 65535) :
    k.traiteCarFin.ligne < 24 ∧
      k.traiteCarFin.buffDisplayLigne + k.traiteCarFin.ligne = k.buffDisplayLigne + k.ligne := by
  by_cases h : k.ligne = 24
  · have hf := defile_traiteCarFin h
    rw [hf.ligne, hf.buffDisplayLigne]
    omega
  · rw [traiteCarFin_of_ne h]
    omega

/-- Printing only moves the cursor. -/
theorem Imprime.rangee (h : Imprime k k') (hl : k.ligne < 24) (hc : k.colonne < LARGEUR) :
    (k.colonne + 1 = LARGEUR ∧ k'.ligne = k.ligne + 1 ∧ k'.colonne = 0) ∨
      (k.colonne + 1 < LARGEUR ∧ k'.ligne = k.ligne ∧ k'.colonne = k.colonne + 1) := by
  have hd := h.deplace (by omega) hc
  unfold HAUTEUR at hd
  split at hd <;> omega

/-- A console whose cursor is left of the margin and above the last row, with a current
line in the buffer. -/
structure EnPlace (k : Console) : Prop where
  ligne   : k.ligne < 24
  colonne : k.colonne < LARGEUR
  marge   : 0 ≤ k.idColStart ∧ k.idColStart < LARGEUR
  buff    : k.buffLigne < HAUTEUR * 100
  aligne  : k.Aligne

/-- Where a character leaves the two counters. -/
structure Rangee (k k₁ : Console) (c : Int) : Prop where
  ligne : k₁.ligne ≤ 24
  affichee : k₁.buffDisplayLigne < 65535
  aligne : ¬ k.Deborde c → k₁.Aligne
  repli : k.Deborde c → k₁.buffDisplayLigne + k₁.ligne = k₁.buffLigne + 1

theorem Rangee.of_aligne (hd : ¬ k.Deborde c) (hl : k₁.ligne ≤ 24) (hb : k₁.buffLigne < 65535)
    (h : k₁.Aligne) : Rangee k k₁ c := by
  refine ⟨hl, ?_, fun _ => h, fun hx => absurd hx hd⟩
  unfold Aligne at h
  omega

/-- A cursor that is placed in step. -/
theorem Rangee.place {lig col : Int} (hd : ¬ k.Deborde c) (h0 : 0 ≤ lig) (hl : lig ≤ 24)
    (hb : k₁.buffLigne < 65535) (h : (k₁.buffLigne : Int) = k₁.buffDisplayLigne + lig) :
    Rangee k (k₁.placeCurseur lig col) c := by
  have hlig : (k₁.placeCurseur lig col).ligne = lig.toNat := placeCurseur_ligne h0 (by omega)
  refine .of_aligne hd (by omega) hb ?_
  unfold Aligne
  rw [hlig, placeCurseur_buffLigne, placeCurseur_buffDisplayLigne]
  omega

theorem largeur_eq_zero (h : Special c ∨ 126 < c) : largeur c = 0 := if_pos h

theorem largeur_imprime (hc : 32 ≤ c) (hc' : c ≤ 126) : largeur c = 1 := by
  unfold largeur Special
  rw [if_neg (by omega), if_neg (by omega)]

theorem largeur_controle (hc : c < -32) : largeur c = 1 := by
  unfold largeur Special
  rw [if_neg (by omega), if_neg (by omega)]

theorem largeur_controleCar (hc : c < 32) (hs : ¬ Special c) (hc' : -32 ≤ c) : largeur c = 2 := by
  unfold largeur
  rw [if_neg fun h => h.elim hs (by omega), if_pos ⟨hc', hc⟩]

theorem not_deborde (hc : k.colonne < LARGEUR) (h : Special c ∨ 126 < c) : ¬ k.Deborde c := by
  unfold Deborde
  rw [largeur_eq_zero h]
  omega

theorem Geste.rangee (hk : k.EnPlace) (g : Geste k c k₁) : Rangee k k₁ c := by
  obtain ⟨hl, hc, ⟨h0, h80⟩, hb, ha⟩ := hk
  unfold Aligne at ha
  unfold HAUTEUR at hb
  have hbuff : k.buffLigne < 65535 := by omega
  have hi : incr16 k.buffLigne = k.buffLigne + 1 := Nat.mod_eq_of_lt (by omega)
  have hsans : Special c ∨ 126 < c → ¬ k.Deborde c := not_deborde hc
  unfold Special at hsans
  cases g with
  | bs | cr => exact .place (hsans (by omega)) (by omega) (by omega) hbuff (by omega)
  | ht h => exact .place (hsans (by omega)) (by omega) (by omega) hbuff (by omega)
  | htLigne h hn =>
    refine .place (hsans (by omega)) (by omega) (by omega) ?_ ?_
    · show incr16 k.buffLigne < 65535
      omega
    · show (incr16 k.buffLigne : Int) = k.buffDisplayLigne + (k.ligne + 1)
      omega
  | lf =>
    have hlig : (((k.ligne + 1) % HAUTEUR : Nat) : Int) ≤ 24 := by
      unfold HAUTEUR
      omega
    show Rangee k ({ k with buffLigne := incr16 k.buffLigne }.placeCurseur
      ((k.ligne + 1) % HAUTEUR : Nat) k.idColStart) 10
    refine .place (hsans (by omega)) (Int.natCast_nonneg _) hlig ?_ ?_
    · show incr16 k.buffLigne < 65535
      omega
    · show (incr16 k.buffLigne : Int) = k.buffDisplayLigne + ((k.ligne + 1) % HAUTEUR : Nat)
      unfold HAUTEUR
      omega
  | ff =>
    obtain ⟨k₂, e, hd, -, heq⟩ := dessine_effaceEcran k
    rw [heq]
    refine .place (hsans (by omega)) le_rfl (by omega) ?_ ?_
    · exact hd.buffLigne ▸ hbuff
    · exact (Int.add_zero _).symm
  | del hx hd =>
    refine .place (hsans (by omega)) (by omega) (by rw [hd.ligne]; omega) (hd.buffLigne ▸ hbuff) ?_
    rw [hd.buffLigne, hd.buffDisplayLigne, hd.ligne]
    omega
  | rien hx => exact .of_aligne (hsans (by omega)) (by omega) hbuff ha
  | imprime hc32 hc126 h =>
    have hlig := h.rangee hl hc
    have hb' := h.buffLigne
    have hd' := h.buffDisplayLigne
    have hdeb : k.Deborde c ↔ LARGEUR ≤ k.colonne + 1 := by
      unfold Deborde
      rw [largeur_imprime hc32 hc126]
    refine ⟨by omega, by omega, fun hx => ?_, fun hx => ?_⟩
    · rw [hdeb] at hx
      unfold Aligne
      omega
    · rw [hdeb] at hx
      omega
  | @controle c k₁ hc32 hs h hc' =>
    have hlig := h.rangee hl hc
    have hb' := h.buffLigne
    have hd' := h.buffDisplayLigne
    obtain ⟨hfl, hfs⟩ := traiteCarFin_rangee (k := k₁) (by omega) (by omega)
    have hfb := traiteCarFin_buffLigne (k := k₁)
    have hdeb : k.Deborde c ↔ LARGEUR ≤ k.colonne + 1 := by
      unfold Deborde
      rw [largeur_controle hc']
    refine ⟨by omega, by omega, fun hx => ?_, fun hx => ?_⟩
    · rw [hdeb] at hx
      unfold Aligne
      omega
    · rw [hdeb] at hx
      omega
  | @controleCar c k₁ k₂ hc32 hs h hc' h' =>
    have hlig := h.rangee hl hc
    have hb' := h.buffLigne
    have hd' := h.buffDisplayLigne
    obtain ⟨hfl, hfs⟩ := traiteCarFin_rangee (k := k₁) (by omega) (by omega)
    have hfb := traiteCarFin_buffLigne (k := k₁)
    have hb₂ := h'.buffLigne
    have hd₂ := h'.buffDisplayLigne
    -- the letter comes right after the `^`, or first in the next row
    have hcol : k₁.traiteCarFin.colonne = k₁.colonne := by
      by_cases h24 : k₁.ligne = 24
      · rw [(defile_traiteCarFin h24).colonne]
        omega
      · rw [traiteCarFin_of_ne h24]
    have hlig₂ := h'.rangee hfl (traiteCarFin_colonne_lt (h.colonne_lt hc))
    have hdeb : k.Deborde c ↔ LARGEUR ≤ k.colonne + 2 := by
      unfold Deborde
      rw [largeur_controleCar hc32 hs hc']
    have h80 : 2 ≤ LARGEUR := by decide
    refine ⟨by omega, by omega, fun hx => ?_, fun hx => ?_⟩
    · rw [hdeb] at hx
      unfold Aligne
      omega
    · rw [hdeb] at hx
      omega

-- ---------------------------------------------------------------------------
-- The rows of an output
-- ---------------------------------------------------------------------------

/-- The cells a character takes in the row `l`, unless it wraps. -/
def places (k : Console) (c : Int) (l : Nat) : List (Nat × Nat) :=
  (List.range (largeur c)).map fun j => (l, k.colonne + j)

/-- The cells of the buffer in which the character has been printed. -/
def imprimees (k : Console) (c : Int) (k' : Console) : List (Nat × Nat) :=
  if largeur c = 0 then [] else k'.accesBuffer.drop k.accesBuffer.length

/-- The cells of the screen that have been written. -/
def affichees (k k' : Console) : List (Nat × Nat) := k'.ecrits.drop k.ecrits.length

theorem mem_places {p : Nat × Nat} {l : Nat} :
    p ∈ k.places c l ↔ ∃ j < largeur c, p = (l, k.colonne + j) := by
  unfold places
  rw [List.mem_map]
  constructor
  · rintro ⟨j, hj, rfl⟩
    exact ⟨j, List.mem_range.mp hj, rfl⟩
  · rintro ⟨j, hj, rfl⟩
    exact ⟨j, List.mem_range.mpr hj, rfl⟩

theorem places_un {l : Nat} (h : largeur c = 1) : k.places c l = [(l, k.colonne)] := by
  unfold places
  rw [h]
  rfl

/-- A character that does not wrap is printed on the screen and in the buffer from the
column of the cursor on. -/
theorem Geste.imprimees (hk : k.EnPlace) (g : Geste k c k₁) (hd : ¬ k.Deborde c)
    (hc : largeur c ≠ 0) :
    k₁.traiteCarFin.accesBuffer = k.accesBuffer ++ k.places c k.buffLigne ∧
      k₁.traiteCarFin.ecrits = k.ecrits ++ k.places c k.ligne := by
  obtain ⟨hl, hcol, -, -, -⟩ := hk
  have hsans : ¬ (Special c ∨ 126 < c) := fun h => hc (largeur_eq_zero h)
  cases g with
  | bs | ht | htLigne | lf | ff | cr => exact absurd (by unfold Special; omega) hsans
  | del => exact absurd (.inr (by decide)) hsans
  | rien hx => exact absurd (by unfold Special at *; omega) hsans
  | imprime hc32 hc126 h =>
    have hun := largeur_imprime hc32 hc126
    unfold Deborde at hd
    have hlig := h.rangee hl hcol
    rw [traiteCarFin_of_ne (by omega), places_un hun, places_un hun]
    exact ⟨h.accesBuffer, h.ecrits⟩
  | @controle c k₁ hc32 hs h hc' =>
    have hun := largeur_controle hc'
    unfold Deborde at hd
    have hlig := h.rangee hl hcol
    rw [traiteCarFin_of_ne (k := k₁) (by omega), traiteCarFin_of_ne (by omega), places_un hun,
      places_un hun]
    exact ⟨h.accesBuffer, h.ecrits⟩
  | @controleCar c k₁ k₂ hc32 hs h hc' h' =>
    have hdeux := largeur_controleCar hc32 hs hc'
    unfold Deborde at hd
    have hlig := h.rangee hl hcol
    rw [traiteCarFin_of_ne (k := k₁) (by omega)] at h'
    have hlig' := h'.rangee (by omega) (by omega)
    rw [traiteCarFin_of_ne (by omega), h'.accesBuffer, h'.ecrits, h.accesBuffer, h.ecrits,
      h.buffLigne]
    unfold places
    rw [hdeux, List.append_assoc, List.append_assoc]
    have hl₁ : k₁.ligne = k.ligne := by omega
    have hc₁ : k₁.colonne = k.colonne + 1 := by omega
    rw [hl₁, hc₁]
    exact ⟨rfl, rfl⟩

end Console

-- ---------------------------------------------------------------------------
-- Outputs
-- ---------------------------------------------------------------------------

/-- What is remembered of an output: the cells of the buffer in which the earlier rows
and the current row have been printed, and the columns printed before a form feed since
the current line of the buffer began. -/
structure Suivi where
  anciennes : List (Nat × Nat) := []
  courantes : List (Nat × Nat) := []
  avant : List Nat := []

open Console

/-- The character `c` has led from `k` to `k'`. -/
def Suivi.note (t : Suivi) (k : Console) (c : Int) (k' : Console) : Suivi where
  anciennes :=
    if k.ChangeRangee c then t.anciennes ++ (t.courantes ++ imprimees k c k') else t.anciennes
  courantes := if k.ChangeRangee c then [] else t.courantes ++ imprimees k c k'
  avant :=
    if k.Tourne c then []
    else if c = 12 then t.avant ++ (t.courantes ++ imprimees k c k').map Prod.snd
    else t.avant

/-- The rows stay in step, the character is stored in the line that `display_buff` would
draw back where it has been printed, and no character of an earlier row is overwritten. -/
structure Fidele (k : Console) (t : Suivi) (c : Int) (k' : Console) : Prop where
  aligne : k'.Aligne
  montre : ∀ p ∈ imprimees k c k', ∃ r, (r, p.2) ∈ affichees k k' ∧ p.1 = k.buffDisplayLigne + r
  garde : ∀ p ∈ imprimees k c k', p ∉ t.anciennes

/-- The character does not wrap, and does not fall in a column printed before a form
feed in the same line of the buffer. -/
def SansReprise (k : Console) (t : Suivi) (c : Int) : Prop :=
  ¬ k.Deborde c ∧ ∀ j < largeur c, k.colonne + j ∉ t.avant

instance (k : Console) (t : Suivi) (c : Int) : Decidable (SansReprise k t c) :=
  inferInstanceAs (Decidable (_ ∧ _))

/-- Sequences of characters that all satisfy `C`, the left margin inside the screen and
the current line in the buffer. -/
inductive Impression (C : Console → Suivi → Int → Prop) : Console → Suivi → Prop
  | debut : Impression C {} {}
  | marge {k : Console} {t : Suivi} (h : Impression C k t) (i : Int) (hi : i ≠ LARGEUR) :
      Impression C (k.setIdStart i) t
  | car {k k' : Console} {t : Suivi} (h : Impression C k t) (c : UInt8) (hC : C k t (charVal c))
      (hk : k.traiteCar (charVal c) = some k') (hb : k'.buffLigne < HAUTEUR * 100) :
      Impression C k' (t.note k (charVal c) k')

/-- What is remembered of the current line of the buffer. -/
structure Suivi.Juste (t : Suivi) (k : Console) : Prop where
  courantes : ∀ p ∈ t.courantes, p.1 = k.buffLigne
  anciennes : ∀ p ∈ t.anciennes, p.1 < k.buffLigne ∨ p.1 = k.buffLigne ∧ p.2 ∈ t.avant
  avant : ∀ j ∈ t.avant, (k.buffLigne, j) ∈ t.anciennes

section

variable {k k' k₁ : Console} {t : Suivi} {c : Int}

theorem imprimees_eq (hk : k.EnPlace) (g : Geste k c k₁) (hd : ¬ k.Deborde c) :
    imprimees k c k₁.traiteCarFin = k.places c k.buffLigne := by
  unfold imprimees
  split
  · next h0 =>
    unfold places
    rw [h0]
    rfl
  · next hc => rw [(g.imprimees hk hd hc).1, List.drop_left]

/-- One character from consoles in step. -/
theorem fidele_iff (hk : k.EnPlace) (ht : t.Juste k) (g : Geste k c k₁) :
    Fidele k t c k₁.traiteCarFin ↔ SansReprise k t c := by
  have hr := g.rangee hk
  obtain ⟨-, hsomme⟩ := traiteCarFin_rangee hr.ligne hr.affichee
  have hfb := traiteCarFin_buffLigne (k := k₁)
  constructor
  · intro h
    have hd : ¬ k.Deborde c := by
      intro hd
      have ha : k₁.traiteCarFin.buffLigne = _ := h.aligne
      have hrep := hr.repli hd
      omega
    refine ⟨hd, fun j hj hav => ?_⟩
    refine h.garde (k.buffLigne, k.colonne + j) ?_ (ht.avant _ hav)
    rw [imprimees_eq hk g hd]
    exact mem_places.mpr ⟨j, hj, rfl⟩
  · rintro ⟨hd, hav⟩
    have ha : k₁.buffLigne = _ := hr.aligne hd
    refine ⟨?_, ?_, ?_⟩
    · unfold Aligne
      omega
    · rw [imprimees_eq hk g hd]
      intro p hp
      obtain ⟨j, hj, rfl⟩ := mem_places.mp hp
      refine ⟨k.ligne, ?_, hk.aligne⟩
      unfold affichees
      rw [(g.imprimees hk hd (by omega)).2, List.drop_left]
      exact mem_places.mpr ⟨j, hj, rfl⟩
    · rw [imprimees_eq hk g hd]
      intro p hp hanc
      obtain ⟨j, hj, rfl⟩ := mem_places.mp hp
      rcases ht.anciennes _ hanc with hlt | ⟨-, hmem⟩
      · exact Nat.lt_irrefl _ hlt
      · exact hav j hj hmem

/-- The line of the buffer after a character. -/
theorem Console.Geste.ligne_suivante (hb : k.buffLigne < HAUTEUR * 100) (g : Geste k c k₁) :
    k₁.traiteCarFin.buffLigne = if k.Tourne c then k.buffLigne + 1 else k.buffLigne := by
  rw [traiteCarFin_buffLigne]
  unfold HAUTEUR at hb
  split
  · next ht => rw [g.buffLigne.1 ht, incr16, Nat.mod_eq_of_lt (by omega)]
  · next ht => exact g.buffLigne.2 ht

theorem Console.EnPlace.suite (hk : k.EnPlace) (g : Geste k c k₁) (hd : ¬ k.Deborde c)
    (hb : k₁.traiteCarFin.buffLigne < HAUTEUR * 100) : k₁.traiteCarFin.EnPlace := by
  have hr := g.rangee hk
  obtain ⟨hlig, hsomme⟩ := traiteCarFin_rangee hr.ligne hr.affichee
  have hbuff := hk.buff
  unfold HAUTEUR at hbuff
  have hc : k.Curseur := ⟨Nat.lt_trans hk.ligne (by decide), hk.colonne, hk.marge, by omega⟩
  have hcur := (g.curseur hc).fin
  refine ⟨hlig, hcur.colonne, hcur.marge, hb, ?_⟩
  have ha : k₁.buffLigne = _ := hr.aligne hd
  unfold Aligne
  rw [hsomme, traiteCarFin_buffLigne]
  exact ha

theorem Suivi.Juste.suite (ht : t.Juste k) (hk : k.EnPlace) (g : Geste k c k₁)
    (hd : ¬ k.Deborde c) : (t.note k c k₁.traiteCarFin).Juste k₁.traiteCarFin := by
  have hb := g.ligne_suivante hk.buff
  have hcour : ∀ p ∈ t.courantes ++ imprimees k c k₁.traiteCarFin, p.1 = k.buffLigne := by
    intro p hp
    rcases List.mem_append.mp hp with hp | hp
    · exact ht.courantes p hp
    · rw [imprimees_eq hk g hd] at hp
      obtain ⟨j, -, rfl⟩ := mem_places.mp hp
      rfl
  unfold Suivi.note
  by_cases hto : k.Tourne c
  · -- all that has been printed lies in the lines before
    rw [if_pos hto] at hb
    rw [if_pos (.inl hto), if_pos (.inl hto), if_pos hto]
    refine ⟨nofun, fun p hp => ?_, nofun⟩
    rcases List.mem_append.mp hp with hp | hp
    · rcases ht.anciennes p hp with h | h
      · exact .inl (by omega)
      · exact .inl (by omega)
    · have := hcour p hp
      exact .inl (by omega)
  rw [if_neg hto] at hb
  rw [if_neg hto]
  by_cases hff : c = 12
  · -- the current line goes on, in another row
    rw [if_pos (.inr (.inl hff)), if_pos (.inr (.inl hff)), if_pos hff]
    refine ⟨nofun, fun p hp => ?_, fun j hj => ?_⟩
    · rw [hb]
      rcases List.mem_append.mp hp with hp | hp
      · exact (ht.anciennes p hp).imp_right fun h => ⟨h.1, List.mem_append_left _ h.2⟩
      · exact .inr ⟨hcour p hp, List.mem_append_right _ (List.mem_map_of_mem hp)⟩
    · rw [hb]
      rcases List.mem_append.mp hj with hj | hj
      · exact List.mem_append_left _ (ht.avant j hj)
      · obtain ⟨p, hp, rfl⟩ := List.mem_map.mp hj
        rw [← hcour p hp]
        exact List.mem_append_right _ hp
  · have hch : ¬ k.ChangeRangee c := fun h => h.elim hto fun h => h.elim hff hd
    rw [if_neg hch, if_neg hch, if_neg hff]
    refine ⟨fun p hp => hb ▸ hcour p hp, fun p hp => ?_, fun j hj => ?_⟩
    · rw [hb]
      exact ht.anciennes p hp
    · rw [hb]
      exact ht.avant j hj

/-- The invariant of the sequences. -/
theorem Impression.juste (h : Impression SansReprise k t) : k.EnPlace ∧ t.Juste k := by
  induction h with
  | debut => exact ⟨⟨by decide, by decide, by decide, by decide, rfl⟩, nofun, nofun, nofun⟩
  | @marge k t _ i hi ih =>
    obtain ⟨⟨hl, hc, hm, hb, ha⟩, ht⟩ := ih
    unfold Console.setIdStart
    split
    · exact ⟨⟨hl, hc, hm, hb, ha⟩, ht⟩
    · exact ⟨⟨hl, hc, ⟨by show 0 ≤ i; omega, by show i < LARGEUR; omega⟩, hb, ha⟩, ht.courantes,
        ht.anciennes, ht.avant⟩
  | car _ c hC hk hb ih =>
    obtain ⟨k₁, g, rfl⟩ := geste_of_traiteCar ih.1.colonne hk
    exact ⟨ih.1.suite g hC.1 hb, ih.2.suite ih.1 g hC.1⟩

end

/-- As long as no character wraps around the end of a row or falls in a column printed
before a form feed in the same line of the buffer, the rows stay in step and the
characters are stored where `display_buff` draws them back, over no earlier row; a
character that does one of these breaks this. -/
theorem defilement_aligne {k : Console} {t : Suivi} (h : Impression SansReprise k t) :
    k.Aligne ∧ ∀ (c : UInt8) (k' : Console), k.traiteCar (charVal c) = some k' →
      (Fidele k t (charVal c) k' ↔ SansReprise k t (charVal c)) := by
  obtain ⟨hk, ht⟩ := h.juste
  refine ⟨hk.aligne, fun c k' hrun => ?_⟩
  obtain ⟨k₁, g, rfl⟩ := geste_of_traiteCar hk.colonne hrun
  exact fidele_iff hk ht g

/-- A text, from a console with what is remembered of it. -/
def afficher : List UInt8 → Console → Suivi → Option (Console × Suivi)
  | [], k, t => some (k, t)
  | c :: l, k, t =>
    match k.traiteCar (charVal c) with
    | none => none
    | some k' =>
      if k'.buffLigne < HAUTEUR * 100 then afficher l k' (t.note k (charVal c) k') else none

section

variable {C : Console → Suivi → Int → Prop} [∀ k t c, Decidable (C k t c)] {l : List UInt8}
  {k k' : Console} {t t' : Suivi}

/-- Each character of the text satisfies `C` where it is printed. -/
def respecte (C : Console → Suivi → Int → Prop) [∀ k t c, Decidable (C k t c)] :
    List UInt8 → Console → Suivi → Bool
  | [], _, _ => true
  | c :: l, k, t => decide (C k t (charVal c)) &&
    match k.traiteCar (charVal c) with
    | none => true
    | some k' => respecte C l k' (t.note k (charVal c) k')

theorem Impression.afficher (h : Impression C k t) (hC : respecte C l k t = true)
    (hr : GenesisOS.afficher l k t = some (k', t')) : Impression C k' t' := by
  induction l generalizing k t with
  | nil =>
    cases hr
    exact h
  | cons c l ih =>
    rw [respecte, Bool.and_eq_true, decide_eq_true_eq] at hC
    rw [GenesisOS.afficher] at hr
    split at hr
    · cases hr
    · next k₁ hk =>
      rw [hk] at hC
      split at hr
      · next hb => exact ih (.car h c hC.1 hk hb) hC.2 hr
      · cases hr

theorem respecte_true : respecte (fun _ _ _ => True) l k t = true := by
  induction l generalizing k t with
  | nil => rfl
  | cons c l ih =>
    rw [respecte, decide_true, Bool.true_and]
    split
    · rfl
    · exact ih

end

/-- Thirty rows of two letters, on a screen of twenty-five. -/
def trenteLignes : List UInt8 := (List.replicate 30 [97, 98, 10]).flatten

/-- A letter printed after the screen has scrolled. -/
theorem defilement_aligne_exemple : ∃ k t k', afficher trenteLignes {} {} = some (k, t) ∧
    k.buffLigne = 30 ∧ k.traiteCar (charVal 97) = some k' ∧ Fidele k t (charVal 97) k' := by
  have h : (afficher trenteLignes {} {}).any fun x => decide (x.1.buffLigne = 30) &&
      (x.1.traiteCar (charVal 97)).any fun _ => decide (SansReprise x.1 x.2 (charVal 97)) := by
    decide +kernel
  obtain ⟨⟨k, t⟩, hr, h⟩ := (Option.any_eq_true _ _).mp h
  rw [Bool.and_eq_true, decide_eq_true_eq] at h
  obtain ⟨k', hk, hs⟩ := (Option.any_eq_true _ _).mp h.2
  have hi : Impression SansReprise k t := Impression.debut.afficher (by decide +kernel) hr
  exact ⟨k, t, k', hr, h.1, hk, ((defilement_aligne hi).2 97 k' hk).mpr (of_decide_eq_true hs)⟩

/-- The eightieth letter of a row wraps, and the two rows are no longer in step; after a
form feed a letter is stored over the one before. -/
theorem defilement_aligne_faux :
    (∃ k t, afficher (List.replicate 80 97) {} {} = some (k, t) ∧
      Impression (fun _ _ _ => True) k t ∧ ¬ k.Aligne) ∧
      ∃ k t k', afficher [97, 12] {} {} = some (k, t) ∧ Impression (fun _ _ _ => True) k t ∧
        k.traiteCar (charVal 98) = some k' ∧ ¬ Fidele k t (charVal 98) k' := by
  constructor
  · have h : (afficher (List.replicate 80 97) {} {}).any fun x =>
        decide (x.1.ligne = 1 ∧ x.1.buffLigne = 0 ∧ x.1.buffDisplayLigne = 0) := by decide +kernel
    obtain ⟨⟨k, t⟩, hr, h⟩ := (Option.any_eq_true _ _).mp h
    obtain ⟨hl, hb, hd⟩ : k.ligne = 1 ∧ k.buffLigne = 0 ∧ k.buffDisplayLigne = 0 :=
      of_decide_eq_true h
    refine ⟨k, t, hr, Impression.debut.afficher respecte_true hr, fun ha => ?_⟩
    unfold Aligne at ha
    omega
  · have h : (afficher [97, 12] {} {}).any fun x => (x.1.traiteCar (charVal 98)).any fun k' =>
        decide ((0, 0) ∈ imprimees x.1 (charVal 98) k' ∧ (0, 0) ∈ x.2.anciennes) := by decide +kernel
    obtain ⟨⟨k, t⟩, hr, h⟩ := (Option.any_eq_true _ _).mp h
    obtain ⟨k', hk, h⟩ := (Option.any_eq_true _ _).mp h
    obtain ⟨hi, ha⟩ := of_decide_eq_true h
    exact ⟨k, t, k', hr, Impression.debut.afficher respecte_true hr, hk, fun hf => hf.garde _ hi ha⟩

end GenesisOS
