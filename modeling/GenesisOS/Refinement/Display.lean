import GenesisOS.Model.Console
import Mathlib.Data.List.Basic

/-!
# GenesisOS — what the display functions draw

The display functions move a cursor over a screen of `HAUTEUR` rows of
`LARGEUR` columns, and over the lines of `screen_buffer`. Each one is
described by the cells it accesses (`Dessine`) and by the cursor and the
counters it leaves (`Imprime`, `Defile`, `Efface`); `Geste` lists the cases of
`traite_car`.
-/

namespace GenesisOS

namespace Console

variable {k k' : Console} {c : Int} {e b e' b' : List (Nat × Nat)}

-- ---------------------------------------------------------------------------
-- Drawing
-- ---------------------------------------------------------------------------

/-- `k'` is `k` after accesses to the cells `e` of the screen and `b` of the
buffer; cursor and counters are the same. -/
structure Dessine (k k' : Console) (e b : List (Nat × Nat)) : Prop where
  ecrits           : k'.ecrits = k.ecrits ++ e
  accesBuffer      : k'.accesBuffer = k.accesBuffer ++ b
  ligne            : k'.ligne = k.ligne
  colonne          : k'.colonne = k.colonne
  idColStart       : k'.idColStart = k.idColStart
  buffLigne        : k'.buffLigne = k.buffLigne
  buffDisplayLigne : k'.buffDisplayLigne = k.buffDisplayLigne

theorem Dessine.refl (k : Console) : Dessine k k [] [] :=
  ⟨(List.append_nil _).symm, (List.append_nil _).symm, rfl, rfl, rfl, rfl, rfl⟩

theorem Dessine.trans {k₁ : Console} (h : Dessine k k₁ e b) (h' : Dessine k₁ k' e' b') :
    Dessine k k' (e ++ e') (b ++ b') where
  ecrits := by rw [h'.ecrits, h.ecrits, List.append_assoc]
  accesBuffer := by rw [h'.accesBuffer, h.accesBuffer, List.append_assoc]
  ligne := h'.ligne.trans h.ligne
  colonne := h'.colonne.trans h.colonne
  idColStart := h'.idColStart.trans h.idColStart
  buffLigne := h'.buffLigne.trans h.buffLigne
  buffDisplayLigne := h'.buffDisplayLigne.trans h.buffDisplayLigne

theorem dessine_ecritCarValue (lig col val : Nat) :
    Dessine k (k.ecritCarValue lig col val) [(lig, col)] [] :=
  ⟨rfl, (List.append_nil _).symm, rfl, rfl, rfl, rfl, rfl⟩

theorem dessine_ecritCar (lig col : Nat) (ct cf cl c : Int) :
    Dessine k (k.ecritCar lig col ct cf cl c) [(lig, col)] [] := dessine_ecritCarValue ..

theorem dessine_poserBuffer {lig col val : Nat} (h : k.poserBuffer lig col val = some k') :
    Dessine k k' [] [(lig, col)] := by
  unfold poserBuffer at h
  split at h
  · cases h
    exact ⟨(List.append_nil _).symm, rfl, rfl, rfl, rfl, rfl, rfl⟩
  · cases h

theorem poserBuffer_isSome {lig c : Nat} (val : Nat) (hl : lig < HAUTEUR * 100)
    (hc : c < LARGEUR) : ∃ k', k.poserBuffer lig c val = some k' := by
  unfold poserBuffer
  rw [if_pos (by unfold HAUTEUR LARGEUR at *; omega)]
  exact ⟨_, rfl⟩

theorem poserBuffer_none {lig : Nat} (col val : Nat) (hl : HAUTEUR * 100 ≤ lig) :
    k.poserBuffer lig col val = none := by
  unfold poserBuffer
  rw [if_neg (by unfold HAUTEUR LARGEUR at *; omega)]

/-- A loop that draws at each turn. -/
theorem dessine_foldl {f : Console → Nat → Console} {g : Nat → List (Nat × Nat)}
    (hf : ∀ k j, Dessine k (f k j) (g j) []) (l : List Nat) (k : Console) :
    Dessine k (l.foldl f k) (l.flatMap g) [] := by
  induction l generalizing k with
  | nil => exact .refl k
  | cons j l ih => exact (hf k j).trans (ih (f k j))

/-- A loop whose turns do not move the cursor and change no counter. -/
theorem dessine_foldlM {f : Console → Nat → Option Console} {g h : Nat → List (Nat × Nat)}
    (k : Console) (hf : ∀ {k₁ k₂ e b j}, Dessine k k₁ e b → f k₁ j = some k₂ →
      Dessine k₁ k₂ (g j) (h j)) {l : List Nat} (hk : l.foldlM f k = some k') :
    Dessine k k' (l.flatMap g) (l.flatMap h) := by
  suffices ∀ k₁ e b, Dessine k k₁ e b → l.foldlM f k₁ = some k' →
      Dessine k₁ k' (l.flatMap g) (l.flatMap h) from this k [] [] (.refl k) hk
  clear hk
  induction l with
  | nil =>
    intro k₁ e b _ hk
    obtain rfl : k₁ = k' := Option.some.inj hk
    exact .refl k₁
  | cons j l ih =>
    intro k₁ e b h₁ hk
    rw [List.foldlM_cons] at hk
    obtain ⟨k₂, h₂, hk⟩ := Option.bind_eq_some_iff.mp hk
    have h₂ := hf h₁ h₂
    exact h₂.trans (ih k₂ _ _ (h₁.trans h₂) hk)

theorem foldlM_isSome {f : Console → Nat → Option Console} {g h : Nat → List (Nat × Nat)}
    (k : Console) (hf : ∀ {k₁ k₂ e b j}, Dessine k k₁ e b → f k₁ j = some k₂ →
      Dessine k₁ k₂ (g j) (h j)) {l : List Nat}
    (hsome : ∀ {k₁ e b}, Dessine k k₁ e b → ∀ j ∈ l, ∃ k₂, f k₁ j = some k₂) :
    ∃ k', l.foldlM f k = some k' := by
  suffices ∀ k₁ e b, Dessine k k₁ e b → ∃ k', l.foldlM f k₁ = some k' from this k [] [] (.refl k)
  induction l with
  | nil => exact fun k₁ _ _ _ => ⟨k₁, rfl⟩
  | cons j l ih =>
    intro k₁ e b h₁
    obtain ⟨k₂, h₂⟩ := hsome h₁ j List.mem_cons_self
    obtain ⟨k', hk'⟩ := ih (fun h j hj => hsome h j (List.mem_cons_of_mem _ hj)) k₂ _ _
      (h₁.trans (hf h₁ h₂))
    exact ⟨k', by rw [List.foldlM_cons]; exact Option.bind_eq_some_iff.mpr ⟨k₂, h₂, hk'⟩⟩

/-- Every turn of a loop that ends has been made. -/
theorem foldlM_tour {f : Console → Nat → Option Console} {g h : Nat → List (Nat × Nat)}
    (k : Console) (hf : ∀ {k₁ k₂ e b j}, Dessine k k₁ e b → f k₁ j = some k₂ →
      Dessine k₁ k₂ (g j) (h j)) {l : List Nat} (hk : l.foldlM f k = some k') {j : Nat}
    (hj : j ∈ l) : ∃ k₁ k₂ e b, Dessine k k₁ e b ∧ f k₁ j = some k₂ := by
  suffices ∀ k₁ e b, Dessine k k₁ e b → l.foldlM f k₁ = some k' →
      ∃ k₂ k₃ e b, Dessine k k₂ e b ∧ f k₂ j = some k₃ from this k [] [] (.refl k) hk
  clear hk
  induction l with
  | nil => cases hj
  | cons i l ih =>
    intro k₁ e b h₁ hk
    rw [List.foldlM_cons] at hk
    obtain ⟨k₂, h₂, hk⟩ := Option.bind_eq_some_iff.mp hk
    rcases List.mem_cons.mp hj with rfl | hj
    · exact ⟨k₁, k₂, e, b, h₁, h₂⟩
    · exact ih hj k₂ _ _ (h₁.trans (hf h₁ h₂)) hk

-- ---------------------------------------------------------------------------
-- The pieces of `traite_car`
-- ---------------------------------------------------------------------------

theorem placeCurseur_ligne {lig col : Int} (h0 : 0 ≤ lig) (h : lig < 65536) :
    (k.placeCurseur lig col).ligne = lig.toNat := by
  show (lig % 65536).toNat = _
  rw [Int.emod_eq_of_lt h0 h]

theorem placeCurseur_colonne {lig col : Int} (h0 : 0 ≤ col) (h : col < 65536) :
    (k.placeCurseur lig col).colonne = col.toNat := by
  show (col % 65536).toNat = _
  rw [Int.emod_eq_of_lt h0 h]

@[simp] theorem placeCurseur_idColStart (lig col : Int) :
    (k.placeCurseur lig col).idColStart = k.idColStart := rfl

@[simp] theorem placeCurseur_buffLigne (lig col : Int) :
    (k.placeCurseur lig col).buffLigne = k.buffLigne := rfl

@[simp] theorem placeCurseur_buffDisplayLigne (lig col : Int) :
    (k.placeCurseur lig col).buffDisplayLigne = k.buffDisplayLigne := rfl

@[simp] theorem placeCurseur_ecrits (lig col : Int) :
    (k.placeCurseur lig col).ecrits = k.ecrits := rfl

@[simp] theorem placeCurseur_accesBuffer (lig col : Int) :
    (k.placeCurseur lig col).accesBuffer = k.accesBuffer := rfl

/-- The accesses and the cursor after the printing of a character. -/
structure Imprime (k k' : Console) : Prop where
  ecrits           : k'.ecrits = k.ecrits ++ [(k.ligne, k.colonne)]
  accesBuffer      : k'.accesBuffer = k.accesBuffer ++ [(k.buffLigne, k.colonne)]
  curseur          : if (k.colonne + 1) % LARGEUR = 0 then
      k'.ligne = (k.ligne + 1) % HAUTEUR ∧ k'.colonne = 0
    else k'.ligne = k.ligne % 65536 ∧ k'.colonne = (k.colonne + 1) % 65536
  idColStart       : k'.idColStart = k.idColStart
  buffLigne        : k'.buffLigne = k.buffLigne
  buffDisplayLigne : k'.buffDisplayLigne = k.buffDisplayLigne

theorem imprime_some (h : k.imprime c = some k') : Imprime k k' := by
  unfold imprime at h
  obtain ⟨k₁, h₁, h⟩ := Option.bind_eq_some_iff.mp h
  have hd := (dessine_ecritCar k.ligne k.colonne k.baseColor NOIR 0 c).trans (dessine_poserBuffer h₁)
  split at h
  · next hcol =>
    cases h
    refine ⟨hd.ecrits, hd.accesBuffer, ?_, hd.idColStart, hd.buffLigne, hd.buffDisplayLigne⟩
    rw [hd.colonne] at hcol
    rw [if_pos hcol]
    show (((k₁.ligne + 1) % HAUTEUR : Nat) % 65536 : Int).toNat = _ ∧ _
    rw [hd.ligne]
    unfold HAUTEUR
    exact ⟨by omega, rfl⟩
  · next hcol =>
    cases h
    refine ⟨hd.ecrits, hd.accesBuffer, ?_, hd.idColStart, hd.buffLigne, hd.buffDisplayLigne⟩
    rw [hd.colonne] at hcol
    rw [if_neg hcol]
    show ((k₁.ligne : Int) % 65536).toNat = _ ∧ (((k₁.colonne : Int) + 1) % 65536).toNat = _
    rw [hd.ligne, hd.colonne]
    omega

theorem imprime_isSome (hl : k.buffLigne < HAUTEUR * 100) (hc : k.colonne < LARGEUR) :
    ∃ k', k.imprime c = some k' := by
  unfold imprime
  obtain ⟨k₁, h₁⟩ := poserBuffer_isSome (k := k.ecritCar k.ligne k.colonne k.baseColor NOIR 0 c)
    (carValue k.baseColor NOIR 0 c) hl hc
  rw [h₁]
  simp only [Option.bind_eq_bind, Option.bind_some]
  split
  · exact ⟨_, rfl⟩
  · exact ⟨_, rfl⟩

theorem Imprime.deplace (h : Imprime k k') (hl : k.ligne < 65536) (hc : k.colonne < LARGEUR) :
    if k.colonne + 1 = LARGEUR then k'.ligne = (k.ligne + 1) % HAUTEUR ∧ k'.colonne = 0
    else k'.ligne = k.ligne ∧ k'.colonne = k.colonne + 1 := by
  have hcur := h.curseur
  unfold HAUTEUR LARGEUR at *
  split at hcur <;> split <;> omega

theorem Imprime.colonne_lt (h : Imprime k k') (hc : k.colonne < LARGEUR) : k'.colonne < LARGEUR := by
  have hcur := h.curseur
  unfold LARGEUR at *
  split at hcur <;> omega

theorem imprime_none (h : HAUTEUR * 100 ≤ k.buffLigne) : k.imprime c = none := by
  unfold imprime
  rw [poserBuffer_none (k := k.ecritCar k.ligne k.colonne k.baseColor NOIR 0 c) k.colonne _ h]
  rfl

/-- The cells the scrolling of the screen writes. -/
def cellulesDefilees : List (Nat × Nat) :=
  ((List.range ((HAUTEUR - 1) * LARGEUR)).map fun a => (a / LARGEUR, a % LARGEUR)) ++
    (List.range LARGEUR).map fun j => (HAUTEUR - 1, j)

theorem cellulesDefilees_dans {a : Nat × Nat} (h : a ∈ cellulesDefilees) :
    a.1 < HAUTEUR ∧ a.2 < LARGEUR := by
  unfold cellulesDefilees HAUTEUR LARGEUR at *
  rcases List.mem_append.mp h with h | h
  · obtain ⟨x, hx, rfl⟩ := List.mem_map.mp h
    have hx := List.mem_range.mp hx
    exact ⟨by simp only; omega, by simp only; omega⟩
  · obtain ⟨x, hx, rfl⟩ := List.mem_map.mp h
    have hx := List.mem_range.mp hx
    exact ⟨by simp only; omega, hx⟩

/-- The end of `traite_car` on the last row. -/
structure Defile (k k' : Console) : Prop where
  ecrits           : k'.ecrits = k.ecrits ++ cellulesDefilees
  accesBuffer      : k'.accesBuffer = k.accesBuffer
  ligne            : k'.ligne = 23
  colonne          : k'.colonne = 0
  idColStart       : k'.idColStart = k.idColStart
  buffLigne        : k'.buffLigne = k.buffLigne
  buffDisplayLigne : k'.buffDisplayLigne = (k.buffDisplayLigne + 1) % 65536

theorem defile_traiteCarFin (h : k.ligne = 24) : Defile k k.traiteCarFin := by
  have hfin : k.traiteCarFin = { k.defilement with
      buffDisplayLigne := incr16 k.defilement.buffDisplayLigne
      ligne := k.defilement.ligne - 1 } := if_pos h
  have hd : ∃ k₁, k.defilement = k₁.placeCurseur (HAUTEUR - 1 : Nat) 0 ∧
      Dessine k k₁ cellulesDefilees [] := by
    refine ⟨_, rfl, ?_⟩
    rw [cellulesDefilees, List.map_eq_flatMap (l := List.range LARGEUR)]
    refine Dessine.trans (b := []) ?_ (dessine_foldl (fun k j =>
      dessine_ecritCar (HAUTEUR - 1) j NOIR NOIR 0 32) (List.range LARGEUR) _)
    exact ⟨rfl, (List.append_nil _).symm, rfl, rfl, rfl, rfl, rfl⟩
  obtain ⟨k₁, hk₁, hd⟩ := hd
  rw [hfin, hk₁]
  refine ⟨hd.ecrits, hd.accesBuffer.trans (List.append_nil _), rfl, rfl, hd.idColStart,
    hd.buffLigne, ?_⟩
  show incr16 k₁.buffDisplayLigne = _
  rw [hd.buffDisplayLigne]
  rfl

theorem traiteCarFin_of_ne (h : k.ligne ≠ 24) : k.traiteCarFin = k := if_neg h

-- ---------------------------------------------------------------------------
-- Lines
-- ---------------------------------------------------------------------------

/-- The columns `efface_ligne` goes through. -/
def colonnesEffacees (k : Console) : List Nat :=
  List.range' k.idColStart.toNat (LARGEUR - k.idColStart.toNat)

theorem mem_colonnesEffacees {j : Nat} :
    j ∈ k.colonnesEffacees ↔ k.idColStart.toNat ≤ j ∧ j < LARGEUR := by
  unfold colonnesEffacees
  rw [List.mem_range'_1]
  omega

/-- The accesses and the cursor after the erasure of a line. -/
structure Efface (k k' : Console) : Prop where
  ecrits           : k'.ecrits = k.ecrits ++ k.colonnesEffacees.map fun j => (k.ligne, j)
  accesBuffer      : k'.accesBuffer = k.accesBuffer ++ k.colonnesEffacees.map fun j => (k.buffLigne, j)
  ligne            : k'.ligne = k.ligne % 65536
  colonne          : k'.colonne = (k.idColStart % 65536).toNat
  idColStart       : k'.idColStart = k.idColStart
  buffLigne        : k'.buffLigne = k.buffLigne
  buffDisplayLigne : k'.buffDisplayLigne = k.buffDisplayLigne

theorem dessine_effaceCase {k₁ k₂ : Console} {j : Nat} (h : Dessine k k₁ e b)
    (h' : (k₁.ecritCar k₁.ligne j NOIR NOIR 0 32).poserBuffer k₁.buffLigne j vide = some k₂) :
    Dessine k₁ k₂ [(k.ligne, j)] [(k.buffLigne, j)] := by
  have hd := (dessine_ecritCar k₁.ligne j NOIR NOIR 0 32).trans (dessine_poserBuffer h')
  rwa [h.ligne, h.buffLigne] at hd

theorem effaceLigne_some (h : k.effaceLigne = some k') : Efface k k' := by
  unfold effaceLigne at h
  obtain ⟨k₁, h₁, h⟩ := Option.bind_eq_some_iff.mp h
  have hd := dessine_foldlM (g := fun j => [(k.ligne, j)]) (h := fun j => [(k.buffLigne, j)]) k
    dessine_effaceCase h₁
  rw [← List.map_eq_flatMap, ← List.map_eq_flatMap] at hd
  cases h
  refine ⟨hd.ecrits, hd.accesBuffer, ?_, ?_, hd.idColStart, hd.buffLigne, hd.buffDisplayLigne⟩
  · show ((k₁.ligne : Int) % 65536).toNat = _
    rw [hd.ligne]
    omega
  · show (k₁.idColStart % 65536).toNat = _
    rw [hd.idColStart]

theorem effaceLigne_isSome (hl : k.buffLigne < HAUTEUR * 100) : ∃ k', k.effaceLigne = some k' := by
  obtain ⟨k₁, h₁⟩ := foldlM_isSome (g := fun j => [(k.ligne, j)]) (h := fun j => [(k.buffLigne, j)])
    (l := k.colonnesEffacees) k dessine_effaceCase fun {k₁ _ _} h j hj =>
      poserBuffer_isSome (k := k₁.ecritCar k₁.ligne j NOIR NOIR 0 32) vide (h.buffLigne ▸ hl)
        (mem_colonnesEffacees.mp hj).2
  exact ⟨_, Option.bind_eq_some_iff.mpr ⟨k₁, h₁, rfl⟩⟩

theorem effaceLigne_lt (hm : k.idColStart.toNat < LARGEUR) (h : k.effaceLigne = some k') :
    k.buffLigne < HAUTEUR * 100 := by
  by_contra hl
  obtain ⟨k₁, h₁, -⟩ := Option.bind_eq_some_iff.mp h
  obtain ⟨k₂, k₃, e, b, hd, h₂⟩ := foldlM_tour (g := fun j => [(k.ligne, j)])
    (h := fun j => [(k.buffLigne, j)]) k dessine_effaceCase h₁
    (mem_colonnesEffacees.mpr ⟨le_refl _, hm⟩)
  rw [poserBuffer_none _ _ (hd.buffLigne ▸ Nat.le_of_not_lt hl)] at h₂
  cases h₂

/-- The lines `display_buff` draws. -/
def lignesAffichees (k : Console) : List Nat :=
  List.range' k.buffDisplayLigne (k.buffLigne + 1 - k.buffDisplayLigne)

theorem mem_lignesAffichees {i : Nat} :
    i ∈ k.lignesAffichees ↔ k.buffDisplayLigne ≤ i ∧ i ≤ k.buffLigne := by
  unfold lignesAffichees
  rw [List.mem_range'_1]
  omega

/-- One turn of the inner loop of `display_buff`. -/
def afficheCase (i : Nat) (k : Console) (j : Nat) : Option Console := do
  let (v, k) ← k.lireBuffer i j
  pure (k.ecritCarValue (i - k.buffDisplayLigne) j v)

theorem dessine_afficheCase {i j : Nat} {k₁ k₂ : Console} (h : Dessine k k₁ e b)
    (h' : afficheCase i k₁ j = some k₂) :
    Dessine k₁ k₂ [(i - k.buffDisplayLigne, j)] [(i, j)] := by
  obtain ⟨⟨v, k₃⟩, h₁, h₂⟩ := Option.bind_eq_some_iff.mp h'
  cases h₂
  unfold lireBuffer at h₁
  split at h₁
  · cases h₁
    rw [← h.buffDisplayLigne]
    exact ⟨rfl, rfl, rfl, rfl, rfl, rfl, rfl⟩
  · cases h₁

theorem afficheCase_isSome {i j : Nat} (hi : i < HAUTEUR * 100) (hj : j < LARGEUR) :
    ∃ k', afficheCase i k j = some k' := by
  unfold afficheCase lireBuffer
  rw [if_pos (by unfold HAUTEUR LARGEUR at *; omega)]
  exact ⟨_, rfl⟩

/-- The cells of the screen and of the buffer that `display_buff` goes through. -/
def cellulesAffichees (k : Console) : List (Nat × Nat) :=
  k.lignesAffichees.flatMap fun i => (List.range LARGEUR).map fun j => (i - k.buffDisplayLigne, j)

def cellulesLues (k : Console) : List (Nat × Nat) :=
  k.lignesAffichees.flatMap fun i => (List.range LARGEUR).map fun j => (i, j)

/-- One turn of the outer loop of `display_buff`. -/
def afficheLigne (k : Console) (i : Nat) : Option Console :=
  (List.range LARGEUR).foldlM (afficheCase i) k

theorem dessine_afficheLigne {i : Nat} {k₁ k₂ : Console} (h : Dessine k k₁ e b)
    (h' : afficheLigne k₁ i = some k₂) :
    Dessine k₁ k₂ ((List.range LARGEUR).map fun j => (i - k.buffDisplayLigne, j))
      ((List.range LARGEUR).map fun j => (i, j)) := by
  rw [List.map_eq_flatMap, List.map_eq_flatMap]
  refine dessine_foldlM (g := fun j => [(i - k.buffDisplayLigne, j)]) (h := fun j => [(i, j)]) k₁
    (fun h₁ h₂ => ?_) h'
  rw [← h.buffDisplayLigne]
  exact dessine_afficheCase h₁ h₂

theorem displayBuff_eq (k : Console) : k.displayBuff = k.lignesAffichees.foldlM afficheLigne k := by
  unfold displayBuff lignesAffichees afficheLigne afficheCase
  rfl

theorem displayBuff_some (h : k.displayBuff = some k') :
    Dessine k k' k.cellulesAffichees k.cellulesLues := by
  rw [displayBuff_eq] at h
  exact dessine_foldlM (g := fun i => (List.range LARGEUR).map fun j => (i - k.buffDisplayLigne, j))
    (h := fun i => (List.range LARGEUR).map fun j => (i, j)) k dessine_afficheLigne h

theorem displayBuff_isSome (h : ∀ i ∈ k.lignesAffichees, i < HAUTEUR * 100) :
    ∃ k', k.displayBuff = some k' := by
  rw [displayBuff_eq]
  refine foldlM_isSome (g := fun i => (List.range LARGEUR).map fun j => (i - k.buffDisplayLigne, j))
    (h := fun i => (List.range LARGEUR).map fun j => (i, j)) k dessine_afficheLigne
    fun {k₁ _ _} _ i hi => ?_
  refine foldlM_isSome (g := fun j => [(i - k₁.buffDisplayLigne, j)]) (h := fun j => [(i, j)]) k₁
    dessine_afficheCase fun _ j hj => ?_
  exact afficheCase_isSome (h i hi) (List.mem_range.mp hj)

theorem displayBuff_lt (h : k.displayBuff = some k') {i : Nat} (hi : i ∈ k.lignesAffichees) :
    i < HAUTEUR * 100 := by
  rw [displayBuff_eq] at h
  obtain ⟨k₁, k₂, e, b, -, h₁⟩ := foldlM_tour
    (g := fun i => (List.range LARGEUR).map fun j => (i - k.buffDisplayLigne, j))
    (h := fun i => (List.range LARGEUR).map fun j => (i, j)) k dessine_afficheLigne h hi
  obtain ⟨k₃, k₄, e, b, -, h₂⟩ := foldlM_tour (g := fun j => [(i - k₁.buffDisplayLigne, j)])
    (h := fun j => [(i, j)]) k₁ dessine_afficheCase h₁ (List.mem_range.mpr (show 0 < LARGEUR by decide))
  obtain ⟨_, h₃, -⟩ := Option.bind_eq_some_iff.mp h₂
  unfold lireBuffer at h₃
  split at h₃
  · next hlt =>
    unfold LARGEUR at hlt
    omega
  · cases h₃

/-- The console one line up. -/
def remonte (k : Console) : Console := { k with buffDisplayLigne := k.buffDisplayLigne - 1 }

theorem defillementHaut_some (h : k.defillementHaut = some k') :
    (k.buffDisplayLigne = 0 ∧ k' = k) ∨ (0 < k.buffDisplayLigne ∧
      Dessine k.remonte k' k.remonte.cellulesAffichees k.remonte.cellulesLues) := by
  unfold defillementHaut at h
  split at h
  · next hx => exact .inr ⟨hx, displayBuff_some h⟩
  · next hx => exact .inl ⟨by omega, (Option.some.inj h).symm⟩

/-- The two cases of `defillement_bas`, up to its `efface_ligne`. -/
theorem defillementBas_some (h : k.defillementBas = some k') :
    ∃ k₁ e b n, k₁.effaceLigne = some k' ∧ k₁.ecrits = k.ecrits ++ e ∧
      k₁.accesBuffer = k.accesBuffer ++ b ∧ k₁.idColStart = k.idColStart ∧
      k₁.buffLigne = k.buffLigne ∧ k₁.buffDisplayLigne = n ∧
      if k.buffDisplayLigne + HAUTEUR ≤ k.buffLigne + 1 then
        n = incr16 k.buffDisplayLigne ∧ k₁.ligne = 24 ∧
        e = ({ k with buffDisplayLigne := n } : Console).cellulesAffichees ∧
        b = ({ k with buffDisplayLigne := n } : Console).cellulesLues
      else k₁ = k ∧ e = [] ∧ b = [] := by
  unfold defillementBas at h
  split at h
  · next hx =>
    obtain ⟨k₂, h₂, h⟩ := Option.bind_eq_some_iff.mp h
    have hd := displayBuff_some h₂
    refine ⟨k₂.placeCurseur (HAUTEUR - 1 : Nat) k.idColStart, _, _, _, ?_, hd.ecrits, hd.accesBuffer,
      hd.idColStart, hd.buffLigne, hd.buffDisplayLigne, ?_⟩
    · rw [← hd.idColStart]
      exact h
    · rw [if_pos hx]
      exact ⟨rfl, rfl, rfl, rfl⟩
  · next hx =>
    refine ⟨k, [], [], _, h, (List.append_nil _).symm, (List.append_nil _).symm, rfl, rfl, rfl, ?_⟩
    rw [if_neg hx]
    exact ⟨rfl, rfl, rfl⟩

-- ---------------------------------------------------------------------------
-- `traite_car`
-- ---------------------------------------------------------------------------

/-- `efface_ecran` writes every cell and shows the last line. -/
theorem dessine_effaceEcran (k : Console) : ∃ k₁ e, Dessine k k₁ e [] ∧
    (∀ a ∈ e, a.1 < HAUTEUR ∧ a.2 < LARGEUR) ∧
    k.effaceEcran = { k₁ with buffDisplayLigne := k₁.buffLigne } := by
  refine ⟨_, _, dessine_foldl (g := fun i => (List.range LARGEUR).flatMap fun j => [(i, j)])
    (fun k i => dessine_foldl (fun k j => dessine_ecritCar (k := k) i j NOIR NOIR 0 32) _ k)
    (List.range HAUTEUR) k, ?_, rfl⟩
  intro a ha
  obtain ⟨i, hi, ha⟩ := List.mem_flatMap.mp ha
  obtain ⟨j, hj, ha⟩ := List.mem_flatMap.mp ha
  rw [List.mem_singleton.mp ha]
  exact ⟨List.mem_range.mp hi, List.mem_range.mp hj⟩

/-- The control characters that `traite_car` handles apart. -/
def Special (c : Int) : Prop := c = 7 ∨ c = 8 ∨ c = 9 ∨ c = 10 ∨ c = 12 ∨ c = 13 ∨ c = 27

/-- The cases of `traite_car` up to its end. -/
inductive Geste (k : Console) : Int → Console → Prop
  | bs : Geste k 8 (k.placeCurseur k.ligne
      (if (k.colonne : Int) > k.idColStart then k.colonne - 1 else k.idColStart))
  | ht (h : k.colonne < 8) : Geste k 9 (k.placeCurseur k.ligne 8)
  | htLigne {n : Nat} (h : 8 ≤ k.colonne) (hn : n ≤ k.colonne) :
      Geste k 9 ({ k with buffLigne := incr16 k.buffLigne }.placeCurseur (k.ligne + 1) n)
  | lf : Geste k 10 { k.placeCurseur ((k.ligne + 1) % HAUTEUR : Nat) k.idColStart with
      buffLigne := incr16 k.buffLigne }
  | ff : Geste k 12 (k.effaceEcran.placeCurseur 0 0)
  | cr : Geste k 13 (k.placeCurseur k.ligne k.idColStart)
  | del {k₁ : Console} (h : (k.colonne : Int) > k.idColStart)
      (hd : Dessine k k₁ [(k.ligne, k.colonne - 1)] [(k.buffLigne, k.colonne - 1)]) :
      Geste k 127 (k₁.placeCurseur k₁.ligne (k₁.colonne - 1))
  | rien {c : Int} (hc : c = 7 ∨ c = 27 ∨ (c = 127 ∧ (k.colonne : Int) ≤ k.idColStart) ∨ 127 < c) :
      Geste k c k
  | controle {c : Int} {k₁ : Console} (hc : c < 32) (hs : ¬ Special c) (h : Imprime k k₁)
      (hc' : c < -32) : Geste k c k₁.traiteCarFin
  | controleCar {c : Int} {k₁ k₂ : Console} (hc : c < 32) (hs : ¬ Special c) (h : Imprime k k₁)
      (hc' : -32 ≤ c) (h' : Imprime k₁.traiteCarFin k₂) : Geste k c k₂
  | imprime {c : Int} {k₁ : Console} (hc : 32 ≤ c) (hc' : c ≤ 126) (h : Imprime k k₁) : Geste k c k₁

/-- The column a tab reaches: 8 from the first ones, and otherwise a column
that is not to the right, so that a new row begins. -/
theorem tabulation {n m : Nat} {c : Int} (hm : m = if n % 8 = 0 then n + 1 else n)
    (hc : c = (m : Int) + (8 - (m : Int)).tmod 8) :
    (n < 8 → c = 8 ∧ m ≤ 8) ∧ (8 ≤ n → 0 ≤ c ∧ c ≤ n ∧ c < m) := by
  constructor
  · intro h8
    have ht : (8 - (m : Int)).tmod 8 = 8 - (m : Int) :=
      Int.tmod_eq_of_lt (by split at hm <;> omega) (by split at hm <;> omega)
    exact ⟨by rw [hc, ht]; omega, by split at hm <;> omega⟩
  · intro h8
    have ht : (8 - (m : Int)).tmod 8 = - (((m : Int) - 8) % 8) := by
      rw [show 8 - (m : Int) = - ((m : Int) - 8) by omega, Int.neg_tmod,
        Int.tmod_eq_emod_of_nonneg (by split at hm <;> omega)]
    have hc' : c = (m : Int) - ((m : Int) - 8) % 8 := by
      rw [hc, ht]
      omega
    split at hm <;> omega

theorem geste_of_traiteCar (hcol : k.colonne < LARGEUR) (h : k.traiteCar c = some k') :
    ∃ k₁, Geste k c k₁ ∧ k' = k₁.traiteCarFin := by
  unfold LARGEUR at hcol
  unfold traiteCar at h
  extract_lets fin k₁ col k₂ at h
  by_cases hc8 : c = 8
  · rw [if_pos hc8] at h
    subst hc8
    have g := Geste.bs (k := k)
    split at h
    · next hx =>
      rw [if_pos hx] at g
      cases h
      exact ⟨_, g, rfl⟩
    · next hx =>
      rw [if_neg hx] at g
      cases h
      exact ⟨_, g, rfl⟩
  rw [if_neg hc8] at h
  by_cases hc9 : c = 9
  · rw [if_pos hc9] at h
    subst hc9
    have hk₁ : k₁ = { k with colonne := if k.colonne % 8 = 0 then k.colonne + 1 else k.colonne } := by
      unfold k₁
      split
      · rw [incr16, Nat.mod_eq_of_lt (by omega)]
      · rfl
    have hcol₁ : k₁.colonne = if k.colonne % 8 = 0 then k.colonne + 1 else k.colonne := by
      rw [hk₁]
    obtain ⟨hpos, hneg⟩ := tabulation (c := col) hcol₁ rfl
    split at h
    · next hx =>
      obtain rfl := Option.some.inj h
      have h8 : 8 ≤ k.colonne := by
        by_contra h8
        have := hpos (by omega)
        omega
      obtain ⟨h0, hle, -⟩ := hneg h8
      refine ⟨_, .htLigne (n := col.toNat) h8 (by omega), ?_⟩
      rw [Int.toNat_of_nonneg h0, hk₁]
      rfl
    · next hx =>
      obtain rfl := Option.some.inj h
      have h8 : k.colonne < 8 := by
        by_contra h8
        have := hneg (by omega)
        omega
      refine ⟨_, .ht h8, ?_⟩
      rw [(hpos h8).1, hk₁]
      rfl
  rw [if_neg hc9] at h
  by_cases hc10 : c = 10
  · rw [if_pos hc10] at h
    subst hc10
    cases h
    exact ⟨_, .lf, rfl⟩
  rw [if_neg hc10] at h
  by_cases hc12 : c = 12
  · rw [if_pos hc12] at h
    subst hc12
    cases h
    exact ⟨_, .ff, rfl⟩
  rw [if_neg hc12] at h
  by_cases hc13 : c = 13
  · rw [if_pos hc13] at h
    subst hc13
    cases h
    exact ⟨_, .cr, rfl⟩
  rw [if_neg hc13] at h
  by_cases hc27 : c = 27
  · rw [if_pos hc27] at h
    cases h
    exact ⟨_, .rien (by omega), rfl⟩
  rw [if_neg hc27] at h
  by_cases hc127 : c = 127
  · rw [if_pos hc127] at h
    subst hc127
    split at h
    · next hx =>
      obtain ⟨k₂, h₂, h⟩ := Option.bind_eq_some_iff.mp h
      cases h
      exact ⟨_, .del hx ((dessine_ecritCar k.ligne (k.colonne - 1) NOIR NOIR 0 32).trans
        (dessine_poserBuffer h₂)), rfl⟩
    · next hx =>
      cases h
      exact ⟨_, .rien (by omega), rfl⟩
  rw [if_neg hc127] at h
  by_cases hc7 : c = 7
  · rw [if_pos hc7] at h
    cases h
    exact ⟨_, .rien (by omega), rfl⟩
  rw [if_neg hc7] at h
  have hs : ¬ Special c := by
    unfold Special
    omega
  split at h
  · next hc =>
    obtain ⟨k₂, h₂, h⟩ := Option.bind_eq_some_iff.mp h
    split at h
    · next hc' =>
      obtain ⟨k₃, h₃, h⟩ := Option.bind_eq_some_iff.mp h
      cases h
      exact ⟨_, .controleCar hc hs (imprime_some h₂) (by omega) (imprime_some h₃), rfl⟩
    · next hc' =>
      cases h
      exact ⟨_, .controle hc hs (imprime_some h₂) (by omega), rfl⟩
  split at h
  · obtain ⟨k₂, h₂, h⟩ := Option.bind_eq_some_iff.mp h
    cases h
    exact ⟨_, .imprime (by omega) (by omega) (imprime_some h₂), rfl⟩
  · cases h
    exact ⟨_, .rien (by omega), rfl⟩

theorem traiteCarFin_buffLigne : k.traiteCarFin.buffLigne = k.buffLigne := by
  by_cases h : k.ligne = 24
  · exact (defile_traiteCarFin h).buffLigne
  · rw [traiteCarFin_of_ne h]

theorem traiteCarFin_idColStart : k.traiteCarFin.idColStart = k.idColStart := by
  by_cases h : k.ligne = 24
  · exact (defile_traiteCarFin h).idColStart
  · rw [traiteCarFin_of_ne h]

theorem traiteCarFin_colonne_lt (hc : k.colonne < LARGEUR) : k.traiteCarFin.colonne < LARGEUR := by
  by_cases h : k.ligne = 24
  · rw [(defile_traiteCarFin h).colonne]
    decide
  · rwa [traiteCarFin_of_ne h]

/-- The characters that `traite_car` stores in the buffer, or erases from it. -/
def Ecrit (k : Console) (c : Int) : Prop :=
  (c < 32 ∧ ¬ Special c) ∨ (32 ≤ c ∧ c ≤ 126) ∨ (c = 127 ∧ k.idColStart < k.colonne)

theorem traiteCar_isSome (hcol : k.colonne < LARGEUR)
    (hl : k.Ecrit c → k.buffLigne < HAUTEUR * 100) : ∃ k', k.traiteCar c = some k' := by
  unfold traiteCar
  extract_lets fin k₁ col k₂
  by_cases hs : Special c
  · rcases hs with rfl | rfl | rfl | rfl | rfl | rfl | rfl
    · exact ⟨_, rfl⟩
    · rw [if_pos rfl]
      split <;> exact ⟨_, rfl⟩
    · rw [if_neg (by decide), if_pos rfl]
      split <;> exact ⟨_, rfl⟩
    all_goals exact ⟨_, rfl⟩
  rw [if_neg fun h => hs (by unfold Special; omega), if_neg fun h => hs (by unfold Special; omega),
    if_neg fun h => hs (by unfold Special; omega), if_neg fun h => hs (by unfold Special; omega),
    if_neg fun h => hs (by unfold Special; omega), if_neg fun h => hs (by unfold Special; omega)]
  by_cases hdel : c = 127
  · rw [if_pos hdel]
    split
    · next hx =>
      obtain ⟨k₃, h₃⟩ := poserBuffer_isSome (k := k.ecritCar k.ligne (k.colonne - 1) NOIR NOIR 0 32)
        (c := k.colonne - 1) vide (hl (.inr (.inr ⟨hdel, hx⟩))) (by omega)
      exact ⟨_, Option.bind_eq_some_iff.mpr ⟨k₃, h₃, rfl⟩⟩
    · exact ⟨_, rfl⟩
  rw [if_neg hdel, if_neg fun h => hs (.inl h)]
  by_cases hc : c < 32
  · rw [if_pos hc]
    have hl := hl (.inl ⟨hc, hs⟩)
    obtain ⟨k₃, h₃⟩ := imprime_isSome (c := 94) hl hcol
    have hi := imprime_some h₃
    obtain ⟨k₄, h₄⟩ := imprime_isSome (k := k₃.traiteCarFin) (c := 64 + c)
      (by rw [traiteCarFin_buffLigne, hi.buffLigne]; exact hl)
      (traiteCarFin_colonne_lt (hi.colonne_lt hcol))
    rw [h₃]
    simp only [Option.bind_eq_bind, Option.bind_some, h₄]
    split <;> exact ⟨_, rfl⟩
  rw [if_neg hc]
  split
  · next hc' =>
    obtain ⟨k₃, h₃⟩ := imprime_isSome (c := c) (hl (.inr (.inl ⟨by omega, hc'⟩))) hcol
    exact ⟨_, Option.bind_eq_some_iff.mpr ⟨k₃, h₃, rfl⟩⟩
  · exact ⟨_, rfl⟩

theorem traiteCar_lt (hk : k.traiteCar c = some k') (he : k.Ecrit c) : k.buffLigne < HAUTEUR * 100 := by
  by_contra hl
  have hl : HAUTEUR * 100 ≤ k.buffLigne := Nat.le_of_not_lt hl
  have hs : ¬ Special c := by
    unfold Ecrit Special at *
    omega
  have hne : ∀ n ∈ [(8 : Int), 9, 10, 12, 13, 27, 7], c ≠ n := by
    unfold Special at hs
    simp only [List.mem_cons, List.not_mem_nil, or_false]
    omega
  unfold traiteCar at hk
  extract_lets fin k₁ col k₂ at hk
  rw [if_neg (hne 8 (by decide)), if_neg (hne 9 (by decide)), if_neg (hne 10 (by decide)),
    if_neg (hne 12 (by decide)), if_neg (hne 13 (by decide)), if_neg (hne 27 (by decide))] at hk
  rcases he with ⟨hc, -⟩ | ⟨hc, hc'⟩ | ⟨rfl, hx⟩
  · rw [if_neg (by omega), if_neg (hne 7 (by decide)), if_pos hc, imprime_none hl] at hk
    cases hk
  · rw [if_neg (by omega), if_neg (hne 7 (by decide)), if_neg (by omega), if_pos hc',
      imprime_none hl] at hk
    cases hk
  · rw [if_pos rfl, if_pos hx, poserBuffer_none _ _ hl] at hk
    cases hk

/-- The case of a printable character. -/
theorem traiteCar_imprime (h : 32 ≤ c) (h' : c ≤ 126) :
    k.traiteCar c = (k.imprime c).map traiteCarFin := by
  unfold traiteCar
  extract_lets fin k₁ col k₂
  rw [if_neg (by omega), if_neg (by omega), if_neg (by omega), if_neg (by omega), if_neg (by omega),
    if_neg (by omega), if_neg (by omega), if_neg (by omega), if_neg (by omega), if_pos h']
  cases k.imprime c <;> rfl

end Console

end GenesisOS
