import Mathlib.Data.BitVec
import Mathlib.Data.List.TakeWhile
import GenesisOS.Model.Numbers
import GenesisOS.Refinement.Formats

/-!
# GenesisOS — the text of a number, read back

What `strtol`, `strtoul` and `atoi` make of the text of a number: blanks, a sign, a prefix,
digits, blanks.
-/

namespace GenesisOS

open Lib Doprnt

variable {v : Champs} {signe l p : List UInt8} {b u i j : Nat} {ds : List Nat} {base : Int}

-- ---------------------------------------------------------------------------
-- The shape of a text
-- ---------------------------------------------------------------------------

/-- The characters of a number: zeros, then its numeral. -/
def caracteres (b z u : Nat) : List UInt8 := (List.replicate z 0 ++ numeral b u).map chiffre

theorem caracteres_eq (b z u : Nat) : caracteres b z u = List.replicate z 48 ++ ecrit b u := by
  unfold caracteres ecrit
  rw [List.map_append, List.map_replicate]
  rfl

/-- A number in its field is blanks, its sign, its prefix, digits, and blanks. -/
theorem texteNombre_forme (v : Champs) (signe : List UInt8) (b u : Nat) : ∃ i z j,
    texteNombre v signe b u = List.replicate i 32 ++ (signe ++ (prefixe v b u ++
      (caracteres b z u ++ List.replicate j 32))) := by
  simp only [texteNombre]
  generalize (v.length - ((signe ++ prefixe v b u ++ corps v b u).length : Int)).toNat = reste
  unfold corps
  generalize (v.prec - ((ecrit b u).length : Int)).toNat = z
  split
  · refine ⟨0, reste + z, 0, ?_⟩
    rw [caracteres_eq, ← List.replicate_append_replicate, List.append_assoc (List.replicate reste _)]
    simp only [List.replicate_zero, List.nil_append, List.append_nil, List.append_assoc]
  · split
    · refine ⟨0, z, reste, ?_⟩
      rw [caracteres_eq]
      simp
    · refine ⟨reste, z, 0, ?_⟩
      rw [caracteres_eq]
      simp

/-- A field is never shorter than its width, nor than its number. -/
theorem length_texteNombre (v : Champs) (signe : List UInt8) (b u : Nat) :
    (texteNombre v signe b u).length = max v.length.toNat
      (signe.length + (prefixe v b u).length + max v.prec.toNat (ecrit b u).length) := by
  have hcorps : (corps v b u).length = max v.prec.toNat (ecrit b u).length := by
    unfold corps
    rw [List.length_append, List.length_replicate]
    omega
  have htaille : (signe ++ prefixe v b u ++ corps v b u).length =
      signe.length + (prefixe v b u).length + max v.prec.toNat (ecrit b u).length := by
    rw [List.length_append, List.length_append, hcorps]
  have hsomme : (texteNombre v signe b u).length = (signe ++ prefixe v b u ++ corps v b u).length +
      (v.length - ((signe ++ prefixe v b u ++ corps v b u).length : Int)).toNat := by
    simp only [texteNombre]
    split
    · simp only [List.length_append, List.length_replicate]
      omega
    · split
      · rw [List.length_append, List.length_replicate]
      · simp only [List.length_append, List.length_replicate]
        omega
  rw [hsomme, htaille]
  omega

-- ---------------------------------------------------------------------------
-- Characters
-- ---------------------------------------------------------------------------

theorem valeurChiffre_chiffre {b d : Nat} (hb : b ≤ 16) (hd : d < b) :
    valeurChiffre b (chiffre d) = some d := by
  have key : ∀ b < 17, ∀ d < b, valeurChiffre (Int.ofNat b) (chiffre d) = some d := by decide
  exact key b (by omega) d hd

/-- What a digit is not. -/
theorem chiffre_ne {d : Nat} (hd : d < 16) : chiffre d ≠ 0 ∧ isspace (chiffre d) = false ∧
    chiffre d ≠ 45 ∧ chiffre d ≠ 120 ∧ chiffre d ≠ 88 ∧ chiffre d ≠ 43 ∧ chiffre d ≠ 32 := by
  have key : ∀ d < 16, chiffre d ≠ 0 ∧ isspace (chiffre d) = false ∧
      chiffre d ≠ 45 ∧ chiffre d ≠ 120 ∧ chiffre d ≠ 88 ∧ chiffre d ≠ 43 ∧ chiffre d ≠ 32 := by decide
  exact key d hd

theorem valeurChiffre_none {c : UInt8} (h : c = 32 ∨ c = 43) (base : Int) : valeurChiffre base c = none := by
  rcases h with rfl | rfl <;> rfl

theorem mem_caracteres {z : Nat} (hb : 1 < b) {c : UInt8} (h : c ∈ caracteres b z u) :
    ∃ d < b, chiffre d = c := by
  obtain ⟨d, hd, rfl⟩ := List.mem_map.mp h
  rcases List.mem_append.mp hd with hd | hd
  · obtain rfl := List.eq_of_mem_replicate hd
    exact ⟨0, by omega, rfl⟩
  · exact ⟨d, lt_of_mem_numeral hb hd, rfl⟩

/-- The digits come first. -/
theorem caracteres_cons (b z u : Nat) (hb : 1 < b) : ∃ d < b, ∃ r, caracteres b z u = chiffre d :: r := by
  cases h : caracteres b z u with
  | nil =>
    refine absurd (List.append_eq_nil_iff.mp (List.map_eq_nil_iff.mp h)).2 (numeral_ne_nil b u)
  | cons c r =>
    obtain ⟨d, hd, rfl⟩ := mem_caracteres hb (h ▸ List.mem_cons_self)
    exact ⟨d, hd, r, rfl⟩

-- ---------------------------------------------------------------------------
-- The loop on the digits
-- ---------------------------------------------------------------------------

theorem litChiffres_map (hb : b ≤ 16) (hds : ∀ d ∈ ds, d < b) (v : BitVec 32) :
    litChiffres b (ds.map chiffre ++ l) v =
      litChiffres b l (ds.foldl (fun (v : BitVec 32) (d : Nat) => v * b + d) v) := by
  induction ds generalizing v with
  | nil => rfl
  | cons d ds ih =>
    have hd := valeurChiffre_chiffre hb (hds d List.mem_cons_self)
    rw [List.map_cons, List.cons_append, litChiffres, hd, List.foldl_cons]
    exact ih (fun e he => hds e (List.mem_cons_of_mem _ he)) _

theorem litChiffres_fin (base : Int) (j : Nat) (v : BitVec 32) :
    litChiffres base (List.replicate j 32) v = (v, List.replicate j 32) := by
  cases j with
  | zero => rfl
  | succ j =>
    rw [List.replicate_succ, litChiffres, valeurChiffre_none (.inl rfl)]

/-- The digits of a number are read as the number. -/
theorem litChiffres_caracteres (hb : 1 < b) (hb' : b ≤ 16) (z u j : Nat) :
    litChiffres b (caracteres b z u ++ List.replicate j 32) 0 =
      (BitVec.ofNat 32 u, List.replicate j 32) := by
  have hds : ∀ d ∈ List.replicate z 0 ++ numeral b u, d < b := by
    intro d hd
    rcases List.mem_append.mp hd with hd | hd
    · rw [List.eq_of_mem_replicate hd]
      omega
    · exact lt_of_mem_numeral hb hd
  have hval := cast_value (R := BitVec 32) b (List.replicate z 0 ++ numeral b u)
  rw [value_zeros_append, value_numeral] at hval
  unfold caracteres
  rw [litChiffres_map hb' hds, ← hval, litChiffres_fin]
  rfl

-- ---------------------------------------------------------------------------
-- The prefix and the base
-- ---------------------------------------------------------------------------

/-- What `strtol` and `strtoul` do after the blanks and the sign. -/
def litNombre (base : Int) (p : List UInt8) : BitVec 32 × List UInt8 :=
  litChiffres (baseLue (sautePrefixe base p).1 (sautePrefixe base p).2) (sautePrefixe base p).2 0

theorem prefixe_cas (v : Champs) (b u : Nat) : prefixe v b u = [] ∨
    (b = 8 ∧ prefixe v b u = octets "0") ∨ (b = 16 ∧ prefixe v b u = octets "0x") := by
  unfold prefixe
  split_ifs with h₁ h₂ h₃
  · exact .inr (.inl ⟨h₂, rfl⟩)
  · exact .inr (.inr ⟨h₃, rfl⟩)
  · exact .inl rfl
  · exact .inl rfl

theorem sautePrefixe_caracteres (hb : 1 < b) (hb' : b ≤ 16) (base : Int) (z u j : Nat) :
    sautePrefixe base (caracteres b z u ++ List.replicate j 32) =
      (base, caracteres b z u ++ List.replicate j 32) := by
  obtain ⟨d, hd, r, he⟩ := caracteres_cons b z u hb
  rw [he, List.cons_append]
  cases hr : r ++ List.replicate j 32 with
  | nil => rfl
  | cons c r' =>
    have hc : c ≠ 120 ∧ c ≠ 88 := by
      have hmem : c ∈ r ++ List.replicate j 32 := hr ▸ List.mem_cons_self
      rcases List.mem_append.mp hmem with h | h
      · obtain ⟨e, hlt, rfl⟩ := mem_caracteres hb (he ▸ List.mem_cons_of_mem _ h)
        obtain ⟨-, -, -, h₁, h₂, -⟩ := chiffre_ne (Nat.lt_of_lt_of_le hlt hb')
        exact ⟨h₁, h₂⟩
      · rw [List.eq_of_mem_replicate h]
        decide
    exact if_neg fun h => h.2.2.elim hc.1 hc.2

theorem sautePrefixe_0x {base : Int} (h : base = 16 ∨ base = 0) (l : List UInt8) :
    sautePrefixe base (octets "0x" ++ l) = (16, l) := if_pos ⟨h, rfl, .inl rfl⟩

theorem caracteres_zero (b z u : Nat) : octets "0" ++ caracteres b z u = caracteres b (z + 1) u := by
  unfold caracteres
  rw [List.replicate_succ]
  rfl

theorem litNombre_caracteres (hb : 1 < b) (hb' : b ≤ 16) (z u j : Nat) :
    litNombre b (caracteres b z u ++ List.replicate j 32) = (BitVec.ofNat 32 u, List.replicate j 32) := by
  have hne : (b : Int) ≠ 0 := by omega
  unfold litNombre
  rw [sautePrefixe_caracteres hb hb', baseLue, if_neg hne]
  exact litChiffres_caracteres hb hb' z u j

/-- A number is read in its base. -/
theorem litNombre_texte (hb : 1 < b) (hb' : b ≤ 16) (v : Champs) (z u j : Nat) :
    litNombre b (prefixe v b u ++ (caracteres b z u ++ List.replicate j 32)) =
      (BitVec.ofNat 32 u, List.replicate j 32) := by
  rcases prefixe_cas v b u with h | ⟨rfl, h⟩ | ⟨rfl, h⟩
  · rw [h, List.nil_append, litNombre_caracteres hb hb']
  · rw [h, ← List.append_assoc, caracteres_zero]
    exact litNombre_caracteres hb hb' (z + 1) u j
  · have h16 : ((16 : Nat) : Int) = 16 := rfl
    unfold litNombre
    rw [h, h16, sautePrefixe_0x (.inl rfl)]
    exact litChiffres_caracteres hb hb' z u j

/-- A text that starts with a zero is read in octal when no base is given. -/
theorem litNombre_octal {z : Nat} (h : (caracteres 8 z u).head? = some 48) (j : Nat) :
    litNombre 0 (caracteres 8 z u ++ List.replicate j 32) = (BitVec.ofNat 32 u, List.replicate j 32) := by
  have hhead : (caracteres 8 z u ++ List.replicate j 32).head? = some 48 := by
    rw [List.head?_append, h]
    rfl
  unfold litNombre
  rw [sautePrefixe_caracteres (by decide) (by decide), baseLue, if_pos rfl, hhead, if_pos rfl]
  exact litChiffres_caracteres (by decide) (by decide) z u j

/-- In the alternate format, the text tells its base. -/
theorem litNombre_zero (hb : b = 8 ∨ b = 16) (hv : v.altfmt = true) (z u j : Nat) :
    litNombre 0 (prefixe v b u ++ (caracteres b z u ++ List.replicate j 32)) =
      (BitVec.ofNat 32 u, List.replicate j 32) := by
  by_cases hu : u = 0
  · -- zero has no prefix, and its zeros are read in octal
    have hp : prefixe v b u = [] := if_neg fun h => h.1 hu
    have hc : caracteres b z u = caracteres 8 z u := by
      unfold caracteres numeral
      rw [if_pos hu, if_pos hu]
    have hhead : (caracteres 8 z u).head? = some 48 := by
      rw [hu]
      cases z with
      | zero => rfl
      | succ z =>
        rw [← caracteres_zero]
        rfl
    rw [hp, List.nil_append, hc]
    exact litNombre_octal hhead j
  · have hp : prefixe v b u = if b = 8 then octets "0" else if b = 16 then octets "0x" else [] :=
      if_pos ⟨hu, hv⟩
    rcases hb with rfl | rfl
    · rw [hp, if_pos rfl, ← List.append_assoc, caracteres_zero]
      refine litNombre_octal ?_ j
      rw [← caracteres_zero]
      rfl
    · rw [hp, if_neg (by decide), if_pos rfl]
      unfold litNombre
      rw [sautePrefixe_0x (.inr rfl)]
      exact litChiffres_caracteres (by decide) (by decide) z u j

-- ---------------------------------------------------------------------------
-- Blanks and signs
-- ---------------------------------------------------------------------------

/-- The prefix and the digits start with neither a blank nor a sign. -/
theorem debut_texte (v : Champs) (hb : 1 < b) (hb' : b ≤ 16) (z u : Nat) (l : List UInt8) :
    ∃ c r, prefixe v b u ++ (caracteres b z u ++ l) = c :: r ∧ isspace c = false ∧ c ≠ 45 := by
  rcases prefixe_cas v b u with h | ⟨-, h⟩ | ⟨-, h⟩
  · obtain ⟨d, hd, r, he⟩ := caracteres_cons b z u hb
    obtain ⟨-, h₁, h₂, -⟩ := chiffre_ne (Nat.lt_of_lt_of_le hd hb')
    refine ⟨chiffre d, r ++ l, ?_, h₁, h₂⟩
    rw [h, he]
    rfl
  · refine ⟨48, caracteres b z u ++ l, ?_, by decide⟩
    rw [h]
    rfl
  · refine ⟨48, 120 :: (caracteres b z u ++ l), ?_, by decide⟩
    rw [h]
    rfl

theorem dropWhile_blancs {c : UInt8} (hc : isspace c = false) (i : Nat) (r : List UInt8) :
    (List.replicate i 32 ++ c :: r).dropWhile isspace = c :: r := by
  induction i with
  | zero => exact List.dropWhile_cons_of_neg ((Bool.not_eq_true _).mpr hc)
  | succ i ih =>
    rw [List.replicate_succ, List.cons_append, List.dropWhile_cons_of_pos (by decide), ih]

theorem zero_notMem_prefixe (v : Champs) (b u : Nat) : (0 : UInt8) ∉ prefixe v b u := by
  rcases prefixe_cas v b u with h | ⟨-, h⟩ | ⟨-, h⟩
  all_goals
    rw [h]
    decide

theorem texteC_eq (h : (0 : UInt8) ∉ l) : texteC l = l := by
  unfold texteC
  refine List.takeWhile_eq_self_iff.mpr ?_
  intro c hc
  exact decide_eq_true fun h0 => h (h0 ▸ hc)

/-- The text of a number is a string. -/
theorem zero_notMem_texte (v : Champs) (hb : 1 < b) (hb' : b ≤ 16) (hs : (0 : UInt8) ∉ signe) (i z u j : Nat) :
    (0 : UInt8) ∉ List.replicate i 32 ++ (signe ++ (prefixe v b u ++
      (caracteres b z u ++ List.replicate j 32))) := by
  have hblancs : ∀ k, (0 : UInt8) ∉ List.replicate k 32 := fun k h =>
    absurd (List.eq_of_mem_replicate h) (by decide)
  have hchiffres : (0 : UInt8) ∉ caracteres b z u := by
    intro h
    obtain ⟨d, hd, h0⟩ := mem_caracteres hb h
    exact (chiffre_ne (Nat.lt_of_lt_of_le hd hb')).1 h0
  simp only [List.mem_append, not_or]
  exact ⟨hblancs i, hs, zero_notMem_prefixe v b u, hchiffres, hblancs j⟩

-- ---------------------------------------------------------------------------
-- The functions
-- ---------------------------------------------------------------------------

/-- `strtoul` skips the blanks. -/
theorem strtoul_blancs {c : UInt8} {r : List UInt8} (hc : isspace c = false) (i : Nat)
    (h0 : (0 : UInt8) ∉ List.replicate i 32 ++ c :: r) (base : Int) :
    strtoul (List.replicate i 32 ++ c :: r) base = litNombre base (c :: r) := by
  have hp : (texteC (List.replicate i 32 ++ c :: r)).dropWhile isspace = c :: r := by
    rw [texteC_eq h0, dropWhile_blancs hc]
  unfold strtoul
  rw [hp]
  rfl

/-- `strtol` skips the blanks. -/
theorem strtol_blancs {c : UInt8} {r : List UInt8} (hc : isspace c = false) (h45 : c ≠ 45) (i : Nat)
    (h0 : (0 : UInt8) ∉ List.replicate i 32 ++ c :: r) (base : Int) :
    strtol (List.replicate i 32 ++ c :: r) base = litNombre base (c :: r) := by
  have hp : (texteC (List.replicate i 32 ++ c :: r)).dropWhile isspace = c :: r := by
    rw [texteC_eq h0, dropWhile_blancs hc]
  have hneg : ¬ (c :: r).head? = some 45 := fun h => h45 (Option.some.inj h)
  unfold strtol
  simp only [hp, if_neg hneg]
  rfl

/-- `strtol` takes one `-`. -/
theorem strtol_moins {r : List UInt8} (i : Nat) (h0 : (0 : UInt8) ∉ List.replicate i 32 ++ 45 :: r)
    (base : Int) : strtol (List.replicate i 32 ++ 45 :: r) base =
      (-(litNombre base r).1, (litNombre base r).2) := by
  have hp : (texteC (List.replicate i 32 ++ 45 :: r)).dropWhile isspace = 45 :: r := by
    rw [texteC_eq h0, dropWhile_blancs (by decide)]
  unfold strtol
  simp only [hp]
  rfl

/-- Nothing is read after a `+`. -/
theorem litNombre_plus (base : Int) (r : List UInt8) : litNombre base (43 :: r) = (0, 43 :: r) := by
  have hs : sautePrefixe base (43 :: r) = (base, 43 :: r) := by
    cases r with
    | nil => rfl
    | cons c r => exact if_neg fun h => absurd h.2.1 (by decide)
  unfold litNombre
  rw [hs, litChiffres, valeurChiffre_none (.inr rfl)]

theorem ofNat_toNat_natAbs {w : BitVec 32} (h : 0 ≤ w.toInt) : BitVec.ofNat 32 w.toInt.natAbs = w := by
  have hint := BitVec.toInt_eq_toNat_cond w
  have hlt := w.isLt
  have habs : w.toInt.natAbs = w.toNat := by
    split at hint <;> omega
  rw [habs, BitVec.ofNat_toNat, BitVec.setWidth_eq]

theorem neg_ofNat_natAbs {w : BitVec 32} (h : w.toInt < 0) : -BitVec.ofNat 32 w.toInt.natAbs = w := by
  have hint := BitVec.toInt_eq_toNat_cond w
  have hlt := w.isLt
  apply BitVec.eq_of_toNat_eq
  rw [BitVec.toNat_neg, BitVec.toNat_ofNat]
  split at hint <;> omega

/-- A character that is no digit makes `atoi` give up. -/
theorem atoiBoucle_autre {sign : BitVec 32} (h : ∃ c ∈ l, c < 48 ∨ c > 57) (r : BitVec 32) :
    atoiBoucle sign l r = 0 := by
  induction l generalizing r with
  | nil =>
    obtain ⟨c, hc, -⟩ := h
    cases hc
  | cons c l ih =>
    unfold atoiBoucle
    split
    · rfl
    · rename_i hc
      obtain ⟨d, hd, hd'⟩ := h
      rcases List.mem_cons.mp hd with rfl | hd
      · exact absurd hd' hc
      · exact ih ⟨d, hd, hd'⟩ _

theorem atoiBoucle_map (hds : ∀ d ∈ ds, d < 10) (sign r : BitVec 32) :
    atoiBoucle sign (ds.map chiffre) r =
      sign * ds.foldl (fun (v : BitVec 32) (d : Nat) => v * (10 : Nat) + d) r := by
  induction ds generalizing r with
  | nil => rfl
  | cons d ds ih =>
    have key : ∀ d < 10, ¬ (chiffre d < 48 ∨ chiffre d > 57) ∧
        BitVec.ofNat 32 (chiffre d).toNat - 48 = BitVec.ofNat 32 d := by decide
    obtain ⟨h₁, h₂⟩ := key d (hds d List.mem_cons_self)
    have hadd : r * 10 + BitVec.ofNat 32 (chiffre d).toNat - 48 = r * 10 + BitVec.ofNat 32 d := by
      rw [← h₂, add_sub_assoc]
    rw [List.map_cons, atoiBoucle, if_neg h₁, hadd, List.foldl_cons]
    exact ih (fun e he => hds e (List.mem_cons_of_mem _ he)) _

theorem atoiBoucle_caracteres (sign : BitVec 32) (z u : Nat) :
    atoiBoucle sign (caracteres 10 z u) 0 = sign * BitVec.ofNat 32 u := by
  have hds : ∀ d ∈ List.replicate z 0 ++ numeral 10 u, d < 10 := by
    intro d hd
    rcases List.mem_append.mp hd with hd | hd
    · rw [List.eq_of_mem_replicate hd]
      decide
    · exact lt_of_mem_numeral (by decide) hd
  have hval := cast_value (R := BitVec 32) 10 (List.replicate z 0 ++ numeral 10 u)
  rw [value_zeros_append, value_numeral] at hval
  unfold caracteres
  rw [atoiBoucle_map hds, ← hval]
  rfl

end GenesisOS
