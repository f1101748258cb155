import GenesisOS.Abstract.Formats

/-!
# GenesisOS — formats as `_doprnt` reads them

The functions that read the fields of a conversion find those of the directive, each
conversion writes what its element stands for, and the loop on the format writes one element
after another.
-/

namespace GenesisOS

namespace Doprnt

open Lib

-- ---------------------------------------------------------------------------
-- Integers
-- ---------------------------------------------------------------------------

theorem int32_eq {x : Int} (h : -2 ^ 31 ≤ x) (h' : x < 2 ^ 31) : int32 x = x :=
  Int.bmod_eq_of_le (by omega) (by omega)

/-- Filling a field: nothing when the length is not positive. -/
theorem remplit_eq {n : Int} (c : UInt8) (h : -2 ^ 31 < n) (h' : n < 2 ^ 31) :
    remplit c n = (List.replicate n.toNat c, if 0 ≤ n then -1 else n - 1) := by
  have hk : (int32 (n - 1) + 1).toNat = n.toNat := by
    rw [int32_eq (by omega) (by omega), Int.sub_add_cancel]
  have hn : int32 (n - n.toNat - 1) = if 0 ≤ n then -1 else n - 1 := by
    rw [int32_eq (by omega) (by omega)]
    split <;> omega
  unfold remplit
  simp only [hk, hn]

-- ---------------------------------------------------------------------------
-- Digits
-- ---------------------------------------------------------------------------

theorem digits_getElem? {d : Nat} (h : d < 16) : digits[d]? = some (chiffre d) := by
  have hl : d < digits.length := Nat.lt_of_lt_of_le h (by decide)
  unfold chiffre
  rw [List.getElem?_eq_getElem hl, List.getD_eq_getElem?_getD, List.getElem?_eq_getElem hl,
    Option.getD_some]

/-- The loop on the digits writes the numeral. -/
theorem ecritChiffres_eq {b : Nat} (hb : 2 ≤ b) (hb' : b ≤ 16) {n u : Nat} (hn : 0 < n)
    (h : u < b ^ n) (buf : List UInt8) : ecritChiffres b n u buf = .ok (ecrit b u ++ buf) := by
  induction n generalizing u buf with
  | zero => exact absurd hn (Nat.lt_irrefl 0)
  | succ n ih =>
    have hmod : u % b < b := Nat.mod_lt u (by omega)
    unfold ecritChiffres
    rw [if_neg (by omega), digits_getElem? (by omega)]
    unfold ecrit
    by_cases hu : u < b
    · show (if u / b = 0 then Except.ok (chiffre (u % b) :: buf) else _) = _
      rw [if_pos (Nat.div_eq_of_lt hu), Nat.mod_eq_of_lt hu, numeral_of_lt hu]
      rfl
    · have hle : b ≤ u := Nat.le_of_not_lt hu
      have hdiv : 0 < u / b := Nat.div_pos hle (by omega)
      have hlt : u / b < b ^ n := Nat.div_lt_of_lt_mul (by rwa [Nat.mul_comm, ← Nat.pow_succ])
      have hn' : 0 < n := by
        rcases Nat.eq_zero_or_pos n with rfl | hn'
        · rw [Nat.pow_zero] at hlt
          omega
        · exact hn'
      show (if u / b = 0 then Except.ok (chiffre (u % b) :: buf) else _) = _
      rw [if_neg hdiv.ne', ih hn' hlt, numeral_of_le (by omega) hle, List.map_append,
        List.append_assoc]
      rfl

theorem lt_pow_base {b : Nat} (hb : 2 ≤ b) (u : BitVec 32) : u.toNat < b ^ MAXBUF :=
  Nat.lt_of_lt_of_le u.isLt (Nat.pow_le_pow_left hb 32)

theorem versNat_natCast {b : Nat} (hb : b ≤ 16) : versNat (b : Int) = b := by
  unfold versNat
  omega

theorem printnum_eq {b : Nat} (hb : 2 ≤ b) (hb' : b ≤ 16) (u : BitVec 32) :
    printnum u b = .ok (ecrit b u.toNat) := by
  unfold printnum
  rw [versNat_natCast hb', ecritChiffres_eq hb hb' (by decide) (lt_pow_base hb u), List.append_nil]

theorem length_ecrit_le {b : Nat} (hb : 2 ≤ b) (u : BitVec 32) : (ecrit b u.toNat).length ≤ 32 := by
  unfold ecrit
  rw [List.length_map]
  exact length_numeral_le hb (by decide) (lt_pow_base hb u)

-- ---------------------------------------------------------------------------
-- Numbers
-- ---------------------------------------------------------------------------

theorem length_prefixe_le (v : Champs) (b u : Nat) : (prefixe v b u).length ≤ 2 := by
  unfold prefixe
  split
  · split
    · decide
    · split <;> decide
  · decide

/-- What the fields must be for `print_num` not to leave the range of an `int`. -/
structure Champs.Borne (v : Champs) : Prop where
  length : 0 ≤ v.length ∧ v.length < 2 ^ 31
  prec : -2 ^ 31 + 40 < v.prec ∧ v.prec + 40 < 2 ^ 31
  padc : v.padc = 48 ∨ v.padc = 32

section

variable {v : Champs} {b : Nat}

/-- The cells left once the digits, the sign, the prefix and the zeros are counted. -/
theorem reste_eq (hv : v.Borne) {k q : Nat} (hk : k ≤ 32) (hq : q ≤ 2) (c : UInt8) :
    (if int32 (v.prec - k) > 0 then
      int32 (int32 ((if c ≠ 0 then int32 (int32 (v.length - k) - 1) else int32 (v.length - k)) - q) -
        int32 (v.prec - k))
    else int32 ((if c ≠ 0 then int32 (int32 (v.length - k) - 1) else int32 (v.length - k)) - q)) =
    v.length - (((if c ≠ 0 then [c] else []).length + q + ((v.prec - k).toNat + k) : Nat) : Int) := by
  obtain ⟨⟨hl, hl'⟩, ⟨hp, hp'⟩, -⟩ := hv
  have hsigne : (if c ≠ 0 then int32 (int32 (v.length - k) - 1) else int32 (v.length - k)) =
      v.length - k - ((if c ≠ 0 then [c] else []).length : Nat) := by
    rw [int32_eq (x := v.length - k) (by omega) (by omega)]
    split
    · rw [int32_eq (by omega) (by omega)]
      rfl
    · exact (Int.sub_zero _).symm
  have hle : (if c ≠ 0 then [c] else []).length ≤ 1 := by
    split
    · exact Nat.le_refl 1
    · exact Nat.zero_le 1
  rw [hsigne, int32_eq (x := v.prec - k) (by omega) (by omega),
    int32_eq (x := _ - (q : Int)) (by omega) (by omega)]
  split
  · rw [int32_eq (by omega) (by omega)]
    omega
  · omega

/-- `print_num` writes the number in its field. -/
theorem printNum_eq (hv : v.Borne) (hb : 2 ≤ b) (hb' : b ≤ 16) (c : UInt8) (u : BitVec 32) :
    printNum v c b u = .ok (texteNombre v (if c ≠ 0 then [c] else []) b u.toNat) := by
  have hk := length_ecrit_le hb u
  have hpre := length_prefixe_le v b u.toNat
  have hprefixe : (if u ≠ 0 ∧ v.altfmt = true then
      if (b : Int) = 8 then octets "0" else if (b : Int) = 16 then octets "0x" else []
      else []) = prefixe v b u.toNat := by
    have hu : u ≠ 0 ↔ u.toNat ≠ 0 := by
      rw [Ne, ← BitVec.toNat_inj]
      rfl
    have h8 : (b : Int) = 8 ↔ b = 8 := by omega
    have h16 : (b : Int) = 16 ↔ b = 16 := by omega
    unfold prefixe
    simp only [hu, h8, h16]
  have hreste := reste_eq hv hk hpre c
  have hprec : int32 (v.prec - (ecrit b u.toNat).length) = v.prec - (ecrit b u.toNat).length := by
    obtain ⟨-, ⟨hp, hp'⟩, -⟩ := hv
    exact int32_eq (by omega) (by omega)
  unfold printNum
  simp only [hprefixe]
  rw [versNat_natCast hb', ecritChiffres_eq hb hb' (by decide) (lt_pow_base hb u), List.append_nil]
  simp only [bind, Except.bind]
  rw [hreste, hprec]
  generalize hs : (if c ≠ 0 then [c] else []) = signe
  have htaille : ((signe.length + (prefixe v b u.toNat).length +
      ((v.prec - (ecrit b u.toNat).length).toNat + (ecrit b u.toNat).length) : Nat) : Int) =
      (signe ++ prefixe v b u.toNat ++ corps v b u.toNat).length := by
    unfold corps
    rw [List.length_append, List.length_append, List.length_append, List.length_replicate]
  have hsl : signe.length ≤ 1 := by
    rw [← hs]
    split
    · exact Nat.le_refl 1
    · exact Nat.zero_le 1
  obtain ⟨⟨hl, hl'⟩, ⟨hp, hp'⟩, hpad⟩ := hv
  have hbas : -2 ^ 31 + 1 < v.length - (signe ++ prefixe v b u.toNat ++ corps v b u.toNat).length := by
    rw [← htaille]
    omega
  have hhaut : v.length - (signe ++ prefixe v b u.toNat ++ corps v b u.toNat).length < 2 ^ 31 := by
    omega
  rw [htaille, remplit_eq 48 (n := v.prec - _) (by omega) (by omega)]
  simp only [texteNombre]
  generalize v.length - ((signe ++ prefixe v b u.toNat ++ corps v b u.toNat).length : Int) = reste
    at hbas hhaut ⊢
  rcases hpad with hpad | hpad
  · -- zeros after the sign, and no blank after them
    have h2 : (if 0 ≤ reste then (-1 : Int) else reste - 1).toNat = 0 := by
      split <;> omega
    simp only [hpad, remplit_eq 48 (n := reste) (by omega) (by omega), show (48 : UInt8) ≠ 32 by decide,
      false_and, if_false, if_true]
    rw [remplit_eq 32 (by split <;> omega) (by split <;> omega), h2]
    have hzeros : List.replicate (v.prec - (ecrit b u.toNat).length).toNat (48 : UInt8) ++
        List.replicate reste.toNat 48 = List.replicate reste.toNat 48 ++
        List.replicate (v.prec - (ecrit b u.toNat).length).toNat 48 := by
      rw [List.replicate_append_replicate, List.replicate_append_replicate, Nat.add_comm]
    have hfin : (if v.ladjust = true then (List.replicate 0 (32 : UInt8),
        if 0 ≤ (if 0 ≤ reste then (-1 : Int) else reste - 1) then (-1 : Int)
        else (if 0 ≤ reste then (-1 : Int) else reste - 1) - 1)
        else ([], if 0 ≤ reste then -1 else reste - 1)).1 = [] := by
      cases v.ladjust <;> rfl
    unfold corps
    rw [hfin]
    simp only [List.append_assoc, List.nil_append, List.append_nil]
    rw [← List.append_assoc (List.replicate reste.toNat _) (List.replicate _ _), ← hzeros,
      List.append_assoc]
  · cases hadj : v.ladjust
    · simp only [hpad, remplit_eq 32 (n := reste) (by omega) (by omega),
        show (32 : UInt8) ≠ 48 by decide, Bool.not_false, and_self, if_true, if_false,
        Bool.false_eq_true]
      simp [corps]
    · simp only [hpad, remplit_eq 32 (n := reste) (by omega) (by omega),
        show (32 : UInt8) ≠ 48 by decide, Bool.not_true, Bool.false_eq_true, and_false, if_true, if_false]
      simp [corps]

end

-- ---------------------------------------------------------------------------
-- Strings
-- ---------------------------------------------------------------------------

section

variable {v : Champs} {prec n : Int}

theorem compte_eq (prec : Int) (p : List UInt8) (n : Int) :
    compte prec p n = n + (min p.length (prec - n).toNat : Nat) := by
  induction p generalizing n with
  | nil =>
    rw [List.length_nil, Nat.zero_min]
    exact (Int.add_zero n).symm
  | cons c p ih =>
    unfold compte
    rw [List.length_cons]
    split
    · rw [ih]
      omega
    · omega

theorem ecritTexte_eq (prec : Int) (p : List UInt8) (n : Int) :
    ecritTexte prec p n = (p.take (prec - n).toNat,
      n + (min p.length (prec - n).toNat : Nat) + if (prec - n).toNat < p.length then 1 else 0) := by
  induction p generalizing n with
  | nil =>
    rw [List.length_nil, Nat.zero_min, List.take_nil, if_neg (Nat.not_lt_zero _)]
    unfold ecritTexte
    congr 1
    omega
  | cons c p ih =>
    unfold ecritTexte
    rw [List.length_cons]
    split
    · have h0 : (prec - n).toNat = 0 := by omega
      rw [h0, List.take_zero, if_pos (Nat.succ_pos _)]
      congr 1
      omega
    · have h1 : (prec - n).toNat = (prec - (n + 1)).toNat + 1 := by omega
      rw [ih, h1, List.take_succ_cons]
      simp only [Nat.add_lt_add_iff_right]
      congr 1
      omega

/-- The conversion `s` writes the string in its field. -/
theorem printTexte_eq (hv : v.Borne) {s : Option (List UInt8)}
    (hs : (texteC (s.getD [])).length + 1 < 2 ^ 31) :
    printTexte v (s.map texteC) = texteChaine v (texteC (s.getD [])) := by
  have hp : (s.map texteC).getD [] = texteC (s.getD []) := by
    cases s <;> rfl
  obtain ⟨⟨hl, hl'⟩, ⟨hp₁, hp₂⟩, -⟩ := hv
  unfold printTexte
  simp only [hp, compte_eq, ecritTexte_eq, texteChaine]
  generalize texteC (s.getD []) = l at hs ⊢
  have hmin : min l.length ((if v.prec = -1 then 0x7fffffff else v.prec) - 0 : Int).toNat =
      gardes v l.length := by
    unfold gardes
    split <;> omega
  have htake : l.take ((if v.prec = -1 then 0x7fffffff else v.prec) - 0 : Int).toNat =
      l.take (gardes v l.length) := by
    rw [← hmin, List.take_eq_take_iff]
    omega
  have hlt : ((if v.prec = -1 then 0x7fffffff else v.prec) - 0 : Int).toNat < l.length ↔
      gardes v l.length < l.length := by
    rw [← hmin]
    omega
  rw [hmin, htake]
  simp only [hlt]
  have hle : gardes v l.length ≤ l.length := by
    rw [← hmin]
    exact Nat.min_le_left _ _
  cases v.ladjust with
  | false =>
    simp only [Bool.not_false, and_true, Bool.false_eq_true, and_false, if_false, List.append_nil]
    congr 1
    split
    · rw [Int.zero_add]
    · rw [show (v.length - (gardes v l.length : Int)).toNat = 0 by omega]
      rfl
  | true =>
    simp only [Bool.not_true, Bool.false_eq_true, and_false, if_false, List.nil_append, and_true, if_true]
    generalize (if gardes v l.length < l.length then (1 : Int) else 0) = coupee
    congr 1
    split
    · congr 2
      omega
    · rw [show (v.length - (gardes v l.length : Int) - coupee).toNat = 0 by omega]
      rfl

end

-- ---------------------------------------------------------------------------
-- Fields
-- ---------------------------------------------------------------------------

section

variable {c : UInt8} {fmt l : List UInt8} {args : List Argument} {v : Champs} {d : Directive}

/-- `l` has a first character, which satisfies `p`. -/
def Commence (p : UInt8 → Prop) (l : List UInt8) : Prop := ∃ c r, l = c :: r ∧ p c

theorem Commence.imp {p q : UInt8 → Prop} (h : Commence p l) (hpq : ∀ c, p c → q c) : Commence q l := by
  obtain ⟨c, r, he, hc⟩ := h
  exact ⟨c, r, he, hpq c hc⟩

theorem drapeaux_eq (h : Commence (fun c => c ≠ 35 ∧ c ≠ 45 ∧ c ≠ 43 ∧ c ≠ 32) l) :
    drapeaux l v = (l, v) := by
  obtain ⟨c, r, rfl, h₁, h₂, h₃, h₄⟩ := h
  unfold drapeaux
  rw [if_neg h₁, if_neg h₂, if_neg h₃, if_neg h₄]

theorem zero_eq (h : Commence (· ≠ 48) l) : zero l v = (l, v) := by
  obtain ⟨c, r, rfl, h₁⟩ := h
  exact if_neg h₁

theorem largeur_eq (h : Commence (fun c => isdigit c = false ∧ c ≠ 42) l) :
    largeur l args v = .ok (l, args, v) := by
  obtain ⟨c, r, rfl, h₁, h₂⟩ := h
  exact (if_neg ((Bool.not_eq_true _).mpr h₁)).trans (if_neg h₂)

theorem precision_eq (h : Commence (fun c => isdigit c = false ∧ c ≠ 42) l) :
    precision l args v = .ok (l, args, v) := by
  obtain ⟨c, r, rfl, h₁, h₂⟩ := h
  exact (if_neg ((Bool.not_eq_true _).mpr h₁)).trans (if_neg h₂)

theorem point_eq (h : Commence (· ≠ 46) l) : point l args v = .ok (l, args, v) := by
  obtain ⟨c, r, rfl, h₁⟩ := h
  exact if_neg h₁

theorem modele_eq (h : Commence (· ≠ 108) l) : modele l = l := by
  obtain ⟨c, r, rfl, h₁⟩ := h
  exact if_neg h₁

-- ---------------------------------------------------------------------------
-- The fields of a directive
-- ---------------------------------------------------------------------------

theorem isdigit_chiffre {n : Nat} (h : n < 10) :
    isdigit (chiffre n) = true ∧ ctod (chiffre n) = n ∧ (n ≠ 0 → chiffre n ≠ 48) := by
  have key : ∀ n < 10, isdigit (chiffre n) = true ∧ ctod (chiffre n) = n ∧ (n ≠ 0 → chiffre n ≠ 48) := by
    decide
  exact key n h

theorem le_foldl_chiffres (ds : List Nat) (n : Nat) : n ≤ ds.foldl (fun v d => v * 10 + d) n := by
  induction ds generalizing n with
  | nil => exact Nat.le_refl n
  | cons d ds ih =>
    have h := ih (n * 10 + d)
    rw [List.foldl_cons]
    omega

/-- A number of the format that stays in an `int` is read as it is. -/
theorem chiffresFmt_eq {ds : List Nat} (hds : ∀ d ∈ ds, d < 10) {n : Nat}
    (h : ds.foldl (fun v d => v * 10 + d) n < 2 ^ 31) (hl : Commence (isdigit · = false) l) :
    chiffresFmt (ds.map chiffre ++ l) n = (l, ((ds.foldl (fun v d => v * 10 + d) n : Nat) : Int)) := by
  induction ds generalizing n with
  | nil =>
    obtain ⟨c, r, rfl, hc⟩ := hl
    exact if_neg ((Bool.not_eq_true _).mpr hc)
  | cons d ds ih =>
    obtain ⟨h₁, h₂, -⟩ := isdigit_chiffre (hds d List.mem_cons_self)
    rw [List.foldl_cons] at h ⊢
    have hle := le_foldl_chiffres ds (n * 10 + d)
    rw [List.map_cons, List.cons_append]
    unfold chiffresFmt
    rw [if_pos h₁, h₂, int32_eq (by omega) (by omega)]
    have hn : 10 * (n : Int) + d = (n * 10 + d : Nat) := by
      push_cast
      omega
    rw [hn]
    exact ih (fun e he => hds e (List.mem_cons_of_mem _ he)) h

theorem chiffresFmt_ecrit {n : Nat} (h : n < 2 ^ 31) (hl : Commence (isdigit · = false) l) :
    chiffresFmt (ecrit 10 n ++ l) 0 = (l, (n : Int)) := by
  have hv : (numeral 10 n).foldl (fun v d => v * 10 + d) 0 = n := value_numeral 10 n
  have hc := chiffresFmt_eq (n := 0) (fun e he => lt_of_mem_numeral (by decide) he) (by rwa [hv]) hl
  rw [hv] at hc
  exact hc

/-- The first digit of a number that is not zero. -/
theorem ecrit_cons (n : Nat) : ∃ c r, ecrit 10 n = c :: r ∧ isdigit c = true ∧ (n ≠ 0 → c ≠ 48) := by
  cases hn : numeral 10 n with
  | nil => exact absurd hn (numeral_ne_nil 10 n)
  | cons d ds =>
    have hd : d < 10 := lt_of_mem_numeral (b := 10) (n := n) (by decide) (hn ▸ List.mem_cons_self)
    obtain ⟨h₁, -, h₃⟩ := isdigit_chiffre hd
    refine ⟨chiffre d, ds.map chiffre, ?_, h₁, ?_⟩
    · unfold ecrit
      rw [hn, List.map_cons]
    · intro h0
      exact h₃ (head_numeral_ne_zero h0 (by rw [hn]; rfl))

theorem drapeaux_map (ds : List Drapeau)
    (h : Commence (fun c => c ≠ 35 ∧ c ≠ 45 ∧ c ≠ 43 ∧ c ≠ 32) l) (v : Champs) :
    drapeaux (ds.map Drapeau.car ++ l) v = (l, { v with
      altfmt := v.altfmt || decide (.diese ∈ ds)
      ladjust := v.ladjust || decide (.moins ∈ ds)
      plusSign := if .plus ∈ ds then 43 else if v.plusSign ≠ 0 then v.plusSign
        else if .blanc ∈ ds then 32 else 0 }) := by
  induction ds generalizing v with
  | nil =>
    rw [List.map_nil, List.nil_append, drapeaux_eq h]
    have hp : (if v.plusSign ≠ 0 then v.plusSign else 0) = v.plusSign := by
      split
      · rfl
      · rename_i h0
        exact (not_not.mp h0).symm
    simp [hp]
  | cons e ds ih =>
    rw [List.map_cons, List.cons_append]
    cases e with
    | diese => exact (ih { v with altfmt := true }).trans (by simp)
    | moins => exact (ih { v with ladjust := true }).trans (by simp)
    | plus => exact (ih { v with plusSign := 43 }).trans (by simp)
    | blanc =>
      refine (ih { v with plusSign := if v.plusSign = 0 then 32 else v.plusSign }).trans ?_
      by_cases h0 : v.plusSign = 0 <;> simp [h0]

theorem largeur_isdigit (hc : isdigit c = true) : largeur (c :: l) args v =
    .ok ((chiffresFmt (c :: l) v.length).1, args, { v with length := (chiffresFmt (c :: l) v.length).2 }) :=
  if_pos hc

theorem precision_isdigit (hc : isdigit c = true) : precision (c :: l) args v =
    .ok ((chiffresFmt (c :: l) 0).1, args, { v with prec := (chiffresFmt (c :: l) 0).2 }) := if_pos hc

/-- The width of a directive. -/
theorem largeur_directive (hd : d.Valide) (h : Commence (fun c => isdigit c = false ∧ c ≠ 42) l)
    (hv : v.length = 0) :
    largeur (d.texteLargeur ++ l) (d.argsLargeur ++ args) v = .ok (l, args, { v with
      length := |(d.largeur.map Mesure.valeur).getD 0|
      ladjust := v.ladjust ^^ decide ((d.largeur.map Mesure.valeur).getD 0 < 0) }) := by
  cases hm : d.largeur with
  | none =>
    unfold Directive.texteLargeur Directive.argsLargeur
    rw [hm]
    refine (largeur_eq h).trans ?_
    cases v
    cases hv
    simp
  | some m =>
    obtain ⟨-, hb⟩ := hd.largeur m hm
    unfold Directive.texteLargeur Directive.argsLargeur
    rw [hm]
    cases m with
    | lue n =>
      obtain ⟨c, r, he, hc, -⟩ := ecrit_cons n
      have hn : n < 2 ^ 31 := by
        simpa [Mesure.valeur] using hb
      have hch := chiffresFmt_ecrit hn (h.imp fun _ => And.left)
      show largeur (ecrit 10 n ++ l) args v = _
      rw [he, List.cons_append] at hch ⊢
      rw [largeur_isdigit hc, hv, hch]
      have hpos : ¬ (n : Int) < 0 := by omega
      simp [Mesure.valeur, hpos]
    | etoile w =>
      show (if w.toInt < 0 then Except.ok (l, args, { v with
        ladjust := !v.ladjust, length := int32 (-w.toInt) })
        else Except.ok (l, args, { v with length := w.toInt })) = _
      have hw : |w.toInt| < 2 ^ 31 := hb
      simp only [Option.map_some, Option.getD_some, Mesure.valeur]
      split
      · rename_i hneg
        rw [abs_of_neg hneg] at hw ⊢
        rw [int32_eq (by omega) (by omega)]
        simp [hneg]
      · rename_i hpos
        rw [abs_of_nonneg (not_lt.mp hpos)]
        simp [hpos]

/-- The precision of a directive. -/
theorem point_directive (hd : d.Valide) (h : Commence (fun c => isdigit c = false ∧ c ≠ 42 ∧ c ≠ 46) l)
    (hv : v.prec = -1) :
    point (d.textePrecision ++ l) (d.argsPrecision ++ args) v = .ok (l, args, { v with
      prec := (d.precision.join.map Mesure.valeur).getD (-1) }) := by
  have hid : { v with prec := -1 } = v := by
    cases v
    cases hv
    rfl
  cases hm : d.precision with
  | none =>
    unfold Directive.textePrecision Directive.argsPrecision
    rw [hm]
    refine (point_eq (h.imp fun _ hc => hc.2.2)).trans ?_
    rw [show ((none : Option (Option Mesure)).join.map Mesure.valeur).getD (-1) = -1 from rfl, hid]
    rfl
  | some m =>
    unfold Directive.textePrecision Directive.argsPrecision
    rw [hm]
    cases m with
    | none =>
      show precision l args v = _
      rw [precision_eq (h.imp fun _ hc => ⟨hc.1, hc.2.1⟩),
        show ((some none : Option (Option Mesure)).join.map Mesure.valeur).getD (-1) = -1 from rfl, hid]
    | some m =>
      have hb := hd.precision m hm
      cases m with
      | lue n =>
        obtain ⟨c, r, he, hc, -⟩ := ecrit_cons n
        have hn : n < 2 ^ 31 := by
          have : (n : Int) + 40 < 2 ^ 31 := by simpa [Mesure.valeur] using hb
          omega
        have hch := chiffresFmt_ecrit hn (h.imp fun _ => And.left)
        show precision (ecrit 10 n ++ l) args v = _
        rw [he, List.cons_append] at hch ⊢
        rw [precision_isdigit hc, hch]
        rfl
      | etoile w => rfl

/-- The fields read are those of the directive. -/
theorem champs_directive (hd : d.Valide) (hc : Lettre c) :
    champs (d.texte ++ c :: fmt) (d.args ++ args) = .ok (c :: fmt, args, d.champs) := by
  obtain ⟨h₁, h₂, h₃, h₄, h₅, h₆, h₇, h₈, -⟩ := hc
  have hchiffre : ∀ {x : UInt8}, isdigit x = false → x ≠ 48 := by
    rintro x hx rfl
    exact absurd hx (by decide)
  -- what each field leaves to the next one
  have hl : Commence (fun x => (x ≠ 35 ∧ x ≠ 45 ∧ x ≠ 43 ∧ x ≠ 32) ∧ isdigit x = false ∧ x ≠ 42 ∧ x ≠ 46)
      ((if d.long then [108] else []) ++ c :: fmt) := by
    cases d.long
    · exact ⟨c, fmt, rfl, ⟨h₁, h₂, h₃, h₄⟩, h₅, h₆, h₇⟩
    · exact ⟨108, c :: fmt, rfl, by decide⟩
  have hp : Commence (fun x => (x ≠ 35 ∧ x ≠ 45 ∧ x ≠ 43 ∧ x ≠ 32) ∧ isdigit x = false ∧ x ≠ 42)
      (d.textePrecision ++ ((if d.long then [108] else []) ++ c :: fmt)) := by
    unfold Directive.textePrecision
    cases d.precision with
    | none => exact hl.imp fun _ hx => ⟨hx.1, hx.2.1, hx.2.2.1⟩
    | some p => exact ⟨46, _, rfl, by decide⟩
  have hw : Commence (fun x => (x ≠ 35 ∧ x ≠ 45 ∧ x ≠ 43 ∧ x ≠ 32) ∧ x ≠ 48)
      (d.texteLargeur ++ (d.textePrecision ++ ((if d.long then [108] else []) ++ c :: fmt))) := by
    unfold Directive.texteLargeur
    cases hm : d.largeur with
    | none => exact hp.imp fun _ hx => ⟨hx.1, hchiffre hx.2.1⟩
    | some m =>
      cases m with
      | lue n =>
        obtain ⟨x, r, he, hx, h0⟩ := ecrit_cons n
        have hn : n ≠ 0 := by
          rintro rfl
          exact (hd.largeur _ hm).1 rfl
        show Commence _ (ecrit 10 n ++ _)
        rw [he]
        refine ⟨x, _, rfl, ⟨?_, ?_, ?_, ?_⟩, h0 hn⟩
        all_goals
          rintro rfl
          exact absurd hx (by decide)
      | etoile w => exact ⟨42, _, rfl, by decide⟩
  have hz : Commence (fun x => x ≠ 35 ∧ x ≠ 45 ∧ x ≠ 43 ∧ x ≠ 32) ((if d.zero then [48] else []) ++
      (d.texteLargeur ++ (d.textePrecision ++ ((if d.long then [108] else []) ++ c :: fmt)))) := by
    cases d.zero
    · exact hw.imp fun _ => And.left
    · exact ⟨48, _, rfl, by decide⟩
  have hzero : ∀ v, zero ((if d.zero then [48] else []) ++
      (d.texteLargeur ++ (d.textePrecision ++ ((if d.long then [108] else []) ++ c :: fmt)))) v =
      (d.texteLargeur ++ (d.textePrecision ++ ((if d.long then [108] else []) ++ c :: fmt)),
        { v with padc := if d.zero then 48 else v.padc }) := by
    intro v
    cases d.zero
    · exact zero_eq (hw.imp fun _ => And.right)
    · rfl
  have hlong : modele ((if d.long then [108] else []) ++ c :: fmt) = c :: fmt := by
    cases d.long
    · exact modele_eq ⟨c, fmt, rfl, h₈⟩
    · rfl
  unfold champs Directive.texte Directive.args
  simp only [List.append_assoc, drapeaux_map d.drapeaux hz, hzero]
  rw [largeur_directive hd (hp.imp fun _ => And.right) rfl]
  simp only [bind, Except.bind]
  rw [point_directive hd (hl.imp fun _ => And.right) rfl]
  simp only [hlong]
  unfold Directive.champs
  simp

end

-- ---------------------------------------------------------------------------
-- Conversions
-- ---------------------------------------------------------------------------

section

variable {v : Champs} {c : UInt8} {fmt : List UInt8} {args : List Argument} {d : Directive}
  {radix b : Nat} {w : BitVec 32}

theorem Directive.Valide.borne (hd : d.Valide) : d.champs.Borne where
  length := by
    show 0 ≤ |(d.largeur.map Mesure.valeur).getD 0| ∧ |(d.largeur.map Mesure.valeur).getD 0| < 2 ^ 31
    refine ⟨abs_nonneg _, ?_⟩
    cases hm : d.largeur with
    | none => decide
    | some m => exact (hd.largeur m hm).2
  prec := by
    show -2 ^ 31 + 40 < (d.precision.join.map Mesure.valeur).getD (-1) ∧
      (d.precision.join.map Mesure.valeur).getD (-1) + 40 < 2 ^ 31
    cases hm : d.precision with
    | none => decide
    | some m =>
      cases m with
      | none => decide
      | some m =>
        obtain ⟨h₁, h₂⟩ := abs_lt.mp (lt_sub_iff_add_lt.mpr (hd.precision m hm))
        show _ < m.valeur ∧ m.valeur + 40 < _
        omega
  padc := by
    unfold Directive.champs
    cases d.zero
    · exact .inr rfl
    · exact .inl rfl

theorem printSigned_eq (hv : v.Borne) (hb : 2 ≤ b) (hb' : b ≤ 16) :
    printSigned v b (.entier w :: args) =
      .ok (texteNombre v (signeDe v w) b w.toInt.natAbs, args) := by
  have hlt := w.isLt
  have hint := BitVec.toInt_eq_toNat_cond w
  unfold printSigned signeDe
  simp only [vaArg, bind, Except.bind]
  by_cases hneg : w.toInt < 0
  · have habs : (-w).toNat = w.toInt.natAbs := by
      rw [BitVec.toNat_neg]
      split at hint <;> omega
    rw [if_neg (not_le.mpr hneg), if_pos hneg, printNum_eq hv hb hb', habs]
    rfl
  · have habs : w.toNat = w.toInt.natAbs := by
      split at hint <;> omega
    rw [if_pos (not_lt.mp hneg), if_neg hneg, printNum_eq hv hb hb', habs]

theorem printUnsigned_eq (hv : v.Borne) (hb : 2 ≤ b) (hb' : b ≤ 16) :
    printUnsigned v b (.entier w :: args) = .ok (texteNombre v [] b w.toNat, args) := by
  unfold printUnsigned
  simp only [vaArg, bind, Except.bind]
  rw [printNum_eq hv hb hb']
  rfl

/-- The letters of a number. -/
theorem conversion_baseDe {s : Bool} (h : baseDe radix c = some (b, s)) :
    conversion radix c v args = if s then printSigned v b args else printUnsigned v b args := by
  unfold baseDe at h
  split_ifs at h with h₁ h₂ h₃ h₄ h₅ h₆ h₇
  all_goals
    obtain ⟨rfl, rfl⟩ := Prod.mk.inj (Option.some.inj h)
  · rcases h₁ with rfl | rfl <;> rfl
  · rcases h₂ with rfl | rfl | rfl <;> rfl
  · rcases h₃ with rfl | rfl <;> rfl
  · rcases h₄ with rfl | rfl <;> rfl
  · rcases h₅ with rfl | rfl <;> rfl
  · rcases h₆ with rfl | rfl <;> rfl
  · rcases h₇ with rfl | rfl <;> rfl

theorem lettre_baseDe {s : Bool} (h : baseDe radix c = some (b, s)) : Lettre c := by
  unfold baseDe at h
  split_ifs at h with h₁ h₂ h₃ h₄ h₅ h₆ h₇
  · rcases h₁ with rfl | rfl <;> decide
  · rcases h₂ with rfl | rfl | rfl <;> decide
  · rcases h₃ with rfl | rfl <;> decide
  · rcases h₄ with rfl | rfl <;> decide
  · rcases h₅ with rfl | rfl <;> decide
  · rcases h₆ with rfl | rfl <;> decide
  · rcases h₇ with rfl | rfl <;> decide

/-- The other letters are written as they are. -/
theorem conversion_autre (h : c ∉ Element.connues) (hb : baseDe radix c = none) :
    conversion radix c v args = .ok ([c], args) := by
  unfold baseDe at hb
  split_ifs at hb with h₁ h₂ h₃ h₄ h₅ h₆ h₇
  have hc : c ≠ 98 ∧ c ≠ 66 ∧ c ≠ 99 ∧ c ≠ 115 ∧ c ≠ 112 := by
    simpa [Element.connues] using h
  unfold conversion
  rw [if_neg (by rintro (h | h); exacts [hc.1 h, hc.2.1 h]), if_neg hc.2.2.1, if_neg hc.2.2.2.1,
    if_neg h₁, if_neg h₂, if_neg h₃, if_neg hc.2.2.2.2, if_neg h₄, if_neg h₅, if_neg h₆, if_neg h₇]

-- ---------------------------------------------------------------------------
-- The format
-- ---------------------------------------------------------------------------

/-- A turn of the loop on a conversion. -/
theorem boucle_conversion {l : List UInt8} {args' : List Argument} (n : Nat) (hd : d.Valide) (hc : Lettre c)
    (h : conversion radix c d.champs args' = .ok (l, args)) :
    boucle radix (n + 1) (37 :: (d.texte ++ [c]) ++ fmt) (d.args ++ args') =
      boucle radix n fmt args >>= fun m => .ok (l ++ m) := by
  have hch : champs (d.texte ++ c :: fmt) (d.args ++ args') = .ok (c :: fmt, args', d.champs) :=
    champs_directive hd hc
  rw [List.cons_append, List.append_assoc, boucle, if_neg (by decide), List.singleton_append, hch]
  simp only [bind, Except.bind]
  rw [h]

/-- A turn of the loop writes an element. -/
theorem boucle_element {e : Element} (n : Nat) (he : e.Valide radix) :
    boucle radix (n + 1) (e.texte ++ fmt) (e.args ++ args) =
      boucle radix n fmt args >>= fun m => .ok (e.sens radix ++ m) := by
  cases e with
  | car c =>
    show (if c ≠ 37 then _ else _) = _
    rw [if_pos he.2]
    rfl
  | nombre d c w =>
    obtain ⟨hd, b, s, hbase, hb, hb'⟩ := he
    unfold Element.args
    rw [List.append_assoc]
    refine boucle_conversion n hd (lettre_baseDe hbase) ?_
    rw [conversion_baseDe hbase]
    show _ = Except.ok (Element.sensNombre d.champs w (baseDe radix c), args)
    rw [hbase]
    cases s
    · exact printUnsigned_eq hd.borne hb hb'
    · exact printSigned_eq hd.borne hb hb'
  | pointeur d w =>
    unfold Element.args
    rw [List.append_assoc]
    refine boucle_conversion n he (by decide) ?_
    have hborne : ({ d.champs with padc := 48, length := 8 } : Champs).Borne :=
      ⟨⟨Int.le_of_lt (by decide : (0 : Int) < 8), (by decide : (8 : Int) < 2 ^ 31)⟩, he.borne.prec, .inl rfl⟩
    show printUnsigned { d.champs with padc := 48, length := 8 } 16 (.entier w :: args) >>=
      (fun r => Except.ok (octets "0x" ++ r.1, r.2)) = _
    rw [show (16 : Int) = (16 : Nat) from rfl, printUnsigned_eq hborne (by decide) (by decide)]
    rfl
  | chaine d s =>
    unfold Element.args
    rw [List.append_assoc]
    refine boucle_conversion n he.1 (by decide) ?_
    show Except.ok (printTexte d.champs (s.map texteC), args) = _
    rw [printTexte_eq he.1.borne he.2]
    rfl
  | caractere d w =>
    unfold Element.args
    rw [List.append_assoc]
    exact boucle_conversion n he (by decide) rfl
  | autre d c =>
    obtain ⟨hd, hc, hconnue, hbase⟩ := he
    exact boucle_conversion n hd hc (conversion_autre hconnue hbase)

/-- The loop writes the elements in order; arguments may be left. -/
theorem boucle_elements {es : List Element} (hes : ∀ e ∈ es, e.Valide radix) {n : Nat} (hn : es.length ≤ n)
    (args : List Argument) : boucle radix n (es.flatMap Element.texte) (es.flatMap Element.args ++ args) =
      .ok (es.flatMap (Element.sens radix)) := by
  induction es generalizing n with
  | nil => cases n <;> rfl
  | cons e es ih =>
    cases n with
    | zero => exact absurd hn (Nat.not_succ_le_zero _)
    | succ n =>
      rw [List.flatMap_cons, List.flatMap_cons, List.flatMap_cons, List.append_assoc,
        boucle_element n (hes e List.mem_cons_self),
        ih (fun e' he' => hes e' (List.mem_cons_of_mem _ he')) (Nat.le_of_succ_le_succ hn)]
      rfl

theorem length_le_texte (es : List Element) : es.length ≤ (es.flatMap Element.texte).length := by
  induction es with
  | nil => exact Nat.le_refl 0
  | cons e es ih =>
    have hpos : 0 < e.texte.length := by
      cases e <;> exact Nat.succ_pos _
    rw [List.flatMap_cons, List.length_append, List.length_cons]
    omega

end

end Doprnt

end GenesisOS
