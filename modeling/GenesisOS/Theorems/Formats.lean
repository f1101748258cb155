import GenesisOS.Refinement.Numbers

/-!
# GenesisOS — what a format writes

`_doprnt` writes the elements of a format one after another, and the numbers it writes are
read back by `strtoul`, `strtol` and `atoi`.
-/

namespace GenesisOS

open Lib Doprnt

variable {radix b : Nat} {d : Directive} {c : UInt8} {w : BitVec 32} {es : List Element} {l : List UInt8}

-- ---------------------------------------------------------------------------
-- Formats
-- ---------------------------------------------------------------------------

theorem zero_notMem_mesure (m : Option Mesure) : (0 : UInt8) ∉ (m.map Mesure.texte).getD [] := by
  cases m with
  | none => exact List.not_mem_nil
  | some m =>
    cases m with
    | etoile w => exact fun h => absurd (List.mem_singleton.mp h) (by decide)
    | lue n =>
      intro h
      obtain ⟨e, he, h0⟩ := List.mem_map.mp h
      exact (chiffre_ne (Nat.lt_of_lt_of_le (lt_of_mem_numeral (by decide) he) (by decide))).1 h0

theorem zero_notMem_directive (d : Directive) : (0 : UInt8) ∉ d.texte := by
  have hcar : (0 : UInt8) ∉ d.drapeaux.map Drapeau.car := by
    intro h
    obtain ⟨e, -, h0⟩ := List.mem_map.mp h
    cases e <;> exact absurd h0 (by decide)
  have hzero : (0 : UInt8) ∉ (if d.zero then [48] else []) := by
    cases d.zero <;> decide
  have hlong : (0 : UInt8) ∉ (if d.long then [108] else []) := by
    cases d.long <;> decide
  have hprec : (0 : UInt8) ∉ d.textePrecision := by
    unfold Directive.textePrecision
    cases d.precision with
    | none => exact List.not_mem_nil
    | some p =>
      intro h
      rcases List.mem_cons.mp h with h | h
      · exact absurd h (by decide)
      · exact zero_notMem_mesure p h
  unfold Directive.texte
  simp only [List.mem_append, not_or]
  exact ⟨⟨⟨⟨hcar, hzero⟩, zero_notMem_mesure d.largeur⟩, hprec⟩, hlong⟩

theorem zero_notMem_conversion (d : Directive) (hc : Lettre c) : (0 : UInt8) ∉ 37 :: (d.texte ++ [c]) := by
  obtain ⟨-, -, -, -, -, -, -, -, hnul⟩ := hc
  intro h
  rcases List.mem_cons.mp h with h | h
  · exact absurd h (by decide)
  · rcases List.mem_append.mp h with h | h
    · exact zero_notMem_directive d h
    · exact hnul (List.mem_singleton.mp h).symm

theorem zero_notMem_element {e : Element} (he : e.Valide radix) : (0 : UInt8) ∉ e.texte := by
  cases e with
  | car c => exact fun h => he.1 (List.mem_singleton.mp h).symm
  | nombre d c w =>
    obtain ⟨-, b, s, hb, -⟩ := he
    exact zero_notMem_conversion d (lettre_baseDe hb)
  | pointeur d w => exact zero_notMem_conversion d (by decide)
  | chaine d s => exact zero_notMem_conversion d (by decide)
  | caractere d w => exact zero_notMem_conversion d (by decide)
  | autre d c => exact zero_notMem_conversion d he.2.1

/-- The format made of valid elements, whatever they are, writes what each of them stands for. -/
theorem format_compose (hes : ∀ e ∈ es, e.Valide radix) (args : List Argument) :
    doprnt radix (es.flatMap Element.texte) (es.flatMap Element.args ++ args) =
      .ok (es.flatMap (Element.sens radix)) := by
  have h0 : (0 : UInt8) ∉ es.flatMap Element.texte := by
    intro h
    obtain ⟨e, he, h⟩ := List.mem_flatMap.mp h
    exact zero_notMem_element (hes e he) h
  unfold doprnt
  rw [texteC_eq h0]
  exact boucle_elements hes (length_le_texte es) args

/-- A date, with a comment and a percent sign. -/
theorem format_compose_exemple :
    doprnt 0 (octets "%-5s|%02d%%") [.chaine (some (octets "an")), .entier 7] =
      .ok (octets "an   |07%") := by
  have hes : ∀ e ∈ [Element.chaine { drapeaux := [.moins], largeur := some (.lue 5) } (some (octets "an")),
      .car 124, .nombre { zero := true, largeur := some (.lue 2) } 100 7, .autre {} 37],
      e.Valide 0 := by
    intro e he
    simp only [List.mem_cons, List.not_mem_nil, or_false] at he
    rcases he with rfl | rfl | rfl | rfl
    · exact ⟨Directive.valide_largeur rfl (by decide) (by decide) rfl, by decide⟩
    · exact ⟨by decide, by decide⟩
    · exact ⟨Directive.valide_largeur rfl (by decide) (by decide) rfl, 10, true, rfl, by decide, by decide⟩
    · exact ⟨Directive.valide_vide rfl rfl, by decide, by decide, rfl⟩
  exact format_compose hes []

-- ---------------------------------------------------------------------------
-- Numbers
-- ---------------------------------------------------------------------------

/-- One conversion alone. -/
theorem doprnt_nombre {s : Bool} (hd : d.Valide) (hc : baseDe radix c = some (b, s)) (hb : 2 ≤ b)
    (hb' : b ≤ 16) : doprnt radix (37 :: (d.texte ++ [c])) (d.args ++ [.entier w]) =
      .ok (Element.sensNombre d.champs w (some (b, s))) := by
  have he : (Element.nombre d c w).Valide radix := ⟨hd, b, s, hc, hb, hb'⟩
  have hes : ∀ e ∈ [Element.nombre d c w], e.Valide radix := by
    intro e h
    rw [List.mem_singleton.mp h]
    exact he
  have h := boucle_elements hes (length_le_texte _) []
  have h0 : (0 : UInt8) ∉ 37 :: (d.texte ++ [c]) := zero_notMem_element he
  rw [List.flatMap_singleton, List.flatMap_singleton, List.flatMap_singleton, List.append_nil] at h
  unfold doprnt
  rw [texteC_eq h0]
  refine h.trans ?_
  show Except.ok (Element.sensNombre d.champs w (baseDe radix c)) = _
  rw [hc]

/-- An unsigned number is never cut by its field, and `strtoul` reads it back, in its base or,
in the alternate format, in the base that the text tells. -/
theorem naturel_relu (hd : d.Valide) (hc : baseDe radix c = some (b, false)) (hb : 2 ≤ b) (hb' : b ≤ 16) :
    ∃ l, doprnt radix (37 :: (d.texte ++ [c])) (d.args ++ [.entier w]) = .ok l ∧
      l.length = max d.champs.length.toNat ((prefixe d.champs b w.toNat).length +
        max d.champs.prec.toNat (ecrit b w.toNat).length) ∧
      (strtoul l b).1 = w ∧ (∀ x ∈ (strtoul l b).2, x = 32) ∧
      (.diese ∈ d.drapeaux → b = 8 ∨ b = 16 → (strtoul l 0).1 = w) := by
  refine ⟨_, doprnt_nombre hd hc hb hb', ?_, ?_⟩
  · show (texteNombre _ _ _ _).length = _
    rw [length_texteNombre, List.length_nil, Nat.zero_add]
  · obtain ⟨i, z, j, he⟩ := texteNombre_forme d.champs [] b w.toNat
    have h0 := zero_notMem_texte d.champs hb hb' (List.not_mem_nil : (0 : UInt8) ∉ []) i z w.toNat j
    obtain ⟨x, r, hx, hspace, -⟩ := debut_texte d.champs hb hb' z w.toNat (List.replicate j 32)
    show (strtoul (texteNombre d.champs [] b w.toNat) b).1 = w ∧ _
    rw [List.nil_append, hx] at he h0
    have hlu : strtoul (texteNombre d.champs [] b w.toNat) b =
        (BitVec.ofNat 32 w.toNat, List.replicate j 32) := by
      rw [he, strtoul_blancs hspace i h0, ← hx, litNombre_texte hb hb']
    have hw : BitVec.ofNat 32 w.toNat = w := by
      rw [BitVec.ofNat_toNat, BitVec.setWidth_eq]
    refine ⟨?_, ?_, ?_⟩
    · rw [hlu, hw]
    · intro y hy
      rw [show Element.sensNombre d.champs w (some (b, false)) = texteNombre d.champs [] b w.toNat from rfl,
        hlu] at hy
      exact List.eq_of_mem_replicate hy
    · intro hdiese hbase
      show (strtoul (texteNombre d.champs [] b w.toNat) 0).1 = w
      rw [he, strtoul_blancs hspace i h0, ← hx, litNombre_zero hbase (decide_eq_true hdiese), hw]

/-- Hexadecimal with its prefix, in a field of twelve cells. -/
theorem naturel_relu_exemple : ∃ l, doprnt 0 (octets "%#12x") [.entier 0xbeef] = .ok l ∧ l.length = 12 ∧
    (strtoul l 16).1 = 0xbeef ∧ (strtoul l 0).1 = 0xbeef := by
  obtain ⟨l, hl, hlen, hlu, -, hzero⟩ := naturel_relu (w := 0xbeef)
    (d := { drapeaux := [.diese], largeur := some (.lue 12) })
    (Directive.valide_largeur rfl (by decide) (by decide) rfl)
    (rfl : baseDe 0 120 = some (16, false)) (by decide) (by decide)
  refine ⟨l, hl, hlen, hlu, hzero (by decide) (.inr rfl)⟩

/-- The sign that a signed conversion writes. -/
theorem signe_cas (d : Directive) (w : BitVec 32) : (w.toInt < 0 ∧ signeDe d.champs w = [45]) ∨
    (0 ≤ w.toInt ∧ .plus ∈ d.drapeaux ∧ signeDe d.champs w = [43]) ∨
    (0 ≤ w.toInt ∧ .plus ∉ d.drapeaux ∧ (signeDe d.champs w = [] ∨ signeDe d.champs w = [32])) := by
  unfold signeDe
  by_cases hneg : w.toInt < 0
  · exact .inl ⟨hneg, if_pos hneg⟩
  · rw [if_neg hneg]
    have hplus : d.champs.plusSign =
        if .plus ∈ d.drapeaux then 43 else if .blanc ∈ d.drapeaux then 32 else 0 := rfl
    by_cases hp : .plus ∈ d.drapeaux
    · refine .inr (.inl ⟨not_lt.mp hneg, hp, ?_⟩)
      rw [hplus, if_pos hp]
      rfl
    · refine .inr (.inr ⟨not_lt.mp hneg, hp, ?_⟩)
      rw [hplus, if_neg hp]
      by_cases hb : .blanc ∈ d.drapeaux
      · rw [if_pos hb]
        exact .inr rfl
      · rw [if_neg hb]
        exact .inl rfl

theorem zero_notMem_signe (d : Directive) (w : BitVec 32) : (0 : UInt8) ∉ signeDe d.champs w := by
  rcases signe_cas d w with ⟨-, h⟩ | ⟨-, -, h⟩ | ⟨-, -, h | h⟩
  all_goals
    rw [h]
    decide

/-- A signed number is never cut by its field, and `strtol` reads it back, but for a `+`: `strtol`
stops on it and gives zero. -/
theorem entier_relu (hd : d.Valide) (hc : baseDe radix c = some (b, true)) (hb : 2 ≤ b) (hb' : b ≤ 16) :
    ∃ l, doprnt radix (37 :: (d.texte ++ [c])) (d.args ++ [.entier w]) = .ok l ∧
      l.length = max d.champs.length.toNat ((signeDe d.champs w).length +
        (prefixe d.champs b w.toInt.natAbs).length +
        max d.champs.prec.toNat (ecrit b w.toInt.natAbs).length) ∧
      (.plus ∉ d.drapeaux ∨ w.toInt < 0 → (strtol l b).1 = w ∧ ∀ x ∈ (strtol l b).2, x = 32) ∧
      (.plus ∈ d.drapeaux → 0 ≤ w.toInt → strtol l b = (0, l.dropWhile isspace)) := by
  refine ⟨_, doprnt_nombre hd hc hb hb', length_texteNombre _ _ _ _, ?_⟩
  obtain ⟨i, z, j, he⟩ := texteNombre_forme d.champs (signeDe d.champs w) b w.toInt.natAbs
  have h0 := zero_notMem_texte d.champs hb hb' (zero_notMem_signe d w) i z w.toInt.natAbs j
  obtain ⟨x, r, hx, hspace, h45⟩ := debut_texte d.champs hb hb' z w.toInt.natAbs (List.replicate j 32)
  show (_ → (strtol (texteNombre d.champs (signeDe d.champs w) b w.toInt.natAbs) b).1 = w ∧
    ∀ y ∈ (strtol (texteNombre d.champs (signeDe d.champs w) b w.toInt.natAbs) b).2, y = 32) ∧
    (_ → _ → strtol (texteNombre d.champs (signeDe d.champs w) b w.toInt.natAbs) b =
      (0, (texteNombre d.champs (signeDe d.champs w) b w.toInt.natAbs).dropWhile isspace))
  rw [he]
  have blancs : ∀ y ∈ List.replicate j (32 : UInt8), y = 32 := fun _ => List.eq_of_mem_replicate
  rcases signe_cas d w with ⟨hneg, hs⟩ | ⟨hpos, hplus, hs⟩ | ⟨hpos, hplus, hs | hs⟩
  · rw [hs, List.singleton_append] at h0 ⊢
    rw [strtol_moins i h0, litNombre_texte hb hb']
    exact ⟨fun _ => ⟨neg_ofNat_natAbs hneg, blancs⟩, fun _ h => absurd hneg (not_lt.mpr h)⟩
  · rw [hs, List.singleton_append] at h0 ⊢
    rw [strtol_blancs (by decide) (by decide) i h0, litNombre_plus, dropWhile_blancs (by decide)]
    refine ⟨fun h => ?_, fun _ _ => rfl⟩
    rcases h with h | h
    · exact absurd hplus h
    · exact absurd h (not_lt.mpr hpos)
  · rw [hs, List.nil_append, hx] at h0 ⊢
    rw [strtol_blancs hspace h45 i h0, ← hx, litNombre_texte hb hb']
    exact ⟨fun _ => ⟨ofNat_toNat_natAbs hpos, blancs⟩, fun h => absurd h hplus⟩
  · -- the blank of the sign is one more blank
    have hun : ∀ l : List UInt8, List.replicate i 32 ++ ([32] ++ l) = List.replicate (i + 1) 32 ++ l := by
      intro l
      rw [List.replicate_succ', List.append_assoc]
    rw [hs, hun, hx] at h0 ⊢
    rw [strtol_blancs hspace h45 (i + 1) h0, ← hx, litNombre_texte hb hb']
    exact ⟨fun _ => ⟨ofNat_toNat_natAbs hpos, blancs⟩, fun h => absurd h hplus⟩

/-- A negative number on six cells, zeros after its sign. -/
theorem entier_relu_exemple : ∃ l, doprnt 0 (octets "%06d") [.entier (-42)] = .ok l ∧ l.length = 6 ∧
    (strtol l 10).1 = -42 := by
  obtain ⟨l, hl, hlen, hlu, -⟩ := entier_relu (w := -42) (d := { zero := true, largeur := some (.lue 6) })
    (Directive.valide_largeur rfl (by decide) (by decide) rfl)
    (rfl : baseDe 0 100 = some (10, true)) (by decide) (by decide)
  exact ⟨l, hl, hlen, (hlu (.inr (by decide))).1⟩

theorem atoi_autre {x : UInt8} (h0 : (0 : UInt8) ∉ l) (hx : x ∈ l) (h : x = 32 ∨ x = 43) : atoi l = 0 := by
  have hlt : x < 48 ∨ x > 57 := by
    rcases h with rfl | rfl
    · exact .inl (by decide)
    · exact .inl (by decide)
  unfold atoi
  simp only [texteC_eq h0]
  split
  · rename_i hhead
    cases l with
    | nil => cases hx
    | cons y r =>
      obtain rfl : y = 45 := Option.some.inj hhead
      rcases List.mem_cons.mp hx with rfl | hx
      · exact absurd h (by decide)
      · exact atoiBoucle_autre ⟨x, hx, hlt⟩ 0
  · exact atoiBoucle_autre ⟨x, hx, hlt⟩ 0

/-- `atoi` reads a decimal number back when its field holds neither a blank nor a `+`, and gives
zero otherwise. -/
theorem decimal_relu (hd : d.Valide) (hc : baseDe radix c = some (10, true)) :
    ∃ l, doprnt radix (37 :: (d.texte ++ [c])) (d.args ++ [.entier w]) = .ok l ∧
      ((∀ x ∈ l, x ≠ 32 ∧ x ≠ 43) → atoi l = w) ∧ ∀ x ∈ l, x = 32 ∨ x = 43 → atoi l = 0 := by
  refine ⟨_, doprnt_nombre hd hc (by decide) (by decide), ?_⟩
  obtain ⟨i, z, j, he⟩ := texteNombre_forme d.champs (signeDe d.champs w) 10 w.toInt.natAbs
  have h0 := zero_notMem_texte d.champs (b := 10) (by decide) (by decide) (zero_notMem_signe d w) i z
    w.toInt.natAbs j
  show ((∀ x ∈ texteNombre d.champs (signeDe d.champs w) 10 w.toInt.natAbs, x ≠ 32 ∧ x ≠ 43) →
      atoi (texteNombre d.champs (signeDe d.champs w) 10 w.toInt.natAbs) = w) ∧
    ∀ x ∈ texteNombre d.champs (signeDe d.champs w) 10 w.toInt.natAbs, x = 32 ∨ x = 43 →
      atoi (texteNombre d.champs (signeDe d.champs w) 10 w.toInt.natAbs) = 0
  rw [he]
  refine ⟨fun hnet => ?_, fun x hx h => atoi_autre h0 hx h⟩
  have rien : ∀ {k : Nat}, (∀ x ∈ List.replicate k (32 : UInt8), x ≠ 32) → k = 0 := by
    intro k hk
    cases k with
    | zero => rfl
    | succ k => exact absurd rfl (hk 32 List.mem_cons_self)
  have hi : i = 0 := rien fun x hx => (hnet x (List.mem_append_left _ hx)).1
  have hj : j = 0 := rien fun x hx => (hnet x (by simp only [List.mem_append]; tauto)).1
  have hp : prefixe d.champs 10 w.toInt.natAbs = [] := by
    rcases prefixe_cas d.champs 10 w.toInt.natAbs with h | ⟨h, -⟩ | ⟨h, -⟩
    · exact h
    · exact absurd h (by decide)
    · exact absurd h (by decide)
  rw [hi, hj, hp] at h0 hnet ⊢
  simp only [List.replicate_zero, List.nil_append, List.append_nil] at h0 hnet ⊢
  rcases signe_cas d w with ⟨hneg, hs⟩ | ⟨-, -, hs⟩ | ⟨hpos, -, hs | hs⟩
  · rw [hs, List.singleton_append] at h0 ⊢
    unfold atoi
    simp only [texteC_eq h0, List.head?_cons, if_true, List.tail_cons]
    rw [atoiBoucle_caracteres, neg_one_mul]
    exact neg_ofNat_natAbs hneg
  · exact absurd rfl (hnet 43 (List.mem_append_left _ (hs ▸ List.mem_cons_self))).2
  · rw [hs, List.nil_append] at h0 ⊢
    have h45 : ¬ (caracteres 10 z w.toInt.natAbs).head? = some 45 := by
      obtain ⟨e, hlt, r, hcons⟩ := caracteres_cons 10 z w.toInt.natAbs (by decide)
      rw [hcons]
      exact fun h => (chiffre_ne (Nat.lt_of_lt_of_le hlt (by decide))).2.2.1 (Option.some.inj h)
    unfold atoi
    simp only [texteC_eq h0, if_neg h45]
    rw [atoiBoucle_caracteres, one_mul]
    exact ofNat_toNat_natAbs hpos
  · exact absurd rfl (hnet 32 (List.mem_append_left _ (hs ▸ List.mem_cons_self))).1

/-- The smallest integer. -/
theorem decimal_relu_exemple : ∃ l, doprnt 0 (octets "%d") [.entier 0x80000000] = .ok l ∧
    ((∀ x ∈ l, x ≠ 32 ∧ x ≠ 43) → atoi l = 0x80000000) := by
  obtain ⟨l, hl, hnet, -⟩ := decimal_relu (d := {}) (w := 0x80000000) (Directive.valide_vide rfl rfl)
    (rfl : baseDe 0 100 = some (10, true))
  exact ⟨l, hl, hnet⟩

end GenesisOS
