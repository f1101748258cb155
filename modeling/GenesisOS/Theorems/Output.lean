import GenesisOS.Lib.CStrings
import GenesisOS.Theorems.Formats

/-!
# GenesisOS — where formatted text goes

`vsnprintf` stores one string, `vprintf` gives its characters to the console in order, and the
texts of the kernel's model are those of its formats.
-/

namespace GenesisOS

open Lib Doprnt

variable {l : List UInt8}

-- ---------------------------------------------------------------------------
-- In memory
-- ---------------------------------------------------------------------------

/-- How many of `n` more characters `savechar` takes. -/
def retenus (state : SprintfState) (n : Nat) : Nat :=
  if state.max = SPRINTF_UNLIMITED then n else min n (state.max - state.len)

/-- What `savechar` leaves when it stores the character. -/
def poseCar (state : SprintfState) (c : UInt8) : SprintfState :=
  { state with
    len := state.len + 1
    mem := Function.update state.mem state.buf c
    buf := state.buf + 1 }

theorem savechar_poseCar {state : SprintfState} (c : UInt8)
    (h : ¬(state.max ≠ SPRINTF_UNLIMITED ∧ state.len = state.max)) (hlt : state.len + 1 < 2 ^ 32) :
    savechar state c = poseCar state c := by
  unfold savechar
  rw [if_neg h, Nat.mod_eq_of_lt hlt]
  rfl

theorem retenus_zero (state : SprintfState) : retenus state 0 = 0 := by
  unfold retenus
  rw [Nat.zero_min, ite_self]

theorem retenus_plein {state : SprintfState} (h : state.max ≠ SPRINTF_UNLIMITED ∧ state.len = state.max)
    (n : Nat) : retenus state n = 0 := by
  unfold retenus
  rw [if_neg h.1, h.2, Nat.sub_self, Nat.min_zero]

theorem retenus_succ {state : SprintfState} (c : UInt8)
    (h : ¬(state.max ≠ SPRINTF_UNLIMITED ∧ state.len = state.max))
    (hmax : state.max ≠ SPRINTF_UNLIMITED → state.len ≤ state.max) (n : Nat) :
    retenus state (n + 1) = retenus (poseCar state c) n + 1 := by
  unfold retenus
  by_cases hu : state.max = SPRINTF_UNLIMITED
  · rw [if_pos hu, if_pos (show (poseCar state c).max = SPRINTF_UNLIMITED from hu)]
  · have hle := hmax hu
    have hne : state.len ≠ state.max := fun heq => h ⟨hu, heq⟩
    rw [if_neg hu, if_neg (show ¬(poseCar state c).max = SPRINTF_UNLIMITED from hu)]
    show min (n + 1) (state.max - state.len) = min n (state.max - (state.len + 1)) + 1
    omega

/-- `savechar` stores the characters in order, up to the size. -/
theorem foldl_savechar (state : SprintfState) {s : SprintfState} (l : List UInt8)
    (hmax : state.max ≠ SPRINTF_UNLIMITED → state.len ≤ state.max) (hlt : state.len + l.length < 2 ^ 32)
    (hs : l.foldl savechar state = s) :
    s.buf = state.buf + retenus state l.length ∧ s.len = state.len + retenus state l.length ∧
    (∀ i < retenus state l.length, l[i]? = some (s.mem (state.buf + i))) ∧
    ∀ a, a < state.buf ∨ state.buf + retenus state l.length ≤ a → s.mem a = state.mem a := by
  induction l generalizing state with
  | nil =>
    obtain rfl : state = s := hs
    rw [List.length_nil, retenus_zero]
    exact ⟨rfl, rfl, fun i h => absurd h (Nat.not_lt_zero i), fun _ _ => rfl⟩
  | cons c l ih =>
    rw [List.length_cons] at hlt ⊢
    rw [List.foldl_cons] at hs
    by_cases hstop : state.max ≠ SPRINTF_UNLIMITED ∧ state.len = state.max
    · -- the size is reached, and the character is dropped
      have hc : savechar state c = state := if_pos hstop
      rw [hc] at hs
      obtain ⟨h₁, h₂, -, h₄⟩ := ih state hmax (by omega) hs
      rw [retenus_plein hstop] at h₁ h₂ h₄ ⊢
      exact ⟨h₁, h₂, fun i h => absurd h (Nat.not_lt_zero i), h₄⟩
    · have hmax' : (poseCar state c).max ≠ SPRINTF_UNLIMITED → (poseCar state c).len ≤ (poseCar state c).max := by
        intro hu
        have hle := hmax hu
        have hne : state.len ≠ state.max := fun h => hstop ⟨hu, h⟩
        show state.len + 1 ≤ state.max
        omega
      have hlt' : (poseCar state c).len + l.length < 2 ^ 32 := by
        show state.len + 1 + l.length < 2 ^ 32
        omega
      rw [savechar_poseCar c hstop (by omega)] at hs
      obtain ⟨h₁, h₂, h₃, h₄⟩ := ih _ hmax' hlt' hs
      rw [retenus_succ c hstop hmax]
      generalize retenus _ l.length = k at h₁ h₂ h₃ h₄ ⊢
      dsimp only [poseCar] at h₁ h₂ h₃ h₄
      refine ⟨by omega, by omega, ?_, ?_⟩
      · intro i hi
        cases i with
        | zero =>
          rw [Nat.add_zero, h₄ _ (.inl (Nat.lt_succ_self _)), Function.update_self]
          rfl
        | succ i =>
          have hadr : state.buf + (i + 1) = state.buf + 1 + i := by omega
          rw [hadr, ← h₃ i (Nat.lt_of_succ_lt_succ hi)]
          rfl
      · intro a ha
        rw [h₄ a (by omega), Function.update_of_ne (by omega)]

/-- `vsnprintf` stores one string, its null character included, and touches nothing else. The
string is cut at `size` characters, so that a text of `size` characters or more takes one byte
more than the size it is given. -/
theorem vsnprintf_chaine {fmt : List UInt8} {args : List Argument} (s size : Nat) (mem : Nat → UInt8)
    (hl : doprnt 0 fmt args = .ok l) (hlen : l.length < 2 ^ 32) (h0 : (0 : UInt8) ∉ l) :
    ∃ n mem', vsnprintf s size fmt args mem = .ok (n, mem') ∧
      n = (if size = SPRINTF_UNLIMITED then l.length else min l.length size) ∧
      CString 0 mem' s (l.take n) ∧ (∀ a, a < s ∨ s + n < a → mem' a = mem a) ∧
      (size ≠ SPRINTF_UNLIMITED → size ≤ l.length → mem' (s + size) = 0) := by
  obtain ⟨h₁, h₂, h₃, h₄⟩ := foldl_savechar { mem := mem, buf := s, max := size } l
    (fun _ => Nat.zero_le _) (by show 0 + l.length < 2 ^ 32; omega) rfl
  generalize hs : l.foldl savechar { mem := mem, buf := s, max := size } = state at h₁ h₂ h₃ h₄
  generalize hn : retenus { mem := mem, buf := s, max := size } l.length = n at h₁ h₂ h₃ h₄
  dsimp only at h₁ h₂ h₃ h₄
  have hval : n = if size = SPRINTF_UNLIMITED then l.length else min l.length size := hn.symm
  have hle : n ≤ l.length := by
    rw [hval]
    split
    · exact Nat.le_refl _
    · exact Nat.min_le_left _ _
  have hrun : vsnprintf s size fmt args mem = .ok (n, Function.update state.mem (s + n) 0) := by
    unfold vsnprintf
    simp only [hl, bind, Except.bind]
    rw [hs, h₁, h₂, Nat.zero_add]
  have htake : (l.take n).length = n := by
    rw [List.length_take, Nat.min_eq_left hle]
  have hfin : Function.update state.mem (s + n) 0 (s + n) = 0 := Function.update_self _ _ _
  refine ⟨n, _, hrun, hval, ⟨?_, fun h => h0 (List.mem_of_mem_take h), ?_⟩, ?_, ?_⟩
  · intro i hi
    have hin : i < n := htake ▸ hi
    have hget := h₃ i hin
    rw [List.getElem?_eq_getElem (Nat.lt_of_lt_of_le hin hle), Option.some_inj] at hget
    rw [Function.update_of_ne (by omega), List.getElem_take, hget]
  · rw [htake]
    exact hfin
  · intro a ha
    rw [Function.update_of_ne (by omega), h₄ a (by omega)]
  · intro hu hsize
    have : n = size := by
      rw [hval, if_neg hu, Nat.min_eq_right hsize]
    rw [← this]
    exact hfin

/-- A text of five characters given three: four bytes are written. -/
theorem vsnprintf_chaine_exemple : ∃ n mem', vsnprintf 100 3 (octets "abcde") [] (fun _ => 1) = .ok (n, mem') ∧
    n = 3 ∧ mem' 103 = 0 := by
  obtain ⟨n, mem', h, hn, -, -, hfin⟩ := vsnprintf_chaine 100 3 (fun _ => 1)
    (rfl : doprnt 0 (octets "abcde") [] = .ok (octets "abcde")) (by decide) (by decide)
  exact ⟨n, mem', h, hn, hfin (by decide) (by decide)⟩

-- ---------------------------------------------------------------------------
-- On the console
-- ---------------------------------------------------------------------------

/-- What `printf_char` keeps: the characters so far, and a buffer that fits, within one line. -/
structure Tamponne (l : List UInt8) (state : PrintfState) : Prop where
  texte : state.blocs.flatten ++ state.buf = l
  blocs : ∀ m ∈ state.blocs, m.length ≤ PRINTF_BUFMAX ∧ (10 ∈ m → m = [10])
  buf : state.buf.length ≤ PRINTF_BUFMAX
  ligne : (10 : UInt8) ∉ state.buf

theorem Tamponne.flush {state : PrintfState} (h : Tamponne l state) : Tamponne l state.flush where
  texte := by
    unfold PrintfState.flush
    rw [List.flatten_append, List.flatten_singleton, List.append_nil]
    exact h.texte
  blocs := by
    intro m hm
    rcases List.mem_append.mp hm with hm | hm
    · exact h.blocs m hm
    · rw [List.mem_singleton.mp hm]
      exact ⟨h.buf, fun h10 => absurd h10 h.ligne⟩
  buf := Nat.zero_le _
  ligne := List.not_mem_nil

theorem Tamponne.printfChar {state : PrintfState} (h : Tamponne l state) (c : UInt8) :
    Tamponne (l ++ [c]) (printfChar state c) := by
  unfold GenesisOS.printfChar
  split
  · -- the buffer goes first, then the character alone
    have hf := h.flush
    have hbuf : state.flush.buf = [] := rfl
    refine ⟨?_, ?_, Nat.zero_le _, List.not_mem_nil⟩
    · have ht := hf.texte
      rw [hbuf, List.append_nil] at ht
      show (state.flush.blocs ++ [[c]]).flatten ++ [] = _
      rw [List.flatten_append, List.flatten_singleton, List.append_nil, ht]
    · intro m hm
      rcases List.mem_append.mp hm with hm | hm
      · exact hf.blocs m hm
      · rw [List.mem_singleton.mp hm]
        refine ⟨(by decide : 1 ≤ 128), fun h10 => ?_⟩
        rw [List.mem_singleton.mp h10]
  · rename_i hc
    rw [not_or, not_or] at hc
    refine ⟨?_, h.blocs, ?_, ?_⟩
    · rw [← h.texte, List.append_assoc]
    · rw [List.length_append, List.length_singleton]
      omega
    · intro h10
      rcases List.mem_append.mp h10 with h10 | h10
      · exact h.ligne h10
      · exact hc.2.1 (List.mem_singleton.mp h10).symm

theorem tamponne_foldl (l : List UInt8) : Tamponne l (l.foldl printfChar {}) := by
  induction l using List.reverseRecOn with
  | nil => exact ⟨rfl, fun m hm => absurd hm List.not_mem_nil, Nat.zero_le _, List.not_mem_nil⟩
  | append_singleton l c ih =>
    rw [List.foldl_append, List.foldl_cons, List.foldl_nil]
    exact ih.printfChar c

theorem forM_printf (blocs : List (List UInt8)) : blocs.forM printf = printf blocs.flatten := by
  induction blocs with
  | nil => rfl
  | cons m blocs ih =>
    show (printf m >>= fun _ => blocs.forM printf) = printf (m :: blocs).flatten
    rw [ih, List.flatten_cons]
    exact List.forM_append.symm

/-- `vprintf` gives `console_putbytes` the characters of the text in order, in blocks of at most
128 that end with a line, so that the console is left as after each of them alone. -/
theorem vprintf_blocs {fmt : List UInt8} {args : List Argument} (hl : doprnt 0 fmt args = .ok l) :
    ∃ blocs, vprintf fmt args = .ok blocs ∧ blocs.flatten = l ∧
      (∀ m ∈ blocs, m.length ≤ PRINTF_BUFMAX ∧ (10 ∈ m → m = [10])) ∧
      blocs.forM printf = printf l := by
  have h := tamponne_foldl l
  have key : ∃ blocs, vprintf fmt args = .ok blocs ∧ blocs.flatten = l ∧
      ∀ m ∈ blocs, m.length ≤ PRINTF_BUFMAX ∧ (10 ∈ m → m = [10]) := by
    by_cases hb : (l.foldl printfChar {}).buf = []
    · refine ⟨(l.foldl printfChar {}).blocs, ?_, ?_, h.blocs⟩
      · unfold vprintf
        simp only [hl, bind, Except.bind]
        rw [if_neg (not_not.mpr hb)]
      · have ht := h.texte
        rwa [hb, List.append_nil] at ht
    · refine ⟨(l.foldl printfChar {}).flush.blocs, ?_, ?_, h.flush.blocs⟩
      · unfold vprintf
        simp only [hl, bind, Except.bind]
        rw [if_pos hb]
      · have ht := h.flush.texte
        rwa [show (l.foldl printfChar {}).flush.buf = [] from rfl, List.append_nil] at ht
  obtain ⟨blocs, hv, hf, hm⟩ := key
  refine ⟨blocs, hv, hf, hm, ?_⟩
  rw [forM_printf, hf]

/-- Two lines. -/
theorem vprintf_blocs_exemple : ∃ blocs, vprintf (octets "a\nb") [] = .ok blocs ∧
    blocs.flatten = octets "a\nb" := by
  obtain ⟨blocs, h, hf, -⟩ := vprintf_blocs (rfl : doprnt 0 (octets "a\nb") [] = .ok (octets "a\nb"))
  exact ⟨blocs, h, hf⟩

-- ---------------------------------------------------------------------------
-- The texts of the kernel
-- ---------------------------------------------------------------------------

theorem octets_toDigits (n : Nat) :
    (Nat.toDigits 10 n).map (fun c => UInt8.ofNat c.toNat) = ecrit 10 n := by
  have key : ∀ d < 10, UInt8.ofNat (Nat.digitChar d).toNat = chiffre d := by decide
  unfold ecrit
  induction n using Nat.strongRecOn with
  | ind n ih =>
    by_cases h : n < 10
    · rw [Nat.toDigits_of_lt_base h, numeral_of_lt h, List.map_singleton, List.map_singleton, key n h]
    · have hle : 10 ≤ n := Nat.le_of_not_lt h
      rw [Nat.toDigits_of_base_le (by decide) hle, numeral_of_le (by decide) hle, List.map_append,
        List.map_append, ih (n / 10) (Nat.div_lt_self (by omega) (by decide)), List.map_singleton,
        List.map_singleton, key _ (Nat.mod_lt n (by decide))]

theorem octets_repr (n : Nat) : octets (Nat.repr n) = ecrit 10 n := by
  unfold octets Nat.repr
  rw [String.toList_ofList]
  exact octets_toDigits n

/-- The digits of an integer, after its sign. -/
theorem decimal_eq (n : Int) : decimal n = (if n < 0 then [45] else []) ++ ecrit 10 n.natAbs := by
  cases n with
  | ofNat n =>
    show decimal (n : Int) = (if (n : Int) < 0 then [45] else []) ++ ecrit 10 n
    rw [if_neg (not_lt.mpr (Int.natCast_nonneg n))]
    exact octets_repr n
  | negSucc n =>
    rw [if_pos (Int.negSucc_lt_zero n)]
    show octets ("-" ++ Nat.repr (n + 1)) = [45] ++ ecrit 10 (n + 1)
    rw [← octets_repr]
    unfold octets
    rw [String.toList_append, List.map_append]
    rfl

theorem decimal2_eq (n : Nat) :
    decimal2 n = List.replicate (2 - (ecrit 10 n).length) 48 ++ ecrit 10 n := by
  have hd : decimal n = ecrit 10 n := by
    rw [decimal_eq, if_neg (not_lt.mpr (Int.natCast_nonneg n))]
    rfl
  unfold decimal2
  rw [hd]
  split
  · rename_i h
    unfold ecrit
    rw [numeral_of_lt h]
    rfl
  · rename_i h
    have hlen : 2 ≤ (ecrit 10 n).length := by
      unfold ecrit
      rw [numeral_of_le (by decide) (Nat.le_of_not_lt h), List.length_map, List.length_append]
      exact Nat.succ_le_succ (length_numeral_pos 10 _)
    rw [Nat.sub_eq_zero_of_le hlen]
    rfl

theorem length_decimal2_le {n : Nat} (h : n < 2 ^ 31) : (decimal2 n).length ≤ 10 := by
  have hle : (ecrit 10 n).length ≤ 10 := by
    unfold ecrit
    rw [List.length_map]
    exact length_numeral_le (by decide) (by decide) (Nat.lt_trans h (by decide))
  rw [decimal2_eq, List.length_append, List.length_replicate]
  omega

/-- Without a precision nor the alternate format. -/
theorem texteNombre_simple {v : Champs} (hp : v.prec = -1) (ha : v.altfmt = false)
    (b u : Nat) : prefixe v b u = [] ∧ corps v b u = ecrit b u := by
  have h0 : (v.prec - ((ecrit b u).length : Int)).toNat = 0 := by
    rw [hp]
    omega
  refine ⟨if_neg fun h => ?_, ?_⟩
  · rw [ha] at h
    exact Bool.false_ne_true h.2
  · unfold corps
    rw [h0]
    rfl

/-- The fields of `%02ld`. -/
def deuxChiffres : Directive := { zero := true, largeur := some (.lue 2), long := true }

theorem sens_deuxChiffres {n : Nat} (h : n < 2 ^ 31) :
    Element.sens 0 (.nombre deuxChiffres 100 (BitVec.ofNat 32 n)) = decimal2 n := by
  have hint : (BitVec.ofNat 32 n).toInt = n := by
    rw [BitVec.toInt_ofNat']
    exact Int.bmod_eq_of_le (by omega) (by omega)
  have hs : signeDe deuxChiffres.champs (BitVec.ofNat 32 n) = [] := by
    unfold signeDe
    rw [hint, if_neg (not_lt.mpr (Int.natCast_nonneg n))]
    rfl
  obtain ⟨hp, hc⟩ := texteNombre_simple (v := deuxChiffres.champs) rfl rfl 10 n
  show texteNombre deuxChiffres.champs (signeDe deuxChiffres.champs (BitVec.ofNat 32 n)) 10
    (BitVec.ofNat 32 n).toInt.natAbs = decimal2 n
  rw [hs, hint, Int.natAbs_natCast, decimal2_eq]
  unfold texteNombre
  simp only [hp, hc]
  rw [if_pos (show deuxChiffres.champs.padc = 48 from rfl), List.nil_append, List.nil_append]
  congr 2
  show ((2 : Int) - ((ecrit 10 n).length : Nat)).toNat = _
  omega

/-- `%i` writes the digits of the integer, after its sign. -/
theorem doprnt_decimal {n : Int} (hn : -2 ^ 31 ≤ n) (hn' : n < 2 ^ 31) :
    doprnt 0 (octets "%i") [.entier (BitVec.ofInt 32 n)] = .ok (decimal n) := by
  have hint : (BitVec.ofInt 32 n).toInt = n := by
    rw [BitVec.toInt_ofInt]
    exact Int.bmod_eq_of_le (by omega) (by omega)
  have hd : ({} : Directive).Valide := Directive.valide_vide rfl rfl
  have hdo := doprnt_nombre (w := BitVec.ofInt 32 n) hd (rfl : baseDe 0 105 = some (10, true))
    (by decide) (by decide)
  refine hdo.trans ?_
  obtain ⟨hp, hc⟩ := texteNombre_simple (v := ({} : Directive).champs) rfl rfl 10 n.natAbs
  have hs : signeDe ({} : Directive).champs (BitVec.ofInt 32 n) = if n < 0 then [45] else [] := by
    unfold signeDe
    rw [hint]
    rfl
  show Except.ok (texteNombre ({} : Directive).champs (signeDe ({} : Directive).champs (BitVec.ofInt 32 n)) 10
    (BitVec.ofInt 32 n).toInt.natAbs) = _
  rw [hs, hint, decimal_eq]
  unfold texteNombre
  simp only [hp, hc]
  have h0 : (({} : Directive).champs.length - (((if n < 0 then [45] else []) ++ ([] : List UInt8) ++
      ecrit 10 n.natAbs).length : Int)).toNat = 0 := by
    show (0 - (_ : Int)).toNat = 0
    omega
  rw [h0]
  simp [Directive.champs]

/-- `%s` writes the string. -/
theorem doprnt_texte {t : List UInt8} (ht : (0 : UInt8) ∉ t) (hlen : t.length + 1 < 2 ^ 31) :
    doprnt 0 (octets "%s") [.chaine (some t)] = .ok t := by
  have he : ∀ e ∈ [Element.chaine {} (some t)], e.Valide 0 := by
    intro e he
    rw [List.mem_singleton.mp he]
    refine ⟨Directive.valide_vide rfl rfl, ?_⟩
    show (texteC t).length + 1 < 2 ^ 31
    rw [texteC_eq ht]
    exact hlen
  refine (boucle_elements he (length_le_texte _) []).trans ?_
  show Except.ok (texteChaine ({} : Directive).champs (texteC t) ++ []) = _
  rw [texteC_eq ht, List.append_nil]
  simp [texteChaine, gardes, Directive.champs]

/-- The format of the clock. -/
theorem doprnt_horloge {h m s : Nat} (hh : h < 2 ^ 31) (hm : m < 2 ^ 31) (hs : s < 2 ^ 31) :
    doprnt 0 (octets "%02ld:%02ld:%02ld") [.entier (BitVec.ofNat 32 h), .entier (BitVec.ofNat 32 m),
      .entier (BitVec.ofNat 32 s)] =
      .ok (decimal2 h ++ octets ":" ++ decimal2 m ++ octets ":" ++ decimal2 s) := by
  have hv : deuxChiffres.Valide := Directive.valide_largeur (n := 2) rfl (by decide) (by decide) rfl
  have hn : ∀ n : Nat, (Element.nombre deuxChiffres 100 (BitVec.ofNat 32 n)).Valide 0 := fun n =>
    ⟨hv, 10, true, rfl, by decide, by decide⟩
  have hes : ∀ e ∈ [Element.nombre deuxChiffres 100 (BitVec.ofNat 32 h), .car 58,
      .nombre deuxChiffres 100 (BitVec.ofNat 32 m), .car 58,
      .nombre deuxChiffres 100 (BitVec.ofNat 32 s)], e.Valide 0 := by
    intro e he
    simp only [List.mem_cons, List.not_mem_nil, or_false] at he
    rcases he with rfl | rfl | rfl | rfl | rfl
    · exact hn h
    · exact ⟨by decide, by decide⟩
    · exact hn m
    · exact ⟨by decide, by decide⟩
    · exact hn s
  refine (boucle_elements hes (length_le_texte _) []).trans ?_
  simp only [List.flatMap_cons, List.flatMap_nil, List.append_nil, sens_deuxChiffres hh,
    sens_deuxChiffres hm, sens_deuxChiffres hs, List.append_assoc]
  rfl

/-- The texts that the kernel's model gives for `%i`, `%s` and the clock are those that `_doprnt`
writes, and the clock's fits in its array. -/
theorem textes_du_noyau :
    (∀ n : Int, -2 ^ 31 ≤ n → n < 2 ^ 31 →
      doprnt 0 (octets "%i") [.entier (BitVec.ofInt 32 n)] = .ok (decimal n)) ∧
    (∀ t : List UInt8, (0 : UInt8) ∉ t → t.length + 1 < 2 ^ 31 →
      doprnt 0 (octets "%s") [.chaine (some t)] = .ok t) ∧
    ∀ h m s : Nat, h < 2 ^ 31 → m < 2 ^ 31 → s < 2 ^ 31 → ∃ l,
      doprnt 0 (octets "%02ld:%02ld:%02ld") [.entier (BitVec.ofNat 32 h), .entier (BitVec.ofNat 32 m),
        .entier (BitVec.ofNat 32 s)] = .ok l ∧ l.length < LARGEUR ∧
      l = decimal2 h ++ octets ":" ++ decimal2 m ++ octets ":" ++ decimal2 s := by
  refine ⟨fun _ => doprnt_decimal, fun _ => doprnt_texte, ?_⟩
  intro h m s hh hm hs
  refine ⟨_, doprnt_horloge hh hm hs, ?_, rfl⟩
  have hh' := length_decimal2_le hh
  have hm' := length_decimal2_le hm
  have hs' := length_decimal2_le hs
  have hdeux : (octets ":").length = 1 := rfl
  simp only [List.length_append, hdeux]
  show _ < 80
  omega

end GenesisOS
