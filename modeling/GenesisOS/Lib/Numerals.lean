import Mathlib.Data.Nat.Digits.Lemmas

/-!
# Numerals

Positional numerals, most significant digit first. `value b l` is the number that the
digits `l` denote in base `b`, read one digit after another; `numeral b n` is the
numeral of `n` without leading zeros, with one digit for zero.
-/

namespace Lib

/-- The number denoted by the digits `l` in base `b`. -/
def value (b : Nat) (l : List Nat) : Nat := l.foldl (fun v d => v * b + d) 0

/-- The digits of `n` in base `b`. -/
def numeral (b n : Nat) : List Nat := if n = 0 then [0] else (Nat.digits b n).reverse

variable {b n d k : Nat} {l l' : List Nat}

-- ---------------------------------------------------------------------------
-- Reading
-- ---------------------------------------------------------------------------

@[simp] theorem value_nil : value b [] = 0 := rfl

@[simp] theorem value_singleton : value b [d] = d := by
  unfold value
  rw [List.foldl_cons, List.foldl_nil, Nat.zero_mul, Nat.zero_add]

theorem value_concat : value b (l ++ [d]) = value b l * b + d := by
  unfold value
  rw [List.foldl_append, List.foldl_cons, List.foldl_nil]

theorem value_eq_ofDigits (b : Nat) (l : List Nat) : value b l = Nat.ofDigits b l.reverse := by
  induction l using List.reverseRecOn with
  | nil => rfl
  | append_singleton l d ih =>
    rw [value_concat, ih, List.reverse_append, List.reverse_singleton, List.singleton_append,
      Nat.ofDigits_cons, Nat.mul_comm, Nat.add_comm]

theorem value_append : value b (l ++ l') = value b l * b ^ l'.length + value b l' := by
  rw [value_eq_ofDigits, value_eq_ofDigits, value_eq_ofDigits, List.reverse_append,
    Nat.ofDigits_append, List.length_reverse, Nat.mul_comm, Nat.add_comm]

/-- Leading zeros do not count. -/
@[simp] theorem value_zeros_append : value b (List.replicate k 0 ++ l) = value b l := by
  rw [value_append, value_eq_ofDigits b (List.replicate k 0), List.reverse_replicate,
    Nat.ofDigits_replicate_zero, Nat.zero_mul, Nat.zero_add]

/-- The same reading in another semiring, such as the words of a machine. -/
theorem cast_value {R : Type*} [Semiring R] (b : Nat) (l : List Nat) :
    ((value b l : Nat) : R) = l.foldl (fun (v : R) (d : Nat) => v * b + d) 0 := by
  induction l using List.reverseRecOn with
  | nil => exact Nat.cast_zero
  | append_singleton l d ih =>
    rw [value_concat, Nat.cast_add, Nat.cast_mul, ih, List.foldl_append, List.foldl_cons,
      List.foldl_nil]

-- ---------------------------------------------------------------------------
-- Writing
-- ---------------------------------------------------------------------------

theorem numeral_ne_nil (b n : Nat) : numeral b n ≠ [] := by
  unfold numeral
  split
  · exact List.cons_ne_nil _ _
  · rename_i h
    exact fun h' => h (Nat.digits_eq_nil_iff_eq_zero.mp (List.reverse_eq_nil_iff.mp h'))

theorem numeral_of_lt (h : n < b) : numeral b n = [n] := by
  unfold numeral
  split
  · rename_i h0
    rw [h0]
  · rename_i h0
    rw [Nat.digits_of_lt b n h0 h, List.reverse_singleton]

/-- The last digit apart. -/
theorem numeral_of_le (hb : 1 < b) (h : b ≤ n) : numeral b n = numeral b (n / b) ++ [n % b] := by
  have hn : n ≠ 0 := by omega
  have hd : n / b ≠ 0 := (Nat.div_pos h (by omega)).ne'
  unfold numeral
  rw [if_neg hn, if_neg hd, Nat.digits_eq_cons_digits_div hb hn, List.reverse_cons]

theorem value_numeral (b n : Nat) : value b (numeral b n) = n := by
  unfold numeral
  split
  · rename_i h
    rw [value_singleton, h]
  · rw [value_eq_ofDigits, List.reverse_reverse, Nat.ofDigits_digits]

theorem lt_of_mem_numeral (hb : 1 < b) (h : d ∈ numeral b n) : d < b := by
  unfold numeral at h
  split at h
  · rw [List.mem_singleton.mp h]
    omega
  · exact Nat.digits_lt_base hb (List.mem_reverse.mp h)

theorem length_numeral_le (hb : 1 < b) (hk : 0 < k) (h : n < b ^ k) : (numeral b n).length ≤ k := by
  unfold numeral
  split
  · exact hk
  · rw [List.length_reverse]
    exact (Nat.digits_length_le_iff hb n).mpr h

theorem length_numeral_pos (b n : Nat) : 0 < (numeral b n).length :=
  List.length_pos_of_ne_nil (numeral_ne_nil b n)

/-- There is no leading zero, but for zero itself. -/
theorem head_numeral_ne_zero (hn : n ≠ 0) (h : (numeral b n).head? = some d) : d ≠ 0 := by
  unfold numeral at h
  rw [if_neg hn, List.head?_reverse] at h
  have hne : Nat.digits b n ≠ [] := Nat.digits_ne_nil_iff_ne_zero.mpr hn
  rw [List.getLast?_eq_some_getLast hne, Option.some_inj] at h
  exact h ▸ Nat.getLast_digit_ne_zero b hn

end Lib
