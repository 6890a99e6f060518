import Mathlib.Data.Char
import Mathlib.Data.List.Lex
import Mathlib.Data.Nat.Digits.Defs

/-!
# Decimal numbers as text

* `digits` : the last digits of a number, a given number of them;
* `digits_lt_iff` : texts of one width are in the order of the numbers;
* `digits_lt_digits_add_iff` : a shorter text compares with the longer number cut to its width;
* `leftpad_toDigits` : a number that is printed with leading zeros.
-/

namespace Filament.Decimal

open List

/-! ### Lists in lexicographic order -/

section Lex

variable {α : Type} [LinearOrder α]

theorem append_lt_append_iff {xs ys us vs : List α} (h : xs.length = ys.length) :
    xs ++ us < ys ++ vs ↔ xs < ys ∨ xs = ys ∧ us < vs := by
  induction xs generalizing ys with
  | nil =>
    obtain rfl := length_eq_zero_iff.1 h.symm
    simp
  | cons x xs ih =>
    obtain ⟨y, ys, rfl⟩ := exists_cons_of_length_eq_add_one h.symm
    have hlength : xs.length = ys.length := by simpa using h
    rw [cons_append, cons_append, cons_lt_cons_iff, cons_lt_cons_iff, ih hlength, cons.injEq]
    tauto

theorem append_lt_append_left_iff {xs us vs : List α} : xs ++ us < xs ++ vs ↔ us < vs := by
  rw [append_lt_append_iff rfl]
  simp

end Lex

/-! ### Digits -/

/-- The last `w` decimal digits of a number. -/
def digits : ℕ → ℕ → List Char
  | 0, _ => []
  | w + 1, n => digits w (n / 10) ++ [Nat.digitChar (n % 10)]

@[simp] theorem length_digits (w n : ℕ) : (digits w n).length = w := by
  induction w generalizing n with
  | zero => rfl
  | succ w ih => simp [digits, ih]

theorem digits_add (w k n : ℕ) : digits (w + k) n = digits w (n / 10 ^ k) ++ digits k n := by
  induction k generalizing n with
  | zero => simp [digits]
  | succ k ih =>
    rw [← Nat.add_assoc, digits, digits, ih, Nat.div_div_eq_div_mul, ← Nat.pow_succ', append_assoc]

theorem digits_zero (k : ℕ) : digits k 0 = List.replicate k '0' := by
  induction k with
  | zero => rfl
  | succ k ih => rw [digits, Nat.zero_div, ih, replicate_succ']; rfl

theorem digitChar_lt_iff {i j : ℕ} (hi : i < 10) (hj : j < 10) :
    Nat.digitChar i < Nat.digitChar j ↔ i < j := by
  have hall : ∀ i < 10, ∀ j < 10, Nat.digitChar i < Nat.digitChar j ↔ i < j := by decide
  exact hall i hi j hj

theorem digitChar_inj {i j : ℕ} (hi : i < 10) (hj : j < 10) :
    Nat.digitChar i = Nat.digitChar j ↔ i = j := by
  have hall : ∀ i < 10, ∀ j < 10, Nat.digitChar i = Nat.digitChar j ↔ i = j := by decide
  exact hall i hi j hj

theorem digits_inj {w n m : ℕ} (hn : n < 10 ^ w) (hm : m < 10 ^ w) :
    digits w n = digits w m ↔ n = m := by
  induction w generalizing n m with
  | zero =>
    obtain rfl : n = m := by omega
    simp
  | succ w ih =>
    refine ⟨fun heq => ?_, fun heq => by rw [heq]⟩
    obtain ⟨hfront, hlast⟩ := append_inj' heq rfl
    have hdiv : n / 10 = m / 10 := (ih (by omega) (by omega)).1 hfront
    have hmod : n % 10 = m % 10 :=
      (digitChar_inj (Nat.mod_lt n (by decide)) (Nat.mod_lt m (by decide))).1 (cons.inj hlast).1
    omega

/-- **Texts of one width are in the order of the numbers.** -/
theorem digits_lt_iff {w n m : ℕ} (hn : n < 10 ^ w) (hm : m < 10 ^ w) :
    digits w n < digits w m ↔ n < m := by
  induction w generalizing n m with
  | zero =>
    obtain rfl : n = m := by omega
    simp
  | succ w ih =>
    have hlast : [Nat.digitChar (n % 10)] < [Nat.digitChar (m % 10)] ↔ n % 10 < m % 10 := by
      rw [cons_lt_cons_iff]
      simp [digitChar_lt_iff (Nat.mod_lt n (by decide)) (Nat.mod_lt m (by decide))]
    rw [digits, digits, append_lt_append_iff (by simp), ih (by omega) (by omega),
      digits_inj (by omega) (by omega), hlast]
    omega

/-- A shorter text comes first when its number is at most the longer one cut to its width. -/
theorem digits_lt_digits_add_iff {w k n m : ℕ} (hk : 0 < k) (hn : n < 10 ^ w)
    (hm : m < 10 ^ (w + k)) : digits w n < digits (w + k) m ↔ n ≤ m / 10 ^ k := by
  have hcut : m / 10 ^ k < 10 ^ w := by
    rw [Nat.div_lt_iff_lt_mul (by positivity), ← Nat.pow_add]
    exact hm
  have hne : digits k m ≠ [] := by
    intro heq
    have hlength := congrArg length heq
    rw [length_digits, length_nil] at hlength
    omega
  have hrest : [] < digits k m := by
    obtain ⟨c, cs, hcs⟩ := exists_cons_of_ne_nil hne
    rw [hcs]
    exact nil_lt_cons c cs
  rw [digits_add]
  conv_lhs => lhs; rw [← append_nil (digits w n)]
  rw [append_lt_append_iff (by simp), digits_lt_iff hn hcut, digits_inj hn hcut,
    le_iff_lt_or_eq, and_iff_left hrest]

/-! ### Printed numbers -/

theorem digits_of_lt {w n : ℕ} (k : ℕ) (hn : n < 10 ^ w) :
    digits (k + w) n = List.replicate k '0' ++ digits w n := by
  rw [digits_add, Nat.div_eq_of_lt hn, digits_zero]

theorem toDigits_eq_digits (n : ℕ) : Nat.toDigits 10 n = digits (Nat.toDigits 10 n).length n := by
  induction n using Nat.strong_induction_on with
  | _ n ih =>
    by_cases hn : n < 10
    · rw [Nat.toDigits_of_lt_base hn]
      simp [digits, Nat.mod_eq_of_lt hn]
    · rw [Nat.toDigits_of_base_le (by decide) (by omega), length_append, length_singleton,
        digits, ← ih (n / 10) (by omega)]

theorem lt_pow_length_toDigits (n : ℕ) : n < 10 ^ (Nat.toDigits 10 n).length :=
  (Nat.length_toDigits_le_iff (by decide) Nat.length_toDigits_pos).1 le_rfl

/-- A number printed with leading zeros to at least a width. -/
theorem leftpad_toDigits (w n : ℕ) : (Nat.toDigits 10 n).leftpad w '0' =
    digits (max w (Nat.toDigits 10 n).length) n := by
  rw [leftpad]
  nth_rewrite 2 [toDigits_eq_digits n]
  rw [← digits_of_lt _ (lt_pow_length_toDigits n)]
  congr 1
  omega

end Filament.Decimal
