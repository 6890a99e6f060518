import Mathlib.Data.Int.Notation
import Mathlib.Data.List.Basic

/-!
# Texts that are put together

When the parts of a text can be read back from it.

* `cut_left`, `cut_right`, `intercalate_inj` : a separator that the parts do not have;
* `hex`, `padded` : bytes and numbers as digits.
-/

namespace Filament.Text

open List

section Cut

variable {α : Type*} {c d : α} {xs ys us vs : List α}

/-- A part whose elements are all of a kind ends before the first that is not. -/
theorem cut_of {P : α → Prop} (hx : ∀ x ∈ xs, P x) (hy : ∀ y ∈ ys, P y) (hc : ¬P c) (hd : ¬P d) :
    xs ++ c :: us = ys ++ d :: vs ↔ xs = ys ∧ c = d ∧ us = vs := by
  induction xs generalizing ys with
  | nil =>
    cases ys with
    | nil => simp
    | cons y ys =>
      have hne : c ≠ y := fun h => hc (h ▸ hy y (.head _))
      simp [hne]
  | cons x xs ih =>
    cases ys with
    | nil =>
      have hne : x ≠ d := fun h => hd (h ▸ hx x (.head _))
      simp [hne]
    | cons y ys =>
      have hrest := ih (fun x h => hx x (.tail _ h)) fun y h => hy y (.tail _ h)
      simp [hrest, and_assoc]

theorem cut_left (hx : c ∉ xs) (hy : c ∉ ys) :
    xs ++ c :: us = ys ++ c :: vs ↔ xs = ys ∧ us = vs := by
  rw [cut_of (P := (· ≠ c)) (fun _ h => ne_of_mem_of_not_mem h hx)
    (fun _ h => ne_of_mem_of_not_mem h hy) (not_not.2 rfl) (not_not.2 rfl)]
  simp

theorem cut_right (hu : c ∉ us) (hv : c ∉ vs) :
    xs ++ c :: us = ys ++ c :: vs ↔ xs = ys ∧ us = vs := by
  have h := @cut_left _ c us.reverse vs.reverse xs.reverse ys.reverse (by simpa) (by simpa)
  rw [← reverse_inj]
  simpa [and_comm] using h

/-- Texts without the separator can be read back from their join. -/
theorem intercalate_inj {xs ys : List (List α)} (hlen : xs.length = ys.length)
    (hx : ∀ x ∈ xs, c ∉ x) (hy : ∀ y ∈ ys, c ∉ y) :
    [c].intercalate xs = [c].intercalate ys ↔ xs = ys := by
  induction xs generalizing ys with
  | nil => simp_all [eq_comm]
  | cons x xs ih =>
    obtain ⟨y, ys, rfl⟩ := exists_cons_of_length_eq_add_one hlen.symm
    rw [length_cons, length_cons, Nat.add_right_cancel_iff] at hlen
    rw [forall_mem_cons] at hx hy
    have hrest := ih hlen hx.2 hy.2
    cases xs with
    | nil =>
      obtain rfl := length_eq_zero_iff.1 hlen.symm
      simp [intercalate]
    | cons x' xs =>
      obtain ⟨y', ys, rfl⟩ := exists_cons_of_length_eq_add_one hlen.symm
      rw [cons.injEq, ← hrest]
      simpa [intercalate] using cut_left hx.1 hy.1

end Cut

/-! ### Numbers -/

theorem isDigit_toDigits {c : Char} {n : ℕ} (h : c ∈ Nat.toDigits 10 n) : c.isDigit :=
  Nat.isDigit_of_mem_toDigits (by decide) (by decide) h

theorem notMem_toDigits {c : Char} (hc : c.isDigit = false) (n : ℕ) : c ∉ Nat.toDigits 10 n := by
  intro h
  simp [isDigit_toDigits h] at hc

/-- `%0wd`: leading zeros up to the width. -/
def padded (w n : ℕ) : List Char := (Nat.toDigits 10 n).leftpad w '0'

theorem notMem_padded {c : Char} (hc : c.isDigit = false) (w n : ℕ) : c ∉ padded w n := by
  have hzero : c ≠ '0' := by
    rintro rfl
    simp at hc
  simp [padded, leftpad, hzero, notMem_toDigits hc]

theorem padded_inj {w n m : ℕ} : padded w n = padded w m ↔ n = m := by
  refine ⟨fun h => ?_, fun h => by rw [h]⟩
  have hread : ∀ k, Nat.ofDigitChars 10 (padded w k) 0 = k := by
    intro k
    simp [padded, leftpad, Nat.ofDigitChars_append, Nat.ofDigitChars_replicate_zero,
      Nat.ofDigitChars_toDigits]
  rw [← hread n, h, hread m]

theorem toDigits_inj {n m : ℕ} : Nat.toDigits 10 n = Nat.toDigits 10 m ↔ n = m := by
  simpa [padded, leftpad] using @padded_inj 0 n m

/-- A number ends before what is no digit. -/
theorem toDigits_cut {c : Char} (hc : c.isDigit = false) {n m : ℕ} {us vs : List Char} :
    Nat.toDigits 10 n ++ c :: us = Nat.toDigits 10 m ++ c :: vs ↔ n = m ∧ us = vs := by
  rw [cut_left (notMem_toDigits hc n) (notMem_toDigits hc m), toDigits_inj]

/-- `%d`. -/
def decimal (n : ℤ) : List Char := (if n < 0 then ['-'] else []) ++ Nat.toDigits 10 n.natAbs

/-- `%d`, as bytes. -/
def ofInt (n : ℤ) : List UInt8 := (decimal n).map fun c => c.toNat.toUInt8

/-- `ParseInt` in base ten: a sign, if any, and digits. -/
def parseInt (text : List UInt8) : Option ℤ :=
  let signed := text.head? = some 45 ∨ text.head? = some 43
  let chars := (if signed then text.tail else text).map fun b => Char.ofNat b.toNat
  if chars ≠ [] ∧ chars.all Char.isDigit then
    let n : ℤ := Nat.ofDigitChars 10 chars 0
    some (if text.head? = some 45 then -n else n)
  else none

theorem ofNat_toUInt8 {c : Char} (h : c.isDigit) : Char.ofNat c.toNat.toUInt8.toNat = c := by
  have hlt : c.toNat < 256 := by
    simp only [Char.isDigit, Bool.and_eq_true, decide_eq_true_eq] at h
    exact Nat.lt_of_le_of_lt (UInt32.le_iff_toNat_le.1 h.2) (by decide)
  simp [Nat.mod_eq_of_lt hlt]

/-- A number is read back from its text. -/
theorem parseInt_ofInt (n : ℤ) : parseInt (ofInt n) = some n := by
  have hchars : ((Nat.toDigits 10 n.natAbs).map fun c => c.toNat.toUInt8).map
      (fun b => Char.ofNat b.toNat) = Nat.toDigits 10 n.natAbs := by
    rw [map_map]
    exact (map_congr_left fun c hc => ofNat_toUInt8 (isDigit_toDigits hc)).trans (map_id _)
  have hvalue := @Nat.ofDigitChars_toDigits 10 n.natAbs (by decide) (by decide)
  have hdigits : Nat.toDigits 10 n.natAbs ≠ [] ∧ (Nat.toDigits 10 n.natAbs).all Char.isDigit :=
    ⟨Nat.toDigits_ne_nil, all_eq_true.2 fun c hc => isDigit_toDigits hc⟩
  by_cases hn : n < 0
  · have hminus : '-'.toNat.toUInt8 = 45 := rfl
    simp only [parseInt, ofInt, decimal, hn, if_true, cons_append, nil_append, map_cons, hminus,
      head?_cons, true_or, tail_cons, hchars]
    rw [if_pos hdigits, hvalue]
    congr 1
    omega
  · -- The first byte is a digit, not a sign.
    obtain ⟨c, cs, hc⟩ := exists_cons_of_ne_nil hdigits.1
    have hsign : ∀ b : UInt8, (b = 45 ∨ b = 43) →
        ((Nat.toDigits 10 n.natAbs).map fun c => c.toNat.toUInt8).head? ≠ some b := by
      intro b hb heq
      have hdigit : c.isDigit := isDigit_toDigits (hc ▸ mem_cons_self)
      rw [hc, map_cons, head?_cons, Option.some.injEq] at heq
      rw [← ofNat_toUInt8 hdigit, heq] at hdigit
      rcases hb with rfl | rfl <;> simp at hdigit
    simp only [parseInt, ofInt, decimal, hn, if_false, nil_append, hsign 45 (.inl rfl),
      hsign 43 (.inr rfl), or_self, hchars]
    rw [if_pos hdigits, hvalue]
    congr 1
    omega

/-! ### Bytes -/

/-- `%x`: two digits for each byte. -/
def hex (bytes : List (BitVec 8)) : String :=
  String.ofList (bytes.flatMap fun b => [Nat.digitChar (b.toNat / 16), Nat.digitChar (b.toNat % 16)])

theorem digitChar_inj {i j : ℕ} (hi : i < 16) (hj : j < 16) :
    Nat.digitChar i = Nat.digitChar j ↔ i = j := by
  have hall : ∀ i < 16, ∀ j < 16, Nat.digitChar i = Nat.digitChar j ↔ i = j := by decide
  exact hall i hi j hj

theorem hex_inj {bs cs : List (BitVec 8)} : hex bs = hex cs ↔ bs = cs := by
  rw [hex, hex, String.ofList_inj]
  induction bs generalizing cs with
  | nil => cases cs <;> simp
  | cons b bs ih =>
    cases cs with
    | nil => simp
    | cons c cs =>
      have hb := b.isLt
      have hc := c.isLt
      have hhigh := @digitChar_inj (b.toNat / 16) (c.toNat / 16) (by omega) (by omega)
      have hlow := @digitChar_inj (b.toNat % 16) (c.toNat % 16) (by omega) (by omega)
      simp only [flatMap_cons, cons_append, nil_append, cons.injEq, hhigh, hlow, ih,
        ← BitVec.toNat_inj, ← and_assoc]
      exact and_congr_left fun _ => by omega

end Filament.Text
