import Mathlib.Data.List.TakeWhile
import Mathlib.Tactic.FieldSimp
import Mathlib.Tactic.NormNum
import Mathlib.Tactic.Positivity
import Mathlib.Tactic.Ring
import Filament.Transform.Meaning

/-!
# Widened literals are exact

The compiler boxes a literal into a scalar of the type of the columns beside it: an integer is
truncated to the narrower width, and a number becomes a decimal through its spelling.  When the
compiler admits the literal, the scalar is the value the literal stands for.

* `setString_append_zeros` : zeros after the digits multiply a numeral by a power of ten;
* `decimalLiteral_exact` : a literal admitted to a decimal column is the same number there;
* `newLiteralNode_widen`, `newLiteralNode_plain` : the scalar of a literal.
-/

namespace Filament.Transform

open List Option Nat Bool

variable {F : Floats}

/-! ### Numerals -/

variable {s : List Char} {c : Char} {k : ℕ} {u : ℤ}

/-- Zeros after the digits multiply by a power of ten. -/
theorem digits_append_zeros {u : ℕ} (hs : s ≠ []) (h : digits (s ++ List.replicate k '0') = some u) :
    ∃ n, digits s = some n ∧ u = n * 10 ^ k := by
  unfold digits at h ⊢
  split_ifs at h with hall
  obtain ⟨-, hall⟩ := hall
  rw [all_append, and_eq_true] at hall
  refine ⟨Nat.ofDigitChars 10 s 0, if_pos ⟨hs, hall.1⟩, ?_⟩
  rw [← some.inj h, ofDigitChars_append, ofDigitChars_replicate_zero]
  exact mul_comm ..

/-- A numeral that is more than a sign. -/
def Spells (s : List Char) : Prop := ∃ c ∈ s, c ≠ '-' ∧ c ≠ '+'

theorem ne_nil_of_spells (hc : c = '-' ∨ c = '+') (h : Spells (c :: s)) : s ≠ [] := by
  rintro rfl
  obtain ⟨d, hd, hne⟩ := h
  rw [mem_singleton] at hd
  subst hd
  exact hc.elim hne.1 hne.2

theorem setString_plain (hminus : c ≠ '-') (hplus : c ≠ '+') (s : List Char) :
    setString (c :: s) = (digits (c :: s)).map fun n : ℕ => (n : ℤ) := by
  unfold setString
  split
  · next heq => exact absurd (cons.inj heq).1 hminus
  · next heq => exact absurd (cons.inj heq).1 hplus
  · rfl

theorem setString_append_zeros (hs : Spells s) (h : setString (s ++ List.replicate k '0') = some u) :
    ∃ n, setString s = some n ∧ u = n * 10 ^ k := by
  cases s with
  | nil =>
    obtain ⟨c, hc, -⟩ := hs
    cases hc
  | cons c s =>
    rw [cons_append] at h
    by_cases hminus : c = '-'
    · subst hminus
      obtain ⟨m, hm, rfl⟩ := map_eq_some_iff.1 h
      obtain ⟨n, hn, rfl⟩ := digits_append_zeros (ne_nil_of_spells (.inl rfl) hs) hm
      refine ⟨-(n : ℤ), by simp [setString, hn], ?_⟩
      push_cast
      ring
    · by_cases hplus : c = '+'
      · subst hplus
        obtain ⟨m, hm, rfl⟩ := map_eq_some_iff.1 h
        obtain ⟨n, hn, rfl⟩ := digits_append_zeros (ne_nil_of_spells (.inr rfl) hs) hm
        refine ⟨n, by simp [setString, hn], ?_⟩
        push_cast
        ring
      · rw [setString_plain hminus hplus] at h
        obtain ⟨m, hm, rfl⟩ := map_eq_some_iff.1 h
        obtain ⟨n, hn, rfl⟩ := digits_append_zeros (cons_ne_nil c s) hm
        refine ⟨n, by rw [setString_plain hminus hplus, hn]; rfl, ?_⟩
        push_cast
        ring

/-! ### Decimals -/

variable (x : ℤ) {v : Literal F} {t : ValueType}

theorem digits_toDigits (n : ℕ) : digits (Nat.toDigits 10 n) = some n := by
  unfold digits
  rw [if_pos, ofDigitChars_ten_toDigits]
  refine ⟨toDigits_ne_nil, all_eq_true.2 fun c hc => ?_⟩
  exact isDigit_of_mem_toDigits (by decide) (by decide) hc

theorem isDigit_ne {d : Char} (hc : c.isDigit = true) (hd : d.isDigit = false) : c ≠ d := by
  rintro rfl
  rw [hc] at hd
  cases hd

theorem toDigits_mem {n : ℕ} (h : c ∈ Nat.toDigits 10 n) : c ≠ '-' ∧ c ≠ '+' ∧ c ≠ '.' := by
  have hdigit := isDigit_of_mem_toDigits (by decide) (by decide) h
  exact ⟨isDigit_ne hdigit (by decide), isDigit_ne hdigit (by decide), isDigit_ne hdigit (by decide)⟩

theorem setString_toDigits (n : ℕ) : setString (Nat.toDigits 10 n) = some (n : ℤ) := by
  have hdigits := digits_toDigits n
  cases hs : Nat.toDigits 10 n with
  | nil => exact absurd hs toDigits_ne_nil
  | cons c s =>
    have hc : c ∈ Nat.toDigits 10 n := hs ▸ mem_cons_self
    rw [setString_plain (toDigits_mem hc).1 (toDigits_mem hc).2.1, ← hs, hdigits]
    rfl

/-- A formatted integer reads back. -/
theorem setString_formatInt : setString (formatInt x) = some x := by
  unfold formatInt
  split_ifs with hneg
  · rw [setString, digits_toDigits]
    simp only [map_some, some.injEq]
    omega
  · rw [setString_toDigits]
    simp only [some.injEq]
    omega

theorem formatInt_mem {x : ℤ} (h : c ∈ formatInt x) : c ≠ '.' := by
  unfold formatInt at h
  split_ifs at h
  · rcases mem_cons.1 h with rfl | h
    · decide
    · exact (toDigits_mem h).2.2
  · exact (toDigits_mem h).2.2

theorem spells_formatInt : Spells (formatInt x) := by
  obtain ⟨c, hc⟩ := exists_mem_of_ne_nil _ (toDigits_ne_nil (n := x.natAbs) (b := 10))
  refine ⟨c, ?_, (toDigits_mem hc).1, (toDigits_mem hc).2.1⟩
  unfold formatInt
  split_ifs
  · exact mem_cons_of_mem _ hc
  · exact hc

theorem cut_of_no_point (h : ∀ c ∈ s, c ≠ '.') : cut s = (s, []) := by
  have htake : s.takeWhile (· ≠ '.') = s := takeWhile_eq_self_iff.2 (by simpa using h)
  have hdrop : s.dropWhile (· ≠ '.') = [] := dropWhile_eq_nil_iff.2 (by simpa using h)
  rw [cut, htake, hdrop]
  rfl

theorem spelled_formatInt : spelled (formatInt x) = some (x : ℚ) := by
  rw [spelled, cut_of_no_point fun c hc => formatInt_mem hc]
  simp [setString_formatInt]

theorem mem_cut (h : c ∈ s) (hc : c ≠ '.') : c ∈ (cut s).1 ++ (cut s).2 := by
  unfold cut
  rw [← takeWhile_append_dropWhile (p := (· ≠ '.')) (l := s), mem_append] at h
  rcases h with h | h
  · exact mem_append_left _ h
  refine mem_append_right _ ?_
  cases hdrop : s.dropWhile (· ≠ '.') with
  | nil =>
    rw [hdrop] at h
    cases h
  | cons d t =>
    have hd : d = '.' := by
      have := head?_dropWhile_not (· ≠ '.') s
      rw [hdrop] at this
      simpa using this
    rw [hdrop] at h
    rcases mem_cons.1 h with rfl | h
    · exact absurd hd hc
    · exact h

/-- The spelling of a number literal spells its number. -/
theorem spelled_spelling (h : spelling v = some s) :
    number v = spelled s ∧ Spells ((cut s).1 ++ (cut s).2) := by
  cases v with
  | int x =>
    obtain rfl : formatInt x.toInt = s := some.inj h
    refine ⟨(spelled_formatInt _).symm, ?_⟩
    rw [cut_of_no_point fun c hc => formatInt_mem hc, append_nil]
    exact spells_formatInt _
  | float x =>
    obtain rfl : F.format x = s := some.inj h
    obtain ⟨c, hc, hminus, hplus, hpoint⟩ := F.spells x
    exact ⟨rfl, c, mem_cut hc hpoint, hminus, hplus⟩
  | string _ => cases h
  | bool _ => cases h

/-- The power of ten of a decimal column over that of the digits after the point. -/
theorem scaled_eq (n : ℤ) {len : ℕ} {scale : ℤ} (h : ¬ scale < len) :
    (n : ℚ) / 10 ^ len * (10 : ℚ) ^ scale = ((n * 10 ^ (scale - len).toNat : ℤ) : ℚ) := by
  obtain ⟨k, hk⟩ : ∃ k : ℕ, scale = len + k := ⟨(scale - len).toNat, by omega⟩
  have hten : (10 : ℚ) ≠ 0 := by norm_num
  have hsub : (scale - len).toNat = k := by omega
  rw [hsub, hk, zpow_add₀ hten, zpow_natCast, zpow_natCast]
  push_cast
  field_simp

/-- **A literal admitted to a decimal column is the same number there.** -/
theorem decimalLiteral_exact (ht : t.logical = .decimal) (h : decimalLiteral v t = some u) :
    widen v t = some (.decimal128 u) := by
  unfold decimalLiteral at h
  split at h
  · next precision scale s htype hs =>
    dsimp only at h
    split_ifs at h with hfrac
    split at h
    · cases h
    · next unscaled hset =>
      split_ifs at h with hlarge
      cases h
      obtain ⟨hnumber, hspells⟩ := spelled_spelling hs
      obtain ⟨n, hn, rfl⟩ := setString_append_zeros hspells hset
      have hvalue : number v = some ((n : ℚ) / 10 ^ (cut s).2.length) := by
        rw [hnumber, spelled, hn]
        rfl
      unfold widen
      simp only [ht, htype, hvalue, scaled_eq n hfrac]
      rw [if_pos, Rat.num_intCast]
      exact ⟨Rat.den_intCast _, by rw [Rat.num_intCast]; omega⟩
  · cases h

/-! ### Scalars -/

theorem ofInt_toInt_eq_setWidth {w : ℕ} (hw : w ≤ 64) (x : BitVec 64) :
    BitVec.ofInt w x.toInt = x.setWidth w := by
  rw [← BitVec.signExtend_eq_setWidth_of_le x hw]
  rfl

/-- **A literal the compiler widens is boxed as the value it stands for.** -/
theorem newLiteralNode_widen (h : coercible v t = true) :
    ∃ cell, newLiteralNode v t = .literal (arrowType t) cell ∧ widen v t = some cell := by
  unfold coercible at h
  unfold newLiteralNode
  by_cases ht : t.logical = .decimal
  · rw [if_pos ht] at h
    rw [if_pos ht]
    obtain ⟨u, hu⟩ := isSome_iff_exists.1 h
    exact ⟨_, rfl, by rw [hu]; exact decimalLiteral_exact ht hu⟩
  rw [if_neg ht] at h
  cases v with
  | string _ => simp at h
  | bool _ => simp at h
  | int x =>
    cases hlogical : t.logical <;> simp only [hlogical, and_eq_true, decide_eq_true_eq] at h
    case int16 =>
      have hsame := BitVec.toInt_ofInt_eq_self (w := 16) (by decide) h.1 h.2
      rw [ofInt_toInt_eq_setWidth (by decide)] at hsame
      refine ⟨.int16 (x.setWidth 16), by simp [arrowType, hlogical], ?_⟩
      simp only [widen, hlogical, ofInt_toInt_eq_setWidth (w := 16) (by decide), if_pos hsame]
    case int32 =>
      have hsame := BitVec.toInt_ofInt_eq_self (w := 32) (by decide) h.1 h.2
      rw [ofInt_toInt_eq_setWidth (by decide)] at hsame
      refine ⟨.int32 (x.setWidth 32), by simp [arrowType, hlogical], ?_⟩
      simp only [widen, hlogical, ofInt_toInt_eq_setWidth (w := 32) (by decide), if_pos hsame]
    case int64 => exact ⟨.int64 x, by simp [arrowType, hlogical], by simp [widen, hlogical]⟩
    case float32 =>
      exact ⟨.float32 (F.ofInt32 x.toInt), by simp [arrowType, hlogical], by simp [widen, hlogical]⟩
    case float64 =>
      exact ⟨.float64 (F.ofInt64 x.toInt), by simp [arrowType, hlogical], by simp [widen, hlogical]⟩
    all_goals exact absurd h false_ne_true
  | float x =>
    cases hlogical : t.logical <;> simp only [hlogical] at h
    case float32 =>
      exact ⟨.float32 (F.narrow x), by simp [arrowType, hlogical], by simp [widen, hlogical]⟩
    case float64 => exact ⟨.float64 x, by simp [arrowType, hlogical], by simp [widen, hlogical]⟩
    all_goals exact absurd h false_ne_true

/-- A literal that is not widened is boxed as itself. -/
theorem newLiteralNode_plain (v : Literal F) :
    newLiteralNode v ⟨literalType v, 0, 0⟩ = .literal (arrowType ⟨literalType v, 0, 0⟩) (literalCell v) := by
  cases v <;> rfl

end Filament.Transform
