import Mathlib.Algebra.Order.Ring.Int
import Mathlib.Algebra.Ring.Divisibility.Basic
import Filament.Lib.Except

/-!
# Cron fields

`internal/cron/cron.go` compiles a field of an expression, a comma-separated list of stars, numbers
and ranges with steps, into a bit set.  The loop over a part adds the step in 64 bits.

* `readPart` : the range and the step of a part;
* `fill`, `parsePart`, `parseField` : the bit set;
* `Part.Denotes`, `Part.Wraps` : the values of a part, and those its loop reaches by overflow;
* **`parseField_exact_iff`** : a field denotes the values of its parts if and only if these have
  what overflow adds.
-/

namespace Filament.Cron

open List Except

/-! ### Parts -/

/-- The number that decimal digits spell. -/
def digits (ds : List Char) : Option ℤ :=
  if ds ≠ [] ∧ ds.all Char.isDigit then
    some (ds.foldl (fun n c => 10 * n + (c.toNat - '0'.toNat)) 0)
  else none

/-- `strconv.Atoi`: a sign or none, and the digits of a 64-bit integer. -/
def atoi (text : List Char) : Option ℤ :=
  let n := match text with
    | '-' :: ds => (digits ds).map Neg.neg
    | '+' :: ds => digits ds
    | ds => digits ds
  n.filter fun n => -2 ^ 63 ≤ n ∧ n < 2 ^ 63

inductive FieldError where
  | invalidStep (part : List Char)
  | invalidRange (rng : List Char)
  | invalidValue (rng : List Char)
  | outOfRange (minVal maxVal : ℤ) (part : List Char)
  /-- The loop over the part does not end. -/
  | diverges
  deriving DecidableEq

structure Part where
  lo : ℤ
  hi : ℤ
  step : ℤ
  deriving DecidableEq

/-- The bounds of a part: a bare number with a step runs to the maximum. -/
def readRange (rng : List Char) (hasStep : Bool) (minVal maxVal : ℤ) : Except FieldError (ℤ × ℤ) :=
  if rng = ['*'] then .ok (minVal, maxVal)
  else match rng.span (· ≠ '-') with
    | (a, _ :: b) =>
      match atoi a, atoi b with
      | some a, some b => .ok (a, b)
      | _, _ => .error (.invalidRange rng)
    | (_, []) =>
      match atoi rng with
      | some n => .ok (n, if hasStep then maxVal else n)
      | none => .error (.invalidValue rng)

def readStep (part : List Char) : List Char → Except FieldError ℤ
  | [] => .ok 1
  | _ :: text => ofOption (.invalidStep part) ((atoi text).filter (0 < ·))

/-- `parsePart` up to its loop. -/
def readPart (minVal maxVal : ℤ) (part : List Char) : Except FieldError Part := do
  let (rng, rest) := part.span (· ≠ '/')
  let step ← readStep part rest
  let (lo, hi) ← readRange rng (!rest.isEmpty) minVal maxVal
  require (minVal ≤ lo ∧ hi ≤ maxVal ∧ lo ≤ hi) (.outOfRange minVal maxVal part)
  return ⟨lo, hi, step⟩

/-! ### Bit sets -/

/-- The sum in 64 bits. -/
def wrap (n : ℤ) : ℤ := (n + 2 ^ 63) % 2 ^ 64 - 2 ^ 63

/-- `1 << uint(v)`: a shift by 64 or more leaves nothing. -/
def bit (v : ℤ) : BitVec 64 := if 0 ≤ v ∧ v < 64 then 1#64 <<< v.toNat else 0#64

/-- `for v := lo; v <= hi; v += step`, for a number of turns. -/
def fill (hi step : ℤ) : ℕ → ℤ → BitVec 64 → Option (BitVec 64)
  | 0, _, _ => none
  | turns + 1, v, bits =>
    if v ≤ hi then fill hi step turns (wrap (v + step)) (bits ||| bit v) else some bits

def parsePart (minVal maxVal : ℤ) (part : List Char) : Except FieldError (BitVec 64) := do
  let p ← readPart minVal maxVal part
  ofOption .diverges (fill p.hi p.step 130 p.lo 0#64)

def parseField (spec : List Char) (minVal maxVal : ℤ) : Except FieldError (BitVec 64) :=
  (spec.splitOn ',').foldlM
    (fun bits part => do return bits ||| (← parsePart minVal maxVal part)) 0#64

/-! ### What a part denotes -/

/-- The values of a part. -/
def Part.Denotes (p : Part) (v : ℤ) : Prop := p.lo ≤ v ∧ v ≤ p.hi ∧ p.step ∣ v - p.lo

/-- The values that the loop comes back to after an overflow. -/
def Part.Wraps (p : Part) (v : ℤ) : Prop :=
  0 ≤ v ∧ v < p.lo ∧ 2 * (2 ^ 63 - p.step) ∣ p.lo - v

variable {hi step v : ℤ} {bits bits' : BitVec 64} {w turns : ℕ}

theorem getLsbD_bit : (bit v).getLsbD w = true ↔ (w : ℤ) = v ∧ w < 64 := by
  unfold bit
  split_ifs with h
  · simp
    omega
  · simp
    omega

theorem or_bit_of_neg (h : v < 0) : bits ||| bit v = bits := by
  rw [bit, if_neg (by omega), BitVec.or_zero]

/-- What a progression has is its start, or what it has from the next value on. -/
theorem dvd_sub_iff {d a b : ℤ} (hd : 0 < d) :
    a ≤ b ∧ d ∣ b - a ↔ b = a ∨ a + d ≤ b ∧ d ∣ b - (a + d) := by
  rw [← sub_sub, dvd_sub_self_right]
  constructor
  · rintro ⟨hle, hdvd⟩
    by_cases heq : b = a
    · exact .inl heq
    · have := Int.le_of_dvd (by omega) hdvd
      exact .inr ⟨by omega, hdvd⟩
  · rintro (rfl | ⟨hle, hdvd⟩)
    · simp
    · exact ⟨by omega, hdvd⟩

/-- A small step does not overflow. -/
theorem fill_small (hhi : hi < 64) (hstep : 0 < step) (hsmall : step ≤ 64) (hv : 0 ≤ v)
    (hturns : hi - v < turns) :
    ∃ bits', fill hi step (turns + 1) v bits = some bits' ∧ ∀ w : ℕ, bits'.getLsbD w = true ↔
      bits.getLsbD w = true ∨ (v ≤ w ∧ step ∣ w - v) ∧ w ≤ hi := by
  induction turns generalizing v bits with
  | zero => exact ⟨bits, if_neg (by omega), by grind⟩
  | succ turns ih =>
    rw [fill]
    split_ifs with hle
    · have hnext : wrap (v + step) = v + step := by
        unfold wrap
        omega
      obtain ⟨bits', hfill, hbits⟩ := @ih (v + step) (bits ||| bit v) (by omega) (by omega)
      refine ⟨bits', by rw [hnext, hfill], fun w => ?_⟩
      rw [hbits, dvd_sub_iff (a := v) hstep, BitVec.getLsbD_or, Bool.or_eq_true, getLsbD_bit]
      grind
    · exact ⟨bits, rfl, by grind⟩

/-- A large step ends the loop, or comes back below the start by overflow. -/
theorem fill_large (hhi : hi < 64) (hlarge : 64 < step) (hstep : step < 2 ^ 63) (hv : 0 ≤ v)
    (hle : v ≤ hi) (hturns : v + 3 ≤ turns) :
    ∃ bits', fill hi step (turns + 1) v bits = some bits' ∧ ∀ w : ℕ, bits'.getLsbD w = true ↔
      bits.getLsbD w = true ∨ w ≤ v ∧ 2 * (2 ^ 63 - step) ∣ v - w := by
  induction turns using Nat.strong_induction_on generalizing v bits with
  | _ turns ih =>
    obtain ⟨turns, rfl⟩ : ∃ n, turns = n + 3 := ⟨turns - 3, by omega⟩
    have hsplit : ∀ w : ℕ, w ≤ v ∧ 2 * (2 ^ 63 - step) ∣ v - w ↔
        v = w ∨ w + 2 * (2 ^ 63 - step) ≤ v ∧
          2 * (2 ^ 63 - step) ∣ v - (w + 2 * (2 ^ 63 - step)) :=
      fun w => dvd_sub_iff (by omega)
    simp only [hsplit]
    rw [fill, if_pos hle]
    by_cases hover : v + step < 2 ^ 63
    · have hnext : wrap (v + step) = v + step := by
        unfold wrap
        omega
      rw [hnext, fill, if_neg (by omega)]
      refine ⟨_, rfl, fun w => ?_⟩
      rw [BitVec.getLsbD_or, Bool.or_eq_true, getLsbD_bit]
      grind
    · -- the sum wraps to a value below zero, which sets no bit, and the next one wraps back
      have hneg : wrap (v + step) = v + step - 2 ^ 64 := by
        unfold wrap
        omega
      have hback : wrap (v + step - 2 ^ 64 + step) = v - 2 * (2 ^ 63 - step) := by
        unfold wrap
        omega
      rw [hneg, fill, if_pos (by omega), hback, or_bit_of_neg (by omega)]
      by_cases hv' : 0 ≤ v - 2 * (2 ^ 63 - step)
      · obtain ⟨bits', hfill, hbits⟩ := @ih (turns + 1) (by omega) (v - 2 * (2 ^ 63 - step))
          (bits ||| bit v) hv' (by omega) (by omega)
        refine ⟨bits', hfill, fun w => ?_⟩
        rw [hbits, BitVec.getLsbD_or, Bool.or_eq_true, getLsbD_bit, sub_sub, add_comm (w : ℤ)]
        grind
      · have hlast : wrap (v - 2 * (2 ^ 63 - step) + step) = v - 2 * (2 ^ 63 - step) + step := by
          unfold wrap
          omega
        rw [fill, if_pos (by omega), or_bit_of_neg (by omega), hlast, fill, if_neg (by omega)]
        refine ⟨_, rfl, fun w => ?_⟩
        rw [BitVec.getLsbD_or, Bool.or_eq_true, getLsbD_bit]
        grind

/-! ### Fields -/

variable {minVal maxVal : ℤ} {p : Part} {spec part : List Char}

theorem lt_of_atoi {n : ℤ} (h : atoi part = some n) : n < 2 ^ 63 := by
  unfold atoi at h
  rw [Option.filter_eq_some_iff, decide_eq_true_iff] at h
  exact h.2.2

/-- What was read is in the range of the field. -/
theorem readPart_bounds (h : readPart minVal maxVal part = .ok p) :
    minVal ≤ p.lo ∧ p.hi ≤ maxVal ∧ p.lo ≤ p.hi ∧ 0 < p.step ∧ p.step < 2 ^ 63 := by
  simp only [readPart, bind_eq_ok, require_eq_ok, exists_const, pure_eq_ok_iff] at h
  obtain ⟨step, hstep, ⟨lo, hi⟩, -, ⟨hlo, hhi, hle⟩, rfl⟩ := h
  refine ⟨hlo, hhi, hle, ?_⟩
  unfold readStep at hstep
  split at hstep
  · cases hstep
    simp
  · rw [ofOption_eq_ok, Option.filter_eq_some_iff] at hstep
    exact ⟨of_decide_eq_true hstep.2, lt_of_atoi hstep.1⟩

section

variable (hmin : 0 ≤ minVal) (hmax : maxVal < 64)
include hmin hmax

/-- **The loop over a part ends**, with the values of the part and those of the overflow. -/
theorem fill_eq (h : readPart minVal maxVal part = .ok p) :
    ∃ bits, fill p.hi p.step 130 p.lo 0#64 = some bits ∧
      ∀ v : ℕ, bits.getLsbD v = true ↔ p.Denotes v ∨ p.Wraps v := by
  obtain ⟨hlo, hhi, hle, hpos, hstep⟩ := readPart_bounds h
  by_cases hsmall : p.step ≤ 64
  · obtain ⟨bits, hfill, hbits⟩ := @fill_small p.hi p.step p.lo 0#64 129 (by omega) hpos hsmall
      (by omega) (by omega)
    refine ⟨bits, hfill, fun v => ?_⟩
    have hwraps : ¬p.Wraps v := by
      rintro ⟨-, hlt, hdvd⟩
      have := Int.le_of_dvd (by omega) hdvd
      omega
    rw [hbits, BitVec.getLsbD_zero, Part.Denotes]
    tauto
  · obtain ⟨bits, hfill, hbits⟩ := @fill_large p.hi p.step p.lo 0#64 129 (by omega) (by omega) hstep
      (by omega) hle (by omega)
    refine ⟨bits, hfill, fun v => ?_⟩
    have hdenotes : p.Denotes v ↔ (v : ℤ) = p.lo := by
      constructor
      · rintro ⟨hge, hw, hdvd⟩
        by_contra hne
        have := Int.le_of_dvd (by omega) hdvd
        omega
      · intro heq
        simp [Part.Denotes, heq, hle]
    rw [hbits, BitVec.getLsbD_zero, hdenotes, Part.Wraps]
    by_cases heq : (v : ℤ) = p.lo
    · simp [heq]
    · have hlt : (v : ℤ) ≤ p.lo ↔ (v : ℤ) < p.lo := by omega
      simp [heq, hlt]

/-- The bits of the fields are those of their parts, whatever the order. -/
theorem foldlM_parsePart {texts : List (List Char)}
    (h : texts.foldlM (fun bits part => do return bits ||| (← parsePart minVal maxVal part)) bits =
      .ok bits') :
    ∃ parts, texts.mapM (readPart minVal maxVal) = .ok parts ∧ ∀ v : ℕ, bits'.getLsbD v = true ↔
      bits.getLsbD v = true ∨ ∃ p ∈ parts, p.Denotes v ∨ p.Wraps v := by
  induction texts generalizing bits with
  | nil => cases h; exact ⟨[], rfl, by simp⟩
  | cons text texts ih =>
    simp only [foldlM_cons, parsePart, bind_eq_ok, pure_eq_ok_iff, ofOption_eq_ok] at h
    obtain ⟨_, ⟨added, ⟨p, hp, hfill⟩, rfl⟩, h⟩ := h
    obtain ⟨_, hfill', hadded⟩ := fill_eq hmin hmax hp
    obtain rfl := Option.mem_unique hfill' hfill
    obtain ⟨parts, hparts, hbits⟩ := ih h
    refine ⟨p :: parts, by simp [hp, hparts], fun v => ?_⟩
    rw [hbits, BitVec.getLsbD_or, Bool.or_eq_true, hadded, or_assoc, exists_mem_cons_iff]

/-- A field whose parts are read is accepted: every loop ends. -/
theorem parseField_of_mapM {parts : List Part}
    (h : (spec.splitOn ',').mapM (readPart minVal maxVal) = .ok parts) :
    ∃ bits, parseField spec minVal maxVal = .ok bits := by
  unfold parseField
  generalize spec.splitOn ',' = texts, 0#64 = bits at h ⊢
  rw [mapM_eq_ok] at h
  induction h generalizing bits with
  | nil => exact ⟨bits, rfl⟩
  | cons hp _ ih =>
    obtain ⟨added, hfill, -⟩ := fill_eq hmin hmax hp
    simpa [parsePart, hp, hfill, ofOption] using ih (bits ||| added)

end

theorem largest_step_read : ∃ bits, parseField "2/9223372036854775807".toList 1 31 = .ok bits :=
  parseField_of_mapM (by decide) (by decide) rfl

/-- **A field denotes the values of its parts, and nothing outside its range, if and only if every
value that a part reaches by overflow is a value of some part.** -/
theorem parseField_exact_iff (hmin : 0 ≤ minVal) (hmax : maxVal < 64)
    (h : parseField spec minVal maxVal = .ok bits) :
    ∃ parts, (spec.splitOn ',').mapM (readPart minVal maxVal) = .ok parts ∧
      ((∀ v : ℕ, (bits.getLsbD v = true ↔ ∃ p ∈ parts, p.Denotes v) ∧
          (bits.getLsbD v = true → minVal ≤ v ∧ v ≤ maxVal)) ↔
        ∀ p ∈ parts, ∀ v, p.Wraps v → ∃ q ∈ parts, q.Denotes v) := by
  obtain ⟨parts, hparts, hbits⟩ := foldlM_parsePart hmin hmax h
  simp only [BitVec.getLsbD_zero, Bool.false_eq_true, false_or] at hbits
  refine ⟨parts, hparts, fun hexact p hp v hv => ?_, fun hwraps v => ?_⟩
  · obtain ⟨n, rfl⟩ := Int.eq_ofNat_of_zero_le hv.1
    exact (hexact n).1.1 ((hbits n).2 ⟨p, hp, .inr hv⟩)
  · have hiff : bits.getLsbD v = true ↔ ∃ p ∈ parts, p.Denotes v := by
      rw [hbits]
      constructor
      · rintro ⟨p, hp, hv | hv⟩
        · exact ⟨p, hp, hv⟩
        · exact hwraps p hp v hv
      · rintro ⟨p, hp, hv⟩
        exact ⟨p, hp, .inl hv⟩
    refine ⟨hiff, fun hv => ?_⟩
    obtain ⟨p, hp, hlo, hhi, -⟩ := hiff.1 hv
    obtain ⟨part, -, hread⟩ := (mapM_eq_ok.1 hparts).exists_of_mem_right hp
    have := readPart_bounds hread
    omega

/-- Every quarter of an hour, and minute 3. -/
theorem quarters_exact : ∃ bits parts, parseField "*/15,3".toList 0 59 = .ok bits ∧
    ("*/15,3".toList.splitOn ',').mapM (readPart 0 59) = .ok parts ∧
    ((∀ v : ℕ, (bits.getLsbD v = true ↔ ∃ p ∈ parts, p.Denotes v) ∧
        (bits.getLsbD v = true → 0 ≤ (v : ℤ) ∧ (v : ℤ) ≤ 59)) ↔
      ∀ p ∈ parts, ∀ v, p.Wraps v → ∃ q ∈ parts, q.Denotes v) :=
  ⟨_, (parseField_exact_iff (by decide) (by decide)
    (rfl : parseField "*/15,3".toList 0 59 = .ok _)).imp fun _ h => ⟨rfl, h⟩⟩

/-- From day 2 with the largest step: the loop overflows twice and sets day 0. -/
theorem overflow_sets_day_zero : ∃ bits p,
    parseField "2/9223372036854775807".toList 1 31 = .ok bits ∧
    ("2/9223372036854775807".toList.splitOn ',').mapM (readPart 1 31) = .ok [p] ∧
    bits.getLsbD 0 = true ∧ ¬p.Denotes 0 :=
  ⟨5#64, ⟨2, 31, 9223372036854775807⟩, by decide, by decide, by decide, by simp [Part.Denotes]⟩

end Filament.Cron
