import Mathlib.Tactic.Ring
import Mathlib.Data.List.Basic

/-!
# Binary formats

Readers of byte strings that count what they allocate.

* `u32` : a number as four bytes, the most significant first;
* `Read` : a reader, which may reject but always says what it has left and has allocated;
* `readByte`, `readU32`, `readBlock`, `readMany` : the readers of a length-prefixed format;
* `Exact` : a reader takes exactly the encoding of what it returns;
* `Spends` : a reader allocates no more than it consumes.
-/

namespace Wire

open List

abbrev Bytes := List UInt8

/-- Four bytes, the most significant first. -/
def u32 (n : ℕ) : Bytes :=
  [UInt8.ofNat (n / 2 ^ 24), UInt8.ofNat (n / 2 ^ 16), UInt8.ofNat (n / 2 ^ 8), UInt8.ofNat n]

@[simp] theorem length_u32 (n : ℕ) : (u32 n).length = 4 := rfl

/-- The number of four bytes. -/
def ofU32 (a b c d : UInt8) : ℕ :=
  ((a.toNat * 2 ^ 8 + b.toNat) * 2 ^ 8 + c.toNat) * 2 ^ 8 + d.toNat

theorem ofU32_lt (a b c d : UInt8) : ofU32 a b c d < 2 ^ 32 := by
  have := a.toNat_lt
  have := b.toNat_lt
  have := c.toNat_lt
  have := d.toNat_lt
  unfold ofU32
  omega

theorem u32_ofU32 (a b c d : UInt8) : u32 (ofU32 a b c d) = [a, b, c, d] := by
  have := a.toNat_lt
  have := b.toNat_lt
  have := c.toNat_lt
  have := d.toNat_lt
  simp only [u32, cons.injEq, and_true]
  refine ⟨?_, ?_, ?_, ?_⟩ <;>
    · apply UInt8.toNat_inj.1
      rw [UInt8.toNat_ofNat']
      unfold ofU32
      omega

theorem ofU32_u32 {n : ℕ} (h : n < 2 ^ 32) :
    ofU32 (UInt8.ofNat (n / 2 ^ 24)) (UInt8.ofNat (n / 2 ^ 16)) (UInt8.ofNat (n / 2 ^ 8))
      (UInt8.ofNat n) = n := by
  simp only [ofU32, UInt8.toNat_ofNat']
  omega

/-! ### Readers -/

/-- What is left to read, and the bytes that were allocated for what was read. -/
structure Reader where
  rest : Bytes
  allocated : ℕ

/-- A reader of values; it returns `none` when it rejects. -/
def Read (α : Type) : Type := Reader → Option α × Reader

instance : Monad Read where
  pure a := fun r => (some a, r)
  bind x f := fun r =>
    match x r with
    | (some a, r') => f a r'
    | (none, r') => (none, r')

variable {α β : Type} {x : Read α} {f : α → Read β} {r r' : Reader}

theorem pure_eq_some {a b : α} : (pure a : Read α) r = (some b, r') ↔ a = b ∧ r = r' := by
  show (some a, r) = (some b, r') ↔ _
  simp

theorem bind_eq_some {b : β} {r'' : Reader} :
    (x >>= f) r = (some b, r'') ↔ ∃ a r', x r = (some a, r') ∧ f a r' = (some b, r'') := by
  show (match x r with | (some a, r') => f a r' | (none, r') => (none, r')) = _ ↔ _
  split
  · next a r' h => simp [h]
  · next r' h => simp [h]

/-- Reject unless a condition holds. -/
def require (p : Prop) [Decidable p] : Read Unit := fun r => if p then (some (), r) else (none, r)

theorem require_eq_some {p : Prop} [Decidable p] {u : Unit} :
    require p r = (some u, r') ↔ p ∧ r = r' := by
  unfold require
  split_ifs with h <;> simp [h]

def readByte : Read UInt8 := fun r =>
  match r.rest with
  | b :: rest => (some b, { r with rest := rest })
  | [] => (none, r)

def readU32 : Read ℕ := fun r =>
  match r.rest with
  | a :: b :: c :: d :: rest => (some (ofU32 a b c d), { r with rest := rest })
  | _ => (none, r)

/-- A block of bytes with its length in front; it is allocated once the length is known to be there. -/
def readBlock : Read Bytes := do
  let n ← readU32
  fun r =>
    if n ≤ r.rest.length then (some (r.rest.take n), ⟨r.rest.drop n, r.allocated + n⟩) else (none, r)

/-- A number of values, one after the other. -/
def readMany (x : Read α) : ℕ → Read (List α)
  | 0 => pure []
  | n + 1 => do
    let a ← x
    let as ← readMany x n
    return a :: as

/-! ### Exact readers -/

/-- A reader takes exactly the encoding of what it returns, and reads every valid value back. -/
structure Exact (x : Read α) (encode : α → Bytes) (valid : α → Prop) : Prop where
  read : ∀ {r r' a}, x r = (some a, r') → valid a ∧ r.rest = encode a ++ r'.rest
  written : ∀ {a}, valid a → ∀ rest n, ∃ m, x ⟨encode a ++ rest, n⟩ = (some a, ⟨rest, m⟩)

theorem exact_readByte : Exact readByte (fun b => [b]) fun _ => True where
  read := by
    rintro ⟨rest, n⟩ r' b h
    cases rest with
    | nil => cases h
    | cons c rest =>
      cases h
      exact ⟨trivial, rfl⟩
  written := fun _ rest n => ⟨n, rfl⟩

theorem readU32_u32 {n : ℕ} (h : n < 2 ^ 32) (rest : Bytes) (m : ℕ) :
    readU32 ⟨u32 n ++ rest, m⟩ = (some n, ⟨rest, m⟩) := by
  simp only [readU32, u32, cons_append, nil_append, ofU32_u32 h]

theorem exact_readU32 : Exact readU32 u32 (· < 2 ^ 32) where
  read := by
    rintro ⟨rest, n⟩ r' k h
    match rest, h with
    | a :: b :: c :: d :: rest, h =>
      cases h
      exact ⟨ofU32_lt a b c d, by simp [u32_ofU32]⟩
    | [_, _, _], h => cases h
    | [_, _], h => cases h
    | [_], h => cases h
    | [], h => cases h
  written := fun h rest n => ⟨n, readU32_u32 h rest n⟩

/-- The encoding of a block. -/
def block (b : Bytes) : Bytes := u32 b.length ++ b

theorem exact_readBlock : Exact readBlock block (·.length < 2 ^ 32) where
  read := by
    intro r r'' b h
    obtain ⟨n, r', hn, h⟩ := bind_eq_some.1 h
    obtain ⟨hlt, hrest⟩ := exact_readU32.read hn
    split_ifs at h with hle
    · obtain ⟨rfl, rfl⟩ : r'.rest.take n = b ∧
          Reader.mk (r'.rest.drop n) (r'.allocated + n) = r'' := by
        simpa using h
      have hlength : (r'.rest.take n).length = n := length_take_of_le hle
      refine ⟨by rwa [hlength], ?_⟩
      rw [hrest, block, hlength, append_assoc, take_append_drop]
    · cases h
  written := by
    intro b hb rest n
    refine ⟨n + b.length, bind_eq_some.2 ⟨b.length, ⟨b ++ rest, n⟩, ?_, ?_⟩⟩
    · rw [block, append_assoc]
      exact readU32_u32 hb _ n
    · simp

theorem exact_readMany {encode : α → Bytes} {valid : α → Prop} (h : Exact x encode valid) (n : ℕ) :
    Exact (readMany x n) (fun as => as.flatMap encode) fun as => as.length = n ∧ ∀ a ∈ as, valid a where
  read := by
    intro r r' as hread
    induction n generalizing r as with
    | zero =>
      obtain ⟨rfl, rfl⟩ := pure_eq_some.1 hread
      simp
    | succ n ih =>
      obtain ⟨a, r₁, ha, hread⟩ := bind_eq_some.1 hread
      obtain ⟨as', r₂, has, hread⟩ := bind_eq_some.1 hread
      obtain ⟨rfl, rfl⟩ := pure_eq_some.1 hread
      obtain ⟨hvalid, hrest⟩ := h.read ha
      obtain ⟨⟨hlength, hall⟩, hrest'⟩ := ih has
      refine ⟨⟨by simp [hlength], forall_mem_cons.2 ⟨hvalid, hall⟩⟩, ?_⟩
      rw [hrest, hrest', flatMap_cons, append_assoc]
  written := by
    intro as hvalid rest m
    induction n generalizing as m with
    | zero =>
      obtain rfl := length_eq_zero_iff.1 hvalid.1
      exact ⟨m, rfl⟩
    | succ n ih =>
      obtain ⟨a, as, rfl⟩ := exists_cons_of_length_eq_add_one hvalid.1
      obtain ⟨ha, hall⟩ := forall_mem_cons.1 hvalid.2
      obtain ⟨m₁, h₁⟩ := h.written ha (as.flatMap encode ++ rest) m
      obtain ⟨m₂, h₂⟩ := ih ⟨by simpa using hvalid.1, hall⟩ m₁
      refine ⟨m₂, bind_eq_some.2 ⟨a, _, ?_, bind_eq_some.2 ⟨as, _, h₂, rfl⟩⟩⟩
      rw [flatMap_cons, append_assoc]
      exact h₁

/-! ### Allocation -/

/-- A reader allocates no more than it consumes, also when it rejects. -/
def Spends (x : Read α) : Prop :=
  ∀ r, (x r).2.allocated + (x r).2.rest.length ≤ r.allocated + r.rest.length

theorem spends_pure (a : α) : Spends (pure a : Read α) := fun _ => le_rfl

theorem spends_require (p : Prop) [Decidable p] : Spends (require p) := by
  intro r
  unfold require
  split_ifs <;> exact le_rfl

theorem Spends.bind (hx : Spends x) (hf : ∀ a, Spends (f a)) : Spends (x >>= f) := by
  intro r
  have hxr := hx r
  show (match x r with | (some a, r') => f a r' | (none, r') => (none, r')).2.allocated +
    (match x r with | (some a, r') => f a r' | (none, r') => (none, r')).2.rest.length ≤ _
  split
  · next a r' h =>
    rw [h] at hxr
    exact (hf a r').trans hxr
  · next r' h =>
    rw [h] at hxr
    exact hxr

theorem spends_readByte : Spends readByte := by
  rintro ⟨rest, n⟩
  cases rest with
  | nil => exact le_rfl
  | cons b rest => simp [readByte]

theorem spends_readU32 : Spends readU32 := by
  rintro ⟨rest, n⟩
  unfold readU32
  split
  · next h =>
    simp only at h
    simp only [h, length_cons]
    omega
  · exact le_rfl

theorem spends_readBlock : Spends readBlock := by
  refine spends_readU32.bind fun n r => ?_
  split_ifs with hle
  · simp only [length_drop]
    omega
  · exact le_rfl

theorem spends_readMany (h : Spends x) (n : ℕ) : Spends (readMany x n) := by
  induction n with
  | zero => exact spends_pure []
  | succ n ih => exact h.bind fun a => ih.bind fun as => spends_pure (a :: as)

end Wire
