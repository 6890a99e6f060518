import Filament.Lib.Text

/-!
# JSON strings

Strings and the members of objects as `encoding/json` writes them.

* `escape`, `quote` : a string with its escapes;
* `quote_cut` : a string can be read back from a text that it begins.
-/

namespace Filament.Json

open List

/-- The characters that are escaped: the quote and the backslash, control characters, and those that are
not safe in HTML and JavaScript. -/
def special : List Char :=
  (range 32).map Char.ofNat ++ ['\x22', '\x5c', '<', '>', '&', '\u2028', '\u2029']

/-- What stands for a special character after the backslash: a letter, or its number. -/
def code (c : Char) : List Char :=
  match [('\x22', '\x22'), ('\x5c', '\x5c'), ('\x08', 'b'), ('\x0c', 'f'), ('\n', 'n'), ('\r', 'r'),
    ('\t', 't')].lookup c with
  | some letter => [letter]
  | none => 'u' :: [c.toNat / 4096, c.toNat / 256, c.toNat / 16, c.toNat].map (Nat.digitChar <| · % 16)

def escape (c : Char) : List Char := if c ∈ special then '\x5c' :: code c else [c]

def quote (s : String) : List Char := '\x22' :: (s.toList.flatMap escape ++ ['\x22'])

/-- A member of an object, and what follows it. -/
def member (name : String) (value rest : List Char) : List Char := quote name ++ ':' :: (value ++ rest)

variable {c d : Char} {us vs : List Char}

theorem code_inj (hc : c ∈ special) (hd : d ∈ special) (h : code c <+: code d) : c = d := by
  have hall : special.all fun c => special.all fun d => decide (code c <+: code d → c = d) := by
    decide +kernel
  simp only [all_eq_true, decide_eq_true_eq] at hall
  exact hall c hc d hd h

/-- The first character can be read back. -/
theorem escape_cut (h : escape c ++ us = escape d ++ vs) : c = d ∧ us = vs := by
  have heq : c = d := by
    have hslash : '\x5c' ∈ special := by decide
    unfold escape at h
    split_ifs at h with hc hd hd <;> rw [cons_append, cons_append, cons.injEq] at h
    · -- One of the codes begins the other.
      have hprefix : code d <+: code c ++ us := ⟨vs, h.2.symm⟩
      rcases prefix_or_prefix_of_prefix (prefix_append (code c) us) hprefix with hle | hle
      · exact code_inj hc hd hle
      · exact (code_inj hd hc hle).symm
    · exact absurd (h.1 ▸ hslash) hd
    · exact absurd (h.1 ▸ hslash) hc
    · exact h.1
  subst heq
  exact ⟨rfl, append_cancel_left h⟩

theorem escape_ne_quote : escape c ++ us ≠ '\x22' :: vs := by
  unfold escape
  split_ifs with hc
  · simp
  · rintro h
    exact hc ((cons.inj h).1 ▸ by decide)

theorem body_cut {cs ds : List Char}
    (h : cs.flatMap escape ++ '\x22' :: us = ds.flatMap escape ++ '\x22' :: vs) : cs = ds ∧ us = vs := by
  induction cs generalizing ds with
  | nil =>
    cases ds with
    | nil => exact ⟨rfl, (cons.inj h).2⟩
    | cons d ds =>
      rw [flatMap_cons, append_assoc] at h
      exact absurd h.symm escape_ne_quote
  | cons c cs ih =>
    rw [flatMap_cons, append_assoc] at h
    cases ds with
    | nil => exact absurd h escape_ne_quote
    | cons d ds =>
      rw [flatMap_cons, append_assoc] at h
      obtain ⟨rfl, hrest⟩ := escape_cut h
      obtain ⟨rfl, rfl⟩ := ih hrest
      exact ⟨rfl, rfl⟩

theorem quote_cut {s t : String} : quote s ++ us = quote t ++ vs ↔ s = t ∧ us = vs := by
  refine ⟨fun h => ?_, fun h => by rw [h.1, h.2]⟩
  simp only [quote, cons_append, append_assoc, nil_append, cons.injEq, true_and] at h
  obtain ⟨hs, hrest⟩ := body_cut h
  exact ⟨String.toList_inj.1 hs, hrest⟩

end Filament.Json
