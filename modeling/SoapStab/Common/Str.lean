import Mathlib.Data.List.TakeWhile
import Mathlib.Tactic.Common

/-!
# Strings and C strings

`std::string` is a sequence of characters of any length, NUL included. A
`const char *` reads up to the first NUL, so handing a string over through
`c_str()` and building a `std::string` from the pointer again keeps
`cStr s` of it: all of `s` exactly when `s` has no NUL (`cStr_eq_self`).
-/
namespace SoapStab

/-- `std::string` -/
abbrev Str := List Char

def nul : Char := Char.ofNat 0

def NulFree (s : Str) : Prop := nul ∉ s

instance (s : Str) : Decidable (NulFree s) := inferInstanceAs (Decidable (nul ∉ s))

/-- What a reader of `s.c_str()` sees. -/
def cStr (s : Str) : Str := s.takeWhile (· ≠ nul)

theorem cStr_nulFree (s : Str) : NulFree (cStr s) := by
  intro h
  have := List.mem_takeWhile_imp h
  simp at this

theorem cStr_eq_self (s : Str) : cStr s = s ↔ NulFree s := by
  unfold cStr NulFree
  rw [List.takeWhile_eq_self_iff]
  constructor
  · intro h hn; simpa using h nul hn
  · intro h c hc
    have : c ≠ nul := fun e => h (e ▸ hc)
    simpa using this

theorem cStr_append {a : Str} (h : NulFree a) (b : Str) : cStr (a ++ b) = a ++ cStr b := by
  unfold cStr
  refine List.takeWhile_append_of_pos fun c hc => ?_
  have : c ≠ nul := fun e => h (e ▸ hc)
  simpa using this

end SoapStab
