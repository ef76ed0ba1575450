import Mathlib.Data.List.Basic
import Mathlib.Tactic.Common

/-!
# Escapes of the Prometheus text format

A `HELP` text escapes the backslash and the newline, a label value the
double quote as well: a backslash and a letter stand for the character. An
escape that is not in the list is an error.

* `scan_escape`, `escape_of_scan`: reading undoes escaping, and what was read
  was the escaped text.
* `plain_of_length`: escaping a text makes it longer unless nothing in it
  needs an escape.
-/
namespace SoapStab.Lib.PromText

abbrev Text := List Char

/-- Which characters are written as a backslash and a letter. -/
structure Escapes where
  code : Char → Option Char
  char : Char → Option Char
  inverse : ∀ c e, code c = some e ↔ char e = some c
  backslash : code '\\' ≠ none
  newline : code '\n' ≠ none ∧ char '\n' = none

/-- The escapes of a `HELP` text. -/
def helpEscapes : Escapes where
  code c := if c = '\\' then some '\\' else if c = '\n' then some 'n' else none
  char e := if e = '\\' then some '\\' else if e = 'n' then some '\n' else none
  inverse c e := by grind
  backslash := by decide
  newline := by decide

/-- The escapes of a label value. -/
def labelEscapes : Escapes where
  code c := if c = '\\' then some '\\' else if c = '"' then some '"' else if c = '\n' then some 'n' else none
  char e := if e = '\\' then some '\\' else if e = '"' then some '"' else if e = 'n' then some '\n' else none
  inverse c e := by grind
  backslash := by decide
  newline := by decide

namespace Escapes

variable (E : Escapes)

def escapeChar (c : Char) : Text :=
  match E.code c with
  | some e => ['\\', e]
  | none => [c]

def escape (s : Text) : Text := s.flatMap E.escapeChar

/-- Nothing in the text needs an escape. -/
def Plain (s : Text) : Prop := ∀ c ∈ s, E.code c = none

/-- Reads up to the end or a character that must not stand unescaped. -/
def scan : Text → Option (Text × Text)
  | [] => some ([], [])
  | c :: s =>
    if c = '\\' then
      match s with
      | [] => none
      | e :: s =>
        match E.char e with
        | none => none
        | some d => (scan s).map fun p => (d :: p.1, p.2)
    else
      match E.code c with
      | some _ => some ([], c :: s)
      | none => (scan s).map fun p => (c :: p.1, p.2)

@[simp] theorem escape_nil : E.escape [] = [] := rfl

@[simp] theorem escape_cons (c : Char) (s : Text) : E.escape (c :: s) = E.escapeChar c ++ E.escape s := rfl

theorem escape_of_scan (s : Text) : ∀ {v r : Text}, E.scan s = some (v, r) → E.escape v ++ r = s := by
  fun_induction scan E s with
  | case1 => intro v r h; cases h; rfl
  | case2 => intro v r h; cases h
  | case3 e s he => intro v r h; cases h
  | case4 e s d he ih =>
    intro v r h
    obtain ⟨p, hp, hq⟩ := Option.map_eq_some_iff.mp h
    cases hq
    have hd : E.escapeChar d = ['\\', e] := by unfold escapeChar; rw [(E.inverse d e).mpr he]
    rw [escape_cons, hd, List.append_assoc, ih hp]
    rfl
  | case5 c s hc e he => intro v r h; cases h; rfl
  | case6 c s hc he ih =>
    intro v r h
    obtain ⟨p, hp, hq⟩ := Option.map_eq_some_iff.mp h
    cases hq
    have hd : E.escapeChar c = [c] := by unfold escapeChar; rw [he]
    rw [escape_cons, hd, List.append_assoc, ih hp]
    rfl

theorem scan_escape (s : Text) {r : Text} (hr : ∀ c, r.head? = some c → c ≠ '\\' ∧ E.code c ≠ none) :
    E.scan (E.escape s ++ r) = some (s, r) := by
  induction s with
  | nil =>
    cases r with
    | nil => rfl
    | cons c r =>
      obtain ⟨hc, he⟩ := hr c rfl
      obtain ⟨e, he⟩ := Option.ne_none_iff_exists'.mp he
      rw [escape_nil, List.nil_append, scan.eq_def]
      simp only [hc, if_false, he]
  | cons c s ih =>
    rw [escape_cons, List.append_assoc]
    unfold escapeChar
    cases hc : E.code c with
    | some e => simp [scan, (E.inverse c e).mp hc, ih]
    | none =>
      have hne : c ≠ '\\' := fun h => E.backslash (h ▸ hc)
      rw [List.singleton_append, scan.eq_def]
      simp only [hne, if_false, hc, ih, Option.map_some]

theorem escape_of_plain {s : Text} (h : E.Plain s) : E.escape s = s := by
  induction s with
  | nil => rfl
  | cons c s ih =>
    rw [escape_cons, ih fun d hd => h d (by simp [hd])]
    unfold escapeChar
    rw [h c (by simp)]
    rfl

theorem length_escapeChar (c : Char) : (E.escapeChar c).length = if E.code c = none then 1 else 2 := by
  unfold escapeChar
  cases E.code c <;> rfl

theorem length_le_escape (s : Text) : s.length ≤ (E.escape s).length := by
  induction s with
  | nil => exact Nat.le_refl _
  | cons c s ih =>
    rw [escape_cons, List.length_append, List.length_cons, length_escapeChar]
    split <;> omega

/-- Only a text that needs no escape is not made longer by escaping. -/
theorem plain_of_length {s : Text} (h : (E.escape s).length ≤ s.length) : E.Plain s := by
  induction s with
  | nil => intro c hc; cases hc
  | cons c s ih =>
    rw [escape_cons, List.length_append, List.length_cons, length_escapeChar] at h
    have hle := E.length_le_escape s
    split at h
    · next hc =>
      intro d hd
      rcases List.mem_cons.mp hd with rfl | hd
      · exact hc
      · exact ih (by omega) d hd
    · omega

theorem newline_notMem_escape (s : Text) : '\n' ∉ E.escape s := by
  intro h
  obtain ⟨c, -, hc⟩ := List.mem_flatMap.mp h
  unfold escapeChar at hc
  cases he : E.code c with
  | none =>
    simp only [he, List.mem_singleton] at hc
    exact E.newline.1 (hc ▸ he)
  | some e =>
    simp only [he, List.mem_cons, List.not_mem_nil, or_false] at hc
    rcases hc with hc | rfl
    · exact absurd hc (by decide)
    · have := (E.inverse c _).mp he
      rw [E.newline.2] at this
      cases this

end Escapes

end SoapStab.Lib.PromText
