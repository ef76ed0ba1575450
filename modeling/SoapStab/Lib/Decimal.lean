import Mathlib.Data.Int.Basic
import Mathlib.Data.List.TakeWhile
import Mathlib.Data.Nat.Digits.Defs
import Mathlib.Tactic.Common

/-!
# Decimal integers as text

`decInt` writes an integer the way `std::to_string` does: an optional minus
sign and the digits, no leading zeros. `readInt` reads one the way `strtol`
(base 10) does: skip white space, an optional sign, the longest run of
digits, and ignore the rest; `none` when there is no digit.

`readInt_decInt`: reading back what was written, with anything that does not
start with a digit behind it. `readInt_eq_some_iff`: what is read of any text
is the integer that its longest such prefix `Denotes`.
-/
namespace SoapStab.Lib.Decimal

/-- `isspace` in the C locale. -/
def isSpace (c : Char) : Bool := c.toNat = 32 || (decide (9 ≤ c.toNat) && decide (c.toNat ≤ 13))

def decNat (n : Nat) : List Char := Nat.toDigits 10 n

def decInt (z : Int) : List Char := if z < 0 then '-' :: decNat z.natAbs else decNat z.natAbs

/-- The optional sign (`true`: minus) and what follows it. -/
def readSign : List Char → Bool × List Char
  | '-' :: s => (true, s)
  | '+' :: s => (false, s)
  | s => (false, s)

def readInt (s : List Char) : Option Int :=
  let (neg, t) := readSign (s.dropWhile isSpace)
  match t.takeWhile Char.isDigit with
  | [] => none
  | ds => some (if neg then -(Nat.ofDigitChars 10 ds 0 : Int) else Nat.ofDigitChars 10 ds 0)

theorem decNat_isDigit {n : Nat} {c : Char} (h : c ∈ decNat n) : c.isDigit = true :=
  Nat.isDigit_of_mem_toDigits (by decide) (by decide) h

theorem mem_decInt {z : Int} {c : Char} (h : c ∈ decInt z) : c = '-' ∨ c.isDigit = true := by
  unfold decInt at h
  split at h
  · rcases List.mem_cons.mp h with rfl | h
    · exact .inl rfl
    · exact .inr (decNat_isDigit h)
  · exact .inr (decNat_isDigit h)

theorem decNat_ne_nil (n : Nat) : decNat n ≠ [] := Nat.toDigits_ne_nil

theorem decInt_ne_nil (z : Int) : decInt z ≠ [] := by
  unfold decInt
  split
  · exact List.cons_ne_nil _ _
  · exact decNat_ne_nil _

theorem isDigit_bounds {c : Char} (h : c.isDigit = true) : 48 ≤ c.toNat ∧ c.toNat ≤ 57 := by
  simp only [Char.isDigit, Bool.and_eq_true, decide_eq_true_eq] at h
  exact ⟨h.1, h.2⟩

theorem isSpace_of_isDigit {c : Char} (h : c.isDigit = true) : isSpace c = false := by
  have := isDigit_bounds h
  simp only [isSpace, Bool.or_eq_false_iff, Bool.and_eq_false_iff, decide_eq_false_iff_not]
  omega

theorem readSign_of_isDigit {c : Char} {s : List Char} (h : c.isDigit = true) :
    readSign (c :: s) = (false, c :: s) := by
  have hb := isDigit_bounds h
  unfold readSign
  split
  · next heq => cases heq; exact absurd hb (by decide)
  · next heq => cases heq; exact absurd hb (by decide)
  · rfl

theorem takeWhile_digits {ds rest : List Char} (hds : ∀ c ∈ ds, c.isDigit = true)
    (hrest : ∀ c, rest.head? = some c → c.isDigit = false) : (ds ++ rest).takeWhile Char.isDigit = ds := by
  rw [List.takeWhile_append_of_pos hds]
  cases rest with
  | nil => simp
  | cons c cs => simp [hrest c rfl]

/-- The digits of a number end where the digits of the text end. -/
theorem takeWhile_decNat (n : Nat) (rest : List Char) (h : ∀ c, rest.head? = some c → c.isDigit = false) :
    (decNat n ++ rest).takeWhile Char.isDigit = decNat n := takeWhile_digits (fun _ hc => decNat_isDigit hc) h

theorem ofDigitChars_decNat (n : Nat) : Nat.ofDigitChars 10 (decNat n) 0 = n :=
  Nat.ofDigitChars_ten_toDigits

theorem readInt_decInt (z : Int) (rest : List Char)
    (h : ∀ c, rest.head? = some c → c.isDigit = false) : readInt (decInt z ++ rest) = some z := by
  have htake := takeWhile_decNat z.natAbs rest h
  have hval := ofDigitChars_decNat z.natAbs
  have hne := decNat_ne_nil z.natAbs
  unfold decInt
  by_cases hz : z < 0
  · rw [if_pos hz, List.cons_append]
    have hs : ('-' :: (decNat z.natAbs ++ rest)).dropWhile isSpace = '-' :: (decNat z.natAbs ++ rest) := rfl
    simp only [readInt, hs, readSign, htake]
    cases hd : decNat z.natAbs with
    | nil => exact absurd hd hne
    | cons d ds =>
      rw [hd] at hval
      simp only [hval, if_true]
      congr 1; omega
  · rw [if_neg hz]
    cases hd : decNat z.natAbs with
    | nil => exact absurd hd hne
    | cons d ds =>
      have hdig : d.isDigit = true := decNat_isDigit (n := z.natAbs) (by rw [hd]; simp)
      have hs : (d :: (ds ++ rest)).dropWhile isSpace = d :: (ds ++ rest) := by
        simp [isSpace_of_isDigit hdig]
      rw [hd] at hval htake
      rw [List.cons_append] at htake ⊢
      simp only [readInt, hs, readSign_of_isDigit hdig, htake, hval]
      simp only [Bool.false_eq_true, if_false]
      congr 1; omega

/-! ## What a text denotes -/

/-- `n` is the integer that the longest prefix of `s` made of optional white
space, an optional sign and digits denotes. -/
def Denotes (s : List Char) (n : Int) : Prop :=
  ∃ ws sign ds rest, s = ws ++ (sign ++ (ds ++ rest)) ∧ (∀ c ∈ ws, isSpace c = true) ∧
    (sign = [] ∨ sign = ['-'] ∨ sign = ['+']) ∧ ds ≠ [] ∧ (∀ c ∈ ds, c.isDigit = true) ∧
    (∀ c, rest.head? = some c → c.isDigit = false) ∧
    n = if sign = ['-'] then -(Nat.ofDigitChars 10 ds 0 : Int) else Nat.ofDigitChars 10 ds 0

/-- The value of the digits at the start of `t`, negated if `neg`. -/
def readDigits (neg : Bool) (t : List Char) : Option Int :=
  match t.takeWhile Char.isDigit with
  | [] => none
  | ds => some (if neg then -(Nat.ofDigitChars 10 ds 0 : Int) else Nat.ofDigitChars 10 ds 0)

theorem readInt_eq (s : List Char) :
    readInt s = readDigits (readSign (s.dropWhile isSpace)).1 (readSign (s.dropWhile isSpace)).2 := rfl

theorem readDigits_eq_some (neg : Bool) (t : List Char) (n : Int) :
    readDigits neg t = some n ↔ ∃ ds rest, t = ds ++ rest ∧ ds ≠ [] ∧ (∀ c ∈ ds, c.isDigit = true) ∧
      (∀ c, rest.head? = some c → c.isDigit = false) ∧
      n = if neg then -(Nat.ofDigitChars 10 ds 0 : Int) else Nat.ofDigitChars 10 ds 0 := by
  constructor
  · intro h
    refine ⟨t.takeWhile Char.isDigit, t.dropWhile Char.isDigit, List.takeWhile_append_dropWhile.symm, ?_, ?_,
      ?_, ?_⟩
    · intro hnil
      simp [readDigits, hnil] at h
    · exact fun c hc => List.mem_takeWhile_imp hc
    · intro c hc
      have := List.head?_dropWhile_not Char.isDigit t
      simpa [hc] using this
    · unfold readDigits at h
      split at h
      · cases h
      · exact (Option.some.inj h).symm
  · rintro ⟨ds, rest, rfl, hne, hds, hrest, rfl⟩
    have htake := takeWhile_digits hds hrest
    unfold readDigits
    rw [htake]
    cases ds with
    | nil => exact absurd rfl hne
    | cons d ds => rfl

/-- `readSign` takes a sign off the text, if there is one. -/
theorem readSign_spec (t : List Char) :
    ∃ sign, t = sign ++ (readSign t).2 ∧ (sign = [] ∨ sign = ['-'] ∨ sign = ['+']) ∧
      (readSign t).1 = decide (sign = ['-']) := by
  unfold readSign
  split
  · exact ⟨['-'], rfl, by simp, rfl⟩
  · exact ⟨['+'], rfl, by simp, rfl⟩
  · exact ⟨[], rfl, by simp, rfl⟩

theorem readSign_append {sign ds : List Char} (hsign : sign = [] ∨ sign = ['-'] ∨ sign = ['+'])
    (hne : ds ≠ []) (hds : ∀ c ∈ ds, c.isDigit = true) (rest : List Char) :
    readSign (sign ++ (ds ++ rest)) = (decide (sign = ['-']), ds ++ rest) := by
  rcases hsign with rfl | rfl | rfl
  · cases ds with
    | nil => exact absurd rfl hne
    | cons d ds => exact readSign_of_isDigit (hds d (by simp))
  · rfl
  · rfl

/-- The text behind the white space does not start with white space. -/
theorem dropWhile_spaces {ws sign ds : List Char} (hws : ∀ c ∈ ws, isSpace c = true)
    (hsign : sign = [] ∨ sign = ['-'] ∨ sign = ['+']) (hne : ds ≠ []) (hds : ∀ c ∈ ds, c.isDigit = true)
    (rest : List Char) : (ws ++ (sign ++ (ds ++ rest))).dropWhile isSpace = sign ++ (ds ++ rest) := by
  rw [List.dropWhile_append_of_pos hws]
  rcases hsign with rfl | rfl | rfl
  · cases ds with
    | nil => exact absurd rfl hne
    | cons d ds => simp [isSpace_of_isDigit (hds d (by simp))]
  · rfl
  · rfl

/-- **Reading** returns the integer the text denotes, if it denotes one. -/
theorem readInt_eq_some_iff (s : List Char) (n : Int) : readInt s = some n ↔ Denotes s n := by
  rw [readInt_eq, readDigits_eq_some]
  constructor
  · rintro ⟨ds, rest, ht, hne, hds, hrest, hn⟩
    obtain ⟨sign, hs, hsign, hneg⟩ := readSign_spec (s.dropWhile isSpace)
    refine ⟨s.takeWhile isSpace, sign, ds, rest, ?_, fun c hc => List.mem_takeWhile_imp hc, hsign, hne, hds,
      hrest, ?_⟩
    · rw [← ht, ← hs, List.takeWhile_append_dropWhile]
    · simpa [hneg] using hn
  · rintro ⟨ws, sign, ds, rest, rfl, hws, hsign, hne, hds, hrest, hn⟩
    rw [dropWhile_spaces hws hsign hne hds, readSign_append hsign hne hds]
    exact ⟨ds, rest, rfl, hne, hds, hrest, by simpa using hn⟩

end SoapStab.Lib.Decimal
