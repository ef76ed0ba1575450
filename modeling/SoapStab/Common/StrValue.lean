import SoapStab.Common.Exceptions
import SoapStab.Common.Logging

/-!
# Property values and their text

The six types a configuration property may have (`PropType`), the variant
that holds a value of one of them (`Var`), and the specialisations of
`str_to_value` and `value_to_str`.

The integer parsers go through `std::stoi` and `std::stoll`: the longest
prefix that is an integer, checked against the range of `int` respectively
`long long`, then cast to the property's type. Their exceptions
(`std::invalid_argument`, `std::out_of_range`) are neither codes nor
`ibb_exception`s.

`strToValue_valueToStr`: parsing undoes printing for every value but
`Level.warn`, which prints as "warning" while `str_to_value` accepts "warn"
only. `strToValue_cStr` is the same through a C string, where a text with a
NUL is cut short as well.
-/
namespace SoapStab

open SoapStab.Lib.Decimal

/-- The alternatives of `config_property_value_var`.
mirrors src/config/config.h:33 -/
inductive PropType where
  | string | uint16 | int32 | int64 | bool | logLevel
  deriving DecidableEq

abbrev PropType.Val : PropType → Type
  | .string => Str
  | .uint16 => UInt16
  | .int32 => Int32
  | .int64 => Int64
  | .bool => Bool
  | .logLevel => Level

instance : (P : PropType) → DecidableEq P.Val
  | .string => inferInstanceAs (DecidableEq Str)
  | .uint16 => inferInstanceAs (DecidableEq UInt16)
  | .int32 => inferInstanceAs (DecidableEq Int32)
  | .int64 => inferInstanceAs (DecidableEq Int64)
  | .bool => inferInstanceAs (DecidableEq Bool)
  | .logLevel => inferInstanceAs (DecidableEq Level)

/-- `config_property_value_var` -/
structure Var where
  type : PropType
  val : type.Val
  deriving DecidableEq

/-- `boost::strict_get<P>`; `none` where it throws `bad_get`. -/
def Var.strictGet (v : Var) (P : PropType) : Option P.Val :=
  if h : v.type = P then some (h ▸ v.val) else none

@[simp] theorem Var.strictGet_mk (P : PropType) (x : P.Val) : (Var.mk P x).strictGet P = some x := by
  simp [Var.strictGet]

theorem Var.strictGet_eq_some {v : Var} {P : PropType} {x : P.Val} :
    v.strictGet P = some x ↔ v = ⟨P, x⟩ := by
  obtain ⟨Q, y⟩ := v
  unfold Var.strictGet
  refine ⟨fun h => ?_, fun h => ?_⟩
  · split at h
    · next he => cases he; cases h; rfl
    · cases h
  · cases h; simp

theorem Var.strictGet_eq_none {v : Var} {P : PropType} : v.strictGet P = none ↔ v.type ≠ P := by
  unfold Var.strictGet
  split <;> simp_all

/-! ## `value_to_str` -/

/-- mirrors src/common/str_value.cpp:62-75 and src/common/str_value.h:44-48 -/
def valueToStr : (P : PropType) → P.Val → Str
  | .string, s => s
  | .uint16, n => decInt n.toNat
  | .int32, n => decInt n.toInt
  | .int64, n => decInt n.toInt
  | .bool, b => if b then "true".toList else "false".toList
  | .logLevel, l => l.toStringView

/-! ## `str_to_value` -/

/-- An exception of the standard library. -/
def stdInvalidArgument (f : String) : Thrown := .other ("invalid_argument: ".toList ++ f.toList)

def stdOutOfRange (f : String) : Thrown := .other ("out_of_range: ".toList ++ f.toList)

/-- `std::stoi`, on a 32-bit `int`. -/
def stoi (str : Str) : Except Thrown Int :=
  match readInt str with
  | none => .error (stdInvalidArgument "stoi")
  | some n => if -2 ^ 31 ≤ n ∧ n < 2 ^ 31 then .ok n else .error (stdOutOfRange "stoi")

/-- `std::stoll`, on a 64-bit `long long`. -/
def stoll (str : Str) : Except Thrown Int :=
  match readInt str with
  | none => .error (stdInvalidArgument "stoll")
  | some n => if -2 ^ 63 ≤ n ∧ n < 2 ^ 63 then .ok n else .error (stdOutOfRange "stoll")

/-- mirrors src/common/str_value.cpp:55 -/
def availableLevels : List Str :=
  ["off".toList, "critical".toList, "error".toList, "warn".toList, "info".toList, "debug".toList,
    "trace".toList]

/-- mirrors src/common/str_value.cpp:53-60 -/
def strToLevel (str : Str) : Except Thrown Level :=
  if str ∈ availableLevels then .ok (Level.fromStr str) else .error (.exCode EX_BAD_LOG_LEVEL)

/-- mirrors src/common/str_value.cpp:18-60; the casts to `uint16_t`,
`int32_t` and `int64_t` wrap. -/
def strToValue : (P : PropType) → Str → Except Thrown P.Val
  | .string, str => .ok str
  | .uint16, str => (stoi str).map UInt16.ofInt
  | .int32, str => (stoi str).map Int32.ofInt
  | .int64, str => (stoll str).map Int64.ofInt
  | .bool, str => .ok (decide ("true".toList = str))
  | .logLevel, str => strToLevel str

/-! ## Reading back what was printed -/

theorem decInt_nulFree (z : Int) : NulFree (decInt z) := by
  intro hn
  rcases mem_decInt hn with h | h <;> exact absurd h (by decide)

theorem readInt_decInt_nil (z : Int) : readInt (decInt z) = some z := by
  have h := readInt_decInt z [] (by simp)
  rwa [List.append_nil] at h

theorem stoi_decInt {z : Int} (h : -2 ^ 31 ≤ z ∧ z < 2 ^ 31) : stoi (decInt z) = .ok z := by
  unfold stoi
  rw [readInt_decInt_nil]
  exact if_pos h

theorem stoll_decInt {z : Int} (h : -2 ^ 63 ≤ z ∧ z < 2 ^ 63) : stoll (decInt z) = .ok z := by
  unfold stoll
  rw [readInt_decInt_nil]
  exact if_pos h

theorem uint16_ofInt_toNat (n : UInt16) : UInt16.ofInt n.toNat = n := by
  have hlt := n.toNat_lt
  apply UInt16.toNat_inj.mp
  simp only [UInt16.ofInt, UInt16.toNat_ofNat']
  omega

/-- The values whose text `str_to_value` reads back. -/
def Readable : (P : PropType) → P.Val → Prop
  | .logLevel, l => l ≠ .warn
  | _, _ => True

instance : (P : PropType) → (x : P.Val) → Decidable (Readable P x)
  | .logLevel, l => inferInstanceAs (Decidable (l ≠ Level.warn))
  | .string, _ => .isTrue trivial
  | .uint16, _ => .isTrue trivial
  | .int32, _ => .isTrue trivial
  | .int64, _ => .isTrue trivial
  | .bool, _ => .isTrue trivial

theorem strToValue_valueToStr (P : PropType) (x : P.Val) :
    strToValue P (valueToStr P x) = .ok x ↔ Readable P x := by
  cases P with
  | string => exact iff_of_true rfl trivial
  | uint16 =>
    have hlt := x.toNat_lt
    refine iff_of_true ?_ trivial
    simp only [strToValue, valueToStr]
    rw [stoi_decInt (by omega)]
    exact congrArg Except.ok (uint16_ofInt_toNat x)
  | int32 =>
    refine iff_of_true ?_ trivial
    simp only [strToValue, valueToStr]
    rw [stoi_decInt ⟨Int32.le_toInt x, Int32.toInt_lt x⟩]
    exact congrArg Except.ok (Int32.ofInt_toInt x)
  | int64 =>
    refine iff_of_true ?_ trivial
    simp only [strToValue, valueToStr]
    rw [stoll_decInt ⟨Int64.le_toInt x, Int64.toInt_lt x⟩]
    exact congrArg Except.ok (Int64.ofInt_toInt x)
  | bool => cases x <;> exact iff_of_true (by decide) trivial
  | logLevel => cases x <;> simp only [strToValue, valueToStr, Readable] <;> decide

/-- Only a string can print to a text with a NUL. -/
theorem valueToStr_nulFree {P : PropType} (hP : P ≠ .string) (x : P.Val) : NulFree (valueToStr P x) := by
  cases P with
  | string => exact absurd rfl hP
  | uint16 | int32 | int64 => exact decInt_nulFree _
  | bool => cases x <;> exact (by decide)
  | logLevel => cases x <;> exact (by decide)

theorem strToValue_cStr (P : PropType) (x : P.Val) :
    strToValue P (cStr (valueToStr P x)) = .ok x ↔ Readable P x ∧ NulFree (valueToStr P x) := by
  by_cases hP : P = .string
  · subst hP
    refine ⟨fun h => ⟨trivial, (cStr_eq_self _).mp (Except.ok.inj h)⟩, fun h => ?_⟩
    exact congrArg Except.ok ((cStr_eq_self _).mpr h.2)
  · have hfree := valueToStr_nulFree hP x
    rw [(cStr_eq_self _).mpr hfree, strToValue_valueToStr]
    exact (and_iff_left hfree).symm

end SoapStab
