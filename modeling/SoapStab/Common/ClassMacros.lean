import SoapStab.Common.StrValue
import SoapStab.Lib.Search
import Mathlib.Data.List.Count

/-!
# Names out of `__PRETTY_FUNCTION__`

`methodName` and `className` cut a name out of the text of a signature
`R N(A)`: return type, name, parameters. Three independent searches say
where: the first `::`, the last space before it, the last `(`. Positions are
`size_t`s, `npos` where nothing is found, and `npos + 1` is 0.

The property: both find the name, whatever is in the three parts, and
no subtraction of positions underflows. It fails, for `int main(int, char**)`
to begin with. `namesExtracted_iff` is the exact condition, `Signature.Clear`.
-/
namespace SoapStab

open SoapStab.Lib

/-- `size_t` -/
abbrev SizeT := UInt64

/-- `std::string::npos` -/
def npos : SizeT := -1

/-- `std::string_view`, by its characters. `max_size()` is below `npos`. -/
structure StringView where
  chars : Str
  size_lt : chars.length < npos.toNat
  deriving DecidableEq

/-- A position, `npos` where nothing was found. -/
def position : Option Nat → SizeT
  | some i => .ofNat i
  | none => npos

def StringView.find (v : StringView) (s : Str) : SizeT := position (Search.find s v.chars)

def StringView.rfind (v : StringView) (s : Str) : SizeT := position (Search.rfind s v.chars)

def StringView.substr (v : StringView) (pos n : SizeT) : Except Thrown StringView :=
  if v.chars.length < pos.toNat then .error (stdOutOfRange "basic_string_view::substr")
  else .ok ⟨(v.chars.drop pos.toNat).take n.toNat, by
    have := v.size_lt
    rw [List.length_take, List.length_drop]
    omega⟩

/-- `::` -/
def scope : Str := "::".toList

/-- `begin`, where `colons` was found.
mirrors src/common/class_macros.h:17,27 -/
def nameBegin (prettyFunction : StringView) (colons : SizeT) : Except Thrown SizeT := do
  let before ← prettyFunction.substr 0 colons
  return before.rfind " ".toList + 1

/-- mirrors src/common/class_macros.h:15-21 -/
def methodName (prettyFunction : StringView) : Except Thrown StringView := do
  let colons := prettyFunction.find scope
  let begin ← nameBegin prettyFunction colons
  let end' := prettyFunction.rfind "(".toList - begin
  prettyFunction.substr begin end'

/-- mirrors src/common/class_macros.h:23-31 -/
def className (prettyFunction : StringView) : Except Thrown StringView := do
  let colons := prettyFunction.find scope
  if colons = npos then
    return ⟨scope, by decide⟩
  let begin ← nameBegin prettyFunction colons
  let end' := colons - begin
  prettyFunction.substr begin end'

/-- `end`, computed as `minuend - begin`, underflows. -/
def EndUnderflows (prettyFunction : StringView) (minuend : SizeT) : Prop :=
  ∃ begin, nameBegin prettyFunction (prettyFunction.find scope) = .ok begin ∧ minuend < begin

/-- Every parenthesis that is closed was opened, and the other way round. -/
def Balanced (s : Str) : Prop :=
  s.count '(' = s.count ')' ∧ ∀ p ∈ s.inits, p.count ')' ≤ p.count '('

instance (s : Str) : Decidable (Balanced s) :=
  inferInstanceAs (Decidable (s.count '(' = s.count ')' ∧ ∀ p ∈ s.inits, p.count ')' ≤ p.count '('))

/-- A signature `R N(A)`. -/
structure Signature where
  returnType : Str
  name : Str
  parameters : Str
  name_plain : ' ' ∉ name ∧ '(' ∉ name ∧ ')' ∉ name
  balanced : Balanced parameters
  size_lt : (returnType ++ ' ' :: (name ++ '(' :: (parameters ++ [')']))).length < npos.toNat

/-- `__PRETTY_FUNCTION__` -/
def Signature.prettyFunction (f : Signature) : StringView := ⟨_, f.size_lt⟩

/-- `q` is what stands before the first `::` of a name. -/
def LeadingQualifier (name q : Str) : Prop :=
  (∃ rest, name = q ++ (scope ++ rest)) ∧ ∀ q' rest, name = q' ++ (scope ++ rest) → q.length ≤ q'.length

/-- The property of one signature. -/
structure NamesExtracted (f : Signature) : Prop where
  method : (methodName f.prettyFunction).map StringView.chars = .ok f.name
  qualified : ∀ q, LeadingQualifier f.name q → (className f.prettyFunction).map StringView.chars = .ok q
  unqualified : ¬ scope <:+: f.name → (className f.prettyFunction).map StringView.chars = .ok scope
  methodEnd : ¬ EndUnderflows f.prettyFunction (f.prettyFunction.rfind "(".toList)
  classEnd : f.prettyFunction.find scope ≠ npos →
    ¬ EndUnderflows f.prettyFunction (f.prettyFunction.find scope)

/-- There is no `::` left of the name, and where the name has none, right of
it neither. The parameters have no `(`, and with an unqualified name no space;
or else what follows their last space is that same name up to their last `(`. -/
structure Signature.Clear (f : Signature) : Prop where
  returnType : ¬ scope <:+: f.returnType
  qualified : scope <:+: f.name → '(' ∉ f.parameters
  unqualified : ¬ scope <:+: f.name → ¬ scope <:+: f.parameters ∧
    ((' ' ∉ f.parameters ∧ '(' ∉ f.parameters) ∨
      ∃ p q, f.parameters = p ++ ' ' :: (f.name ++ '(' :: q) ∧ ' ' ∉ q ∧ '(' ∉ q)

/-! ## Positions -/

theorem scope_ne_nil : scope ≠ [] := by decide

theorem StringView.toNat_ofNat (v : StringView) {i : Nat} (h : i ≤ v.chars.length) :
    (UInt64.ofNat i).toNat = i := by
  have hsize : npos.toNat < UInt64.size := npos.toNat_lt
  have := v.size_lt
  exact UInt64.toNat_ofNat_of_lt' (by omega)

theorem substr_ok (v : StringView) (pos n : SizeT) (h : pos.toNat ≤ v.chars.length) :
    ∃ w, v.substr pos n = .ok w ∧ w.chars = (v.chars.drop pos.toNat).take n.toNat :=
  ⟨_, if_neg (by omega), rfl⟩

/-- The position behind the last space of a text. -/
def lastWord (s : Str) : Nat := (Search.rfind [' '] s).elim 0 (· + 1)

theorem lastWord_of_last (u : Str) {w : Str} (h : ' ' ∉ w) : lastWord (u ++ ' ' :: w) = u.length + 1 := by
  rw [lastWord, Search.rfind_of_last h]
  rfl

theorem lastWord_le (s : Str) : lastWord s ≤ s.length := by
  unfold lastWord
  cases h : Search.rfind [' '] s with
  | none => exact Nat.zero_le _
  | some i => exact Search.rfind_le h

/-- What stands before the first `::`: everything, if there is none. -/
def beforeScope (s : Str) : Str := s.take ((Search.find scope s).getD s.length)

/-- Where the functions take the name to start. -/
def nameStart (s : Str) : Nat := lastWord (beforeScope s)

theorem find_le {s : Str} {k : Nat} (h : Search.find scope s = some k) : k ≤ s.length :=
  Nat.le_of_add_right_le (Search.find_le h)

theorem nameStart_le_find {s : Str} {k : Nat} (h : Search.find scope s = some k) : nameStart s ≤ k := by
  have := lastWord_le (beforeScope s)
  rw [← nameStart, beforeScope, h, Option.getD_some] at this
  exact this.trans (List.length_take_le _ _)

theorem nameStart_le (s : Str) : nameStart s ≤ s.length := by
  have := lastWord_le (beforeScope s)
  rw [← nameStart, beforeScope] at this
  exact this.trans (List.length_take_le' _ _)

theorem take_find (v : StringView) : v.chars.take (v.find scope).toNat = beforeScope v.chars := by
  unfold StringView.find beforeScope
  cases h : Search.find scope v.chars with
  | none =>
    have := v.size_lt
    rw [position, Option.getD_none, List.take_length, List.take_of_length_le (by omega)]
  | some k => rw [position, v.toNat_ofNat (find_le h), Option.getD_some]

/-- `substr(0, colons)` does not throw, and `npos + 1` is 0. -/
theorem nameBegin_eq (v : StringView) : nameBegin v (v.find scope) = .ok (.ofNat (nameStart v.chars)) := by
  obtain ⟨before, hb, hc⟩ := substr_ok v 0 (v.find scope) (Nat.zero_le _)
  rw [UInt64.toNat_zero, List.drop_zero, take_find] at hc
  have hstart : before.rfind " ".toList + 1 = UInt64.ofNat (nameStart v.chars) := by
    unfold StringView.rfind nameStart lastWord
    rw [hc]
    change position (Search.rfind [' '] _) + 1 = _
    cases Search.rfind [' '] (beforeScope v.chars) with
    | none => rfl
    | some i => exact (UInt64.ofNat_add i 1).symm
  rw [nameBegin, hb]
  exact congrArg Except.ok hstart

/-! ## What the functions return -/

theorem rfind_le {s : Str} {p : Nat} (h : Search.rfind ['('] s = some p) : p ≤ s.length :=
  Nat.le_of_add_right_le (Search.rfind_le h)

/-- The text between two positions. -/
theorem substr_sub (v : StringView) {b e : Nat} (hbe : b ≤ e) (he : e ≤ v.chars.length) :
    (v.substr (.ofNat b) (.ofNat e - .ofNat b)).map StringView.chars =
      .ok ((v.chars.drop b).take (e - b)) := by
  have hb' := v.toNat_ofNat (hbe.trans he)
  have he' := v.toNat_ofNat he
  have hle : UInt64.ofNat b ≤ UInt64.ofNat e := by
    rw [UInt64.le_iff_toNat_le, hb', he']
    exact hbe
  obtain ⟨w, hw, hc⟩ := substr_ok v (.ofNat b) (.ofNat e - .ofNat b) (by omega)
  rw [UInt64.toNat_sub_of_le _ _ hle, hb', he'] at hc
  rw [hw, ← hc]
  rfl

theorem endUnderflows_iff (v : StringView) {e : Nat} (he : e ≤ v.chars.length) :
    EndUnderflows v (.ofNat e) ↔ e < nameStart v.chars := by
  have hlt : UInt64.ofNat e < .ofNat (nameStart v.chars) ↔ e < nameStart v.chars := by
    rw [UInt64.lt_iff_toNat_lt, v.toNat_ofNat he, v.toNat_ofNat (nameStart_le _)]
  rw [← hlt, EndUnderflows, nameBegin_eq]
  simp

/-- With no underflow `methodName` returns what is between its positions. -/
theorem methodName_eq (v : StringView) {p : Nat} (hp : Search.rfind ['('] v.chars = some p)
    (h : nameStart v.chars ≤ p) :
    (methodName v).map StringView.chars =
      .ok ((v.chars.drop (nameStart v.chars)).take (p - nameStart v.chars)) := by
  have hr : v.rfind "(".toList = .ofNat p := congrArg position hp
  rw [← substr_sub v h (rfind_le hp), ← hr]
  simp only [methodName, nameBegin_eq]
  rfl

theorem methodEnd_iff (v : StringView) {p : Nat} (hp : Search.rfind ['('] v.chars = some p) :
    EndUnderflows v (v.rfind "(".toList) ↔ p < nameStart v.chars := by
  have hr : v.rfind "(".toList = .ofNat p := congrArg position hp
  rw [hr, endUnderflows_iff v (rfind_le hp)]

theorem find_ne_npos (v : StringView) {k : Nat} (hk : Search.find scope v.chars = some k) :
    v.find scope = .ofNat k ∧ v.find scope ≠ npos := by
  have hf : v.find scope = .ofNat k := congrArg position hk
  refine ⟨hf, fun he => ?_⟩
  have hn := v.toNat_ofNat (find_le hk)
  rw [← hf, he] at hn
  have := v.size_lt
  have := find_le hk
  omega

theorem className_eq (v : StringView) (h : scope <:+: v.chars) :
    (className v).map StringView.chars = .ok ((beforeScope v.chars).drop (nameStart v.chars)) := by
  obtain ⟨k, hk⟩ := Search.exists_find h
  obtain ⟨hf, hne⟩ := find_ne_npos v hk
  rw [beforeScope, hk, Option.getD_some, List.drop_take,
    ← substr_sub v (nameStart_le_find hk) (find_le hk), ← hf]
  simp only [className, nameBegin_eq, if_neg hne]
  rfl

theorem className_of_none (v : StringView) (h : ¬ scope <:+: v.chars) :
    (className v).map StringView.chars = .ok scope := by
  have hf : v.find scope = npos := congrArg position (Search.find_eq_none_iff.mpr h)
  simp only [className, if_pos hf]
  rfl

/-- Where there is a `::`, no `::` is in what is returned. -/
theorem className_ne_scope (v : StringView) (h : scope <:+: v.chars) :
    (className v).map StringView.chars ≠ .ok scope := by
  intro hc
  rw [className_eq v h] at hc
  have hin : scope <:+: beforeScope v.chars := by
    rw [← Except.ok.inj hc]
    exact (List.drop_suffix _ _).isInfix
  obtain ⟨k, hk⟩ := Search.exists_find h
  rw [beforeScope, hk, Option.getD_some] at hin
  exact Search.not_infix_take_find scope_ne_nil hk hin

/-- The subtraction of `className` never underflows. -/
theorem classEnd (v : StringView) (h : v.find scope ≠ npos) : ¬ EndUnderflows v (v.find scope) := by
  cases hk : Search.find scope v.chars with
  | none => exact absurd (congrArg position hk) h
  | some k =>
    rw [(find_ne_npos v hk).1, endUnderflows_iff v (find_le hk)]
    exact Nat.not_lt.mpr (nameStart_le_find hk)

/-- Whatever the text, neither function throws. -/
theorem names_returned (v : StringView) : (∃ w, methodName v = .ok w) ∧ ∃ w, className v = .ok w := by
  have hpos : (UInt64.ofNat (nameStart v.chars)).toNat ≤ v.chars.length := by
    rw [v.toNat_ofNat (nameStart_le _)]
    exact nameStart_le _
  constructor
  · obtain ⟨w, hw, -⟩ := substr_ok v _ (v.rfind "(".toList - .ofNat (nameStart v.chars)) hpos
    refine ⟨w, ?_⟩
    simp only [methodName, nameBegin_eq]
    exact hw
  · by_cases hf : v.find scope = npos
    · refine ⟨⟨scope, by decide⟩, ?_⟩
      simp only [className, if_pos hf]
      rfl
    · obtain ⟨w, hw, -⟩ := substr_ok v _ (v.find scope - .ofNat (nameStart v.chars)) hpos
      refine ⟨w, ?_⟩
      simp only [className, nameBegin_eq, if_neg hf]
      exact hw

/-- **`methodName`** on a text with a `(` returns `w` without an underflow
exactly when `w` starts at the last word, and ends at the last `(`. -/
theorem methodName_iff (v : StringView) (h : '(' ∈ v.chars) (w : Str) :
    ((methodName v).map StringView.chars = .ok w ∧ ¬ EndUnderflows v (v.rfind "(".toList)) ↔
      ∃ x, v.chars.drop (nameStart v.chars) = w ++ '(' :: x ∧ '(' ∉ x := by
  constructor
  · rintro ⟨hm, hu⟩
    obtain ⟨u, x, he, hx⟩ := Search.exists_last h
    have hp : Search.rfind ['('] v.chars = some u.length := he ▸ Search.rfind_of_last hx
    have hle : nameStart v.chars ≤ u.length := Nat.not_lt.mp ((methodEnd_iff v hp).not.mp hu)
    have hdrop : v.chars.drop (nameStart v.chars) = u.drop (nameStart v.chars) ++ '(' :: x :=
      (congrArg (List.drop (nameStart v.chars)) he).trans (List.drop_append_of_le_length hle)
    rw [methodName_eq v hp hle, hdrop, List.take_left' List.length_drop] at hm
    exact ⟨x, by rw [hdrop, Except.ok.inj hm], hx⟩
  · rintro ⟨x, hdrop, hx⟩
    have he : v.chars = (v.chars.take (nameStart v.chars) ++ w) ++ '(' :: x := by
      rw [List.append_assoc, ← hdrop, List.take_append_drop]
    have hlen : (v.chars.take (nameStart v.chars) ++ w).length = nameStart v.chars + w.length := by
      rw [List.length_append, List.length_take, Nat.min_eq_left (nameStart_le _)]
    have hp : Search.rfind ['('] v.chars = some (nameStart v.chars + w.length) :=
      ((congrArg (Search.rfind ['(']) he).trans (Search.rfind_of_last hx)).trans (congrArg some hlen)
    have hle : nameStart v.chars ≤ nameStart v.chars + w.length := Nat.le_add_right _ _
    refine ⟨?_, (methodEnd_iff v hp).not.mpr (Nat.not_lt.mpr hle)⟩
    rw [methodName_eq v hp hle, hdrop, Nat.add_sub_cancel_left, List.take_left]

/-! ## Signatures -/

/-- No `::` lies across two parts of a signature. -/
theorem find_text (f : Signature) :
    Search.find scope f.prettyFunction.chars =
      (Search.find scope f.returnType).or
        (((Search.find scope f.name).or
          ((Search.find scope f.parameters).map (· + (f.name.length + 1)))).map
            (· + (f.returnType.length + 1))) := by
  have hclose : Search.find scope (f.parameters ++ [')']) = Search.find scope f.parameters := by
    rw [Search.find_append_cons scope_ne_nil (by decide), Search.find_nil_of_not (by decide),
      Option.map_none, Option.or_none]
  change Search.find scope (f.returnType ++ ' ' :: (f.name ++ '(' :: (f.parameters ++ [')']))) = _
  rw [Search.find_append_cons scope_ne_nil (by decide), Search.find_append_cons scope_ne_nil (by decide),
    hclose]

theorem nameStart_of_returnType (f : Signature) (h : scope <:+: f.returnType) :
    nameStart f.prettyFunction.chars ≤ f.returnType.length := by
  obtain ⟨k, hk⟩ := Search.exists_find h
  have hf := find_text f
  rw [hk, Option.some_or] at hf
  exact (nameStart_le_find hf).trans (find_le hk)

theorem beforeScope_of_name (f : Signature) (hr : ¬ scope <:+: f.returnType) {k : Nat}
    (hk : Search.find scope f.name = some k) :
    beforeScope f.prettyFunction.chars = f.returnType ++ ' ' :: f.name.take k := by
  have hf := find_text f
  rw [Search.find_eq_none_iff.mpr hr, hk, Option.none_or, Option.some_or, Option.map_some] at hf
  have hsplit : f.prettyFunction.chars =
      (f.returnType ++ ' ' :: f.name.take k) ++ (f.name.drop k ++ '(' :: (f.parameters ++ [')'])) := by
    rw [List.append_assoc, List.cons_append, ← List.append_assoc (f.name.take k), List.take_append_drop]
    rfl
  rw [beforeScope, hf, Option.getD_some, hsplit]
  refine List.take_left' ?_
  rw [List.length_append, List.length_cons, List.length_take, Nat.min_eq_left (find_le hk)]
  omega

theorem nameStart_of_name (f : Signature) (hr : ¬ scope <:+: f.returnType) (hn : scope <:+: f.name) :
    nameStart f.prettyFunction.chars = f.returnType.length + 1 := by
  obtain ⟨k, hk⟩ := Search.exists_find hn
  rw [nameStart, beforeScope_of_name f hr hk]
  exact lastWord_of_last _ fun h => f.name_plain.1 (List.mem_of_mem_take h)

/-- Without a `::` the functions take the last word of the text. -/
theorem drop_nameStart_of_none {s u w : Str} (hs : s = u ++ ' ' :: w) (hw : ' ' ∉ w) (h : ¬ scope <:+: s) :
    s.drop (nameStart s) = w := by
  have hstart : nameStart s = u.length + 1 := by
    rw [nameStart, beforeScope, Search.find_eq_none_iff.mpr h, Option.getD_none, List.take_length, hs,
      lastWord_of_last u hw]
  rw [hstart, hs]
  exact List.drop_length_add_append 1

theorem scope_text (f : Signature) :
    scope <:+: f.prettyFunction.chars ↔
      scope <:+: f.returnType ∨ scope <:+: f.name ∨ scope <:+: f.parameters := by
  change scope <:+: f.returnType ++ ' ' :: (f.name ++ '(' :: (f.parameters ++ [')'])) ↔ _
  rw [Search.infix_append_cons_iff scope_ne_nil (by decide),
    Search.infix_append_cons_iff scope_ne_nil (by decide),
    Search.infix_append_cons_iff scope_ne_nil (by decide)]
  have hnil : ¬ scope <:+: [] := by decide
  simp only [hnil, or_false]

theorem exists_leadingQualifier_iff (name : Str) : (∃ q, LeadingQualifier name q) ↔ scope <:+: name := by
  constructor
  · rintro ⟨q, ⟨rest, rfl⟩, -⟩
    exact ⟨q, rest, List.append_assoc ..⟩
  · intro h
    obtain ⟨k, hk⟩ := Search.exists_find h
    obtain ⟨q, rest, he, rfl, hfirst⟩ := Search.find_spec hk
    exact ⟨q, ⟨rest, he⟩, hfirst⟩

/-- `className` where the name is qualified and the return type is not. -/
theorem className_of_name (f : Signature) (hr : ¬ scope <:+: f.returnType) {q : Str}
    (hq : LeadingQualifier f.name q) : (className f.prettyFunction).map StringView.chars = .ok q := by
  have hn : scope <:+: f.name := (exists_leadingQualifier_iff f.name).mp ⟨q, hq⟩
  obtain ⟨⟨rest, hname⟩, hfirst⟩ := hq
  have hk : Search.find scope f.name = some q.length :=
    Search.find_eq_some_iff.mpr ⟨q, rest, hname, rfl, hfirst⟩
  have hq : f.name.take q.length = q := by rw [hname, List.take_left]
  rw [className_eq _ ((scope_text f).mpr (.inr (.inl hn))), nameStart_of_name f hr hn,
    beforeScope_of_name f hr hk, hq]
  exact congrArg Except.ok (List.drop_length_add_append 1)

theorem drop_nameStart_of_name (f : Signature) (hr : ¬ scope <:+: f.returnType) (hn : scope <:+: f.name) :
    f.prettyFunction.chars.drop (nameStart f.prettyFunction.chars) =
      f.name ++ '(' :: (f.parameters ++ [')']) := by
  rw [nameStart_of_name f hr hn]
  exact List.drop_length_add_append 1

theorem paren_text (f : Signature) : '(' ∈ f.prettyFunction.chars := by
  simp [Signature.prettyFunction]

/-! ## The condition -/

/-- A name found from a place in the return type on would have a space or
end before the last `(`. -/
theorem NamesExtracted.returnType {f : Signature} (h : NamesExtracted f) : ¬ scope <:+: f.returnType := by
  intro hr
  obtain ⟨x, hdrop, hx⟩ := (methodName_iff _ (paren_text f) _).mp ⟨h.method, h.methodEnd⟩
  have hb : f.prettyFunction.chars.drop (nameStart f.prettyFunction.chars) =
      f.returnType.drop (nameStart f.prettyFunction.chars) ++
        ' ' :: (f.name ++ '(' :: (f.parameters ++ [')'])) :=
    List.drop_append_of_le_length (nameStart_of_returnType f hr)
  rcases List.append_eq_append_iff.mp (hdrop.symm.trans hb) with ⟨t, -, ht⟩ | ⟨t, hname, ht⟩
  · cases t with
    | nil => exact absurd (List.cons.inj ht).1 (by decide)
    | cons c t => exact hx ((List.cons.inj ht).2 ▸ by simp)
  · cases t with
    | nil => exact absurd (List.cons.inj ht).1 (by decide)
    | cons c t =>
      obtain ⟨rfl, -⟩ := List.cons.inj ht
      exact f.name_plain.1 (hname ▸ by simp)

theorem NamesExtracted.clear {f : Signature} (h : NamesExtracted f) : f.Clear := by
  obtain ⟨x, hdrop, hx⟩ := (methodName_iff _ (paren_text f) _).mp ⟨h.method, h.methodEnd⟩
  -- where the search starts at the name, it ends behind it
  have hplain : f.prettyFunction.chars.drop (nameStart f.prettyFunction.chars) =
      f.name ++ '(' :: (f.parameters ++ [')']) → '(' ∉ f.parameters := by
    intro hb hp
    rw [hb, List.append_cancel_left_eq, List.cons.injEq] at hdrop
    exact hx (hdrop.2 ▸ List.mem_append_left _ hp)
  refine ⟨h.returnType, fun hn => hplain (drop_nameStart_of_name f h.returnType hn), fun hn => ?_⟩
  have hnone : ¬ scope <:+: f.prettyFunction.chars := fun hs => className_ne_scope _ hs (h.unqualified hn)
  refine ⟨fun hp => hnone ((scope_text f).mpr (.inr (.inr hp))), ?_⟩
  by_cases hspace : ' ' ∈ f.parameters
  · -- the last word is in the parameters
    obtain ⟨p, t, hparams, ht⟩ := Search.exists_last hspace
    have htext : f.prettyFunction.chars =
        (f.returnType ++ ' ' :: (f.name ++ '(' :: p)) ++ ' ' :: (t ++ [')']) := by
      simp [Signature.prettyFunction, hparams]
    rw [drop_nameStart_of_none htext (by simp [ht]) hnone] at hdrop
    rcases List.eq_nil_or_concat x with rfl | ⟨q, c, rfl⟩
    · exact absurd (List.append_inj' hdrop rfl).2 (by decide)
    · rw [List.concat_eq_append, ← List.cons_append, ← List.append_assoc] at hdrop
      obtain ⟨rfl, -⟩ := List.append_inj' hdrop rfl
      simp only [List.mem_append, List.mem_cons, not_or] at ht
      simp only [List.concat_eq_append, List.mem_append, not_or] at hx
      exact .inr ⟨p, q, hparams, ht.2.2, hx.1⟩
  · refine .inl ⟨hspace, hplain (drop_nameStart_of_none rfl ?_ hnone)⟩
    simp [hspace, f.name_plain.1]

/-- A clear signature with an unqualified name has no `::` at all. -/
theorem Signature.Clear.not_scope {f : Signature} (h : f.Clear) (hn : ¬ scope <:+: f.name) :
    ¬ scope <:+: f.prettyFunction.chars := by
  rw [scope_text]
  rintro (hr | hs | hp)
  · exact h.returnType hr
  · exact hn hs
  · exact (h.unqualified hn).1 hp

/-- What the condition says of the text from the start of the name on. -/
theorem Signature.Clear.drop_nameStart {f : Signature} (h : f.Clear) :
    ∃ x, f.prettyFunction.chars.drop (nameStart f.prettyFunction.chars) = f.name ++ '(' :: x ∧ '(' ∉ x := by
  by_cases hn : scope <:+: f.name
  · exact ⟨_, drop_nameStart_of_name f h.returnType hn, by simp [h.qualified hn]⟩
  · have hnone := h.not_scope hn
    have hname := f.name_plain.1
    rcases (h.unqualified hn).2 with ⟨hspace, hparen⟩ | ⟨p, q, hparams, hspace, hparen⟩
    · exact ⟨_, drop_nameStart_of_none rfl (by simp [hspace, hname]) hnone, by simp [hparen]⟩
    · have htext : f.prettyFunction.chars =
          (f.returnType ++ ' ' :: (f.name ++ '(' :: p)) ++ ' ' :: (f.name ++ '(' :: (q ++ [')'])) := by
        simp [Signature.prettyFunction, hparams]
      exact ⟨_, drop_nameStart_of_none htext (by simp [hspace, hname]) hnone, by simp [hparen]⟩

theorem Signature.Clear.namesExtracted {f : Signature} (h : f.Clear) : NamesExtracted f := by
  obtain ⟨hmethod, hend⟩ := (methodName_iff _ (paren_text f) _).mpr h.drop_nameStart
  exact ⟨hmethod, fun q => className_of_name f h.returnType, fun hn => className_of_none _ (h.not_scope hn),
    hend, classEnd _⟩

/-- **Names.** Both functions find what they should in a signature, and no
subtraction of positions underflows, exactly when the signature is clear. -/
theorem namesExtracted_iff (f : Signature) : NamesExtracted f ↔ f.Clear :=
  ⟨NamesExtracted.clear, Signature.Clear.namesExtracted⟩

/-- `int main(int, char**)`, as in src/main.cpp:60. -/
def mainFunction : Signature :=
  ⟨"int".toList, "main".toList, "int, char**".toList, by decide, by decide, by decide⟩

/-- The last space is in the parameters, behind the last `(`: the length
underflows, and what is returned is `char**)`. -/
theorem namesExtracted_fails : ¬ NamesExtracted mainFunction := by
  intro h
  exact absurd h.method (by decide)

end SoapStab
