import Mathlib.Data.List.Infix
import Mathlib.Tactic.Common

/-!
# Searching a text

`find pat s` is the first position at which `pat` occurs in `s`, `rfind pat s`
the last one, `none` where it does not occur: `find_eq_some_iff`,
`rfind_eq_some_iff` and the two `none` lemmas.

For a text put together of parts: a separator that is not in the pattern
keeps `find` from matching across it (`find_append_cons`), and the last
occurrence of a single element is the one with none behind it
(`rfind_of_last`).
-/
namespace SoapStab.Lib.Search

variable {α : Type} [DecidableEq α] {pat s u v : List α} {a c : α} {i : Nat}

def find (pat : List α) : List α → Option Nat
  | [] => if pat <+: [] then some 0 else none
  | a :: s => if pat <+: a :: s then some 0 else (find pat s).map (· + 1)

def rfind (pat : List α) : List α → Option Nat
  | [] => if pat <+: [] then some 0 else none
  | a :: s =>
    match rfind pat s with
    | some i => some (i + 1)
    | none => if pat <+: a :: s then some 0 else none

/-! ## The first occurrence -/

theorem find_zero (h : pat <+: s) : find pat s = some 0 := by
  cases s with
  | nil => rw [find, if_pos h]
  | cons a s => rw [find, if_pos h]

theorem find_nil_of_not (h : ¬ pat <+: []) : find pat [] = none := by rw [find, if_neg h]

theorem find_cons_of_not (h : ¬ pat <+: a :: s) : find pat (a :: s) = (find pat s).map (· + 1) := by
  rw [find, if_neg h]

theorem find_eq_none_iff : find pat s = none ↔ ¬ pat <:+: s := by
  induction s with
  | nil => simp [find]
  | cons a s ih =>
    rw [find, List.infix_cons_iff, not_or, ← ih]
    split
    · next hp => simp [hp]
    · next hp => simp [hp]

theorem find_spec (h : find pat s = some i) :
    ∃ u v, s = u ++ (pat ++ v) ∧ u.length = i ∧ ∀ u' v', s = u' ++ (pat ++ v') → i ≤ u'.length := by
  induction s generalizing i with
  | nil =>
    by_cases hp : pat <+: []
    · rw [find_zero hp] at h
      cases h
      obtain ⟨v, hv⟩ := hp
      exact ⟨[], v, hv.symm, rfl, fun _ _ _ => Nat.zero_le _⟩
    · rw [find_nil_of_not hp] at h
      cases h
  | cons a s ih =>
    by_cases hp : pat <+: a :: s
    · rw [find_zero hp] at h
      cases h
      obtain ⟨v, hv⟩ := hp
      exact ⟨[], v, hv.symm, rfl, fun _ _ _ => Nat.zero_le _⟩
    · rw [find_cons_of_not hp] at h
      obtain ⟨k, hk, rfl⟩ := Option.map_eq_some_iff.mp h
      obtain ⟨u, v, rfl, rfl, hfirst⟩ := ih hk
      refine ⟨a :: u, v, rfl, rfl, fun u' v' he => ?_⟩
      cases u' with
      | nil => exact absurd ⟨v', he.symm⟩ hp
      | cons b u' =>
        rw [List.cons_append, List.cons.injEq] at he
        exact Nat.succ_le_succ (hfirst u' v' he.2)

theorem exists_find (h : pat <:+: s) : ∃ i, find pat s = some i := by
  cases hf : find pat s with
  | none => exact absurd h (find_eq_none_iff.mp hf)
  | some i => exact ⟨i, rfl⟩

theorem find_le (h : find pat s = some i) : i + pat.length ≤ s.length := by
  obtain ⟨u, v, rfl, rfl, -⟩ := find_spec h
  simp

/-- What is found is an occurrence, and none is before it. -/
theorem find_eq_some_iff :
    find pat s = some i ↔
      ∃ u v, s = u ++ (pat ++ v) ∧ u.length = i ∧ ∀ u' v', s = u' ++ (pat ++ v') → i ≤ u'.length := by
  refine ⟨find_spec, ?_⟩
  rintro ⟨u, v, he, rfl, hfirst⟩
  have hin : pat <:+: s := ⟨u, v, by rw [he, List.append_assoc]⟩
  obtain ⟨j, hj⟩ := exists_find hin
  obtain ⟨u', v', he', rfl, hfirst'⟩ := find_spec hj
  rw [hj, Nat.le_antisymm (hfirst' u v he) (hfirst u' v' he')]

omit [DecidableEq α] in
theorem prefix_append_cons_iff (hc : c ∉ pat) : pat <+: u ++ c :: v ↔ pat <+: u := by
  constructor
  · intro h
    rcases Nat.lt_or_ge u.length pat.length with hlt | hle
    · -- the separator would be in the pattern
      have hpre : u ++ [c] <+: u ++ c :: v := by simp
      have hsub : u ++ [c] <+: pat :=
        List.prefix_of_prefix_length_le hpre h (by simpa [Nat.succ_le_iff] using hlt)
      exact absurd (hsub.subset (by simp)) hc
    · exact List.prefix_of_prefix_length_le h (List.prefix_append u _) hle
  · exact fun h => h.trans (List.prefix_append u _)

theorem find_append_cons (hne : pat ≠ []) (hc : c ∉ pat) :
    find pat (u ++ c :: v) = (find pat u).or ((find pat v).map (· + (u.length + 1))) := by
  have hnil : ¬ pat <+: [] := by simpa using hne
  induction u with
  | nil =>
    have hp : ¬ pat <+: [] ++ c :: v := (prefix_append_cons_iff hc).not.mpr hnil
    rw [List.nil_append, find_cons_of_not hp, find_nil_of_not hnil]
    rfl
  | cons a u ih =>
    have hiff : pat <+: a :: u ++ c :: v ↔ pat <+: a :: u := prefix_append_cons_iff hc
    by_cases hp : pat <+: a :: u
    · rw [find_zero hp, find_zero (hiff.mpr hp)]
      rfl
    · have hp' : ¬ pat <+: a :: (u ++ c :: v) := hiff.not.mpr hp
      rw [List.cons_append, find_cons_of_not hp, find_cons_of_not hp', ih]
      cases find pat u with
      | some i => rfl
      | none => simp [Function.comp_def, Nat.add_assoc]

theorem infix_append_cons_iff (hne : pat ≠ []) (hc : c ∉ pat) :
    pat <:+: u ++ c :: v ↔ pat <:+: u ∨ pat <:+: v := by
  rw [← not_iff_not, not_or, ← find_eq_none_iff, ← find_eq_none_iff, ← find_eq_none_iff,
    find_append_cons hne hc, Option.or_eq_none_iff, Option.map_eq_none_iff]

/-- The pattern does not occur in what stands before it. -/
theorem not_infix_take_find (hne : pat ≠ []) (h : find pat s = some i) : ¬ pat <:+: s.take i := by
  rintro ⟨u, v, he⟩
  obtain ⟨-, -, -, -, hfirst⟩ := find_spec h
  have hi := hfirst u (v ++ s.drop i) (by
    rw [← List.append_assoc pat, ← List.append_assoc u, ← List.append_assoc u, he, List.take_append_drop])
  have hlen := congrArg List.length he
  have hpos := List.length_pos_of_ne_nil hne
  have := List.length_take_le i s
  simp only [List.length_append] at hlen
  omega

/-! ## The last occurrence -/

theorem rfind_eq_none_iff : rfind pat s = none ↔ ¬ pat <:+: s := by
  induction s with
  | nil => simp [rfind]
  | cons a s ih =>
    rw [rfind, List.infix_cons_iff, not_or, ← ih]
    cases rfind pat s with
    | none => simp
    | some i => simp

theorem rfind_spec (h : rfind pat s = some i) :
    ∃ u v, s = u ++ (pat ++ v) ∧ u.length = i ∧ ∀ u' v', s = u' ++ (pat ++ v') → u'.length ≤ i := by
  induction s generalizing i with
  | nil =>
    rw [rfind] at h
    split at h
    · next hp =>
      cases h
      obtain ⟨v, hv⟩ := hp
      refine ⟨[], v, hv.symm, rfl, fun u' v' he => ?_⟩
      rw [List.nil_eq_append_iff.mp he |>.1]
      exact Nat.le_refl _
    · cases h
  | cons a s ih =>
    rw [rfind] at h
    cases hs : rfind pat s with
    | some k =>
      rw [hs] at h
      cases h
      obtain ⟨u, v, rfl, rfl, hlast⟩ := ih hs
      refine ⟨a :: u, v, rfl, rfl, fun u' v' he => ?_⟩
      cases u' with
      | nil => exact Nat.zero_le _
      | cons b u' =>
        rw [List.cons_append, List.cons.injEq] at he
        exact Nat.succ_le_succ (hlast u' v' he.2)
    | none =>
      rw [hs] at h
      dsimp only at h
      split at h
      · next hp =>
        cases h
        obtain ⟨v, hv⟩ := hp
        refine ⟨[], v, hv.symm, rfl, fun u' v' he => ?_⟩
        cases u' with
        | nil => exact Nat.le_refl _
        | cons b u' =>
          -- it would occur in the rest
          rw [List.cons_append, List.cons.injEq] at he
          exact absurd ⟨u', v', by rw [he.2, List.append_assoc]⟩ (rfind_eq_none_iff.mp hs)
      · cases h

theorem exists_rfind (h : pat <:+: s) : ∃ i, rfind pat s = some i := by
  cases hf : rfind pat s with
  | none => exact absurd h (rfind_eq_none_iff.mp hf)
  | some i => exact ⟨i, rfl⟩

theorem rfind_le (h : rfind pat s = some i) : i + pat.length ≤ s.length := by
  obtain ⟨u, v, rfl, rfl, -⟩ := rfind_spec h
  simp

/-- What is found is an occurrence, and none is behind it. -/
theorem rfind_eq_some_iff :
    rfind pat s = some i ↔
      ∃ u v, s = u ++ (pat ++ v) ∧ u.length = i ∧ ∀ u' v', s = u' ++ (pat ++ v') → u'.length ≤ i := by
  refine ⟨rfind_spec, ?_⟩
  rintro ⟨u, v, he, rfl, hlast⟩
  have hin : pat <:+: s := ⟨u, v, by rw [he, List.append_assoc]⟩
  obtain ⟨j, hj⟩ := exists_rfind hin
  obtain ⟨u', v', he', rfl, hlast'⟩ := rfind_spec hj
  rw [hj, Nat.le_antisymm (hlast u' v' he') (hlast' u v he)]

theorem rfind_of_last (h : c ∉ v) : rfind [c] (u ++ c :: v) = some u.length := by
  refine rfind_eq_some_iff.mpr ⟨u, v, rfl, rfl, fun u' v' he => ?_⟩
  rcases List.append_eq_append_iff.mp he with ⟨t, rfl, ht⟩ | ⟨t, rfl, -⟩
  · cases t with
    | nil => simp
    | cons b t =>
      obtain ⟨-, rfl⟩ := List.cons.inj ht
      exact absurd (by simp) h
  · simp

theorem exists_last (h : c ∈ s) : ∃ u v, s = u ++ c :: v ∧ c ∉ v := by
  obtain ⟨i, hi⟩ := exists_rfind ((List.singleton_infix_iff c s).mpr h)
  obtain ⟨u, v, rfl, rfl, hlast⟩ := rfind_spec hi
  refine ⟨u, v, rfl, fun hv => ?_⟩
  obtain ⟨x, y, rfl⟩ := List.append_of_mem hv
  have := hlast (u ++ c :: x) y (by simp)
  rw [List.length_append, List.length_cons] at this
  omega

end SoapStab.Lib.Search
