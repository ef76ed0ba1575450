import Mathlib.Data.List.DropRight
import Mathlib.Tactic.Common

/-!
# Systems with labelled steps

A step takes a label and may be impossible (`none`). A trace is a list of
labels, first step first; `exec` is the state it leads to. `exec_induction`
shows an invariant between a trace and its state, `exec_prefix` that every
prefix of a trace is a trace.

`Undone p q` is a trace in which the last `p` is followed by a `q`: the shape
of the traces in which a flag that `p` sets has been cleared by `q`.
-/
namespace SoapStab.Lib.Traces

structure System (σ ℓ : Type) where
  init : σ
  step : σ → ℓ → Option σ

variable {σ ℓ : Type}

/-- The state after the steps of the trace. -/
def System.exec (S : System σ ℓ) (tr : List ℓ) : Option σ := tr.foldlM S.step S.init

theorem System.exec_concat (S : System σ ℓ) (tr : List ℓ) (l : ℓ) (s' : σ) :
    S.exec (tr ++ [l]) = some s' ↔ ∃ s, S.exec tr = some s ∧ S.step s l = some s' := by
  simp only [exec, List.foldlM_append, List.foldlM_cons, List.foldlM_nil, Option.bind_eq_bind, bind_pure,
    Option.bind_eq_some_iff]

theorem System.exec_append {S : System σ ℓ} {tr : List ℓ} {s : σ} (h : S.exec tr = some s) (rest : List ℓ) :
    S.exec (tr ++ rest) = rest.foldlM S.step s := by
  rw [exec, List.foldlM_append, Option.bind_eq_bind, ← exec, h, Option.bind_some]

/-- What holds at the start and is kept by every step holds after every trace. -/
theorem System.exec_induction {S : System σ ℓ} {I : List ℓ → σ → Prop} (init : I [] S.init)
    (step : ∀ tr s l s', I tr s → S.step s l = some s' → I (tr ++ [l]) s') {tr : List ℓ} {s : σ}
    (h : S.exec tr = some s) : I tr s := by
  induction tr using List.reverseRecOn generalizing s with
  | nil =>
    cases h
    exact init
  | append_singleton tr l ih =>
    obtain ⟨s₀, h₀, hl⟩ := (S.exec_concat tr l s).mp h
    exact step tr s₀ l s (ih h₀) hl

theorem System.exec_prefix {S : System σ ℓ} {tr tr' : List ℓ} {s : σ} (h : S.exec tr = some s)
    (hp : tr' <+: tr) : ∃ s', S.exec tr' = some s' := by
  obtain ⟨rest, rfl⟩ := hp
  rw [exec, List.foldlM_append, Option.bind_eq_bind, Option.bind_eq_some_iff] at h
  obtain ⟨s', hs', -⟩ := h
  exact ⟨s', hs'⟩

/-! ## A label undone by another -/

/-- A `q` after a `p`, and no `p` since. -/
def Undone (p q : ℓ) (tr : List ℓ) : Prop := ∃ a b, tr = a ++ q :: b ∧ p ∈ a ∧ p ∉ b

theorem Undone.mem {p q : ℓ} {tr : List ℓ} (h : Undone p q tr) : p ∈ tr := by
  obtain ⟨a, b, rfl, ha, -⟩ := h
  exact List.mem_append_left _ ha

theorem undone_iff_split (p q : ℓ) (tr : List ℓ) :
    Undone p q tr ↔ ∃ i, i < tr.length ∧ tr[i]? = some q ∧ p ∈ tr.take i ∧ p ∉ tr.drop (i + 1) := by
  refine ⟨fun ⟨a, b, he, ha, hb⟩ => ?_, fun ⟨i, hi, hq, ha, hb⟩ => ?_⟩
  · subst he
    exact ⟨a.length, by simp, by simp, by simpa using ha, by simpa using hb⟩
  · refine ⟨tr.take i, tr.drop (i + 1), ?_, ha, hb⟩
    obtain ⟨-, rfl⟩ := List.getElem?_eq_some_iff.mp hq
    rw [← List.drop_eq_getElem_cons hi, List.take_append_drop]

instance [DecidableEq ℓ] (p q : ℓ) (tr : List ℓ) : Decidable (Undone p q tr) :=
  decidable_of_iff _ (undone_iff_split p q tr).symm

theorem not_undone_nil (p q : ℓ) : ¬ Undone p q [] := fun h => by cases h.mem

theorem undone_concat {p q : ℓ} (hpq : p ≠ q) (tr : List ℓ) (l : ℓ) :
    Undone p q (tr ++ [l]) ↔ (l = q ∧ p ∈ tr) ∨ (l ≠ p ∧ Undone p q tr) := by
  refine ⟨fun ⟨a, b, he, ha, hb⟩ => ?_, fun h => ?_⟩
  · rcases List.eq_nil_or_concat b with rfl | ⟨b, c, rfl⟩
    · obtain ⟨rfl, hl⟩ := List.append_inj' he rfl
      exact .inl ⟨List.singleton_inj.mp hl, ha⟩
    · rw [List.concat_eq_append] at he hb
      rw [← List.cons_append, ← List.append_assoc] at he
      obtain ⟨rfl, hl⟩ := List.append_inj' he rfl
      cases List.singleton_inj.mp hl
      simp only [List.mem_append, List.mem_singleton, not_or] at hb
      exact .inr ⟨Ne.symm hb.2, a, b, rfl, ha, hb.1⟩
  · rcases h with ⟨rfl, hp⟩ | ⟨hl, a, b, rfl, ha, hb⟩
    · exact ⟨tr, [], rfl, hp, by simp⟩
    · exact ⟨a, b ++ [l], by simp, ha, by simp [hb, Ne.symm hl]⟩

end SoapStab.Lib.Traces
