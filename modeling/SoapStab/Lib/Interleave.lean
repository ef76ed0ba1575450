import Mathlib.Data.List.Basic
import Mathlib.Data.List.FinRange
import Mathlib.Data.List.Perm.Basic

/-!
# Interleavings of any number of lists

`Interleaving ls order`: `order` takes the elements of the lists `ls` one at
a time, from any list that has some left, each list in its own order. What
does not depend on the order of a list is the same for all interleavings
(`Interleaving.perm`). Where each element of a list is tagged with the list it
was taken from, the list is an interleaving (`interleaving_of_tagged`).
-/
namespace SoapStab.Lib.Interleave

variable {α : Type*}

inductive Interleaving : List (List α) → List α → Prop
  /-- Nothing is left. -/
  | done {ls : List (List α)} (h : ∀ l ∈ ls, l = []) : Interleaving ls []
  /-- The first element of one of the lists is taken. -/
  | take (before : List (List α)) (x : α) (rest : List α) (after : List (List α)) {order : List α}
      (h : Interleaving (before ++ rest :: after) order) :
      Interleaving (before ++ (x :: rest) :: after) (x :: order)

theorem perm_take (before : List (List α)) (x : α) (rest : List α) (after : List (List α)) :
    (x :: (before ++ rest :: after).flatten).Perm (before ++ (x :: rest) :: after).flatten := by
  simp only [List.flatten_append, List.flatten_cons, List.cons_append]
  exact List.perm_middle.symm

/-- An interleaving permutes the elements of its lists. -/
theorem Interleaving.perm {ls : List (List α)} {order : List α} (h : Interleaving ls order) :
    order.Perm ls.flatten := by
  induction h with
  | done h => rw [List.flatten_eq_nil_iff.mpr h]
  | take before x rest after _ ih => exact (ih.cons x).trans (perm_take before x rest after)

/-- The elements tagged with `i`, in order. -/
def tagged {n : Nat} (order : List (Fin n × α)) (i : Fin n) : List α :=
  (order.filter (·.1 = i)).map Prod.snd

theorem interleaving_of_tagged {n : Nat} (order : List (Fin n × α)) :
    Interleaving ((List.finRange n).map (tagged order)) (order.map Prod.snd) := by
  induction order with
  | nil => exact .done (by simp [tagged])
  | cons p order ih =>
    obtain ⟨i, x⟩ := p
    obtain ⟨before, after, hsplit⟩ := List.append_of_mem (List.mem_finRange i)
    have hnodup := List.nodup_finRange n
    rw [hsplit, List.nodup_append] at hnodup
    -- the lists of the other tags stay as they are
    have hother : ∀ j, j ≠ i → tagged ((i, x) :: order) j = tagged order j := by
      intro j hj
      simp [tagged, Ne.symm hj]
    have hbefore : before.map (tagged ((i, x) :: order)) = before.map (tagged order) :=
      List.map_congr_left fun j hj => hother j fun h => hnodup.2.2 j hj i List.mem_cons_self h
    have hafter : after.map (tagged ((i, x) :: order)) = after.map (tagged order) :=
      List.map_congr_left fun j hj => hother j fun h =>
        (List.nodup_cons.mp hnodup.2.1).1 (h ▸ hj)
    have hself : tagged ((i, x) :: order) i = x :: tagged order i := by simp [tagged]
    rw [hsplit, List.map_append, List.map_cons] at ih ⊢
    rw [hbefore, hafter, hself]
    exact .take _ x _ _ ih

end SoapStab.Lib.Interleave
