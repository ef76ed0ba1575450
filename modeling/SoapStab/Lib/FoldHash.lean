import Mathlib.Algebra.Ring.Basic
import Mathlib.Data.List.Perm.Basic
import Mathlib.Tactic.LinearCombination

/-!
# Polynomial hashes of a list and the order of the list

`foldHash b w l` is the left fold `acc * b + w x` from 0, the usual way to
hash a sequence. Used on the elements of an *unordered* container it sees
the iteration order. `perm_iff` says when that does no harm: every order of
`l` has the same hash exactly when `(b - 1) * w x` is the same for all
elements `x`. No invertibility of `b` is needed: two elements that differ
can be brought to the end of the list, where exchanging them changes the
hash by `(b - 1) * (w x - w y)`.
-/
namespace SoapStab.Lib.FoldHash

variable {R α : Type*} [CommRing R]

def foldHash (b : R) (w : α → R) (l : List α) : R := l.foldl (fun acc x => acc * b + w x) 0

theorem swap_last (b : R) (w : α → R) (l : List α) (x y : α) :
    foldHash b w (l ++ [x, y]) = foldHash b w (l ++ [y, x]) ↔ (b - 1) * w x = (b - 1) * w y := by
  simp only [foldHash, List.foldl_append, List.foldl_cons, List.foldl_nil]
  generalize l.foldl (fun acc x => acc * b + w x) 0 = a
  constructor
  · intro h; linear_combination h
  · intro h; linear_combination h

theorem perm_eq (b : R) (w : α → R) {l l' : List α} (hp : l.Perm l')
    (hw : ∀ x ∈ l, ∀ y ∈ l, (b - 1) * w x = (b - 1) * w y) : foldHash b w l = foldHash b w l' := by
  -- exchanging two neighbours is enough: the accumulator in front of them is arbitrary
  refine hp.foldl_eq' (fun x hx y hy a => ?_) 0
  linear_combination hw x hx y hy

/-- Bring two different elements of `l` to the end, in this order. -/
theorem two_last [DecidableEq α] {l : List α} {x y : α} (hx : x ∈ l) (hy : y ∈ l) (hxy : x ≠ y) :
    (((l.erase x).erase y) ++ [x, y]).Perm l := by
  have hy' : y ∈ l.erase x := (List.mem_erase_of_ne (Ne.symm hxy)).mpr hy
  refine List.perm_append_comm.trans ?_
  exact ((List.perm_cons_erase hy').symm.cons x).trans (List.perm_cons_erase hx).symm

theorem perm_iff [DecidableEq α] (b : R) (w : α → R) (l : List α) :
    (∀ l', l'.Perm l → foldHash b w l' = foldHash b w l) ↔
      ∀ x ∈ l, ∀ y ∈ l, (b - 1) * w x = (b - 1) * w y := by
  constructor
  · intro h x hx y hy
    by_cases hxy : x = y
    · rw [hxy]
    · have hl := two_last hx hy hxy
      have hl' : (((l.erase x).erase y) ++ [y, x]).Perm l :=
        (List.Perm.append_left _ (List.Perm.swap x y [])).trans hl
      exact (swap_last b w _ x y).mp ((h _ hl).trans (h _ hl').symm)
  · intro hw l' hp
    exact (perm_eq b w hp.symm hw).symm

end SoapStab.Lib.FoldHash
