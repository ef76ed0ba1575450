import SoapStab.Common.Str
import SoapStab.Lib.FoldHash
import SoapStab.Lib.HashTable
import Mathlib.Data.List.Nodup
import Mathlib.Data.UInt

/-!
# Label maps and their hash

`label_map_t` is an `unordered_map<string, string>`. A value of it is its
pairs in iteration order, one per label; the order depends on the insertion
order and the bucket count, so two label maps that compare equal may iterate
differently (`eqv_iff_perm`: equal means permuted).

`label_values_map_t_hash` folds over that order. `hash_order_iff` says for
which label maps this is harmless: those whose pairs all have the same
`hash(label) ^ hash(value)` up to the top bit. The multiplier 31 is odd and
`31 - 1 = 2 * 15`, so exchanging two neighbours changes the hash unless the
pair hashes agree in their low 63 bits.
-/
namespace SoapStab.Metrics

open SoapStab.Lib.Hash SoapStab.Lib.FoldHash

/-- mirrors src/metrics/metric.h:50 -/
structure LabelMap where
  pairs : List (Str × Str)
  nodup : (pairs.map Prod.fst).Nodup
  deriving DecidableEq

def noLabels : LabelMap := ⟨[], by decide⟩

/-- `operator==` of the unordered map: as many pairs, and each pair of `m`
is found in `n`. -/
def LabelMap.eqv (m n : LabelMap) : Bool :=
  m.pairs.length == n.pairs.length && m.pairs.all fun p => n.pairs.lookup p.1 == some p.2

theorem lookup_eq_some_iff_mem {l : List (Str × Str)} (h : (l.map Prod.fst).Nodup) (k v : Str) :
    l.lookup k = some v ↔ (k, v) ∈ l := by
  induction l with
  | nil => simp
  | cons p l ih =>
    obtain ⟨a, b⟩ := p
    simp only [List.map_cons, List.nodup_cons] at h
    rw [List.lookup_cons, List.mem_cons]
    by_cases hk : k = a
    · subst hk
      have hn : (k, v) ∉ l := fun hm => h.1 (List.mem_map.mpr ⟨_, hm, rfl⟩)
      simp [hn, eq_comm]
    · have : (k == a) = false := by simpa using hk
      simp [this, hk, ih h.2]

theorem LabelMap.pairs_nodup (m : LabelMap) : m.pairs.Nodup := List.Nodup.of_map _ m.nodup

theorem LabelMap.eqv_iff_perm (m n : LabelMap) : m.eqv n = true ↔ m.pairs.Perm n.pairs := by
  simp only [LabelMap.eqv, Bool.and_eq_true, beq_iff_eq, List.all_eq_true]
  constructor
  · rintro ⟨hl, hall⟩
    have hsub : m.pairs ⊆ n.pairs := fun p hp => (lookup_eq_some_iff_mem n.nodup p.1 p.2).mp (hall p hp)
    exact (List.subperm_of_subset m.pairs_nodup hsub).perm_of_length_le hl.ge
  · intro hp
    exact ⟨hp.length_eq, fun p hm => (lookup_eq_some_iff_mem n.nodup p.1 p.2).mpr (hp.subset hm)⟩

/-- The same pairs in another order. -/
def LabelMap.reorder (m : LabelMap) (l : List (Str × Str)) (h : l.Perm m.pairs) : LabelMap :=
  ⟨l, (h.map Prod.fst).nodup_iff.mpr m.nodup⟩

theorem LabelMap.eqv_refl (m : LabelMap) : m.eqv m = true := (eqv_iff_perm m m).mpr (List.Perm.refl _)

theorem LabelMap.eqv_symm {m n : LabelMap} (h : m.eqv n = true) : n.eqv m = true :=
  (eqv_iff_perm n m).mpr ((eqv_iff_perm m n).mp h).symm

theorem LabelMap.eqv_trans {m n k : LabelMap} (h : m.eqv n = true) (h' : n.eqv k = true) :
    m.eqv k = true :=
  (eqv_iff_perm m k).mpr (((eqv_iff_perm m n).mp h).trans ((eqv_iff_perm n k).mp h'))

/-! ## The hash -/

/-- The summand of one pair; `hs` is `std::hash<string>`. -/
def pairHash (hs : Str → UInt64) (p : Str × Str) : UInt64 := hs p.1 ^^^ hs p.2

/-- mirrors src/metrics/metric.cpp:14-20 (`label_values_map_t_hash`) -/
def labelValuesMapTHash (hs : Str → UInt64) (m : LabelMap) : UInt64 :=
  m.pairs.foldl (fun hash p => hash * 31 + pairHash hs p) 0

/-- The template arguments of `values_by_labels_t`.
mirrors src/metrics/metric.h:56-60 -/
def labelKeys (hs : Str → UInt64) : KeyOps LabelMap UInt64 where
  hash := labelValuesMapTHash hs
  eq := LabelMap.eqv
  refl := LabelMap.eqv_refl
  symm := LabelMap.eqv_symm
  trans := LabelMap.eqv_trans

/-- Any two pairs of the map agree in the low 63 bits of
`hash(label) ^ hash(value)`. -/
def PairHashesAgree (hs : Str → UInt64) (m : LabelMap) : Prop :=
  ∀ p ∈ m.pairs, ∀ q ∈ m.pairs, 2 * pairHash hs p = 2 * pairHash hs q

theorem pairHashesAgree_of_length_le_one (hs : Str → UInt64) (m : LabelMap) (h : m.pairs.length ≤ 1) :
    PairHashesAgree hs m := by
  intro p hp q hq
  match hm : m.pairs, h with
  | [], _ => rw [hm] at hp; cases hp
  | [a], _ =>
    rw [hm, List.mem_singleton] at hp hq
    rw [hp, hq]

/-- 15 is a unit modulo 2^64. -/
theorem thirty_mul_iff (x y : UInt64) : (31 - 1) * x = (31 - 1) * y ↔ 2 * x = 2 * y := by
  have : (15 : UInt64) * 17216961135462248175 = 1 := by decide
  constructor
  · intro h; grind
  · intro h; grind

section
open scoped UInt64.CommRing

/-- Every iteration order of the map has the same hash exactly when its
pair hashes agree. -/
theorem hash_order_iff (hs : Str → UInt64) (m : LabelMap) :
    (∀ m', m'.eqv m = true → labelValuesMapTHash hs m' = labelValuesMapTHash hs m) ↔
      PairHashesAgree hs m := by
  have key := perm_iff (31 : UInt64) (pairHash hs) m.pairs
  simp only [thirty_mul_iff] at key
  rw [PairHashesAgree, ← key]
  constructor
  · intro h l hl
    exact h (m.reorder l hl) ((LabelMap.eqv_iff_perm _ _).mpr hl)
  · intro h m' hm
    exact h m'.pairs ((LabelMap.eqv_iff_perm _ _).mp hm)

end

end SoapStab.Metrics
