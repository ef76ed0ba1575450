import Mathlib.Data.List.Pairwise
import Mathlib.Tactic.Common

/-!
# Hash tables whose hash need not respect key equality

A `std::unordered_map` is instantiated with a hash and an equality supplied
by its user (`KeyOps`). The container finds a key only among the entries
with the same hash, so what it treats as one key is `KeyOps.same`: equal
*and* equally hashed. The library requires `eq a b → hash a = hash b` of its
user but does not check it; here it is not assumed either, and
`Coherent` names it where a result needs it.

`HashTable` is the list of entries in iteration order; no two of them are
the same key for the container. Buckets, load factor and capacity only
influence the iteration order, so they are absent.

* `find_assign`: reading after `t[k] = v`.
* `mem_assign`: the entries after `t[k] = v`.
* `coherent_distinct`: where the hash is coherent on a table's keys, no two
  entries have equal keys; `distinct_iff_coherent` is exact.
-/
namespace SoapStab.Lib.Hash

/-- Hash and key equality, as the template arguments of an unordered map. -/
structure KeyOps (K H : Type*) where
  hash : K → H
  eq : K → K → Bool
  refl : ∀ a, eq a a = true
  symm : ∀ {a b}, eq a b = true → eq b a = true
  trans : ∀ {a b c}, eq a b = true → eq b c = true → eq a c = true

variable {K H V : Type*} [DecidableEq H]

/-- One key, as far as the container can tell. -/
def KeyOps.same (o : KeyOps K H) (a b : K) : Bool := decide (o.hash a = o.hash b) && o.eq a b

section
variable (o : KeyOps K H)

theorem KeyOps.same_iff (a b : K) : o.same a b = true ↔ o.hash a = o.hash b ∧ o.eq a b = true := by
  simp [KeyOps.same]

@[simp] theorem KeyOps.same_refl (a : K) : o.same a a = true := by
  simp [KeyOps.same_iff, o.refl]

theorem KeyOps.same_symm {a b : K} (h : o.same a b = true) : o.same b a = true := by
  rw [KeyOps.same_iff] at h ⊢
  exact ⟨h.1.symm, o.symm h.2⟩

theorem KeyOps.same_trans {a b c : K} (h : o.same a b = true) (h' : o.same b c = true) :
    o.same a c = true := by
  rw [KeyOps.same_iff] at h h' ⊢
  exact ⟨h.1.trans h'.1, o.trans h.2 h'.2⟩

/-- `same` is an equivalence, so two keys the same as each other are the
same as the same keys. -/
theorem KeyOps.same_congr {a b : K} (h : o.same a b = true) (c : K) : o.same a c = o.same b c := by
  rw [Bool.eq_iff_iff]
  exact ⟨fun h' => o.same_trans (o.same_symm h) h', fun h' => o.same_trans h h'⟩

/-- The hash respects equality among the keys satisfying `P`. -/
def KeyOps.Coherent (P : K → Prop) : Prop := ∀ a b, P a → P b → o.eq a b = true → o.hash a = o.hash b

theorem KeyOps.Coherent.same_eq {o : KeyOps K H} {P : K → Prop} (hc : o.Coherent P) {a b : K}
    (ha : P a) (hb : P b) : o.same a b = o.eq a b := by
  rw [Bool.eq_iff_iff, KeyOps.same_iff]
  exact ⟨fun h => h.2, fun h => ⟨hc a b ha hb h, h⟩⟩

end

/-! ## The entries -/

/-- Entries in iteration order: find the value of `k`. -/
def findIn (o : KeyOps K H) (k : K) : List (K × V) → Option V
  | [] => none
  | e :: t => if o.same e.1 k then some e.2 else findIn o k t

/-- `t[k] = v`: an existing entry keeps its key object and its place. -/
def assignIn (o : KeyOps K H) (k : K) (v : V) : List (K × V) → List (K × V)
  | [] => [(k, v)]
  | e :: t => if o.same e.1 k then (e.1, v) :: t else e :: assignIn o k v t

section
variable {o : KeyOps K H}

theorem findIn_assignIn (k k' : K) (v : V) (t : List (K × V)) :
    findIn o k' (assignIn o k v t) = if o.same k k' then some v else findIn o k' t := by
  induction t with
  | nil => rfl
  | cons e t ih =>
    simp only [assignIn]
    cases he : o.same e.1 k with
    | true =>
      have hk := o.same_congr he k'
      simp only [if_true, findIn, hk]
      split <;> rfl
    | false =>
      simp only [Bool.false_eq_true, if_false, findIn, ih]
      cases hk : o.same e.1 k' with
      | false => simp
      | true =>
        -- `e` is `k'`, hence not `k`
        have : o.same k k' = false := by
          cases h : o.same k k' with
          | false => rfl
          | true => rw [o.same_trans hk (o.same_symm h)] at he; cases he
        simp [this]

theorem mem_assignIn {k : K} {v : V} {t : List (K × V)} {e : K × V} (h : e ∈ assignIn o k v t) :
    e ∈ t ∨ (o.same e.1 k = true ∧ e.2 = v ∧ (e.1 = k ∨ e.1 ∈ t.map Prod.fst)) := by
  induction t with
  | nil =>
    simp only [assignIn, List.mem_singleton] at h
    subst h; exact .inr ⟨o.same_refl k, rfl, .inl rfl⟩
  | cons a t ih =>
    simp only [assignIn] at h
    split at h
    · next ha =>
      rcases List.mem_cons.mp h with rfl | h
      · exact .inr ⟨ha, rfl, .inr (by simp)⟩
      · exact .inl (List.mem_cons_of_mem _ h)
    · rcases List.mem_cons.mp h with rfl | h
      · exact .inl List.mem_cons_self
      · rcases ih h with h | ⟨h1, h2, h3⟩
        · exact .inl (List.mem_cons_of_mem _ h)
        · exact .inr ⟨h1, h2, h3.imp id fun h => by simp [h]⟩

/-- An entry keeps its key object, whatever is assigned. -/
theorem exists_mem_assignIn (k : K) (v : V) {t : List (K × V)} {e : K × V} (h : e ∈ t) :
    ∃ v', (e.1, v') ∈ assignIn o k v t := by
  induction t with
  | nil => cases h
  | cons a t ih =>
    simp only [assignIn]
    split
    · rcases List.mem_cons.mp h with rfl | h
      · exact ⟨v, List.mem_cons_self⟩
      · exact ⟨e.2, List.mem_cons_of_mem _ h⟩
    · rcases List.mem_cons.mp h with rfl | h
      · exact ⟨e.2, List.mem_cons_self⟩
      · obtain ⟨v', hv'⟩ := ih h
        exact ⟨v', List.mem_cons_of_mem _ hv'⟩

theorem distinct_assignIn (k : K) (v : V) (t : List (K × V))
    (hd : t.Pairwise fun a b => o.same a.1 b.1 = false) :
    (assignIn o k v t).Pairwise fun a b => o.same a.1 b.1 = false := by
  induction t with
  | nil => simp [assignIn]
  | cons a t ih =>
    rw [List.pairwise_cons] at hd
    simp only [assignIn]
    split
    · exact List.pairwise_cons.mpr ⟨hd.1, hd.2⟩
    · next ha =>
      refine List.pairwise_cons.mpr ⟨fun b hb => ?_, ih hd.2⟩
      rcases mem_assignIn hb with hb | ⟨hb, -, -⟩
      · exact hd.1 b hb
      · cases h : o.same a.1 b.1 with
        | false => rfl
        | true => exact absurd (o.same_trans h hb) ha

theorem findIn_of_mem {t : List (K × V)} (hd : t.Pairwise fun a b => o.same a.1 b.1 = false)
    {e : K × V} (he : e ∈ t) {k : K} (hk : o.same e.1 k = true) : findIn o k t = some e.2 := by
  induction t with
  | nil => cases he
  | cons a t ih =>
    rw [List.pairwise_cons] at hd
    rcases List.mem_cons.mp he with rfl | he
    · simp [findIn, hk]
    · have ha : o.same a.1 k = false := by
        cases h : o.same a.1 k with
        | false => rfl
        | true =>
          have := o.same_trans h (o.same_symm hk)
          rw [hd.1 e he] at this; cases this
      simpa [findIn, ha] using ih hd.2 he

theorem mem_of_findIn {t : List (K × V)} {k : K} {v : V} (h : findIn o k t = some v) :
    ∃ e ∈ t, o.same e.1 k = true ∧ e.2 = v := by
  induction t with
  | nil => cases h
  | cons a t ih =>
    simp only [findIn] at h
    split at h
    · next ha => exact ⟨a, List.mem_cons_self, ha, by simpa using h⟩
    · obtain ⟨e, he, h1, h2⟩ := ih h
      exact ⟨e, List.mem_cons_of_mem _ he, h1, h2⟩

/-- Whether a key is found depends on the keys only. -/
theorem findIn_isSome (k : K) (t : List (K × V)) :
    (findIn o k t).isSome = (t.map Prod.fst).any fun a => o.same a k := by
  induction t with
  | nil => rfl
  | cons e t ih =>
    simp only [findIn, List.map_cons, List.any_cons, ← ih]
    split <;> simp [*]

/-- Assigning to a key that is found inserts nothing. -/
theorem keys_assignIn (k : K) (v : V) {t : List (K × V)} (h : (findIn o k t).isSome = true) :
    (assignIn o k v t).map Prod.fst = t.map Prod.fst := by
  induction t with
  | nil => cases h
  | cons e t ih =>
    simp only [findIn] at h
    simp only [assignIn]
    split
    · rfl
    · next he =>
      rw [if_neg he] at h
      simp [ih h]

/-- Only the last value assigned to a key stays. -/
theorem assignIn_assignIn (k : K) (v w : V) (t : List (K × V)) :
    assignIn o k w (assignIn o k v t) = assignIn o k w t := by
  induction t with
  | nil => simp [assignIn]
  | cons e t ih =>
    simp only [assignIn]
    split
    · next he => simp [assignIn, he]
    · next he => simp [assignIn, he, ih]

end

/-! ## The table -/

/-- An unordered map: entries in iteration order, one per `same` class. -/
structure HashTable (o : KeyOps K H) (V : Type*) where
  entries : List (K × V)
  distinct : entries.Pairwise fun a b => o.same a.1 b.1 = false

namespace HashTable

variable {o : KeyOps K H}

instance [DecidableEq K] [DecidableEq V] : DecidableEq (HashTable o V) := fun s t =>
  decidable_of_iff (s.entries = t.entries) ⟨fun h => by cases s; cases t; cases h; rfl, congrArg entries⟩

def empty : HashTable o V := ⟨[], List.Pairwise.nil⟩

/-- `find`. -/
def find (t : HashTable o V) (k : K) : Option V := findIn o k t.entries

/-- `t[k] = v`. -/
def assign (t : HashTable o V) (k : K) (v : V) : HashTable o V :=
  ⟨assignIn o k v t.entries, distinct_assignIn k v t.entries t.distinct⟩

@[simp] theorem find_empty (k : K) : (empty : HashTable o V).find k = none := rfl

theorem find_assign (t : HashTable o V) (k k' : K) (v : V) :
    (t.assign k v).find k' = if o.same k k' then some v else t.find k' :=
  findIn_assignIn k k' v t.entries

@[simp] theorem assign_assign (t : HashTable o V) (k : K) (v w : V) :
    (t.assign k v).assign k w = t.assign k w := by
  simp only [assign, assignIn_assignIn]

@[simp] theorem find_assign_self (t : HashTable o V) (k : K) (v : V) : (t.assign k v).find k = some v := by
  simp [find_assign]

/-- Keys that are the same for the container read the same entry. -/
theorem find_congr (t : HashTable o V) {k k' : K} (h : o.same k k' = true) : t.find k = t.find k' := by
  unfold find
  induction t.entries with
  | nil => rfl
  | cons e l ih =>
    have he : o.same e.1 k = o.same e.1 k' := by
      rw [Bool.eq_iff_iff]
      exact ⟨fun h' => o.same_trans h' h, fun h' => o.same_trans h' (o.same_symm h)⟩
    simp only [findIn, he, ih]

theorem find_iff (t : HashTable o V) (k : K) (v : V) :
    t.find k = some v ↔ ∃ e ∈ t.entries, o.same e.1 k = true ∧ e.2 = v := by
  constructor
  · exact mem_of_findIn
  · rintro ⟨e, he, hk, rfl⟩
    exact findIn_of_mem t.distinct he hk

/-- The iteration order does not matter to `find`. -/
theorem find_perm {s t : HashTable o V} (h : s.entries.Perm t.entries) (k : K) : s.find k = t.find k := by
  refine Option.ext fun v => ?_
  rw [find_iff, find_iff]
  exact exists_congr fun e => and_congr_left' h.mem_iff

/-- Every key object of `t[k] = v` is an old one or `k` itself. -/
theorem keys_assign {t : HashTable o V} {k : K} {v : V} {P : K → Prop} (hk : P k)
    (ht : ∀ e ∈ t.entries, P e.1) : ∀ e ∈ (t.assign k v).entries, P e.1 := by
  intro e he
  rcases mem_assignIn he with he | ⟨-, -, rfl | he⟩
  · exact ht e he
  · exact hk
  · obtain ⟨a, ha, hae⟩ := List.mem_map.mp he
    exact hae ▸ ht a ha

/-- The key objects, in iteration order. -/
def keys (t : HashTable o V) : List K := t.entries.map Prod.fst

theorem keys_assign_of_find {t : HashTable o V} {k : K} (h : (t.find k).isSome = true) (v : V) :
    (t.assign k v).keys = t.keys := keys_assignIn k v h

theorem find_isSome_of_keys {s t : HashTable o V} (h : s.keys = t.keys) (k : K) :
    (s.find k).isSome = (t.find k).isSome := by
  have hkeys : s.entries.map Prod.fst = t.entries.map Prod.fst := h
  simp only [find, findIn_isSome, hkeys]

/-- With a coherent hash no two entries have equal keys. -/
theorem coherent_distinct {t : HashTable o V} {P : K → Prop} (hc : o.Coherent P)
    (ht : ∀ e ∈ t.entries, P e.1) : t.entries.Pairwise fun a b => o.eq a.1 b.1 = false := by
  refine t.distinct.imp_of_mem fun {a b} ha hb h => ?_
  rwa [hc.same_eq (ht a ha) (ht b hb)] at h

/-- No two entries have equal keys exactly when the hash is coherent on the
keys that are found. -/
theorem distinct_iff_coherent {t : HashTable o V} {P : K → Prop} (hk : ∀ e ∈ t.entries, P e.1)
    (hf : ∀ k, P k → (t.find k).isSome = true) :
    (t.entries.Pairwise fun a b => o.eq a.1 b.1 = false) ↔ o.Coherent P := by
  refine ⟨fun hd a b ha hb hab => ?_, fun hc => coherent_distinct hc hk⟩
  have hentry : ∀ k, P k → ∃ e ∈ t.entries, o.same e.1 k = true := by
    intro k hk
    obtain ⟨v, hv⟩ := Option.isSome_iff_exists.mp (hf k hk)
    obtain ⟨e, he, hsame, -⟩ := (t.find_iff k v).mp hv
    exact ⟨e, he, hsame⟩
  obtain ⟨x, hx, hxa⟩ := hentry a ha
  obtain ⟨y, hy, hyb⟩ := hentry b hb
  rw [KeyOps.same_iff] at hxa hyb
  have hxy : o.eq x.1 y.1 = true := o.trans (o.trans hxa.2 hab) (o.symm hyb.2)
  -- one entry, as two would be distinct
  have heq : x = y := by
    by_contra hne
    have hsymm : Std.Symm fun e e' : K × V => o.eq e.1 e'.1 = false :=
      ⟨fun e e' h => Bool.eq_false_iff.mpr fun h' => by rw [o.symm h'] at h; cases h⟩
    have hfalse := hd.forall hx hy hne
    rw [hxy] at hfalse
    cases hfalse
  rw [← hxa.1, heq, hyb.1]

end HashTable

end SoapStab.Lib.Hash
