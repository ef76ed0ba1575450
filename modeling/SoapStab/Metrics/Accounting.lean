import SoapStab.Metrics.Identity
import Mathlib.Tactic.Linarith

/-!
# What `value(L)` is after a run

The property: after any run of `set` and `inc` calls, `value(L)` is the
value of the last `set` on `L`, or the initial value `v0`, plus the diffs of
the accepted `inc` calls on `L` since (`accounted`).

Four paths reach the map and they do not agree on an absent entry: the
constructor stores `v0` for the default label map only, `inc` starts a fresh
entry from zero, `value` falls back to `_initial_value`, which nothing ever
wrote. And an accepted call that spells `L` in an order with another hash
(see `Identity`) works on another entry.

`marks` are the accepted calls on `L`, each with whether it hashes like `L`;
`Counted` says what they must be like: with the last `set` hashing like `L`,
the diffs that went elsewhere since come to nothing; with no `set`, some call
hashed like `L`, and `v0` and what went elsewhere cancel out; with a last
`set` that went elsewhere, the entry agrees with it by coincidence.

* `accounting_iff`: the accounting is right exactly then, for every run.
* Where the calls from the last `set` on hash like `L`, that is when `L` is
  `Touched`: it is the default label map, or some call set it, or some
  accepted `inc` reached it and `v0` is zero.
-/
namespace SoapStab.Metrics

open SoapStab.Lib.Hash

variable {hs : Str → UInt64}

/-- The accepted calls on `L`, in order. -/
def effects (cls : MetricClass) (D L : LabelMap) (calls : List Call) : List Effect :=
  calls.filterMap fun c => if (c.target D).eqv L then c.effect cls else none

def Effect.account (acc : ℚ) : Effect → ℚ
  | .set v => v
  | .add d => acc + d

/-- The last `set`, or `v0`, plus the diffs since. -/
def accounted (v0 : ℚ) (es : List Effect) : ℚ := es.foldl Effect.account v0

theorem accounted_append (v0 : ℚ) (es es' : List Effect) :
    accounted v0 (es ++ es') = accounted (accounted v0 es) es' := by
  simp [accounted, List.foldl_append]

theorem accounted_set (v0 v : ℚ) (es es' : List Effect) :
    accounted v0 (es ++ .set v :: es') = accounted v es' := by
  simp [accounted, List.foldl_append, Effect.account]

theorem accounted_adds (v0 : ℚ) (ds : List ℚ) : accounted v0 (ds.map .add) = v0 + ds.sum := by
  induction ds generalizing v0 with
  | nil => simp [accounted]
  | cons d ds ih =>
    have : accounted v0 ((d :: ds).map .add) = accounted (v0 + d) (ds.map .add) := rfl
    rw [this, ih, List.sum_cons, add_assoc]

/-- After the run, `value(L)` is what the calls on `L` account for. -/
def Accounts (hs : Str → UInt64) (cls : MetricClass) (name type help : Str) (v0 : ℚ) (D : LabelMap)
    (now : Int) (calls : List Call) (L : LabelMap) : Prop :=
  ((Metric.ctor hs cls name type help v0 D now).run calls).valueLabels L =
    some (accounted v0 (effects cls D L calls))

/-! ## When the accounting is right -/

/-- `l` hashes like `L`. -/
def alike (hs : Str → UInt64) (L l : LabelMap) : Bool :=
  decide (labelValuesMapTHash hs l = labelValuesMapTHash hs L)

/-- An accepted call on `L`: does it hash like `L`, and what does it do. -/
structure Mark where
  alike : Bool
  effect : Effect
  deriving DecidableEq

/-- The accepted calls on `L`, in order. The constructor sets the default
label map. -/
def marks (hs : Str → UInt64) (cls : MetricClass) (v0 : ℚ) (D L : LabelMap) (calls : List Call) : List Mark :=
  (if D.eqv L then [⟨alike hs L D, .set v0⟩] else []) ++
    calls.filterMap fun c =>
      if (c.target D).eqv L then (c.effect cls).map fun e => ⟨alike hs L (c.target D), e⟩ else none

/-- A decrement that a counter rejects is no mark, however it is spelled. -/
example : marks lengthHash .counter 0 noLabels postThenCode
    [.setLabels postThenCode 3 1, .incLabels codeThenPost (-1) 2] = [⟨true, .set 3⟩] := by decide +kernel

/-- The calls that reach the entry of `L`. -/
def spelled (ms : List Mark) : List Effect := (ms.filter (·.alike)).map (·.effect)

/-- The last `set`, whether it hashes like `L`, and what came before it. -/
structure LastSet where
  before : List Mark
  alike : Bool
  value : ℚ

/-- The last `set` and the diffs added since, each with whether it hashes
like `L`. -/
def cut : List Mark → Option LastSet × List (Bool × ℚ)
  | [] => (none, [])
  | x :: ms =>
    match (cut ms).1, x.effect with
    | some s, _ => (some { s with before := x :: s.before }, (cut ms).2)
    | none, .set v => (some ⟨[], x.alike, v⟩, (cut ms).2)
    | none, .add d => (none, (x.alike, d) :: (cut ms).2)

/-- What the diffs that do not hash like `L` come to. -/
def missed (ds : List (Bool × ℚ)) : ℚ := ((ds.filter (!·.1)).map (·.2)).sum

/-- What the accepted calls on `L` must be like for `value(L)` to be right. -/
def Counted (v0 : ℚ) (ms : List Mark) : Prop :=
  match cut ms with
  | (none, ds) => spelled ms ≠ [] ∧ v0 + missed ds = 0
  | (some ⟨_, true, _⟩, ds) => missed ds = 0
  | (some ⟨before, false, v⟩, ds) => spelled ms ≠ [] ∧ accounted 0 (spelled before) = v + missed ds

/-- From the last `set` on, the accepted calls on `L` hash like `L`. -/
def SpelledSince (ms : List Mark) : Prop :=
  (∀ s, (cut ms).1 = some s → s.alike = true) ∧ ∀ d ∈ (cut ms).2, d.1 = true

/-- Some call reached the entry of `L` in a way that accounts for `v0`. -/
def Touched (v0 : ℚ) (D L : LabelMap) (es : List Effect) : Prop :=
  D.eqv L = true ∨ (∃ v, .set v ∈ es) ∨ (v0 = 0 ∧ es ≠ [])

/-! ## The entry of `L` -/

/-- The value stored for `L`. -/
def stored (s : Metric hs) (L : LabelMap) : Option ℚ := (s.valuesByLabels.find L).map (·.value)

theorem valueLabels_eq (s : Metric hs) (L : LabelMap) (h : s.initialValue = none) :
    s.valueLabels L = stored s L := by
  unfold Metric.valueLabels stored
  cases s.valuesByLabels.find L with
  | none => exact h
  | some v => rfl

theorem same_eq_alike (L l : LabelMap) : (labelKeys hs).same l L = (alike hs L l && l.eqv L) := rfl

theorem alike_of_hash {L l : LabelMap} (h : labelValuesMapTHash hs l = labelValuesMapTHash hs L) :
    alike hs L l = true := decide_eq_true h

theorem same_of_hashedAlike {l L : LabelMap}
    (h : l.eqv L = true → labelValuesMapTHash hs l = labelValuesMapTHash hs L) :
    (labelKeys hs).same l L = l.eqv L := by
  cases he : l.eqv L with
  | true => exact ((labelKeys hs).same_iff l L).mpr ⟨h he, he⟩
  | false => simp [KeyOps.same, labelKeys, he]

theorem stored_ctor_same (cls : MetricClass) (name type help : Str) (v0 : ℚ) (D L : LabelMap) (now : Int) :
    stored (Metric.ctor hs cls name type help v0 D now) L =
      if (labelKeys hs).same D L then some v0 else none := by
  simp only [stored, Metric.ctor, HashTable.find_assign]
  split <;> rfl

theorem stored_ctor (cls : MetricClass) (name type help : Str) (v0 : ℚ) (D L : LabelMap) (now : Int)
    (h : D.eqv L = true → labelValuesMapTHash hs D = labelValuesMapTHash hs L) :
    stored (Metric.ctor hs cls name type help v0 D now) L = if D.eqv L then some v0 else none := by
  rw [stored_ctor_same, same_of_hashedAlike h]

/-- A run acts on the entry of `L` through the accepted calls whose label map
is `L` for the container. -/
theorem stored_run_same (s : Metric hs) (calls : List Call) (L : LabelMap) :
    stored (s.run calls) L =
      (calls.filterMap fun c => if (labelKeys hs).same (c.target s.labelDefaults) L then c.effect s.cls
        else none).foldl (fun o e => some (e.apply o)) (stored s L) := by
  induction calls generalizing s with
  | nil => rfl
  | cons c cs ih =>
    have hstep := call_find s c L
    have hrest := ih (s.call c)
    simp only [call_cls, call_labelDefaults] at hrest
    rw [Metric.run, List.foldl_cons, ← Metric.run, hrest]
    simp only [List.filterMap_cons, stored] at hstep ⊢
    rw [hstep]
    cases (labelKeys hs).same (c.target s.labelDefaults) L with
    | false => simp
    | true => cases c.effect s.cls <;> simp

/-- Where the accepted calls on `L` hash like `L`, these are all the calls on
`L`. -/
theorem stored_run (s : Metric hs) (calls : List Call) (L : LabelMap)
    (h : ∀ c ∈ calls, (c.effect s.cls).isSome = true → (c.target s.labelDefaults).eqv L = true →
      labelValuesMapTHash hs (c.target s.labelDefaults) = labelValuesMapTHash hs L) :
    stored (s.run calls) L =
      (effects s.cls s.labelDefaults L calls).foldl (fun o e => some (e.apply o)) (stored s L) := by
  rw [stored_run_same, effects]
  congr 1
  refine List.filterMap_congr fun c hc => ?_
  cases he : c.effect s.cls with
  | none => simp
  | some e => rw [same_of_hashedAlike (h c hc (by simp [he]))]

/-! ## Effects on an absent and on a present entry -/

theorem foldl_present (es : List Effect) (a : ℚ) :
    es.foldl (fun o e => some (e.apply o)) (some a) = some (accounted a es) := by
  induction es generalizing a with
  | nil => rfl
  | cons e es ih => cases e <;> simpa [Effect.apply, accounted, Effect.account] using ih _

theorem foldl_absent (es : List Effect) (h : es ≠ []) :
    es.foldl (fun o e => some (e.apply o)) none = some (accounted 0 es) := by
  cases es with
  | nil => exact absurd rfl h
  | cons e es =>
    rw [List.foldl_cons, foldl_present]
    cases e <;> rfl

theorem foldl_absent_iff (es : List Effect) (a : ℚ) :
    es.foldl (fun o e => some (e.apply o)) none = some a ↔ es ≠ [] ∧ accounted 0 es = a := by
  by_cases he : es = []
  · subst he; simp
  · simp [foldl_absent es he, he]

/-! ## Cutting at the last `set` -/

/-- The diffs of a cut as the calls they came from. -/
def adds (ds : List (Bool × ℚ)) : List Mark := ds.map fun d => ⟨d.1, .add d.2⟩

theorem cut_spec (ms : List Mark) :
    ((cut ms).1 = none → ms = adds (cut ms).2) ∧
      ∀ s, (cut ms).1 = some s → ms = s.before ++ ⟨s.alike, .set s.value⟩ :: adds (cut ms).2 := by
  induction ms with
  | nil => exact ⟨fun _ => rfl, fun s h => by cases h⟩
  | cons x ms ih =>
    obtain ⟨b, e⟩ := x
    unfold cut
    cases hs : (cut ms).1 with
    | some t =>
      have hms := ih.2 t hs
      refine ⟨fun h => by simp at h, fun s h => ?_⟩
      obtain rfl := Option.some.inj h
      exact congrArg (_ :: ·) hms
    | none =>
      have hms := ih.1 hs
      cases e with
      | set v =>
        refine ⟨fun h => by simp at h, fun s h => ?_⟩
        obtain rfl := Option.some.inj h
        exact congrArg (_ :: ·) hms
      | add d => exact ⟨fun _ => congrArg (_ :: ·) hms, fun s h => by simp at h⟩

theorem spelled_append (ms ms' : List Mark) : spelled (ms ++ ms') = spelled ms ++ spelled ms' := by
  simp [spelled]

theorem spelled_adds (ds : List (Bool × ℚ)) :
    spelled (adds ds) = ((ds.filter (·.1)).map (·.2)).map .add := by
  simp [spelled, adds, List.filter_map, Function.comp_def]

theorem effects_adds (ds : List (Bool × ℚ)) : (adds ds).map (·.effect) = (ds.map (·.2)).map .add := by
  simp [adds]

/-- A diff hashes like `L` or is missed. -/
theorem sum_eq_missed (ds : List (Bool × ℚ)) :
    (ds.map (·.2)).sum = ((ds.filter (·.1)).map (·.2)).sum + missed ds := by
  unfold missed
  induction ds with
  | nil => simp
  | cons d ds ih =>
    obtain ⟨b, q⟩ := d
    cases b <;> simp [ih] <;> linarith

theorem missed_eq_zero {ds : List (Bool × ℚ)} (h : ∀ d ∈ ds, d.1 = true) : missed ds = 0 := by
  have : ds.filter (!·.1) = [] := List.filter_eq_nil_iff.mpr fun d hd => by simp [h d hd]
  rw [missed, this]
  rfl

/-- **What the entry of `L` sees is the account** exactly when the calls
count. -/
theorem counted_iff (v0 : ℚ) (ms : List Mark) :
    (spelled ms).foldl (fun o e => some (e.apply o)) none = some (accounted v0 (ms.map (·.effect))) ↔
      Counted v0 ms := by
  rw [foldl_absent_iff]
  obtain ⟨hadds, hset⟩ := cut_spec ms
  unfold Counted
  rcases hcut : cut ms with ⟨_ | ⟨before, _ | _, v⟩, ds⟩
  · -- no `set`: both accounts are sums
    simp only [hcut, true_implies] at hadds
    have hleft : accounted 0 (spelled ms) = ((ds.filter (·.1)).map (·.2)).sum := by
      rw [hadds, spelled_adds, accounted_adds, zero_add]
    have hright : accounted v0 (ms.map (·.effect)) = v0 + (ds.map (·.2)).sum := by
      rw [hadds, effects_adds, accounted_adds]
    rw [hleft, hright, sum_eq_missed ds]
    exact and_congr_right fun _ => ⟨fun h => by linarith, fun h => by linarith⟩
  · -- the last `set` went elsewhere: the entry goes on from what it was
    simp only [hcut, Option.some.injEq, forall_eq'] at hset
    have hleft : accounted 0 (spelled ms) =
        accounted 0 (spelled before) + ((ds.filter (·.1)).map (·.2)).sum := by
      have hspelled : spelled ms = spelled before ++ spelled (adds ds) := by
        rw [hset, spelled_append]
        rfl
      rw [hspelled, accounted_append, spelled_adds, accounted_adds]
    have hright : accounted v0 (ms.map (·.effect)) = v + (ds.map (·.2)).sum := by
      rw [hset, List.map_append, List.map_cons, accounted_set, effects_adds, accounted_adds]
    rw [hleft, hright, sum_eq_missed ds]
    exact and_congr_right fun _ => ⟨fun h => by linarith, fun h => by linarith⟩
  · -- the last `set` reached the entry: both go on from its value
    simp only [hcut, Option.some.injEq, forall_eq'] at hset
    have hspelled : spelled ms = spelled before ++ .set v :: spelled (adds ds) := by
      rw [hset, spelled_append]
      rfl
    have hleft : accounted 0 (spelled ms) = v + ((ds.filter (·.1)).map (·.2)).sum := by
      rw [hspelled, accounted_set, spelled_adds, accounted_adds]
    have hright : accounted v0 (ms.map (·.effect)) = v + (ds.map (·.2)).sum := by
      rw [hset, List.map_append, List.map_cons, accounted_set, effects_adds, accounted_adds]
    have hne : spelled ms ≠ [] := by simp [hspelled]
    rw [hleft, hright, sum_eq_missed ds]
    exact ⟨fun h => by linarith [h.2], fun h => ⟨hne, by linarith⟩⟩

/-! ## Where the calls hash alike since the last `set` -/

theorem counted_of_spelledSince {v0 : ℚ} {ms : List Mark} (h : SpelledSince ms) :
    Counted v0 ms ↔ (∃ v, .set v ∈ ms.map (·.effect)) ∨ (v0 = 0 ∧ ms ≠ []) := by
  obtain ⟨hlast, hsince⟩ := h
  obtain ⟨hadds, hset⟩ := cut_spec ms
  unfold Counted
  rcases hcut : cut ms with ⟨_ | ⟨before, _ | _, v⟩, ds⟩
  · simp only [hcut, true_implies] at hadds hsince
    have hspelled : spelled ms = ms.map (·.effect) := by
      rw [hadds, spelled_adds, effects_adds, List.filter_eq_self.mpr hsince]
    have hnoset : ¬ ∃ v, .set v ∈ ms.map (·.effect) := by
      rw [hadds, effects_adds]
      simp
    have hne : spelled ms ≠ [] ↔ ms ≠ [] := by simp [hspelled]
    show spelled ms ≠ [] ∧ v0 + missed ds = 0 ↔ _
    rw [hne, missed_eq_zero hsince, add_zero, or_iff_right hnoset, and_comm]
  · have := hlast ⟨before, false, v⟩ (by rw [hcut])
    cases this
  · simp only [hcut, Option.some.injEq, forall_eq'] at hset hsince
    have hmem : .set v ∈ ms.map (·.effect) := by rw [hset]; simp
    exact ⟨fun _ => .inl ⟨v, hmem⟩, fun _ => missed_eq_zero hsince⟩

theorem spelledSince_of_all {ms : List Mark} (h : ∀ x ∈ ms, x.alike = true) : SpelledSince ms := by
  obtain ⟨hadds, hset⟩ := cut_spec ms
  have hsub : ∀ x ∈ adds (cut ms).2, x ∈ ms := by
    intro x hx
    cases hs : (cut ms).1 with
    | none => rwa [hadds hs]
    | some s => rw [hset s hs]; simp [hx]
  refine ⟨fun s hs => h ⟨s.alike, .set s.value⟩ (by rw [hset s hs]; simp), fun d hd => ?_⟩
  exact h ⟨d.1, .add d.2⟩ (hsub _ (List.mem_map.mpr ⟨d, hd, rfl⟩))

/-! ## Whole runs -/

section
variable (hs : Str → UInt64) (cls : MetricClass) (v0 : ℚ) (D L : LabelMap) (calls : List Call)

theorem marks_effects : (marks hs cls v0 D L calls).map (·.effect) =
    (if D.eqv L then [.set v0] else []) ++ effects cls D L calls := by
  unfold marks effects
  rw [List.map_append, List.map_filterMap]
  congr 1
  · split <;> rfl
  · refine List.filterMap_congr fun c _ => ?_
    split
    · cases c.effect cls <;> rfl
    · rfl

theorem spelled_marks : spelled (marks hs cls v0 D L calls) =
    (if (labelKeys hs).same D L then [.set v0] else []) ++
      calls.filterMap fun c => if (labelKeys hs).same (c.target D) L then c.effect cls else none := by
  unfold marks
  rw [spelled_append]
  congr 1
  · rw [same_eq_alike]
    cases D.eqv L <;> cases alike hs L D <;> simp [spelled]
  · unfold spelled
    rw [List.filter_filterMap, List.map_filterMap]
    refine List.filterMap_congr fun c _ => ?_
    rw [same_eq_alike]
    cases (c.target D).eqv L with
    | false => simp
    | true => cases alike hs L (c.target D) <;> cases c.effect cls <;> simp [Option.filter]

/-- The account starts from `v0` whether or not the constructor counts. -/
theorem accounted_marks : accounted v0 ((marks hs cls v0 D L calls).map (·.effect)) =
    accounted v0 (effects cls D L calls) := by
  rw [marks_effects]
  split <;> rfl

theorem touched_iff_marks : Touched v0 D L (effects cls D L calls) ↔
    (∃ v, .set v ∈ (marks hs cls v0 D L calls).map (·.effect)) ∨
      (v0 = 0 ∧ marks hs cls v0 D L calls ≠ []) := by
  have hne : marks hs cls v0 D L calls ≠ [] ↔ (marks hs cls v0 D L calls).map (·.effect) ≠ [] := by simp
  rw [hne, marks_effects]
  unfold Touched
  cases D.eqv L <;> simp

theorem accounts_iff_counted (name type help : Str) (now : Int) :
    Accounts hs cls name type help v0 D now calls L ↔ Counted v0 (marks hs cls v0 D L calls) := by
  have hctor : stored (Metric.ctor hs cls name type help v0 D now) L =
      (if (labelKeys hs).same D L then [Effect.set v0] else []).foldl (fun o e => some (e.apply o)) none := by
    rw [stored_ctor_same]
    split <;> rfl
  unfold Accounts
  rw [valueLabels_eq _ _ (run_initialValue _ _), stored_run_same, hctor, ← List.foldl_append,
    ← counted_iff, spelled_marks, accounted_marks]
  rfl

theorem marks_alike (h : PairHashesAgree hs L) : ∀ x ∈ marks hs cls v0 D L calls, x.alike = true := by
  have key : ∀ l : LabelMap, l.eqv L = true → alike hs L l = true :=
    fun l he => alike_of_hash ((hash_order_iff hs L).mpr h l he)
  intro x hx
  rcases List.mem_append.mp hx with hx | hx
  · split at hx
    · next he => rw [List.mem_singleton.mp hx]; exact key D he
    · cases hx
  · obtain ⟨c, -, hc⟩ := List.mem_filterMap.mp hx
    split at hc
    · next he =>
      obtain ⟨e, -, rfl⟩ := Option.map_eq_some_iff.mp hc
      exact key _ he
    · cases hc

end

/-- Setting `L` in an order that hashes differently is not read back. -/
theorem set_other_order {L L' : LabelMap} (hh : labelValuesMapTHash hs L' ≠ labelValuesMapTHash hs L)
    (v : ℚ) (ts now : Int) :
    ((Metric.ctor hs .gauge [] [] [] 0 L' now).run [.setLabels L' v ts]).valueLabels L = none := by
  have hs' : (labelKeys hs).same L' L = false := by simp [KeyOps.same, labelKeys, hh]
  rw [valueLabels_eq _ _ (run_initialValue _ _)]
  simp [stored, Metric.run, Metric.call, Metric.setLabels, Metric.assign, Metric.ctor,
    HashTable.find_assign, hs']

/-- **Accounting.** After a run, `value(L)` is what the calls on `L` account
for exactly when they are `Counted`. Where the calls from the last `set` on
hash like `L` this means that `L` is touched, and so it does for all runs
exactly when every order of `L` hashes alike. A call on another label map
leaves `value(L)` alone. -/
theorem accounting_iff (hs : Str → UInt64) (L : LabelMap) :
    (∀ cls name type help v0 D now calls,
      Accounts hs cls name type help v0 D now calls L ↔ Counted v0 (marks hs cls v0 D L calls)) ∧
    (∀ cls name type help v0 D now calls, SpelledSince (marks hs cls v0 D L calls) →
      (Accounts hs cls name type help v0 D now calls L ↔ Touched v0 D L (effects cls D L calls))) ∧
    ((∀ cls name type help v0 D now calls,
      Accounts hs cls name type help v0 D now calls L ↔ Touched v0 D L (effects cls D L calls)) ↔
      PairHashesAgree hs L) ∧
    ∀ (m : Metric hs) (c : Call), (c.target m.labelDefaults).eqv L = false →
      (m.call c).valueLabels L = m.valueLabels L := by
  have hsince : ∀ cls name type help v0 D now calls, SpelledSince (marks hs cls v0 D L calls) →
      (Accounts hs cls name type help v0 D now calls L ↔ Touched v0 D L (effects cls D L calls)) := by
    intro cls name type help v0 D now calls h
    rw [accounts_iff_counted, counted_of_spelledSince h, touched_iff_marks]
  refine ⟨fun cls name type help v0 D now calls => accounts_iff_counted hs cls v0 D L calls name type help now,
    hsince, ⟨fun h => ?_, fun h => ?_⟩, fun m c => call_frame m c L⟩
  · refine (hash_order_iff hs L).mp fun L' he => ?_
    by_contra hh
    have hset := (h .gauge [] [] [] 0 L' 0 [.setLabels L' 1 0]).mpr (.inl he)
    unfold Accounts at hset
    rw [set_other_order hh] at hset
    cases hset
  · exact fun cls name type help v0 D now calls =>
      hsince cls name type help v0 D now calls (spelledSince_of_all (marks_alike hs cls v0 D L calls h))

/-! ## A label map first seen -/

def onlyCode : LabelMap := ⟨[("code".toList, "400".toList)], by decide⟩

/-- A gauge created with 1: a label map never touched has no defined value,
and the first `inc` on it by 1 leaves 1 where the account says 2. -/
theorem accounting_fails :
    ¬ Accounts lengthHash .gauge "g".toList "gauge".toList [] 1 noLabels 1 [] onlyCode ∧
      ¬ Accounts lengthHash .gauge "g".toList "gauge".toList [] 1 noLabels 1
        [.incLabels onlyCode 1 2] onlyCode := by
  unfold Accounts
  decide +kernel

end SoapStab.Metrics
