import SoapStab.Lib.Decimal
import SoapStab.Metrics.Metric

/-!
# The metrics registry

`create_gauge` and `create_counter` make a metric, store a shared pointer to
it under its name and return the pointer. `heap` holds every metric ever
made; a handle is its index, and a caller may go on using it for ever.
`metrics` is the registry's map from names to handles.

`_metrics[name] = g` replaces whatever was registered under the name, so a
name stands for the last metric created under it: `Registered`, in every run,
and `mem_exported` for what is exported. Updates through an older handle
still succeed.

The iteration order of `_metrics` is not specified; nothing here depends on
it.
-/
namespace SoapStab.Metrics

open SoapStab.Lib.Hash SoapStab.Lib.Decimal

variable {hs : Str → UInt64}

/-! ## Text -/

/-- `fmt::join` -/
def fmtJoin (sep : Str) (parts : List Str) : Str := sep.intercalate parts

/-- `fmtValue` is `{}` of a `double`.
mirrors src/metrics/metric.h:174-184 -/
def MetricValue.fmt (fmtValue : ℚ → Str) (v : MetricValue) : Str :=
  fmtValue v.value ++ " ".toList ++ decInt v.timestamp

/-- mirrors src/metrics/metric.h:187-197 -/
def fmtLabelPair (p : Str × Str) : Str := p.1 ++ "=\"".toList ++ p.2 ++ "\"".toList

/-- mirrors src/metrics/metric.h:200-211 -/
def LabelMap.fmt (m : LabelMap) : Str :=
  "\x7b".toList ++ fmtJoin ",".toList (m.pairs.map fmtLabelPair) ++ "\x7d".toList

/-- mirrors src/metrics/metric.h:214-224 -/
def fmtEntry (fmtValue : ℚ → Str) (e : LabelMap × MetricValue) : Str :=
  e.1.fmt ++ " ".toList ++ e.2.fmt fmtValue

/-- mirrors src/metrics/metric.cpp:49-60 -/
def Metric.prometheusTxt (fmtValue : ℚ → Str) (m : Metric hs) : Str :=
  let joiner := "\n".toList ++ m.name
  "# HELP ".toList ++ m.name ++ " ".toList ++ m.help ++ "\n".toList ++
    "# TYPE ".toList ++ m.name ++ " ".toList ++ m.type ++ "\n".toList ++
    m.name ++ fmtJoin joiner (m.valuesByLabels.entries.map (fmtEntry fmtValue))

/-! ## The registry -/

/-- `unordered_map<string, …>` -/
def nameKeys (hs : Str → UInt64) : KeyOps Str UInt64 where
  hash := hs
  eq a b := decide (a = b)
  refl _ := decide_eq_true rfl
  symm h := decide_eq_true (of_decide_eq_true h).symm
  trans h h' := decide_eq_true ((of_decide_eq_true h).trans (of_decide_eq_true h'))

@[simp] theorem nameKeys_same (a b : Str) : (nameKeys hs).same a b = decide (a = b) := by
  unfold KeyOps.same nameKeys
  by_cases h : a = b <;> simp [h]

/-- mirrors src/metrics/metrics_registry.h:37-41 -/
structure Registry (hs : Str → UInt64) where
  heap : List (Metric hs)
  metrics : HashTable (nameKeys hs) Nat

def Registry.empty : Registry hs := ⟨[], HashTable.empty⟩

/-- `_metrics[name] = g` for a new metric `g`. -/
def Registry.register (r : Registry hs) (name : Str) (g : Metric hs) : Registry hs where
  heap := r.heap ++ [g]
  metrics := r.metrics.assign name r.heap.length

/-- mirrors src/metrics/metrics_registry.cpp:12-17 -/
def Registry.createGauge (r : Registry hs) (name help : Str) (initialValue : ℚ)
    (labelDefaultValues : LabelMap) (now : Int) : Registry hs :=
  r.register name (Gauge.ctor hs name help initialValue labelDefaultValues now)

/-- mirrors src/metrics/metrics_registry.cpp:19-24 -/
def Registry.createCounter (r : Registry hs) (name help : Str) (labelDefaultValues : LabelMap) (now : Int) :
    Registry hs :=
  r.register name (Counter.ctor hs name help labelDefaultValues now)

/-- The metrics the registry exports, in its iteration order. -/
def Registry.exported (r : Registry hs) : List (Metric hs) :=
  r.metrics.entries.filterMap fun e => r.heap[e.2]?

/-- mirrors src/metrics/metrics_registry.cpp:26-45 -/
def Registry.prometheusTxt (fmtValue : ℚ → Str) (r : Registry hs) : Str :=
  fmtJoin "\n\n".toList (r.exported.map (Metric.prometheusTxt fmtValue))

/-! ## Runs -/

/-- An update through a handle. -/
inductive Update where
  | call (c : Call)
  | dec (diff : ℚ) (now : Int)
  deriving DecidableEq

def Metric.update (m : Metric hs) : Update → Metric hs
  | .call c => m.call c
  | .dec d now => Gauge.dec m d now

def Registry.update (r : Registry hs) (handle : Nat) (u : Update) : Registry hs :=
  { r with heap := r.heap.modify handle (·.update u) }

inductive Step (hs : Str → UInt64) where
  | createGauge (name help : Str) (initialValue : ℚ) (labelDefaultValues : LabelMap) (now : Int)
  | createCounter (name help : Str) (labelDefaultValues : LabelMap) (now : Int)
  | update (handle : Nat) (u : Update)

def Registry.step (r : Registry hs) : Step hs → Registry hs
  | .createGauge name help v d now => r.createGauge name help v d now
  | .createCounter name help d now => r.createCounter name help d now
  | .update handle u => r.update handle u

def Registry.run (r : Registry hs) (steps : List (Step hs)) : Registry hs := steps.foldl Registry.step r

/-- The name a step creates a metric under. -/
def Step.creates : Step hs → Option Str
  | .createGauge name _ _ _ _ => some name
  | .createCounter name _ _ _ => some name
  | .update _ _ => none

/-- The names of the metrics created, by handle. -/
def createdNames (steps : List (Step hs)) : List Str := steps.filterMap Step.creates

/-- `gauge::dec` is an `inc` of the negated diff. -/
def Update.toCall : Update → Call
  | .call c => c
  | .dec d now => .inc (-d) now

theorem update_toCall (m : Metric hs) (u : Update) : m.update u = m.call u.toCall := by cases u <;> rfl

theorem update_eq_call (m : Metric hs) (u : Update) : ∃ c, m.update u = m.call c := ⟨_, update_toCall m u⟩

@[simp] theorem update_name (m : Metric hs) (u : Update) : (m.update u).name = m.name := by
  obtain ⟨c, hc⟩ := update_eq_call m u
  rw [hc, call_name]

/-! ## Which handle a name has -/

/-- The names of the metrics, by handle. -/
def Registry.names (r : Registry hs) : List Str := r.heap.map (·.name)

/-- `j` is the last position of `name`. -/
def IsLast (names : List Str) (name : Str) (j : Nat) : Prop :=
  names[j]? = some name ∧ ∀ k, j < k → names[k]? ≠ some name

theorem isLast_append (names : List Str) (n name : Str) (j : Nat) :
    IsLast (names ++ [n]) name j ↔ if n = name then j = names.length else IsLast names name j := by
  unfold IsLast
  by_cases hn : n = name
  · subst hn
    rw [if_pos rfl]
    refine ⟨fun ⟨hj, hlast⟩ => ?_, fun hj => ?_⟩
    · have hlt : j < names.length + 1 := by
        have := (List.getElem?_eq_some_iff.mp hj).1
        simpa using this
      by_contra hne
      exact hlast names.length (by omega) (by simp)
    · subst hj
      refine ⟨by simp, fun k hk hsome => ?_⟩
      have := (List.getElem?_eq_some_iff.mp hsome).1
      simp at this
      omega
  · rw [if_neg hn]
    -- the new last element is another name
    have hget : ∀ k : Nat, (names ++ [n])[k]? = some name ↔ names[k]? = some name := by
      intro k
      rw [List.getElem?_append]
      split
      · exact Iff.rfl
      · next hk =>
        rw [List.getElem?_eq_none (by omega : names.length ≤ k)]
        cases h : k - names.length <;> simp [hn]
    simp only [hget, ne_eq]

theorem exists_isLast {names : List Str} {name : Str} (h : name ∈ names) : ∃ j, IsLast names name j := by
  induction names using List.reverseRecOn with
  | nil => cases h
  | append_singleton names n ih =>
    simp only [isLast_append]
    by_cases hn : n = name
    · exact ⟨names.length, by rw [if_pos hn]⟩
    · have hmem : name ∈ names := by simpa [Ne.symm hn] using h
      obtain ⟨j, hj⟩ := ih hmem
      exact ⟨j, by rwa [if_neg hn]⟩

/-- The registry maps each name to the last metric created under it. -/
def Registered (r : Registry hs) : Prop := ∀ name j, r.metrics.find name = some j ↔ IsLast r.names name j

theorem Registered.empty : Registered (Registry.empty : Registry hs) := by
  intro name j
  simp [Registry.empty, Registry.names, IsLast]

theorem names_update (r : Registry hs) (i : Nat) (u : Update) : (r.update i u).names = r.names := by
  unfold Registry.names Registry.update
  refine List.ext_getElem? fun k => ?_
  simp only [List.getElem?_map, List.getElem?_modify]
  cases r.heap[k]? with
  | none => rfl
  | some m => simp only [Option.map_some]; split <;> simp

theorem names_register (r : Registry hs) (name : Str) (g : Metric hs) :
    (r.register name g).names = r.names ++ [g.name] := by
  simp [Registry.register, Registry.names]

theorem Registered.register {r : Registry hs} (h : Registered r) {name : Str} {g : Metric hs}
    (hg : g.name = name) : Registered (r.register name g) := by
  intro name' j
  rw [names_register, hg, isLast_append, ← h name' j]
  simp only [Registry.register, HashTable.find_assign, nameKeys_same, decide_eq_true_eq]
  split
  · simp [Registry.names, eq_comm]
  · exact Iff.rfl

theorem Registered.step {r : Registry hs} (h : Registered r) (s : Step hs) : Registered (r.step s) := by
  cases s with
  | createGauge name help v d now => exact h.register rfl
  | createCounter name help d now => exact h.register rfl
  | update i u =>
    intro name j
    rw [Registry.step, names_update]
    exact h name j

theorem names_step (r : Registry hs) (s : Step hs) : (r.step s).names = r.names ++ s.creates.toList := by
  cases s with
  | createGauge name help v d now => exact names_register r name _
  | createCounter name help d now => exact names_register r name _
  | update i u => simp [Registry.step, names_update, Step.creates]

theorem Registered.run {r : Registry hs} (h : Registered r) (steps : List (Step hs)) :
    Registered (r.run steps) := by
  induction steps generalizing r with
  | nil => exact h
  | cons s steps ih => exact ih (h.step s)

theorem names_run (r : Registry hs) (steps : List (Step hs)) :
    (r.run steps).names = r.names ++ createdNames steps := by
  induction steps generalizing r with
  | nil => simp [Registry.run, createdNames]
  | cons s steps ih =>
    have hrun : r.run (s :: steps) = (r.step s).run steps := rfl
    rw [hrun, ih, names_step, List.append_assoc]
    cases hc : s.creates <;> simp [createdNames, hc]

/-- Each entry of the registry is a name and its last handle. -/
theorem isLast_of_mem {r : Registry hs} (h : Registered r) {e : Str × Nat} (he : e ∈ r.metrics.entries) :
    IsLast r.names e.1 e.2 :=
  (h e.1 e.2).mp ((r.metrics.find_iff e.1 e.2).mpr ⟨e, he, (nameKeys hs).same_refl e.1, rfl⟩)

theorem keys_nodup (r : Registry hs) : (r.metrics.entries.map Prod.fst).Nodup := by
  rw [List.Nodup, List.pairwise_map]
  exact r.metrics.distinct.imp fun hd he => by simp [he] at hd

/-- What is exported: the metrics at the last handles of their names. -/
theorem mem_exported {r : Registry hs} (h : Registered r) (m : Metric hs) :
    m ∈ r.exported ↔ ∃ j, r.heap[j]? = some m ∧ IsLast r.names m.name j := by
  unfold Registry.exported
  rw [List.mem_filterMap]
  refine ⟨fun ⟨e, he, hm⟩ => ?_, fun ⟨j, hm, hlast⟩ => ?_⟩
  · have hfind := (r.metrics.find_iff e.1 e.2).mpr ⟨e, he, by simp, rfl⟩
    have hlast := (h e.1 e.2).mp hfind
    have hname : m.name = e.1 := by
      have := hlast.1
      rw [Registry.names, List.getElem?_map, hm] at this
      simpa using this
    exact ⟨e.2, hm, hname ▸ hlast⟩
  · obtain ⟨e, he, -, rfl⟩ := (r.metrics.find_iff m.name j).mp ((h m.name j).mpr hlast)
    exact ⟨e, he, hm⟩

end SoapStab.Metrics
