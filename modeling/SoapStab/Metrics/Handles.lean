import SoapStab.Metrics.Exposition
import SoapStab.Metrics.Identity

/-!
# What the text shows of a handle

The property: whatever was done through the handles that `create_gauge` and
`create_counter` returned, the next `prometheus_txt` of the registry has one
sample under a handle's name and label map, and it carries the handle's value
(`Reflected`).

Two things come in between. A later create under the same name takes the
handle's place in `_metrics`, and its metric is exported no more
(`LastOfName` excludes it). And two label maps that are equal but hash
differently have an entry each (see `Identity`), so there are two samples and
one of them may be stale (`OneSpelling` excludes it).

* `metric_run`: after any run, the metric of a handle is what its constructor
  made and the calls through the handle made of it.
* `samplesOf_registry`, `series_iff`: the samples under a name are those of
  the metric exported for it, and show its values exactly if no two of its
  entries have equal label maps.
* `reflected_iff`: the text shows the handle's values, now and whichever of
  its series is set next, if and only if both are excluded.
-/
namespace SoapStab.Metrics

open SoapStab.Lib.Hash SoapStab.Lib.Lists SoapStab.Lib.PromText

variable {hs : Str → UInt64}

/-! ## The samples of the text -/

/-- The value of a sample under `name` and `L`, in any order of the labels. -/
def sampleValue (name : Str) (L : LabelMap) : Line → Option Str
  | .sample n labels value _ => if n = name ∧ labels.Perm L.pairs then some value else none
  | _ => none

def samplesOf (name : Str) (L : LabelMap) (ls : List Line) : List Str := ls.filterMap (sampleValue name L)

/-- The text is the lines of the exported metrics, and for each label map that
has a value through handle `i` there is one sample under it and the handle's
name, with this value. -/
def Reflected (fmtValue : ℚ → Str) (r : Registry hs) (i : Nat) : Prop :=
  r.prometheusTxt fmtValue = document Line.raw (r.exported.map (Metric.lines fmtValue)) ∧
    ∀ m, r.heap[i]? = some m → ∀ L v, m.valueLabels L = some v →
      samplesOf m.name L (r.lines fmtValue) = [fmtValue v]

/-! ## The metric of a handle -/

/-- What a create makes. -/
def Step.makes : Step hs → Option (Metric hs)
  | .createGauge name help v d now => some (Gauge.ctor hs name help v d now)
  | .createCounter name help d now => some (Counter.ctor hs name help d now)
  | .update _ _ => none

/-- The metrics created, by handle, as they were made. -/
def created (steps : List (Step hs)) : List (Metric hs) := steps.filterMap Step.makes

/-- The calls through handle `i`, where `n` handles are out already; one that
is not out yet reaches nothing. -/
def callsThrough (i : Nat) : Nat → List (Step hs) → List Call
  | _, [] => []
  | n, .update j u :: steps =>
    if j = i ∧ i < n then u.toCall :: callsThrough i n steps else callsThrough i n steps
  | n, .createGauge _ _ _ _ _ :: steps => callsThrough i (n + 1) steps
  | n, .createCounter _ _ _ _ :: steps => callsThrough i (n + 1) steps

/-- No later create used the handle's name. -/
def LastOfName (steps : List (Step hs)) (i : Nat) : Prop :=
  ∀ name ∈ (createdNames steps)[i]?, name ∉ (createdNames steps).drop (i + 1)

instance (steps : List (Step hs)) (i : Nat) : Decidable (LastOfName steps i) :=
  inferInstanceAs (Decidable (∀ name ∈ (createdNames steps)[i]?, name ∉ (createdNames steps).drop (i + 1)))

/-- The label maps of the series of `m` after `calls`: the default one and
those of the accepted calls. -/
def spellings (m : Metric hs) (calls : List Call) : List LabelMap :=
  m.labelDefaults :: calls.filterMap fun c => (c.effect m.cls).map fun _ => c.target m.labelDefaults

/-- The label maps that reached the handle hash alike where they are equal. -/
def OneSpelling (steps : List (Step hs)) (i : Nat) : Prop :=
  ∀ m ∈ (created steps)[i]?, ∀ a ∈ spellings m (callsThrough i 0 steps),
    ∀ b ∈ spellings m (callsThrough i 0 steps),
      a.eqv b = true → labelValuesMapTHash hs a = labelValuesMapTHash hs b

instance (steps : List (Step hs)) (i : Nat) : Decidable (OneSpelling steps i) :=
  inferInstanceAs (Decidable (∀ m ∈ (created steps)[i]?, ∀ a ∈ spellings m (callsThrough i 0 steps),
    ∀ b ∈ spellings m (callsThrough i 0 steps),
      a.eqv b = true → labelValuesMapTHash hs a = labelValuesMapTHash hs b))

/-- One order of the labels is enough, and so are pair hashes that agree. -/
theorem oneSpelling_of_agree {steps : List (Step hs)} {i : Nat}
    (h : ∀ m ∈ (created steps)[i]?, ∀ a ∈ spellings m (callsThrough i 0 steps), PairHashesAgree hs a) :
    OneSpelling steps i := by
  intro m hm a ha b _ hab
  exact ((hash_order_iff hs a).mpr (h m hm a ha) b (LabelMap.eqv_symm hab)).symm

/-- **The metric of a handle** is what its constructor made and the calls
through the handle made of it. -/
theorem metric_run (r : Registry hs) (steps : List (Step hs)) (i : Nat) :
    (r.run steps).heap[i]? =
      (r.heap ++ created steps)[i]?.map (·.run (callsThrough i r.heap.length steps)) := by
  induction steps generalizing r with
  | nil => simp [Registry.run, created, callsThrough, Metric.run]
  | cons s steps ih =>
    have hrun : r.run (s :: steps) = (r.step s).run steps := rfl
    rw [hrun, ih]
    cases s with
    | createGauge name help v d now =>
      simp [Registry.step, Registry.createGauge, Registry.register, created, Step.makes, callsThrough]
    | createCounter name help d now =>
      simp [Registry.step, Registry.createCounter, Registry.register, created, Step.makes, callsThrough]
    | update j u =>
      simp only [Registry.step, Registry.update, List.length_modify, created, List.filterMap_cons, Step.makes,
        callsThrough]
      by_cases hi : i < r.heap.length
      · rw [List.getElem?_append_left (by simpa using hi), List.getElem?_append_left hi, List.getElem?_modify]
        by_cases hj : j = i
        · simp [hj, hi, update_toCall, Metric.run]
        · simp [hj]
      · have hle : r.heap.length ≤ i := Nat.le_of_not_lt hi
        rw [List.getElem?_append_right (by simpa using hle), List.getElem?_append_right hle]
        simp [hi]

/-! ## The series of a metric -/

/-- The label maps of the accepted calls, and no others, are keys of the
table, up to their spelling. -/
def SpelledBy (m : Metric hs) (S : List LabelMap) : Prop :=
  (∀ e ∈ m.valuesByLabels.entries, e.1 ∈ S) ∧ ∀ l ∈ S, (m.valuesByLabels.find l).isSome = true

theorem SpelledBy.call {m : Metric hs} {S : List LabelMap} (h : SpelledBy m S) (c : Call) :
    SpelledBy (m.call c) (S ++ ((c.effect m.cls).map fun _ => c.target m.labelDefaults).toList) := by
  rw [call_eq]
  cases c.effect m.cls with
  | none => simpa using h
  | some e =>
    refine ⟨HashTable.keys_assign (by simp) fun e he => by simp [h.1 e he], fun l hl => ?_⟩
    simp only [Metric.assign, HashTable.find_assign]
    split
    · rfl
    · next hsame =>
      rcases List.mem_append.mp hl with hl | hl
      · exact h.2 l hl
      · have hl : l = c.target m.labelDefaults := by simpa using hl
        exact absurd (by rw [hl]; exact KeyOps.same_refl _ _) hsame

theorem SpelledBy.run {m : Metric hs} {S : List LabelMap} (h : SpelledBy m S) (calls : List Call) :
    SpelledBy (m.run calls)
      (S ++ calls.filterMap fun c => (c.effect m.cls).map fun _ => c.target m.labelDefaults) := by
  induction calls generalizing m S with
  | nil => simpa [Metric.run] using h
  | cons c cs ih =>
    have hrest := ih (h.call c)
    simp only [call_cls, call_labelDefaults, List.append_assoc] at hrest
    have hcons : ((c.effect m.cls).map fun _ => c.target m.labelDefaults).toList ++
          cs.filterMap (fun c => (c.effect m.cls).map fun _ => c.target m.labelDefaults) =
        (c :: cs).filterMap fun c => (c.effect m.cls).map fun _ => c.target m.labelDefaults := by
      cases hc : c.effect m.cls <;> simp [hc]
    rwa [hcons] at hrest

theorem spelledBy_makes {s : Step hs} {m : Metric hs} (h : s.makes = some m) :
    SpelledBy m [m.labelDefaults] := by
  have hctor : ∀ (cls : MetricClass) (name type help : Str) (v : ℚ) (D : LabelMap) (now : Int),
      SpelledBy (Metric.ctor hs cls name type help v D now) [D] := by
    intro cls name type help v D now
    refine ⟨HashTable.keys_assign (by simp) (fun e he => by cases he), fun l hl => ?_⟩
    rw [List.mem_singleton.mp hl]
    simp [Metric.ctor]
  cases s with
  | createGauge name help v d now => exact Option.some.inj h ▸ hctor _ _ _ _ _ _ _
  | createCounter name help d now => exact Option.some.inj h ▸ hctor _ _ _ _ _ _ _
  | update j u => cases h

/-- The values of the series of `m` that are equal to `L`. -/
def series (fmtValue : ℚ → Str) (m : Metric hs) (L : LabelMap) : List Str :=
  m.valuesByLabels.entries.filterMap fun e => if e.1.eqv L then some (fmtValue e.2.value) else none

/-- A metric shows its values exactly if it has no label map twice. -/
theorem series_iff (fmtValue : ℚ → Str) {m : Metric hs} (h : m.initialValue = none) :
    (∀ L v, m.valueLabels L = some v → series fmtValue m L = [fmtValue v]) ↔
      m.valuesByLabels.entries.Pairwise fun a b => a.1.eqv b.1 = false := by
  have hvalue : ∀ e ∈ m.valuesByLabels.entries, m.valueLabels e.1 = some e.2.value := by
    intro e he
    have hfind : m.valuesByLabels.find e.1 = some e.2 :=
      (HashTable.find_iff _ _ _).mpr ⟨e, he, KeyOps.same_refl _ _, rfl⟩
    simp [Metric.valueLabels, hfind]
  constructor
  · intro hone
    refine List.pairwise_iff_forall_sublist.mpr fun {a b} hsub => ?_
    have hb : b ∈ m.valuesByLabels.entries := hsub.subset (by simp)
    have hlen : (series fmtValue m b.1).length ≤ 1 := by rw [hone b.1 _ (hvalue b hb)]; rfl
    have halone := alone_of_filterMap hlen hsub
    cases hab : a.1.eqv b.1 with
    | false => rfl
    | true => simp [hab, LabelMap.eqv_refl] at halone
  · intro hd L v hv
    obtain ⟨x, hx, rfl⟩ : ∃ x, m.valuesByLabels.find L = some x ∧ x.value = v := by
      unfold Metric.valueLabels at hv
      cases hx : m.valuesByLabels.find L with
      | none => rw [hx, h] at hv; cases hv
      | some x => rw [hx] at hv; exact ⟨x, rfl, Option.some.inj hv⟩
    obtain ⟨e, he, hsame, rfl⟩ := (HashTable.find_iff _ _ _).mp hx
    have heqv : e.1.eqv L = true := ((KeyOps.same_iff _ _ _).mp hsame).2
    refine filterMap_of_alone (p := fun e => e.1.eqv L = true)
      (f := fun e => if e.1.eqv L then some (fmtValue e.2.value) else none) (hd.imp fun hab hboth => ?_) he heqv
      (fun b hb => if_neg hb) (if_pos heqv)
    rw [LabelMap.eqv_trans hboth.1 (LabelMap.eqv_symm hboth.2)] at hab
    cases hab

/-! ## The samples under a name -/

theorem samplesOf_lines (fmtValue : ℚ → Str) (m : Metric hs) (name : Str) (L : LabelMap) :
    samplesOf name L (m.lines fmtValue) = if m.name = name then series fmtValue m L else [] := by
  unfold samplesOf Metric.lines series
  simp only [List.filterMap_cons, sampleValue, List.filterMap_map, Function.comp_def, ← LabelMap.eqv_iff_perm]
  by_cases hn : m.name = name <;> simp [hn]

theorem exported_alone {r : Registry hs} (h : Registered r) (name : Str) :
    r.exported.Pairwise fun a b => ¬ (a.name = name ∧ b.name = name) := by
  have hname : ∀ e ∈ r.metrics.entries, ∀ m, r.heap[e.2]? = some m → m.name = e.1 := by
    intro e he m hm
    have hlast := (isLast_of_mem h he).1
    rw [Registry.names, List.getElem?_map, hm] at hlast
    exact Option.some.inj hlast
  refine List.pairwise_filterMap.mpr (r.metrics.distinct.imp_of_mem fun {e e'} he he' hd m hm m' hm' hboth => ?_)
  rw [hname e he m hm, hname e' he' m' hm'] at hboth
  simp [hboth.1, hboth.2] at hd

/-- The samples under a name are those of the metric exported for it. -/
theorem samplesOf_registry (fmtValue : ℚ → Str) {r : Registry hs} (h : Registered r) {m : Metric hs}
    (hm : m ∈ r.exported) (L : LabelMap) :
    samplesOf m.name L (r.lines fmtValue) = series fmtValue m L := by
  have hmap : samplesOf m.name L (r.lines fmtValue) =
      r.exported.flatMap fun e => samplesOf m.name L (e.lines fmtValue) := List.filterMap_flatMap ..
  rw [hmap, flatMap_of_alone (p := fun e => e.name = m.name) (exported_alone h m.name) hm rfl, samplesOf_lines,
    if_pos rfl]
  intro e he
  rw [samplesOf_lines, if_neg he]

/-- The text shows the values of a metric that is the last of its name exactly
if the metric has no label map twice. -/
theorem reflected_iff_distinct (fmtValue : ℚ → Str) {r : Registry hs} (h : Registered r)
    (hsound : ∀ m ∈ r.heap, m.Sound) {i : Nat} {m : Metric hs} (hm : r.heap[i]? = some m)
    (hlast : IsLast r.names m.name i) (hinit : m.initialValue = none) :
    Reflected fmtValue r i ↔ m.valuesByLabels.entries.Pairwise fun a b => a.1.eqv b.1 = false := by
  have hmem := (mem_exported h m).mpr ⟨i, hm, hlast⟩
  rw [← series_iff fmtValue hinit]
  simp only [← samplesOf_registry fmtValue h hmem]
  refine ⟨fun hr => hr.2 m hm, fun hone => ⟨?_, fun m' hm' => ?_⟩⟩
  · exact prometheusTxt_eq_document fmtValue fun e he => hsound e (exported_subset r e he)
  · rw [hm] at hm'
    exact Option.some.inj hm' ▸ hone

/-! ## Whole runs -/

/-- The label maps of the handle's series. -/
def Registry.labelMaps (r : Registry hs) (i : Nat) : List LabelMap :=
  (r.heap[i]?).elim [] fun m => m.valuesByLabels.keys

section
variable (steps : List (Step hs)) (i : Nat)

theorem heap_run : (Registry.empty.run steps).heap[i]? =
    (created steps)[i]?.map (·.run (callsThrough i 0 steps)) := metric_run Registry.empty steps i

theorem names_run_empty : (Registry.empty.run steps : Registry hs).names = createdNames steps := by
  rw [names_run]
  rfl

theorem reachable_run : Reachable (Registry.empty.run steps) := by
  have hrun : ∀ r : Registry hs, Reachable r → Reachable (r.run steps) := by
    induction steps with
    | nil => exact fun r h => h
    | cons s steps ih => exact fun r h => ih (r.step s) (h.step s)
  exact hrun _ .empty

theorem run_concat (s : Step hs) :
    Registry.empty.run (steps ++ [s]) = (Registry.empty.run steps).step s := by
  simp [Registry.run, List.foldl_append]

end

section
variable {steps : List (Step hs)} {i : Nat} {m : Metric hs}

theorem initialValue_run (hm : (Registry.empty.run steps).heap[i]? = some m) : m.initialValue = none := by
  rw [heap_run, Option.map_eq_some_iff] at hm
  obtain ⟨m₀, h₀, rfl⟩ := hm
  obtain ⟨s, -, hs'⟩ := List.mem_filterMap.mp (List.mem_of_getElem? h₀)
  rw [run_initialValue]
  cases s with
  | createGauge name help v d now => exact Option.some.inj hs' ▸ rfl
  | createCounter name help d now => exact Option.some.inj hs' ▸ rfl
  | update j u => cases hs'

/-- No label map has two entries exactly if each is spelled in one way. -/
theorem distinct_iff_oneSpelling (hm : (Registry.empty.run steps).heap[i]? = some m) :
    (m.valuesByLabels.entries.Pairwise fun a b => a.1.eqv b.1 = false) ↔ OneSpelling steps i := by
  rw [heap_run, Option.map_eq_some_iff] at hm
  obtain ⟨m₀, h₀, rfl⟩ := hm
  obtain ⟨s, -, hs'⟩ := List.mem_filterMap.mp (List.mem_of_getElem? h₀)
  have hspelled := (spelledBy_makes hs').run (callsThrough i 0 steps)
  have hiff := HashTable.distinct_iff_coherent (P := (· ∈ spellings m₀ (callsThrough i 0 steps)))
    hspelled.1 hspelled.2
  refine hiff.trans ⟨fun hc m hm a ha b hb => ?_, fun hone a b ha hb => hone m₀ h₀ a ha b hb⟩
  obtain rfl : m₀ = m := Option.some.inj (h₀.symm.trans hm)
  exact hc a b ha hb

theorem isLast_of_lastOfName (hm : (Registry.empty.run steps).heap[i]? = some m) (h : LastOfName steps i) :
    IsLast (Registry.empty.run steps).names m.name i := by
  have hi : (Registry.empty.run steps).names[i]? = some m.name := by simp [Registry.names, hm]
  refine ⟨hi, fun k hk hsome => h m.name (by rwa [names_run_empty] at hi) ?_⟩
  rw [names_run_empty] at hsome
  refine List.mem_iff_getElem?.mpr ⟨k - (i + 1), ?_⟩
  rw [List.getElem?_drop, Nat.add_sub_cancel' hk]
  exact hsome

/-- As long as no later create used its name, the text shows what the handle
holds exactly if each label map is spelled in one way. -/
theorem reflected_iff_of_last (fmtValue : ℚ → Str) (h : LastOfName steps i) :
    Reflected fmtValue (Registry.empty.run steps) i ↔ OneSpelling steps i := by
  have hreg : Registered (Registry.empty.run steps : Registry hs) := Registered.empty.run steps
  have hsound := (reachable_run steps).sound
  cases hm : (Registry.empty.run steps).heap[i]? with
  | some m =>
    rw [← distinct_iff_oneSpelling hm]
    exact reflected_iff_distinct fmtValue hreg hsound hm (isLast_of_lastOfName hm h) (initialValue_run hm)
  | none =>
    have hnone : (created steps)[i]? = none := by simpa [heap_run] using hm
    refine iff_of_true ⟨?_, fun m hm' => ?_⟩ fun m hm' => ?_
    · exact prometheusTxt_eq_document fmtValue fun e he => hsound e (exported_subset _ e he)
    · rw [hm] at hm'; cases hm'
    · rw [hnone] at hm'; cases hm'

/-- A set of a series the handle has inserts nothing. -/
theorem distinct_setLabels {L : LabelMap} (hL : L ∈ m.valuesByLabels.keys) (v : ℚ) (now : Int) :
    ((m.setLabels L v now).valuesByLabels.entries.Pairwise fun a b => a.1.eqv b.1 = false) ↔
      m.valuesByLabels.entries.Pairwise fun a b => a.1.eqv b.1 = false := by
  have hfind : (m.valuesByLabels.find L).isSome = true := by
    obtain ⟨e, he, rfl⟩ := List.mem_map.mp hL
    rw [(HashTable.find_iff _ e.1 e.2).mpr ⟨e, he, KeyOps.same_refl _ _, rfl⟩]
    rfl
  have hkeys : (m.setLabels L v now).valuesByLabels.keys = m.valuesByLabels.keys :=
    HashTable.keys_assign_of_find hfind _
  have hpairs : ∀ t : HashTable (labelKeys hs) MetricValue,
      (t.entries.Pairwise fun a b => a.1.eqv b.1 = false) ↔ t.keys.Pairwise fun a b => a.eqv b = false :=
    fun t => by rw [HashTable.keys, List.pairwise_map]
  rw [hpairs, hpairs, hkeys]

/-- Where a later create used the handle's name, some `set` through the handle
does not show. -/
theorem stale_of_not_last {fmtValue : ℚ → Str} (hfmt : ∃ x y, fmtValue x ≠ fmtValue y)
    (h : ¬ LastOfName steps i) : ∃ L ∈ (Registry.empty.run steps).labelMaps i, ∃ v,
      ¬ Reflected fmtValue (Registry.empty.run (steps ++ [.update i (.call (.setLabels L v 0))])) i := by
  have hreg : Registered (Registry.empty.run steps : Registry hs) := Registered.empty.run steps
  obtain ⟨name, hi, hmem⟩ : ∃ name, (createdNames steps)[i]? = some name ∧
      name ∈ (createdNames steps).drop (i + 1) := by
    simpa [LastOfName] using h
  obtain ⟨k, hk⟩ := List.mem_iff_getElem?.mp hmem
  rw [List.getElem?_drop] at hk
  rw [← names_run_empty] at hi hk
  obtain ⟨m, hm, rfl⟩ := Option.map_eq_some_iff.mp ((List.getElem?_map ..).symm.trans hi)
  -- the metric that is exported under the name instead
  obtain ⟨j, hlast⟩ := exists_isLast (List.mem_of_getElem? hi)
  have hij : i ≠ j := fun he => hlast.2 (i + 1 + k) (by omega) hk
  obtain ⟨e, he, hname⟩ := Option.map_eq_some_iff.mp ((List.getElem?_map ..).symm.trans hlast.1)
  obtain ⟨a, ha⟩ := List.exists_mem_of_ne_nil _ ((reachable_run steps).sound m (List.mem_of_getElem? hm)).entries
  refine ⟨a.1, ?_, ?_⟩
  · rw [Registry.labelMaps, hm]
    exact List.mem_map_of_mem ha
  · by_contra hall
    have hall : ∀ v, Reflected fmtValue
        (Registry.empty.run (steps ++ [.update i (.call (.setLabels a.1 v 0))])) i := by simpa using hall
    have hshown : ∀ v, series fmtValue e a.1 = [fmtValue v] := by
      intro v
      have hr := hall v
      rw [run_concat] at hr
      have hreg' := hreg.step (.update i (.call (.setLabels a.1 v 0)))
      have hm' : ((Registry.empty.run steps).step (.update i (.call (.setLabels a.1 v 0)))).heap[i]? =
          some (m.setLabels a.1 v 0) := by
        simp [Registry.step, Registry.update, hm, Metric.update, Metric.call]
      have he' : ((Registry.empty.run steps).step (.update i (.call (.setLabels a.1 v 0)))).heap[j]? =
          some e := by
        simp [Registry.step, Registry.update, he, hij]
      have hmem' := (mem_exported hreg' e).mpr
        ⟨j, he', by rw [Registry.step, names_update, hname]; exact hlast⟩
      have hone := hr.2 _ hm' a.1 v (by simp [Metric.valueLabels, Metric.setLabels, Metric.assign])
      rw [← samplesOf_registry fmtValue hreg' hmem' a.1, hname]
      exact hone
    obtain ⟨x, y, hxy⟩ := hfmt
    exact hxy (List.singleton_inj.mp ((hshown x).symm.trans (hshown y)))

end

/-- **No handle is lost** to the text: it shows the handle's values, now and
whichever of its series is set next, if and only if no later create used the
handle's name and each of its label maps came in orders that hash alike. -/
theorem reflected_iff {fmtValue : ℚ → Str} (hfmt : ∃ x y, fmtValue x ≠ fmtValue y) (steps : List (Step hs))
    (i : Nat) :
    (Reflected fmtValue (Registry.empty.run steps) i ∧
      ∀ L ∈ (Registry.empty.run steps).labelMaps i, ∀ v now,
        Reflected fmtValue (Registry.empty.run (steps ++ [.update i (.call (.setLabels L v now))])) i) ↔
      LastOfName steps i ∧ OneSpelling steps i := by
  constructor
  · intro h
    have hlast : LastOfName steps i := by
      by_contra hn
      obtain ⟨L, hL, v, hv⟩ := stale_of_not_last hfmt hn
      exact hv (h.2 L hL v 0)
    exact ⟨hlast, (reflected_iff_of_last fmtValue hlast).mp h.1⟩
  · intro h
    have hnow := (reflected_iff_of_last fmtValue h.1).mpr h.2
    refine ⟨hnow, fun L hL v now => ?_⟩
    have hnames : createdNames (steps ++ [.update i (.call (.setLabels L v now))]) = createdNames steps := by
      simp [createdNames, Step.creates]
    have hlast : LastOfName (steps ++ [.update i (.call (.setLabels L v now))]) i := by
      rw [LastOfName, hnames]
      exact h.1
    cases hm : (Registry.empty.run steps).heap[i]? with
    | none => rw [Registry.labelMaps, hm] at hL; cases hL
    | some m =>
      rw [Registry.labelMaps, hm] at hL
      have hm' : (Registry.empty.run (steps ++ [.update i (.call (.setLabels L v now))])).heap[i]? =
          some (m.setLabels L v now) := by
        rw [run_concat]
        simp [Registry.step, Registry.update, hm, Metric.update, Metric.call]
      rw [reflected_iff_of_last fmtValue hlast, ← distinct_iff_oneSpelling hm', distinct_setLabels hL,
        distinct_iff_oneSpelling hm]
      exact h.2

/-- A gauge with two labels, raised twice, and a counter. -/
def shownRun : List (Step lengthHash) :=
  [.createGauge "a".toList [] 1 postThenCode 0, .update 0 (.call (.incLabels postThenCode 2 5)),
    .createCounter "b".toList [] noLabels 6, .update 0 (.dec (-4) 7)]

/-- The text shows the gauge's 7. -/
theorem reflected_iff_shown : Reflected fmtRat (Registry.empty.run shownRun) 0 ∧
    samplesOf "a".toList codeThenPost ((Registry.empty.run shownRun).lines fmtRat) = ["7".toList] :=
  ⟨((reflected_iff ⟨0, 1, by decide +kernel⟩ shownRun 0).mpr ⟨by decide +kernel, by decide +kernel⟩).1,
    by decide +kernel⟩

/-! ## One name used twice, one label map in two orders -/

/-- Two gauges `a`, each starting at 1; the first one is set to 5. -/
def twoGauges : List (Step lengthHash) :=
  [.createGauge "a".toList [] 1 noLabels 0, .createGauge "a".toList [] 1 noLabels 0,
    .update 0 (.call (.set 5 1))]

/-- One gauge, created with one order of its labels and set through the
other. -/
def twoOrders : List (Step lengthHash) :=
  [.createGauge "a".toList [] 1 postThenCode 0, .update 0 (.call (.setLabels codeThenPost 5 1))]

/-- The second create drops the first gauge from the text, which still says 1;
and the two orders have a sample each, 1 and 5. -/
theorem reflected_fails : ¬ Reflected fmtRat (Registry.empty.run twoGauges) 0 ∧
    ¬ Reflected fmtRat (Registry.empty.run twoOrders) 0 := by
  refine ⟨fun h => ?_, fun h => ?_⟩
  · have hone := h.2 _ rfl noLabels 5 (by decide +kernel)
    revert hone
    decide +kernel
  · have hone := h.2 _ rfl codeThenPost 5 (by decide +kernel)
    revert hone
    decide +kernel

end SoapStab.Metrics
