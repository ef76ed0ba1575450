import SoapStab.Lib.Interleave
import SoapStab.Metrics.CounterRuns
import Mathlib.Algebra.BigOperators.Group.List.Basic

/-!
# Concurrent callers of a counter

The property: whatever `inc` requests any number of callers issue, and in
whatever order the mutex lets them through, the value stored for a label
map ends as it began plus the sum of the non-negative diffs requested for it.

A `Request` is what a caller asks for. The default-label form reads the clock
on its way to the lock, so the schedule of a run gives each request the time
read for it; no value depends on that.

`no_lost_updates` is about every counter a run of calls may have left behind.
It presumes that the callers spell a label map alike, as copies of one
`label_map_t` do.
-/
namespace SoapStab.Metrics

open SoapStab.Lib.Hash SoapStab.Lib.Interleave

variable {hs : Str → UInt64}

/-- A call of `inc(diff)` or of `inc(label_map, diff, timestamp)`. -/
inductive Request where
  | inc (diff : ℚ)
  | incLabels (labelMap : LabelMap) (diff : ℚ) (timestamp : Int)
  deriving DecidableEq

def Request.diff : Request → ℚ
  | .inc d => d
  | .incLabels _ d _ => d

/-- The label map a request is for; `dflt` is `_label_defaults`. -/
def Request.labels (dflt : LabelMap) : Request → LabelMap
  | .inc _ => dflt
  | .incLabels lm _ _ => lm

/-- The request as a call, at the time `now`. -/
def Request.call (now : Int) : Request → Call
  | .inc d => .inc d now
  | .incLabels lm d ts => .incLabels lm d ts

/-- The requests of a schedule, applied one by one. -/
def Metric.serve (m : Metric hs) (schedule : List (Request × Int)) : Metric hs :=
  m.run (schedule.map fun r => r.1.call r.2)

/-- The non-negative diffs requested for `L`. -/
def requested (D L : LabelMap) (rs : List Request) : List ℚ :=
  rs.filterMap fun r => if (r.labels D).eqv L ∧ 0 ≤ r.diff then some r.diff else none

/-- Requests for label maps equal to `L` spell it as `L` does, or at least in
an order that hashes alike. -/
def SpelledAlike (hs : Str → UInt64) (D L : LabelMap) (rs : List Request) : Prop :=
  (D.eqv L = true → labelValuesMapTHash hs D = labelValuesMapTHash hs L) ∧
  ∀ r ∈ rs, (r.labels D).eqv L = true → labelValuesMapTHash hs (r.labels D) = labelValuesMapTHash hs L

/-! ## Requests as calls -/

@[simp] theorem target_call (D : LabelMap) (r : Request) (now : Int) : (r.call now).target D = r.labels D := by
  cases r <;> rfl

theorem effect_call (r : Request) (now : Int) :
    (r.call now).effect .counter = if 0 ≤ r.diff then some (.add r.diff) else none := by
  have key : ∀ d : ℚ, (if accepts .counter d then some (Effect.add d) else none) =
      if 0 ≤ d then some (.add d) else none := fun d => if_congr decide_eq_true_iff rfl rfl
  cases r with
  | inc d => exact key d
  | incLabels lm d ts => exact key d

/-- The effects of a schedule on `L` are the diffs requested for `L`. -/
theorem effects_schedule (D L : LabelMap) (schedule : List (Request × Int)) :
    effects .counter D L (schedule.map fun r => r.1.call r.2) =
      (requested D L (schedule.map Prod.fst)).map .add := by
  induction schedule with
  | nil => rfl
  | cons r rs ih =>
    simp only [effects, requested, List.map_cons, List.filterMap_cons, target_call, effect_call] at ih ⊢
    by_cases he : (r.1.labels D).eqv L = true
    · by_cases hd : 0 ≤ r.1.diff
      · simp [he, hd, ih]
      · simp [he, hd, ih]
    · simp [he, ih]

/-- A rejected request leaves the whole counter as it is. -/
theorem serve_negative {m : Metric hs} (hc : m.cls = .counter) {r : Request} (hd : r.diff < 0) (now : Int) :
    m.serve [(r, now)] = m := by
  have hr : (r.call now).effect m.cls = none := by rw [hc, effect_call, if_neg (not_le.mpr hd)]
  show m.call (r.call now) = m
  rw [call_eq, hr]

/-! ## What a schedule adds up to -/

theorem foldl_adds (o : Option ℚ) (ds : List ℚ) (h : o.isSome = true ∨ ds ≠ []) :
    (ds.map Effect.add).foldl (fun o e => some (e.apply o)) o = some (o.getD 0 + ds.sum) := by
  cases o with
  | some v => rw [foldl_present, accounted_adds]; rfl
  | none =>
    have hne : ds.map Effect.add ≠ [] := by simpa using h
    rw [foldl_absent _ hne, accounted_adds]
    rfl

/-- **Sums.** Where `L` has an entry or some request for it is accepted, a
schedule adds to the value of `L` the non-negative diffs requested for `L`. -/
theorem stored_serve {m : Metric hs} (hc : m.cls = .counter) (L : LabelMap) (schedule : List (Request × Int))
    (ha : SpelledAlike hs m.labelDefaults L (schedule.map Prod.fst))
    (h : (stored m L).isSome = true ∨ requested m.labelDefaults L (schedule.map Prod.fst) ≠ []) :
    stored (m.serve schedule) L =
      some ((stored m L).getD 0 + (requested m.labelDefaults L (schedule.map Prod.fst)).sum) := by
  have hcalls : ∀ c ∈ schedule.map fun r => r.1.call r.2, (c.target m.labelDefaults).eqv L = true →
      labelValuesMapTHash hs (c.target m.labelDefaults) = labelValuesMapTHash hs L := by
    intro c hmem
    obtain ⟨r, hr, rfl⟩ := List.mem_map.mp hmem
    rw [target_call]
    exact ha.2 r.1 (List.mem_map_of_mem hr)
  unfold Metric.serve
  rw [stored_run m _ L fun c hmem _ => hcalls c hmem, hc, effects_schedule]
  exact foldl_adds _ _ h

theorem requested_perm {D L : LabelMap} {rs rs' : List Request} (h : rs.Perm rs') :
    (requested D L rs).Perm (requested D L rs') := h.filterMap _

/-! ## Counters with a history -/

/-- No call removes an entry. -/
theorem isSome_stored_run {m : Metric hs} {L : LabelMap} (h : (stored m L).isSome = true) (calls : List Call) :
    (stored (m.run calls) L).isSome = true := by
  induction calls generalizing m with
  | nil => exact h
  | cons c cs ih =>
    refine ih (m := m.call c) ?_
    rw [stored_call]
    split
    · split
      · exact h
      · rfl
    · exact h

/-- The value of `L` after the callers' requests is the one before plus the
sum of the non-negative diffs they request for it. -/
def AddsUp (m : Metric hs) (callers : List (List Request)) (L : LabelMap) : Prop :=
  ∀ schedule : List (Request × Int), Interleaving callers (schedule.map Prod.fst) →
    stored (m.serve schedule) L =
      some ((stored m L).getD 0 + (requested m.labelDefaults L callers.flatten).sum)

theorem addsUp_of_present {m : Metric hs} (hc : m.cls = .counter) (callers : List (List Request)) (L : LabelMap)
    (ha : SpelledAlike hs m.labelDefaults L callers.flatten)
    (h : (stored m L).isSome = true ∨ requested m.labelDefaults L callers.flatten ≠ []) :
    AddsUp m callers L := by
  intro schedule hi
  have hreq := requested_perm (D := m.labelDefaults) (L := L) hi.perm
  rw [← hreq.sum_eq]
  refine stored_serve hc L schedule ⟨ha.1, fun r hr => ha.2 r (hi.perm.mem_iff.mp hr)⟩ ?_
  rcases h with hstored | hne
  · exact .inl hstored
  · exact .inr fun hnil => hne (List.nil_perm.mp (hnil ▸ hreq))

/-- **No lost updates.** Take a counter after any calls, and any callers. The
value stored for a label map that is the default one or received an accepted
request is, after every interleaving of the callers' requests, the value
before plus the sum of all non-negative diffs requested for it; a request
with a negative diff changes nothing. -/
theorem no_lost_updates (hs : Str → UInt64) (name help : Str) (D : LabelMap) (now : Int)
    (earlier : List Call) (callers : List (List Request)) (L : LabelMap)
    (ha : SpelledAlike hs D L callers.flatten)
    (hL : D.eqv L = true ∨ ∃ r ∈ callers.flatten, (r.labels D).eqv L = true ∧ 0 ≤ r.diff) :
    AddsUp ((Counter.ctor hs name help D now).run earlier) callers L ∧
      ∀ (m : Metric hs) (r : Request) (now : Int), m.cls = .counter → r.diff < 0 → m.serve [(r, now)] = m := by
  have hcls : ((Counter.ctor hs name help D now).run earlier).cls = .counter := run_cls _ earlier
  have hD : ((Counter.ctor hs name help D now).run earlier).labelDefaults = D := run_labelDefaults _ earlier
  refine ⟨addsUp_of_present hcls callers L (by rwa [hD]) ?_, fun m r now hc hd => serve_negative hc hd now⟩
  rcases hL with he | ⟨r, hr, he, hd⟩
  · refine .inl (isSome_stored_run ?_ earlier)
    unfold Counter.ctor
    rw [stored_ctor _ _ _ _ _ _ _ _ ha.1, he]
    rfl
  · rw [hD]
    have hmem : r.diff ∈ requested D L callers.flatten :=
      List.mem_filterMap.mpr ⟨r, hr, by simp [he, hd]⟩
    exact .inr (List.ne_nil_of_mem hmem)

/-- Two callers: one adds 1 and asks for a decrement, the other adds 2 to a
label map not seen before, spelled as the request before it. -/
theorem no_lost_updates_two :
    AddsUp ((Counter.ctor lengthHash "c".toList [] noLabels 0).run [.set 5 1])
      [[.inc 1, .incLabels onlyCode (-3) 2], [.incLabels onlyCode 2 3]] onlyCode :=
  (no_lost_updates lengthHash "c".toList [] noLabels 0 [.set 5 1]
    [[.inc 1, .incLabels onlyCode (-3) 2], [.incLabels onlyCode 2 3]] onlyCode
    (by unfold SpelledAlike; decide) (.inr ⟨.incLabels onlyCode 2 3, by decide, by decide, by decide +kernel⟩)).1

end SoapStab.Metrics
