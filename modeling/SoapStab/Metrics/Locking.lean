import SoapStab.Lib.Monitor
import SoapStab.Metrics.Callers

/-!
# What the mutex of a metric is for

Elsewhere a call of `set`, `inc` or `value` is one step. Here it is the
single reads and writes of its body: `operator[]` may insert an entry,
`+=` reads the old value and writes the new one, the timestamp is written
after it. Any number of callers make these steps in any order the mutex
allows, and a call that a counter rejects never takes it.

`linearizable`: in every run the calls still take effect one by one, each
`value` call returning what it would return there. `adds_up_stepwise` and
`reads_never_go_down` draw the consequences for `inc` and `dec` calls and for
the readers of a counter; `calls_return` says that no caller is left waiting.
An insert by `operator[]` is one step here, which is right for those who hold
the mutex.

`prometheus_txt` of a metric takes no mutex. `unlocked_view` says what the
table may look like at the moment it is read, where every label map updated
has its entry already: the nodes stay, and one call may be under way, with its
new value under the old timestamp. An update of a label map without an entry
may rehash the table under the reader's eyes and is left out. (To read the
table then is a data race anyway, about which the language promises nothing;
the theorem is about the table.)
-/
namespace SoapStab.Metrics

open SoapStab.Lib.Hash SoapStab.Lib.Interleave SoapStab.Lib.Monitor SoapStab.Lib.Traces

variable {hs : Str → UInt64}

/-- `_values_by_labels`.
mirrors src/metrics/metric.h:56,155 -/
abbrev ValuesByLabels (hs : Str → UInt64) := HashTable (labelKeys hs) MetricValue

/-- `_values_by_labels[label_map]`: a missing entry is inserted. -/
def ValuesByLabels.subscript (t : ValuesByLabels hs) (labelMap : LabelMap) : ValuesByLabels hs :=
  match t.find labelMap with
  | some _ => t
  | none => t.assign labelMap MetricValue.zero

/-- What the reference that `operator[]` returned refers to. -/
def ValuesByLabels.entry (t : ValuesByLabels hs) (labelMap : LabelMap) : MetricValue :=
  (t.find labelMap).getD MetricValue.zero

/-- The locals of a call: what `+=` has read, whether `find` found an entry,
and `val` (`none`: not set, or indeterminate). -/
structure Locals where
  addend : ℚ
  found : Bool
  val : Option ℚ
  deriving DecidableEq

abbrev Micro (hs : Str → UInt64) := ValuesByLabels hs → Locals → ValuesByLabels hs × Locals

/-- mirrors src/metrics/metric.cpp:45 (the entry, then its two members) -/
def setSteps (labelMap : LabelMap) (value : ℚ) (timestamp : Int) : List (Micro hs) :=
  [fun t v => (t.subscript labelMap, v),
   fun t v => (t.assign labelMap { t.entry labelMap with value := value }, v),
   fun t v => (t.assign labelMap { t.entry labelMap with timestamp := timestamp }, v)]

/-- mirrors src/metrics/metric.cpp:94-96 (`+=` reads and writes) -/
def incSteps (labelMap : LabelMap) (diff : ℚ) (timestamp : Int) : List (Micro hs) :=
  [fun t v => (t.subscript labelMap, v),
   fun t v => (t, { v with addend := (t.entry labelMap).value }),
   fun t v => (t.assign labelMap { t.entry labelMap with value := v.addend + diff }, v),
   fun t v => (t.assign labelMap { t.entry labelMap with timestamp := timestamp }, v)]

/-- mirrors src/metrics/metric.cpp:67-73 -/
def valueSteps (initialValue : Option ℚ) (labelMap : LabelMap) : List (Micro hs) :=
  [fun t v => (t, { v with found := (t.find labelMap).isSome }),
   fun t v => (t, { v with val := if v.found then some (t.entry labelMap).value else initialValue })]

/-- The calls that take the mutex. -/
inductive Access where
  | update (c : Call)
  | valueLabels (labelMap : LabelMap)
  | value
  deriving DecidableEq

/-- What a call on the metric `m` does under the mutex; a counter returns
before it when the diff is negative.
mirrors src/metrics/metric.cpp:35-47,62-104, src/metrics/counter.cpp:14-34 -/
def lockedSteps (m : Metric hs) : Access → Option (List (Micro hs))
  | .update (.set v now) => some (setSteps m.labelDefaults v now)
  | .update (.setLabels lm v ts) => some (setSteps lm v ts)
  | .update (.inc d now) => if accepts m.cls d then some (incSteps m.labelDefaults d now) else none
  | .update (.incLabels lm d ts) => if accepts m.cls d then some (incSteps lm d ts) else none
  | .valueLabels lm => some (valueSteps m.initialValue lm)
  | .value => some (valueSteps m.initialValue m.labelDefaults)

/-- The metric `m` as its callers see it: the mutex is around its table. -/
def guarded (m : Metric hs) : Object (ValuesByLabels hs) Access Locals where
  locals _ := ⟨0, false, none⟩
  body := lockedSteps m

/-- Callers of `m` at work.
mirrors src/metrics/metric.h:149 -/
def shared (m : Metric hs) (callers : List (List Access)) :
    System (State (Fin callers.length) (ValuesByLabels hs) Access Locals) (Fin callers.length) :=
  (guarded m).monitor m.valuesByLabels callers.get

/-! ## A call in one go -/

/-- The metric after the call. -/
def Metric.access (m : Metric hs) : Access → Metric hs
  | .update c => m.call c
  | .valueLabels _ => m
  | .value => m

/-- What the call returns. -/
def Metric.returns (m : Metric hs) : Access → Option ℚ
  | .update _ => none
  | .valueLabels lm => m.valueLabels lm
  | .value => m.value

/-- What calls made one after the other return. -/
def Metric.answers (m : Metric hs) : List Access → List (Option ℚ)
  | [] => []
  | a :: as => m.returns a :: (m.access a).answers as

@[simp] theorem entry_assign (t : ValuesByLabels hs) (lm : LabelMap) (v : MetricValue) :
    ValuesByLabels.entry (t.assign lm v) lm = v := by
  simp [ValuesByLabels.entry]

@[simp] theorem entry_subscript (t : ValuesByLabels hs) (lm : LabelMap) :
    (t.subscript lm).entry lm = t.entry lm := by
  unfold ValuesByLabels.subscript
  cases h : t.find lm with
  | some v => rfl
  | none => simp [ValuesByLabels.entry, h]

@[simp] theorem assign_subscript (t : ValuesByLabels hs) (lm : LabelMap) (v : MetricValue) :
    HashTable.assign (t.subscript lm) lm v = t.assign lm v := by
  unfold ValuesByLabels.subscript
  cases t.find lm with
  | some _ => rfl
  | none => exact t.assign_assign lm _ v

theorem run_setSteps (t : ValuesByLabels hs) (v : Locals) (lm : LabelMap) (x : ℚ) (ts : Int) :
    runSteps (setSteps lm x ts) (t, v) = (t.assign lm ⟨x, ts⟩, v) := by
  simp [runSteps, setSteps]

theorem run_incSteps (t : ValuesByLabels hs) (v : Locals) (lm : LabelMap) (d : ℚ) (ts : Int) :
    runSteps (incSteps lm d ts) (t, v) =
      (t.assign lm ⟨(t.entry lm).value + d, ts⟩, { v with addend := (t.entry lm).value }) := by
  simp [runSteps, incSteps]

theorem run_valueSteps (t : ValuesByLabels hs) (v : Locals) (init : Option ℚ) (lm : LabelMap) :
    runSteps (valueSteps init lm) (t, v) =
      (t, { v with found := (t.find lm).isSome,
                   val := match t.find lm with
                     | some x => some x.value
                     | none => init }) := by
  cases h : t.find lm <;> simp [runSteps, valueSteps, h, ValuesByLabels.entry]

/-- The steps under the mutex are the call. -/
theorem whole_eq (m : Metric hs) (a : Access) :
    ((guarded m).whole m.valuesByLabels a).1 = (m.access a).valuesByLabels ∧
      ((guarded m).whole m.valuesByLabels a).2.val = m.returns a := by
  have hinc : ∀ lm d ts, ((guarded m).whole m.valuesByLabels (.update (.incLabels lm d ts))).1 =
        (m.virtualIncLabels lm d ts).valuesByLabels ∧
      ((guarded m).whole m.valuesByLabels (.update (.incLabels lm d ts))).2.val = none := by
    intro lm d ts
    rw [virtualIncLabels_eq]
    by_cases ha : accepts m.cls d = true
    · rw [Object.whole_of_some (if_pos ha), run_incSteps, if_pos ha]
      exact ⟨rfl, rfl⟩
    · rw [Object.whole_of_none (if_neg ha), if_neg ha]
      exact ⟨rfl, rfl⟩
  have hvalue : ∀ lm, ((guarded m).whole m.valuesByLabels (.valueLabels lm)).1 = m.valuesByLabels ∧
      ((guarded m).whole m.valuesByLabels (.valueLabels lm)).2.val = m.valueLabels lm := by
    intro lm
    rw [Object.whole_of_some (show lockedSteps m (.valueLabels lm) = _ from rfl), run_valueSteps]
    exact ⟨rfl, rfl⟩
  cases a with
  | update c =>
    cases c with
    | set x now =>
      rw [Object.whole_of_some (show lockedSteps m (.update (.set x now)) = _ from rfl), run_setSteps]
      exact ⟨rfl, rfl⟩
    | setLabels lm x ts =>
      rw [Object.whole_of_some (show lockedSteps m (.update (.setLabels lm x ts)) = _ from rfl), run_setSteps]
      exact ⟨rfl, rfl⟩
    | inc d now =>
      have h := hinc m.labelDefaults d now
      rwa [← virtualInc_eq] at h
    | incLabels lm d ts => exact hinc lm d ts
  | valueLabels lm => exact hvalue lm
  | value => exact hvalue m.labelDefaults

/-- No call changes what its steps depend on. -/
theorem guarded_access (m : Metric hs) (a : Access) : guarded (m.access a) = guarded m := by
  have hcall : ∀ c, lockedSteps (m.call c) = lockedSteps m := by
    intro c
    funext b
    unfold lockedSteps
    simp only [call_labelDefaults, call_cls, call_initialValue]
  unfold guarded
  cases a with
  | update c => simp only [Metric.access, hcall]
  | valueLabels lm => rfl
  | value => rfl

/-! ## The calls of a run, one by one -/

def Metric.accesses (m : Metric hs) (as : List Access) : Metric hs := as.foldl Metric.access m

theorem after_eq (m : Metric hs) (as : List Access) :
    (guarded m).after m.valuesByLabels as = (m.accesses as).valuesByLabels := by
  induction as generalizing m with
  | nil => rfl
  | cons a as ih =>
    have h := ih (m.access a)
    rw [guarded_access, ← (whole_eq m a).1] at h
    exact h

theorem results_eq (m : Metric hs) (as : List Access) :
    ((guarded m).results m.valuesByLabels as).map (·.val) = m.answers as := by
  induction as generalizing m with
  | nil => rfl
  | cons a as ih =>
    have h := ih (m.access a)
    rw [guarded_access, ← (whole_eq m a).1] at h
    simp only [Object.results, List.map_cons, Metric.answers, h, (whole_eq m a).2]

section
variable {m : Metric hs} {callers : List (List Access)} {tr : List (Fin callers.length)}
  {s : State (Fin callers.length) (ValuesByLabels hs) Access Locals}

theorem callsOf_within (h : (shared m callers).exec tr = some s) (i : Fin callers.length) :
    s.callsOf i <+: callers.get i := by
  rw [(serial_exec h).order i, List.append_assoc]
  exact List.prefix_append _ _

theorem served_answers (h : (shared m callers).exec tr = some s) :
    s.served.map (·.locals.val) = m.answers s.calls := by
  have hres := congrArg (List.map Locals.val) (serial_exec h).results
  rwa [List.map_map, results_eq] at hres

theorem done_interleaving (h : (shared m callers).exec tr = some s) (hd : s.done) :
    Interleaving callers s.calls ∧ s.shared = (m.accesses s.calls).valuesByLabels := by
  refine ⟨served_interleaving (serial_exec h) hd, ?_⟩
  rw [shared_of_done (serial_exec h) hd, after_eq]

/-- A call that was served is one of the callers'. -/
theorem calls_subset (h : (shared m callers).exec tr = some s) : ∀ a ∈ s.calls, a ∈ callers.flatten := by
  intro a ha
  obtain ⟨r, hr, rfl⟩ := List.mem_map.mp ha
  refine List.mem_flatten.mpr ⟨_, List.get_mem callers r.caller, (callsOf_within h r.caller).subset ?_⟩
  exact List.mem_map.mpr ⟨r, List.mem_filter.mpr ⟨hr, by simp⟩, rfl⟩

end

/-- **Calls are atomic.** However the callers' reads and writes interleave,
each caller's calls return in its order, a call to `value` returns what it
would return between the calls that returned before it and those that return
later, and whenever the mutex is free the table is the one these calls leave.
Once all callers are done, the order of the calls is an interleaving of their
lists. -/
theorem linearizable (m : Metric hs) (callers : List (List Access)) {tr : List (Fin callers.length)}
    {s : State (Fin callers.length) (ValuesByLabels hs) Access Locals}
    (h : (shared m callers).exec tr = some s) :
    (∀ i, s.callsOf i <+: callers.get i) ∧
    s.served.map (·.locals.val) = m.answers s.calls ∧
    (s.holder = none → s.shared = (m.accesses s.calls).valuesByLabels) ∧
    (s.done → Interleaving callers s.calls ∧ s.shared = (m.accesses s.calls).valuesByLabels) := by
  refine ⟨callsOf_within h, served_answers h, fun hf => ?_, done_interleaving h⟩
  rw [(serial_exec h).free hf, after_eq]

/-- Two callers of a counter, one step at a time: the second reads the value
while the first waits to go on with its `+=`. -/
theorem linearizable_two : ∃ s, (shared (Counter.ctor lengthHash "c".toList [] noLabels 0)
    [[.update (.inc 1 5)], [.value]]).exec [0, 0, 0, 0, 0, 0, 1, 1, 1, 1] = some s ∧
      s.served.map (·.locals.val) = [none, some 1] := by
  refine ⟨_, rfl, ?_⟩
  rw [(@linearizable lengthHash (Counter.ctor lengthHash "c".toList [] noLabels 0)
    [[.update (.inc 1 5)], [.value]] [0, 0, 0, 0, 0, 0, 1, 1, 1, 1] _ rfl).2.1]
  decide +kernel

/-! ## Increments and decrements -/

def Access.updates : Access → Option Call
  | .update c => some c
  | .valueLabels _ => none
  | .value => none

def Access.isSet : Access → Bool
  | .update (.set _ _) => true
  | .update (.setLabels _ _ _) => true
  | _ => false

/-- The diffs of the accepted `inc` calls for `L`, in order; `gauge::dec` is
an `inc` with the negated diff. -/
def diffs (cls : MetricClass) (D L : LabelMap) (as : List Access) : List ℚ :=
  (effects cls D L (as.filterMap Access.updates)).filterMap fun
    | .add d => some d
    | .set _ => none

theorem accesses_eq_run (m : Metric hs) (as : List Access) :
    m.accesses as = m.run (as.filterMap Access.updates) := by
  induction as generalizing m with
  | nil => rfl
  | cons a as ih =>
    cases a with
    | update c => exact ih (m.call c)
    | valueLabels lm => exact ih m
    | value => exact ih m

theorem effect_ne_set {cls : MetricClass} {c : Call} (h : (Access.update c).isSet = false) (v : ℚ) :
    c.effect cls ≠ some (.set v) := by
  cases c with
  | set x now => cases h
  | setLabels lm x ts => cases h
  | inc d now => simp only [Call.effect]; split <;> simp
  | incLabels lm d ts => simp only [Call.effect]; split <;> simp

/-- Without a `set`, all effects are additions. -/
theorem effects_eq_adds {cls : MetricClass} {D L : LabelMap} {as : List Access} (h : ∀ a ∈ as, a.isSet = false) :
    effects cls D L (as.filterMap Access.updates) = (diffs cls D L as).map .add := by
  have key : ∀ es : List Effect, (∀ v, .set v ∉ es) → es = (es.filterMap fun
      | .add d => some d
      | .set _ => none).map .add := by
    intro es
    induction es with
    | nil => exact fun _ => rfl
    | cons e es ih =>
      intro hes
      cases e with
      | set v => exact absurd List.mem_cons_self (hes v)
      | add d => simpa using ih fun v hv => hes v (List.mem_cons_of_mem _ hv)
  refine key _ fun v hv => ?_
  obtain ⟨c, hc, he⟩ := List.mem_filterMap.mp hv
  obtain ⟨a, ha, hac⟩ := List.mem_filterMap.mp hc
  cases a with
  | update c' =>
    obtain rfl := Option.some.inj hac
    split at he
    · exact effect_ne_set (h _ ha) v he
    · cases he
  | valueLabels lm => cases hac
  | value => cases hac

/-- The default label map and the label maps of the accepted calls, where
they are equal to `L`, hash like `L`. -/
def HashedAlike (hs : Str → UInt64) (cls : MetricClass) (D L : LabelMap) (calls : List Call) : Prop :=
  (D.eqv L = true → labelValuesMapTHash hs D = labelValuesMapTHash hs L) ∧
  ∀ c ∈ calls, (c.effect cls).isSome = true → (c.target D).eqv L = true →
    labelValuesMapTHash hs (c.target D) = labelValuesMapTHash hs L

theorem stored_accesses {m : Metric hs} {as : List Access} {L : LabelMap} (hsets : ∀ a ∈ as, a.isSet = false)
    (ha : HashedAlike hs m.cls m.labelDefaults L (as.filterMap Access.updates))
    (h : (stored m L).isSome = true ∨ diffs m.cls m.labelDefaults L as ≠ []) :
    stored (m.accesses as) L = some ((stored m L).getD 0 + (diffs m.cls m.labelDefaults L as).sum) := by
  rw [accesses_eq_run, stored_run m _ L ha.2, effects_eq_adds hsets]
  exact foldl_adds _ _ h

theorem diffs_perm {cls : MetricClass} {D L : LabelMap} {as bs : List Access} (h : as.Perm bs) :
    (diffs cls D L as).Perm (diffs cls D L bs) :=
  ((h.filterMap _).filterMap _).filterMap _

/-- **No update is lost between the steps.** Callers that only increment,
decrement and read a metric, their single reads and writes interleaved in any
way the mutex allows, leave for a label map the value before plus the diffs
of the calls the metric accepts for it. Values are exact rationals; sums of
`double`s are rounded. -/
theorem adds_up_stepwise (hs : Str → UInt64) (cls : MetricClass) (name type help : Str) (v0 : ℚ) (D : LabelMap)
    (now : Int) (earlier : List Call) (callers : List (List Access)) (L : LabelMap)
    (hsets : ∀ a ∈ callers.flatten, a.isSet = false)
    (ha : HashedAlike hs cls D L (callers.flatten.filterMap Access.updates))
    (hL : D.eqv L = true ∨ diffs cls D L callers.flatten ≠ [])
    {tr : List (Fin callers.length)} {s : State (Fin callers.length) (ValuesByLabels hs) Access Locals}
    (h : (shared ((Metric.ctor hs cls name type help v0 D now).run earlier) callers).exec tr = some s)
    (hd : s.done) :
    (s.shared.find L).map (·.value) =
      some ((stored ((Metric.ctor hs cls name type help v0 D now).run earlier) L).getD 0 +
        (diffs cls D L callers.flatten).sum) := by
  have hc : ((Metric.ctor hs cls name type help v0 D now).run earlier).cls = cls := run_cls _ earlier
  have hD : ((Metric.ctor hs cls name type help v0 D now).run earlier).labelDefaults = D :=
    run_labelDefaults _ earlier
  have hpresent : D.eqv L = true →
      (stored ((Metric.ctor hs cls name type help v0 D now).run earlier) L).isSome = true := by
    intro he
    refine isSome_stored_run ?_ earlier
    rw [stored_ctor _ _ _ _ _ _ _ _ ha.1, he]
    rfl
  generalize (Metric.ctor hs cls name type help v0 D now).run earlier = m at h hc hD hpresent ⊢
  subst hc hD
  obtain ⟨hinter, htable⟩ := done_interleaving h hd
  have hdiffs : (diffs m.cls m.labelDefaults L s.calls).Perm (diffs m.cls m.labelDefaults L callers.flatten) :=
    diffs_perm hinter.perm
  rw [htable, ← hdiffs.sum_eq]
  refine stored_accesses (fun a ha => hsets a (hinter.perm.mem_iff.mp ha))
    ⟨ha.1, fun c hc => ha.2 c ((hinter.perm.filterMap _).mem_iff.mp hc)⟩ ?_
  exact hL.imp hpresent fun hne hnil => hne (List.nil_perm.mp (hnil ▸ hdiffs))

/-- Two callers move a gauge at a label map not seen before, the second one
waiting for the first one's call. -/
theorem adds_up_stepwise_two : ∃ s, (shared ((Metric.ctor lengthHash .gauge "g".toList "gauge".toList [] 7 noLabels
    0).run [.set 5 1]) [[.update (.incLabels onlyCode 1 2)],
      [.update (.incLabels onlyCode (-3) 4), .update (.inc 2 3)]]).exec
        [0, 0, 0, 0, 0, 0, 1, 1, 1, 1, 1, 1, 1, 1, 1, 1, 1, 1] = some s ∧
      (s.shared.find onlyCode).map (·.value) = some (-2) := by
  refine ⟨_, rfl, ?_⟩
  refine (@adds_up_stepwise lengthHash .gauge "g".toList "gauge".toList [] 7 noLabels 0 [.set 5 1]
    [[.update (.incLabels onlyCode 1 2)], [.update (.incLabels onlyCode (-3) 4), .update (.inc 2 3)]]
    onlyCode (by decide) (by unfold HashedAlike; decide) (.inr (by decide +kernel))
    [0, 0, 0, 0, 0, 0, 1, 1, 1, 1, 1, 1, 1, 1, 1, 1, 1, 1] _ rfl ?_).trans (by decide +kernel)
  intro i
  match i with
  | 0 => exact ⟨rfl, rfl⟩
  | 1 => exact ⟨rfl, rfl⟩

/-! ## Reading a counter -/

/-- The label map a call reads. -/
def Access.reads (D : LabelMap) : Access → Option LabelMap
  | .update _ => none
  | .valueLabels lm => some lm
  | .value => some D

theorem Raised.refl (m : Metric hs) : Raised m m := fun _ v hv => ⟨v, hv, le_refl v⟩

theorem Raised.trans {m m' m'' : Metric hs} (h : Raised m m') (h' : Raised m' m'') : Raised m m'' := by
  intro L v hv
  obtain ⟨v', hv', hle⟩ := h L v hv
  obtain ⟨v'', hv'', hle'⟩ := h' L v' hv'
  exact ⟨v'', hv'', hle.trans hle'⟩

/-- An accepted `inc` raises the value it adds to, whatever it is. -/
theorem raised_access {m : Metric hs} (hc : m.cls = .counter) {a : Access} (ha : a.isSet = false) :
    Raised m (m.access a) := by
  have hcall : ∀ c : Call, (∀ v, c.effect m.cls ≠ some (.set v)) → Raised m (m.call c) := by
    intro c hset L v hv
    rw [stored_call]
    by_cases hsame : (labelKeys hs).same (c.target m.labelDefaults) L = true
    · rw [if_pos hsame]
      cases he : c.effect m.cls with
      | none => exact ⟨v, hv, le_refl v⟩
      | some e =>
        cases e with
        | set x => exact absurd he (hset x)
        | add d =>
          have hd := counter_add_nonneg (hc ▸ he)
          refine ⟨v + d, ?_, le_add_of_nonneg_right hd⟩
          rw [hv]
          rfl
    · rw [if_neg hsame]
      exact ⟨v, hv, le_refl v⟩
  cases a with
  | update c => exact hcall c (effect_ne_set ha)
  | valueLabels lm => exact Raised.refl m
  | value => exact Raised.refl m

@[simp] theorem access_cls (m : Metric hs) (a : Access) : (m.access a).cls = m.cls := by
  cases a <;> simp [Metric.access]

@[simp] theorem access_labelDefaults (m : Metric hs) (a : Access) :
    (m.access a).labelDefaults = m.labelDefaults := by
  cases a <;> simp [Metric.access]

@[simp] theorem access_initialValue (m : Metric hs) (a : Access) :
    (m.access a).initialValue = m.initialValue := by
  cases a <;> simp [Metric.access]

theorem returns_of_reads {m : Metric hs} (h : m.initialValue = none) {a : Access} {L : LabelMap}
    (ha : a.reads m.labelDefaults = some L) : m.returns a = stored m L := by
  cases a with
  | update c => cases ha
  | valueLabels lm =>
    obtain rfl := Option.some.inj ha
    exact valueLabels_eq m lm h
  | value =>
    obtain rfl := Option.some.inj ha
    exact valueLabels_eq m _ h

/-- What the first of two reads returned is at most what the second did. -/
def ReadsUp (hs : Str → UInt64) (D : LabelMap) (a b : Access × Option ℚ) : Prop :=
  ∀ L L' v, a.1.reads D = some L → b.1.reads D = some L' → (labelKeys hs).same L L' = true → a.2 = some v →
    ∃ v', b.2 = some v' ∧ v ≤ v'

/-- A later read returns a value that is raised. -/
theorem readsUp_of_mem {m m' : Metric hs} (hc : m'.cls = .counter) (hinit : m'.initialValue = none)
    (hr : Raised m m') {as : List Access} (hsets : ∀ a ∈ as, a.isSet = false) {b : Access × Option ℚ}
    (hb : b ∈ as.zip (m'.answers as)) {L L' : LabelMap} {v : ℚ} (hL : (labelKeys hs).same L L' = true)
    (hread : b.1.reads m'.labelDefaults = some L') (hv : stored m L = some v) :
    ∃ v', b.2 = some v' ∧ v ≤ v' := by
  induction as generalizing m' with
  | nil => cases hb
  | cons a as ih =>
    simp only [Metric.answers, List.zip_cons_cons, List.mem_cons] at hb
    rcases hb with rfl | hb
    · rw [returns_of_reads hinit hread, ← stored_congr m' hL]
      exact hr L v hv
    · exact ih (by simpa using hc) (by simpa using hinit)
        (hr.trans (raised_access hc (hsets a List.mem_cons_self)))
        (fun x hx => hsets x (List.mem_cons_of_mem _ hx)) hb (by simpa using hread)

theorem answers_up {m : Metric hs} (hc : m.cls = .counter) (hinit : m.initialValue = none) {as : List Access}
    (hsets : ∀ a ∈ as, a.isSet = false) : (as.zip (m.answers as)).Pairwise (ReadsUp hs m.labelDefaults) := by
  induction as generalizing m with
  | nil => exact List.Pairwise.nil
  | cons a as ih =>
    have hsets' : ∀ x ∈ as, x.isSet = false := fun x hx => hsets x (List.mem_cons_of_mem _ hx)
    have hc' : (m.access a).cls = .counter := by simpa using hc
    have hinit' : (m.access a).initialValue = none := by simpa using hinit
    refine List.pairwise_cons.mpr ⟨fun b hb L L' v hL hL' hsame hv => ?_, ?_⟩
    · refine readsUp_of_mem hc' hinit' (raised_access hc (hsets a List.mem_cons_self)) hsets' hb hsame
        (by simpa using hL') ?_
      rw [← returns_of_reads hinit hL]
      exact hv
    · have hrest := ih hc' hinit' hsets'
      rwa [access_labelDefaults] at hrest

/-- The value an accepted call leaves. -/
def newValue (t : ValuesByLabels hs) (L : LabelMap) (e : Effect) : ℚ := e.apply ((t.find L).map (·.value))

/-- The table `t` with a part of the accepted call `c` done, whose entry it
has: nothing yet, or the new value, or the new timestamp as well. -/
def PartlyDone (m : Metric hs) (t : ValuesByLabels hs) (c : Call) (e : Effect) (t' : ValuesByLabels hs) : Prop :=
  t' = t ∨
    t' = t.assign (c.target m.labelDefaults)
      ⟨newValue t (c.target m.labelDefaults) e, (t.entry (c.target m.labelDefaults)).timestamp⟩ ∨
    t' = t.assign (c.target m.labelDefaults) ⟨newValue t (c.target m.labelDefaults) e, c.timestamp⟩

/-- An accepted update of a label map that has no entry. -/
def Access.inserts (m : Metric hs) : Access → Bool
  | .update c => (c.effect m.cls).isSome && (m.valuesByLabels.find (c.target m.labelDefaults)).isNone
  | .valueLabels _ => false
  | .value => false

theorem subscript_of_present {t : ValuesByLabels hs} {lm : LabelMap} (h : (t.find lm).isSome = true) :
    t.subscript lm = t := by
  obtain ⟨v, hv⟩ := Option.isSome_iff_exists.mp h
  simp [ValuesByLabels.subscript, hv]

/-- The entry of an accepted update is there, whatever was updated since. -/
theorem target_present {m : Metric hs} {t : ValuesByLabels hs} (hkeys : t.keys = m.valuesByLabels.keys)
    {c : Call} {e : Effect} (he : c.effect m.cls = some e) (h : (Access.update c).inserts m = false) :
    (t.find (c.target m.labelDefaults)).isSome = true := by
  rw [HashTable.find_isSome_of_keys hkeys]
  have h : ((c.effect m.cls).isSome && (m.valuesByLabels.find (c.target m.labelDefaults)).isNone) = false := h
  rw [he] at h
  simpa [Option.ne_none_iff_isSome] using h

/-- Calls that insert nothing leave every key where it is. -/
theorem keys_accesses (m m' : Metric hs) (hcls : m'.cls = m.cls) (hD : m'.labelDefaults = m.labelDefaults)
    (hkeys : m'.valuesByLabels.keys = m.valuesByLabels.keys) {as : List Access}
    (h : ∀ a ∈ as, a.inserts m = false) : (m'.accesses as).valuesByLabels.keys = m.valuesByLabels.keys := by
  induction as generalizing m' with
  | nil => exact hkeys
  | cons a as ih =>
    refine ih (m'.access a) (by simpa using hcls) (by simpa using hD) ?_ fun x hx => h x (List.mem_cons_of_mem _ hx)
    cases a with
    | update c =>
      rw [Metric.access, call_eq]
      cases he : c.effect m'.cls with
      | none => exact hkeys
      | some e =>
        have hpresent := target_present hkeys (hcls ▸ he) (h _ List.mem_cons_self)
        rw [← hD] at hpresent
        exact (HashTable.keys_assign_of_find hpresent _).trans hkeys
    | valueLabels lm => exact hkeys
    | value => exact hkeys

theorem partlyDone_keys {m : Metric hs} {t t' : ValuesByLabels hs} {c : Call} {e : Effect}
    (ht : (t.find (c.target m.labelDefaults)).isSome = true) (h : PartlyDone m t c e t') : t'.keys = t.keys := by
  rcases h with rfl | rfl | rfl
  · rfl
  · exact HashTable.keys_assign_of_find ht _
  · exact HashTable.keys_assign_of_find ht _

theorem prefix_cases {α : Type} {l l' : List α} (h : l <+: l') : ∃ n, n ≤ l'.length ∧ l = l'.take n :=
  ⟨l.length, h.length_le, List.prefix_iff_eq_take.mp h⟩

theorem runSteps_set_prefix (t : ValuesByLabels hs) (v : Locals) (lm : LabelMap) (x : ℚ) (ts : Int)
    {made : List (Micro hs)} (h : made <+: setSteps lm x ts) (ht : (t.find lm).isSome = true) :
    (runSteps made (t, v)).1 = t ∨ (runSteps made (t, v)).1 = t.assign lm ⟨x, (t.entry lm).timestamp⟩ ∨
      (runSteps made (t, v)).1 = t.assign lm ⟨x, ts⟩ := by
  obtain ⟨n, hn, rfl⟩ := prefix_cases h
  have hn : n ≤ 3 := hn
  match n, hn with
  | 0, _ => exact .inl rfl
  | 1, _ => exact .inl (subscript_of_present ht)
  | 2, _ => exact .inr (.inl (by simp [runSteps, setSteps]))
  | 3, _ => exact .inr (.inr (by simp [runSteps, setSteps]))

theorem newValue_add (t : ValuesByLabels hs) (lm : LabelMap) (d : ℚ) :
    newValue t lm (.add d) = (t.entry lm).value + d := by
  cases h : t.find lm <;> simp [newValue, ValuesByLabels.entry, Effect.apply, h, MetricValue.zero]

theorem runSteps_inc_prefix (t : ValuesByLabels hs) (v : Locals) (lm : LabelMap) (d : ℚ) (ts : Int)
    {made : List (Micro hs)} (h : made <+: incSteps lm d ts) (ht : (t.find lm).isSome = true) :
    (runSteps made (t, v)).1 = t ∨
      (runSteps made (t, v)).1 = t.assign lm ⟨newValue t lm (.add d), (t.entry lm).timestamp⟩ ∨
      (runSteps made (t, v)).1 = t.assign lm ⟨newValue t lm (.add d), ts⟩ := by
  rw [newValue_add]
  obtain ⟨n, hn, rfl⟩ := prefix_cases h
  have hn : n ≤ 4 := hn
  match n, hn with
  | 0, _ => exact .inl rfl
  | 1, _ => exact .inl (subscript_of_present ht)
  | 2, _ => exact .inl (subscript_of_present ht)
  | 3, _ => exact .inr (.inl (by simp [runSteps, incSteps]))
  | 4, _ => exact .inr (.inr (by simp [runSteps, incSteps]))

/-- A `value` call writes nothing. -/
theorem runSteps_value_prefix (t : ValuesByLabels hs) (v : Locals) (init : Option ℚ) (lm : LabelMap)
    {made : List (Micro hs)} (h : made <+: valueSteps init lm) : (runSteps made (t, v)).1 = t := by
  obtain ⟨n, hn, rfl⟩ := prefix_cases h
  have hn : n ≤ 2 := hn
  match n, hn with
  | 0, _ => rfl
  | 1, _ => rfl
  | 2, _ => rfl

theorem lockedSteps_cases {m : Metric hs} {a : Access} {fs : List (Micro hs)} (h : lockedSteps m a = some fs) :
    (∃ c x, a = .update c ∧ c.effect m.cls = some (.set x) ∧
      fs = setSteps (c.target m.labelDefaults) x c.timestamp) ∨
    (∃ c d, a = .update c ∧ c.effect m.cls = some (.add d) ∧
      fs = incSteps (c.target m.labelDefaults) d c.timestamp) ∨
    ∃ lm, fs = valueSteps m.initialValue lm := by
  cases a with
  | update c =>
    cases c with
    | set x now => exact .inl ⟨_, x, rfl, rfl, (Option.some.inj h).symm⟩
    | setLabels lm x ts => exact .inl ⟨_, x, rfl, rfl, (Option.some.inj h).symm⟩
    | inc d now =>
      by_cases ha : accepts m.cls d = true
      · rw [show lockedSteps m (.update (.inc d now)) = _ from if_pos ha] at h
        exact .inr (.inl ⟨_, d, rfl, if_pos ha, (Option.some.inj h).symm⟩)
      · rw [show lockedSteps m (.update (.inc d now)) = _ from if_neg ha] at h
        cases h
    | incLabels lm d ts =>
      by_cases ha : accepts m.cls d = true
      · rw [show lockedSteps m (.update (.incLabels lm d ts)) = _ from if_pos ha] at h
        exact .inr (.inl ⟨_, d, rfl, if_pos ha, (Option.some.inj h).symm⟩)
      · rw [show lockedSteps m (.update (.incLabels lm d ts)) = _ from if_neg ha] at h
        cases h
  | valueLabels lm => exact .inr (.inr ⟨lm, (Option.some.inj h).symm⟩)
  | value => exact .inr (.inr ⟨_, (Option.some.inj h).symm⟩)

/-- **Without the mutex.** Let every label map updated have its entry. At any
moment the table then has the keys it began with, in their places, and is the
one the calls returned so far leave, except that one accepted update may be
under way: its entry, and no other, may have its new value with the timestamp
of the old one. -/
theorem unlocked_view (m : Metric hs) (callers : List (List Access))
    (hpresent : ∀ a ∈ callers.flatten, a.inserts m = false) {tr : List (Fin callers.length)}
    {s : State (Fin callers.length) (ValuesByLabels hs) Access Locals}
    (h : (shared m callers).exec tr = some s) :
    s.shared.keys = m.valuesByLabels.keys ∧
    (s.shared = (m.accesses s.calls).valuesByLabels ∨
      ∃ i c e, s.holder = some i ∧ (s.callers i).inside.map (·.call) = some (.update c) ∧
        c.effect m.cls = some e ∧ PartlyDone m (m.accesses s.calls).valuesByLabels c e s.shared) := by
  have hi := serial_exec h
  have hkeys : (m.accesses s.calls).valuesByLabels.keys = m.valuesByLabels.keys :=
    keys_accesses m m rfl rfl rfl fun a ha => hpresent a (calls_subset h a ha)
  have hsame : s.shared = (m.accesses s.calls).valuesByLabels →
      s.shared.keys = m.valuesByLabels.keys := fun he => (congrArg HashTable.keys he).trans hkeys
  cases hh : s.holder with
  | none =>
    have hfree := (hi.free hh).trans (after_eq m s.calls)
    exact ⟨hsame hfree, .inl hfree⟩
  | some i =>
    obtain ⟨x, hx⟩ := Option.isSome_iff_exists.mp ((hi.excl i).mpr hh)
    obtain ⟨made, hb, hmade⟩ := hi.under i x hx
    rw [after_eq] at hmade
    have htable := congrArg Prod.fst hmade
    simp only at htable
    have hown : x.call ∈ callers.flatten := by
      refine List.mem_flatten.mpr ⟨_, List.get_mem callers i, ?_⟩
      rw [hi.order i, hx]
      simp
    -- an update under way has its entry, and keeps the keys
    have hupdate : ∀ c e, x.call = .update c → c.effect m.cls = some e →
        (((m.accesses s.calls).valuesByLabels.find (c.target m.labelDefaults)).isSome = true →
          PartlyDone m (m.accesses s.calls).valuesByLabels c e s.shared) →
        s.shared.keys = m.valuesByLabels.keys ∧
        (s.shared = (m.accesses s.calls).valuesByLabels ∨
          ∃ i' c e, some i = some i' ∧ (s.callers i').inside.map (·.call) = some (.update c) ∧
            c.effect m.cls = some e ∧ PartlyDone m (m.accesses s.calls).valuesByLabels c e s.shared) := by
      intro c e hc he hpartly
      have ht := target_present hkeys he (hc ▸ hpresent _ hown)
      refine ⟨(partlyDone_keys ht (hpartly ht)).trans hkeys, .inr ⟨i, c, e, rfl, ?_, he, hpartly ht⟩⟩
      rw [hx, Option.map_some, hc]
    rcases lockedSteps_cases hb with ⟨c, y, hc, he, hfs⟩ | ⟨c, d, hc, he, hfs⟩ | ⟨lm, hfs⟩
    · refine hupdate c (.set y) hc he fun ht => ?_
      rw [PartlyDone, htable]
      exact runSteps_set_prefix _ _ _ y c.timestamp (hfs ▸ List.prefix_append made x.rest) ht
    · refine hupdate c (.add d) hc he fun ht => ?_
      rw [PartlyDone, htable]
      exact runSteps_inc_prefix _ _ _ d c.timestamp (hfs ▸ List.prefix_append made x.rest) ht
    · have hvalue : s.shared = (m.accesses s.calls).valuesByLabels := by
        rw [htable]
        exact runSteps_value_prefix _ _ _ lm (hfs ▸ List.prefix_append made x.rest)
      exact ⟨hsame hvalue, .inl hvalue⟩

/-- A moment after the new value is written: the timestamp is still that of
the construction. -/
theorem unlocked_view_torn : ∃ s, (shared (Counter.ctor lengthHash "c".toList [] noLabels 0)
    [[.update (.inc 1 5)]]).exec [0, 0, 0, 0] = some s ∧ s.shared.find noLabels = some ⟨1, 0⟩ ∧
      s.shared.keys = [noLabels] ∧
      (s.shared = ((Counter.ctor lengthHash "c".toList [] noLabels 0).accesses s.calls).valuesByLabels ∨
        ∃ i c e, s.holder = some i ∧ (s.callers i).inside.map (·.call) = some (.update c) ∧
          c.effect .counter = some e ∧ PartlyDone (Counter.ctor lengthHash "c".toList [] noLabels 0)
            ((Counter.ctor lengthHash "c".toList [] noLabels 0).accesses s.calls).valuesByLabels c e s.shared) :=
  ⟨_, rfl, by decide +kernel, @unlocked_view lengthHash (Counter.ctor lengthHash "c".toList [] noLabels 0)
    [[.update (.inc 1 5)]] (by decide +kernel) [0, 0, 0, 0] _ rfl⟩

/-! ## Every call returns -/

/-- **No caller waits for ever.** A run of callers takes no more steps than
their calls have, and from wherever it is it can go on until every call has
returned. -/
theorem calls_return (m : Metric hs) (callers : List (List Access)) {tr : List (Fin callers.length)}
    {s : State (Fin callers.length) (ValuesByLabels hs) Access Locals}
    (h : (shared m callers).exec tr = some s) :
    tr.length ≤ (callers.flatten.map (guarded m).cost).sum ∧
      ∃ tr' s', (shared m callers).exec (tr ++ tr') = some s' ∧ s'.done := by
  refine ⟨?_, completes h⟩
  rw [← cost_callers, ← length_add_left h]
  exact Nat.le_add_right _ _

/-- From the middle of a call, both callers get to their ends. -/
theorem calls_return_two : ∃ s, (shared (Counter.ctor lengthHash "c".toList [] noLabels 0)
    [[.update (.inc 1 5)], [.value]]).exec [0, 0] = some s ∧
      ∃ tr' s', (shared (Counter.ctor lengthHash "c".toList [] noLabels 0)
        [[.update (.inc 1 5)], [.value]]).exec ([0, 0] ++ tr') = some s' ∧ s'.done :=
  ⟨_, rfl, (@calls_return lengthHash (Counter.ctor lengthHash "c".toList [] noLabels 0)
    [[.update (.inc 1 5)], [.value]] [0, 0] _ rfl).2⟩

end SoapStab.Metrics
