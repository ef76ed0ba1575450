import SoapStab.Metrics.LabelMap
import Mathlib.Data.Rat.Defs
import Mathlib.Algebra.Order.Ring.Rat

/-!
# Metrics: `metric`, `gauge` and `counter`

One object of the class hierarchy of `src/metrics`: the base fields and the
dynamic type (`MetricClass`), which selects the overrides of `inc`.

Values (`double`) are exact rationals, timestamps integers. Each default
argument `current_unixtime_sec()` is evaluated by the caller, so the calls
carry it (`now`).

`_initial_value` is listed in no member initialiser and no constructor body
writes it: reading it yields no defined value. It is `none` here, and
`valueLabels` returns `none` where `metric::value` reads it.

The `log::trace` lines of these functions change nothing (the one in
`metric::set` reads the entry just written) and are left out.
-/
namespace SoapStab.Metrics

open SoapStab.Lib.Hash

/-- mirrors src/metrics/metric.h:35-45 -/
structure MetricValue where
  value : ℚ
  timestamp : Int
  deriving DecidableEq

/-- The value-initialised `metric_value_t` that `operator[]` inserts. -/
def MetricValue.zero : MetricValue := ⟨0, 0⟩

inductive MetricClass where
  | gauge | counter
  deriving DecidableEq

/-- mirrors src/metrics/metric.h:143-156 -/
structure Metric (hs : Str → UInt64) where
  cls : MetricClass
  name : Str
  help : Str
  type : Str
  initialValue : Option ℚ
  labelDefaults : LabelMap
  valuesByLabels : HashTable (labelKeys hs) MetricValue

variable {hs : Str → UInt64}

/-- mirrors src/metrics/metric.cpp:22-26 -/
def Metric.ctor (hs : Str → UInt64) (cls : MetricClass) (name type help : Str) (initialValue : ℚ)
    (labelDefaultValues : LabelMap) (now : Int) : Metric hs where
  cls := cls
  name := name
  help := help
  type := type
  initialValue := none
  labelDefaults := labelDefaultValues
  valuesByLabels := HashTable.empty.assign labelDefaultValues ⟨initialValue, now⟩

/-- mirrors src/metrics/gauge.cpp:11-15 -/
def Gauge.ctor (hs : Str → UInt64) (name help : Str) (initialValue : ℚ)
    (labelDefaultValues : LabelMap) (now : Int) : Metric hs :=
  Metric.ctor hs .gauge name "gauge".toList help initialValue labelDefaultValues now

/-- mirrors src/metrics/counter.cpp:11,35-36 -/
def Counter.ctor (hs : Str → UInt64) (name help : Str) (labelDefaultValues : LabelMap) (now : Int) :
    Metric hs :=
  Metric.ctor hs .counter name "counter".toList help 0 labelDefaultValues now

/-! ## `set` -/

/-- `_values_by_labels[label_map] = value`. -/
def Metric.assign (m : Metric hs) (labelMap : LabelMap) (value : MetricValue) : Metric hs :=
  { m with valuesByLabels := m.valuesByLabels.assign labelMap value }

/-- mirrors src/metrics/metric.cpp:40-47 -/
def Metric.setLabels (m : Metric hs) (labelMap : LabelMap) (value : ℚ) (timestamp : Int) : Metric hs :=
  m.assign labelMap ⟨value, timestamp⟩

/-- mirrors src/metrics/metric.cpp:35-38 -/
def Metric.set (m : Metric hs) (value : ℚ) (now : Int) : Metric hs :=
  m.setLabels m.labelDefaults value now

/-! ## `inc` -/

/-- mirrors src/metrics/metric.cpp:89-99 -/
def Metric.incLabels (m : Metric hs) (labelMap : LabelMap) (diff : ℚ) (timestamp : Int) : Metric hs :=
  let old := (m.valuesByLabels.find labelMap).getD MetricValue.zero
  m.assign labelMap ⟨old.value + diff, timestamp⟩

/-- mirrors src/metrics/counter.cpp:25-34 -/
def Counter.incLabels (m : Metric hs) (labelMap : LabelMap) (diff : ℚ) (timestamp : Int) : Metric hs :=
  if diff < 0 then m else m.incLabels labelMap diff timestamp

/-- The virtual call `inc(label_map, diff, timestamp)`. -/
def Metric.virtualIncLabels (m : Metric hs) (labelMap : LabelMap) (diff : ℚ) (timestamp : Int) :
    Metric hs :=
  match m.cls with
  | .gauge => m.incLabels labelMap diff timestamp
  | .counter => Counter.incLabels m labelMap diff timestamp

/-- mirrors src/metrics/metric.cpp:101-104 -/
def Metric.inc (m : Metric hs) (diff : ℚ) (now : Int) : Metric hs :=
  m.virtualIncLabels m.labelDefaults diff now

/-- mirrors src/metrics/counter.cpp:14-23 -/
def Counter.inc (m : Metric hs) (diff : ℚ) (now : Int) : Metric hs :=
  if diff < 0 then m else m.inc diff now

/-- The virtual call `inc(diff)`. -/
def Metric.virtualInc (m : Metric hs) (diff : ℚ) (now : Int) : Metric hs :=
  match m.cls with
  | .gauge => m.inc diff now
  | .counter => Counter.inc m diff now

/-- mirrors src/metrics/gauge.cpp:17-20 -/
def Gauge.dec (m : Metric hs) (diff : ℚ) (now : Int) : Metric hs := m.virtualInc (-diff) now

/-! ## `value` -/

/-- mirrors src/metrics/metric.cpp:62-77; `none`: the indeterminate
`_initial_value` was read. -/
def Metric.valueLabels (m : Metric hs) (labelMap : LabelMap) : Option ℚ :=
  match m.valuesByLabels.find labelMap with
  | some v => some v.value
  | none => m.initialValue

/-- mirrors src/metrics/metric.cpp:79-82 -/
def Metric.value (m : Metric hs) : Option ℚ := m.valueLabels m.labelDefaults

/-! ## Runs -/

/-- A mutating call, with the timestamp its caller evaluated. -/
inductive Call where
  | set (value : ℚ) (now : Int)
  | setLabels (labelMap : LabelMap) (value : ℚ) (timestamp : Int)
  | inc (diff : ℚ) (now : Int)
  | incLabels (labelMap : LabelMap) (diff : ℚ) (timestamp : Int)
  deriving DecidableEq

def Metric.call (m : Metric hs) : Call → Metric hs
  | .set v now => m.set v now
  | .setLabels lm v ts => m.setLabels lm v ts
  | .inc d now => m.virtualInc d now
  | .incLabels lm d ts => m.virtualIncLabels lm d ts

def Metric.run (m : Metric hs) (calls : List Call) : Metric hs := calls.foldl Metric.call m

/-- The label map a call works on; `dflt` is `_label_defaults`. -/
def Call.target (dflt : LabelMap) : Call → LabelMap
  | .set _ _ => dflt
  | .setLabels lm _ _ => lm
  | .inc _ _ => dflt
  | .incLabels lm _ _ => lm

/-- What an accepted call does to the entry of its target. -/
inductive Effect where
  | set (value : ℚ)
  | add (diff : ℚ)
  deriving DecidableEq

/-- A counter rejects a negative diff. -/
def accepts (cls : MetricClass) (diff : ℚ) : Bool :=
  match cls with
  | .gauge => true
  | .counter => decide (0 ≤ diff)

def Call.effect (cls : MetricClass) : Call → Option Effect
  | .set v _ => some (.set v)
  | .setLabels _ v _ => some (.set v)
  | .inc d _ => if accepts cls d then some (.add d) else none
  | .incLabels _ d _ => if accepts cls d then some (.add d) else none

def Call.timestamp : Call → Int
  | .set _ now => now
  | .setLabels _ _ ts => ts
  | .inc _ now => now
  | .incLabels _ _ ts => ts

/-- The value an entry holds afterwards; an absent entry starts from zero. -/
def Effect.apply (old : Option ℚ) : Effect → ℚ
  | .set v => v
  | .add d => old.getD 0 + d

theorem virtualIncLabels_eq (m : Metric hs) (lm : LabelMap) (d : ℚ) (ts : Int) :
    m.virtualIncLabels lm d ts = if accepts m.cls d then m.incLabels lm d ts else m := by
  unfold Metric.virtualIncLabels accepts Counter.incLabels
  cases m.cls with
  | gauge => rfl
  | counter =>
    by_cases h : d < 0
    · simp [h, not_le.mpr h]
    · simp [h, not_lt.mp h]

/-- The check of `counter::inc(diff)` and the one it reaches through the
virtual call agree. -/
theorem virtualInc_eq (m : Metric hs) (d : ℚ) (now : Int) :
    m.virtualInc d now = m.virtualIncLabels m.labelDefaults d now := by
  unfold Metric.virtualInc Counter.inc Metric.inc
  cases hc : m.cls with
  | gauge => rfl
  | counter =>
    simp only [Metric.virtualIncLabels, hc, Counter.incLabels]
    split <;> rfl

/-- **One call.** A call without effect (a rejected decrement) leaves the
metric alone; any other assigns the entry of its target and nothing else. -/
theorem call_eq (m : Metric hs) (c : Call) :
    m.call c = match c.effect m.cls with
      | none => m
      | some e => m.assign (c.target m.labelDefaults)
          ⟨e.apply ((m.valuesByLabels.find (c.target m.labelDefaults)).map (·.value)), c.timestamp⟩ := by
  have hadd : ∀ (o : Option MetricValue) (d : ℚ),
      (o.getD MetricValue.zero).value + d = Effect.apply (o.map (·.value)) (.add d) := by
    intro o d; cases o <;> rfl
  cases c with
  | set v now => rfl
  | setLabels lm v ts => rfl
  | inc d now =>
    simp only [Metric.call, virtualInc_eq, virtualIncLabels_eq, Call.effect, Call.target, Call.timestamp]
    split
    · simp only [Metric.incLabels, hadd]
    · rfl
  | incLabels lm d ts =>
    simp only [Metric.call, virtualIncLabels_eq, Call.effect, Call.target, Call.timestamp]
    split
    · simp only [Metric.incLabels, hadd]
    · rfl

/-! ## Fields no call changes -/

section
variable (m : Metric hs) (c : Call)

@[simp] theorem call_cls : (m.call c).cls = m.cls := by rw [call_eq]; split <;> rfl
@[simp] theorem call_name : (m.call c).name = m.name := by rw [call_eq]; split <;> rfl
@[simp] theorem call_help : (m.call c).help = m.help := by rw [call_eq]; split <;> rfl
@[simp] theorem call_type : (m.call c).type = m.type := by rw [call_eq]; split <;> rfl
@[simp] theorem call_labelDefaults : (m.call c).labelDefaults = m.labelDefaults := by
  rw [call_eq]; split <;> rfl
@[simp] theorem call_initialValue : (m.call c).initialValue = m.initialValue := by
  rw [call_eq]; split <;> rfl

end

theorem run_field {α : Type} (f : Metric hs → α) (h : ∀ m c, f (m.call c) = f m) (m : Metric hs)
    (calls : List Call) : f (m.run calls) = f m := by
  induction calls generalizing m with
  | nil => rfl
  | cons c cs ih => exact (ih (m.call c)).trans (h m c)

section
variable (m : Metric hs) (calls : List Call)

theorem run_cls : (m.run calls).cls = m.cls := run_field (·.cls) call_cls m calls
@[simp] theorem run_labelDefaults : (m.run calls).labelDefaults = m.labelDefaults :=
  run_field (·.labelDefaults) call_labelDefaults m calls
theorem run_initialValue : (m.run calls).initialValue = m.initialValue :=
  run_field (·.initialValue) call_initialValue m calls

end

/-- The entry of `l` after one call. -/
theorem call_find (m : Metric hs) (c : Call) (l : LabelMap) :
    ((m.call c).valuesByLabels.find l).map (·.value) =
      if (labelKeys hs).same (c.target m.labelDefaults) l then
        match c.effect m.cls with
        | none => (m.valuesByLabels.find l).map (·.value)
        | some e => some (e.apply ((m.valuesByLabels.find l).map (·.value)))
      else (m.valuesByLabels.find l).map (·.value) := by
  rw [call_eq]
  cases c.effect m.cls with
  | none => simp
  | some e =>
    simp only [Metric.assign, HashTable.find_assign]
    split
    · next h => rw [m.valuesByLabels.find_congr h]; rfl
    · rfl

/-- A call on one label map leaves the values of all others. -/
theorem call_frame (m : Metric hs) (c : Call) (l : LabelMap)
    (h : (c.target m.labelDefaults).eqv l = false) : (m.call c).valueLabels l = m.valueLabels l := by
  have hs' : (labelKeys hs).same (c.target m.labelDefaults) l = false := by
    simp only [KeyOps.same, labelKeys, h, Bool.and_false]
  rw [call_eq]
  cases c.effect m.cls with
  | none => rfl
  | some e => simp [Metric.valueLabels, Metric.assign, HashTable.find_assign, hs']

end SoapStab.Metrics
