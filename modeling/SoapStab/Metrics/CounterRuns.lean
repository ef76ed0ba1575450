import SoapStab.Metrics.Accounting
import Mathlib.Tactic.Linarith

/-!
# Do counters only go up

The property: along any run of the public operations of a counter, no stored
value decreases and none is negative.

`counter` overrides both forms of `inc` and returns early on a negative diff
("attempt to decrement a counter"). Both forms of `set` are inherited from
`metric` and check nothing, so a counter goes down whenever a `set` passes a
value below the one stored. `never_decreases_iff` is exact: a run has the
property if and only if each of its `set`s passes at least the value then stored
for its label map, zero where there is none.
-/
namespace SoapStab.Metrics

open SoapStab.Lib.Hash

variable {hs : Str → UInt64}

/-- Every call of the run, with the metric it finds, satisfies `P`. -/
def EachCall (P : Metric hs → Call → Prop) (m : Metric hs) (calls : List Call) : Prop :=
  ∀ before c, before ++ [c] <+: calls → P (m.run before) c

/-- No stored value is lost or lowered. -/
def Raised (m m' : Metric hs) : Prop := ∀ L v, stored m L = some v → ∃ v', stored m' L = some v' ∧ v ≤ v'

def NonNegative (m : Metric hs) : Prop := ∀ L v, stored m L = some v → 0 ≤ v

/-- Along the run, no stored value decreases and none is negative. -/
def NeverDecreases (m : Metric hs) (calls : List Call) : Prop :=
  NonNegative m ∧ EachCall (fun m c => Raised m (m.call c) ∧ NonNegative (m.call c)) m calls

/-- If the call is a `set`, it passes at least the value stored. -/
def SetsUpwards (m : Metric hs) (c : Call) : Prop :=
  ∀ v, c.effect m.cls = some (.set v) → (stored m (c.target m.labelDefaults)).getD 0 ≤ v

theorem eachCall_nil (P : Metric hs → Call → Prop) (m : Metric hs) : EachCall P m [] :=
  fun before c h => by simp at h

theorem eachCall_cons (P : Metric hs → Call → Prop) (m : Metric hs) (c : Call) (cs : List Call) :
    EachCall P m (c :: cs) ↔ P m c ∧ EachCall P (m.call c) cs := by
  constructor
  · intro h
    refine ⟨h [] c (by simp), fun before c' hp => ?_⟩
    exact h (c :: before) c' (by simpa using hp)
  · rintro ⟨h₁, h₂⟩ before c' hp
    cases before with
    | nil =>
      obtain ⟨rfl, -⟩ := List.cons_prefix_cons.mp hp
      exact h₁
    | cons b before =>
      obtain ⟨rfl, hrest⟩ := List.cons_prefix_cons.mp hp
      exact h₂ before c' hrest

/-! ## One call -/

/-- `counter::inc` lets only increments through. -/
theorem counter_add_nonneg {c : Call} {d : ℚ} (h : c.effect .counter = some (.add d)) : 0 ≤ d := by
  have key : ∀ x : ℚ, (if accepts .counter x then some (Effect.add x) else none) = some (.add d) → 0 ≤ d := by
    intro x hx
    by_cases ha : accepts .counter x = true
    · rw [if_pos ha] at hx
      cases hx
      simpa [accepts] using ha
    · rw [if_neg ha] at hx
      cases hx
  cases c with
  | set v now => cases h
  | setLabels lm v ts => cases h
  | inc x now => exact key x h
  | incLabels lm x ts => exact key x h

/-- The value stored for `L` after one call. -/
theorem stored_call (m : Metric hs) (c : Call) (L : LabelMap) :
    stored (m.call c) L =
      if (labelKeys hs).same (c.target m.labelDefaults) L then
        match c.effect m.cls with
        | none => stored m L
        | some e => some (e.apply (stored m L))
      else stored m L := call_find m c L

theorem stored_congr (m : Metric hs) {l L : LabelMap} (h : (labelKeys hs).same l L = true) :
    stored m l = stored m L := by
  unfold stored
  rw [m.valuesByLabels.find_congr h]

/-- What an accepted call makes of a value that is not negative. -/
theorem apply_ge {m : Metric hs} {c : Call} {e : Effect} (hc : m.cls = .counter) (hn : NonNegative m)
    (hu : SetsUpwards m c) (he : c.effect m.cls = some e) :
    (stored m (c.target m.labelDefaults)).getD 0 ≤ e.apply (stored m (c.target m.labelDefaults)) ∧
      0 ≤ (stored m (c.target m.labelDefaults)).getD 0 := by
  have h0 : 0 ≤ (stored m (c.target m.labelDefaults)).getD 0 := by
    cases ho : stored m (c.target m.labelDefaults) with
    | none => exact le_refl 0
    | some v => exact hn _ v ho
  refine ⟨?_, h0⟩
  cases e with
  | set v => exact hu v he
  | add d =>
    have hd := counter_add_nonneg (hc ▸ he)
    simp only [Effect.apply]
    linarith

theorem raised_of_setsUpwards {m : Metric hs} {c : Call} (hc : m.cls = .counter) (hn : NonNegative m)
    (hu : SetsUpwards m c) : Raised m (m.call c) ∧ NonNegative (m.call c) := by
  constructor
  · intro L v hv
    rw [stored_call]
    by_cases hsame : (labelKeys hs).same (c.target m.labelDefaults) L = true
    · rw [if_pos hsame]
      cases he : c.effect m.cls with
      | none => exact ⟨v, hv, le_refl v⟩
      | some e =>
        have hge := (apply_ge hc hn hu he).1
        rw [stored_congr m hsame, hv] at hge
        exact ⟨_, rfl, by simpa [hv] using hge⟩
    · rw [if_neg hsame]
      exact ⟨v, hv, le_refl v⟩
  · intro L v hv
    rw [stored_call] at hv
    by_cases hsame : (labelKeys hs).same (c.target m.labelDefaults) L = true
    · rw [if_pos hsame] at hv
      cases he : c.effect m.cls with
      | none =>
        rw [he] at hv
        exact hn L v hv
      | some e =>
        obtain ⟨hge, h0⟩ := apply_ge hc hn hu he
        rw [he] at hv
        rw [stored_congr m hsame] at hge h0
        obtain rfl := Option.some.inj hv
        exact h0.trans hge
    · rw [if_neg hsame] at hv
      exact hn L v hv

theorem setsUpwards_of_raised {m : Metric hs} {c : Call} (hr : Raised m (m.call c))
    (hn : NonNegative (m.call c)) : SetsUpwards m c := by
  intro v he
  have hafter : stored (m.call c) (c.target m.labelDefaults) = some v := by
    rw [stored_call, if_pos ((labelKeys hs).same_refl _), he]
    rfl
  cases ho : stored m (c.target m.labelDefaults) with
  | none => exact hn _ v hafter
  | some a =>
    obtain ⟨v', hv', hle⟩ := hr _ a ho
    rw [hafter] at hv'
    cases hv'
    exact hle

/-- **One call.** A counter whose values are not negative keeps the property
in one call exactly when the call is no `set` below the stored value. -/
theorem call_raised_iff {m : Metric hs} (hc : m.cls = .counter) (hn : NonNegative m) (c : Call) :
    Raised m (m.call c) ∧ NonNegative (m.call c) ↔ SetsUpwards m c :=
  ⟨fun h => setsUpwards_of_raised h.1 h.2, raised_of_setsUpwards hc hn⟩

/-! ## Whole runs -/

theorem eachCall_raised_iff {m : Metric hs} (hc : m.cls = .counter) (hn : NonNegative m) (calls : List Call) :
    EachCall (fun m c => Raised m (m.call c) ∧ NonNegative (m.call c)) m calls ↔
      EachCall SetsUpwards m calls := by
  induction calls generalizing m with
  | nil => exact iff_of_true (eachCall_nil _ m) (eachCall_nil _ m)
  | cons c cs ih =>
    rw [eachCall_cons, eachCall_cons, call_raised_iff hc hn]
    constructor
    · rintro ⟨hu, hcs⟩
      exact ⟨hu, (ih (by simpa using hc) (raised_of_setsUpwards hc hn hu).2).mp hcs⟩
    · rintro ⟨hu, hcs⟩
      exact ⟨hu, (ih (by simpa using hc) (raised_of_setsUpwards hc hn hu).2).mpr hcs⟩

theorem nonNegative_ctor (name help : Str) (D : LabelMap) (now : Int) :
    NonNegative (Counter.ctor hs name help D now) := by
  intro L v hv
  simp only [stored, Counter.ctor, Metric.ctor, HashTable.find_assign, HashTable.find_empty] at hv
  split at hv
  · cases hv
    exact le_refl 0
  · cases hv

/-- **Counters.** Along a run of a new counter, the stored values never
decrease and are never negative exactly when every `set` of the run passes at
least the value then stored for its label map. -/
theorem never_decreases_iff (hs : Str → UInt64) (name help : Str) (D : LabelMap) (now : Int)
    (calls : List Call) :
    NeverDecreases (Counter.ctor hs name help D now) calls ↔
      EachCall SetsUpwards (Counter.ctor hs name help D now) calls :=
  ⟨fun h => (eachCall_raised_iff rfl (nonNegative_ctor name help D now) calls).mp h.2,
    fun h => ⟨nonNegative_ctor name help D now,
      (eachCall_raised_iff rfl (nonNegative_ctor name help D now) calls).mpr h⟩⟩

/-- A counter at 2 is set to 1. -/
theorem never_decreases_fails :
    ¬ NeverDecreases (Counter.ctor lengthHash "c".toList [] noLabels 0) [.inc 2 1, .set 1 2] := by
  intro h
  obtain ⟨v, hv, hle⟩ := (h.2 [.inc 2 1] (.set 1 2) (List.prefix_refl _)).1 noLabels 2 (by decide +kernel)
  have : v = 1 := Option.some.inj (hv.symm.trans (by decide +kernel))
  rw [this] at hle
  exact absurd hle (by decide +kernel)

end SoapStab.Metrics
