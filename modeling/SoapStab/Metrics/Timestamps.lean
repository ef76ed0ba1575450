import SoapStab.Lib.Traces
import SoapStab.Metrics.CounterRuns
import Mathlib.Logic.Function.Basic

/-!
# Do timestamps run backwards

The default-timestamp forms of `set` and `inc` read the clock where the call
is made: `timestamp = current_unixtime_sec()` is a default argument, and
`set(value)` and `inc(diff)` evaluate it to pass it on. Only the callee takes
the mutex. So a call is two steps here, `stamp` (the clock is read, an update
carrying the time is pending) and `apply` (the update reaches the map under
the lock), and the steps of different callers interleave. The clock only goes
forward, one second a `tick`.

The property: the timestamp stored for a label map never decreases. It does
decrease whenever an update is overtaken: another caller reads a later time
and is applied first, then the older update overwrites the newer timestamp.
`never_backwards_iff` shows that this is the only way.
-/
namespace SoapStab.Metrics

open SoapStab.Lib.Hash SoapStab.Lib.Traces

variable {hs : Str → UInt64}

/-- A call that leaves the timestamp to the clock.
mirrors src/metrics/metric.h:78,84,92,98 -/
inductive Form where
  | set (value : ℚ)
  | setLabels (labelMap : LabelMap) (value : ℚ)
  | inc (diff : ℚ)
  | incLabels (labelMap : LabelMap) (diff : ℚ)
  deriving DecidableEq

/-- The call with the time read for it. -/
def Form.stamped (now : Int) : Form → Call
  | .set v => .set v now
  | .setLabels lm v => .setLabels lm v now
  | .inc d => .inc d now
  | .incLabels lm d => .incLabels lm d now

/-- A metric, the clock, and the pending update of each caller. -/
structure Shared (hs : Str → UInt64) where
  clock : Int
  metric : Metric hs
  pending : Nat → Option Call

inductive Event where
  | tick
  | stamp (caller : Nat) (f : Form)
  | apply (caller : Nat)
  deriving DecidableEq

/-- mirrors src/metrics/metric.cpp:28-47,89-104 -/
def Shared.step (s : Shared hs) : Event → Option (Shared hs)
  | .tick => some { s with clock := s.clock + 1 }
  | .stamp i f =>
    match s.pending i with
    | none => some { s with pending := Function.update s.pending i (some (f.stamped s.clock)) }
    | some _ => none
  | .apply i =>
    match s.pending i with
    | none => none
    | some c => some { s with metric := s.metric.call c, pending := Function.update s.pending i none }

/-- Any callers on a metric, from a state in which no update is pending. -/
def sharing (m : Metric hs) (clock : Int) : System (Shared hs) Event where
  init := ⟨clock, m, fun _ => none⟩
  step := Shared.step

/-- The timestamp stored for `L`. -/
def storedTimestamp (m : Metric hs) (L : LabelMap) : Option Int :=
  (m.valuesByLabels.find L).map (·.timestamp)

/-- From one step of the run to the next, the timestamp of `L` does not
decrease. -/
def NeverBackwards (S : System (Shared hs) Event) (L : LabelMap) (tr : List Event) : Prop :=
  ∀ tr' e s s', tr' ++ [e] <+: tr → S.exec tr' = some s → S.exec (tr' ++ [e]) = some s' →
    ∀ t, storedTimestamp s.metric L = some t → ∃ t', storedTimestamp s'.metric L = some t' ∧ t ≤ t'

/-! ## Overtaking -/

/-- The metric accepts the call, and it works on the entry of `L`. -/
def Form.reaches (m : Metric hs) (L : LabelMap) (f : Form) : Prop :=
  (labelKeys hs).same ((f.stamped 0).target m.labelDefaults) L = true ∧
    ((f.stamped 0).effect m.cls).isSome = true

/-- In the run, caller `i` reads the clock for `f` after `p`, and that update
is applied after `p ++ .stamp i f :: q`. -/
def Applied (tr : List Event) (i : Nat) (f : Form) (p q : List Event) : Prop :=
  p ++ .stamp i f :: q ++ [.apply i] <+: tr ∧ .apply i ∉ q

/-- An update of `L` is applied after another one for which the clock, having
advanced, was read later. -/
def Overtaken (m : Metric hs) (L : LabelMap) (tr : List Event) : Prop :=
  ∃ i f p q j g p' q', Applied tr i f p q ∧ Applied tr j g p' q' ∧
    f.reaches m L ∧ g.reaches m L ∧
    p.count .tick < p'.count .tick ∧ p'.length + q'.length < p.length + q.length

theorem target_stamped (f : Form) (now : Int) (D : LabelMap) :
    (f.stamped now).target D = (f.stamped 0).target D := by
  cases f <;> rfl

theorem effect_stamped (f : Form) (now : Int) (cls : MetricClass) :
    (f.stamped now).effect cls = (f.stamped 0).effect cls := by
  cases f <;> rfl

@[simp] theorem timestamp_stamped (f : Form) (now : Int) : (f.stamped now).timestamp = now := by
  cases f <;> rfl

/-! ## One step -/

theorem storedTimestamp_call (m : Metric hs) (c : Call) (L : LabelMap) :
    storedTimestamp (m.call c) L =
      if (labelKeys hs).same (c.target m.labelDefaults) L = true ∧ (c.effect m.cls).isSome = true then
        some c.timestamp
      else storedTimestamp m L := by
  unfold storedTimestamp
  rw [call_eq]
  cases c.effect m.cls with
  | none => simp
  | some e =>
    simp only [Metric.assign, HashTable.find_assign, Option.isSome_some, and_true]
    split <;> rfl

/-- What a stamped update does to the timestamp of `L`. -/
theorem storedTimestamp_stamped {m m' : Metric hs} (hD : m'.labelDefaults = m.labelDefaults)
    (hcls : m'.cls = m.cls) (f : Form) (now : Int) (L : LabelMap) :
    (f.reaches m L ∧ storedTimestamp (m'.call (f.stamped now)) L = some now) ∨
      (¬ f.reaches m L ∧ storedTimestamp (m'.call (f.stamped now)) L = storedTimestamp m' L) := by
  rw [storedTimestamp_call, target_stamped, effect_stamped, hD, hcls, timestamp_stamped]
  by_cases h : f.reaches m L
  · exact .inl ⟨h, if_pos h⟩
  · exact .inr ⟨h, if_neg h⟩

/-- What a step does. -/
theorem step_cases {s s' : Shared hs} {e : Event} (h : s.step e = some s') :
    (e = .tick ∧ s' = { s with clock := s.clock + 1 }) ∨
    (∃ i f, e = .stamp i f ∧ s.pending i = none ∧
      s' = { s with pending := Function.update s.pending i (some (f.stamped s.clock)) }) ∨
    (∃ i c, e = .apply i ∧ s.pending i = some c ∧
      s' = { s with metric := s.metric.call c, pending := Function.update s.pending i none }) := by
  cases e with
  | tick =>
    cases h
    exact .inl ⟨rfl, rfl⟩
  | stamp i f =>
    simp only [Shared.step] at h
    cases hp : s.pending i with
    | none =>
      rw [hp] at h
      cases h
      exact .inr (.inl ⟨i, f, rfl, hp, rfl⟩)
    | some c =>
      rw [hp] at h
      cases h
  | apply i =>
    simp only [Shared.step] at h
    cases hp : s.pending i with
    | none =>
      rw [hp] at h
      cases h
    | some c =>
      rw [hp] at h
      cases h
      exact .inr (.inr ⟨i, c, rfl, hp, rfl⟩)

/-! ## What a run says of its state -/

/-- The clock counts the ticks, a pending update carries the time its caller
read, and so does a stored timestamp that is later than `c₀`. -/
structure Explained (m : Metric hs) (c₀ : Int) (L : LabelMap) (tr : List Event) (s : Shared hs) : Prop where
  clock : s.clock = c₀ + tr.count .tick
  cls : s.metric.cls = m.cls
  labels : s.metric.labelDefaults = m.labelDefaults
  pending : ∀ i c, s.pending i = some c →
    ∃ f p q, tr = p ++ .stamp i f :: q ∧ .apply i ∉ q ∧ c = f.stamped (c₀ + p.count .tick)
  stored : ∀ t, storedTimestamp s.metric L = some t →
    t ≤ c₀ ∨ ∃ j g p q, Applied tr j g p q ∧ g.reaches m L ∧ t = c₀ + p.count .tick

theorem Applied.extend {tr : List Event} {i : Nat} {f : Form} {p q : List Event} (h : Applied tr i f p q)
    (e : Event) : Applied (tr ++ [e]) i f p q :=
  ⟨h.1.trans (List.prefix_append tr [e]), h.2⟩

section
variable {m : Metric hs} {c₀ : Int} {L : LabelMap} {tr : List Event} {s s' : Shared hs}

theorem explained_init (h₀ : ∀ t, storedTimestamp m L = some t → t ≤ c₀) :
    Explained m c₀ L [] (sharing m c₀).init where
  clock := by simp [sharing]
  cls := rfl
  labels := rfl
  pending := fun i c h => by cases h
  stored := fun t ht => .inl (h₀ t ht)

/-- An update still pending after another step than its own `apply`. -/
theorem pending_extend {i : Nat} {c : Call} {e : Event} (hne : e ≠ .apply i)
    (h : ∃ f p q, tr = p ++ .stamp i f :: q ∧ .apply i ∉ q ∧ c = f.stamped (c₀ + p.count .tick)) :
    ∃ f p q, tr ++ [e] = p ++ .stamp i f :: q ∧ .apply i ∉ q ∧ c = f.stamped (c₀ + p.count .tick) := by
  obtain ⟨f, p, q, rfl, hq, hc⟩ := h
  refine ⟨f, p, q ++ [e], by simp, ?_, hc⟩
  simpa [hq] using Ne.symm hne

theorem stored_extend {t : Int} (e : Event)
    (h : t ≤ c₀ ∨ ∃ j g p q, Applied tr j g p q ∧ g.reaches m L ∧ t = c₀ + p.count .tick) :
    t ≤ c₀ ∨ ∃ j g p q, Applied (tr ++ [e]) j g p q ∧ g.reaches m L ∧ t = c₀ + p.count .tick := by
  rcases h with h | ⟨j, g, p, q, ha, hg, ht⟩
  · exact .inl h
  · exact .inr ⟨j, g, p, q, ha.extend e, hg, ht⟩

theorem explained_step {e : Event} (I : Explained m c₀ L tr s) (h : s.step e = some s') :
    Explained m c₀ L (tr ++ [e]) s' := by
  rcases step_cases h with ⟨rfl, rfl⟩ | ⟨i, f, rfl, -, rfl⟩ | ⟨i, c, rfl, hpend, rfl⟩
  · refine ⟨?_, I.cls, I.labels, fun i c hc => pending_extend (by simp) (I.pending i c hc),
      fun t ht => stored_extend _ (I.stored t ht)⟩
    simp only [I.clock, List.count_append, List.count_singleton_self, Nat.cast_add, Nat.cast_one]
    omega
  · refine ⟨by simp [I.clock], I.cls, I.labels, fun k c hc => ?_, fun t ht => stored_extend _ (I.stored t ht)⟩
    by_cases hk : k = i
    · subst hk
      simp only [Function.update_self, Option.some.injEq] at hc
      exact ⟨f, tr, [], rfl, by simp, by rw [← hc, I.clock]⟩
    · simp only [Function.update_of_ne hk] at hc
      exact pending_extend (by simp) (I.pending k c hc)
  · refine ⟨by simp [I.clock], by simp [I.cls], by simp [I.labels], fun k c' hc => ?_, fun t ht => ?_⟩
    · by_cases hk : k = i
      · subst hk
        simp at hc
      · simp only [Function.update_of_ne hk] at hc
        exact pending_extend (by simpa using Ne.symm hk) (I.pending k c' hc)
    · obtain ⟨f, p, q, rfl, hq, rfl⟩ := I.pending i c hpend
      rcases storedTimestamp_stamped I.labels I.cls f (c₀ + p.count .tick) L with ⟨hf, hnew⟩ | ⟨-, hold⟩
      · have hnow : c₀ + p.count .tick = t := Option.some.inj (hnew.symm.trans ht)
        exact .inr ⟨i, f, p, q, ⟨List.prefix_refl _, hq⟩, hf, hnow.symm⟩
      · exact stored_extend _ (I.stored t (hold.symm.trans ht))

theorem sharing_concat {e : Event} (h : (sharing m c₀).exec (tr ++ [e]) = some s) :
    ∃ s₀, (sharing m c₀).exec tr = some s₀ ∧ s₀.step e = some s :=
  ((sharing m c₀).exec_concat tr e s).mp h

theorem explained_exec (h₀ : ∀ t, storedTimestamp m L = some t → t ≤ c₀)
    (h : (sharing m c₀).exec tr = some s) : Explained m c₀ L tr s :=
  System.exec_induction (explained_init h₀) (fun _ _ _ _ I hl => explained_step I hl) h

/-! ## Without overtaking -/

/-- A step of a run in which no update is overtaken. -/
theorem le_of_not_overtaken {e : Event} {t : Int} (I : Explained m c₀ L tr s) (h : s.step e = some s')
    (hno : ¬ Overtaken m L (tr ++ [e])) (ht : storedTimestamp s.metric L = some t) :
    ∃ t', storedTimestamp s'.metric L = some t' ∧ t ≤ t' := by
  rcases step_cases h with ⟨rfl, rfl⟩ | ⟨i, f, rfl, -, rfl⟩ | ⟨i, c, rfl, hpend, rfl⟩
  · exact ⟨t, ht, le_refl t⟩
  · exact ⟨t, ht, le_refl t⟩
  · obtain ⟨f, p, q, rfl, hq, rfl⟩ := I.pending i c hpend
    rcases storedTimestamp_stamped I.labels I.cls f (c₀ + p.count .tick) L with ⟨hf, hnew⟩ | ⟨-, hold⟩
    · refine ⟨_, hnew, ?_⟩
      rcases I.stored t ht with hle | ⟨j, g, p', q', ha, hg, rfl⟩
      · omega
      · by_contra hlt
        -- `j` was stamped after a tick that `i` had not seen, and was applied first
        have hlen := ha.1.length_le
        simp only [List.length_append, List.length_cons, List.length_nil] at hlen
        exact hno ⟨i, f, p, q, j, g, p', q', ⟨List.prefix_refl _, hq⟩, ha.extend _, hf, hg, by omega, by omega⟩
    · exact ⟨t, hold.trans ht, le_refl t⟩

/-! ## With overtaking -/

/-- Until it is applied, a stamped update stays pending. -/
theorem pending_of_stamp (h₀ : ∀ t, storedTimestamp m L = some t → t ≤ c₀) {i : Nat} {f : Form}
    {p q : List Event} (hq : .apply i ∉ q) (h : (sharing m c₀).exec (p ++ .stamp i f :: q) = some s) :
    s.pending i = some (f.stamped (c₀ + p.count .tick)) := by
  induction q using List.reverseRecOn generalizing s with
  | nil =>
    obtain ⟨s₀, hs₀, hl⟩ := sharing_concat h
    have I := explained_exec h₀ hs₀
    rcases step_cases hl with ⟨he, -⟩ | ⟨i', f', he, -, rfl⟩ | ⟨i', c, he, -⟩
    · cases he
    · cases he
      simp [I.clock]
    · cases he
  | append_singleton q e ih =>
    rw [← List.cons_append, ← List.append_assoc] at h
    obtain ⟨s₀, hs₀, hl⟩ := sharing_concat h
    simp only [List.mem_append, List.mem_singleton, not_or] at hq
    have hpend := ih hq.1 hs₀
    rcases step_cases hl with ⟨-, rfl⟩ | ⟨i', f', -, hnone, rfl⟩ | ⟨i', c, rfl, -, rfl⟩
    · exact hpend
    · have hne : i ≠ i' := by
        rintro rfl
        rw [hpend] at hnone
        cases hnone
      simpa [Function.update_of_ne hne] using hpend
    · have hne : i ≠ i' := fun hi => hq.2 (by rw [hi])
      simpa [Function.update_of_ne hne] using hpend

/-- An update that reaches `L` stores the time its caller read. -/
theorem storedTimestamp_of_applied (h₀ : ∀ t, storedTimestamp m L = some t → t ≤ c₀) {i : Nat} {f : Form}
    {p q : List Event} (hf : f.reaches m L) (hq : .apply i ∉ q)
    (h : (sharing m c₀).exec (p ++ .stamp i f :: q ++ [.apply i]) = some s) :
    storedTimestamp s.metric L = some (c₀ + p.count .tick) := by
  obtain ⟨s₀, hs₀, hl⟩ := sharing_concat h
  have I := explained_exec h₀ hs₀
  rcases step_cases hl with ⟨he, -⟩ | ⟨i', f', he, -⟩ | ⟨i', c, he, hpend, rfl⟩
  · cases he
  · cases he
  · cases he
    rw [pending_of_stamp h₀ hq hs₀] at hpend
    obtain rfl := Option.some.inj hpend
    rcases storedTimestamp_stamped I.labels I.cls f (c₀ + p.count .tick) L with ⟨-, hnew⟩ | ⟨hnot, -⟩
    · exact hnew
    · exact absurd hf hnot

/-- Where no step goes backwards, no later state does. -/
theorem le_of_neverBackwards (h : NeverBackwards (sharing m c₀) L tr) {tr₁ rest : List Event}
    (hp : tr₁ ++ rest <+: tr) (hs : (sharing m c₀).exec tr₁ = some s)
    (hs' : (sharing m c₀).exec (tr₁ ++ rest) = some s') {t : Int} (ht : storedTimestamp s.metric L = some t) :
    ∃ t', storedTimestamp s'.metric L = some t' ∧ t ≤ t' := by
  induction rest using List.reverseRecOn generalizing s' with
  | nil =>
    rw [List.append_nil, hs] at hs'
    cases hs'
    exact ⟨t, ht, le_refl t⟩
  | append_singleton rest e ih =>
    rw [← List.append_assoc] at hp hs'
    obtain ⟨s₀, hs₀, -⟩ := sharing_concat hs'
    obtain ⟨t₀, ht₀, hle⟩ := ih ((List.prefix_append _ _).trans hp) hs₀
    obtain ⟨t', ht', hle'⟩ := h _ e s₀ s' hp hs₀ hs' t₀ ht₀
    exact ⟨t', ht', hle.trans hle'⟩

theorem not_overtaken_of_neverBackwards (h₀ : ∀ t, storedTimestamp m L = some t → t ≤ c₀)
    (hexec : (sharing m c₀).exec tr = some s) (h : NeverBackwards (sharing m c₀) L tr) :
    ¬ Overtaken m L tr := by
  rintro ⟨i, f, p, q, j, g, p', q', hi, hj, hf, hg, hticks, hlen⟩
  -- the state after `j`'s update, and the later one after `i`'s
  obtain ⟨s₁, hs₁⟩ := System.exec_prefix hexec hj.1
  obtain ⟨s₂, hs₂⟩ := System.exec_prefix hexec hi.1
  obtain ⟨rest, hrest⟩ := List.prefix_of_prefix_length_le hj.1 hi.1 (by simp; omega)
  have ht₁ := storedTimestamp_of_applied h₀ hg hj.2 hs₁
  have ht₂ := storedTimestamp_of_applied h₀ hf hi.2 hs₂
  obtain ⟨t', ht', hle⟩ := le_of_neverBackwards h (hrest ▸ hi.1) hs₁ (hrest ▸ hs₂) ht₁
  rw [ht₂] at ht'
  cases ht'
  omega

end

/-! ## Whole runs -/

theorem storedTimestamp_ctor (cls : MetricClass) (name type help : Str) (v0 : ℚ) (D L : LabelMap) (now : Int)
    {t : Int} (h : storedTimestamp (Metric.ctor hs cls name type help v0 D now) L = some t) : t = now := by
  simp only [storedTimestamp, Metric.ctor, HashTable.find_assign, HashTable.find_empty] at h
  split at h
  · cases h
    rfl
  · cases h

/-- **Timestamps.** In a run of any callers on a metric created at `c₀`, the
timestamp stored for `L` never decreases exactly when no update of `L` is
overtaken. -/
theorem never_backwards_iff (hs : Str → UInt64) (cls : MetricClass) (name type help : Str) (v0 : ℚ)
    (D L : LabelMap) (c₀ : Int) (tr : List Event) (s : Shared hs)
    (h : (sharing (Metric.ctor hs cls name type help v0 D c₀) c₀).exec tr = some s) :
    NeverBackwards (sharing (Metric.ctor hs cls name type help v0 D c₀) c₀) L tr ↔
      ¬ Overtaken (Metric.ctor hs cls name type help v0 D c₀) L tr := by
  have h₀ : ∀ t, storedTimestamp (Metric.ctor hs cls name type help v0 D c₀) L = some t → t ≤ c₀ :=
    fun t ht => (storedTimestamp_ctor cls name type help v0 D L c₀ ht).le
  refine ⟨not_overtaken_of_neverBackwards h₀ h, fun hno tr' e s₁ s₂ hp hs₁ hs₂ t ht => ?_⟩
  obtain ⟨s₀, hs₀, hl⟩ := sharing_concat hs₂
  rw [hs₁] at hs₀
  cases hs₀
  refine le_of_not_overtaken (explained_exec h₀ hs₁) hl (fun ho => hno ?_) ht
  obtain ⟨i, f, p, q, j, g, p', q', hi, hj, hrest⟩ := ho
  exact ⟨i, f, p, q, j, g, p', q', ⟨hi.1.trans hp, hi.2⟩, ⟨hj.1.trans hp, hj.2⟩, hrest⟩

/-! ## Two callers -/

/-- Caller 0 reads the clock, the clock advances, caller 1 reads it and is
applied; then caller 0's update is. -/
def overtaking : List Event := [.stamp 0 (.inc 1), .tick, .stamp 1 (.inc 1), .apply 1, .apply 0]

/-- The timestamp stored after a run on a new counter. -/
def stamps (tr : List Event) : Option (Option Int) :=
  ((sharing (Counter.ctor lengthHash "c".toList [] noLabels 0) 0).exec tr).map
    fun s => storedTimestamp s.metric noLabels

/-- The newer timestamp of caller 1 is overwritten by the older one. -/
theorem never_backwards_fails :
    ¬ NeverBackwards (sharing (Counter.ctor lengthHash "c".toList [] noLabels 0) 0) noLabels overtaking := by
  intro h
  have h₁ : stamps (overtaking.take 4) = some (some 1) := by decide +kernel
  have h₂ : stamps overtaking = some (some 0) := by decide +kernel
  obtain ⟨s₁, hs₁, ht₁⟩ := Option.map_eq_some_iff.mp h₁
  obtain ⟨s₂, hs₂, ht₂⟩ := Option.map_eq_some_iff.mp h₂
  obtain ⟨t, ht, hle⟩ := h (overtaking.take 4) (.apply 0) s₁ s₂ (List.prefix_refl _) hs₁ hs₂ 1 ht₁
  rw [ht₂] at ht
  cases ht
  exact absurd hle (by decide)

/-- Within one second the order does not matter. -/
def sameSecond : List Event := [.stamp 0 (.inc 1), .stamp 1 (.inc 1), .apply 1, .apply 0]

theorem never_backwards_iff_sameSecond :
    NeverBackwards (sharing (Metric.ctor lengthHash .gauge [] [] [] 0 noLabels 0) 0) noLabels sameSecond := by
  refine (never_backwards_iff lengthHash .gauge [] [] [] 0 noLabels noLabels 0 sameSecond
    (((sharing (Metric.ctor lengthHash .gauge [] [] [] 0 noLabels 0) 0).exec sameSecond).get (by decide))
    (Option.some_get _).symm).mpr ?_
  rintro ⟨i, f, p, q, j, g, p', q', -, hj, -, -, hticks, -⟩
  have hcount := hj.1.sublist.count_le .tick
  simp only [List.count_append] at hcount
  have hnone : sameSecond.count .tick = 0 := by decide
  omega

end SoapStab.Metrics
