import SoapStab.Lib.Interleave
import SoapStab.Lib.Traces
import Mathlib.Algebra.BigOperators.Fin
import Mathlib.Logic.Function.Basic

/-!
# Shared data behind one mutex

Any callers (`ι`) work through lists of calls on an object. A call either
returns without taking the mutex or makes its steps, each on the shared data
and on locals of its own, while it holds it. A trace is the list of callers
in the order in which they are scheduled, one step each time: taking the
mutex, one step inside, or releasing it. A caller that wants the mutex while
another one holds it cannot be scheduled.

* `serial_exec`: the calls take effect one after the other, in the order in
  which they are served; in between, the data is that of the calls served so
  far with a part of one call's steps done.
* `served_interleaving`: once all callers are done, the order in which they
  were served is an interleaving of their lists.
* `length_add_left`, `completes`: the callers take no more steps than their
  calls have, and every run can be completed.
-/
namespace SoapStab.Lib.Monitor

open SoapStab.Lib.Interleave SoapStab.Lib.Traces

variable {ι σ κ ν : Type}

/-- The locals a call starts with, and its steps while it holds the mutex;
`none` for a call that returns without taking it. -/
structure Object (σ κ ν : Type) where
  locals : κ → ν
  body : κ → Option (List (σ → ν → σ × ν))

/-- Steps done one after the other. -/
def runSteps (fs : List (σ → ν → σ × ν)) (p : σ × ν) : σ × ν := fs.foldl (fun p f => f p.1 p.2) p

theorem runSteps_concat (fs : List (σ → ν → σ × ν)) (f : σ → ν → σ × ν) (p : σ × ν) :
    runSteps (fs ++ [f]) p = f (runSteps fs p).1 (runSteps fs p).2 := by
  simp only [runSteps, List.foldl_append, List.foldl_cons, List.foldl_nil]

/-- The call in one go. -/
def Object.whole (O : Object σ κ ν) (d : σ) (c : κ) : σ × ν :=
  match O.body c with
  | none => (d, O.locals c)
  | some fs => runSteps fs (d, O.locals c)

theorem Object.whole_of_none {O : Object σ κ ν} {c : κ} (h : O.body c = none) (d : σ) :
    O.whole d c = (d, O.locals c) := by
  simp only [Object.whole, h]

theorem Object.whole_of_some {O : Object σ κ ν} {c : κ} {fs : List (σ → ν → σ × ν)} (h : O.body c = some fs)
    (d : σ) : O.whole d c = runSteps fs (d, O.locals c) := by
  simp only [Object.whole, h]

/-- The data after calls done one after the other. -/
def Object.after (O : Object σ κ ν) (d : σ) (cs : List κ) : σ := cs.foldl (fun d c => (O.whole d c).1) d

/-- The locals each of them ends with. -/
def Object.results (O : Object σ κ ν) (d : σ) : List κ → List ν
  | [] => []
  | c :: cs => (O.whole d c).2 :: O.results (O.whole d c).1 cs

theorem Object.after_concat (O : Object σ κ ν) (d : σ) (cs : List κ) (c : κ) :
    O.after d (cs ++ [c]) = (O.whole (O.after d cs) c).1 := by
  simp only [Object.after, List.foldl_append, List.foldl_cons, List.foldl_nil]

theorem Object.results_concat (O : Object σ κ ν) (d : σ) (cs : List κ) (c : κ) :
    O.results d (cs ++ [c]) = O.results d cs ++ [(O.whole (O.after d cs) c).2] := by
  induction cs generalizing d with
  | nil => rfl
  | cons a cs ih =>
    simp only [List.cons_append, Object.results, ih]
    rfl

/-! ## The callers -/

/-- A call under way: the steps it has left, and its locals. -/
structure Inside (σ κ ν : Type) where
  call : κ
  rest : List (σ → ν → σ × ν)
  locals : ν

structure Caller (σ κ ν : Type) where
  inside : Option (Inside σ κ ν)
  todo : List κ

/-- A call that has returned. -/
structure Served (ι κ ν : Type) where
  caller : ι
  call : κ
  locals : ν

structure State (ι σ κ ν : Type) where
  shared : σ
  holder : Option ι
  callers : ι → Caller σ κ ν
  served : List (Served ι κ ν)

variable [DecidableEq ι]

def State.setCaller (s : State ι σ κ ν) (i : ι) (c : Caller σ κ ν) : State ι σ κ ν :=
  { s with callers := Function.update s.callers i c }

/-- The calls served so far. -/
def State.calls (s : State ι σ κ ν) : List κ := s.served.map (·.call)

/-- Those of one caller. -/
def State.callsOf (s : State ι σ κ ν) (i : ι) : List κ := (s.served.filter (·.caller = i)).map (·.call)

def State.done (s : State ι σ κ ν) : Prop := ∀ i, (s.callers i).inside = none ∧ (s.callers i).todo = []

/-- Caller `i` is scheduled. -/
def Object.step (O : Object σ κ ν) (s : State ι σ κ ν) (i : ι) : Option (State ι σ κ ν) :=
  match (s.callers i).inside, (s.callers i).todo with
  | none, [] => none
  | none, c :: todo =>
    match O.body c with
    | none => some { s.setCaller i ⟨none, todo⟩ with served := s.served ++ [⟨i, c, O.locals c⟩] }
    | some fs =>
      match s.holder with
      | none => some { s.setCaller i ⟨some ⟨c, fs, O.locals c⟩, todo⟩ with holder := some i }
      | some _ => none
  | some ⟨c, [], v⟩, todo =>
    some { s.setCaller i ⟨none, todo⟩ with holder := none, served := s.served ++ [⟨i, c, v⟩] }
  | some ⟨c, f :: fs, v⟩, todo =>
    some { s.setCaller i ⟨some ⟨c, fs, (f s.shared v).2⟩, todo⟩ with shared := (f s.shared v).1 }

/-- Callers with the lists `progs` on the data `d`. -/
def Object.monitor (O : Object σ κ ν) (d : σ) (progs : ι → List κ) : System (State ι σ κ ν) ι where
  init := ⟨d, none, fun i => ⟨none, progs i⟩, []⟩
  step := O.step

/-- What one step of caller `i` does. -/
inductive Object.Moves (O : Object σ κ ν) (s : State ι σ κ ν) (i : ι) : State ι σ κ ν → Prop
  /-- A call that needs no mutex returns. -/
  | pass (c : κ) (todo : List κ) (hc : s.callers i = ⟨none, c :: todo⟩) (hb : O.body c = none) :
      O.Moves s i { s.setCaller i ⟨none, todo⟩ with served := s.served ++ [⟨i, c, O.locals c⟩] }
  | acquire (c : κ) (todo : List κ) (fs : List (σ → ν → σ × ν)) (hc : s.callers i = ⟨none, c :: todo⟩)
      (hb : O.body c = some fs) (hh : s.holder = none) :
      O.Moves s i { s.setCaller i ⟨some ⟨c, fs, O.locals c⟩, todo⟩ with holder := some i }
  | work (c : κ) (f : σ → ν → σ × ν) (fs : List (σ → ν → σ × ν)) (v : ν) (todo : List κ)
      (hc : s.callers i = ⟨some ⟨c, f :: fs, v⟩, todo⟩) :
      O.Moves s i { s.setCaller i ⟨some ⟨c, fs, (f s.shared v).2⟩, todo⟩ with shared := (f s.shared v).1 }
  | release (c : κ) (v : ν) (todo : List κ) (hc : s.callers i = ⟨some ⟨c, [], v⟩, todo⟩) :
      O.Moves s i { s.setCaller i ⟨none, todo⟩ with holder := none, served := s.served ++ [⟨i, c, v⟩] }

theorem step_cases {O : Object σ κ ν} {s s' : State ι σ κ ν} {i : ι} (h : O.step s i = some s') :
    O.Moves s i s' := by
  unfold Object.step at h
  obtain ⟨ins, todo, hc⟩ : ∃ ins todo, s.callers i = ⟨ins, todo⟩ := ⟨_, _, rfl⟩
  rw [hc] at h
  rcases ins with _ | ⟨c, _ | ⟨f, fs⟩, v⟩
  · rcases todo with _ | ⟨c, todo⟩
    · cases h
    · cases hb : O.body c with
      | none =>
        simp only [hb, Option.some.injEq] at h
        exact h ▸ .pass c todo hc hb
      | some fs =>
        cases hh : s.holder with
        | none =>
          simp only [hb, hh, Option.some.injEq] at h
          exact h ▸ .acquire c todo fs hc hb hh
        | some j => simp [hb, hh] at h
  · exact Option.some.inj h ▸ .release c v todo hc
  · exact Option.some.inj h ▸ .work c f fs v todo hc

/-! ## The calls take effect one by one -/

/-- The data and the results are those of calls done one by one. -/
structure Object.Serial (O : Object σ κ ν) (d : σ) (progs : ι → List κ) (s : State ι σ κ ν) : Prop where
  results : s.served.map (·.locals) = O.results d s.calls
  order : ∀ i, progs i = s.callsOf i ++ ((s.callers i).inside.map (·.call)).toList ++ (s.callers i).todo
  excl : ∀ i, (s.callers i).inside.isSome = true ↔ s.holder = some i
  free : s.holder = none → s.shared = O.after d s.calls
  under : ∀ i x, (s.callers i).inside = some x → ∃ made, O.body x.call = some (made ++ x.rest) ∧
    (s.shared, x.locals) = runSteps made (O.after d s.calls, O.locals x.call)

theorem serial_init (O : Object σ κ ν) (d : σ) (progs : ι → List κ) :
    O.Serial d progs (O.monitor d progs).init where
  results := rfl
  order _ := rfl
  excl i := by simp [Object.monitor]
  free _ := rfl
  under i x h := by simp [Object.monitor] at h

omit [DecidableEq ι] in
theorem calls_served (s : State ι σ κ ν) (r : Served ι κ ν) (cs : ι → Caller σ κ ν) (d : σ) (h : Option ι) :
    State.calls ⟨d, h, cs, s.served ++ [r]⟩ = s.calls ++ [r.call] := by
  simp [State.calls]

theorem callsOf_served (s : State ι σ κ ν) (r : Served ι κ ν) (j : ι) (cs : ι → Caller σ κ ν) (d : σ)
    (h : Option ι) : State.callsOf ⟨d, h, cs, s.served ++ [r]⟩ j =
      s.callsOf j ++ if r.caller = j then [r.call] else [] := by
  simp only [State.callsOf, List.filter_append, List.map_append]
  by_cases hj : r.caller = j
  · simp [hj]
  · simp [hj]

section
variable {O : Object σ κ ν} {d : σ} {progs : ι → List κ} {s s' : State ι σ κ ν} {i : ι}

/-- Whoever is not `i` is not inside while `i` is. -/
theorem Object.Serial.alone (hi : O.Serial d progs s) (hh : s.holder = some i) {j : ι} (hj : j ≠ i) :
    (s.callers j).inside = none := by
  have : ¬ (s.callers j).inside.isSome = true := fun h => hj (Option.some.inj (((hi.excl j).mp h).symm.trans hh))
  simpa using this

theorem serial_pass (hi : O.Serial d progs s) {c : κ} {todo : List κ} (hc : s.callers i = ⟨none, c :: todo⟩)
    (hb : O.body c = none) :
    O.Serial d progs { s.setCaller i ⟨none, todo⟩ with served := s.served ++ [⟨i, c, O.locals c⟩] } := by
  have hw := O.whole_of_none hb
  have hafter : O.after d (s.calls ++ [c]) = O.after d s.calls := by rw [O.after_concat, hw]
  have hins : ∀ j, ((Function.update s.callers i ⟨none, todo⟩) j).inside = (s.callers j).inside := by
    intro j
    by_cases hj : j = i
    · subst hj; simp [hc]
    · simp [hj]
  refine ⟨?_, fun j => ?_, fun j => ?_, fun hh => ?_, fun j x hx => ?_⟩
  · simp [calls_served, O.results_concat, hw, hi.results]
  · rw [callsOf_served, hi.order j]
    by_cases hj : j = i
    · subst hj; simp [State.setCaller, hc]
    · simp [State.setCaller, hj, Ne.symm hj]
  · simpa only [State.setCaller, hins] using hi.excl j
  · rw [calls_served, hafter]
    exact hi.free hh
  · rw [calls_served, hafter]
    exact hi.under j x (hins j ▸ hx)

theorem serial_acquire (hi : O.Serial d progs s) {c : κ} {todo : List κ} {fs : List (σ → ν → σ × ν)}
    (hc : s.callers i = ⟨none, c :: todo⟩) (hb : O.body c = some fs) (hh : s.holder = none) :
    O.Serial d progs { s.setCaller i ⟨some ⟨c, fs, O.locals c⟩, todo⟩ with holder := some i } := by
  refine ⟨hi.results, fun j => ?_, fun j => ?_, fun h => by simp at h, fun j x hx => ?_⟩
  · refine (hi.order j).trans ?_
    by_cases hj : j = i
    · subst hj; simp [State.setCaller, State.callsOf, hc]
    · simp [State.setCaller, State.callsOf, hj]
  · by_cases hj : j = i
    · subst hj; simp [State.setCaller]
    · have := hi.excl j
      simpa [State.setCaller, hj, hh, Ne.symm hj] using this
  · by_cases hj : j = i
    · subst hj
      simp only [State.setCaller, Function.update_self, Option.some.injEq] at hx
      subst hx
      exact ⟨[], hb, congrArg (·, O.locals c) (hi.free hh)⟩
    · have hnone : (s.callers j).inside = none := by simpa [hh] using hi.excl j
      simp [State.setCaller, hj, hnone] at hx

theorem serial_work (hi : O.Serial d progs s) {c : κ} {f : σ → ν → σ × ν} {fs : List (σ → ν → σ × ν)} {v : ν}
    {todo : List κ} (hc : s.callers i = ⟨some ⟨c, f :: fs, v⟩, todo⟩) :
    O.Serial d progs
      { s.setCaller i ⟨some ⟨c, fs, (f s.shared v).2⟩, todo⟩ with shared := (f s.shared v).1 } := by
  have hh : s.holder = some i := (hi.excl i).mp (by simp [hc])
  obtain ⟨made, hb, hmade⟩ := hi.under i ⟨c, f :: fs, v⟩ (by rw [hc])
  refine ⟨hi.results, fun j => ?_, fun j => ?_, fun h => by simp [State.setCaller, hh] at h, fun j x hx => ?_⟩
  · refine (hi.order j).trans ?_
    by_cases hj : j = i
    · subst hj; simp [State.setCaller, State.callsOf, hc]
    · simp [State.setCaller, State.callsOf, hj]
  · by_cases hj : j = i
    · subst hj; simp [State.setCaller, hh]
    · simpa [State.setCaller, hj] using hi.excl j
  · by_cases hj : j = i
    · subst hj
      simp only [State.setCaller, Function.update_self, Option.some.injEq] at hx
      subst hx
      refine ⟨made ++ [f], by simpa using hb, ?_⟩
      rw [runSteps_concat]
      show _ = f (runSteps made (O.after d s.calls, O.locals c)).1 (runSteps made (O.after d s.calls, O.locals c)).2
      rw [← hmade]
    · simp [State.setCaller, hj, hi.alone hh hj] at hx

theorem serial_release (hi : O.Serial d progs s) {c : κ} {v : ν} {todo : List κ}
    (hc : s.callers i = ⟨some ⟨c, [], v⟩, todo⟩) :
    O.Serial d progs
      { s.setCaller i ⟨none, todo⟩ with holder := none, served := s.served ++ [⟨i, c, v⟩] } := by
  have hh : s.holder = some i := (hi.excl i).mp (by simp [hc])
  obtain ⟨made, hb, hmade⟩ := hi.under i ⟨c, [], v⟩ (by rw [hc])
  -- all steps of the call are made: it has done what it does in one go
  have hw : O.whole (O.after d s.calls) c = (s.shared, v) := by
    rw [O.whole_of_some hb, List.append_nil]
    exact hmade.symm
  have hnone : ∀ j, ((Function.update s.callers i ⟨none, todo⟩) j).inside = none := by
    intro j
    by_cases hj : j = i
    · subst hj; simp
    · simpa [hj] using hi.alone hh hj
  refine ⟨?_, fun j => ?_, fun j => ?_, fun _ => ?_, fun j x hx => ?_⟩
  · simp [calls_served, O.results_concat, hw, hi.results]
  · rw [callsOf_served, hi.order j]
    by_cases hj : j = i
    · subst hj; simp [State.setCaller, hc]
    · simp [State.setCaller, hj, Ne.symm hj]
  · simp [State.setCaller, hnone]
  · rw [calls_served, O.after_concat, hw]
    rfl
  · simp only [State.setCaller, hnone] at hx
    cases hx

theorem serial_step (hi : O.Serial d progs s) (h : O.step s i = some s') : O.Serial d progs s' := by
  cases step_cases h with
  | pass c todo hc hb => exact serial_pass hi hc hb
  | acquire c todo fs hc hb hh => exact serial_acquire hi hc hb hh
  | work c f fs v todo hc => exact serial_work hi hc
  | release c v todo hc => exact serial_release hi hc

/-- **One by one.** In every run the calls take effect in the order in which
they are served. -/
theorem serial_exec {tr : List ι} (h : (O.monitor d progs).exec tr = some s) : O.Serial d progs s :=
  System.exec_induction (I := fun _ s => O.Serial d progs s) (serial_init O d progs)
    (fun _ _ _ _ hi hs => serial_step hi hs) h

/-- What a call that was served ended with: what it ends with after the calls
served before it. -/
theorem served_locals (hi : O.Serial d progs s) {before after : List (Served ι κ ν)} {r : Served ι κ ν}
    (h : s.served = before ++ r :: after) :
    before.map (·.locals) = O.results d (before.map (·.call)) ∧
      r.locals = (O.whole (O.after d (before.map (·.call))) r.call).2 := by
  have hsplit : ∀ (d : σ) (cs cs' : List κ),
      O.results d (cs ++ cs') = O.results d cs ++ O.results (O.after d cs) cs' := by
    intro d cs cs'
    induction cs generalizing d with
    | nil => rfl
    | cons c cs ih =>
      simp only [List.cons_append, Object.results, ih]
      rfl
  have hlen : ∀ (d : σ) (cs : List κ), (O.results d cs).length = cs.length := by
    intro d cs
    induction cs generalizing d with
    | nil => rfl
    | cons c cs ih => simp only [Object.results, List.length_cons, ih]
  have hres := hi.results
  rw [State.calls, h, List.map_append, List.map_append, hsplit] at hres
  obtain ⟨h₁, h₂⟩ := List.append_inj hres (by simp [hlen])
  refine ⟨h₁, ?_⟩
  simp only [List.map_cons, Object.results, List.cons.injEq] at h₂
  exact h₂.1

/-! ## Complete runs -/

theorem callsOf_of_done (hi : O.Serial d progs s) (hd : s.done) (j : ι) : s.callsOf j = progs j := by
  rw [hi.order j, (hd j).1, (hd j).2]
  simp

theorem shared_of_done (hi : O.Serial d progs s) (hd : s.done) : s.shared = O.after d s.calls := by
  refine hi.free ?_
  cases hh : s.holder with
  | none => rfl
  | some i => simpa [(hd i).1] using (hi.excl i).mpr hh

/-- **No deadlock.** As long as some caller is not done, some caller can be
scheduled. -/
theorem never_stuck (hi : O.Serial d progs s) (hd : ¬ s.done) : ∃ i, (O.step s i).isSome = true := by
  cases hh : s.holder with
  | some i =>
    -- the holder is inside, and nothing keeps it from going on
    obtain ⟨⟨c, fs, v⟩, hx⟩ := Option.isSome_iff_exists.mp ((hi.excl i).mpr hh)
    refine ⟨i, ?_⟩
    unfold Object.step
    cases fs <;> simp [hx]
  | none =>
    have hnone : ∀ j, (s.callers j).inside = none := fun j => by simpa [hh] using hi.excl j
    obtain ⟨j, hj⟩ : ∃ j, (s.callers j).todo ≠ [] := by
      by_contra h
      simp only [not_exists, not_not] at h
      exact hd fun j => ⟨hnone j, h j⟩
    obtain ⟨c, todo, ht⟩ := List.exists_cons_of_ne_nil hj
    refine ⟨j, ?_⟩
    unfold Object.step
    cases hb : O.body c <;> simp [hnone j, ht, hb, hh]

end

/-! ## How many steps a caller takes -/

/-- The steps of a call: taking the mutex, its own, releasing it. -/
def Object.cost (O : Object σ κ ν) (c : κ) : Nat :=
  match O.body c with
  | none => 1
  | some fs => fs.length + 2

/-- The steps a caller has left. -/
def Object.left (O : Object σ κ ν) (c : Caller σ κ ν) : Nat :=
  (match c.inside with
    | none => 0
    | some x => x.rest.length + 1) + (c.todo.map O.cost).sum

theorem left_step {O : Object σ κ ν} {s s' : State ι σ κ ν} {i : ι} (h : O.step s i = some s') (j : ι) :
    O.left (s.callers j) = O.left (s'.callers j) + if i = j then 1 else 0 := by
  by_cases hj : i = j
  · subst hj
    cases step_cases h with
    | pass c todo hc hb =>
      simp [State.setCaller, hc, Object.left, Object.cost, hb, Nat.add_comm]
    | acquire c todo fs hc hb hh =>
      simp only [State.setCaller, hc, Object.left, Object.cost, hb, Function.update_self, List.map_cons,
        List.sum_cons, if_true]
      omega
    | work c f fs v todo hc =>
      simp only [State.setCaller, hc, Object.left, Function.update_self, List.length_cons, if_true]
      omega
    | release c v todo hc =>
      simp only [State.setCaller, hc, Object.left, Function.update_self, List.length_nil, if_true]
      omega
  · cases step_cases h <;> simp [State.setCaller, hj, Ne.symm hj]

/-- **Every run ends.** The steps taken and those the callers have left add
up to the steps of their calls. -/
theorem length_add_left [Fintype ι] {O : Object σ κ ν} {d : σ} {progs : ι → List κ} {tr : List ι}
    {s : State ι σ κ ν} (h : (O.monitor d progs).exec tr = some s) :
    tr.length + ∑ j, O.left (s.callers j) = ∑ j, ((progs j).map O.cost).sum := by
  refine System.exec_induction
    (I := fun tr s => tr.length + ∑ j, O.left (s.callers j) = ∑ j, ((progs j).map O.cost).sum) ?_ ?_ h
  · simp [Object.monitor, Object.left]
  · intro tr s i s' hi hs
    simp only [left_step hs, Finset.sum_add_distrib, Finset.sum_ite_eq, Finset.mem_univ, if_true] at hi
    rw [List.length_append, List.length_singleton, ← hi]
    omega

/-- **Every run can be completed.** -/
theorem completes [Fintype ι] {O : Object σ κ ν} {d : σ} {progs : ι → List κ} {tr : List ι}
    {s : State ι σ κ ν} (h : (O.monitor d progs).exec tr = some s) :
    ∃ tr' s', (O.monitor d progs).exec (tr ++ tr') = some s' ∧ s'.done := by
  -- each further step leaves the callers fewer steps
  induction hn : ∑ j, O.left (s.callers j) generalizing tr s with
  | zero =>
    by_cases hd : s.done
    · exact ⟨[], s, by simpa using h, hd⟩
    · obtain ⟨i, hi⟩ := never_stuck (serial_exec h) hd
      obtain ⟨s', hs'⟩ := Option.isSome_iff_exists.mp hi
      have hleft := Finset.sum_eq_zero_iff.mp hn i (Finset.mem_univ i)
      have := left_step hs' i
      simp [hleft] at this
  | succ n ih =>
    by_cases hd : s.done
    · exact ⟨[], s, by simpa using h, hd⟩
    · obtain ⟨i, hi⟩ := never_stuck (serial_exec h) hd
      obtain ⟨s', hs'⟩ := Option.isSome_iff_exists.mp hi
      have hstep : (O.monitor d progs).exec (tr ++ [i]) = some s' :=
        (System.exec_concat _ tr i s').mpr ⟨s, h, hs'⟩
      have hsum : ∑ j, O.left (s'.callers j) = n := by
        have h₁ := length_add_left h
        have h₂ := length_add_left hstep
        rw [List.length_append, List.length_singleton] at h₂
        omega
      obtain ⟨tr', s'', h'', hd''⟩ := ih hstep hsum
      exact ⟨i :: tr', s'', by simpa using h'', hd''⟩

/-! ## Callers in a list -/

theorem cost_callers (O : Object σ κ ν) (callers : List (List κ)) :
    ∑ i : Fin callers.length, ((callers.get i).map O.cost).sum = (callers.flatten.map O.cost).sum := by
  rw [List.map_flatten, List.sum_flatten, List.map_map, ← List.sum_ofFn, List.ofFn_eq_map]
  conv_rhs => rw [← List.map_get_finRange callers, List.map_map]
  rfl

/-- Once all callers are done, they were served in an interleaving of their
lists. -/
theorem served_interleaving {O : Object σ κ ν} {d : σ} {callers : List (List κ)}
    {s : State (Fin callers.length) σ κ ν}
    (hi : O.Serial d callers.get s) (hd : s.done) : Interleaving callers s.calls := by
  have h := interleaving_of_tagged (s.served.map fun r => (r.caller, r.call))
  have hcalls : ((s.served.map fun r => (r.caller, r.call)).map Prod.snd) = s.calls := by
    simp [State.calls]
  have hlists : (List.finRange callers.length).map (tagged (s.served.map fun r => (r.caller, r.call))) =
      callers := by
    conv_rhs => rw [← List.map_get_finRange callers]
    refine List.map_congr_left fun i _ => ?_
    rw [← callsOf_of_done hi hd i]
    simp [tagged, State.callsOf, List.filter_map, Function.comp_def]
  rwa [hcalls, hlists] at h

end SoapStab.Lib.Monitor
