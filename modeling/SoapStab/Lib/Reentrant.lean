import SoapStab.Lib.Traces
import Mathlib.Algebra.BigOperators.Fin
import Mathlib.Algebra.Order.BigOperators.Group.Finset
import Mathlib.Logic.Function.Basic

/-!
# Calls under a re-entrant mutex

A call takes the mutex, makes steps on the shared data and may make further
calls, which take the mutex again; the mutex counts how often its owner holds
it. A thread has a stack: the frame that runs, and for each call that waits
for an inner one what it does with the result. A trace is the list of threads
in the order in which they are scheduled, one step each time. Some calls
return without taking the mutex and touch nothing.

`Machine.Runs` is a call in one go, as if its thread were alone.

* `serial_exec`: in every run the calls take effect one after the other, each
  as in one go; no inner call ever waits.
* `never_stuck`: some thread can go on until all are done.
* `completes`: if the calls end in one go, every run can be completed.
-/
namespace SoapStab.Lib.Reentrant

open SoapStab.Lib.Traces

variable {ι σ κ φ ρ : Type}

/-- What a frame does next: a step on the data, a call, or its return. -/
inductive Next (σ κ φ ρ : Type) where
  | go (d : σ) (f : φ)
  | call (c : κ) (k : ρ → φ)
  | ret (d : σ) (r : ρ)

/-- The data after it. -/
def Next.data (d : σ) : Next σ κ φ ρ → σ
  | .go d' _ => d'
  | .call _ _ => d
  | .ret d' _ => d'

structure Machine (σ κ φ ρ : Type) where
  locks : κ → Bool
  start : κ → φ
  next : φ → σ → Next σ κ φ ρ

/-! ## A call in one go -/

inductive Machine.Runs (M : Machine σ κ φ ρ) : φ → σ → σ → ρ → Prop
  | ret {f d d' r} (h : M.next f d = .ret d' r) : M.Runs f d d' r
  | go {f f₁ d d₁ d' r} (h : M.next f d = .go d₁ f₁) (rest : M.Runs f₁ d₁ d' r) : M.Runs f d d' r
  | call {f c k d d₁ r₁ d' r} (h : M.next f d = .call c k) (inner : M.Runs (M.start c) d d₁ r₁)
    (rest : M.Runs (k r₁) d₁ d' r) : M.Runs f d d' r

/-- The frame ends, and so do the calls that wait for it, the innermost first. -/
def Machine.Finishes (M : Machine σ κ φ ρ) : φ → List (ρ → φ) → σ → σ → ρ → Prop
  | f, [], d, d', r => M.Runs f d d' r
  | f, k :: ks, d, d', r => ∃ d₁ r₁, M.Runs f d d₁ r₁ ∧ M.Finishes (k r₁) ks d₁ d' r

section
variable {M : Machine σ κ φ ρ} {f f₁ : φ} {ks : List (ρ → φ)} {d d₁ d' : σ} {r r₁ : ρ} {c : κ} {k : ρ → φ}

theorem runs_ret_iff (h : M.next f d = .ret d₁ r₁) : M.Runs f d d' r ↔ d' = d₁ ∧ r = r₁ := by
  constructor
  · intro hruns
    cases hruns with
    | ret hr =>
      rw [h] at hr
      cases hr
      exact ⟨rfl, rfl⟩
    | go hg _ => simp [h] at hg
    | call hc _ _ => simp [h] at hc
  · intro ⟨hd, hr⟩
    subst hd hr
    exact .ret h

theorem runs_go_iff (h : M.next f d = .go d₁ f₁) : M.Runs f d d' r ↔ M.Runs f₁ d₁ d' r := by
  refine ⟨fun hruns => ?_, .go h⟩
  cases hruns with
  | ret hr => simp [h] at hr
  | go hg rest =>
    rw [h] at hg
    cases hg
    exact rest
  | call hc _ _ => simp [h] at hc

theorem runs_call_iff (h : M.next f d = .call c k) :
    M.Runs f d d' r ↔ ∃ d₁ r₁, M.Runs (M.start c) d d₁ r₁ ∧ M.Runs (k r₁) d₁ d' r := by
  refine ⟨fun hruns => ?_, fun ⟨d₁, r₁, inner, rest⟩ => .call h inner rest⟩
  cases hruns with
  | ret hr => simp [h] at hr
  | go hg _ => simp [h] at hg
  | call hc inner rest =>
    rw [h] at hc
    cases hc
    exact ⟨_, _, inner, rest⟩

theorem finishes_go (h : M.next f d = .go d₁ f₁) : M.Finishes f ks d d' r ↔ M.Finishes f₁ ks d₁ d' r := by
  cases ks with
  | nil => exact runs_go_iff h
  | cons k ks => simp only [Machine.Finishes, runs_go_iff h]

theorem finishes_call (h : M.next f d = .call c k) :
    M.Finishes f ks d d' r ↔ M.Finishes (M.start c) (k :: ks) d d' r := by
  cases ks with
  | nil => exact runs_call_iff h
  | cons k' ks =>
    simp only [Machine.Finishes, runs_call_iff h]
    constructor
    · intro ⟨d₂, r₂, ⟨d₁, r₁, inner, hk⟩, rest⟩
      exact ⟨d₁, r₁, inner, d₂, r₂, hk, rest⟩
    · intro ⟨d₁, r₁, inner, d₂, r₂, hk, rest⟩
      exact ⟨d₂, r₂, ⟨d₁, r₁, inner, hk⟩, rest⟩

theorem finishes_ret (h : M.next f d = .ret d₁ r₁) :
    M.Finishes f (k :: ks) d d' r ↔ M.Finishes (k r₁) ks d₁ d' r := by
  simp only [Machine.Finishes, runs_ret_iff h]
  constructor
  · intro ⟨_, _, ⟨hd, hr⟩, rest⟩
    subst hd hr
    exact rest
  · intro rest
    exact ⟨d₁, r₁, ⟨rfl, rfl⟩, rest⟩

end

/-- Calls in one go, one after the other, with their results. -/
inductive Machine.Serves (M : Machine σ κ φ ρ) (d : σ) : List (κ × ρ) → σ → Prop
  | nil : M.Serves d [] d
  | concat {cs c r d₁ d₂} (h : M.Serves d cs d₁) (hc : M.Runs (M.start c) d₁ d₂ r) :
    M.Serves d (cs ++ [(c, r)]) d₂

/-! ## The threads -/

/-- An outermost call under way: the frame that runs, and what waits for it. -/
structure Running (κ φ ρ : Type) where
  call : κ
  frame : φ
  waiting : List (ρ → φ)

structure Thread (κ φ ρ : Type) where
  running : Option (Running κ φ ρ)
  todo : List κ

/-- A call that has returned. -/
structure Returned (ι κ ρ : Type) where
  thread : ι
  call : κ
  result : ρ

structure State (ι σ κ φ ρ : Type) where
  shared : σ
  owner : Option ι
  depth : Nat
  threads : ι → Thread κ φ ρ
  returned : List (Returned ι κ ρ)

/-- The calls returned, with their results. -/
def State.results (s : State ι σ κ φ ρ) : List (κ × ρ) := s.returned.map fun x => (x.call, x.result)

variable [DecidableEq ι]

/-- Those of one thread. -/
def State.callsOf (s : State ι σ κ φ ρ) (i : ι) : List κ := (s.returned.filter (·.thread = i)).map (·.call)

def State.setThread (s : State ι σ κ φ ρ) (i : ι) (t : Thread κ φ ρ) : State ι σ κ φ ρ :=
  { s with threads := Function.update s.threads i t }

def State.done (s : State ι σ κ φ ρ) : Prop := ∀ i, (s.threads i).running = none ∧ (s.threads i).todo = []

/-- The owner may take the mutex again. -/
def State.lock (s : State ι σ κ φ ρ) (i : ι) : Option (State ι σ κ φ ρ) :=
  if s.owner = none ∨ s.owner = some i then some { s with owner := some i, depth := s.depth + 1 } else none

omit [DecidableEq ι] in
def State.unlock (s : State ι σ κ φ ρ) : State ι σ κ φ ρ :=
  { s with depth := s.depth - 1, owner := if s.depth = 1 then none else s.owner }

/-- The frame of thread `i` returns `r` to the first that waits, or to the
caller of the outermost call `c`. -/
def State.back (s : State ι σ κ φ ρ) (i : ι) (c : κ) (todo : List κ) (d : σ) (r : ρ) :
    List (ρ → φ) → State ι σ κ φ ρ
  | [] => { s.unlock.setThread i ⟨none, todo⟩ with shared := d, returned := s.returned ++ [⟨i, c, r⟩] }
  | k :: ks => { s.unlock.setThread i ⟨some ⟨c, k r, ks⟩, todo⟩ with shared := d }

/-- Thread `i` is scheduled. -/
def Machine.step (M : Machine σ κ φ ρ) (s : State ι σ κ φ ρ) (i : ι) : Option (State ι σ κ φ ρ) :=
  match s.threads i with
  | ⟨none, []⟩ => none
  | ⟨none, c :: todo⟩ =>
    if M.locks c then (s.lock i).map (·.setThread i ⟨some ⟨c, M.start c, []⟩, todo⟩)
    else some (s.setThread i ⟨none, todo⟩)
  | ⟨some ⟨c, f, ks⟩, todo⟩ =>
    match M.next f s.shared with
    | .go d f => some { s.setThread i ⟨some ⟨c, f, ks⟩, todo⟩ with shared := d }
    | .call c' k => (s.lock i).map (·.setThread i ⟨some ⟨c, M.start c', k :: ks⟩, todo⟩)
    | .ret d r => some (s.back i c todo d r ks)

/-- Threads with the lists `progs` on the data `d`. -/
def Machine.threads (M : Machine σ κ φ ρ) (d : σ) (progs : ι → List κ) : System (State ι σ κ φ ρ) ι where
  init := ⟨d, none, 0, fun i => ⟨none, progs i⟩, []⟩
  step := M.step

/-- What one step of thread `i` does. -/
inductive Machine.Moves (M : Machine σ κ φ ρ) (s : State ι σ κ φ ρ) (i : ι) : State ι σ κ φ ρ → Prop
  /-- A call that does not take the mutex returns. -/
  | pass (c : κ) (todo : List κ) (ht : s.threads i = ⟨none, c :: todo⟩) (hl : M.locks c = false) :
      M.Moves s i (s.setThread i ⟨none, todo⟩)
  | acquire (c : κ) (todo : List κ) (ht : s.threads i = ⟨none, c :: todo⟩) (hl : M.locks c = true)
      (ho : s.owner = none ∨ s.owner = some i) :
      M.Moves s i { s.setThread i ⟨some ⟨c, M.start c, []⟩, todo⟩ with owner := some i, depth := s.depth + 1 }
  | go (c : κ) (f f₁ : φ) (ks : List (ρ → φ)) (todo : List κ) (d : σ)
      (ht : s.threads i = ⟨some ⟨c, f, ks⟩, todo⟩) (hn : M.next f s.shared = .go d f₁) :
      M.Moves s i { s.setThread i ⟨some ⟨c, f₁, ks⟩, todo⟩ with shared := d }
  | call (c c' : κ) (f : φ) (k : ρ → φ) (ks : List (ρ → φ)) (todo : List κ)
      (ht : s.threads i = ⟨some ⟨c, f, ks⟩, todo⟩) (hn : M.next f s.shared = .call c' k)
      (ho : s.owner = none ∨ s.owner = some i) :
      M.Moves s i
        { s.setThread i ⟨some ⟨c, M.start c', k :: ks⟩, todo⟩ with owner := some i, depth := s.depth + 1 }
  | ret (c : κ) (f : φ) (ks : List (ρ → φ)) (todo : List κ) (d : σ) (r : ρ)
      (ht : s.threads i = ⟨some ⟨c, f, ks⟩, todo⟩) (hn : M.next f s.shared = .ret d r) :
      M.Moves s i (s.back i c todo d r ks)

theorem lock_eq_some {s s' : State ι σ κ φ ρ} {i : ι} (h : s.lock i = some s') :
    (s.owner = none ∨ s.owner = some i) ∧ s' = { s with owner := some i, depth := s.depth + 1 } := by
  unfold State.lock at h
  split at h
  · next ho => exact ⟨ho, (Option.some.inj h).symm⟩
  · cases h

theorem step_cases {M : Machine σ κ φ ρ} {s s' : State ι σ κ φ ρ} {i : ι} (h : M.step s i = some s') :
    M.Moves s i s' := by
  unfold Machine.step at h
  obtain ⟨running, todo, ht⟩ : ∃ running todo, s.threads i = ⟨running, todo⟩ := ⟨_, _, rfl⟩
  rw [ht] at h
  rcases running with _ | ⟨c, f, ks⟩
  · rcases todo with _ | ⟨c, todo⟩
    · cases h
    · cases hl : M.locks c with
      | false =>
        simp only [hl, Bool.false_eq_true, if_false, Option.some.injEq] at h
        exact h ▸ .pass c todo ht hl
      | true =>
        simp only [hl, if_true] at h
        obtain ⟨s₁, h₁, rfl⟩ := Option.map_eq_some_iff.mp h
        obtain ⟨ho, rfl⟩ := lock_eq_some h₁
        exact .acquire c todo ht hl ho
  · cases hn : M.next f s.shared with
    | go d f₁ =>
      simp only [hn, Option.some.injEq] at h
      exact h ▸ .go c f f₁ ks todo d ht hn
    | call c' k =>
      simp only [hn] at h
      obtain ⟨s₁, h₁, rfl⟩ := Option.map_eq_some_iff.mp h
      obtain ⟨ho, rfl⟩ := lock_eq_some h₁
      exact .call c c' f k ks todo ht hn ho
    | ret d r =>
      simp only [hn, Option.some.injEq] at h
      exact h ▸ .ret c f ks todo d r ht hn

/-- What every step of a frame keeps of the data is kept by every schedule. -/
theorem data_invariant {M : Machine σ κ φ ρ} {I : σ → Prop} (hI : ∀ f d, I d → I ((M.next f d).data d))
    {rest : List ι} {s s' : State ι σ κ φ ρ} (h : rest.foldlM M.step s = some s') (hs : I s.shared) :
    I s'.shared := by
  induction rest generalizing s with
  | nil =>
    cases h
    exact hs
  | cons i rest ih =>
    rw [List.foldlM_cons, Option.bind_eq_bind, Option.bind_eq_some_iff] at h
    obtain ⟨s₁, h₁, hrest⟩ := h
    refine ih hrest ?_
    cases step_cases h₁ with
    | pass | acquire | call => exact hs
    | go c f f₁ ks todo d ht hn =>
      have hd := hI f s.shared hs
      rwa [hn] at hd
    | ret c f ks todo d r ht hn =>
      have hd := hI f s.shared hs
      rw [hn] at hd
      cases ks <;> exact hd

/-! ## The calls take effect one by one -/

/-- The calls returned are calls done one by one, and the call under way ends
as it would alone from there. -/
structure Machine.Serial (M : Machine σ κ φ ρ) (d₀ : σ) (progs : ι → List κ) (s : State ι σ κ φ ρ) :
    Prop where
  order : ∀ i, (progs i).filter M.locks =
    s.callsOf i ++ ((s.threads i).running.map (·.call)).toList ++ (s.threads i).todo.filter M.locks
  excl : ∀ i, (s.threads i).running.isSome = true ↔ s.owner = some i
  nested : ∀ i x, (s.threads i).running = some x → s.depth = x.waiting.length + 1
  free : s.owner = none → s.depth = 0 ∧ M.Serves d₀ s.results s.shared
  under : ∀ i x, (s.threads i).running = some x → M.locks x.call = true ∧
    ∃ d, M.Serves d₀ s.results d ∧
      ∀ d' r, M.Finishes x.frame x.waiting s.shared d' r ↔ M.Runs (M.start x.call) d d' r

theorem serial_init (M : Machine σ κ φ ρ) (d₀ : σ) (progs : ι → List κ) :
    M.Serial d₀ progs (M.threads d₀ progs).init where
  order _ := rfl
  excl i := by simp [Machine.threads]
  nested i x h := by simp [Machine.threads] at h
  free _ := ⟨rfl, .nil⟩
  under i x h := by simp [Machine.threads] at h

section
variable {M : Machine σ κ φ ρ} {d₀ : σ} {progs : ι → List κ} {s s' : State ι σ κ φ ρ} {i : ι}

/-- Whoever is not `i` has no call under way while `i` owns the mutex. -/
theorem Machine.Serial.alone (hi : M.Serial d₀ progs s) (ho : s.owner = some i) {j : ι} (hj : j ≠ i) :
    (s.threads j).running = none := by
  have : ¬ (s.threads j).running.isSome = true := fun h =>
    hj (Option.some.inj (((hi.excl j).mp h).symm.trans ho))
  simpa using this

theorem Machine.Serial.owner_of_running (hi : M.Serial d₀ progs s) {x : Running κ φ ρ}
    (hx : (s.threads i).running = some x) : s.owner = some i :=
  (hi.excl i).mp (by rw [hx]; rfl)

/-- A thread that starts a call that takes the mutex does not own it. -/
theorem Machine.Serial.free_of_idle (hi : M.Serial d₀ progs s) (hx : (s.threads i).running = none)
    (ho : s.owner = none ∨ s.owner = some i) : s.owner = none := by
  rcases ho with ho | ho
  · exact ho
  · have := (hi.excl i).mpr ho
    rw [hx] at this
    cases this

theorem serial_pass (hi : M.Serial d₀ progs s) {c : κ} {todo : List κ} (ht : s.threads i = ⟨none, c :: todo⟩)
    (hl : M.locks c = false) : M.Serial d₀ progs (s.setThread i ⟨none, todo⟩) := by
  have hrun : ∀ j, ((Function.update s.threads i ⟨none, todo⟩) j).running = (s.threads j).running := by
    intro j
    by_cases hj : j = i
    · subst hj; simp [ht]
    · simp [hj]
  refine ⟨fun j => ?_, fun j => ?_, fun j x hx => ?_, hi.free, fun j x hx => ?_⟩
  · refine (hi.order j).trans ?_
    by_cases hj : j = i
    · subst hj; simp [State.setThread, State.callsOf, ht, hl]
    · simp [State.setThread, State.callsOf, hj]
  · simpa only [State.setThread, hrun] using hi.excl j
  · exact hi.nested j x (hrun j ▸ hx)
  · exact hi.under j x (hrun j ▸ hx)

theorem serial_acquire (hi : M.Serial d₀ progs s) {c : κ} {todo : List κ}
    (ht : s.threads i = ⟨none, c :: todo⟩) (hl : M.locks c = true) (ho : s.owner = none) :
    M.Serial d₀ progs
      { s.setThread i ⟨some ⟨c, M.start c, []⟩, todo⟩ with owner := some i, depth := s.depth + 1 } := by
  have hnone : ∀ j, j ≠ i → (s.threads j).running = none := fun j _ => by simpa [ho] using hi.excl j
  refine ⟨fun j => ?_, fun j => ?_, fun j x hx => ?_, fun h => by simp at h, fun j x hx => ?_⟩
  · refine (hi.order j).trans ?_
    by_cases hj : j = i
    · subst hj; simp [State.setThread, State.callsOf, ht, hl]
    · simp [State.setThread, State.callsOf, hj]
  · by_cases hj : j = i
    · subst hj; simp [State.setThread]
    · simp [State.setThread, hj, hnone j hj, Ne.symm hj]
  · by_cases hj : j = i
    · subst hj
      simp only [State.setThread, Function.update_self, Option.some.injEq] at hx
      subst hx
      exact congrArg (· + 1) (hi.free ho).1
    · simp [State.setThread, hj, hnone j hj] at hx
  · by_cases hj : j = i
    · subst hj
      simp only [State.setThread, Function.update_self, Option.some.injEq] at hx
      subst hx
      exact ⟨hl, s.shared, (hi.free ho).2, fun _ _ => Iff.rfl⟩
    · simp [State.setThread, hj, hnone j hj] at hx

/-- A step of the call under way that does not return it. -/
theorem serial_inside (hi : M.Serial d₀ progs s) {c : κ} {f f' : φ} {ks ks' : List (ρ → φ)} {todo : List κ}
    (ht : s.threads i = ⟨some ⟨c, f, ks⟩, todo⟩) {d : σ}
    (hf : ∀ d' r, M.Finishes f ks s.shared d' r ↔ M.Finishes f' ks' d d' r) :
    M.Serial d₀ progs
      { s.setThread i ⟨some ⟨c, f', ks'⟩, todo⟩ with
        shared := d, owner := some i, depth := ks'.length + 1 } := by
  have ho : s.owner = some i := hi.owner_of_running (by rw [ht])
  obtain ⟨hl, d₁, hserved, hends⟩ := hi.under i ⟨c, f, ks⟩ (by rw [ht])
  refine ⟨fun j => ?_, fun j => ?_, fun j x hx => ?_, fun h => by simp at h, fun j x hx => ?_⟩
  · refine (hi.order j).trans ?_
    by_cases hj : j = i
    · subst hj; simp [State.setThread, State.callsOf, ht]
    · simp [State.setThread, State.callsOf, hj]
  · by_cases hj : j = i
    · subst hj; simp [State.setThread]
    · simp [State.setThread, hj, hi.alone ho hj, Ne.symm hj]
  · by_cases hj : j = i
    · subst hj
      simp only [State.setThread, Function.update_self, Option.some.injEq] at hx
      subst hx
      rfl
    · simp [State.setThread, hj, hi.alone ho hj] at hx
  · by_cases hj : j = i
    · subst hj
      simp only [State.setThread, Function.update_self, Option.some.injEq] at hx
      subst hx
      exact ⟨hl, d₁, hserved, fun d' r => (hf d' r).symm.trans (hends d' r)⟩
    · simp [State.setThread, hj, hi.alone ho hj] at hx

theorem callsOf_concat (s : State ι σ κ φ ρ) (x : Returned ι κ ρ) (j : ι) (d : σ) (o : Option ι) (n : Nat)
    (ts : ι → Thread κ φ ρ) : State.callsOf ⟨d, o, n, ts, s.returned ++ [x]⟩ j =
      s.callsOf j ++ if x.thread = j then [x.call] else [] := by
  simp only [State.callsOf, List.filter_append, List.map_append]
  by_cases hj : x.thread = j
  · simp [hj]
  · simp [hj]

/-- The outermost call returns, and the mutex is free. -/
theorem serial_returned (hi : M.Serial d₀ progs s) {c : κ} {f : φ} {todo : List κ} {d : σ} {r : ρ}
    (ht : s.threads i = ⟨some ⟨c, f, []⟩, todo⟩) (hn : M.next f s.shared = .ret d r) :
    M.Serial d₀ progs (s.back i c todo d r []) := by
  have ho : s.owner = some i := hi.owner_of_running (by rw [ht])
  have hdepth : s.depth = 1 := hi.nested i ⟨c, f, []⟩ (by rw [ht])
  obtain ⟨hl, d₁, hserved, hends⟩ := hi.under i ⟨c, f, []⟩ (by rw [ht])
  have hnone : ∀ j, ((Function.update s.threads i ⟨none, todo⟩) j).running = none := by
    intro j
    by_cases hj : j = i
    · subst hj; simp
    · simpa [hj] using hi.alone ho hj
  refine ⟨fun j => ?_, fun j => ?_, fun j x hx => ?_, fun _ => ⟨?_, ?_⟩, fun j x hx => ?_⟩
  · rw [State.back, callsOf_concat, hi.order j]
    by_cases hj : j = i
    · subst hj; simp [State.setThread, State.unlock, ht]
    · simp [State.setThread, State.unlock, hj, Ne.symm hj]
  · simp [State.back, State.setThread, State.unlock, hnone, hdepth]
  · simp only [State.back, State.setThread, State.unlock, hnone] at hx
    cases hx
  · simp [State.back, State.setThread, State.unlock, hdepth]
  · have hrun : M.Runs (M.start c) d₁ d r := (hends d r).mp (.ret hn)
    have hconcat := hserved.concat hrun
    simpa [State.back, State.results] using hconcat
  · simp only [State.back, State.setThread, State.unlock, hnone] at hx
    cases hx

theorem serial_step (hi : M.Serial d₀ progs s) (h : M.step s i = some s') : M.Serial d₀ progs s' := by
  have howner : ∀ {x : Running κ φ ρ} {todo : List κ}, s.threads i = ⟨some x, todo⟩ →
      s.owner = some i ∧ s.depth = x.waiting.length + 1 := fun ht =>
    ⟨hi.owner_of_running (by rw [ht]), hi.nested i _ (by rw [ht])⟩
  cases step_cases h with
  | pass c todo ht hl => exact serial_pass hi ht hl
  | acquire c todo ht hl ho => exact serial_acquire hi ht hl (hi.free_of_idle (by rw [ht]) ho)
  | go c f f₁ ks todo d ht hn =>
    obtain ⟨ho, hdepth⟩ := howner ht
    have hgo : ∀ d' r, M.Finishes f ks s.shared d' r ↔ M.Finishes f₁ ks d d' r := fun _ _ => finishes_go hn
    have := serial_inside hi ht hgo
    rwa [← ho, ← hdepth] at this
  | call c c' f k ks todo ht hn ho =>
    obtain ⟨-, hdepth⟩ := howner ht
    have hcall : ∀ d' r, M.Finishes f ks s.shared d' r ↔ M.Finishes (M.start c') (k :: ks) s.shared d' r :=
      fun _ _ => finishes_call hn
    have := serial_inside hi ht hcall
    rwa [List.length_cons, ← hdepth] at this
  | ret c f ks todo d r ht hn =>
    obtain ⟨ho, hdepth⟩ := howner ht
    cases ks with
    | nil => exact serial_returned hi ht hn
    | cons k ks =>
      have hret : ∀ d' r', M.Finishes f (k :: ks) s.shared d' r' ↔ M.Finishes (k r) ks d d' r' :=
        fun _ _ => finishes_ret hn
      have := serial_inside hi ht hret
      have hback : s.back i c todo d r (k :: ks) =
          { s.setThread i ⟨some ⟨c, k r, ks⟩, todo⟩ with
            shared := d, owner := some i, depth := ks.length + 1 } := by
        simp [State.back, State.unlock, State.setThread, hdepth, ho]
      rwa [hback]

/-- **One by one.** In every run the calls take effect in the order in which
they return. -/
theorem serial_exec {tr : List ι} (h : (M.threads d₀ progs).exec tr = some s) : M.Serial d₀ progs s :=
  System.exec_induction (I := fun _ s => M.Serial d₀ progs s) (serial_init M d₀ progs)
    (fun _ _ _ _ hi hs => serial_step hi hs) h

/-! ## Nobody waits for ever -/

/-- The owner of the mutex can go on: no inner call waits. -/
theorem owner_steps (hi : M.Serial d₀ progs s) (ho : s.owner = some i) : (M.step s i).isSome = true := by
  obtain ⟨x, hx⟩ := Option.isSome_iff_exists.mp ((hi.excl i).mpr ho)
  have ht : s.threads i = ⟨some x, (s.threads i).todo⟩ := by rw [← hx]
  unfold Machine.step
  rw [ht]
  cases hn : M.next x.frame s.shared <;> simp [hn, State.lock, ho]

/-- **Never stuck.** -/
theorem never_stuck (hi : M.Serial d₀ progs s) (hd : ¬ s.done) : ∃ i, (M.step s i).isSome = true := by
  cases ho : s.owner with
  | some i => exact ⟨i, owner_steps hi ho⟩
  | none =>
    have hnone : ∀ j, (s.threads j).running = none := fun j => by simpa [ho] using hi.excl j
    obtain ⟨j, hj⟩ : ∃ j, (s.threads j).todo ≠ [] := by
      by_contra h
      push Not at h
      exact hd fun j => ⟨hnone j, h j⟩
    obtain ⟨c, todo, ht⟩ := List.exists_cons_of_ne_nil hj
    have ht' : s.threads j = ⟨none, c :: todo⟩ := by rw [← ht, ← hnone j]
    refine ⟨j, ?_⟩
    unfold Machine.step
    rw [ht']
    cases hl : M.locks c <;> simp [hl, State.lock, ho]

end

/-! ## Runs that can be completed -/

section
variable {M : Machine σ κ φ ρ} {i : ι}

/-- A frame that ends in one go does so when its thread is scheduled often
enough. -/
theorem runs_back {f : φ} {d d' : σ} {r : ρ} (h : M.Runs f d d' r) (c : κ) (todo : List κ) :
    ∀ (s : State ι σ κ φ ρ) (ks : List (ρ → φ)), s.threads i = ⟨some ⟨c, f, ks⟩, todo⟩ → s.shared = d →
      s.owner = some i → s.depth = ks.length + 1 →
        ∃ n, (List.replicate n i).foldlM M.step s = some (s.back i c todo d' r ks) := by
  induction h with
  | @ret f d d' r h =>
    intro s ks ht hs ho hdepth
    refine ⟨1, ?_⟩
    have hstep : M.step s i = some (s.back i c todo d' r ks) := by
      simp only [Machine.step, ht, hs, h]
    simp [hstep]
  | @go f f₁ d d₁ d' r h rest ih =>
    intro s ks ht hs ho hdepth
    obtain ⟨n, hn⟩ := ih { s.setThread i ⟨some ⟨c, f₁, ks⟩, todo⟩ with shared := d₁ } ks
      (by simp [State.setThread]) rfl ho hdepth
    refine ⟨n + 1, ?_⟩
    have hstep : M.step s i = some { s.setThread i ⟨some ⟨c, f₁, ks⟩, todo⟩ with shared := d₁ } := by
      simp only [Machine.step, ht, hs, h]
    rw [List.replicate_succ, List.foldlM_cons, hstep, Option.bind_eq_bind, Option.bind_some, hn]
    cases ks <;> simp [State.back, State.setThread, State.unlock, ho, hdepth]
  | @call f c' k d d₁ r₁ d' r h inner rest ih₁ ih₂ =>
    intro s ks ht hs ho hdepth
    -- the mutex is taken once more, and given back once by the inner call
    let s₁ : State ι σ κ φ ρ :=
      { s.setThread i ⟨some ⟨c, M.start c', k :: ks⟩, todo⟩ with owner := some i, depth := s.depth + 1 }
    have hstep : M.step s i = some s₁ := by
      simp [Machine.step, ht, hs, h, State.lock, ho, s₁, State.setThread]
    obtain ⟨n₁, h₁⟩ := ih₁ s₁ (k :: ks) (by simp [s₁, State.setThread]) hs rfl (by simp [s₁, hdepth])
    obtain ⟨n₂, h₂⟩ := ih₂ (s₁.back i c todo d₁ r₁ (k :: ks)) ks (by simp [State.back, State.setThread]) rfl
      (by simp [State.back, State.setThread, State.unlock, s₁, hdepth])
      (by simp [State.back, State.setThread, State.unlock, s₁, hdepth])
    refine ⟨n₁ + n₂ + 1, ?_⟩
    rw [List.replicate_succ, List.foldlM_cons, hstep, Option.bind_eq_bind, Option.bind_some,
      List.replicate_add, List.foldlM_append, h₁, Option.bind_eq_bind, Option.bind_some, h₂]
    cases ks <;> simp [State.back, State.setThread, State.unlock, s₁, ho, hdepth]

/-- A call under way that ends in one go returns when its thread is scheduled
often enough. -/
theorem finishes_returns {d' : σ} {r : ρ} {c : κ} {todo : List κ} {ks : List (ρ → φ)} :
    ∀ {s : State ι σ κ φ ρ} {f : φ}, s.threads i = ⟨some ⟨c, f, ks⟩, todo⟩ → s.owner = some i →
      s.depth = ks.length + 1 → M.Finishes f ks s.shared d' r →
        ∃ n s', (List.replicate n i).foldlM M.step s = some s' ∧
          s'.threads = Function.update s.threads i ⟨none, todo⟩ := by
  induction ks with
  | nil =>
    intro s f ht ho hdepth hf
    obtain ⟨n, hn⟩ := runs_back hf c todo s [] ht rfl ho hdepth
    exact ⟨n, _, hn, rfl⟩
  | cons k ks ih =>
    intro s f ht ho hdepth ⟨d₁, r₁, hrun, hrest⟩
    obtain ⟨n₁, h₁⟩ := runs_back hrun c todo s (k :: ks) ht rfl ho hdepth
    obtain ⟨n₂, s', h₂, hs'⟩ := ih (s := s.back i c todo d₁ r₁ (k :: ks))
      (by simp [State.back, State.setThread])
      (by simp [State.back, State.setThread, State.unlock, ho, hdepth])
      (by simp [State.back, State.setThread, State.unlock, hdepth]) hrest
    refine ⟨n₁ + n₂, s', ?_, ?_⟩
    · rw [List.replicate_add, List.foldlM_append, h₁, Option.bind_eq_bind, Option.bind_some, h₂]
    · rw [hs']
      simp [State.back, State.setThread, State.unlock]

/-- The calls returned and the one under way are calls of the threads. -/
theorem Machine.Serial.mem {d₀ : σ} {progs : ι → List κ} {s : State ι σ κ φ ρ} (hi : M.Serial d₀ progs s) :
    (∀ x ∈ s.results, ∃ j, x.1 ∈ progs j) ∧
      ∀ j x, (s.threads j).running = some x → x.call ∈ progs j := by
  have hmem : ∀ j c, c ∈ (progs j).filter M.locks → c ∈ progs j := fun j c hc => List.mem_of_mem_filter hc
  refine ⟨fun x hx => ?_, fun j x hx => hmem j x.call ?_⟩
  · obtain ⟨y, hy, rfl⟩ := List.mem_map.mp hx
    refine ⟨y.thread, hmem y.thread y.call ?_⟩
    rw [hi.order y.thread, List.append_assoc]
    exact List.mem_append_left _ (List.mem_map.mpr ⟨y, List.mem_filter.mpr ⟨hy, by simp⟩, rfl⟩)
  · rw [hi.order j, hx]
    simp

/-- The calls a thread has not returned from. -/
def Thread.left (t : Thread κ φ ρ) : Nat := t.todo.length + if t.running.isSome then 1 else 0

theorem sum_left_update [Fintype ι] (ts : ι → Thread κ φ ρ) (i : ι) (t : Thread κ φ ρ)
    (h : t.left < (ts i).left) : ∑ j, (Function.update ts i t j).left < ∑ j, (ts j).left := by
  refine Finset.sum_lt_sum (fun j _ => ?_) ⟨i, Finset.mem_univ i, by simpa using h⟩
  by_cases hj : j = i
  · subst hj; simpa using h.le
  · simp [hj]

/-- **Every run can be completed**, where every call of the threads ends in
one go after any of their calls. -/
theorem completes [Fintype ι] {d₀ : σ} {progs : ι → List κ}
    (hends : ∀ cs d, M.Serves d₀ cs d → (∀ x ∈ cs, ∃ i, x.1 ∈ progs i) → ∀ i, ∀ c ∈ progs i,
      M.locks c = true → ∃ d' r, M.Runs (M.start c) d d' r)
    {tr : List ι} {s : State ι σ κ φ ρ} (h : (M.threads d₀ progs).exec tr = some s) :
    ∃ tr' s', (M.threads d₀ progs).exec (tr ++ tr') = some s' ∧ s'.done := by
  -- each round returns one more call
  induction hm : ∑ j, (s.threads j).left using Nat.strong_induction_on generalizing tr s with
  | _ m ih =>
    have hi := serial_exec h
    have hround : ∀ (rest : List ι) (s' : State ι σ κ φ ρ) (j : ι) (t : Thread κ φ ρ),
        rest.foldlM M.step s = some s' → s'.threads = Function.update s.threads j t →
          t.left < (s.threads j).left →
            ∃ tr' s'', (M.threads d₀ progs).exec (tr ++ tr') = some s'' ∧ s''.done := by
      intro rest s' j t hrest hs' hlt
      have hexec : (M.threads d₀ progs).exec (tr ++ rest) = some s' := (System.exec_append h rest).trans hrest
      have hless : ∑ j, (s'.threads j).left < m := by
        rw [hs', ← hm]
        exact sum_left_update s.threads j t hlt
      obtain ⟨tr', s'', hexec', hd⟩ := ih _ hless hexec rfl
      exact ⟨rest ++ tr', s'', by rwa [← List.append_assoc], hd⟩
    cases ho : s.owner with
    | some i =>
      obtain ⟨⟨c, f, ks⟩, hx⟩ := Option.isSome_iff_exists.mp ((hi.excl i).mpr ho)
      have ht : s.threads i = ⟨some ⟨c, f, ks⟩, (s.threads i).todo⟩ := by rw [← hx]
      obtain ⟨hl, d, hserved, hfinishes⟩ := hi.under i _ hx
      obtain ⟨d', r, hrun⟩ := hends s.results d hserved hi.mem.1 i c (hi.mem.2 i _ hx) hl
      obtain ⟨n, s', hn, hs'⟩ := finishes_returns ht ho (hi.nested i _ hx) ((hfinishes d' r).mpr hrun)
      exact hround _ s' i _ hn hs' (by simp [Thread.left, hx])
    | none =>
      by_cases hd : s.done
      · exact ⟨[], s, by simpa using h, hd⟩
      have hnone : ∀ j, (s.threads j).running = none := fun j => by simpa [ho] using hi.excl j
      obtain ⟨j, hj⟩ : ∃ j, (s.threads j).todo ≠ [] := by
        by_contra hall
        push Not at hall
        exact hd fun j => ⟨hnone j, hall j⟩
      obtain ⟨c, todo, htodo⟩ := List.exists_cons_of_ne_nil hj
      have ht : s.threads j = ⟨none, c :: todo⟩ := by rw [← htodo, ← hnone j]
      have hlt : (⟨none, todo⟩ : Thread κ φ ρ).left < (s.threads j).left := by simp [Thread.left, ht]
      cases hl : M.locks c with
      | false =>
        exact hround [j] (s.setThread j ⟨none, todo⟩) j ⟨none, todo⟩ (by simp [Machine.step, ht, hl]) rfl hlt
      | true =>
        have hc : c ∈ progs j := by
          refine List.mem_of_mem_filter (?_ : c ∈ (progs j).filter M.locks)
          rw [hi.order j, ht]
          simp [hl]
        obtain ⟨d', r, hrun⟩ := hends s.results s.shared (hi.free ho).2 hi.mem.1 j c hc hl
        let s₁ : State ι σ κ φ ρ :=
          { s.setThread j ⟨some ⟨c, M.start c, []⟩, todo⟩ with owner := some j, depth := s.depth + 1 }
        have hstep : M.step s j = some s₁ := by
          simp [Machine.step, ht, hl, State.lock, ho, s₁, State.setThread]
        have ht₁ : s₁.threads j = ⟨some ⟨c, M.start c, []⟩, todo⟩ := by simp [s₁, State.setThread]
        obtain ⟨n, s', hn, hs'⟩ := finishes_returns ht₁ rfl (by simp [s₁, (hi.free ho).1]) hrun
        refine hround (j :: List.replicate n j) s' j ⟨none, todo⟩ ?_ ?_ hlt
        · rw [List.foldlM_cons, hstep, Option.bind_eq_bind, Option.bind_some, hn]
        · rw [hs']
          simp [s₁, State.setThread]

end

end SoapStab.Lib.Reentrant
