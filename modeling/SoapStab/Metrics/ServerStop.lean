import SoapStab.Lib.Traces
import Mathlib.Data.List.Infix

/-!
# Stopping the metrics server

One server thread calls `start_listening` again and again; `stop_listening`
comes from any thread at any time. All a stop does is set the `stopped` flag
of the `io_context`, which `run` returns on.

`start_listening` clears the flag before it runs, to get rid of the stop
that ended the call before. It cannot tell that stop from one made since it
was entered: `stopsKept_iff` says in which runs a stop is lost,
`stopsKept_fails` is the run of `main` that loses one, and `lost_step` that
nothing but another stop helps.

The accept handler arms the next accept whatever its error code is, so `run`
always has work and returns on the flag only. An exception of `make_address`
or of the acceptor's constructor leaves the thread function and ends the
process; those runs end there.
-/
namespace SoapStab.Metrics

open SoapStab.Lib.Traces

/-- Where the server thread is. -/
inductive ListenPc where
  | idle | entered | armed | restarting | ready | running
  deriving DecidableEq

structure MetricsServer where
  pc : ListenPc
  /-- The flag of `_ioc`. -/
  stopped : Bool
  deriving DecidableEq

inductive ListenStep where
  | enter | arm | test | restart | run | ret
  /-- A whole `stop_listening`. -/
  | stop
  deriving DecidableEq

/-- mirrors src/metrics/metrics_server.cpp:46-75 -/
def MetricsServer.step (s : MetricsServer) : ListenStep → Option MetricsServer
  | .enter => if s.pc = .idle then some { s with pc := .entered } else none
  | .arm => if s.pc = .entered then some { s with pc := .armed } else none
  | .test => if s.pc = .armed then some { s with pc := if s.stopped then .restarting else .ready } else none
  | .restart => if s.pc = .restarting then some ⟨.ready, false⟩ else none
  | .run => if s.pc = .ready then some { s with pc := .running } else none
  | .ret => if s.pc = .running ∧ s.stopped = true then some { s with pc := .idle } else none
  | .stop => some { s with stopped := true }

/-- A new `io_context` is not stopped. -/
def metricsServer : System MetricsServer ListenStep := ⟨⟨.idle, false⟩, MetricsServer.step⟩

/-- The steps since `start_listening` was last entered. -/
def thisCall (tr : List ListenStep) : List ListenStep := tr.rtakeWhile (· ≠ .enter)

/-- The call is in `run` with the flag clear, although there was a stop since
it was entered. -/
def Lost (tr : List ListenStep) (s : MetricsServer) : Prop :=
  s.pc = .running ∧ s.stopped = false ∧ .stop ∈ thisCall tr

/-! ## One step -/

theorem step_stopped {s s' : MetricsServer} {l : ListenStep} (h : s.step l = some s') :
    s'.stopped = if l = .stop then true else if l = .restart then false else s.stopped := by
  cases l with
  | stop => cases h; rfl
  | restart => cases (Option.ite_none_right_eq_some.mp h).2; rfl
  | enter | arm | test | run | ret => cases (Option.ite_none_right_eq_some.mp h).2; rfl

/-- `run` is entered by the step `run` and left by `ret`, which needs the flag. -/
theorem step_running {s s' : MetricsServer} {l : ListenStep} (h : s.step l = some s') :
    s'.pc = .running ↔ l = .run ∨ l = .stop ∧ s.pc = .running := by
  cases l with
  | stop => cases h; simp
  | test =>
    cases (Option.ite_none_right_eq_some.mp h).2
    cases s.stopped <;> simp
  | enter | arm | restart | run | ret => cases (Option.ite_none_right_eq_some.mp h).2; simp

/-- A lost stop stays lost: only another stop can follow. -/
theorem lost_step {tr : List ListenStep} {s s' : MetricsServer} {l : ListenStep} (hlost : Lost tr s)
    (h : s.step l = some s') : l = .stop := by
  obtain ⟨hpc, hclear, -⟩ := hlost
  cases l <;> simp_all [MetricsServer.step]

theorem thisCall_enter (tr : List ListenStep) : thisCall (tr ++ [.enter]) = [] := by
  simp [thisCall]

theorem thisCall_concat (tr : List ListenStep) {l : ListenStep} (h : l ≠ .enter) :
    thisCall (tr ++ [l]) = thisCall tr ++ [l] := by
  simp [thisCall, h]

/-! ## Runs -/

/-- A stop of this call is no longer in the flag exactly when a restart
undid it. -/
theorem stop_undone {tr : List ListenStep} {s : MetricsServer} (h : metricsServer.exec tr = some s) :
    (s.stopped = false ∧ .stop ∈ thisCall tr) ↔ Undone .stop .restart (thisCall tr) := by
  refine System.exec_induction (I := fun tr s => (s.stopped = false ∧ .stop ∈ thisCall tr) ↔
    Undone .stop .restart (thisCall tr)) ?_ ?_ h
  · exact ⟨fun h => (nomatch h.2), fun h => absurd h (not_undone_nil _ _)⟩
  · intro tr s l s' ih (hl : s.step l = some s')
    by_cases he : l = .enter
    · subst he
      rw [thisCall_enter]
      exact ⟨fun h => (nomatch h.2), fun h => absurd h (not_undone_nil _ _)⟩
    · have hflag := step_stopped hl
      rw [thisCall_concat tr he, undone_concat (by decide), hflag]
      by_cases hstop : l = .stop
      · simp [hstop]
      · by_cases hrestart : l = .restart
        · subst hrestart
          simpa using fun h => Undone.mem h
        · simp [hstop, hrestart, Ne.symm hstop, ← ih]

theorem metricsServer_concat {tr : List ListenStep} {l : ListenStep} {s : MetricsServer}
    (h : metricsServer.exec (tr ++ [l]) = some s) :
    ∃ s₀, metricsServer.exec tr = some s₀ ∧ s₀.step l = some s :=
  (metricsServer.exec_concat tr l s).mp h

/-- In `run` with the flag clear: `run` was the last step. -/
theorem run_last {tr : List ListenStep} {s : MetricsServer} (h : metricsServer.exec tr = some s)
    (hpc : s.pc = .running) (hclear : s.stopped = false) : ∃ tr', tr = tr' ++ [.run] := by
  rcases List.eq_nil_or_concat tr with rfl | ⟨tr', l, rfl⟩
  · cases h
    cases hpc
  · rw [List.concat_eq_append] at h ⊢
    obtain ⟨s₀, -, hl⟩ := metricsServer_concat h
    rcases (step_running hl).mp hpc with rfl | ⟨rfl, -⟩
    · exact ⟨tr', rfl⟩
    · have := step_stopped hl
      rw [hclear] at this
      cases this

theorem lost_iff {tr : List ListenStep} {s : MetricsServer} (h : metricsServer.exec tr = some s) :
    Lost tr s ↔ ∃ tr', tr = tr' ++ [.run] ∧ Undone .stop .restart (thisCall tr') := by
  have hundone : ∀ tr', Undone .stop .restart (thisCall (tr' ++ [.run])) ↔
      Undone .stop .restart (thisCall tr') := by
    intro tr'
    rw [thisCall_concat tr' (by decide), undone_concat (by decide)]
    simp
  refine ⟨fun ⟨hpc, hclear, hstop⟩ => ?_, fun ⟨tr', he, hu⟩ => ?_⟩
  · obtain ⟨tr', rfl⟩ := run_last h hpc hclear
    exact ⟨tr', rfl, (hundone tr').mp ((stop_undone h).mp ⟨hclear, hstop⟩)⟩
  · subst he
    obtain ⟨s₀, -, hl⟩ := metricsServer_concat h
    exact ⟨(step_running hl).mpr (.inl rfl), (stop_undone h).mpr ((hundone tr').mpr hu)⟩

/-- **No stop is lost** in any state of a run if and only if no call goes
into `run` after a restart that followed a stop of the same call, unless
there was another stop in between. -/
theorem stopsKept_iff {tr : List ListenStep} {s : MetricsServer} (h : metricsServer.exec tr = some s) :
    (∀ tr' s', tr' <+: tr → metricsServer.exec tr' = some s' → ¬ Lost tr' s') ↔
      ∀ tr', tr' ++ [.run] <+: tr → ¬ Undone .stop .restart (thisCall tr') := by
  refine ⟨fun hkept tr' hp hu => ?_, fun hnone tr' s' hp hs' hlost => ?_⟩
  · obtain ⟨s', hs'⟩ := System.exec_prefix h hp
    exact hkept _ s' hp hs' ((lost_iff hs').mpr ⟨tr', rfl, hu⟩)
  · obtain ⟨tr₀, rfl, hu⟩ := (lost_iff hs').mp hlost
    exact hnone tr₀ hp hu

/-! ## A stop before the first `run` -/

/-- `main` stops the server right after starting its thread. -/
def earlyStop : List ListenStep := [.enter, .stop, .arm, .test, .restart, .run]

/-- The thread takes the stop for an old one and clears it. -/
theorem stopsKept_fails :
    ¬ ∀ (tr : List ListenStep) (s : MetricsServer), metricsServer.exec tr = some s → ¬ Lost tr s := by
  intro h
  exact h earlyStop ⟨.running, false⟩ (by decide) ⟨rfl, rfl, by decide⟩

/-- The stop of one call is cleared by the next: the restart is right. -/
def twoCalls : List ListenStep :=
  [.enter, .arm, .test, .run, .stop, .ret, .enter, .arm, .test, .restart, .run]

theorem stopsKept_iff_twice :
    ¬ ∃ tr' s', tr' <+: twoCalls ∧ metricsServer.exec tr' = some s' ∧ Lost tr' s' := by
  rintro ⟨tr', s', hp, hs', hlost⟩
  refine (stopsKept_iff (s := ⟨.running, false⟩) (by decide)).mpr (fun tr₀ hp₀ => ?_) tr' s' hp hs' hlost
  have hall : ∀ p ∈ twoCalls.inits, p.getLast? = some .run →
      ¬ Undone .stop .restart (thisCall p.dropLast) := by decide
  have hrun := hall _ ((List.mem_inits _ _).mpr hp₀) List.getLast?_concat
  rwa [List.dropLast_concat] at hrun

end SoapStab.Metrics
