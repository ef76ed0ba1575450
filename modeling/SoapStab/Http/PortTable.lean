import SoapStab.Common.Logging
import Mathlib.Data.Finmap
import Mathlib.Data.UInt

/-!
# The port table of `http_server`

Two maps keyed by port, written side by side by `set_port` and
`remove_port` under the mutex.

The property: `get_port_configuration(p)` returns what the last
`set_port(p, …)` not followed by a `remove_port(p)` passed, both maps have the
same keys, the stored executor behaves as the one passed, and a call leaves
the other ports alone.

`get_port_configuration` computes its result and ends without returning it,
so it returns no defined result on any port, and `remove_port`, which calls
it when trace messages are logged, has no defined outcome then. The executors
are stored by value in a map of `http_request_executor`: what is kept of a
derived executor is a base object. `port_table_never` has both, and what the
maps do hold.
-/
namespace SoapStab.Http

/-- mirrors src/http/http_server.h:30-36 -/
inductive HttpSecurityType where
  | HTTP | HTTPS
  deriving DecidableEq

/-- mirrors src/http/http_server.h:38-42 -/
structure HttpPortConfiguration where
  securityType : HttpSecurityType
  deriving DecidableEq

/-- An executor, by what its `operator()` does: the result for a request, and
what is logged. `Req` and `Res` are the shared pointers to requests and
results.
mirrors src/http/http_server.h:26-28 -/
structure HttpRequestExecutor (Req Res : Type) where
  call : Req → Logger → Res × Logger

variable {Req Res : Type}

/-- An object of the class itself; `made` is a new `http_result`.
mirrors src/http/http_server.cpp:12-15 -/
def HttpRequestExecutor.base (made : Res) : HttpRequestExecutor Req Res where
  call _ lg := (made, lg.log .warn
    "http_request_executor::operator() - this should never be called and always be overloaded".toList)

/-- `e = source` on base objects: the class has no members to copy, and `e`
stays of the class it is of. -/
def HttpRequestExecutor.assign (e _source : HttpRequestExecutor Req Res) : HttpRequestExecutor Req Res := e

/-- mirrors src/http/http_server.h:103-107 -/
structure HttpServer (Req Res : Type) where
  requestExecutors : Finmap fun _ : UInt16 => HttpRequestExecutor Req Res
  portConfigurations : Finmap fun _ : UInt16 => HttpPortConfiguration

def HttpServer.empty : HttpServer Req Res := ⟨∅, ∅⟩

/-- The local variable `result` of `get_port_configuration`.
mirrors src/http/http_server.cpp:20-23 -/
def HttpServer.configurationFound (s : HttpServer Req Res) (port : UInt16) : Option HttpPortConfiguration :=
  if port ∈ s.portConfigurations then s.portConfigurations.lookup port else none

/-- The result is computed and logged, and not returned: `none`, no defined
result.
mirrors src/http/http_server.cpp:17-26 -/
def HttpServer.getPortConfiguration (s : HttpServer Req Res) (port : UInt16) :
    Option (Option HttpPortConfiguration) :=
  let _result := s.configurationFound port
  none

/-- `request_executors[port]` makes a base object where there is none.
mirrors src/http/http_server.cpp:28-38 -/
def HttpServer.setPort (made : Res) (s : HttpServer Req Res) (port : UInt16)
    (portConfiguration : HttpPortConfiguration) (requestExecutor : HttpRequestExecutor Req Res) :
    HttpServer Req Res where
  portConfigurations := s.portConfigurations.insert port portConfiguration
  requestExecutors :=
    let e := (s.requestExecutors.lookup port).getD (.base made)
    s.requestExecutors.insert port (e.assign requestExecutor)

/-- The two erasures.
mirrors src/http/http_server.cpp:50-55 -/
def HttpServer.erasePort (s : HttpServer Req Res) (port : UInt16) : HttpServer Req Res where
  portConfigurations :=
    if port ∈ s.portConfigurations then s.portConfigurations.erase port else s.portConfigurations
  requestExecutors :=
    if port ∈ s.requestExecutors then s.requestExecutors.erase port else s.requestExecutors

/-- `none`: the result of `get_port_configuration` was used.
mirrors src/http/http_server.cpp:40-58 -/
def HttpServer.removePort (s : HttpServer Req Res) (port : UInt16) (lg : Logger) :
    Option (HttpServer Req Res) :=
  if lg.shouldLog .trace then
    match s.getPortConfiguration port with
    | none => none
    | some _ => some (s.erasePort port)
  else some (s.erasePort port)

/-! ## Runs -/

inductive Call (Req Res : Type) where
  | setPort (port : UInt16) (portConfiguration : HttpPortConfiguration)
      (requestExecutor : HttpRequestExecutor Req Res)
  | removePort (port : UInt16) (lg : Logger)

def Call.port : Call Req Res → UInt16
  | .setPort port _ _ => port
  | .removePort port _ => port

/-- A `remove_port` that logs trace messages. -/
def Call.tracesRemoval : Call Req Res → Bool
  | .setPort _ _ _ => false
  | .removePort _ lg => lg.shouldLog .trace

def HttpServer.call (made : Res) (s : HttpServer Req Res) : Call Req Res → Option (HttpServer Req Res)
  | .setPort port cfg e => some (s.setPort made port cfg e)
  | .removePort port lg => s.removePort port lg

def run (made : Res) (calls : List (Call Req Res)) : Option (HttpServer Req Res) :=
  calls.foldlM (HttpServer.call made) .empty

/-- What a call makes of the last arguments set for `p`. -/
def Call.last (p : UInt16) (before : Option (HttpPortConfiguration × HttpRequestExecutor Req Res)) :
    Call Req Res → Option (HttpPortConfiguration × HttpRequestExecutor Req Res)
  | .setPort port cfg e => if port = p then some (cfg, e) else before
  | .removePort port _ => if port = p then none else before

/-- What the last `set_port` on `p` passed, unless a `remove_port` followed. -/
def lastSet (p : UInt16) (calls : List (Call Req Res)) :
    Option (HttpPortConfiguration × HttpRequestExecutor Req Res) :=
  calls.foldl (fun before c => c.last p before) none

/-! ## The property -/

/-- The getter returns the configuration last set. -/
def ConfigurationReturned (s : HttpServer Req Res) (calls : List (Call Req Res)) (p : UInt16) : Prop :=
  s.getPortConfiguration p = some ((lastSet p calls).map Prod.fst)

def SameKeys (s : HttpServer Req Res) : Prop := ∀ p, p ∈ s.portConfigurations ↔ p ∈ s.requestExecutors

/-- The executor stored for `p` does what the one last set does. -/
def ExecutorKept (s : HttpServer Req Res) (calls : List (Call Req Res)) (p : UInt16) : Prop :=
  ∀ cfg e, lastSet p calls = some (cfg, e) →
    ∃ stored, s.requestExecutors.lookup p = some stored ∧ stored.call = e.call

/-- Calls on other ports leave the entries of `p`. -/
def OthersUntouched (made : Res) (s : HttpServer Req Res) (p : UInt16) : Prop :=
  ∀ c s', s.call made c = some s' → c.port ≠ p →
    s'.portConfigurations.lookup p = s.portConfigurations.lookup p ∧
      s'.requestExecutors.lookup p = s.requestExecutors.lookup p

/-- The property of one run and one port. -/
def PortTable (made : Res) (calls : List (Call Req Res)) (p : UInt16) : Prop :=
  ∃ s, run made calls = some s ∧ ConfigurationReturned s calls p ∧ SameKeys s ∧ ExecutorKept s calls p ∧
    OthersUntouched made s p

/-! ## One call -/

section
variable {made : Res} {s s' : HttpServer Req Res} {c : Call Req Res} {p : UInt16}

/-- What a call that has a defined outcome does. -/
theorem call_cases (h : s.call made c = some s') :
    (∃ port cfg e, c = .setPort port cfg e ∧ s' = s.setPort made port cfg e) ∨
      ∃ port lg, c = .removePort port lg ∧ lg.shouldLog .trace = false ∧ s' = s.erasePort port := by
  cases c with
  | setPort port cfg e => exact .inl ⟨port, cfg, e, rfl, (Option.some.inj h).symm⟩
  | removePort port lg =>
    simp only [HttpServer.call, HttpServer.removePort, HttpServer.getPortConfiguration] at h
    split at h
    · cases h
    · next htrace => exact .inr ⟨port, lg, rfl, by simpa using htrace, (Option.some.inj h).symm⟩

theorem lookup_erasePort (s : HttpServer Req Res) (port p : UInt16) :
    (s.erasePort port).portConfigurations.lookup p =
        (if port = p then none else s.portConfigurations.lookup p) ∧
      (s.erasePort port).requestExecutors.lookup p =
        if port = p then none else s.requestExecutors.lookup p := by
  have herase : ∀ {V : Type} (m : Finmap fun _ : UInt16 => V),
      (if port ∈ m then m.erase port else m).lookup p = if port = p then none else m.lookup p := by
    intro V m
    by_cases hp : port = p
    · subst hp
      rw [if_pos rfl]
      split
      · exact Finmap.lookup_erase port m
      · next hm => exact Finmap.lookup_eq_none.mpr hm
    · rw [if_neg hp]
      split
      · exact Finmap.lookup_erase_ne (Ne.symm hp)
      · rfl
  exact ⟨herase _, herase _⟩

/-- A call leaves the entries of the other ports. -/
theorem call_frame (h : s.call made c = some s') (hp : c.port ≠ p) :
    s'.portConfigurations.lookup p = s.portConfigurations.lookup p ∧
      s'.requestExecutors.lookup p = s.requestExecutors.lookup p := by
  rcases call_cases h with ⟨port, cfg, e, rfl, rfl⟩ | ⟨port, lg, rfl, -, rfl⟩
  · exact ⟨Finmap.lookup_insert_of_ne _ (Ne.symm hp), Finmap.lookup_insert_of_ne _ (Ne.symm hp)⟩
  · obtain ⟨hc, he⟩ := lookup_erasePort s port p
    exact ⟨hc.trans (if_neg hp), he.trans (if_neg hp)⟩

/-! ## Whole runs -/

/-- What the maps hold for `p` where `last` was set last: its configuration,
and an executor of the base class. -/
def Holds (made : Res) (s : HttpServer Req Res) (p : UInt16)
    (last : Option (HttpPortConfiguration × HttpRequestExecutor Req Res)) : Prop :=
  s.portConfigurations.lookup p = last.map Prod.fst ∧
    s.requestExecutors.lookup p = last.map fun _ => .base made

theorem holds_call (h : s.call made c = some s')
    {last : Option (HttpPortConfiguration × HttpRequestExecutor Req Res)} (hold : Holds made s p last) :
    Holds made s' p (c.last p last) := by
  by_cases hp : c.port = p
  · subst hp
    rcases call_cases h with ⟨port, cfg, e, rfl, rfl⟩ | ⟨port, lg, rfl, -, rfl⟩
    · -- the object assigned to is a base object, found there or just made
      have hheld : s.requestExecutors.lookup port = last.map fun _ => .base made := hold.2
      have hbase : (s.requestExecutors.lookup port).getD (.base made) = .base made := by
        rw [hheld]
        cases last <;> rfl
      refine ⟨?_, ?_⟩
      · simp [HttpServer.setPort, Call.port, Call.last]
      · simp [HttpServer.setPort, Call.port, Call.last, hbase, HttpRequestExecutor.assign]
    · obtain ⟨hc, he⟩ := lookup_erasePort s port port
      refine ⟨?_, ?_⟩
      · simpa [Call.port, Call.last] using hc
      · simpa [Call.port, Call.last] using he
  · obtain ⟨hc, he⟩ := call_frame h hp
    have hlast : c.last p last = last := by cases c <;> exact if_neg hp
    rw [hlast]
    exact ⟨hc.trans hold.1, he.trans hold.2⟩

end

theorem run_concat (made : Res) (calls : List (Call Req Res)) (c : Call Req Res) (s : HttpServer Req Res) :
    run made (calls ++ [c]) = some s ↔ ∃ s₀, run made calls = some s₀ ∧ s₀.call made c = some s := by
  simp only [run, List.foldlM_append, List.foldlM_cons, List.foldlM_nil, Option.bind_eq_bind, bind_pure,
    Option.bind_eq_some_iff]

theorem holds_run (made : Res) (p : UInt16) (calls : List (Call Req Res)) {s : HttpServer Req Res}
    (h : run made calls = some s) : Holds made s p (lastSet p calls) := by
  induction calls using List.reverseRecOn generalizing s with
  | nil =>
    cases h
    exact ⟨Finmap.lookup_empty p, Finmap.lookup_empty p⟩
  | append_singleton calls c ih =>
    obtain ⟨s₀, h₀, hc⟩ := (run_concat made calls c s).mp h
    have hlast : lastSet p (calls ++ [c]) = c.last p (lastSet p calls) := by
      simp [lastSet, List.foldl_append]
    rw [hlast]
    exact holds_call hc (ih h₀)

/-- A call has a defined outcome unless it is a traced removal. -/
theorem call_defined (made : Res) (s : HttpServer Req Res) (c : Call Req Res) :
    (∃ s', s.call made c = some s') ↔ c.tracesRemoval = false := by
  cases c with
  | setPort port cfg e => exact iff_of_true ⟨_, rfl⟩ rfl
  | removePort port lg =>
    cases hl : lg.shouldLog .trace <;>
      simp [HttpServer.call, HttpServer.removePort, HttpServer.getPortConfiguration, Call.tracesRemoval, hl]

/-- A run has a defined outcome unless a removal in it is traced. -/
theorem run_defined (made : Res) (calls : List (Call Req Res)) :
    (∃ s, run made calls = some s) ↔ ∀ c ∈ calls, c.tracesRemoval = false := by
  induction calls using List.reverseRecOn with
  | nil => exact iff_of_true ⟨_, rfl⟩ (by simp)
  | append_singleton calls c ih =>
    constructor
    · rintro ⟨s, h⟩
      obtain ⟨s₀, h₀, hc⟩ := (run_concat made calls c s).mp h
      have hbefore := ih.mp ⟨s₀, h₀⟩
      intro c' hc'
      rcases List.mem_append.mp hc' with hc' | hc'
      · exact hbefore c' hc'
      · obtain rfl := List.mem_singleton.mp hc'
        exact (call_defined made s₀ c').mp ⟨s, hc⟩
    · intro h
      obtain ⟨s₀, h₀⟩ := ih.mpr fun c' hc' => h c' (List.mem_append_left _ hc')
      obtain ⟨s, hs⟩ := (call_defined made s₀ c).mpr (h c (by simp))
      exact ⟨s, (run_concat made calls c s).mpr ⟨s₀, h₀, hs⟩⟩

theorem sameKeys_run (made : Res) (calls : List (Call Req Res)) {s : HttpServer Req Res}
    (h : run made calls = some s) : SameKeys s := by
  intro p
  obtain ⟨hc, he⟩ := holds_run made p calls h
  rw [← Finmap.lookup_isSome, ← Finmap.lookup_isSome, hc, he]
  cases lastSet p calls <;> simp

theorem configurationFound_run (made : Res) (calls : List (Call Req Res)) {s : HttpServer Req Res}
    (h : run made calls = some s) (p : UInt16) :
    s.configurationFound p = (lastSet p calls).map Prod.fst := by
  have hc := (holds_run made p calls h).1
  unfold HttpServer.configurationFound
  split
  · exact hc
  · next hm => exact (Finmap.lookup_eq_none.mpr hm).symm.trans hc

theorem executorKept_iff (made : Res) (calls : List (Call Req Res)) {s : HttpServer Req Res}
    (h : run made calls = some s) (p : UInt16) :
    ExecutorKept s calls p ↔
      ∀ cfg e, lastSet p calls = some (cfg, e) → e.call = (HttpRequestExecutor.base made).call := by
  have he := (holds_run made p calls h).2
  constructor
  · intro hk cfg e hlast
    obtain ⟨stored, hstored, hcall⟩ := hk cfg e hlast
    rw [he, hlast] at hstored
    obtain rfl := Option.some.inj hstored
    exact hcall.symm
  · intro hb cfg e hlast
    exact ⟨.base made, by rw [he, hlast]; rfl, (hb cfg e hlast).symm⟩

/-- **The port table.** The property fails for every run and every port: no
configuration is ever returned. Of the rest, a run without traced removals
has a defined outcome; in it the configuration last set is the one found,
both maps have the same keys, other ports are untouched, and the executor
kept for `p` does what the one last set does exactly when that is what a base
object does. -/
theorem port_table_never (made : Res) (calls : List (Call Req Res)) (p : UInt16) :
    ¬ PortTable made calls p ∧
      ((∃ s, run made calls = some s) ↔ ∀ c ∈ calls, c.tracesRemoval = false) ∧
      ∀ s, run made calls = some s →
        s.configurationFound p = (lastSet p calls).map Prod.fst ∧ SameKeys s ∧ OthersUntouched made s p ∧
          (ExecutorKept s calls p ↔
            ∀ cfg e, lastSet p calls = some (cfg, e) → e.call = (HttpRequestExecutor.base made).call) := by
  refine ⟨?_, run_defined made calls, fun s h => ?_⟩
  · rintro ⟨s, -, hret, -⟩
    cases hret
  · exact ⟨configurationFound_run made calls h p, sameKeys_run made calls h,
      fun c s' hc hp => call_frame hc hp, executorKept_iff made calls h p⟩

/-- An executor of a derived class: it answers `true`. -/
def ownExecutor : HttpRequestExecutor Unit Bool := ⟨fun _ lg => (true, lg)⟩

/-- Port 80 is set, with an executor that answers `true` where a new result
is `false`. Asking for its configuration gives no defined result, and the
executor kept is another one. -/
theorem port_table_fails :
    ¬ PortTable false [.setPort 80 ⟨.HTTP⟩ ownExecutor] 80 ∧
      ¬ ExecutorKept (HttpServer.empty.setPort false 80 ⟨.HTTP⟩ ownExecutor) [.setPort 80 ⟨.HTTP⟩ ownExecutor] 80 := by
  refine ⟨fun ⟨s, _, hret, _⟩ => (nomatch hret), fun hk => ?_⟩
  have hcall := (executorKept_iff false [.setPort 80 ⟨.HTTP⟩ ownExecutor] rfl 80).mp hk ⟨.HTTP⟩ ownExecutor rfl
  exact absurd (congrFun (congrFun hcall ()) ⟨.off, []⟩) (by simp [ownExecutor, HttpRequestExecutor.base])

end SoapStab.Http
