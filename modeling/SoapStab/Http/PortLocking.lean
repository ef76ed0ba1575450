import SoapStab.Http.PortTable
import SoapStab.Lib.Monitor

/-!
# The port table under its mutex

`set_port` and `remove_port` write the two maps one after the other, several
steps each, while they hold the mutex. Any number of threads call them here,
with every step of every thread scheduled on its own; a traced removal has no
defined outcome and is left out.

**Result.** `ports_consistent`: whatever the schedule, a port that no call
under way is on has what the calls served so far, one after the other, leave:
in both maps or in neither, with the configuration last set. With the mutex
free this is every port.
-/
namespace SoapStab.Http

open SoapStab.Lib.Monitor SoapStab.Lib.Traces

variable {Req Res : Type}

/-- The steps under the lock; the local is the result of the last `contains`.
mirrors src/http/http_server.cpp:34-35,50-55 -/
def Call.steps (made : Res) : Call Req Res → List (HttpServer Req Res → Bool → HttpServer Req Res × Bool)
  | .setPort port portConfiguration requestExecutor =>
    [fun s v => ({ s with portConfigurations := s.portConfigurations.insert port portConfiguration }, v),
     -- `request_executors[port]`, then the assignment to it
     fun s v => (if port ∈ s.requestExecutors then s
      else { s with requestExecutors := s.requestExecutors.insert port (.base made) }, v),
     fun s v => (match s.requestExecutors.lookup port with
      | some e => { s with requestExecutors := s.requestExecutors.insert port (e.assign requestExecutor) }
      | none => s, v)]
  | .removePort port _ =>
    [fun s _ => (s, decide (port ∈ s.portConfigurations)),
     fun s v => (if v then { s with portConfigurations := s.portConfigurations.erase port } else s, v),
     fun s _ => (s, decide (port ∈ s.requestExecutors)),
     fun s v => (if v then { s with requestExecutors := s.requestExecutors.erase port } else s, v)]

/-- mirrors src/http/http_server.cpp:28-58 -/
def portServer (Req : Type) {Res : Type} (made : Res) : Object (HttpServer Req Res) (Call Req Res) Bool where
  locals _ := false
  body c := some (c.steps made)

/-- Threads of a new server. -/
def portCallers (made : Res) (progs : List (List (Call Req Res))) :
    System (State (Fin progs.length) (HttpServer Req Res) (Call Req Res) Bool) (Fin progs.length) :=
  (portServer Req made).monitor .empty progs.get

/-! ## A call in one go -/

section
variable {made : Res} {c : Call Req Res} {p : UInt16}

/-- The steps of a call make what the call does in one go. -/
theorem whole_call (s : HttpServer Req Res) (hc : c.tracesRemoval = false) :
    s.call made c = some ((portServer Req made).whole s c).1 := by
  cases c with
  | setPort port cfg e =>
    have hset : ((portServer Req made).whole s (.setPort port cfg e)).1 = s.setPort made port cfg e := by
      by_cases hp : port ∈ s.requestExecutors
      · obtain ⟨x, hx⟩ := Finmap.mem_iff.mp hp
        simp [Object.whole, portServer, Call.steps, runSteps, HttpServer.setPort, hp, hx]
      · have hnone : s.requestExecutors.lookup port = none := Finmap.lookup_eq_none.mpr hp
        simp [Object.whole, portServer, Call.steps, runSteps, HttpServer.setPort, hp, hnone]
    rw [hset]
    rfl
  | removePort port lg =>
    have hl : lg.shouldLog .trace = false := hc
    have herase : ((portServer Req made).whole s (.removePort port lg)).1 = s.erasePort port := by
      by_cases hcfg : port ∈ s.portConfigurations <;> by_cases he : port ∈ s.requestExecutors <;>
        simp [Object.whole, portServer, Call.steps, runSteps, HttpServer.erasePort, hcfg, he]
    rw [herase]
    simp [HttpServer.call, HttpServer.removePort, hl]

/-- Calls served one after the other are a run. -/
theorem run_after (calls : List (Call Req Res)) (h : ∀ c ∈ calls, c.tracesRemoval = false) :
    run made calls = some ((portServer Req made).after .empty calls) := by
  induction calls using List.reverseRecOn with
  | nil => rfl
  | append_singleton calls c ih =>
    refine (run_concat made calls c _).mpr ⟨_, ih fun c' hc' => h c' (List.mem_append_left _ hc'), ?_⟩
    rw [Object.after_concat]
    exact whole_call _ (h c (by simp))

/-! ## A part of a call -/

/-- A state with the entries `p` has in `s`. -/
def SameAt (p : UInt16) (s s' : HttpServer Req Res) : Prop :=
  s'.portConfigurations.lookup p = s.portConfigurations.lookup p ∧
    s'.requestExecutors.lookup p = s.requestExecutors.lookup p

/-- Each step of a call leaves the entries of the other ports. -/
theorem step_frame (hp : c.port ≠ p) {f : HttpServer Req Res → Bool → HttpServer Req Res × Bool}
    (hf : f ∈ c.steps made) (s : HttpServer Req Res) (v : Bool) : SameAt p s (f s v).1 := by
  have hrefl : SameAt p s s := ⟨rfl, rfl⟩
  cases c with
  | setPort port cfg e =>
    have hport : p ≠ port := Ne.symm hp
    simp only [Call.steps, List.mem_cons, List.not_mem_nil, or_false] at hf
    rcases hf with rfl | rfl | rfl
    · exact ⟨Finmap.lookup_insert_of_ne _ hport, rfl⟩
    · show SameAt p s (if _ then _ else _)
      split
      · exact hrefl
      · exact ⟨rfl, Finmap.lookup_insert_of_ne _ hport⟩
    · show SameAt p s (match s.requestExecutors.lookup port with | some _ => _ | none => _)
      split
      · exact ⟨rfl, Finmap.lookup_insert_of_ne _ hport⟩
      · exact hrefl
  | removePort port lg =>
    have hport : p ≠ port := Ne.symm hp
    simp only [Call.steps, List.mem_cons, List.not_mem_nil, or_false] at hf
    rcases hf with rfl | rfl | rfl | rfl
    · exact hrefl
    · show SameAt p s (if v then _ else _)
      split
      · exact ⟨Finmap.lookup_erase_ne hport, rfl⟩
      · exact hrefl
    · exact hrefl
    · show SameAt p s (if v then _ else _)
      split
      · exact ⟨rfl, Finmap.lookup_erase_ne hport⟩
      · exact hrefl

/-- So does any part of it. -/
theorem part_frame (hp : c.port ≠ p) {fs : List (HttpServer Req Res → Bool → HttpServer Req Res × Bool)}
    (hfs : ∀ f ∈ fs, f ∈ c.steps made) (s : HttpServer Req Res) (v : Bool) :
    SameAt p s (runSteps fs (s, v)).1 := by
  induction fs using List.reverseRecOn with
  | nil => exact ⟨rfl, rfl⟩
  | append_singleton fs f ih =>
    rw [runSteps_concat]
    obtain ⟨hcfg, he⟩ := ih fun g hg => hfs g (List.mem_append_left _ hg)
    obtain ⟨hcfg', he'⟩ := step_frame hp (hfs f (by simp)) (runSteps fs (s, v)).1 (runSteps fs (s, v)).2
    exact ⟨hcfg'.trans hcfg, he'.trans he⟩

end

/-! ## All threads -/

/-- The entries of a port that no call under way is on. -/
theorem sameAt_after {made : Res} {progs : List (List (Call Req Res))}
    {s : State (Fin progs.length) (HttpServer Req Res) (Call Req Res) Bool}
    (hi : (portServer Req made).Serial .empty progs.get s) {p : UInt16}
    (hp : ∀ i x, (s.callers i).inside = some x → x.call.port ≠ p) :
    SameAt p ((portServer Req made).after .empty s.calls) s.shared := by
  cases hh : s.holder with
  | none =>
    rw [hi.free hh]
    exact ⟨rfl, rfl⟩
  | some i =>
    obtain ⟨x, hx⟩ := Option.isSome_iff_exists.mp ((hi.excl i).mpr hh)
    obtain ⟨part, hbody, hpart⟩ := hi.under i x hx
    have hsteps : x.call.steps made = part ++ x.rest := Option.some.inj hbody
    have hshared := congrArg Prod.fst hpart
    simp only at hshared
    rw [hshared]
    exact part_frame (hp i x hx) (fun f hf => hsteps ▸ List.mem_append_left _ hf) _ _

/-- **Consistent ports.** In every run of any threads without traced
removals, a port that no call under way is on holds what the last `set_port`
served for it passed, with an executor of the base class, unless a
`remove_port` for it was served after; both maps have the port, or neither.
Each thread's calls are served in its order. -/
theorem ports_consistent (made : Res) (progs : List (List (Call Req Res)))
    (hdefined : ∀ cs ∈ progs, ∀ c ∈ cs, c.tracesRemoval = false) {tr : List (Fin progs.length)}
    {s : State (Fin progs.length) (HttpServer Req Res) (Call Req Res) Bool}
    (h : (portCallers made progs).exec tr = some s) (p : UInt16)
    (hp : ∀ i x, (s.callers i).inside = some x → x.call.port ≠ p) :
    Holds made s.shared p (lastSet p s.calls) ∧
      (p ∈ s.shared.portConfigurations ↔ p ∈ s.shared.requestExecutors) ∧
      ∀ i, s.callsOf i <+: progs.get i := by
  have hi := serial_exec h
  have horder : ∀ i, s.callsOf i <+: progs.get i := fun i => by
    rw [hi.order i, List.append_assoc]
    exact List.prefix_append _ _
  have hserved : ∀ c ∈ s.calls, c.tracesRemoval = false := by
    intro c hc
    obtain ⟨r, hr, rfl⟩ := List.mem_map.mp hc
    refine hdefined (progs.get r.caller) (List.get_mem _ _) _ ((horder r.caller).subset ?_)
    exact List.mem_map.mpr ⟨r, List.mem_filter.mpr ⟨hr, by simp⟩, rfl⟩
  -- the entries are those of the calls served, done as a run
  obtain ⟨hcfg, he⟩ := sameAt_after hi hp
  obtain ⟨hcfg', he'⟩ := holds_run made p s.calls (run_after s.calls hserved)
  have hold : Holds made s.shared p (lastSet p s.calls) := ⟨hcfg.trans hcfg', he.trans he'⟩
  refine ⟨hold, ?_, horder⟩
  rw [← Finmap.lookup_isSome, ← Finmap.lookup_isSome, hold.1, hold.2]
  cases lastSet p s.calls <;> simp

/-- Port 80 is set and removed by two threads while the second one sets port
81: with its `set_port` under way, port 80 is gone from both maps. -/
theorem ports_consistent_two : ∃ s, (portCallers false
      [[.setPort 80 ⟨.HTTP⟩ ownExecutor], [.removePort 80 ⟨.off, []⟩, .setPort 81 ⟨.HTTP⟩ ownExecutor]]).exec
      [0, 0, 0, 0, 0, 1, 1, 1, 1, 1, 1, 1, 1] = some s ∧ s.shared.portConfigurations.lookup 80 = none := by
  refine ⟨_, rfl, ?_⟩
  refine (@ports_consistent Unit Bool false
    [[.setPort 80 ⟨.HTTP⟩ ownExecutor], [.removePort 80 ⟨.off, []⟩, .setPort 81 ⟨.HTTP⟩ ownExecutor]] (by decide)
    [0, 0, 0, 0, 0, 1, 1, 1, 1, 1, 1, 1, 1] _ rfl 80 ?_).1.1.trans rfl
  rintro ⟨_ | _ | i, hi⟩ x hx
  · cases hx
  · cases hx
    decide
  · exact absurd hi (by simp)

end SoapStab.Http
