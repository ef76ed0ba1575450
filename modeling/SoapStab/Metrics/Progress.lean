import SoapStab.Metrics.Scrape

/-!
# The service does not get stuck

A connection has a bounded number of steps to make: each of its operations
completes once and has one handler, and only the read handler starts another
operation. Whatever it waits for can happen, because operations may complete
and an export under way may be taken to its end.

**Results.**
* `closes`: a connection makes at most six steps, and from every state of a
  run the run can go on until it has made them all and its socket is closed.
* `scrape_succeeds`: a connection whose read handler is next and has the right
  request can be sent the text of the registry.
-/

namespace SoapStab.Metrics.Connection

open SoapStab.Lib.Traces

variable {hs : Str → UInt64} {env : Env} {s s' : Service hs} {i : Nat} {c c' : MetricsHttpConnection}

/-! ## The steps of one connection -/

/-- The steps an operation has still to make. -/
def Operation.left : Operation → Nat
  | .outstanding => 2
  | .queued _ => 1
  | .notStarted | .done => 0

/-- The steps a connection has still to make, at most: after the read comes a
write. -/
def MetricsHttpConnection.left (c : MetricsHttpConnection) : Nat :=
  c.read.left + c.write.left + c.wait.left + if c.read.left = 0 then 0 else 2

theorem left_writeHandler (c : MetricsHttpConnection) (closeEc cancelEc : ErrorCode) :
    (c.writeHandler closeEc cancelEc).left = c.left := by
  unfold MetricsHttpConnection.writeHandler
  split
  · rfl
  · split <;> rfl

theorem left_deadlineHandler (c : MetricsHttpConnection) (ec : ErrorCode) : (c.deadlineHandler ec).left = c.left := by
  unfold MetricsHttpConnection.deadlineHandler
  split <;> rfl

/-- **One step.** -/
theorem step_left (I : Inv c) {ce : ConnectionEvent} (h : c.step ce = some c') : c'.left < c.left := by
  rcases step_cases h with ⟨ec, request, -, hout, -, rfl⟩ | ⟨ec, -, hout, -, rfl⟩ | ⟨ec, -, hout, -, rfl⟩ |
    ⟨cfg, ec, -, hq, rfl⟩ | ⟨closeEc, cancelEc, ec, -, hq, rfl⟩ | ⟨ec, -, hq, rfl⟩
  · simp [MetricsHttpConnection.left, hout, Operation.left]
  · simp [MetricsHttpConnection.left, hout, Operation.left]
  · simp [MetricsHttpConnection.left, hout, Operation.left]
  · have hw : c.write = .notStarted := I.unread (by simp [hq])
    unfold MetricsHttpConnection.readHandler
    split
    · simp [MetricsHttpConnection.left, hq, Operation.left]
      omega
    · simp [MetricsHttpConnection.left, MetricsHttpConnection.writeResponse, hq, hw, Operation.left]
      omega
  · rw [left_writeHandler]
    simp [MetricsHttpConnection.left, hq, Operation.left]
  · rw [left_deadlineHandler]
    simp [MetricsHttpConnection.left, hq, Operation.left]

theorem left_eq_zero_iff (op : Operation) : op.left = 0 ↔ op = .notStarted ∨ op = .done := by
  cases op <;> simp [Operation.left]

theorem quiet_of_left (h : c.left = 0) : c.quiet := by
  have hread : c.read.left = 0 := by unfold MetricsHttpConnection.left at h; omega
  have hwrite : c.write.left = 0 := by unfold MetricsHttpConnection.left at h; omega
  have hwait : c.wait.left = 0 := by unfold MetricsHttpConnection.left at h; omega
  simpa [MetricsHttpConnection.quiet, ← left_eq_zero_iff] using ⟨hread, hwrite, hwait⟩

/-- The events of connection `i`. -/
def ServerEvent.concerns (i : Nat) : ServerEvent → Bool
  | .accept _ => false
  | .on j _ => decide (j = i)

theorem concerns_of_none {cs cs' : List MetricsHttpConnection} {se : ServerEvent} (h : step cs se = some cs')
    (hi : cs[i]? = none) : se.concerns i = false := by
  cases se with
  | accept ec => rfl
  | on j ce =>
    refine decide_eq_false fun hj => ?_
    subst hj
    simp [step, hi] at h

/-- A step of the server to a connection: its own steps count. -/
theorem server_step_left {cs cs' : List MetricsHttpConnection} {se : ServerEvent} (h : step cs se = some cs')
    (I : Inv c) (hi : cs[i]? = some c) :
    ∃ c', cs'[i]? = some c' ∧ c'.left + (if se.concerns i then 1 else 0) ≤ c.left := by
  cases se with
  | accept ec =>
    obtain ⟨c', hi', rfl | ⟨ce, hce⟩⟩ := server_step_at h hi
    · exact ⟨c', hi', le_refl _⟩
    · exact ⟨c', hi', (step_left I hce).le⟩
  | on j ce =>
    by_cases hj : j = i
    · subst hj
      simp only [step, hi, Option.bind_some, Option.map_eq_some_iff] at h
      obtain ⟨c', hce, rfl⟩ := h
      refine ⟨c', List.getElem?_set_self (List.getElem?_eq_some_iff.mp hi).1, ?_⟩
      have hown : ServerEvent.concerns j (.on j ce) = true := decide_eq_true rfl
      rw [if_pos hown]
      exact step_left I hce
    · obtain ⟨c', hi', rfl | ⟨ce', hce⟩⟩ := server_step_at h hi
      · exact ⟨c', hi', by rw [if_neg (by simpa [ServerEvent.concerns] using hj)]; exact le_refl _⟩
      · refine ⟨c', hi', ?_⟩
        rw [if_neg (by simpa [ServerEvent.concerns] using hj)]
        exact (step_left I hce).le

/-- **The steps made** and those left: at most six. -/
theorem steps_and_left {trc : List ServerEvent} {cs : List MetricsHttpConnection}
    (h : connections.exec trc = some cs) :
    (cs[i]? = none → trc.countP (ServerEvent.concerns i) = 0) ∧
      ∀ c, cs[i]? = some c → c.left + trc.countP (ServerEvent.concerns i) ≤ 6 := by
  refine System.exec_induction (I := fun trc cs => connections.exec trc = some cs ∧
    (cs[i]? = none → trc.countP (ServerEvent.concerns i) = 0) ∧
    ∀ c, cs[i]? = some c → c.left + trc.countP (ServerEvent.concerns i) ≤ 6)
    ⟨rfl, fun _ => rfl, fun c hc => by cases hc⟩ ?_ h |>.2
  intro trc cs se cs' ⟨hrun, hnone, hsome⟩ (hl : step cs se = some cs')
  refine ⟨(connections.exec_concat trc se cs').mpr ⟨cs, hrun, hl⟩, ?_⟩
  rw [List.countP_append, List.countP_singleton]
  rcases hi : cs[i]? with - | c
  · rw [hnone hi, concerns_of_none hl hi]
    refine ⟨fun _ => rfl, fun c' hi' => ?_⟩
    rcases server_step_from hl hi' with h | ⟨-, rfl⟩ | ⟨c₀, ce, h, -⟩
    · rw [hi] at h
      cases h
    · decide
    · rw [hi] at h
      cases h
  · obtain ⟨c', hi', hle⟩ := server_step_left hl (inv_exec hrun c (List.mem_of_getElem? hi)) hi
    refine ⟨fun hnone' => (nomatch hi'.symm.trans hnone'), fun c₁ hi₁ => ?_⟩
    cases hi'.symm.trans hi₁
    have hbefore := hsome c hi
    omega

/-! ## Taking an export to its end -/

/-- The handles an export has not come to are handles of metrics. -/
theorem todo_lt {tr : List (ServiceEvent hs)} (h : (service hs env).exec tr = some s) {x : Export hs}
    (hx : s.exporting = some x) : ∀ handle ∈ x.todo, handle < s.registry.heap.length := by
  obtain ⟨before, during, s₀, handles, htr, -, h₀, hhandles, -⟩ := export_part h hx
  intro handle hmem
  have hold : handle ∈ s₀.registry.handles := by
    rw [hhandles]
    exact List.mem_append_right _ hmem
  obtain ⟨e, he, rfl⟩ := List.mem_map.mp hold
  have hlt := (List.getElem?_eq_some_iff.mp (isLast_of_mem (registry_exec h₀).1 he).1).1
  have hnames := (registry_exec h).2.2
  rw [htr, List.filterMap_append, ← (registry_exec h₀).2.2] at hnames
  have hlength : s.registry.heap.length = s.registry.names.length := by simp [Registry.names]
  rw [hlength, hnames, List.length_append]
  omega

/-- An export under way ends after as many steps as it has metrics to format,
and one more, with the text of these metrics as they are. -/
theorem export_ends {tr : List (ServiceEvent hs)} {i : Nat} {todo : List Nat} {shown : List (Metric hs)}
    (h : (service hs env).exec tr = some s) (hx : s.exporting = some ⟨i, todo, shown⟩) :
    ∃ ms cs, List.Forall₂ (fun j m => s.registry.heap[j]? = some m) todo ms ∧
      step s.connections (.on i (.readHandler (env.settings (exportText env.fmtValue (shown ++ ms))))) = some cs ∧
      (service hs env).exec (tr ++ (List.replicate todo.length .exportNext ++ [.exportEnds])) =
        some ⟨s.registry, cs, none⟩ := by
  induction todo generalizing tr s shown with
  | nil =>
    obtain ⟨c, hc, ht⟩ := toExport_exec h hx
    obtain ⟨ec, hq, -, -⟩ := (toExport_iff env c).mp ht
    have hstep : ∃ cs, step s.connections (.on i (.readHandler (env.settings (exportText env.fmtValue shown)))) =
        some cs := by
      simp [step, hc, MetricsHttpConnection.step, hq]
    obtain ⟨cs, hcs⟩ := hstep
    refine ⟨[], cs, .nil, by rw [List.append_nil]; exact hcs, ?_⟩
    refine ((service hs env).exec_concat tr .exportEnds _).mpr ⟨s, h, ?_⟩
    simp only [service, Service.step, hx, Service.serverStep, hcs, Option.map_some]
  | cons handle todo ih =>
    have hlt := todo_lt h hx handle List.mem_cons_self
    have hm : s.registry.heap[handle]? = some s.registry.heap[handle] := List.getElem?_eq_getElem hlt
    have hnext : (service hs env).exec (tr ++ [.exportNext]) =
        some { s with exporting := some ⟨i, todo, shown ++ [s.registry.heap[handle]]⟩ } := by
      refine ((service hs env).exec_concat tr .exportNext _).mpr ⟨s, h, ?_⟩
      simp only [service, Service.step, hx, hm, Option.map_some]
    obtain ⟨ms, cs, hms, hcs, hrun⟩ := ih hnext rfl
    refine ⟨s.registry.heap[handle] :: ms, cs, .cons hm hms, by simpa using hcs, ?_⟩
    simpa [List.replicate_succ] using hrun

/-- From a state with no export under way, in which connection `i` may start
one. -/
theorem export_whole {tr : List (ServiceEvent hs)} (h : (service hs env).exec tr = some s) (hnone : s.exporting = none)
    (hi : s.connections[i]? = some c) (ht : c.toExport env = true) :
    ∃ cs, step s.connections (.on i (.readHandler (env.settings (s.registry.prometheusTxt env.fmtValue)))) =
        some cs ∧
      (service hs env).exec (tr ++ .exportBegins i ::
        (List.replicate s.registry.handles.length .exportNext ++ [.exportEnds])) = some ⟨s.registry, cs, none⟩ := by
  have hbegins : (service hs env).exec (tr ++ [.exportBegins i]) =
      some { s with exporting := some ⟨i, s.registry.handles, []⟩ } := by
    refine ((service hs env).exec_concat tr (.exportBegins i) _).mpr ⟨s, h, ?_⟩
    simp [service, Service.step, hnone, hi, ht]
  obtain ⟨ms, cs, hms, hcs, hrun⟩ := export_ends hbegins rfl
  have hexported := exported_of_handles hms
  refine ⟨cs, ?_, by simpa using hrun⟩
  rw [Registry.prometheusTxt, hexported]
  exact hcs

/-! ## Going on -/

theorem exportEvents_keep (n : Nat) :
    ∀ e ∈ List.replicate n (@ServiceEvent.exportNext hs) ++ [.exportEnds], e.changesText = false := by
  intro e he
  rcases List.mem_append.mp he with he | he
  · rw [List.eq_of_mem_replicate he]
    rfl
  · rw [List.mem_singleton.mp he]
    rfl

/-- A run can go on, with the registry as it is, until connection `i` has
fewer steps left. -/
def GoesOn (env : Env) (tr : List (ServiceEvent hs)) (i : Nat) (c : MetricsHttpConnection) : Prop :=
  ∃ rest s' c', (∀ e ∈ rest, e.changesText = false) ∧ (service hs env).exec (tr ++ rest) = some s' ∧
    s'.exporting = none ∧ s'.connections[i]? = some c' ∧ c'.left < c.left

variable {tr : List (ServiceEvent hs)}

theorem goesOn_server (h : (service hs env).exec tr = some s) (hnone : s.exporting = none)
    (hi : s.connections[i]? = some c) (ce : ConnectionEvent) (hp : (ServerEvent.on i ce).possible false = true)
    (hce : (c.step ce).isSome = true) : GoesOn env tr i c := by
  obtain ⟨c', hce⟩ := Option.isSome_iff_exists.mp hce
  refine ⟨[.server (.on i ce)], { s with connections := s.connections.set i c' }, c', by simp [ServiceEvent.changesText],
    ((service hs env).exec_concat tr _ _).mpr ⟨s, h, ?_⟩, hnone,
    List.getElem?_set_self (List.getElem?_eq_some_iff.mp hi).1, step_left (service_inv h hi) hce⟩
  simp only [service, Service.step, hnone, Option.isSome_none, if_pos hp, Service.serverStep, step, hi,
    Option.bind_some, hce, Option.map_some]

theorem goesOn_read (h : (service hs env).exec tr = some s) (hnone : s.exporting = none)
    (hi : s.connections[i]? = some c) {ec : ErrorCode} (hq : c.read = .queued ec) : GoesOn env tr i c := by
  have hlt := (List.getElem?_eq_some_iff.mp hi).1
  have hstep : ∀ cfg, ∃ c', c.step (.readHandler cfg) = some c' := fun cfg => by simp [MetricsHttpConnection.step, hq]
  cases ht : c.toExport env with
  | true =>
    obtain ⟨cs, hcs, hrun⟩ := export_whole h hnone hi ht
    obtain ⟨c', hc'⟩ := hstep (env.settings (s.registry.prometheusTxt env.fmtValue))
    simp only [step, hi, Option.bind_some, hc', Option.map_some, Option.some.injEq] at hcs
    subst hcs
    refine ⟨_, _, c', fun e he => ?_, hrun, rfl, List.getElem?_set_self hlt, step_left (service_inv h hi) hc'⟩
    rcases List.mem_cons.mp he with rfl | he
    · rfl
    · exact exportEvents_keep _ e he
  | false =>
    obtain ⟨c', hc'⟩ := hstep (env.settings [])
    refine ⟨[.noExport i], ⟨s.registry, s.connections.set i c', none⟩, c', by simp [ServiceEvent.changesText],
      ((service hs env).exec_concat tr _ _).mpr ⟨s, h, ?_⟩, rfl, List.getElem?_set_self hlt,
      step_left (service_inv h hi) hc'⟩
    simp [service, Service.step, hnone, hi, ht, Service.serverStep, step, hc']

/-- **Progress.** While a connection has steps left it can make one. -/
theorem goesOn (h : (service hs env).exec tr = some s) (hnone : s.exporting = none)
    (hi : s.connections[i]? = some c) (hleft : c.left ≠ 0) : GoesOn env tr i c := by
  -- an outstanding operation may fail at any time
  have hfails : (⟨1, []⟩ : ErrorCode).failed = true := rfl
  cases hr : c.read with
  | outstanding =>
    exact goesOn_server h hnone hi (.readCompletes ⟨1, []⟩ c.request) rfl
      (by simp [MetricsHttpConnection.step, hr, hfails])
  | queued ec => exact goesOn_read h hnone hi hr
  | notStarted | done =>
    cases hw : c.write with
    | outstanding =>
      exact goesOn_server h hnone hi (.writeCompletes ⟨1, []⟩) rfl
        (by simp [MetricsHttpConnection.step, hw, hfails])
    | queued ec =>
      exact goesOn_server h hnone hi (.writeHandler ⟨0, []⟩ ⟨0, []⟩) rfl
        (by simp [MetricsHttpConnection.step, hw])
    | notStarted | done =>
      cases ht : c.wait with
      | outstanding =>
        exact goesOn_server h hnone hi (.waitCompletes ⟨1, []⟩) rfl
          (by simp [MetricsHttpConnection.step, ht, hfails])
      | queued ec =>
        exact goesOn_server h hnone hi .deadlineHandler rfl (by simp [MetricsHttpConnection.step, ht])
      | notStarted | done => exact absurd (by simp [MetricsHttpConnection.left, hr, hw, ht, Operation.left]) hleft

theorem closes_of_idle (n : Nat) (h : (service hs env).exec tr = some s) (hnone : s.exporting = none)
    (hi : s.connections[i]? = some c) (hn : c.left ≤ n) :
    ∃ rest s' c', (∀ e ∈ rest, e.changesText = false) ∧ (service hs env).exec (tr ++ rest) = some s' ∧
      s'.connections[i]? = some c' ∧ c'.quiet ∧ c'.socketOpen = false := by
  by_cases hleft : c.left = 0
  · have hquiet := quiet_of_left hleft
    exact ⟨[], s, c, by simp, by rwa [List.append_nil], hi, hquiet, closed_of_quiet (service_inv h hi) hquiet⟩
  induction n generalizing tr s c with
  | zero => omega
  | succ n ih =>
    obtain ⟨rest, s₁, c₁, hrest, h₁, hnone₁, hi₁, hlt⟩ := goesOn h hnone hi hleft
    by_cases hleft₁ : c₁.left = 0
    · have hquiet := quiet_of_left hleft₁
      exact ⟨rest, s₁, c₁, hrest, h₁, hi₁, hquiet, closed_of_quiet (service_inv h₁ hi₁) hquiet⟩
    obtain ⟨rest₂, s₂, c₂, hrest₂, h₂, hfinal⟩ := ih h₁ hnone₁ hi₁ (by omega) hleft₁
    refine ⟨rest ++ rest₂, s₂, c₂, fun e he => ?_, by rwa [← List.append_assoc], hfinal⟩
    exact (List.mem_append.mp he).elim (hrest e) (hrest₂ e)

/-- **Every connection closes.** A connection makes at most six steps in a
run, as in any run of the server to the same connections, and whatever state
the run is in, it can go on, with the metrics as they are, until the
connection has nothing outstanding or queued and its socket is closed. -/
theorem closes (env : Env) (h : (service hs env).exec tr = some s) (hi : s.connections[i]? = some c) :
    (serverEvents env .init tr).countP (ServerEvent.concerns i) ≤ 6 ∧
      (∀ trc, connections.exec trc = some s.connections → trc.countP (ServerEvent.concerns i) ≤ 6) ∧
      ∃ rest s' c', (∀ e ∈ rest, e.changesText = false) ∧ (service hs env).exec (tr ++ rest) = some s' ∧
        s'.connections[i]? = some c' ∧ c'.quiet ∧ c'.socketOpen = false := by
  have hsix : ∀ trc, connections.exec trc = some s.connections → trc.countP (ServerEvent.concerns i) ≤ 6 := by
    intro trc htrc
    have hmade := (steps_and_left htrc).2 c hi
    omega
  refine ⟨hsix _ (connections_exec h), hsix, ?_⟩
  cases hx : s.exporting with
  | none => exact closes_of_idle c.left h hx hi (le_refl _)
  | some x =>
    obtain ⟨ms, cs, -, hcs, hrun⟩ := export_ends h hx
    obtain ⟨c₁, hi₁, -⟩ := server_step_at hcs hi
    obtain ⟨rest, s', c', hrest, hrun', hfinal⟩ := closes_of_idle c₁.left hrun rfl hi₁ (le_refl _)
    refine ⟨_, s', c', fun e he => ?_, by rwa [← List.append_assoc], hfinal⟩
    rcases List.mem_append.mp he with he | he
    · exact exportEvents_keep _ e he
    · exact hrest e he

/-- A connection that was just accepted. -/
theorem closes_accepted : ∃ rest s' c', (service (fun _ => 0) slashEnv).exec
      ([.server (.accept ⟨0, []⟩)] ++ rest) = some s' ∧
    s'.connections[0]? = some c' ∧ c'.quiet ∧ c'.socketOpen = false := by
  obtain ⟨-, -, rest, s', c', -, hrun, hfinal⟩ :=
    @closes (fun _ => 0) _ 0 _ [.server (.accept ⟨0, []⟩)] slashEnv rfl rfl
  exact ⟨rest, s', c', hrun, hfinal⟩

/-- **A scrape succeeds.** When nothing is exported and the read of a
connection ended without an error, before its deadline and with the right
request, then beginning the export, one step for each registered name and the
end of the export make it send the text of the registry. Nothing comes between
these steps, so that a metric is formatted in one of them is no assumption
here. The trace messages are off, or the pieces of a body are shorter than
their buffer (`TraceBuffer`). -/
theorem scrape_succeeds (env : Env) (h : (service hs env).exec tr = some s) (hnone : s.exporting = none)
    (hi : s.connections[i]? = some c) {ec : ErrorCode} (hq : c.read = .queued ec) (hec : ec.failed = false)
    (hr : c.deadlineReached = false) (hmethod : c.request.method = "GET".toList)
    (htarget : c.request.target = env.pathPrometheus) :
    ∃ s' c', (service hs env).exec (tr ++ .exportBegins i ::
        (List.replicate s.registry.handles.length .exportNext ++ [.exportEnds])) = some s' ∧
      s'.connections[i]? = some c' ∧ c'.started = 1 ∧ c'.response.status = .ok ∧
      c'.response.body = s.registry.prometheusTxt env.fmtValue := by
  have hok : ∀ text, (checkRequest (env.settings text) ec c.request).1 = .ok := fun text =>
    (checkRequest_ok_iff _ _ _).mpr ⟨hec, hmethod, htarget⟩
  obtain ⟨cs, hcs, hrun⟩ := export_whole h hnone hi ((toExport_iff env c).mpr ⟨ec, hq, hr, hok []⟩)
  simp only [step, hi, Option.bind_some, Option.map_eq_some_iff] at hcs
  obtain ⟨c', hc', rfl⟩ := hcs
  have hi' : (s.connections.set i c')[i]? = some c' := List.getElem?_set_self (List.getElem?_eq_some_iff.mp hi).1
  have I : Inv c := service_inv h hi
  have I' : Inv c' := service_inv hrun hi'
  have hwrite : c'.write = .outstanding := by
    simp only [MetricsHttpConnection.step, hq, Option.some.injEq] at hc'
    simp [← hc', MetricsHttpConnection.readHandler, hr, MetricsHttpConnection.writeResponse]
  have hstarted : c'.started = 1 := by rw [I'.started, hwrite, if_neg (by decide)]
  obtain ⟨ec', hq', -, hreq, hres⟩ := readHandler_started I hc' (by omega)
  rw [hq] at hq'
  cases hq'
  refine ⟨_, c', hrun, hi', hstarted, ?_, ?_⟩
  · rw [hres, answer_status, hok]
  · rw [hres, answer_body (hok _)]
    rfl

/-- One gauge is registered and a request waits for its read handler. -/
theorem scrape_succeeds_one : ∃ s' c', (service (fun _ => 0) slashEnv).exec
      [.metrics (.createGauge "a".toList [] 1 noLabels 0), .server (.accept ⟨0, []⟩),
        readEvent _ 0 ⟨0, []⟩ ⟨"GET".toList, "/".toList⟩, .exportBegins 0, .exportNext, .exportEnds] = some s' ∧
    s'.connections[0]? = some c' ∧ c'.response.body = (oneGauge [] noLabels).prometheusTxt fmtRat := by
  obtain ⟨s', c', hrun, hi, -, -, hbody⟩ := @scrape_succeeds (fun _ => 0) _ 0 _
    [.metrics (.createGauge "a".toList [] 1 noLabels 0), .server (.accept ⟨0, []⟩),
      readEvent _ 0 ⟨0, []⟩ ⟨"GET".toList, "/".toList⟩] slashEnv rfl rfl rfl ⟨0, []⟩ rfl rfl rfl rfl rfl
  exact ⟨s', c', hrun, hi, hbody⟩

end SoapStab.Metrics.Connection
