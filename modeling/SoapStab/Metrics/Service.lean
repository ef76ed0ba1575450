import SoapStab.Metrics.Connection
import SoapStab.Metrics.Exposition

/-!
# The metrics server and the registry

The read handler of a connection with the right request formats the metrics
registry into its response. `prometheus_txt` holds the registry's lock
shared, so no metric is created meanwhile; it takes no lock of a metric, so
other threads go on updating. The export is therefore a step for each metric,
with anything but a create or another handler in between.

`Service` is the connections and the registry together. Formatting one metric
is one step here: `metric::prometheus_txt` takes no mutex, and it is assumed
that no update of the metric, an insert included, overlaps its formatting.
`Locking.unlocked_view` is about what such an update looks like to it. Values
are exact rationals and not NaN. The results that rest on this say so. The
two settings the handlers read do not change.

**Results.**
* `connections_exec`: the steps of the connections in a run of the service are
  a run of theirs.
* `queued_exec`: a request that waits for its read handler was read.
* `registry_exec`: the names of the registry are those created, in order, and
  it maps each to its last handle.
-/

namespace SoapStab.Metrics

open SoapStab.Lib.Traces SoapStab.Lib.Hash

variable {hs : Str → UInt64}

/-! ## The registry as an export sees it -/

/-- The text of metrics formatted one after the other.
mirrors src/metrics/metrics_registry.cpp:26-45 -/
def exportText (fmtValue : ℚ → Str) (ms : List (Metric hs)) : Str :=
  fmtJoin "\n\n".toList (ms.map (Metric.prometheusTxt fmtValue))

/-- The handles the registry exports, in its iteration order. -/
def Registry.handles (r : Registry hs) : List Nat := r.metrics.entries.map Prod.snd

/-- The same metrics in other iteration orders. -/
structure Registry.Rehashed (r r' : Registry hs) : Prop where
  heap : List.Forall₂ Metric.Rehashed r.heap r'.heap
  metrics : r'.metrics.entries.Perm r.metrics.entries

deriving instance DecidableEq for Metric

instance (m m' : Metric hs) : Decidable (m.Rehashed m') :=
  decidable_of_iff (m' = { m with valuesByLabels := m'.valuesByLabels } ∧
      m'.valuesByLabels.entries.Perm m.valuesByLabels.entries)
    ⟨fun h => ⟨_, h.1, h.2⟩, fun ⟨_, he, hp⟩ => by subst he; exact ⟨rfl, hp⟩⟩

instance (r r' : Registry hs) : Decidable (r.Rehashed r') :=
  decidable_of_iff (List.Forall₂ Metric.Rehashed r.heap r'.heap ∧ r'.metrics.entries.Perm r.metrics.entries)
    ⟨fun h => ⟨h.1, h.2⟩, fun h => ⟨h.heap, h.metrics⟩⟩

theorem Metric.Rehashed.name_eq {m m' : Metric hs} (h : m.Rehashed m') : m'.name = m.name := by
  obtain ⟨t, rfl, -⟩ := h
  rfl

theorem Registry.Rehashed.names_eq {r r' : Registry hs} (h : r.Rehashed r') : r'.names = r.names := by
  have hnames : ∀ ms ms' : List (Metric hs), List.Forall₂ Metric.Rehashed ms ms' →
      ms'.map (·.name) = ms.map (·.name) := by
    intro ms ms' hms
    induction hms with
    | nil => rfl
    | cons hm _ ih => rw [List.map_cons, List.map_cons, hm.name_eq, ih]
  exact hnames _ _ h.heap

theorem Registered.rehashed {r r' : Registry hs} (h : Registered r) (hr : r.Rehashed r') : Registered r' := by
  intro name j
  rw [HashTable.find_perm hr.metrics, hr.names_eq]
  exact h name j

theorem mem_keys_iff {r : Registry hs} (h : Registered r) (name : Str) :
    name ∈ r.metrics.entries.map Prod.fst ↔ name ∈ r.names := by
  constructor
  · intro hmem
    obtain ⟨e, he, rfl⟩ := List.mem_map.mp hmem
    exact List.mem_of_getElem? (isLast_of_mem h he).1
  · intro hmem
    obtain ⟨j, hj⟩ := exists_isLast hmem
    obtain ⟨e, he, hsame, -⟩ := (r.metrics.find_iff name j).mp ((h name j).mpr hj)
    rw [nameKeys_same, decide_eq_true_eq] at hsame
    exact List.mem_map.mpr ⟨e, he, hsame⟩

/-- Metrics formatted for the handles of a registry have its names. -/
theorem names_of_handles {r : Registry hs} (h : Registered r) {ms : List (Metric hs)}
    (hms : List.Forall₂ (fun j m => r.names[j]? = some m.name) r.handles ms) :
    ms.map (·.name) = r.metrics.entries.map Prod.fst := by
  have hes : ∀ es : List (Str × Nat), (∀ e ∈ es, r.names[e.2]? = some e.1) → ∀ ms : List (Metric hs),
      List.Forall₂ (fun j m => r.names[j]? = some m.name) (es.map Prod.snd) ms →
      ms.map (·.name) = es.map Prod.fst := by
    intro es hes ms hms
    induction es generalizing ms with
    | nil =>
      cases hms
      rfl
    | cons e es ih =>
      cases hms with
      | cons hm hms =>
        have he := hes e List.mem_cons_self
        rw [hm] at he
        rw [List.map_cons, List.map_cons, ih (fun e he => hes e (List.mem_cons_of_mem _ he)) _ hms,
          Option.some.inj he]
  exact hes _ (fun e he => (isLast_of_mem h he).1) ms hms

namespace Connection

/-! ## The server and the registry -/

/-- The settings of the handlers, and `{}` of a `double`. -/
structure Env where
  pathPrometheus : Str
  identification : Str
  fmtValue : ℚ → Str

def Env.settings (env : Env) (metricsTxt : Str) : Settings := ⟨env.pathPrometheus, env.identification, metricsTxt⟩

/-- `format_metrics` under way in the read handler of a connection: the
handles it has not come to yet, and the metrics as it formatted them.
mirrors src/metrics/metrics_formatter.cpp:12-17 -/
structure Export (hs : Str → UInt64) where
  connection : Nat
  todo : List Nat
  shown : List (Metric hs)

structure Service (hs : Str → UInt64) where
  registry : Registry hs
  connections : List MetricsHttpConnection
  exporting : Option (Export hs)

def Service.init : Service hs := ⟨Registry.empty, [], none⟩

inductive ServiceEvent (hs : Str → UInt64) where
  /-- A create, or an update on any thread. -/
  | metrics (s : Step hs)
  | rehash (r : Registry hs)
  /-- Anything of the server but a read handler. -/
  | server (e : ServerEvent)
  /-- A read handler that does not come to the export. -/
  | noExport (i : Nat)
  /-- The read handler of connection `i` takes the registry's lock. -/
  | exportBegins (i : Nat)
  /-- It formats one metric. -/
  | exportNext
  /-- It starts writing the response. -/
  | exportEnds

/-- Operations complete at any time; handlers wait for the one that runs. -/
def ServerEvent.possible (exporting : Bool) : ServerEvent → Bool
  | .on _ (.readCompletes _ _) | .on _ (.writeCompletes _) | .on _ (.waitCompletes _) => true
  | .on _ (.readHandler _) => false
  | .accept _ | .on _ (.writeHandler _ _) | .on _ .deadlineHandler => !exporting

/-- The read handler of `c` comes to the export. -/
def MetricsHttpConnection.toExport (env : Env) (c : MetricsHttpConnection) : Bool :=
  match c.read with
  | .queued ec => !c.deadlineReached && decide ((checkRequest (env.settings []) ec c.request).1 = .ok)
  | _ => false

def Service.serverStep (s : Service hs) (e : ServerEvent) (exporting : Option (Export hs)) :
    Option (Service hs) :=
  (Connection.step s.connections e).map fun cs => { s with connections := cs, exporting := exporting }

/-- mirrors src/metrics/metrics_server.cpp:114-187 and
src/metrics/metrics_registry.cpp:12-45 -/
def Service.step (env : Env) (s : Service hs) : ServiceEvent hs → Option (Service hs)
  | .metrics st =>
    if st.creates = none ∨ s.exporting.isNone then some { s with registry := s.registry.step st } else none
  | .rehash r => if s.registry.Rehashed r then some { s with registry := r } else none
  | .server e => if e.possible s.exporting.isSome then s.serverStep e s.exporting else none
  | .noExport i =>
    if s.exporting.isNone ∧ ∃ c ∈ s.connections[i]?, c.toExport env = false then
      s.serverStep (.on i (.readHandler (env.settings []))) none
    else none
  | .exportBegins i =>
    if s.exporting.isNone ∧ ∃ c ∈ s.connections[i]?, c.toExport env = true then
      some { s with exporting := some ⟨i, s.registry.handles, []⟩ }
    else none
  | .exportNext =>
    match s.exporting with
    | some ⟨i, handle :: todo, shown⟩ =>
      s.registry.heap[handle]?.map fun m => { s with exporting := some ⟨i, todo, shown ++ [m]⟩ }
    | _ => none
  | .exportEnds =>
    match s.exporting with
    | some ⟨i, [], shown⟩ =>
      s.serverStep (.on i (.readHandler (env.settings (exportText env.fmtValue shown)))) none
    | _ => none

def service (hs : Str → UInt64) (env : Env) : System (Service hs) (ServiceEvent hs) := ⟨.init, Service.step env⟩

/-! ## What a step can do -/

variable {env : Env} {s s' : Service hs} {e : ServiceEvent hs} {i : Nat} {c c' : MetricsHttpConnection}

theorem serverStep_eq_some {e : ServerEvent} {x : Option (Export hs)} :
    s.serverStep e x = some s' ↔ ∃ cs, Connection.step s.connections e = some cs ∧ s' = ⟨s.registry, cs, x⟩ := by
  rw [Service.serverStep, Option.map_eq_some_iff]
  exact exists_congr fun cs => and_congr_right' eq_comm

theorem service_cases (h : s.step env e = some s') :
    (∃ st, e = .metrics st ∧ (st.creates = none ∨ s.exporting = none) ∧
      s' = { s with registry := s.registry.step st }) ∨
    (∃ r, e = .rehash r ∧ s.registry.Rehashed r ∧ s' = { s with registry := r }) ∨
    (∃ se cs, e = .server se ∧ se.possible s.exporting.isSome = true ∧
      Connection.step s.connections se = some cs ∧ s' = { s with connections := cs }) ∨
    (∃ i c cs, e = .noExport i ∧ s.exporting = none ∧ s.connections[i]? = some c ∧ c.toExport env = false ∧
      Connection.step s.connections (.on i (.readHandler (env.settings []))) = some cs ∧
      s' = ⟨s.registry, cs, none⟩) ∨
    (∃ i c, e = .exportBegins i ∧ s.exporting = none ∧ s.connections[i]? = some c ∧ c.toExport env = true ∧
      s' = { s with exporting := some ⟨i, s.registry.handles, []⟩ }) ∨
    (∃ i handle todo shown m, e = .exportNext ∧ s.exporting = some ⟨i, handle :: todo, shown⟩ ∧
      s.registry.heap[handle]? = some m ∧ s' = { s with exporting := some ⟨i, todo, shown ++ [m]⟩ }) ∨
    (∃ i shown cs, e = .exportEnds ∧ s.exporting = some ⟨i, [], shown⟩ ∧
      Connection.step s.connections (.on i (.readHandler (env.settings (exportText env.fmtValue shown)))) =
        some cs ∧ s' = ⟨s.registry, cs, none⟩) := by
  cases e with
  | metrics st =>
    simp only [Service.step, Option.ite_none_right_eq_some, Option.some.injEq, Option.isNone_iff_eq_none] at h
    exact .inl ⟨st, rfl, h.1, h.2.symm⟩
  | rehash r =>
    simp only [Service.step, Option.ite_none_right_eq_some, Option.some.injEq] at h
    exact .inr (.inl ⟨r, rfl, h.1, h.2.symm⟩)
  | server se =>
    simp only [Service.step, Option.ite_none_right_eq_some, serverStep_eq_some] at h
    obtain ⟨hp, cs, hcs, rfl⟩ := h
    exact .inr (.inr (.inl ⟨se, cs, rfl, hp, hcs, rfl⟩))
  | noExport i =>
    simp only [Service.step, Option.ite_none_right_eq_some, serverStep_eq_some, Option.isNone_iff_eq_none] at h
    obtain ⟨⟨hnone, c, hc, ht⟩, cs, hcs, rfl⟩ := h
    exact .inr (.inr (.inr (.inl ⟨i, c, cs, rfl, hnone, hc, ht, hcs, rfl⟩)))
  | exportBegins i =>
    simp only [Service.step, Option.ite_none_right_eq_some, Option.some.injEq, Option.isNone_iff_eq_none] at h
    obtain ⟨⟨hnone, c, hc, ht⟩, rfl⟩ := h
    exact .inr (.inr (.inr (.inr (.inl ⟨i, c, rfl, hnone, hc, ht, rfl⟩))))
  | exportNext =>
    simp only [Service.step] at h
    split at h
    · next i handle todo shown hx =>
      obtain ⟨m, hm, rfl⟩ := Option.map_eq_some_iff.mp h
      exact .inr (.inr (.inr (.inr (.inr (.inl ⟨i, handle, todo, shown, m, rfl, hx, hm, rfl⟩)))))
    · cases h
  | exportEnds =>
    simp only [Service.step] at h
    split at h
    · next i shown hx =>
      obtain ⟨cs, hcs, rfl⟩ := serverStep_eq_some.mp h
      exact .inr (.inr (.inr (.inr (.inr (.inr ⟨i, shown, cs, rfl, hx, hcs, rfl⟩)))))
    · cases h

/-! ## The connections in a run -/

/-- What an event is to the connections. A read handler takes the settings
with the text of its export. -/
def Service.serverEvent (env : Env) (s : Service hs) : ServiceEvent hs → Option ServerEvent
  | .server se => some se
  | .noExport i => some (.on i (.readHandler (env.settings [])))
  | .exportEnds => s.exporting.map fun x =>
      .on x.connection (.readHandler (env.settings (exportText env.fmtValue x.shown)))
  | .metrics _ | .rehash _ | .exportBegins _ | .exportNext => none

/-- The steps that the connections make in a run from `s`. -/
def serverEvents (env : Env) : Service hs → List (ServiceEvent hs) → List ServerEvent
  | _, [] => []
  | s, e :: tr => (s.serverEvent env e).toList ++ ((s.step env e).elim [] fun s' => serverEvents env s' tr)

theorem serverEvents_concat {s₀ : Service hs} {tr : List (ServiceEvent hs)}
    (h : tr.foldlM (Service.step env) s₀ = some s) (e : ServiceEvent hs) :
    serverEvents env s₀ (tr ++ [e]) = serverEvents env s₀ tr ++ (s.serverEvent env e).toList := by
  induction tr generalizing s₀ with
  | nil =>
    cases h
    rw [List.nil_append, serverEvents, serverEvents]
    cases s.step env e <;> simp [serverEvents]
  | cons e₀ tr ih =>
    obtain ⟨s₁, hs₁, h⟩ := Option.bind_eq_some_iff.mp h
    rw [List.cons_append, serverEvents, serverEvents, hs₁, Option.elim_some, Option.elim_some, ih h,
      List.append_assoc]

/-- The connections make the step of the event, or none. -/
theorem connections_step (h : s.step env e = some s') :
    (s.serverEvent env e).toList.foldlM Connection.step s.connections = some s'.connections := by
  rcases service_cases h with ⟨_, rfl, -, rfl⟩ | ⟨_, rfl, -, rfl⟩ | ⟨se, cs, rfl, -, hcs, rfl⟩ |
    ⟨i, c, cs, rfl, -, -, -, hcs, rfl⟩ | ⟨i, c, rfl, -, -, -, rfl⟩ | ⟨i, handle, todo, shown, m, rfl, -, -, rfl⟩ |
    ⟨i, shown, cs, rfl, hx, hcs, rfl⟩
  · rfl
  · rfl
  · simpa [Service.serverEvent] using hcs
  · simpa [Service.serverEvent] using hcs
  · rfl
  · rfl
  · simpa [Service.serverEvent, hx] using hcs

/-- **Refinement.** The steps of the connections in a run of the service are
a run of theirs. -/
theorem connections_exec {tr : List (ServiceEvent hs)} (h : (service hs env).exec tr = some s) :
    connections.exec (serverEvents env .init tr) = some s.connections := by
  refine System.exec_induction (I := fun tr s => (service hs env).exec tr = some s ∧
    connections.exec (serverEvents env .init tr) = some s.connections) ⟨rfl, rfl⟩ ?_ h |>.2
  intro tr s e s' ⟨hrun, ih⟩ hl
  refine ⟨((service hs env).exec_concat tr e s').mpr ⟨s, hrun, hl⟩, ?_⟩
  have hsteps : serverEvents env .init (tr ++ [e]) = serverEvents env .init tr ++ (s.serverEvent env e).toList :=
    serverEvents_concat hrun e
  rw [hsteps, System.exec_append ih]
  exact connections_step hl

theorem service_inv {tr : List (ServiceEvent hs)} (h : (service hs env).exec tr = some s)
    (hi : s.connections[i]? = some c) : Inv c :=
  inv_exec (connections_exec h) c (List.mem_of_getElem? hi)

/-! ## The connections in a step -/

/-- Where a connection comes from in a step of the server. -/
theorem server_step_from {cs cs' : List MetricsHttpConnection} {se : ServerEvent}
    (h : Connection.step cs se = some cs') (hi : cs'[i]? = some c') :
    cs[i]? = some c' ∨ (cs[i]? = none ∧ c' = MetricsHttpConnection.ctor.process) ∨
      ∃ c ce, cs[i]? = some c ∧ se = .on i ce ∧ c.step ce = some c' := by
  cases se with
  | accept ec =>
    simp only [Connection.step, Option.some.injEq] at h
    split at h
    · exact .inl (h ▸ hi)
    · subst h
      rw [List.getElem?_append] at hi
      split at hi
      · exact .inl hi
      · next hlt =>
        have hnone : cs[i]? = none := List.getElem?_eq_none (Nat.le_of_not_lt hlt)
        exact .inr (.inl ⟨hnone, List.mem_singleton.mp (List.mem_of_getElem? hi)⟩)
  | on j ce =>
    simp only [Connection.step, Option.bind_eq_some_iff, Option.map_eq_some_iff] at h
    obtain ⟨c, hc, c₁, hc₁, rfl⟩ := h
    by_cases hij : j = i
    · subst hij
      rw [List.getElem?_set_self (List.getElem?_eq_some_iff.mp hc).1] at hi
      cases hi
      exact .inr (.inr ⟨c, ce, hc, rfl, hc₁⟩)
    · rw [List.getElem?_set_ne hij] at hi
      exact .inl hi

/-- Where a connection comes from in a step of the service. -/
theorem service_step_from (h : s.step env e = some s') (hi : s'.connections[i]? = some c') :
    s.connections[i]? = some c' ∨ c' = MetricsHttpConnection.ctor.process ∨
      ∃ c ce, s.connections[i]? = some c ∧ c.step ce = some c' ∧
        ((e = .server (.on i ce) ∧ ∀ cfg, ce ≠ .readHandler cfg) ∨
          (e = .noExport i ∧ c.toExport env = false ∧ ce = .readHandler (env.settings [])) ∨
          ∃ shown, e = .exportEnds ∧ s.exporting = some ⟨i, [], shown⟩ ∧
            ce = .readHandler (env.settings (exportText env.fmtValue shown))) := by
  rcases service_cases h with ⟨_, -, -, rfl⟩ | ⟨_, -, -, rfl⟩ | ⟨se, cs, rfl, hp, hcs, rfl⟩ |
    ⟨j, c, cs, rfl, -, hc, ht, hcs, rfl⟩ | ⟨j, c, -, -, -, -, rfl⟩ | ⟨j, handle, todo, shown, m, -, -, -, rfl⟩ |
    ⟨j, shown, cs, rfl, hx, hcs, rfl⟩
  · exact .inl hi
  · exact .inl hi
  · rcases server_step_from hcs hi with h | h | ⟨c, ce, hc, rfl, hce⟩
    · exact .inl h
    · exact .inr (.inl h.2)
    · refine .inr (.inr ⟨c, ce, hc, hce, .inl ⟨rfl, fun cfg he => ?_⟩⟩)
      subst he
      cases hp
  · rcases server_step_from hcs hi with h | h | ⟨c, ce, hc', he, hce⟩
    · exact .inl h
    · exact .inr (.inl h.2)
    · cases he
      cases hc.symm.trans hc'
      exact .inr (.inr ⟨c, _, hc, hce, .inr (.inl ⟨rfl, ht, rfl⟩)⟩)
  · exact .inl hi
  · exact .inl hi
  · rcases server_step_from hcs hi with h | h | ⟨c, ce, hc', he, hce⟩
    · exact .inl h
    · exact .inr (.inl h.2)
    · cases he
      exact .inr (.inr ⟨c, _, hc', hce, .inr (.inr ⟨shown, rfl, hx, rfl⟩)⟩)

/-! ## The connection whose read handler runs -/

theorem toExport_iff (env : Env) (c : MetricsHttpConnection) : c.toExport env = true ↔
    ∃ ec, c.read = .queued ec ∧ c.deadlineReached = false ∧
      (checkRequest (env.settings []) ec c.request).1 = .ok := by
  unfold MetricsHttpConnection.toExport
  cases c.read <;> simp

/-- While a read handler runs its connection stays as it found it: only
operations of others complete. -/
theorem toExport_step {ce : ConnectionEvent} (hp : (ServerEvent.on i ce).possible true = true)
    (h : c.step ce = some c') (ht : c.toExport env = true) : c'.toExport env = true := by
  obtain ⟨ec₀, hread, -, -⟩ := (toExport_iff env c).mp ht
  rcases step_cases h with ⟨ec, request, -, hout, -, rfl⟩ | ⟨ec, -, -, -, rfl⟩ | ⟨ec, -, -, -, rfl⟩ |
    ⟨cfg, ec, rfl, -, -⟩ | ⟨closeEc, cancelEc, ec, rfl, -, -⟩ | ⟨ec, rfl, -, -⟩
  · rw [hread] at hout
    cases hout
  · exact ht
  · exact ht
  · cases hp
  · cases hp
  · cases hp

theorem toExport_exec {tr : List (ServiceEvent hs)} (h : (service hs env).exec tr = some s) {x : Export hs}
    (hx : s.exporting = some x) : ∃ c, s.connections[x.connection]? = some c ∧ c.toExport env = true := by
  refine System.exec_induction (I := fun _ s => ∀ x : Export hs, s.exporting = some x →
    ∃ c, s.connections[x.connection]? = some c ∧ c.toExport env = true) (fun x hx => by cases hx) ?_ h x hx
  intro tr s e s' ih (hl : s.step env e = some s') x hx
  rcases service_cases hl with ⟨_, -, -, rfl⟩ | ⟨_, -, -, rfl⟩ | ⟨se, cs, -, hp, hcs, rfl⟩ |
    ⟨i, c, cs, -, -, -, -, -, rfl⟩ | ⟨i, c, -, -, hc, ht, rfl⟩ | ⟨i, handle, todo, shown, m, -, hx₀, -, rfl⟩ |
    ⟨i, shown, cs, -, -, -, rfl⟩
  · exact ih x hx
  · exact ih x hx
  · obtain ⟨c, hc, ht⟩ := ih x hx
    obtain ⟨c', hc', -⟩ := server_step_at hcs hc
    have hbusy : s.exporting.isSome = true := by rw [show s.exporting = some x from hx]; rfl
    rw [hbusy] at hp
    refine ⟨c', hc', ?_⟩
    rcases server_step_from hcs hc' with h | ⟨h, -⟩ | ⟨c₁, ce, hc₁, rfl, hce⟩
    · cases hc.symm.trans h
      exact ht
    · cases hc.symm.trans h
    · cases hc.symm.trans hc₁
      exact toExport_step hp hce ht
  · cases hx
  · cases hx
    exact ⟨c, hc, ht⟩
  · cases hx
    exact ih ⟨i, handle :: todo, shown⟩ hx₀
  · cases hx

/-! ## Where the request of a response was read -/

theorem writeHandler_keeps (c : MetricsHttpConnection) (closeEc cancelEc : ErrorCode) :
    (c.writeHandler closeEc cancelEc).read = c.read ∧ (c.writeHandler closeEc cancelEc).request = c.request ∧
      (c.writeHandler closeEc cancelEc).response = c.response ∧
      (c.writeHandler closeEc cancelEc).started = c.started := by
  unfold MetricsHttpConnection.writeHandler
  split
  · exact ⟨rfl, rfl, rfl, rfl⟩
  · split <;> exact ⟨rfl, rfl, rfl, rfl⟩

theorem deadlineHandler_keeps (c : MetricsHttpConnection) (ec : ErrorCode) :
    (c.deadlineHandler ec).read = c.read ∧ (c.deadlineHandler ec).request = c.request ∧
      (c.deadlineHandler ec).response = c.response ∧ (c.deadlineHandler ec).started = c.started := by
  unfold MetricsHttpConnection.deadlineHandler
  split <;> exact ⟨rfl, rfl, rfl, rfl⟩

/-- A step of a connection other than its read handler leaves a response that
was started, and the request it answers. -/
theorem step_started (I : Inv c) {ce : ConnectionEvent} (hr : ∀ cfg, ce ≠ .readHandler cfg)
    (h : c.step ce = some c') : c'.started = c.started ∧ (c.started ≠ 0 → c'.request = c.request) ∧
      c'.response = c.response := by
  rcases step_cases h with ⟨ec, request, -, hout, -, rfl⟩ | ⟨ec, -, -, -, rfl⟩ | ⟨ec, -, -, -, rfl⟩ |
    ⟨cfg, ec, rfl, -, -⟩ | ⟨closeEc, cancelEc, ec, -, -, rfl⟩ | ⟨ec, -, -, rfl⟩
  · have hs : c.started = 0 := by rw [I.started, if_pos (I.unread (by simp [hout]))]
    exact ⟨rfl, fun hne => absurd hs hne, rfl⟩
  · exact ⟨rfl, fun _ => rfl, rfl⟩
  · exact ⟨rfl, fun _ => rfl, rfl⟩
  · exact absurd rfl (hr cfg)
  · obtain ⟨-, hreq, hres, hst⟩ := writeHandler_keeps { c with write := .done } closeEc cancelEc
    exact ⟨hst, fun _ => hreq, hres⟩
  · obtain ⟨-, hreq, hres, hst⟩ := deadlineHandler_keeps { c with wait := .done } ec
    exact ⟨hst, fun _ => hreq, hres⟩

/-- A read that is queued afterwards was queued before, or completed now. -/
theorem step_queued {ce : ConnectionEvent} (h : c.step ce = some c') {ec : ErrorCode} (hq : c'.read = .queued ec) :
    ce = .readCompletes ec c'.request ∨ c.read = .queued ec ∧ c'.request = c.request := by
  rcases step_cases h with ⟨ec', request, rfl, -, -, rfl⟩ | ⟨ec', -, -, -, rfl⟩ | ⟨ec', -, -, -, rfl⟩ |
    ⟨cfg, ec', -, -, rfl⟩ | ⟨closeEc, cancelEc, ec', -, -, rfl⟩ | ⟨ec', -, -, rfl⟩
  · cases hq
    exact .inl rfl
  · exact .inr ⟨hq, rfl⟩
  · exact .inr ⟨hq, rfl⟩
  · unfold MetricsHttpConnection.readHandler at hq
    split at hq <;> cases hq
  · obtain ⟨hread, hreq, -, -⟩ := writeHandler_keeps { c with write := .done } closeEc cancelEc
    exact .inr ⟨hread ▸ hq, hreq⟩
  · obtain ⟨hread, hreq, -, -⟩ := deadlineHandler_keeps { c with wait := .done } ec'
    exact .inr ⟨hread ▸ hq, hreq⟩

/-- The event that the read of connection `i` completed. -/
def readEvent (hs : Str → UInt64) (i : Nat) (ec : ErrorCode) (request : Request) : ServiceEvent hs :=
  .server (.on i (.readCompletes ec request))

theorem queued_exec {tr : List (ServiceEvent hs)} (h : (service hs env).exec tr = some s)
    (hi : s.connections[i]? = some c) {ec : ErrorCode} (hq : c.read = .queued ec) :
    readEvent hs i ec c.request ∈ tr := by
  refine System.exec_induction (I := fun tr s => ∀ c, s.connections[i]? = some c → c.read = .queued ec →
    readEvent hs i ec c.request ∈ tr) (fun c hc => by cases hc) ?_ h c hi hq
  intro tr s e s' ih hl c' hi' hq'
  rcases service_step_from hl hi' with hi | rfl | ⟨c, ce, hi, hce, he⟩
  · exact List.mem_append_left _ (ih c' hi hq')
  · cases hq'
  · rcases step_queued hce hq' with rfl | ⟨hq, hreq⟩
    · rcases he with ⟨rfl, -⟩ | ⟨-, -, he⟩ | ⟨shown, -, -, he⟩
      · exact List.mem_append_right _ (List.mem_singleton_self _)
      · cases he
      · cases he
    · rw [hreq]
      exact List.mem_append_left _ (ih c hi hq)

/-! ## The registry in a run -/

/-- The name under which an event creates a metric. -/
def ServiceEvent.creates : ServiceEvent hs → Option Str
  | .metrics st => st.creates
  | _ => none

/-- Whether an event changes what the registry's text says. -/
def ServiceEvent.changesText : ServiceEvent hs → Bool
  | .metrics _ | .rehash _ => true
  | _ => false

theorem registry_step (h : s.step env e = some s') :
    (∃ st, e = .metrics st ∧ s'.registry = s.registry.step st) ∨
    (∃ r, e = .rehash r ∧ s.registry.Rehashed r ∧ s'.registry = r) ∨
    e.changesText = false ∧ e.creates = none ∧ s'.registry = s.registry := by
  rcases service_cases h with ⟨st, rfl, -, rfl⟩ | ⟨r, rfl, hr, rfl⟩ | ⟨se, cs, rfl, -, -, rfl⟩ |
    ⟨i, c, cs, rfl, -, -, -, -, rfl⟩ | ⟨i, c, rfl, -, -, -, rfl⟩ | ⟨i, handle, todo, shown, m, rfl, -, -, rfl⟩ |
    ⟨i, shown, cs, rfl, -, -, rfl⟩
  · exact .inl ⟨st, rfl, rfl⟩
  · exact .inr (.inl ⟨r, rfl, hr, rfl⟩)
  all_goals exact .inr (.inr ⟨rfl, rfl, rfl⟩)

/-- What is known of the registry after a run. -/
theorem registry_exec {tr : List (ServiceEvent hs)} (h : (service hs env).exec tr = some s) :
    Registered s.registry ∧ Reachable s.registry ∧ s.registry.names = tr.filterMap ServiceEvent.creates := by
  refine System.exec_induction (I := fun tr s => Registered s.registry ∧ Reachable s.registry ∧
    s.registry.names = tr.filterMap ServiceEvent.creates) ⟨Registered.empty, .empty, rfl⟩ ?_ h
  intro tr s e s' ⟨hreg, hreach, hnames⟩ (hl : s.step env e = some s')
  rw [List.filterMap_append, ← hnames]
  rcases registry_step hl with ⟨st, rfl, hr⟩ | ⟨r, rfl, hre, hr⟩ | ⟨-, hc, hr⟩
  · rw [hr, names_step]
    refine ⟨hreg.step st, .step hreach st, ?_⟩
    cases hc : st.creates <;> simp [ServiceEvent.creates, hc]
  · rw [hr]
    exact ⟨hreg.rehashed hre, .rehash hreach hre.heap hre.metrics, by simp [ServiceEvent.creates, hre.names_eq]⟩
  · rw [hr]
    exact ⟨hreg, hreach, by simp [hc]⟩

/-- Until something changes the text of the registry it stays as it is. -/
theorem registry_unchanged {before : List (ServiceEvent hs)} {s₀ : Service hs}
    (h₀ : (service hs env).exec before = some s₀) {d : List (ServiceEvent hs)} {s : Service hs}
    (h : (service hs env).exec (before ++ d) = some s) (hd : ∀ e ∈ d, e.changesText = false) :
    s.registry = s₀.registry := by
  induction d using List.reverseRecOn generalizing s with
  | nil =>
    rw [List.append_nil, h₀] at h
    cases h
    rfl
  | append_singleton d e ih =>
    rw [← List.append_assoc] at h
    obtain ⟨s₁, h₁, hl⟩ := ((service hs env).exec_concat _ e s).mp h
    have he : e.changesText = false := hd e (by simp)
    have hkept : s₁.registry = s₀.registry := ih h₁ fun e he => hd e (List.mem_append_left _ he)
    rcases registry_step hl with ⟨st, rfl, -⟩ | ⟨r, rfl, -, -⟩ | ⟨-, -, hr⟩
    · cases he
    · cases he
    · rw [hr, hkept]

end Connection

end SoapStab.Metrics
