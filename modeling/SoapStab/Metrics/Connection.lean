import SoapStab.Common.Str
import SoapStab.Lib.Traces

/-!
# The life cycle of a metrics connection

An accepted connection starts reading the request and waiting for its
deadline. Three completion handlers follow, in any order: the read handler
prepares a response and starts writing it, unless the deadline was reached
before; the write handler closes the socket and cancels the timer; the
deadline handler closes the socket if the wait ended without an error.

An operation is outstanding until it completes with some error code, and then
its handler is queued until it runs. What is assumed of Asio is in
`MetricsHttpConnection.step`: handlers run one at a time; an operation on a closed
socket completes with an error, a cancelled wait too, unless it completed
before; `close` closes the socket whatever error it reports.

**Results.**
* `lifecycle`: in every run, every connection prepares and starts at most one
  response, none once its deadline is reached, and its socket is closed when
  nothing is outstanding or queued any more.
* `answer_checked`: the response a read handler starts to write is the one
  its request calls for.

The trace line of the read handler, with its copy of the body, is the subject
of `TraceBuffer`. `_uid` is only logged.
-/
namespace SoapStab.Metrics.Connection

open SoapStab.Lib.Traces

/-! ## Requests and responses -/

/-- `boost::beast::error_code` -/
structure ErrorCode where
  value : Int
  message : Str
  deriving DecidableEq

/-- `if(ec)` -/
def ErrorCode.failed (ec : ErrorCode) : Bool := decide (ec.value ≠ 0)

structure Request where
  method : Str
  target : Str
  deriving DecidableEq

/-- The `http::status` values used. -/
inductive Status where
  | ok | notFound | methodNotAllowed | internalServerError
  deriving DecidableEq

/-- What `<<` prints of a status. -/
def Status.text : Status → Str
  | .ok => "OK".toList
  | .notFound => "Not Found".toList
  | .methodNotAllowed => "Method Not Allowed".toList
  | .internalServerError => "Internal Server Error".toList

/-- The fields of `_response`; absent headers are `none`. -/
structure Response where
  status : Status
  server : Option Str
  connection : Option Str
  contentType : Option Str
  contentLength : Option Nat
  body : Str
  deriving DecidableEq

def Response.empty : Response := ⟨.ok, none, none, none, none, []⟩

/-- The settings and the metrics text the read handler uses when it runs. -/
structure Settings where
  pathPrometheus : Str
  identification : Str
  metricsTxt : Str
  deriving DecidableEq

/-- mirrors src/metrics/metrics_server.cpp:165-187 -/
def prepareResponse (cfg : Settings) (response : Response) (httpStatus : Status) (msg : Option Str) :
    Response :=
  let r := { response with
    status := httpStatus
    server := some cfg.identification
    connection := some "close".toList }
  let r :=
    if httpStatus ≠ .ok then { r with body := r.body ++ msg.getD httpStatus.text }
    else { r with contentType := some "text/plain".toList, body := r.body ++ cfg.metricsTxt }
  { r with contentLength := some r.body.length }

/-- The arguments of `prepare_response`.
mirrors src/metrics/metrics_server.cpp:140-155 -/
def checkRequest (cfg : Settings) (ec : ErrorCode) (request : Request) : Status × Option Str :=
  if ec.failed then (.internalServerError, some ec.message)
  else if request.method ≠ "GET".toList then (.methodNotAllowed, none)
  else if request.target ≠ cfg.pathPrometheus then (.notFound, none)
  else (.ok, none)

/-- The response to a request whose read ended with `ec`. -/
def answer (cfg : Settings) (ec : ErrorCode) (request : Request) : Response :=
  prepareResponse cfg .empty (checkRequest cfg ec request).1 (checkRequest cfg ec request).2

/-! ## One connection -/

/-- An asynchronous operation and its handler. -/
inductive Operation where
  | notStarted
  | outstanding
  | queued (ec : ErrorCode)
  | done
  deriving DecidableEq

/-- mirrors src/metrics/metrics_server.h:52-108 -/
structure MetricsHttpConnection where
  deadlineReached : Bool
  socketOpen : Bool
  request : Request
  response : Response
  read : Operation
  write : Operation
  wait : Operation
  /-- `_deadline.cancel` was called during the wait. -/
  waitCancelled : Bool
  /-- Responses prepared, and writes started. -/
  prepared : Nat
  started : Nat
  deriving DecidableEq

/-- A new connection on an accepted socket. -/
def MetricsHttpConnection.ctor : MetricsHttpConnection where
  deadlineReached := false
  socketOpen := true
  request := ⟨[], []⟩
  response := .empty
  read := .notStarted
  write := .notStarted
  wait := .notStarted
  waitCancelled := false
  prepared := 0
  started := 0

/-- mirrors src/metrics/metrics_server.cpp:81-88,91-94,114 -/
def MetricsHttpConnection.process (c : MetricsHttpConnection) : MetricsHttpConnection :=
  { c with read := .outstanding, wait := .outstanding }

/-- mirrors src/metrics/metrics_server.cpp:189-193 -/
def MetricsHttpConnection.writeResponse (c : MetricsHttpConnection) : MetricsHttpConnection :=
  { c with write := .outstanding, started := c.started + 1 }

/-- mirrors src/metrics/metrics_server.cpp:114-160 -/
def MetricsHttpConnection.readHandler (c : MetricsHttpConnection) (cfg : Settings) (ec : ErrorCode) : MetricsHttpConnection :=
  if c.deadlineReached then c
  else
    let checked := checkRequest cfg ec c.request
    MetricsHttpConnection.writeResponse { c with
      response := prepareResponse cfg c.response checked.1 checked.2
      prepared := c.prepared + 1 }

/-- `closeEc` and `cancelEc` are what `close` and `cancel` report.
mirrors src/metrics/metrics_server.cpp:193-209 -/
def MetricsHttpConnection.writeHandler (c : MetricsHttpConnection) (closeEc cancelEc : ErrorCode) : MetricsHttpConnection :=
  let c := { c with socketOpen := false }
  if closeEc.failed then c
  else if cancelEc.failed then c
  else { c with waitCancelled := true }

/-- mirrors src/metrics/metrics_server.cpp:95-105 -/
def MetricsHttpConnection.deadlineHandler (c : MetricsHttpConnection) (ec : ErrorCode) : MetricsHttpConnection :=
  if ec.failed then c else { c with deadlineReached := true, socketOpen := false }

inductive ConnectionEvent where
  | readCompletes (ec : ErrorCode) (request : Request)
  | writeCompletes (ec : ErrorCode)
  | waitCompletes (ec : ErrorCode)
  | readHandler (cfg : Settings)
  | writeHandler (closeEc cancelEc : ErrorCode)
  | deadlineHandler
  deriving DecidableEq

def MetricsHttpConnection.step (c : MetricsHttpConnection) : ConnectionEvent → Option MetricsHttpConnection
  | .readCompletes ec request =>
    if c.read = .outstanding ∧ (c.socketOpen = false → ec.failed = true) then
      some { c with read := .queued ec, request := request }
    else none
  | .writeCompletes ec =>
    if c.write = .outstanding ∧ (c.socketOpen = false → ec.failed = true) then
      some { c with write := .queued ec }
    else none
  | .waitCompletes ec =>
    if c.wait = .outstanding ∧ (c.waitCancelled = true → ec.failed = true) then
      some { c with wait := .queued ec }
    else none
  | .readHandler cfg =>
    match c.read with
    | .queued ec => some (MetricsHttpConnection.readHandler { c with read := .done } cfg ec)
    | _ => none
  | .writeHandler closeEc cancelEc =>
    match c.write with
    | .queued _ => some (MetricsHttpConnection.writeHandler { c with write := .done } closeEc cancelEc)
    | _ => none
  | .deadlineHandler =>
    match c.wait with
    | .queued ec => some (MetricsHttpConnection.deadlineHandler { c with wait := .done } ec)
    | _ => none

/-- Nothing is outstanding and no handler is queued. -/
def MetricsHttpConnection.quiet (c : MetricsHttpConnection) : Prop :=
  ∀ op ∈ [c.read, c.write, c.wait], op = .notStarted ∨ op = .done

/-! ## All connections -/

inductive ServerEvent where
  | accept (ec : ErrorCode)
  | on (i : Nat) (e : ConnectionEvent)
  deriving DecidableEq

/-- mirrors src/metrics/metrics_server.cpp:34-44 -/
def step (cs : List MetricsHttpConnection) : ServerEvent → Option (List MetricsHttpConnection)
  | .accept ec => some (if ec.failed then cs else cs ++ [MetricsHttpConnection.ctor.process])
  | .on i e => cs[i]?.bind fun c => (c.step e).map fun c' => cs.set i c'

def connections : System (List MetricsHttpConnection) ServerEvent := ⟨[], step⟩

/-! ## What a step can do -/

variable {c c' : MetricsHttpConnection}

theorem step_cases {e : ConnectionEvent} (h : c.step e = some c') :
    (∃ ec request, e = .readCompletes ec request ∧ c.read = .outstanding ∧
      (c.socketOpen = false → ec.failed = true) ∧ c' = { c with read := .queued ec, request := request }) ∨
    (∃ ec, e = .writeCompletes ec ∧ c.write = .outstanding ∧
      (c.socketOpen = false → ec.failed = true) ∧ c' = { c with write := .queued ec }) ∨
    (∃ ec, e = .waitCompletes ec ∧ c.wait = .outstanding ∧
      (c.waitCancelled = true → ec.failed = true) ∧ c' = { c with wait := .queued ec }) ∨
    (∃ cfg ec, e = .readHandler cfg ∧ c.read = .queued ec ∧
      c' = MetricsHttpConnection.readHandler { c with read := .done } cfg ec) ∨
    (∃ closeEc cancelEc ec, e = .writeHandler closeEc cancelEc ∧ c.write = .queued ec ∧
      c' = MetricsHttpConnection.writeHandler { c with write := .done } closeEc cancelEc) ∨
    (∃ ec, e = .deadlineHandler ∧ c.wait = .queued ec ∧
      c' = MetricsHttpConnection.deadlineHandler { c with wait := .done } ec) := by
  cases e with
  | readCompletes ec request =>
    simp only [MetricsHttpConnection.step, Option.ite_none_right_eq_some, Option.some.injEq] at h
    exact .inl ⟨ec, request, rfl, h.1.1, h.1.2, h.2.symm⟩
  | writeCompletes ec =>
    simp only [MetricsHttpConnection.step, Option.ite_none_right_eq_some, Option.some.injEq] at h
    exact .inr (.inl ⟨ec, rfl, h.1.1, h.1.2, h.2.symm⟩)
  | waitCompletes ec =>
    simp only [MetricsHttpConnection.step, Option.ite_none_right_eq_some, Option.some.injEq] at h
    exact .inr (.inr (.inl ⟨ec, rfl, h.1.1, h.1.2, h.2.symm⟩))
  | readHandler cfg =>
    cases hq : c.read with
    | queued ec =>
      simp only [MetricsHttpConnection.step, hq, Option.some.injEq] at h
      exact .inr (.inr (.inr (.inl ⟨cfg, ec, rfl, rfl, h.symm⟩)))
    | _ => simp [MetricsHttpConnection.step, hq] at h
  | writeHandler closeEc cancelEc =>
    cases hq : c.write with
    | queued ec =>
      simp only [MetricsHttpConnection.step, hq, Option.some.injEq] at h
      exact .inr (.inr (.inr (.inr (.inl ⟨closeEc, cancelEc, ec, rfl, rfl, h.symm⟩))))
    | _ => simp [MetricsHttpConnection.step, hq] at h
  | deadlineHandler =>
    cases hq : c.wait with
    | queued ec =>
      simp only [MetricsHttpConnection.step, hq, Option.some.injEq] at h
      exact .inr (.inr (.inr (.inr (.inr ⟨ec, rfl, rfl, h.symm⟩))))
    | _ => simp [MetricsHttpConnection.step, hq] at h

/-! ## What holds of every connection -/

/-- The responses written depend on where the write is, and what has been
read and not dropped has a write. -/
structure Inv (c : MetricsHttpConnection) : Prop where
  reading : c.read ≠ .notStarted
  waiting : c.wait ≠ .notStarted
  prepared : c.prepared = c.started
  started : c.started = if c.write = .notStarted then 0 else 1
  unread : c.read ≠ .done → c.write = .notStarted
  dropped : c.read = .done → c.write = .notStarted → c.deadlineReached = true
  reached : c.deadlineReached = true → c.socketOpen = false
  written : c.write = .done → c.socketOpen = false
  blank : c.started = 0 → c.response = .empty
  answered : c.started ≠ 0 → ∃ cfg ec, c.response = answer cfg ec c.request

theorem inv_process : Inv MetricsHttpConnection.ctor.process where
  reading := by decide
  waiting := by decide
  prepared := rfl
  started := rfl
  unread := fun _ => rfl
  dropped := fun h => by cases h
  reached := fun h => by cases h
  written := fun h => by cases h
  blank := fun _ => rfl
  answered := fun h => absurd rfl h

theorem inv_readHandler (I : Inv c) {ec : ErrorCode} (hq : c.read = .queued ec) (cfg : Settings) :
    Inv (MetricsHttpConnection.readHandler { c with read := .done } cfg ec) := by
  have hw : c.write = .notStarted := I.unread (by simp [hq])
  have hs : c.started = 0 := by rw [I.started, if_pos hw]
  unfold MetricsHttpConnection.readHandler
  split
  · next hr =>
    exact { I with
      reading := by simp
      unread := fun _ => hw
      dropped := fun _ _ => hr }
  · exact {
      reading := by simp [MetricsHttpConnection.writeResponse]
      waiting := I.waiting
      prepared := by simp [MetricsHttpConnection.writeResponse, I.prepared]
      started := by simp [MetricsHttpConnection.writeResponse, hs]
      unread := by simp [MetricsHttpConnection.writeResponse]
      dropped := by simp [MetricsHttpConnection.writeResponse]
      reached := I.reached
      written := by simp [MetricsHttpConnection.writeResponse]
      blank := by simp [MetricsHttpConnection.writeResponse]
      answered := fun _ => ⟨cfg, ec, by simp [MetricsHttpConnection.writeResponse, answer, I.blank hs]⟩ }

theorem inv_writeHandler (I : Inv c) {ec : ErrorCode} (hq : c.write = .queued ec) (closeEc cancelEc : ErrorCode) :
    Inv (MetricsHttpConnection.writeHandler { c with write := .done } closeEc cancelEc) := by
  have hread : c.read = .done := by
    by_contra hne
    rw [I.unread hne] at hq
    cases hq
  have hclosed : Inv { c with write := .done, socketOpen := false } := { I with
    started := by simpa [hq] using I.started
    unread := fun hne => absurd hread hne
    dropped := fun _ hw => by cases hw
    reached := fun _ => rfl
    written := fun _ => rfl }
  unfold MetricsHttpConnection.writeHandler
  split
  · exact hclosed
  · split
    · exact hclosed
    · exact { hclosed with }

theorem inv_deadlineHandler (I : Inv c) (ec : ErrorCode) :
    Inv (MetricsHttpConnection.deadlineHandler { c with wait := .done } ec) := by
  unfold MetricsHttpConnection.deadlineHandler
  split
  · exact { I with waiting := by simp }
  · exact { I with
      waiting := by simp
      dropped := fun _ _ => rfl
      reached := fun _ => rfl
      written := fun _ => rfl }

/-- **One step** of a connection. -/
theorem inv_step (I : Inv c) {e : ConnectionEvent} (h : c.step e = some c') : Inv c' := by
  rcases step_cases h with ⟨ec, request, -, hout, -, rfl⟩ | ⟨ec, -, hout, -, rfl⟩ | ⟨ec, -, -, -, rfl⟩ |
    ⟨cfg, ec, -, hq, rfl⟩ | ⟨closeEc, cancelEc, ec, -, hq, rfl⟩ | ⟨ec, -, -, rfl⟩
  · have hs : c.started = 0 := by rw [I.started, if_pos (I.unread (by simp [hout]))]
    exact { I with
      reading := by simp
      unread := fun _ => I.unread (by simp [hout])
      dropped := fun hd => by cases hd
      answered := fun hne => absurd hs hne }
  · exact { I with
      started := by simpa [hout] using I.started
      unread := fun hne => by
        rw [I.unread hne] at hout
        cases hout
      dropped := fun _ hw => by cases hw
      written := fun hw => by cases hw }
  · exact { I with waiting := by simp }
  · exact inv_readHandler I hq cfg
  · exact inv_writeHandler I hq closeEc cancelEc
  · exact inv_deadlineHandler I ec

/-- Once the deadline is reached, no step clears the flag, prepares a
response or starts a write. -/
theorem step_reached (hr : c.deadlineReached = true) {e : ConnectionEvent} (h : c.step e = some c') :
    c'.deadlineReached = true ∧ c'.prepared = c.prepared ∧ c'.started = c.started := by
  rcases step_cases h with ⟨ec, request, -, -, -, rfl⟩ | ⟨ec, -, -, -, rfl⟩ | ⟨ec, -, -, -, rfl⟩ |
    ⟨cfg, ec, -, -, rfl⟩ | ⟨closeEc, cancelEc, ec, -, -, rfl⟩ | ⟨ec, -, -, rfl⟩
  · exact ⟨hr, rfl, rfl⟩
  · exact ⟨hr, rfl, rfl⟩
  · exact ⟨hr, rfl, rfl⟩
  · simp [MetricsHttpConnection.readHandler, hr]
  · unfold MetricsHttpConnection.writeHandler
    split
    · exact ⟨hr, rfl, rfl⟩
    · split <;> exact ⟨hr, rfl, rfl⟩
  · unfold MetricsHttpConnection.deadlineHandler
    split
    · exact ⟨hr, rfl, rfl⟩
    · exact ⟨rfl, rfl, rfl⟩

/-- When nothing is outstanding or queued the socket is closed: either the
response was written, or the deadline came first. -/
theorem closed_of_quiet (I : Inv c) (hq : c.quiet) : c.socketOpen = false := by
  have hread : c.read = .done := (hq c.read (by simp)).resolve_left I.reading
  rcases hq c.write (by simp) with hw | hw
  · exact I.reached (I.dropped hread hw)
  · exact I.written hw

/-! ## Runs of all connections -/

variable {cs cs' : List MetricsHttpConnection} {i : Nat}

theorem server_step_cases {e : ServerEvent} (h : step cs e = some cs') :
    cs' = cs ∨ cs' = cs ++ [MetricsHttpConnection.ctor.process] ∨
      ∃ i c e' c', cs[i]? = some c ∧ c.step e' = some c' ∧ cs' = cs.set i c' := by
  cases e with
  | accept ec =>
    simp only [step, Option.some.injEq] at h
    split at h
    · exact .inl h.symm
    · exact .inr (.inl h.symm)
  | on i e' =>
    simp only [step, Option.bind_eq_some_iff, Option.map_eq_some_iff] at h
    obtain ⟨c, hc, c', hc', rfl⟩ := h
    exact .inr (.inr ⟨i, c, e', c', hc, hc', rfl⟩)

/-- What a step of the server is to a connection it has. -/
theorem server_step_at {e : ServerEvent} (h : step cs e = some cs') (hi : cs[i]? = some c) :
    ∃ c', cs'[i]? = some c' ∧ (c' = c ∨ ∃ e', c.step e' = some c') := by
  rcases server_step_cases h with rfl | rfl | ⟨j, c₀, e', c', hj, hc', rfl⟩
  · exact ⟨c, hi, .inl rfl⟩
  · obtain ⟨hlt, -⟩ := List.getElem?_eq_some_iff.mp hi
    exact ⟨c, by rw [List.getElem?_append_left hlt, hi], .inl rfl⟩
  · by_cases hij : j = i
    · subst hij
      obtain ⟨hlt, -⟩ := List.getElem?_eq_some_iff.mp hi
      cases hi.symm.trans hj
      exact ⟨c', List.getElem?_set_self hlt, .inr ⟨e', hc'⟩⟩
    · exact ⟨c, by rw [List.getElem?_set_ne hij, hi], .inl rfl⟩

theorem inv_exec {tr : List ServerEvent} (h : connections.exec tr = some cs) : ∀ c ∈ cs, Inv c := by
  refine System.exec_induction (I := fun _ cs => ∀ c ∈ cs, Inv c) (fun c hc => by cases hc) ?_ h
  intro tr cs e cs' ih (hl : step cs e = some cs') c hc
  rcases server_step_cases hl with rfl | rfl | ⟨j, c₀, e', c', hj, hc', rfl⟩
  · exact ih c hc
  · rcases List.mem_append.mp hc with hc | hc
    · exact ih c hc
    · obtain rfl := List.mem_singleton.mp hc
      exact inv_process
  · rcases List.mem_or_eq_of_mem_set hc with hc | rfl
    · exact ih c hc
    · exact inv_step (ih c₀ (List.mem_of_getElem? hj)) hc'

/-- Whatever happens after its deadline, a connection prepares and starts
nothing more. -/
theorem reached_exec {tr rest : List ServerEvent} (h : connections.exec tr = some cs)
    (h' : connections.exec (tr ++ rest) = some cs') (hi : cs[i]? = some c) (hr : c.deadlineReached = true) :
    ∃ c', cs'[i]? = some c' ∧ c'.deadlineReached = true ∧ c'.prepared = c.prepared ∧
      c'.started = c.started := by
  induction rest using List.reverseRecOn generalizing cs' with
  | nil =>
    rw [List.append_nil, h] at h'
    cases h'
    exact ⟨c, hi, hr, rfl, rfl⟩
  | append_singleton rest e ih =>
    rw [← List.append_assoc] at h'
    obtain ⟨cs₁, h₁, hl⟩ := (connections.exec_concat _ e cs').mp h'
    obtain ⟨c₁, hi₁, hr₁, hp₁, hs₁⟩ := ih h₁
    obtain ⟨c', hi', rfl | ⟨e', he'⟩⟩ := server_step_at hl hi₁
    · exact ⟨_, hi', hr₁, hp₁, hs₁⟩
    · obtain ⟨hr', hp', hs'⟩ := step_reached hr₁ he'
      exact ⟨c', hi', hr', hp'.trans hp₁, hs'.trans hs₁⟩

/-- **The answer.** A response that a connection starts to write is the one
its request calls for, with nothing left in it from elsewhere. -/
theorem answered_exec {tr : List ServerEvent} (h : connections.exec tr = some cs) (hi : cs[i]? = some c)
    (hs : c.started ≠ 0) : ∃ cfg ec, c.response = answer cfg ec c.request :=
  (inv_exec h c (List.mem_of_getElem? hi)).answered hs

/-- **Life cycle.** In every run of any connections, each of them prepares
and starts writing at most one response, none once its deadline handler has
set `_deadline_reached`, and its socket is closed in every state in which it
has no outstanding operation or queued handler. -/
theorem lifecycle (tr : List ServerEvent) (cs : List MetricsHttpConnection) (h : connections.exec tr = some cs)
    (i : Nat) (c : MetricsHttpConnection) (hi : cs[i]? = some c) :
    (c.prepared ≤ 1 ∧ c.started ≤ 1) ∧
      (∀ rest cs' c', connections.exec (tr ++ rest) = some cs' → cs'[i]? = some c' →
        c.deadlineReached = true → c'.prepared = c.prepared ∧ c'.started = c.started) ∧
      (c.quiet → c.socketOpen = false) := by
  have I := inv_exec h c (List.mem_of_getElem? hi)
  have hone : c.started ≤ 1 := by
    rw [I.started]
    split <;> omega
  refine ⟨⟨I.prepared ▸ hone, hone⟩, fun rest cs' c' h' hi' hr => ?_, closed_of_quiet I⟩
  obtain ⟨c₁, hi₁, -, hp, hs⟩ := reached_exec h h' hi hr
  cases hi'.symm.trans hi₁
  exact ⟨hp, hs⟩

/-- The deadline handler runs between the end of the read and the read
handler: nothing is written and the socket is closed. -/
def deadlineFirst : List ServerEvent :=
  [.accept ⟨0, []⟩, .on 0 (.readCompletes ⟨0, []⟩ ⟨"GET".toList, "/prometheus".toList⟩),
    .on 0 (.waitCompletes ⟨0, []⟩), .on 0 .deadlineHandler, .on 0 (.readHandler ⟨"/prometheus".toList, [], []⟩)]

def dropped : MetricsHttpConnection :=
  { MetricsHttpConnection.ctor with
    deadlineReached := true
    socketOpen := false
    request := ⟨"GET".toList, "/prometheus".toList⟩
    read := .done
    wait := .done }

theorem lifecycle_dropped : (dropped.prepared ≤ 1 ∧ dropped.started ≤ 1) ∧ dropped.socketOpen = false :=
  have h := lifecycle deadlineFirst [dropped] (by decide) 0 dropped rfl
  ⟨h.1, h.2.2 (by unfold MetricsHttpConnection.quiet; decide)⟩

end SoapStab.Metrics.Connection
