import SoapStab.Metrics.Service

/-!
# What a scrape shows

An export formats the metrics one after the other while other threads update
them, so what it shows need not have been the state at any one moment. One
metric is formatted in one step, which is the assumption of `Service`: no
update of it overlaps its formatting.

**Results.**
* `export_part`: what an export under way has formatted so far.
* `scraped`: a response 200 lists, for every name registered when its export
  began, the last metric of that name as it was at some moment of the export,
  and reads back as these metrics if their names are identifiers and nothing
  in them needs an escape. Without an update meanwhile it is the text of the
  registry.
-/

namespace SoapStab.Metrics

open SoapStab.Lib.Traces SoapStab.Lib.PromText

variable {hs : Str → UInt64}

/-! ## Reading the text of the metrics back -/

/-- The name of the metric and those of its labels are identifiers. -/
def Metric.LegalNames (m : Metric hs) : Prop :=
  metricAlphabet.isIdent m.name = true ∧
    ∀ e ∈ m.valuesByLabels.entries, ∀ p ∈ e.1.pairs, labelAlphabet.isIdent p.1 = true

def Metric.NothingToEscape (m : Metric hs) : Prop :=
  ('\\' ∉ m.help ∧ '\n' ∉ m.help) ∧
    ∀ e ∈ m.valuesByLabels.entries, ∀ p ∈ e.1.pairs, '\\' ∉ p.2 ∧ '"' ∉ p.2 ∧ '\n' ∉ p.2

theorem read_exportText {fmtValue : ℚ → Str} (hv : ∀ q, IsWord (fmtValue q)) {ms : List (Metric hs)}
    (hsound : ∀ m ∈ ms, m.Sound) (hlegal : ∀ m ∈ ms, m.LegalNames) (hplain : ∀ m ∈ ms, m.NothingToEscape) :
    read (exportText fmtValue ms) = some (ms.flatMap (Metric.lines fmtValue)) := by
  have hblocks : ∀ b ∈ ms.map (Metric.lines fmtValue), b ≠ [] ∧ ∀ l ∈ b, l.Legal := by
    intro b hb
    obtain ⟨m, hm, rfl⟩ := List.mem_map.mp hb
    exact ⟨List.cons_ne_nil _ _, lines_legal hv (hsound m hm) (hlegal m hm).1 (hlegal m hm).2⟩
  have htext : exportText fmtValue ms = document Line.raw (ms.map (Metric.lines fmtValue)) := by
    unfold exportText document fmtJoin
    rw [List.map_map]
    refine congrArg _ (List.map_congr_left fun m hm => ?_)
    exact prometheusTxt_eq_block fmtValue (hsound m hm)
  rw [htext, List.flatMap_def]
  refine (read_raw_iff hblocks).mpr fun l hl => ?_
  obtain ⟨b, hb, hl⟩ := List.mem_flatten.mp hl
  obtain ⟨m, hm, rfl⟩ := List.mem_map.mp hb
  have hlines : ∀ l ∈ m.lines fmtValue, l.Plain := by
    simpa only [Metric.NothingToEscape, Metric.lines, List.forall_mem_cons, List.forall_mem_map, Line.Plain,
      helpEscapes_plain, labelEscapes_plain, true_and] using hplain m hm
  exact hlines l hl

namespace Connection

variable {env : Env} {s s' : Service hs} {i : Nat} {c c' : MetricsHttpConnection}

/-! ## The export under way -/

/-- `handle` was `m` at some moment of `during`, which followed `before`. -/
def SeenIn (env : Env) (before during : List (ServiceEvent hs)) (handle : Nat) (m : Metric hs) : Prop :=
  ∃ d s, d <+: during ∧ (service hs env).exec (before ++ d) = some s ∧ s.registry.heap[handle]? = some m

theorem SeenIn.concat {before during : List (ServiceEvent hs)} {handle : Nat} {m : Metric hs}
    (h : SeenIn env before during handle m) (e : ServiceEvent hs) :
    SeenIn env before (during ++ [e]) handle m := by
  obtain ⟨d, s, hd, hs, hm⟩ := h
  exact ⟨d, s, hd.trans (List.prefix_append _ _), hs, hm⟩

/-- What an export under way has done: some of the handles registered when it
began have been formatted, each as it was at some moment since. -/
theorem export_part {tr : List (ServiceEvent hs)} (h : (service hs env).exec tr = some s) {x : Export hs}
    (hx : s.exporting = some x) :
    ∃ before during s₀ handles, tr = before ++ .exportBegins x.connection :: during ∧ .exportEnds ∉ during ∧
      (service hs env).exec before = some s₀ ∧ s₀.registry.handles = handles ++ x.todo ∧
      List.Forall₂ (SeenIn env before (.exportBegins x.connection :: during)) handles x.shown := by
  refine System.exec_induction (I := fun tr s => (service hs env).exec tr = some s ∧
    ∀ x : Export hs, s.exporting = some x → ∃ before during s₀ handles,
      tr = before ++ .exportBegins x.connection :: during ∧ .exportEnds ∉ during ∧
      (service hs env).exec before = some s₀ ∧ s₀.registry.handles = handles ++ x.todo ∧
      List.Forall₂ (SeenIn env before (.exportBegins x.connection :: during)) handles x.shown)
    ⟨rfl, fun x hx => by cases hx⟩ ?_ h |>.2 x hx
  intro tr s e s' ⟨hrun, ih⟩ (hl : s.step env e = some s')
  refine ⟨((service hs env).exec_concat tr e s').mpr ⟨s, hrun, hl⟩, fun x hx => ?_⟩
  -- an event other than the begin and the end of an export follows the rest
  have hlater : s.exporting = some x → e ≠ .exportEnds → ∃ before during s₀ handles,
      tr ++ [e] = before ++ .exportBegins x.connection :: during ∧ .exportEnds ∉ during ∧
      (service hs env).exec before = some s₀ ∧ s₀.registry.handles = handles ++ x.todo ∧
      List.Forall₂ (SeenIn env before (.exportBegins x.connection :: during)) handles x.shown := by
    intro hx he
    obtain ⟨before, during, s₀, handles, htr, hend, hs₀, hhandles, hshown⟩ := ih x hx
    refine ⟨before, during ++ [e], s₀, handles, by rw [htr]; simp, ?_, hs₀, hhandles, ?_⟩
    · simp [hend, he.symm]
    · exact hshown.imp fun _ _ hseen => hseen.concat e
  rcases service_cases hl with ⟨_, rfl, -, rfl⟩ | ⟨_, rfl, -, rfl⟩ | ⟨se, cs, rfl, -, -, rfl⟩ |
    ⟨i, c, cs, -, -, -, -, -, rfl⟩ | ⟨i, c, rfl, -, -, -, rfl⟩ | ⟨i, handle, todo, shown, m, rfl, hx₀, hm, rfl⟩ |
    ⟨i, shown, cs, -, -, -, rfl⟩
  · exact hlater hx nofun
  · exact hlater hx nofun
  · exact hlater hx nofun
  · cases hx
  · cases hx
    exact ⟨tr, [], s, [], rfl, by simp, hrun, rfl, .nil⟩
  · cases hx
    obtain ⟨before, during, s₀, handles, htr, hend, hs₀, hhandles, hshown⟩ := ih _ hx₀
    refine ⟨before, during ++ [.exportNext], s₀, handles ++ [handle], by rw [htr]; simp, by simp [hend], hs₀,
      by rw [hhandles]; simp, ?_⟩
    refine List.rel_append (hshown.imp fun _ _ hseen => hseen.concat .exportNext) (.cons ?_ .nil)
    exact ⟨.exportBegins i :: during, s, List.prefix_append _ _, htr ▸ hrun, hm⟩
  · cases hx

/-- A handle keeps its name. -/
theorem names_seen {before during : List (ServiceEvent hs)} {s₀ : Service hs}
    (h₀ : (service hs env).exec before = some s₀) {handle : Nat} {m : Metric hs}
    (hseen : SeenIn env before during handle m) (hlt : handle < s₀.registry.names.length) :
    s₀.registry.names[handle]? = some m.name := by
  obtain ⟨d, s, -, hs, hm⟩ := hseen
  have hname : s.registry.names[handle]? = some m.name := by simp [Registry.names, hm]
  rw [(registry_exec hs).2.2, List.filterMap_append, ← (registry_exec h₀).2.2] at hname
  rwa [List.getElem?_append_left hlt] at hname

theorem sound_seen {before during : List (ServiceEvent hs)} {handles : List Nat} {ms : List (Metric hs)}
    (h : List.Forall₂ (SeenIn env before during) handles ms) : ∀ m ∈ ms, m.Sound := by
  induction h with
  | nil => exact nofun
  | cons hseen _ ih =>
    obtain ⟨d, s, -, hs, hm⟩ := hseen
    exact List.forall_mem_cons.mpr ⟨(registry_exec hs).2.1.sound _ (List.mem_of_getElem? hm), ih⟩

/-! ## What a response shows -/

/-- In the run `tr`, an export to connection `i` that began after `before`
formatted the metrics `ms` in the course of `during`: one for each handle
registered when it began, as it was at some moment of the export. -/
structure ExportOf (env : Env) (tr : List (ServiceEvent hs)) (i : Nat) (before during : List (ServiceEvent hs))
    (ms : List (Metric hs)) : Prop where
  run : ∃ after, tr = before ++ .exportBegins i :: (during ++ .exportEnds :: after)
  notEnded : .exportEnds ∉ during
  shown : ∃ s₀, (service hs env).exec before = some s₀ ∧
    List.Forall₂ (SeenIn env before (.exportBegins i :: during)) s₀.registry.handles ms

theorem ExportOf.concat {tr before during : List (ServiceEvent hs)} {ms : List (Metric hs)}
    (h : ExportOf env tr i before during ms) (e : ServiceEvent hs) :
    ExportOf env (tr ++ [e]) i before during ms := by
  obtain ⟨after, rfl⟩ := h.run
  exact { h with run := ⟨after ++ [e], by simp⟩ }

/-- The response of connection `i` is an answer to a request it read: one
without an export, or one with the text of an export. -/
def Answered (env : Env) (tr : List (ServiceEvent hs)) (i : Nat) (c : MetricsHttpConnection) : Prop :=
  ∃ ec, readEvent hs i ec c.request ∈ tr ∧
    (((checkRequest (env.settings []) ec c.request).1 ≠ .ok ∧ c.response = answer (env.settings []) ec c.request) ∨
      ∃ before during ms, ExportOf env tr i before during ms ∧
        c.response = answer (env.settings (exportText env.fmtValue ms)) ec c.request)

theorem Answered.concat {tr : List (ServiceEvent hs)} (h : Answered env tr i c) (e : ServiceEvent hs) :
    Answered env (tr ++ [e]) i c := by
  obtain ⟨ec, hread, hans⟩ := h
  refine ⟨ec, List.mem_append_left _ hread, hans.imp id ?_⟩
  rintro ⟨before, during, ms, hexp, hres⟩
  exact ⟨before, during, ms, hexp.concat e, hres⟩

/-- A read handler starts a response unless the deadline was reached. -/
theorem readHandler_started (I : Inv c) {cfg : Settings} (h : c.step (.readHandler cfg) = some c')
    (hs : c'.started ≠ 0) : ∃ ec, c.read = .queued ec ∧ c.deadlineReached = false ∧ c'.request = c.request ∧
      c'.response = answer cfg ec c.request := by
  cases hq : c.read with
  | queued ec =>
    simp only [MetricsHttpConnection.step, hq, Option.some.injEq] at h
    subst h
    have h₀ : c.started = 0 := by rw [I.started, if_pos (I.unread (by simp [hq]))]
    unfold MetricsHttpConnection.readHandler at hs ⊢
    split at hs
    · exact absurd h₀ hs
    · next hr =>
      rw [if_neg hr]
      exact ⟨ec, rfl, by simpa using hr, rfl, by simp [MetricsHttpConnection.writeResponse, answer, I.blank h₀]⟩
  | _ => simp [MetricsHttpConnection.step, hq] at h

theorem answered_service {tr : List (ServiceEvent hs)} (h : (service hs env).exec tr = some s)
    (hi : s.connections[i]? = some c) (hstarted : c.started ≠ 0) : Answered env tr i c := by
  refine System.exec_induction (I := fun tr s => (service hs env).exec tr = some s ∧
    ∀ c, s.connections[i]? = some c → c.started ≠ 0 → Answered env tr i c)
    ⟨rfl, fun c hc => by cases hc⟩ ?_ h |>.2 c hi hstarted
  intro tr s e s' ⟨hrun, ih⟩ (hl : s.step env e = some s')
  refine ⟨((service hs env).exec_concat tr e s').mpr ⟨s, hrun, hl⟩, fun c' hi' hs' => ?_⟩
  rcases service_step_from hl hi' with hi | rfl | ⟨c, ce, hi, hce, he⟩
  · exact (ih c' hi hs').concat e
  · exact absurd rfl hs'
  have I : Inv c := service_inv hrun hi
  rcases he with ⟨rfl, hr⟩ | ⟨rfl, ht, rfl⟩ | ⟨shown, rfl, hx, rfl⟩
  · -- the response was started before
    obtain ⟨hst, hreq, hres⟩ := step_started I hr hce
    rw [hst] at hs'
    obtain ⟨ec, hread, hans⟩ := (ih c hi hs').concat (.server (.on i ce))
    exact ⟨ec, by rw [hreq hs']; exact hread, by rw [hres, hreq hs']; exact hans⟩
  · obtain ⟨ec, hq, hr, hreq, hres⟩ := readHandler_started I hce hs'
    refine ⟨ec, List.mem_append_left _ (hreq ▸ queued_exec hrun hi hq), .inl ⟨fun hok => ?_, ?_⟩⟩
    · rw [hreq] at hok
      rw [(toExport_iff env c).mpr ⟨ec, hq, hr, hok⟩] at ht
      cases ht
    · rw [hreq, hres]
  · obtain ⟨ec, hq, -, hreq, hres⟩ := readHandler_started I hce hs'
    obtain ⟨before, during, s₀, handles, htr, hend, hs₀, hhandles, hshown⟩ := export_part hrun hx
    refine ⟨ec, List.mem_append_left _ (hreq ▸ queued_exec hrun hi hq), .inr ⟨before, during, shown, ?_, ?_⟩⟩
    · refine ⟨⟨[], by rw [htr]; simp⟩, hend, s₀, hs₀, ?_⟩
      rw [hhandles, List.append_nil]
      exact hshown
    · rw [hreq, hres]

theorem checkRequest_ok_iff (cfg : Settings) (ec : ErrorCode) (request : Request) :
    (checkRequest cfg ec request).1 = .ok ↔
      ec.failed = false ∧ request.method = "GET".toList ∧ request.target = cfg.pathPrometheus := by
  unfold checkRequest
  split
  · next h => simp [h]
  · next h =>
    split
    · next hm => exact iff_of_false nofun fun ⟨_, hget, _⟩ => hm hget
    · next hm =>
      split
      · next ht => exact iff_of_false nofun fun ⟨_, _, htarget⟩ => ht htarget
      · next ht => exact iff_of_true rfl ⟨by simpa using h, not_not.mp hm, not_not.mp ht⟩

theorem answer_contentLength (cfg : Settings) (ec : ErrorCode) (request : Request) :
    (answer cfg ec request).contentLength = some (answer cfg ec request).body.length := rfl

theorem answer_status (cfg : Settings) (ec : ErrorCode) (request : Request) :
    (answer cfg ec request).status = (checkRequest cfg ec request).1 := by
  unfold answer prepareResponse
  split <;> rfl

theorem answer_body {cfg : Settings} {ec : ErrorCode} {request : Request}
    (h : (checkRequest cfg ec request).1 = .ok) : (answer cfg ec request).body = cfg.metricsTxt := by
  rw [answer, h]
  rfl

/-- The metrics at the handles of a registry are those it exports. -/
theorem exported_of_handles {r : Registry hs} {ms : List (Metric hs)}
    (h : List.Forall₂ (fun j m => r.heap[j]? = some m) r.handles ms) : r.exported = ms := by
  have hes : ∀ (es : List (Str × Nat)) (ms : List (Metric hs)),
      List.Forall₂ (fun j m => r.heap[j]? = some m) (es.map Prod.snd) ms →
      (es.filterMap fun e => r.heap[e.2]?) = ms := by
    intro es
    induction es with
    | nil =>
      intro ms hms
      cases hms
      rfl
    | cons e es ih =>
      intro ms hms
      cases hms with
      | cons hm hms => simp only [List.filterMap_cons, hm, ih _ hms]
  exact hes _ _ h

theorem ExportOf.names {tr before during : List (ServiceEvent hs)} {ms : List (Metric hs)}
    (h : ExportOf env tr i before during ms) :
    (ms.map (·.name)).Nodup ∧ ∀ name, name ∈ ms.map (·.name) ↔ ∃ e ∈ before, e.creates = some name := by
  obtain ⟨s₀, h₀, hshown⟩ := h.shown
  obtain ⟨hreg, -, hnames⟩ := registry_exec h₀
  have hlt : ∀ j ∈ s₀.registry.handles, j < s₀.registry.names.length := by
    intro j hj
    obtain ⟨e, he, rfl⟩ := List.mem_map.mp hj
    exact (List.getElem?_eq_some_iff.mp (isLast_of_mem hreg he).1).1
  have hms : List.Forall₂ (fun j m => s₀.registry.names[j]? = some m.name) s₀.registry.handles ms := by
    have hboth := (List.forall₂_and_left _ _).mpr ⟨hlt, hshown⟩
    exact hboth.imp fun j m hj => names_seen h₀ hj.2 hj.1
  rw [names_of_handles hreg hms]
  refine ⟨keys_nodup _, fun name => ?_⟩
  rw [mem_keys_iff hreg, hnames, List.mem_filterMap]

/-- **Scrapes.** Whatever happens meanwhile, a response a connection starts
to write has the length it says, and is a 200 exactly if its request was read
and asks for the metrics. A 200 lists each name that was created before the
export began once, with its last metric as it was at some moment of the
export; it is the text of the registry if nothing changed that meanwhile; and
it reads back as these metrics if their names and the names of their labels
are identifiers and neither a help string nor a label value needs an escape.
No update of a metric overlaps its formatting, and values are exact rationals. -/
theorem scraped (env : Env) (hv : ∀ q, IsWord (env.fmtValue q)) {tr : List (ServiceEvent hs)}
    (h : (service hs env).exec tr = some s) (hi : s.connections[i]? = some c) (hstarted : c.started ≠ 0) :
    ∃ ec, readEvent hs i ec c.request ∈ tr ∧
      c.response.contentLength = some c.response.body.length ∧
      (c.response.status = .ok ↔
        ec.failed = false ∧ c.request.method = "GET".toList ∧ c.request.target = env.pathPrometheus) ∧
      (c.response.status = .ok → ∃ before during ms, ExportOf env tr i before during ms ∧
        c.response.body = exportText env.fmtValue ms ∧
        (ms.map (·.name)).Nodup ∧ (∀ name, name ∈ ms.map (·.name) ↔ ∃ e ∈ before, e.creates = some name) ∧
        ((∀ e ∈ during, e.changesText = false) → ∀ s₀, (service hs env).exec before = some s₀ →
          c.response.body = s₀.registry.prometheusTxt env.fmtValue) ∧
        ((∀ m ∈ ms, m.LegalNames ∧ m.NothingToEscape) →
          read c.response.body = some (ms.flatMap (Metric.lines env.fmtValue)))) := by
  obtain ⟨ec, hread, hans⟩ := answered_service h hi hstarted
  rcases hans with ⟨hbad, hres⟩ | ⟨before, during, ms, hexp, hres⟩
  · have hstatus : c.response.status ≠ .ok := by rwa [hres, answer_status]
    refine ⟨ec, hread, by rw [hres, answer_contentLength], ?_, fun hok => absurd hok hstatus⟩
    exact iff_of_false hstatus fun hok => hbad ((checkRequest_ok_iff _ _ _).mpr hok)
  refine ⟨ec, hread, by rw [hres, answer_contentLength], ?_, fun hok => ⟨before, during, ms, hexp, ?_⟩⟩
  · rw [hres, answer_status, checkRequest_ok_iff]
    rfl
  have hbody : c.response.body = exportText env.fmtValue ms := by
    rw [hres, answer_status] at hok
    rw [hres, answer_body hok]
    rfl
  obtain ⟨s₀, h₀, hshown⟩ := hexp.shown
  refine ⟨hbody, hexp.names.1, hexp.names.2, fun hsame s₁ h₁ => ?_, fun hplain => ?_⟩
  · cases h₀.symm.trans h₁
    have hheap : List.Forall₂ (fun j m => s₀.registry.heap[j]? = some m) s₀.registry.handles ms := by
      refine hshown.imp fun j m hseen => ?_
      obtain ⟨d, s₁, hd, hs₁, hm⟩ := hseen
      rw [← registry_unchanged h₀ hs₁ fun e he => ?_]
      · exact hm
      · rcases List.mem_cons.mp (hd.subset he) with rfl | he
        · rfl
        · exact hsame e he
    rw [hbody, Registry.prometheusTxt, exported_of_handles hheap]
    rfl
  · rw [hbody]
    exact read_exportText hv (sound_seen hshown) (fun m hm => (hplain m hm).1) fun m hm => (hplain m hm).2

def slashEnv : Env := ⟨"/".toList, [], fmtRat⟩

/-- Gauge `a` is set to 5 after it was formatted, counter `b` raised before. -/
def mixedScrape : List (ServiceEvent fun _ => 0) :=
  [.metrics (.createGauge "a".toList [] 1 noLabels 0), .metrics (.createCounter "b".toList [] noLabels 0),
    .server (.accept ⟨0, []⟩), readEvent _ 0 ⟨0, []⟩ ⟨"GET".toList, "/".toList⟩, .exportBegins 0, .exportNext,
    .metrics (.update 0 (.call (.set 5 1))), .metrics (.update 1 (.call (.inc 2 1))), .exportNext, .exportEnds]

theorem scraped_mixed : ∃ s c, (service (fun _ => 0) slashEnv).exec mixedScrape = some s ∧
    s.connections[0]? = some c ∧ c.response.contentLength = some c.response.body.length ∧
    ∃ before during ms, ExportOf slashEnv mixedScrape 0 before during ms ∧
      c.response.body = exportText fmtRat ms := by
  refine ⟨_, _, rfl, rfl, ?_⟩
  obtain ⟨ec, -, hlength, -, hshow⟩ := @scraped (fun _ => 0) _ 0 _ slashEnv fmtRat_isWord mixedScrape rfl rfl
    (by decide)
  obtain ⟨before, during, ms, hexp, hbody, -⟩ := hshow (by decide)
  exact ⟨hlength, before, during, ms, hexp, hbody⟩

end Connection

end SoapStab.Metrics
