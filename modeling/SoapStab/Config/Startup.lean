import SoapStab.Config.LogLevel
import SoapStab.Config.Metadata
import SoapStab.Config.RoundTrip

/-!
# The program's settings

The constructor of `config` adds nine properties, each read from its
environment variable. `constructed` says when it throws, and what, and that
otherwise the store holds these nine and nothing else.

Everything later reads them by name and type, in code that handles no
exception. `reads_succeed`: none of these reads ever throws, whatever
operations and listeners have run, and all but the log level return what
they returned at the start. `started`: `main` gets through its start-up
exactly when every variable set parses, with the level configured active.

`restart_iff` takes the settings of a running program, as
`get_config_property_value_for_output` shows them, for the environment of a
new one: it starts with the same settings unless the level was `warn`.
-/
namespace SoapStab.Config

variable {W B : Type}

/-! ## The properties -/

/-- mirrors src/config/config.cpp:12-20 -/
def HTTP_LISTEN_PORT : Str := "HTTP_LISTEN_PORT".toList
def HTTP_SERVER_CONCURRENCY_THREADS_QUANTITY : Str := "HTTP_SERVER_CONCURRENCY_THREADS_QUANTITY".toList
def METRICS_SERVER_BUFFER_SIZE_BYTES : Str := "METRICS_SERVER_BUFFER_SIZE_BYTES".toList
def METRICS_SERVER_LISTEN_IPADDRESS : Str := "METRICS_SERVER_LISTEN_IPADDRESS".toList
def METRICS_SERVER_LISTEN_PORT : Str := "METRICS_SERVER_LISTEN_PORT".toList
def METRICS_SERVER_PATH_PROMETHEUS : Str := "METRICS_SERVER_PATH".toList
def METRICS_SERVER_IDENTIFICATION : Str := "METRICS_SERVER_IDENTIFICATION".toList
def METRICS_SERVER_RESPONSE_TIMEOUT_MILLIS : Str := "METRICS_SERVER_RESPONSE_TIMEOUT_MILLIS".toList

/-- A default, by the overload of `add_config_property` it selects. -/
inductive Default (P : PropType) where
  | value (v : P.Val)
  | text (s : Str)

/-- The arguments of an `add_config_property` call of the constructor; none
of them passes `is_hidden`. -/
structure Setting where
  type : PropType
  name : Str
  default : Default type
  isManageable : Bool
  description : Str

def Setting.add (env : Env) (s : Setting) (w : World W B) : Res W B Unit :=
  match s.default with
  | .value v => addConfigProperty env s.type s.name (some v) false s.isManageable s.description w
  | .text t => addConfigPropertyCstr env s.type s.name t false s.isManageable s.description w

/-- mirrors src/config/config.cpp:64-72 -/
def settings : List Setting :=
  [⟨.uint16, HTTP_LISTEN_PORT, .value 8080, false, []⟩,
   ⟨.logLevel, LOG_LEVEL, .value .debug, true, "Global logging level".toList⟩,
   ⟨.uint16, HTTP_SERVER_CONCURRENCY_THREADS_QUANTITY, .value 1, false, []⟩,
   ⟨.string, METRICS_SERVER_IDENTIFICATION, .text "IntbusBot Metrics HTTP Server".toList, false, []⟩,
   ⟨.int32, METRICS_SERVER_RESPONSE_TIMEOUT_MILLIS, .value 5000, false, []⟩,
   ⟨.int64, METRICS_SERVER_BUFFER_SIZE_BYTES, .value 8192, false, []⟩,
   ⟨.string, METRICS_SERVER_LISTEN_IPADDRESS, .text "0.0.0.0".toList, false, []⟩,
   ⟨.uint16, METRICS_SERVER_LISTEN_PORT, .value 8081, false, []⟩,
   ⟨.string, METRICS_SERVER_PATH_PROMETHEUS, .text "/prometheus".toList, false, []⟩]

/-- The adds in order, until one throws. -/
def addSettings (env : Env) : List Setting → World W B → Res W B Unit
  | [], w => (w, .ok ())
  | s :: ss, w =>
    match s.add env w with
    | (w, .error e) => (w, .error e)
    | (w, .ok ()) => addSettings env ss w

/-- mirrors src/config/config.cpp:60-62 -/
def constructing (w : World W B) : World W B :=
  (w.log .debug "+config::config()".toList).log .trace "config::config(): lock acquired".toList

/-- mirrors src/config/config.cpp:59-75 -/
def constructConfig (env : Env) (w : World W B) : Res W B Unit :=
  match addSettings env settings (constructing w) with
  | (w, .error e) => (w, .error e)
  | (w, .ok ()) => (w.log .debug "-config::config()".toList, .ok ())

/-! ## What a setting is read as -/

/-- The value a default stands for. -/
def Default.meant {P : PropType} : Default P → Except Thrown P.Val
  | .value v => .ok v
  | .text t => strToValue P (cStr t)

/-- The value a setting takes: its variable's, or else its default. -/
def Setting.reads (env : Env) (s : Setting) : Except Thrown s.type.Val :=
  match env.getenv (ENV_VAR_PREFIX ++ s.name) with
  | some text => strToValue s.type text
  | none => s.default.meant

/-- The default survives being printed and parsed. -/
def Setting.Printable (s : Setting) : Prop :=
  ∃ v, s.default.meant = .ok v ∧ Readable s.type v ∧ NulFree (valueToStr s.type v)

theorem sourceText_default (env : Env) {P : PropType} (name : Str) {v : P.Val} (hr : Readable P v)
    (hn : NulFree (valueToStr P v)) : ∃ text, sourceText env name (some v) = some text ∧
      strToValue P text = (match env.getenv (ENV_VAR_PREFIX ++ name) with
        | some text => strToValue P text
        | none => .ok v) := by
  unfold sourceText defaultText
  rw [Env.getenv_cStr]
  cases env.getenv (ENV_VAR_PREFIX ++ name) with
  | some text => exact ⟨text, rfl, rfl⟩
  | none => exact ⟨_, rfl, (strToValue_cStr P v).mpr ⟨hr, hn⟩⟩

/-- The add of a fresh setting stores what is read, or throws what reading
it throws. -/
theorem Setting.add_fresh (env : Env) {s : Setting} (hp : s.Printable) {w : World W B}
    (hf : s.name ∉ w.store.propertyValues) :
    (∀ e, s.reads env = .error e → (s.add env w).2 = .error e ∧ (s.add env w).1.store = w.store) ∧
    ∀ v, s.reads env = .ok v → (s.add env w).2 = .ok () ∧
      (s.add env w).1.store = w.store.addProperty s.name ⟨s.type, v⟩ false s.isManageable s.description := by
  obtain ⟨v₀, hmeant, hr, hn⟩ := hp
  obtain ⟨text, hsource, hparse⟩ := sourceText_default env s.name hr hn
  have hreads : s.reads env = strToValue s.type text := by
    rw [hparse, Setting.reads, hmeant]
  have hadd : s.add env w =
      addConfigProperty env s.type s.name (some v₀) false s.isManageable s.description w := by
    unfold Setting.add
    cases hd : s.default with
    | value v =>
      rw [hd] at hmeant
      cases hmeant
      rfl
    | text t =>
      rw [hd] at hmeant
      simp only [Default.meant] at hmeant
      simp only [addConfigPropertyCstr, hmeant]
  rw [hadd, hreads, addConfigProperty_fresh hf, hsource]
  simp only
  refine ⟨fun e he => ?_, fun v hv => ?_⟩
  · rw [he]
    exact ⟨rfl, readSource_store ..⟩
  · rw [hv]
    refine ⟨rfl, ?_⟩
    simp only [World.note_store, World.withStore_store, readSource_store]

/-- What reading the settings throws first. -/
def firstError (env : Env) : List Setting → Except Thrown Unit
  | [] => .ok ()
  | s :: ss =>
    match s.reads env with
    | .error e => .error e
    | .ok _ => firstError env ss

theorem firstError_ok {env : Env} {ss : List Setting} :
    firstError env ss = .ok () ↔ ∀ s ∈ ss, ∃ v, s.reads env = .ok v := by
  induction ss with
  | nil => simp [firstError]
  | cons s ss ih =>
    rw [firstError, List.forall_mem_cons]
    cases hr : s.reads env with
    | error e => simp
    | ok v => simp [ih]

theorem firstError_error {env : Env} {ss : List Setting} {e : Thrown} :
    firstError env ss = .error e ↔ ∃ (before : List Setting) (s : Setting) (after : List Setting),
      ss = before ++ s :: after ∧ (∀ b ∈ before, ∃ v, b.reads env = .ok v) ∧ s.reads env = .error e := by
  induction ss with
  | nil => simp [firstError]
  | cons s ss ih =>
    rw [firstError]
    cases hr : s.reads env with
    | error e' =>
      refine ⟨fun h => ?_, fun ⟨before, t, after, he, hb, ht⟩ => ?_⟩
      · obtain rfl := Except.error.inj h
        exact ⟨[], s, ss, rfl, by simp, hr⟩
      · cases before with
        | nil =>
          obtain ⟨rfl, -⟩ := List.cons.inj he
          cases hr.symm.trans ht
          rfl
        | cons b before =>
          obtain ⟨rfl, -⟩ := List.cons.inj he
          obtain ⟨v, hv⟩ := hb s List.mem_cons_self
          rw [hr] at hv
          cases hv
    | ok v =>
      refine ih.trans ⟨fun ⟨before, t, after, he, hb, ht⟩ => ?_, fun ⟨before, t, after, he, hb, ht⟩ => ?_⟩
      · refine ⟨s :: before, t, after, by rw [he]; rfl, ?_, ht⟩
        exact List.forall_mem_cons.mpr ⟨⟨v, hr⟩, hb⟩
      · cases before with
        | nil =>
          obtain ⟨rfl, -⟩ := List.cons.inj he
          rw [hr] at ht
          cases ht
        | cons b before =>
          obtain ⟨rfl, he'⟩ := List.cons.inj he
          exact ⟨before, t, after, he', fun x hx => hb x (List.mem_cons_of_mem _ hx), ht⟩

/-! ## The constructed store -/

/-- The store holds the settings `ss` as read, and nothing else. -/
structure Constructed (env : Env) (ss : List Setting) (store : Store B) : Prop where
  value : ∀ s ∈ ss, ∃ v, s.reads env = .ok v ∧ store.propertyValues.lookup s.name = some ⟨s.type, v⟩
  described : ∀ s ∈ ss, store.propertyDescriptions.lookup s.name = some s.description
  known : ∀ n ∈ store.propertyValues, ∃ s ∈ ss, s.name = n
  manageable : ∀ n, n ∈ store.manageableProperties ↔ ∃ s ∈ ss, s.name = n ∧ s.isManageable = true
  listeners : ∀ n, store.listeners n = []
  hidden : store.hiddenProperties = ∅

theorem constructed_empty (env : Env) : Constructed env [] (Store.empty : Store B) where
  value := by simp
  described := by simp
  known n hn := absurd hn Finmap.notMem_empty
  manageable n := iff_of_false Finmap.notMem_empty (by simp)
  listeners n := by simp [Store.listeners, Store.empty]
  hidden := rfl

theorem constructed_add {env : Env} {ss : List Setting} {store : Store B} (h : Constructed env ss store)
    {s : Setting} (hs : ∀ t ∈ ss, t.name ≠ s.name) {v : s.type.Val} (hv : s.reads env = .ok v) :
    Constructed env (ss ++ [s])
      (store.addProperty s.name ⟨s.type, v⟩ false s.isManageable s.description) := by
  refine ⟨fun t ht => ?_, fun t ht => ?_, fun n hn => ?_, fun n => ?_, fun n => ?_, h.hidden⟩
  · rcases List.mem_append.mp ht with ht | ht
    · obtain ⟨x, hx, hl⟩ := h.value t ht
      exact ⟨x, hx, (Finmap.lookup_insert_of_ne _ (hs t ht)).trans hl⟩
    · obtain rfl := List.mem_singleton.mp ht
      exact ⟨v, hv, Finmap.lookup_insert _⟩
  · rcases List.mem_append.mp ht with ht | ht
    · exact (Finmap.lookup_insert_of_ne _ (hs t ht)).trans (h.described t ht)
    · obtain rfl := List.mem_singleton.mp ht
      exact Finmap.lookup_insert _
  · rcases Finmap.mem_insert.mp hn with rfl | hn
    · exact ⟨s, by simp, rfl⟩
    · obtain ⟨t, ht, htn⟩ := h.known n hn
      exact ⟨t, List.mem_append_left _ ht, htn⟩
  · have hold := h.manageable n
    simp only [Store.addProperty, List.mem_append, List.mem_singleton]
    cases hm : s.isManageable with
    | true =>
      simp only [if_true, Finmap.mem_insert, hold]
      constructor
      · rintro (rfl | ⟨t, ht, htn⟩)
        · exact ⟨s, .inr rfl, rfl, hm⟩
        · exact ⟨t, .inl ht, htn⟩
      · rintro ⟨t, ht | rfl, rfl, htm⟩
        · exact .inr ⟨t, ht, rfl, htm⟩
        · exact .inl rfl
    | false =>
      simp only [Bool.false_eq_true, if_false, hold]
      constructor
      · rintro ⟨t, ht, htn⟩
        exact ⟨t, .inl ht, htn⟩
      · rintro ⟨t, ht | rfl, htn, htm⟩
        · exact ⟨t, ht, htn, htm⟩
        · rw [hm] at htm
          cases htm
  · have hold := h.listeners n
    unfold Store.listeners Store.addProperty at *
    cases s.isManageable with
    | true =>
      by_cases hn : n = s.name
      · subst hn; simp
      · simpa [Finmap.lookup_insert_of_ne _ hn] using hold
    | false => exact hold

theorem addSettings_result {env : Env} (done : List Setting) {ss : List Setting} (hp : ∀ s ∈ ss, s.Printable)
    (hd : ((done ++ ss).map (·.name)).Nodup) {w : World W B} (hw : Constructed env done w.store) :
    (addSettings env ss w).2 = firstError env ss ∧
      ((addSettings env ss w).2 = .ok () → Constructed env (done ++ ss) (addSettings env ss w).1.store) := by
  induction ss generalizing done w with
  | nil => exact ⟨rfl, fun _ => by simpa [addSettings] using hw⟩
  | cons s ss ih =>
    have hne : ∀ t ∈ done, t.name ≠ s.name := by
      rw [List.map_append, List.nodup_append] at hd
      intro t ht
      exact hd.2.2 _ (List.mem_map_of_mem ht) _ (by simp)
    have hfresh : s.name ∉ w.store.propertyValues := by
      intro hmem
      obtain ⟨t, ht, htn⟩ := hw.known _ hmem
      exact hne t ht htn
    obtain ⟨herror, hok⟩ := Setting.add_fresh env (hp s List.mem_cons_self) hfresh
    rw [addSettings, firstError]
    generalize hq : s.add env w = q at herror hok
    obtain ⟨w₁, r⟩ := q
    cases hr : s.reads env with
    | error e =>
      have hres : r = .error e := (herror e hr).1
      subst hres
      exact ⟨rfl, nofun⟩
    | ok v =>
      obtain ⟨hres, hstore⟩ := hok v hr
      simp only at hres hstore
      subst hres
      have hrest := ih (done ++ [s]) (fun t ht => hp t (List.mem_cons_of_mem _ ht)) (by simpa using hd)
        (hstore ▸ constructed_add hw hne hr)
      simpa using hrest

theorem printable_value {P : PropType} {name : Str} {v : P.Val} {m : Bool} {desc : Str} (hP : P ≠ .string)
    (hr : Readable P v) : Setting.Printable ⟨P, name, .value v, m, desc⟩ :=
  ⟨v, rfl, hr, valueToStr_nulFree hP v⟩

theorem printable_text {name t : Str} {m : Bool} {desc : Str} :
    Setting.Printable ⟨.string, name, .text t, m, desc⟩ :=
  ⟨cStr t, rfl, trivial, cStr_nulFree t⟩

theorem settings_printable : ∀ s ∈ settings, s.Printable := by
  simp only [settings, List.forall_mem_cons]
  exact ⟨printable_value nofun trivial, printable_value nofun (by decide), printable_value nofun trivial,
    printable_text, printable_value nofun trivial, printable_value nofun trivial, printable_text,
    printable_value nofun trivial, printable_text, nofun⟩

theorem settings_nodup : (settings.map (·.name)).Nodup := by decide +kernel

theorem constructConfig_result (env : Env) {w : World W B} (hw : w.store = Store.empty) :
    (constructConfig env w).2 = firstError env settings ∧
      ((constructConfig env w).2 = .ok () → Constructed env settings (constructConfig env w).1.store) := by
  have hempty : Constructed env [] (constructing w).store := by
    show Constructed env [] w.store
    exact hw ▸ constructed_empty env
  obtain ⟨hres, hstore⟩ := addSettings_result [] settings_printable settings_nodup hempty
  unfold constructConfig
  generalize addSettings env settings (constructing w) = q at hres hstore
  obtain ⟨w', r⟩ := q
  cases r with
  | error e => exact ⟨hres, nofun⟩
  | ok _ => exact ⟨hres, fun _ => hstore rfl⟩

/-- **Construction.** From an empty store, the constructor returns exactly
when every variable that is set parses, and the store then holds the nine
settings as read, of which only those declared manageable may be set, and no
listener; otherwise it throws what the first variable that does not parse
throws. -/
theorem constructed (env : Env) (lvl : Level) (mem : W) :
    ((constructConfig env (World.empty lvl mem : World W B)).2 = .ok () ↔
      ∀ s ∈ settings, ∃ v, s.reads env = .ok v) ∧
    ((constructConfig env (World.empty lvl mem : World W B)).2 = .ok () →
      Constructed env settings (constructConfig env (World.empty lvl mem : World W B)).1.store) ∧
    ∀ e, (constructConfig env (World.empty lvl mem : World W B)).2 = .error e ↔
      ∃ (before : List Setting) (s : Setting) (after : List Setting), settings = before ++ s :: after ∧
        (∀ b ∈ before, ∃ v, b.reads env = .ok v) ∧ s.reads env = .error e := by
  obtain ⟨hres, hstore⟩ := constructConfig_result env (show (World.empty lvl mem : World W B).store = _ from rfl)
  refine ⟨?_, hstore, fun e => ?_⟩
  · rw [hres]
    exact firstError_ok
  · rw [hres]
    exact firstError_error

/-! ## What the program reads -/

/-- mirrors src/metrics/metrics_server.h:50,73,82,
src/metrics/metrics_server.cpp:49-55,123,147,169, src/http/http_server.h:101 and
src/main.cpp:14,22 -/
def programReads : List (PropType × Str) :=
  [(.uint16, HTTP_SERVER_CONCURRENCY_THREADS_QUANTITY), (.int64, METRICS_SERVER_BUFFER_SIZE_BYTES),
   (.int32, METRICS_SERVER_RESPONSE_TIMEOUT_MILLIS), (.string, METRICS_SERVER_LISTEN_IPADDRESS),
   (.uint16, METRICS_SERVER_LISTEN_PORT), (.string, METRICS_SERVER_PATH_PROMETHEUS),
   (.string, METRICS_SERVER_IDENTIFICATION), (.logLevel, LOG_LEVEL)]

/-- The add of a setting as a call. -/
def Setting.op (s : Setting) : Op B :=
  match s.default with
  | .value v => .add s.type s.name (some v) false s.isManageable s.description
  | .text t => .addCstr s.type s.name t false s.isManageable s.description

theorem Setting.call_op (env : Env) (code : B → Instr W B) (n : Nat) (s : Setting) (w : World W B) :
    call env code n s.op w = some (Res.wrap (fun _ => .unit) (s.add env w)) := by
  unfold Setting.op Setting.add
  cases s.default <;> rfl

theorem addSettings_reach (env : Env) {code : B → Instr W B} (ss : List Setting) {w : World W B}
    (hw : Reach env code w) : Reach env code (addSettings env ss w).1 := by
  induction ss generalizing w with
  | nil => exact hw
  | cons s ss ih =>
    have hadd : Reach env code (s.add env w).1 := Reach.call hw (Setting.call_op env code 0 s w)
    rw [addSettings]
    generalize s.add env w = q at hadd
    obtain ⟨w₁, r⟩ := q
    cases r with
    | error e => exact hadd
    | ok _ => exact ih hadd

theorem constructConfig_reach (env : Env) {code : B → Instr W B} {w : World W B} (hw : Reach env code w) :
    Reach env code (constructConfig env w).1 := by
  have hbegun : Reach env code (constructing w) := .aside hw rfl rfl
  have hadds := addSettings_reach env settings hbegun
  unfold constructConfig
  generalize addSettings env settings (constructing w) = q at hadds
  obtain ⟨w₁, r⟩ := q
  cases r with
  | error e => exact hadds
  | ok _ => exact .aside hadds rfl rfl

theorem programReads_settings : ∀ p ∈ programReads, ∃ s ∈ settings, s.type = p.1 ∧ s.name = p.2 ∧
    (s.isManageable = true → s.name = LOG_LEVEL) := by
  decide +kernel

/-- **The program's reads.** After the construction, whatever operations and
listeners run, inside them as well, every read the program makes of a setting
succeeds, and every one but that of the log level returns what it returned
right after the construction. -/
theorem reads_succeed {env : Env} {code : B → Instr W B} {lvl : Level} {mem : W} {w₀ w : World W B}
    (h₀ : constructConfig env (World.empty lvl mem) = (w₀, .ok ())) (hw : Later env code w₀ w) :
    ∀ p ∈ programReads, ∃ x, (getConfigPropertyValue p.1 p.2 w).2 = .ok x ∧
      (p.2 ≠ LOG_LEVEL → (getConfigPropertyValue p.1 p.2 w₀).2 = .ok x) := by
  intro p hp
  obtain ⟨s, hs, ht, hn, hm⟩ := programReads_settings p hp
  obtain ⟨P, name⟩ := p
  simp only at ht hn ⊢
  subst ht hn
  have hstore : Constructed env settings w₀.store := by
    have h := (constructConfig_result env (show (World.empty lvl mem : World W B).store = _ from rfl)).2
    rw [h₀] at h
    exact h rfl
  have hreach₀ : Reach env code w₀ := by
    have h : Reach env code (constructConfig env (World.empty lvl mem)).1 :=
      constructConfig_reach env (Reach.empty lvl mem)
    rwa [h₀] at h
  obtain ⟨v, -, hv⟩ := hstore.value s hs
  obtain ⟨⟨Q, x⟩, hx, hQ, hfixed⟩ :=
    keeps_of_accounted hreach₀.accounted (hw.reach hreach₀).accounted hw.history s.name _ hv
  obtain rfl : Q = s.type := hQ
  refine ⟨x, getConfigPropertyValue_ok.mpr hx, fun hne => getConfigPropertyValue_ok.mpr ?_⟩
  have hman : s.name ∉ w₀.store.manageableProperties := by
    intro hmem
    obtain ⟨t, ht, htn, htm⟩ := (hstore.manageable s.name).mp hmem
    have : t = s := List.inj_on_of_nodup_map settings_nodup ht hs htn
    exact hne (hm (this ▸ htm))
  rw [hv, ← hfixed hman]

/-- Without variables, every setting has its default. -/
theorem constructConfig_noEnv : ∃ w₀ : World Unit Unit,
    constructConfig noEnv (World.empty .off ()) = (w₀, .ok ()) ∧ Constructed noEnv settings w₀.store := by
  obtain ⟨hres, hstore⟩ := constructConfig_result noEnv (show (World.empty .off () : World Unit Unit).store = _ from rfl)
  have hok := hres.trans (firstError_ok.mpr fun s hs => (settings_printable s hs).imp fun v hv => hv.1)
  exact ⟨_, Prod.ext rfl hok, hstore hok⟩

/-- The port is read after another read. -/
theorem reads_succeed_port : ∃ w₀ w : World Unit Unit, constructConfig noEnv (World.empty .off ()) = (w₀, .ok ()) ∧
    Later noEnv (fun _ => .ret) w₀ w ∧ ∃ x, (getConfigPropertyValue .uint16 METRICS_SERVER_LISTEN_PORT w).2 = .ok x := by
  obtain ⟨w₀, h₀, -⟩ := constructConfig_noEnv
  have hget : call noEnv (fun _ : Unit => .ret) 0 (.get .string METRICS_SERVER_PATH_PROMETHEUS) w₀ = some _ := rfl
  have hlater := Later.call .refl hget
  obtain ⟨x, hx, -⟩ := reads_succeed h₀ hlater (.uint16, METRICS_SERVER_LISTEN_PORT) (by decide)
  exact ⟨w₀, _, h₀, hlater, x, hx⟩

/-! ## Restarting with the settings shown -/

/-- The setting of the log level. -/
def logLevelSetting : Setting := ⟨.logLevel, LOG_LEVEL, .value .debug, true, "Global logging level".toList⟩

theorem logLevelSetting_mem : logLevelSetting ∈ settings := .tail _ (.head _)

/-- A later value of a setting, and the text shown for it. -/
theorem setting_later {env : Env} {code : B → Instr W B} {w₀ w : World W B}
    (h₀ : Constructed env settings w₀.store) (hw : Later env code w₀ w) {s : Setting} (hs : s ∈ settings) :
    ∃ x : s.type.Val, w.store.propertyValues.lookup s.name = some ⟨s.type, x⟩ ∧
      (getConfigPropertyValueForOutput s.name w).2 = .ok (valueToStr s.type x) := by
  obtain ⟨v, -, hv⟩ := h₀.value s hs
  have hk := hw.keptAt (Finmap.mem_iff.mpr ⟨_, hv⟩)
  obtain ⟨⟨Q, x⟩, hx, hQ⟩ := hk.typed _ hv
  obtain rfl : Q = s.type := hQ
  refine ⟨x, hx, ?_⟩
  have hhid : s.name ∉ w.store.hiddenProperties := by
    rw [hk.hidden, h₀.hidden]
    exact Finset.notMem_empty _
  unfold getConfigPropertyValueForOutput propertyValueForOutput
  rw [hx]
  simp only [hhid, if_false]

theorem readable_iff {P : PropType} (x : P.Val) :
    Readable P x ↔ (⟨P, x⟩ : Var) ≠ ⟨.logLevel, Level.warn⟩ := by
  cases P with
  | logLevel =>
    show (x : Level) ≠ Level.warn ↔ _
    rw [not_iff_not]
    exact ⟨fun h => by rw [h], fun h => by cases h; rfl⟩
  | string | uint16 | int32 | int64 | bool => exact iff_of_true trivial nofun

theorem settings_logLevel : ∀ s ∈ settings, s.type = .logLevel → s.name = LOG_LEVEL := by decide +kernel

/-- **Restart.** Take the settings of a running program, as the output lookup
shows them, for the variables of a new process. It is constructed and has the
same settings exactly when the log level was not `warn`. -/
theorem restart_iff {env env' : Env} {code : B → Instr W B} {lvl lvl' : Level} {mem mem' : W}
    {w₀ w : World W B} (h₀ : constructConfig env (World.empty lvl mem) = (w₀, .ok ()))
    (hw : Later env code w₀ w)
    (hshown : ∀ s ∈ settings, ∃ text, (getConfigPropertyValueForOutput s.name w).2 = .ok text ∧
      env'.getenv (ENV_VAR_PREFIX ++ s.name) = some text) :
    ((constructConfig env' (World.empty lvl' mem' : World W B)).2 = .ok () ∧
      ∀ s ∈ settings, (constructConfig env' (World.empty lvl' mem' : World W B)).1.store.propertyValues.lookup s.name =
        w.store.propertyValues.lookup s.name) ↔
    w.store.propertyValues.lookup LOG_LEVEL ≠ some ⟨.logLevel, .warn⟩ := by
  have hbuilt : Constructed env settings w₀.store := by
    have h := (constructConfig_result env (show (World.empty lvl mem : World W B).store = _ from rfl)).2
    rw [h₀] at h
    exact h rfl
  -- each setting is read back as what is shown parses to
  have hreads : ∀ s ∈ settings, ∃ x : s.type.Val, w.store.propertyValues.lookup s.name = some ⟨s.type, x⟩ ∧
      s.reads env' = strToValue s.type (valueToStr s.type x) := by
    intro s hs
    obtain ⟨x, hx, hout⟩ := setting_later hbuilt hw hs
    obtain ⟨text, htext, henv⟩ := hshown s hs
    rw [hout] at htext
    cases htext
    refine ⟨x, hx, ?_⟩
    rw [Setting.reads, henv]
  obtain ⟨hres, hstore⟩ := constructConfig_result env' (show (World.empty lvl' mem' : World W B).store = _ from rfl)
  constructor
  · rintro ⟨hok, -⟩ hwarn
    obtain ⟨v, hv⟩ := (firstError_ok.mp (hres ▸ hok)) logLevelSetting logLevelSetting_mem
    obtain ⟨x, hx, hr⟩ := hreads logLevelSetting logLevelSetting_mem
    have hx' : w.store.propertyValues.lookup LOG_LEVEL = some ⟨.logLevel, x⟩ := hx
    rw [hwarn] at hx'
    cases hx'
    rw [hr] at hv
    exact nomatch hv
  · intro hne
    have hread : ∀ s ∈ settings, ∃ x : s.type.Val,
        w.store.propertyValues.lookup s.name = some ⟨s.type, x⟩ ∧ s.reads env' = .ok x := by
      intro s hs
      obtain ⟨x, hx, hr⟩ := hreads s hs
      refine ⟨x, hx, ?_⟩
      rw [hr, strToValue_valueToStr, readable_iff]
      intro hwarn
      have hname := settings_logLevel s hs (congrArg Var.type hwarn)
      rw [hname, hwarn] at hx
      exact hne hx
    have hok := hres.trans (firstError_ok.mpr fun s hs => (hread s hs).imp fun x hx => hx.2)
    refine ⟨hok, fun s hs => ?_⟩
    obtain ⟨v, hv, hl⟩ := (hstore hok).value s hs
    obtain ⟨x, hx, hr⟩ := hread s hs
    rw [hr] at hv
    cases hv
    rw [hl, hx]

/-- The environment in which each variable holds the text of its default. -/
def defaultsEnv : Env where
  vars n := (settings.find? fun s => ENV_VAR_PREFIX ++ s.name = n).bind fun s =>
    s.default.meant.toOption.map (valueToStr s.type)
  nulFree := by
    intro n text h
    obtain ⟨s, hfind, htext⟩ := Option.bind_eq_some_iff.mp h
    obtain ⟨v, hv, -, hnul⟩ := settings_printable s (List.mem_of_find?_eq_some hfind)
    rw [hv] at htext
    cases htext
    exact hnul

theorem defaultsEnv_getenv : ∀ s ∈ settings,
    defaultsEnv.getenv (ENV_VAR_PREFIX ++ s.name) = s.default.meant.toOption.map (valueToStr s.type) := by
  decide +kernel

/-- A process without variables, and one with all defaults spelled out. -/
theorem restart_iff_defaults : ∃ w₀ : World Unit Unit, constructConfig noEnv (World.empty .off ()) = (w₀, .ok ()) ∧
    ((constructConfig defaultsEnv (World.empty .off () : World Unit Unit)).2 = .ok () ∧
      ∀ s ∈ settings, (constructConfig defaultsEnv (World.empty .off () : World Unit Unit)).1.store.propertyValues.lookup
        s.name = w₀.store.propertyValues.lookup s.name) := by
  obtain ⟨w₀, h₀, hbuilt⟩ := constructConfig_noEnv
  have hlater : Later noEnv (fun _ : Unit => .ret) w₀ w₀ := .refl
  refine ⟨w₀, h₀, (restart_iff h₀ hlater fun s hs => ?_).mpr fun hwarn => ?_⟩
  · obtain ⟨v, hv, hl⟩ := hbuilt.value s hs
    obtain ⟨x, hx, hout⟩ := setting_later hbuilt hlater hs
    rw [hl] at hx
    cases hx
    have hmeant : s.default.meant = .ok v := hv
    refine ⟨_, hout, ?_⟩
    rw [defaultsEnv_getenv s hs, hmeant]
    rfl
  · obtain ⟨v, hv, hl⟩ := hbuilt.value logLevelSetting logLevelSetting_mem
    have hl' : w₀.store.propertyValues.lookup LOG_LEVEL = some ⟨.logLevel, v⟩ := hl
    rw [hwarn] at hl'
    cases hl'
    exact nomatch hv

/-! ## `main` up to the server thread -/

section Main

variable {U : Type} {env : Env} {user : U → Instr W U}

/-- mirrors src/main.cpp:61-62 -/
def starting (lvl : Level) (mem : W) : World W (Point U) :=
  ((World.empty lvl mem).setLevel .trace).log .info
    "+main(): starting, with initial log level=TRACE. Reading the configuration...".toList

/-- `lvl` is the level spdlog has before.
mirrors src/main.cpp:61-65 -/
def start (env : Env) (lvl : Level) (mem : W) : Res W (Point U) Unit :=
  match constructConfig env (starting lvl mem) with
  | (w, .error e) => (w, .error e)
  | (w, .ok ()) => setupLogging w

theorem addSettings_before (ss : List Setting) {w : World W (Point U)} (hw : Before env user w) :
    Before env user (addSettings env ss w).1 := by
  induction ss generalizing w with
  | nil => exact hw
  | cons s ss ih =>
    have hop : (s.op : Op U).map .user = (s.op : Op (Point U)) := by
      unfold Setting.op
      cases s.default <;> rfl
    have hadd : Before env user (s.add env w).1 := Before.op hw (hop ▸ Setting.call_op env (program user) 0 s w)
    rw [addSettings]
    generalize s.add env w = q at hadd
    obtain ⟨w₁, r⟩ := q
    cases r with
    | error e => exact hadd
    | ok _ => exact ih hadd

theorem constructConfig_before {w : World W (Point U)} (hw : Before env user w) :
    Before env user (constructConfig env w).1 := by
  have hbegun : Before env user (constructing w) := .aside hw rfl
  have hadds := addSettings_before settings hbegun
  unfold constructConfig
  generalize addSettings env settings (constructing w) = q at hadds
  obtain ⟨w₁, r⟩ := q
  cases r with
  | error e => exact hadds
  | ok _ => exact .aside hadds rfl

/-- Where `LOG_LEVEL` is a manageable log level, `setup_logging` returns. -/
theorem setupLogging_returns {w : World W (Point U)} {level : Level}
    (hv : w.store.propertyValues.lookup LOG_LEVEL = some ⟨.logLevel, level⟩)
    (hm : LOG_LEVEL ∈ w.store.manageableProperties) : ∃ w', setupLogging w = (w', .ok ()) := by
  have hget : (getConfigPropertyValue .logLevel LOG_LEVEL (w.log .debug "+setup_logging()".toList)).2 = .ok level :=
    getConfigPropertyValue_ok.mpr hv
  have hstore := getConfigPropertyValue_store .logLevel LOG_LEVEL (w.log .debug "+setup_logging()".toList)
  obtain ⟨ls, hls⟩ := Finmap.mem_iff.mp hm
  unfold setupLogging
  simp only
  generalize getConfigPropertyValue .logLevel LOG_LEVEL (w.log .debug "+setup_logging()".toList) = q
    at hget hstore ⊢
  obtain ⟨w₁, r⟩ := q
  simp only at hget hstore
  subst hget
  have hadd : ∀ (l : Listener (Point U)) (w₂ : World W (Point U)), w₂.store = w₁.store →
      addPropertyListener LOG_LEVEL l w₂ = (w₂.withStore (w₂.store.pushListener LOG_LEVEL ls l), .ok ()) := by
    intro l w₂ hs
    have hls₂ : w₂.store.manageableProperties.lookup LOG_LEVEL = some ls := by
      rw [hs, hstore]
      exact hls
    unfold addPropertyListener
    rw [hls₂]
  simp only
  rw [hadd]
  · exact ⟨_, rfl⟩
  · rfl

/-- **The start of the process.** `main` gets to its server thread exactly
when every variable that is set parses. Then the level configured is active,
and only `log_level_listener` is registered, on `LOG_LEVEL`. -/
theorem started (env : Env) (user : U → Instr W U) (lvl : Level) (mem : W) :
    ((start env lvl mem : Res W (Point U) Unit).2 = .ok () ↔ ∀ s ∈ settings, ∃ v, s.reads env = .ok v) ∧
    ∀ w : World W (Point U), start env lvl mem = (w, .ok ()) →
      Running env user w ∧ logLevelSetting.reads env = .ok w.logger.level ∧
      (∀ s ∈ settings, ∃ v, s.reads env = .ok v ∧ w.store.propertyValues.lookup s.name = some ⟨s.type, v⟩) ∧
      ∀ name, w.store.listeners name =
        if name = LOG_LEVEL then [⟨.logLevelListener, "log_level_listener".toList⟩] else [] := by
  have hbefore : Before env user (constructConfig env (starting lvl mem : World W (Point U))).1 :=
    constructConfig_before (.aside (.empty lvl mem) rfl)
  obtain ⟨hres, hstore⟩ := constructConfig_result env (show (starting lvl mem : World W (Point U)).store = _ from rfl)
  rw [← firstError_ok, ← hres]
  unfold start
  generalize constructConfig env (starting lvl mem : World W (Point U)) = q at hbefore hres hstore ⊢
  obtain ⟨w₁, r⟩ := q
  cases r with
  | error e => exact ⟨Iff.rfl, fun w h => by cases h⟩
  | ok _ =>
    have hbuilt := hstore rfl
    obtain ⟨level, hreads, hvalue⟩ := hbuilt.value logLevelSetting logLevelSetting_mem
    have hv : w₁.store.propertyValues.lookup LOG_LEVEL = some ⟨.logLevel, level⟩ := hvalue
    have hm := (hbuilt.manageable LOG_LEVEL).mpr ⟨logLevelSetting, logLevelSetting_mem, rfl, rfl⟩
    obtain ⟨w', hw'⟩ := setupLogging_returns hv hm
    refine ⟨iff_of_true (congrArg Prod.snd hw') rfl, fun w h => ?_⟩
    obtain ⟨lvl', ls, hlvl, hls, hlevel, hpush⟩ := setupLogging_ok h
    refine ⟨.setup hbefore h, ?_, fun s hs => ?_, fun name => ?_⟩
    · rw [hv] at hlvl
      cases hlvl
      rw [hlevel]
      exact hreads
    · rw [hpush]
      exact hbuilt.value s hs
    · have hnone : ls = [] := by
        have := hbuilt.listeners LOG_LEVEL
        unfold Store.listeners at this
        rwa [hls] at this
      rw [hpush, listeners_pushListener, hnone, hbuilt.listeners]
      rfl

end Main

end SoapStab.Config
