import SoapStab.Config.Notify

/-!
# The log level follows `LOG_LEVEL`

`setup_logging` sets spdlog's level to the configured one and registers
`log_level_listener`, which reads `LOG_LEVEL` and sets the level to it.

`level_follows`: from then on, whenever an outermost set returns or throws,
the active level is the value stored in `LOG_LEVEL`, whatever other
listeners do (`Running`; they may throw, and may set `LOG_LEVEL` or other
properties themselves, but not call `set_level`).

The argument, for any stretch of a run (`Follows`): it leaves both the
stored value and the level alone, or it ends with the two equal
(`Synced`). Such stretches compose. A set of `LOG_LEVEL` starts with a
write that breaks the equality, but its loop comes to `log_level_listener`
and what follows that only composes (`notifyEach_synced`).
-/
namespace SoapStab.Config

variable {W U : Type}

/-! ## `log_level_listener` and the other listeners -/

/-- Program points: those of the other listeners, and those of
`log_level_listener`. -/
inductive Point (U : Type) where
  | user (u : U)
  | logLevelListener
  | readLevel
  | readConfig (currentLevel : Level)
  | switch (currentLevel : Level) (newLevel : Except Thrown Ret)
  | report (currentLevel newLevel : Level)
  | done

/-- The same call with the listeners' bodies renamed. -/
def Op.map {B C : Type} (f : B → C) : Op B → Op C
  | .get P name => .get P name
  | .set P name v rethrow => .set P name v rethrow
  | .add P name d h m desc => .add P name d h m desc
  | .addCstr P name d h m desc => .addCstr P name d h m desc
  | .addListener name l => .addListener name ⟨f l.func, l.name⟩
  | .manageableNames => .manageableNames
  | .description name => .description name
  | .valueForOutput name => .valueForOutput name
  | .typeForOutput name => .typeForOutput name

def Instr.map {B C : Type} (f : B → C) : Instr W B → Instr W C
  | .ret => .ret
  | .throw e => .throw e
  | .step g => .step fun m => ((g m).1, f (g m).2)
  | .log lvl text next => .log lvl text (f next)
  | .getLevel k => .getLevel fun lvl => f (k lvl)
  | .setLevel lvl next => .setLevel lvl (f next)
  | .call op k => .call (op.map f) fun r => f (k r)

/-- The last branch but two of `switch` is never taken: a get returns a
value of its type.
mirrors src/main.cpp:19-25 -/
def program (user : U → Instr W U) : Point U → Instr W (Point U)
  | .user u => (user u).map .user
  | .logLevelListener => .log .debug "+log_level_listener()".toList .readLevel
  | .readLevel => .getLevel .readConfig
  | .readConfig current => .call (.get .logLevel LOG_LEVEL) (.switch current)
  | .switch current (.ok (.value ⟨.logLevel, new⟩)) => .setLevel new (.report current new)
  | .switch _ (.ok _) => .ret
  | .switch _ (.error e) => .throw e
  | .report current new =>
    .log .warn ("-log_level_listener(): switched from level ".toList ++ current.toStringView ++
      " to ".toList ++ new.toStringView) .done
  | .done => .ret

/-- mirrors src/main.cpp:12-29 -/
def setupLogging (w : World W (Point U)) : Res W (Point U) Unit :=
  let w := w.log .debug "+setup_logging()".toList
  match getConfigPropertyValue .logLevel LOG_LEVEL w with
  | (w, .error e) => (w, .error e)
  | (w, .ok logLevel) =>
    let w := w.log .info ("setup_logging(): setting log level to the configured: ".toList ++
      Level.toStringView logLevel)
    let w := w.setLevel logLevel
    let w := w.log .trace
      "setup_logging(): log level set to the configured. Now initializing the log level listener".toList
    match addPropertyListener LOG_LEVEL ⟨.logLevelListener, "log_level_listener".toList⟩ w with
    | (w, .error e) => (w, .error e)
    | (w, .ok ()) => (w.log .debug "-setup_logging()".toList, .ok ())

/-! ## Runs of the process -/

/-- Worlds before `setup_logging`: any operations, and between them anything
that leaves the store alone. -/
inductive Before (env : Env) (user : U → Instr W U) : World W (Point U) → Prop
  | empty (lvl : Level) (mem : W) : Before env user (World.empty lvl mem)
  | op {w : World W (Point U)} {n : Nat} {op : Op U} {r : Res W (Point U) Ret} (hw : Before env user w)
    (h : call env (program user) n (op.map .user) w = some r) : Before env user r.1
  | aside {w w' : World W (Point U)} (hw : Before env user w) (hs : w'.store = w.store) : Before env user w'

/-- Worlds after `setup_logging` has returned: any operations, and between
them anything that leaves the store and the level alone. -/
inductive Running (env : Env) (user : U → Instr W U) : World W (Point U) → Prop
  | setup {w w' : World W (Point U)} (hw : Before env user w) (h : setupLogging w = (w', .ok ())) :
    Running env user w'
  | op {w : World W (Point U)} {n : Nat} {op : Op U} {r : Res W (Point U) Ret} (hw : Running env user w)
    (h : call env (program user) n (op.map .user) w = some r) : Running env user r.1
  | aside {w w' : World W (Point U)} (hw : Running env user w) (hs : w'.store = w.store)
    (hl : w'.logger.level = w.logger.level) : Running env user w'

/-! ## Level and stored value -/

section Level

variable {B : Type}

/-- The active level is the stored one. -/
def Synced (w : World W B) : Prop :=
  w.store.propertyValues.lookup LOG_LEVEL = some ⟨.logLevel, w.logger.level⟩

structure Untouched (w w' : World W B) : Prop where
  value : w'.store.propertyValues.lookup LOG_LEVEL = w.store.propertyValues.lookup LOG_LEVEL
  level : w'.logger.level = w.logger.level

/-- A stretch of a run leaves value and level alone, or ends with the two
equal. -/
def Follows (w w' : World W B) : Prop := Untouched w w' ∨ Synced w'

theorem Untouched.synced {w w' : World W B} (h : Untouched w w') (hw : Synced w) : Synced w' := by
  unfold Synced at hw ⊢
  rw [h.value, h.level, hw]

theorem Follows.synced {w w' : World W B} (h : Follows w w') (hw : Synced w) : Synced w' :=
  h.elim (fun hu => hu.synced hw) id

theorem Follows.refl (w : World W B) : Follows w w := .inl ⟨rfl, rfl⟩

theorem Follows.trans {w w' w'' : World W B} (h : Follows w w') (h' : Follows w' w'') : Follows w w'' := by
  rcases h' with hu' | hs
  · rcases h with hu | hs
    · exact .inl ⟨hu'.value.trans hu.value, hu'.level.trans hu.level⟩
    · exact .inr (hu'.synced hs)
  · exact .inr hs

end Level

/-! ## What stays so throughout -/

/-- A body a run may start: another listener's, or `log_level_listener`. -/
def IsBody (b : Point U) : Prop := b = .logLevelListener ∨ ∃ u, b = .user u

structure Listened (w : World W (Point U)) : Prop where
  hasValue : ManageableHasValue w
  bodies : ∀ name, ∀ l ∈ w.store.listeners name, IsBody l.func

theorem Listened.of_store {w w' : World W (Point U)} (h : Listened w) (hs : w'.store = w.store) :
    Listened w' :=
  ⟨h.hasValue.of_store hs, by rw [hs]; exact h.bodies⟩

/-- `setup_logging` has been here. -/
structure Watched (w : World W (Point U)) : Prop extends Listened w where
  typed : ∃ lvl, w.store.propertyValues.lookup LOG_LEVEL = some ⟨.logLevel, lvl⟩
  registered : ∃ l ∈ w.store.listeners LOG_LEVEL, l.func = .logLevelListener

theorem Watched.of_store {w w' : World W (Point U)} (h : Watched w) (hs : w'.store = w.store) :
    Watched w' :=
  ⟨h.toListened.of_store hs, by rw [hs]; exact h.typed, by rw [hs]; exact h.registered⟩

theorem Prim.typed {w w' : World W (Point U)} (h : Prim w w') {n : Str} {P : PropType}
    (hw : ∃ x, w.store.propertyValues.lookup n = some ⟨P, x⟩) :
    ∃ x, w'.store.propertyValues.lookup n = some ⟨P, x⟩ := by
  obtain ⟨x, hx⟩ := hw
  cases h with
  | log | mem | level | reading | unparsable | listened => exact ⟨x, hx⟩
  | added name v h m desc fresh =>
    have hn : n ≠ name := fun he => fresh (he ▸ Finmap.mem_iff.mpr ⟨_, hx⟩)
    exact ⟨x, (Finmap.lookup_insert_of_ne _ hn).trans hx⟩
  | filled name hm hv =>
    have hn : n ≠ name := fun he => by rw [he, hv] at hx; cases hx
    exact ⟨x, (Finmap.lookup_insert_of_ne _ hn).trans hx⟩
  | stored name v old hm hv ht =>
    by_cases hn : n = name
    · subst hn
      rw [hx] at hv
      cases hv
      obtain ⟨T, y⟩ := v
      simp only at ht
      subst ht
      exact ⟨y, Finmap.lookup_insert _⟩
    · exact ⟨x, (Finmap.lookup_insert_of_ne _ hn).trans hx⟩

theorem Watched.of_steps {w w' : World W (Point U)} (h : Watched w) (hs : Steps w w') (hl : Listened w') :
    Watched w' := by
  refine ⟨hl, hs.preserves (fun _ _ hp => hp.typed) h.typed, ?_⟩
  obtain ⟨l, hmem, hf⟩ := h.registered
  exact ⟨l, ((hs.grows h.hasValue).1.listeners LOG_LEVEL).subset hmem, hf⟩

/-- A stretch of a run from a world whose listeners are bodies. -/
structure Moves (w w' : World W (Point U)) : Prop where
  steps : Steps w w'
  listened : Listened w'
  follows : Watched w → Follows w w'

theorem Moves.trans {w w' w'' : World W (Point U)} (h : Moves w w') (h' : Moves w' w'') : Moves w w'' :=
  ⟨h.steps.trans h'.steps, h'.listened, fun hw =>
    (h.follows hw).trans (h'.follows (hw.of_steps h.steps h.listened))⟩

theorem Moves.watched {w w' : World W (Point U)} (h : Moves w w') (hw : Watched w) : Watched w' :=
  hw.of_steps h.steps h.listened

/-- A stretch that changes neither the store nor the level. -/
theorem Moves.of_same {w w' : World W (Point U)} (hw : Listened w) (hsteps : Steps w w')
    (hs : w'.store = w.store) (hl : w'.logger.level = w.logger.level) : Moves w w' :=
  ⟨hsteps, hw.of_store hs, fun _ => .inl ⟨by rw [hs], hl⟩⟩

theorem Moves.log {w : World W (Point U)} (hw : Listened w) (lvl : Level) (t : Str) : Moves w (w.log lvl t) :=
  .of_same hw (Steps.log ..) rfl (World.log_logger_level ..)

/-! ## One call -/

variable {env : Env} {user : U → Instr W U}

/-- An operation that runs no listener. -/
theorem plain_moves {op : Op U} {w : World W (Point U)} {r : Res W (Point U) Ret} (hw : Listened w)
    (h : (op.map .user).plain env w = some r) : Moves w r.1 := by
  have hsteps := plain_steps h
  obtain ⟨hlevel, hsame | ⟨name, v, hid, m, desc, hf, hadd⟩ | ⟨name, l, ls, hop, hls, hpush⟩⟩ :=
    plain_writes h
  · exact .of_same hw hsteps hsame hlevel
  · refine ⟨hsteps, ⟨(hsteps.grows hw.hasValue).2, fun n l hl => ?_⟩, fun hwatch => .inl ⟨?_, hlevel⟩⟩
    · rw [hadd] at hl
      unfold Store.listeners Store.addProperty at hl
      cases m with
      | false => exact hw.bodies n l hl
      | true =>
        by_cases hn : n = name
        · subst hn; simp at hl
        · simp only [if_true, Finmap.lookup_insert_of_ne _ hn] at hl
          exact hw.bodies n l hl
    · obtain ⟨lvl, hlvl⟩ := hwatch.typed
      have hn : LOG_LEVEL ≠ name := fun he => hf (he ▸ Finmap.mem_iff.mpr ⟨_, hlvl⟩)
      rw [hadd]
      exact Finmap.lookup_insert_of_ne _ hn
  · refine ⟨hsteps, ⟨(hsteps.grows hw.hasValue).2, fun n l' hl => ?_⟩,
      fun _ => .inl ⟨by rw [hpush]; rfl, hlevel⟩⟩
    -- only another listener can be registered by a call
    have hbody : IsBody l.func := by
      cases op with
      | addListener _ l₀ => cases hop; exact .inr ⟨l₀.func, rfl⟩
      | _ => cases hop
    rw [hpush, listeners_pushListener] at hl
    split at hl
    · next hn =>
      subst hn
      rcases List.mem_append.mp hl with hold | hnew
      · refine hw.bodies n l' ?_
        unfold Store.listeners
        rw [hls]
        exact hold
      · cases List.mem_singleton.mp hnew
        exact hbody
    · exact hw.bodies n l' hl

/-- How bodies run: a stretch of the run, at whose end the level is the
stored one if the body is `log_level_listener`. -/
def BodiesMove (run : Runner W (Point U)) : Prop :=
  ∀ ⦃b w r⦄, IsBody b → Listened w → run b w = some r →
    Moves w r.1 ∧ (b = .logLevelListener → Watched w → Synced r.1)

theorem notifyOne_moves {run : Runner W (Point U)} (hr : BodiesMove run) {name : Str} {rethrow : Bool}
    {l : Listener (Point U)} {s s' : World W (Point U) × Str} (hb : IsBody l.func) (hw : Listened s.1)
    (h : notifyOne run name rethrow l s = some s') :
    Moves s.1 s'.1 ∧ (l.func = .logLevelListener → Watched s.1 → Synced s'.1) := by
  simp only [notifyOne] at h
  split at h
  · cases h
  · next w' r hw' =>
    cases h
    have hlog := Moves.log hw .trace ("config::set_config_property_value(): executing listener ".toList ++
      l.name ++ " on property ".toList ++ name)
    obtain ⟨hmove, hsync⟩ := hr hb hlog.listened hw'
    have hlog' := Moves.log hmove.listened (resultLine name l r).1 (resultLine name l r).2
    refine ⟨hlog.trans (hmove.trans hlog'), fun hl hwatch => ?_⟩
    have hwatch' := hlog.watched hwatch
    exact (hlog'.follows (hmove.watched hwatch')).synced (hsync hl hwatch')

theorem notify_moves {run : Runner W (Point U)} (hr : BodiesMove run) {name : Str} {rethrow : Bool} :
    ∀ {n i : Nat} {s s' : World W (Point U) × Str} {ran ran'}, Listened s.1 →
      notify run name rethrow n i s ran = some (s', ran') → Moves s.1 s'.1 := by
  intro n
  induction n with
  | zero => intro i s s' ran ran' _ h; cases h
  | succ n ih =>
    intro i s s' ran ran' hw h
    simp only [notify] at h
    split at h
    · cases h
      exact .of_same hw .refl rfl rfl
    · next l hl =>
      split at h
      · cases h
      · next s1 h1 =>
        have hone := (notifyOne_moves hr (hw.bodies name l (List.mem_of_getElem? hl)) hw h1).1
        exact hone.trans (ih hone.listened h)

/-- A list of listeners with `log_level_listener` among them, run in turn. -/
theorem notifyEach_synced {run : Runner W (Point U)} (hr : BodiesMove run) {name : Str} {rethrow : Bool} :
    ∀ {ls : List (Listener (Point U))} {s s' : World W (Point U) × Str}, (∀ l ∈ ls, IsBody l.func) →
      Watched s.1 → notifyEach run name rethrow ls s = some s' →
      (Synced s.1 ∨ ∃ l ∈ ls, l.func = .logLevelListener) → Synced s'.1 := by
  intro ls
  induction ls with
  | nil =>
    intro s s' _ _ h hor
    cases h
    rcases hor with hs | ⟨l, hl, -⟩
    · exact hs
    · cases hl
  | cons l ls ih =>
    intro s s' hb hwatch h hor
    simp only [notifyEach] at h
    split at h
    · cases h
    · next s1 h1 =>
      obtain ⟨hmove, hsync⟩ := notifyOne_moves hr (hb l (by simp)) hwatch.toListened h1
      refine ih (fun l' hl' => hb l' (by simp [hl'])) (hmove.watched hwatch) h ?_
      rcases hor with hs | ⟨l', hl', hf⟩
      · exact .inl ((hmove.follows hwatch).synced hs)
      · rcases List.mem_cons.mp hl' with rfl | hl'
        · exact .inl (hsync hf hwatch)
        · exact .inr ⟨l', hl', hf⟩

theorem storedWorld_listened {w : World W (Point U)} (hw : Listened w) (P : PropType) (name : Str)
    (old v : P.Val) : Listened (storedWorld P name old v w) :=
  ⟨fun n hn => Finmap.mem_insert.mpr (.inr (hw.hasValue n hn)), hw.bodies⟩

/-- A set, and a set of `LOG_LEVEL` in particular. -/
theorem setConfigPropertyValue_moves {run : Runner W (Point U)} (hr : BodiesMove run) (hs : run.Stepping)
    {n : Nat} {P : PropType} {name : Str} {v : P.Val} {rethrow : Bool} {w : World W (Point U)} {q}
    (hw : Listened w) (h : setConfigPropertyValue run n P name v rethrow w = some q) : Moves w q.1.1 := by
  have hsteps := setConfigPropertyValue_steps hs h
  rcases storeNewValue_cases hw.hasValue P name v with ⟨old, hm, hold, hstore⟩ | ⟨-, t, hstore⟩
  · obtain ⟨s, hloop, hq⟩ := (set_eq_some hstore).mp h
    have hw₁ := storedWorld_listened hw P name old v
    have hmoves := notify_moves hr hw₁ hloop
    rw [hq] at hsteps ⊢
    refine ⟨hsteps, hmoves.listened, fun hwatch => ?_⟩
    have hwatch₁ : Watched (storedWorld P name old v w) := by
      have hst := storeNewValue_steps P name v w
      rw [hstore] at hst
      exact hwatch.of_steps hst hw₁
    by_cases hn : name = LOG_LEVEL
    · -- the loop runs every listener registered, log_level_listener among them
      subst hn
      right
      obtain ⟨-, heach⟩ := notify_runs hs hw₁.hasValue hloop
      obtain ⟨l, hl, hf⟩ := (hmoves.watched hwatch₁).registered
      exact notifyEach_synced hr (fun l hl => hmoves.listened.bodies _ l hl) hwatch₁ heach (.inr ⟨l, hl, hf⟩)
    · have hun : Follows w (storedWorld P name old v w) :=
        .inl ⟨Finmap.lookup_insert_of_ne _ (Ne.symm hn), storedWorld_level ..⟩
      exact hun.trans (hmoves.follows hwatch₁)
  · unfold setConfigPropertyValue at h
    rw [hstore] at h
    cases h
    exact Moves.log hw .err t

theorem exec_moves {run : Runner W (Point U)} (hr : BodiesMove run) (hs : run.Stepping) {n : Nat} {op : Op U}
    {w : World W (Point U)} {r : Res W (Point U) Ret} (hw : Listened w)
    (h : (op.map .user).exec env run n w = some r) : Moves w r.1 := by
  rcases Op.exec_cases h with h | ⟨P, name, v, rethrow, q, -, hq, rfl⟩
  · exact plain_moves hw h
  · exact setConfigPropertyValue_moves hr hs hw hq

/-! ## Bodies -/

theorem run_done {n : Nat} {w : World W (Point U)} {r}
    (h : runListener env (program user) n .done w = some r) : r.1 = w := by
  cases n with
  | zero => cases h
  | succ n => rw [runListener] at h; cases h; rfl

theorem run_report {n : Nat} {current new : Level} {w : World W (Point U)} {r}
    (h : runListener env (program user) n (.report current new) w = some r) :
    r.1.store = w.store ∧ r.1.logger.level = w.logger.level := by
  cases n with
  | zero => cases h
  | succ n =>
    rw [runListener] at h
    rw [run_done h]
    exact ⟨rfl, World.log_logger_level ..⟩

theorem program_switch (user : U → Instr W U) (current : Level) (x : Except Thrown Ret) :
    (∃ new, x = .ok (.value ⟨.logLevel, new⟩) ∧
      program user (.switch current x) = .setLevel new (.report current new)) ∨
    (∀ new, x ≠ .ok (.value ⟨.logLevel, new⟩)) ∧
      (program user (.switch current x) = .ret ∨ ∃ e, program user (.switch current x) = .throw e) := by
  rcases x with e | (_ | ⟨P, v⟩ | t | ns)
  · exact .inr ⟨nofun, .inr ⟨e, rfl⟩⟩
  · exact .inr ⟨nofun, .inl rfl⟩
  · cases P with
    | logLevel => exact .inl ⟨v, rfl, rfl⟩
    | _ => exact .inr ⟨nofun, .inl rfl⟩
  · exact .inr ⟨nofun, .inl rfl⟩
  · exact .inr ⟨nofun, .inl rfl⟩

theorem run_switch {n : Nat} {current : Level} {x : Except Thrown Ret} {w : World W (Point U)} {r}
    (h : runListener env (program user) n (.switch current x) w = some r) :
    r.1.store = w.store ∧ ∀ new, x = .ok (.value ⟨.logLevel, new⟩) → r.1.logger.level = new := by
  cases n with
  | zero => cases h
  | succ n =>
    rw [runListener] at h
    rcases program_switch user current x with ⟨new, rfl, hp⟩ | ⟨hx, hp⟩
    · rw [hp] at h
      obtain ⟨hs, hl⟩ := run_report h
      exact ⟨hs, fun new' he => by cases he; exact hl⟩
    · have hr : r.1 = w := by
        rcases hp with hp | ⟨e, hp⟩ <;> rw [hp] at h <;> cases h <;> rfl
      exact ⟨by rw [hr], fun new he => absurd he (hx new)⟩

theorem run_readConfig {n : Nat} {current : Level} {w : World W (Point U)} {r}
    (h : runListener env (program user) n (.readConfig current) w = some r) :
    r.1.store = w.store ∧ ∀ lvl, w.store.propertyValues.lookup LOG_LEVEL = some ⟨.logLevel, lvl⟩ →
      r.1.logger.level = lvl := by
  cases n with
  | zero => cases h
  | succ n =>
    rw [runListener] at h
    obtain ⟨hs, hl⟩ := run_switch h
    have hget := getConfigPropertyValue_store .logLevel LOG_LEVEL w
    refine ⟨hs.trans hget, fun lvl hlvl => hl lvl ?_⟩
    have hok := getConfigPropertyValue_ok.mpr hlvl
    simp only [hok]
    rfl

/-- `log_level_listener` leaves the store alone and sets the level to the
value it finds there. -/
theorem run_logLevelListener {n : Nat} {w : World W (Point U)} {r}
    (h : runListener env (program user) n .logLevelListener w = some r) :
    r.1.store = w.store ∧ ∀ lvl, w.store.propertyValues.lookup LOG_LEVEL = some ⟨.logLevel, lvl⟩ →
      r.1.logger.level = lvl := by
  cases n with
  | zero => cases h
  | succ n =>
    rw [runListener] at h
    cases n with
    | zero => cases h
    | succ n =>
      simp only [program] at h
      rw [runListener] at h
      have hread : runListener env (program user) n (.readConfig (w.log .debug _).logger.level)
        (w.log .debug _) = some r := h
      have hrun := run_readConfig hread
      exact hrun

theorem logLevelListener_moves {n : Nat} {w : World W (Point U)} {r} (hw : Listened w)
    (h : runListener env (program user) n .logLevelListener w = some r) :
    Moves w r.1 ∧ (Watched w → Synced r.1) := by
  have hsteps := runListener_steps env (program user) n _ _ _ _ h
  obtain ⟨hs, hl⟩ := run_logLevelListener h
  have hsync : Watched w → Synced r.1 := by
    intro hwatch
    obtain ⟨lvl, hlvl⟩ := hwatch.typed
    unfold Synced
    rw [hs, hl lvl hlvl, hlvl]
  exact ⟨⟨hsteps, hw.of_store hs, fun hwatch => .inr (hsync hwatch)⟩, hsync⟩

/-- Every body moves, by induction on the fuel: a body's instructions are
stretches, its calls by `exec_moves`. -/
theorem runListener_moves (hu : ∀ u lvl next, user u ≠ .setLevel lvl next) :
    ∀ n, BodiesMove (runListener env (program user) n) := by
  intro n
  induction n with
  | zero => intro b w r _ _ h; cases h
  | succ n ih =>
    intro b w r hb hw h
    rcases hb with rfl | ⟨u, rfl⟩
    · exact ⟨(logLevelListener_moves hw h).1, fun _ => (logLevelListener_moves hw h).2⟩
    · refine ⟨?_, fun he => by cases he⟩
      have hself : ∀ u', IsBody (.user u' : Point U) := fun u' => .inr ⟨u', rfl⟩
      rw [runListener] at h
      cases hi : user u with
      | ret =>
        simp only [program, hi, Instr.map] at h
        cases h
        exact .of_same hw .refl rfl rfl
      | throw e =>
        simp only [program, hi, Instr.map] at h
        cases h
        exact .of_same hw .refl rfl rfl
      | step g =>
        simp only [program, hi, Instr.map] at h
        have hmem : Moves w { w with mem := (g w.mem).1 } := .of_same hw (Prim.mem w _).steps rfl rfl
        exact hmem.trans (ih (hself _) hmem.listened h).1
      | log lvl text next =>
        simp only [program, hi, Instr.map] at h
        have hlog := Moves.log hw lvl text
        exact hlog.trans (ih (hself _) hlog.listened h).1
      | getLevel k =>
        simp only [program, hi, Instr.map] at h
        exact (ih (hself _) hw h).1
      | setLevel lvl next => exact absurd hi (hu u lvl next)
      | call op k =>
        simp only [program, hi, Instr.map] at h
        split at h
        · cases h
        · next w1 q hq =>
          have hop := exec_moves ih (runListener_steps env (program user) n) hw hq
          exact hop.trans (ih (hself _) hop.listened h).1

/-! ## Runs -/

theorem call_moves (hu : ∀ u lvl next, user u ≠ .setLevel lvl next) {n : Nat} {op : Op U}
    {w : World W (Point U)} {r : Res W (Point U) Ret} (hw : Listened w)
    (h : call env (program user) n (op.map .user) w = some r) : Moves w r.1 :=
  exec_moves (runListener_moves hu n) (runListener_steps env (program user) n) hw h

theorem Before.listened (hu : ∀ u lvl next, user u ≠ .setLevel lvl next) {w : World W (Point U)}
    (h : Before env user w) : Listened w := by
  induction h with
  | empty lvl mem =>
    refine ⟨fun n hn => absurd hn Finmap.notMem_empty, fun n l hl => ?_⟩
    simp [Store.listeners, World.empty, Store.empty] at hl
  | op _ h ih => exact (call_moves hu ih h).listened
  | aside _ hs ih => exact ih.of_store hs

theorem addPropertyListener_ok {name : Str} {l : Listener (Point U)} {w w' : World W (Point U)}
    (h : addPropertyListener name l w = (w', .ok ())) :
    ∃ ls, w.store.manageableProperties.lookup name = some ls ∧
      w' = w.withStore (w.store.pushListener name ls l) := by
  unfold addPropertyListener at h
  split at h
  · cases h
  · next ls hls => cases h; exact ⟨ls, hls, rfl⟩

/-- `setup_logging` sets the level to the one configured and adds its
listener behind the others. -/
theorem setupLogging_ok {w w' : World W (Point U)} (h : setupLogging w = (w', .ok ())) :
    ∃ lvl ls, w.store.propertyValues.lookup LOG_LEVEL = some ⟨.logLevel, lvl⟩ ∧
      w.store.manageableProperties.lookup LOG_LEVEL = some ls ∧ w'.logger.level = lvl ∧
      w'.store = w.store.pushListener LOG_LEVEL ls ⟨.logLevelListener, "log_level_listener".toList⟩ := by
  unfold setupLogging at h
  simp only at h
  generalize hq : getConfigPropertyValue .logLevel LOG_LEVEL (w.log .debug "+setup_logging()".toList) = q at h
  obtain ⟨w₁, x⟩ := q
  cases x with
  | error e => cases h
  | ok lvl =>
    have hs : w₁.store = w.store := by
      have := getConfigPropertyValue_store .logLevel LOG_LEVEL (w.log .debug "+setup_logging()".toList)
      rw [hq] at this
      exact this
    have hget : (getConfigPropertyValue .logLevel LOG_LEVEL (w.log .debug "+setup_logging()".toList)).2 =
      .ok lvl := congrArg Prod.snd hq
    have hlvl := getConfigPropertyValue_ok.mp hget
    rw [World.log_store] at hlvl
    simp only at h
    split at h
    · cases h
    · next w₂ hadd =>
      obtain ⟨ls, hls, rfl⟩ := addPropertyListener_ok hadd
      have hls : w.store.manageableProperties.lookup LOG_LEVEL = some ls := by rw [← hs]; exact hls
      cases h
      refine ⟨lvl, ls, hlvl, hls, ?_, ?_⟩
      · simp only [World.log_logger_level, World.withStore_logger, World.setLevel_level]
      · simp only [World.log_store, World.withStore_store, World.setLevel_store, hs]

/-- What `setup_logging` establishes. -/
theorem setupLogging_watched {w w' : World W (Point U)} (hw : Listened w)
    (h : setupLogging w = (w', .ok ())) : Watched w' ∧ Synced w' := by
  obtain ⟨lvl, ls, hlvl, hls, hlevel, hstore⟩ := setupLogging_ok h
  have hlisteners := listeners_pushListener w.store LOG_LEVEL
  refine ⟨⟨⟨fun n hn => ?_, fun n l hl => ?_⟩, ⟨lvl, by rw [hstore]; exact hlvl⟩, ?_⟩, ?_⟩
  · rw [hstore] at hn ⊢
    rcases Finmap.mem_insert.mp hn with rfl | hn
    · exact Finmap.mem_iff.mpr ⟨_, hlvl⟩
    · exact hw.hasValue n hn
  · rw [hstore, hlisteners] at hl
    split at hl
    · rcases List.mem_append.mp hl with hold | hnew
      · refine hw.bodies LOG_LEVEL l ?_
        unfold Store.listeners
        rw [hls]
        exact hold
      · cases List.mem_singleton.mp hnew
        exact .inl rfl
    · exact hw.bodies n l hl
  · rw [hstore, hlisteners, if_pos rfl]
    exact ⟨_, List.mem_append_right _ (List.mem_singleton_self _), rfl⟩
  · unfold Synced
    rw [hstore, hlevel]
    exact hlvl

theorem Running.synced (hu : ∀ u lvl next, user u ≠ .setLevel lvl next) {w : World W (Point U)}
    (h : Running env user w) : Watched w ∧ Synced w := by
  induction h with
  | setup hw h => exact setupLogging_watched (hw.listened hu) h
  | op _ h ih =>
    have hmove := call_moves hu ih.1.toListened h
    exact ⟨hmove.watched ih.1, (hmove.follows ih.1).synced ih.2⟩
  | aside _ hs hl ih =>
    refine ⟨ih.1.of_store hs, ?_⟩
    unfold Synced
    rw [hs, hl]
    exact ih.2

/-- **The level follows the configuration.** Once `setup_logging` has
returned, every outermost set, whether it returns or throws, ends with the
level stored in `LOG_LEVEL` active. -/
theorem level_follows (hu : ∀ u lvl next, user u ≠ .setLevel lvl next) {w : World W (Point U)}
    (hw : Running env user w) {n : Nat} {P : PropType} {name : Str} {v : P.Val} {rethrow : Bool}
    {r : Res W (Point U) Ret} (h : call env (program user) n (.set P name v rethrow) w = some r) :
    ∃ lvl, r.1.store.propertyValues.lookup LOG_LEVEL = some ⟨.logLevel, lvl⟩ ∧ r.1.logger.level = lvl := by
  have hcall : call env (program user) n ((Op.set P name v rethrow : Op U).map .user) w = some r := h
  exact ⟨_, (Running.op hw hcall).synced hu |>.2, rfl⟩

/-! ## One run -/

/-- `LOG_LEVEL` as the constructor of `config` adds it.
mirrors src/config/config.cpp:65 -/
def configured : World Unit (Point Unit) :=
  (addConfigProperty noEnv .logLevel LOG_LEVEL (some .debug) false true "Global logging level".toList
    (World.empty .trace ())).1

theorem configured_before : Before noEnv (fun _ : Unit => .ret) configured := by
  have hadd : call noEnv (program fun _ : Unit => .ret) 0
    ((Op.add .logLevel LOG_LEVEL (some .debug) false true "Global logging level".toList : Op Unit).map .user)
    (World.empty .trace ()) = some _ := rfl
  exact Before.op (Before.empty .trace ()) hadd

theorem setupLogging_configured : setupLogging configured = ((setupLogging configured).1, .ok ()) := by
  have : (setupLogging configured).2 = .ok () := by decide
  rw [← this]

/-- Setting `LOG_LEVEL` to `err` there. -/
theorem level_follows_err : ∃ r,
    call noEnv (program fun _ : Unit => .ret) 9 (.set .logLevel LOG_LEVEL .err false)
      (setupLogging configured).1 = some r ∧
    r.1.store.propertyValues.lookup LOG_LEVEL = some ⟨.logLevel, .err⟩ ∧ r.1.logger.level = .err := by
  have hends : (call noEnv (program fun _ : Unit => .ret) 9 (.set .logLevel LOG_LEVEL .err false)
    (setupLogging configured).1).map (fun r => r.1.logger.level) = some .err := by decide
  obtain ⟨r, hr, hlevel⟩ := Option.map_eq_some_iff.mp hends
  have hrunning := Running.setup configured_before setupLogging_configured
  obtain ⟨lvl, hstored, hactive⟩ := level_follows (fun _ _ _ h => by cases h) hrunning hr
  cases hactive.symm.trans hlevel
  exact ⟨r, hr, hstored, hactive⟩

end SoapStab.Config
