import SoapStab.Config.Cascade
import SoapStab.Config.Metadata
import SoapStab.Lib.Reentrant

/-!
# The operations of `config` from several threads

Every operation takes the recursive mutex of the store and holds it to its
end, and a listener that calls back in takes it once more. Here the
operations of any number of threads make their steps one at a time: the write
of a set, each look at the list of listeners, each instruction of a listener
body; the schedule is arbitrary. `runs_iff` connects the steps with `call`,
the operation in one go that the other modules are about.

The overload of `add_config_property` with a `const char *` parses the
default before it takes the mutex; where that throws, it never takes it.

**Results.**
* `threads_serial`: whatever the schedule, the operations take effect one
  after the other, and return what they return then.
* `threads_keep`: between any two moments, inside operations as well, no
  property is lost or changes its type, its description or its flags, and no
  listener is lost.
* `threads_go_on`: no operation waits for its own thread, and there is no
  deadlock.
* `threads_complete`: with ranked listeners every run can be completed.
-/
namespace SoapStab.Config

open SoapStab.Lib.Reentrant SoapStab.Lib.Traces

variable {W B : Type}

/-! ## Operations step by step -/

/-- The loop of a set: `i`, and `listener_exception_descriptions`. -/
structure Loop where
  name : Str
  rethrow : Bool
  position : Nat
  descriptions : Str

/-- After listener `l`.
mirrors src/config/config.h:219-238 -/
def Loop.after (x : Loop) (l : Listener B) (res : Except Thrown Unit) : Loop :=
  { x with
    position := x.position + 1
    descriptions := if x.rethrow then x.descriptions ++ complaint l res else x.descriptions }

/-- Where an operation is. -/
inductive Frame (B : Type) where
  | start (op : Op B)
  | loop (x : Loop)
  | body (x : Loop) (l : Listener B) (b : B)

/-- What the overload with a `const char *` throws before it takes the mutex.
mirrors src/config/config.h:301-303 -/
def Op.early : Op B → Option (Str × Thrown)
  | .addCstr P name d _ _ _ =>
    match strToValue P (cStr d) with
    | .error e => some (name, e)
    | .ok _ => none
  | _ => none

def Op.locks (op : Op B) : Bool := op.early.isNone

/-- An operation that runs no listener is one step; a set makes its checks
and its write.
mirrors src/config/config.h:191-211 -/
def startStep (env : Env) (op : Op B) (w : World W B) : Next (World W B) (Op B) (Frame B) (Except Thrown Ret) :=
  match op with
  | .set P name v rethrow =>
    match storeNewValue P name v w with
    | (w, .error e) => .ret w (.error e)
    | (w, .ok ()) => .go w (.loop ⟨name, rethrow, 0, descriptionsInitial name⟩)
  | op =>
    match op.plain env w with
    | some (w, r) => .ret w r
    | none => .ret w (.ok .unit) -- only a set has no plain result

/-- mirrors src/config/config.h:213-216,240-242 -/
def loopStep (x : Loop) (w : World W B) : Next (World W B) (Op B) (Frame B) (Except Thrown Ret) :=
  match (w.store.listeners x.name)[x.position]? with
  | none => .ret w ((rethrowResult x.name x.rethrow x.descriptions).map fun _ => .unit)
  | some l =>
    .go (w.log .trace ("config::set_config_property_value(): executing listener ".toList ++ l.name ++
      " on property ".toList ++ x.name)) (.body x l l.func)

/-- The body of a listener ended: back to the loop. -/
def listenerEnded (x : Loop) (l : Listener B) (res : Except Thrown Unit) (w : World W B) :
    Next (World W B) (Op B) (Frame B) (Except Thrown Ret) :=
  .go (w.log (resultLine x.name l res).1 (resultLine x.name l res).2) (.loop (x.after l res))

def bodyStep (code : B → Instr W B) (x : Loop) (l : Listener B) (b : B) (w : World W B) :
    Next (World W B) (Op B) (Frame B) (Except Thrown Ret) :=
  match code b with
  | .ret => listenerEnded x l (.ok ()) w
  | .throw e => listenerEnded x l (.error e) w
  | .step f => .go { w with mem := (f w.mem).1 } (.body x l (f w.mem).2)
  | .log lvl text b' => .go (w.log lvl text) (.body x l b')
  | .getLevel k => .go w (.body x l (k w.logger.level))
  | .setLevel lvl b' => .go (w.setLevel lvl) (.body x l b')
  | .call op k =>
    match op.early with
    | some (name, e) => .go (w.note (.unparsable name)) (.body x l (k (.error e)))
    | none => .call op fun r => .body x l (k r)

def configMachine (env : Env) (code : B → Instr W B) :
    Machine (World W B) (Op B) (Frame B) (Except Thrown Ret) where
  locks := Op.locks
  start := .start
  next
    | .start op, w => startStep env op w
    | .loop x, w => loopStep x w
    | .body x l b, w => bodyStep code x l b w

/-- Threads that call the operations `progs`, one after the other each. -/
def configThreads (env : Env) (code : B → Instr W B) (w : World W B) (progs : List (List (Op B))) :
    System (State (Fin progs.length) (World W B) (Op B) (Frame B) (Except Thrown Ret)) (Fin progs.length) :=
  (configMachine env code).threads w progs.get

variable {env : Env} {code : B → Instr W B} {w w' : World W B} {r : Except Thrown Ret}

theorem plain_of_early {op : Op B} {name : Str} {e : Thrown} (h : op.early = some (name, e)) :
    op.plain env w = some (w.note (.unparsable name), .error e) := by
  cases op with
  | addCstr P name' d hid m desc =>
    simp only [Op.early] at h
    split at h
    · next e' he =>
      cases h
      simp only [Op.plain, addConfigPropertyCstr, he]
      rfl
    · cases h
  | _ => cases h

theorem call_of_plain {op : Op B} {q : Res W B Ret} (h : op.plain env w = some q) (n : Nat) :
    call env code n op w = some q := by
  cases op with
  | set => cases h
  | _ => exact h

theorem startStep_of_plain {op : Op B} {q : Res W B Ret} (h : op.plain env w = some q) :
    startStep env op w = .ret q.1 q.2 := by
  cases op with
  | set => cases h
  | _ =>
    cases h
    rfl

/-! ## The steps make up the operation -/

/-- What a set's loop comes to from a position on, for some fuel. -/
def LoopEnds (env : Env) (code : B → Instr W B) (x : Loop) (w w' : World W B) (r : Except Thrown Ret) : Prop :=
  ∃ n descriptions, (∀ ran, ∃ ran', notify (runListener env code n) x.name x.rethrow n x.position
      (w, x.descriptions) ran = some ((w', descriptions), ran')) ∧
    r = (rethrowResult x.name x.rethrow descriptions).map fun _ => .unit

/-- What a frame comes to, in the terms of the operations in one go. -/
def FrameEnds (env : Env) (code : B → Instr W B) (w w' : World W B) (r : Except Thrown Ret) : Frame B → Prop
  | .start op => ∃ n, call env code n op w = some (w', r)
  | .loop x => LoopEnds env code x w w' r
  | .body x l b => ∃ n w₁ res, runListener env code n b w = some (w₁, res) ∧
      LoopEnds env code (x.after l res) (w₁.log (resultLine x.name l res).1 (resultLine x.name l res).2) w' r

/-- What comes of the next step. -/
def NextEnds (env : Env) (code : B → Instr W B) (w w' : World W B) (r : Except Thrown Ret) :
    Next (World W B) (Op B) (Frame B) (Except Thrown Ret) → Prop
  | .ret w₁ r₁ => w₁ = w' ∧ r₁ = r
  | .go w₁ f => FrameEnds env code w₁ w' r f
  | .call op k => ∃ w₁ r₁, FrameEnds env code w w₁ r₁ (.start op) ∧ FrameEnds env code w₁ w' r (k r₁)

theorem start_ends {op : Op B} (h : NextEnds env code w w' r (startStep env op w)) :
    FrameEnds env code w w' r (.start op) := by
  cases op with
  | set P name v rethrow =>
    simp only [startStep] at h
    split at h
    · next w₁ e hs =>
      obtain ⟨rfl, rfl⟩ := h
      exact ⟨0, by simp only [call, Op.exec, setConfigPropertyValue, hs]; rfl⟩
    · next w₁ hs =>
      obtain ⟨n, descriptions, hn, rfl⟩ := h
      obtain ⟨ran', hran'⟩ := hn []
      refine ⟨n, ?_⟩
      simp only [call, Op.exec, setConfigPropertyValue, hs, hran', Option.map_some]
      rfl
  | _ =>
    obtain ⟨rfl, rfl⟩ := h
    exact ⟨0, rfl⟩

theorem loop_ends {x : Loop} (h : NextEnds env code w w' r (loopStep x w)) :
    FrameEnds env code w w' r (.loop x) := by
  unfold loopStep at h
  split at h
  · next hnone =>
    obtain ⟨rfl, rfl⟩ := h
    exact ⟨1, x.descriptions, fun ran => ⟨ran, by simp only [notify, hnone]⟩, rfl⟩
  · next l hl =>
    obtain ⟨n, w₁, res, hrun, m, descriptions, hm, hr⟩ := h
    refine ⟨max n m + 1, descriptions, fun ran => ?_, hr⟩
    obtain ⟨ran', hran'⟩ := hm (ran ++ [l])
    have hrun' := runListener_mono env code (Nat.le_succ_of_le (le_max_left n m)) _ _ _ hrun
    have hrest := notify_mono (runListener_mono env code (Nat.le_succ_of_le (le_max_right n m)))
      (le_max_right n m) hran'
    refine ⟨ran', ?_⟩
    simp only [notify, hl, notifyOne, hrun']
    exact hrest

/-- An instruction that goes on at `b'`. -/
theorem body_goes_on {x : Loop} {l : Listener B} {b b' : B} {w₁ : World W B}
    (hb : ∀ n, runListener env code (n + 1) b w = runListener env code n b' w₁)
    (h : FrameEnds env code w₁ w' r (.body x l b')) : FrameEnds env code w w' r (.body x l b) := by
  obtain ⟨n, w₂, res, hrun, hloop⟩ := h
  exact ⟨n + 1, w₂, res, (hb n).trans hrun, hloop⟩

theorem body_ends_call {x : Loop} {l : Listener B} {b : B} {op : Op B} {k : Except Thrown Ret → B}
    (hb : code b = .call op k) {w₁ : World W B} {r₁ : Except Thrown Ret}
    (h₁ : FrameEnds env code w w₁ r₁ (.start op)) (h₂ : FrameEnds env code w₁ w' r (.body x l (k r₁))) :
    FrameEnds env code w w' r (.body x l b) := by
  obtain ⟨n₁, h₁⟩ := h₁
  obtain ⟨n₂, w₂, res, hrun, hloop⟩ := h₂
  refine ⟨max n₁ n₂ + 1, w₂, res, ?_, hloop⟩
  have hcall : op.exec env (runListener env code (max n₁ n₂)) (max n₁ n₂) w = some (w₁, r₁) :=
    call_mono (le_max_left n₁ n₂) h₁
  rw [runListener, hb]
  simp only [hcall]
  exact runListener_mono env code (le_max_right n₁ n₂) _ _ _ hrun


theorem body_step_ends {x : Loop} {l : Listener B} {b : B}
    (h : NextEnds env code w w' r (bodyStep code x l b w)) : FrameEnds env code w w' r (.body x l b) := by
  unfold bodyStep at h
  cases hb : code b with
  | ret =>
    rw [hb] at h
    exact ⟨1, w, .ok (), by rw [runListener, hb], h⟩
  | throw e =>
    rw [hb] at h
    exact ⟨1, w, .error e, by rw [runListener, hb], h⟩
  | step f =>
    rw [hb] at h
    exact body_goes_on (fun n => by rw [runListener, hb]) h
  | log lvl text b' =>
    rw [hb] at h
    exact body_goes_on (fun n => by rw [runListener, hb]) h
  | getLevel k =>
    rw [hb] at h
    exact body_goes_on (fun n => by rw [runListener, hb]) h
  | setLevel lvl b' =>
    rw [hb] at h
    exact body_goes_on (fun n => by rw [runListener, hb]) h
  | call op k =>
    simp only [hb] at h
    split at h
    · next name e he => exact body_ends_call hb ⟨0, call_of_plain (plain_of_early he) 0⟩ h
    · obtain ⟨w₁, r₁, h₁, h₂⟩ := h
      exact body_ends_call hb h₁ h₂

theorem frameEnds_of_next {f : Frame B} (h : NextEnds env code w w' r ((configMachine env code).next f w)) :
    FrameEnds env code w w' r f :=
  match f with
  | .start _ => start_ends h
  | .loop _ => loop_ends h
  | .body _ _ _ => body_step_ends h

/-- A run of the steps is the operation in one go. -/
theorem frameEnds_of_runs {f : Frame B} (h : (configMachine env code).Runs f w w' r) :
    FrameEnds env code w w' r f := by
  induction h with
  | ret h => exact frameEnds_of_next (by rw [h]; exact ⟨rfl, rfl⟩)
  | go h _ ih => exact frameEnds_of_next (by rw [h]; exact ih)
  | call h _ _ ih₁ ih₂ => exact frameEnds_of_next (by rw [h]; exact ⟨_, _, ih₁, ih₂⟩)

/-- What `run` makes of a body, the steps of the body do. -/
def MadeOfSteps (env : Env) (code : B → Instr W B) (run : Runner W B) : Prop :=
  ∀ (x : Loop) (l : Listener B) (b : B) (w₀ w₁ : World W B) (res : Except Thrown Unit) (w' : World W B)
    (r : Except Thrown Ret), run b w₀ = some (w₁, res) →
      (configMachine env code).Runs (.loop (x.after l res))
        (w₁.log (resultLine x.name l res).1 (resultLine x.name l res).2) w' r →
      (configMachine env code).Runs (.body x l b) w₀ w' r

theorem loop_runs {run : Runner W B} (hbody : MadeOfSteps env code run) {descriptions : Str} :
    ∀ (n : Nat) (x : Loop) (w : World W B) (ran ran' : List (Listener B)),
      notify run x.name x.rethrow n x.position (w, x.descriptions) ran = some ((w', descriptions), ran') →
        (configMachine env code).Runs (.loop x) w w'
          ((rethrowResult x.name x.rethrow descriptions).map fun _ => .unit) := by
  intro n
  induction n with
  | zero => intro x w ran ran' h; cases h
  | succ n ih =>
    intro x w ran ran' h
    rw [notify] at h
    split at h
    · next hnone =>
      cases h
      exact .ret (by simp only [configMachine, loopStep, hnone])
    · next l hl =>
      split at h
      · cases h
      · next s₁ hone =>
        simp only [notifyOne] at hone
        split at hone
        · cases hone
        · next w₁ res hrun =>
          cases hone
          have hrest := hbody x l l.func _ _ _ _ _ hrun (ih (x.after l res) _ _ _ h)
          exact .go (by simp only [configMachine, loopStep, hl]) hrest

theorem start_runs {run : Runner W B} (hbody : MadeOfSteps env code run) {n : Nat} {op : Op B}
    (h : op.exec env run n w = some (w', r)) : (configMachine env code).Runs (.start op) w w' r := by
  cases op with
  | set P name v rethrow =>
    obtain ⟨q, hq, hr⟩ := Option.map_eq_some_iff.mp h
    unfold setConfigPropertyValue at hq
    split at hq
    · next w₁ e hs =>
      cases hq
      cases hr
      exact .ret (by simp only [configMachine, startStep, hs]; rfl)
    · next w₁ hs =>
      split at hq
      · cases hq
      · next w₂ descriptions ran hn =>
        cases hq
        cases hr
        exact .go (by simp only [configMachine, startStep, hs])
          (loop_runs hbody n ⟨name, rethrow, 0, descriptionsInitial name⟩ _ _ _ hn)
  | _ =>
    cases h
    exact .ret rfl

theorem body_runs (n : Nat) : MadeOfSteps env code (runListener env code n) := by
  induction n with
  | zero => intro x l b w₀ w₁ res w' r h; cases h
  | succ n ih =>
    intro x l b w₀ w₁ res w' r h hloop
    rw [runListener] at h
    cases hb : code b with
    | ret =>
      rw [hb] at h
      cases h
      exact .go (by simp only [configMachine, bodyStep, hb]; rfl) hloop
    | throw e =>
      rw [hb] at h
      cases h
      exact .go (by simp only [configMachine, bodyStep, hb]; rfl) hloop
    | step f =>
      rw [hb] at h
      exact .go (by simp only [configMachine, bodyStep, hb]) (ih x l _ _ _ _ _ _ h hloop)
    | log lvl text b' =>
      rw [hb] at h
      exact .go (by simp only [configMachine, bodyStep, hb]) (ih x l _ _ _ _ _ _ h hloop)
    | getLevel k =>
      rw [hb] at h
      exact .go (by simp only [configMachine, bodyStep, hb]) (ih x l _ _ _ _ _ _ h hloop)
    | setLevel lvl b' =>
      rw [hb] at h
      exact .go (by simp only [configMachine, bodyStep, hb]) (ih x l _ _ _ _ _ _ h hloop)
    | call op k =>
      simp only [hb] at h
      split at h
      · cases h
      · next w₂ r₁ hexec =>
        have hrest := ih x l _ _ _ _ _ _ h hloop
        cases he : op.early with
        | none =>
          have hnext : (configMachine env code).next (.body x l b) w₀ = .call op fun r => .body x l (k r) := by
            simp only [configMachine, bodyStep, hb, he]
          exact .call hnext (start_runs ih hexec) hrest
        | some p =>
          -- the call never took the mutex: it is one step
          obtain ⟨name, e⟩ := p
          have hcall : call env code n op w₀ = some (w₀.note (.unparsable name), .error e) :=
            call_of_plain (plain_of_early he) n
          rw [call, hexec] at hcall
          cases hcall
          exact .go (by simp only [configMachine, bodyStep, hb, he]) hrest

/-- **The two levels.** An operation ends in one go with a world and a result
exactly if its steps, alone, lead there. -/
theorem runs_iff {op : Op B} :
    (configMachine env code).Runs (.start op) w w' r ↔ ∃ n, call env code n op w = some (w', r) :=
  ⟨frameEnds_of_runs, fun ⟨n, h⟩ => start_runs (body_runs n) h⟩

/-! ## One after the other -/

theorem calls_concat {n : Nat} {ops : List (Op B)} {op : Op B} {p : World W B × List (Except Thrown Ret)} :
    calls env code n (ops ++ [op]) w = some p ↔
      ∃ q, calls env code n ops w = some q ∧
        ∃ w₁ r₁, call env code n op q.1 = some (w₁, r₁) ∧ p = (w₁, q.2 ++ [r₁]) := by
  induction ops generalizing w p with
  | nil =>
    simp only [List.nil_append, calls]
    cases hcall : call env code n op w with
    | none => simp [hcall]
    | some q =>
      simp only [Option.map_some, Option.some.injEq, exists_eq_left', hcall]
      constructor
      · intro hp
        exact ⟨q.1, q.2, rfl, hp.symm⟩
      · intro h
        obtain ⟨w₁, r₁, rfl, rfl⟩ := h
        rfl
  | cons op' ops ih =>
    simp only [List.cons_append, calls]
    cases call env code n op' w with
    | none => simp
    | some q =>
      simp only [Option.map_eq_some_iff, ih]
      constructor
      · intro h
        obtain ⟨_, ⟨q', hq', w₁, r₁, hcall, rfl⟩, rfl⟩ := h
        exact ⟨_, ⟨q', hq', rfl⟩, w₁, r₁, hcall, rfl⟩
      · intro h
        obtain ⟨_, ⟨q', hq', rfl⟩, w₁, r₁, hcall, rfl⟩ := h
        exact ⟨_, ⟨q', hq', w₁, r₁, hcall, rfl⟩, rfl⟩

theorem calls_of_serves {cs : List (Op B × Except Thrown Ret)} (h : (configMachine env code).Serves w cs w') :
    ∃ n, calls env code n (cs.map Prod.fst) w = some (w', cs.map Prod.snd) := by
  induction h with
  | nil => exact ⟨0, rfl⟩
  | @concat cs op r w₁ w₂ _ hrun ih =>
    obtain ⟨n, hn⟩ := ih
    obtain ⟨m, hm⟩ := runs_iff.mp hrun
    refine ⟨max n m, ?_⟩
    rw [List.map_append, List.map_append]
    exact calls_concat.mpr ⟨_, calls_mono (le_max_left n m) hn, w₂, r, call_mono (le_max_right n m) hm, rfl⟩

variable {progs : List (List (Op B))}

abbrev ThreadsState (progs : List (List (Op B))) (W : Type) :=
  State (Fin progs.length) (World W B) (Op B) (Frame B) (Except Thrown Ret)

/-- **One after the other.** In every run of any threads, the operations that
take the mutex return in each thread's order, with the results they have when
done one after the other in the order of their returns; whenever the mutex is
free the world is the one this leaves. -/
theorem threads_serial (env : Env) (code : B → Instr W B) (w₀ : World W B) (progs : List (List (Op B)))
    {tr : List (Fin progs.length)} {s : ThreadsState progs W}
    (h : (configThreads env code w₀ progs).exec tr = some s) :
    (∀ i, s.callsOf i <+: (progs.get i).filter Op.locks) ∧
    (∃ n w, calls env code n (s.results.map Prod.fst) w₀ = some (w, s.results.map Prod.snd) ∧
      (s.owner = none → s.shared = w)) ∧
    (s.done → ∀ i, s.callsOf i = (progs.get i).filter Op.locks) := by
  have hi := serial_exec h
  refine ⟨fun i => ?_, ?_, fun hd i => ?_⟩
  · have horder : (progs.get i).filter Op.locks = _ := hi.order i
    rw [horder, List.append_assoc]
    exact List.prefix_append _ _
  · cases ho : s.owner with
    | none =>
      obtain ⟨n, hn⟩ := calls_of_serves (hi.free ho).2
      exact ⟨n, s.shared, hn, fun _ => rfl⟩
    | some i =>
      obtain ⟨x, hx⟩ := Option.isSome_iff_exists.mp ((hi.excl i).mpr ho)
      obtain ⟨-, w, hserved, -⟩ := hi.under i x hx
      obtain ⟨n, hn⟩ := calls_of_serves hserved
      exact ⟨n, w, hn, fun hnone => by cases hnone⟩
  · have horder : (progs.get i).filter Op.locks = _ := hi.order i
    rw [horder, (hd i).1, (hd i).2]
    simp

/-- The first thread adds `a` and `b` with the listeners `downOnce`, and sets
`a`; the second one looks `a` up. -/
abbrev nestedSet : List (List (Op Bool)) :=
  [[.add .bool "a".toList (some false) false true [], .add .bool "b".toList (some false) false true [],
    .addListener "b".toList ⟨false, []⟩, .addListener "a".toList ⟨true, []⟩, .set .bool "a".toList true false],
   [.valueForOutput "a".toList]]

theorem threads_serial_nested : ∃ s, (configThreads noEnv downOnce (World.empty .off ()) nestedSet).exec
      (List.replicate 4 0 ++ [1, 1] ++ List.replicate 14 0) = some s ∧
    ∃ n w, calls noEnv downOnce n (s.results.map Prod.fst) (World.empty .off ()) =
      some (w, s.results.map Prod.snd) ∧ s.shared = w := by
  have hexec : ((configThreads noEnv downOnce (World.empty .off ()) nestedSet).exec
      (List.replicate 4 0 ++ [1, 1] ++ List.replicate 14 0)).map (·.owner) = some none := by decide +kernel
  obtain ⟨s, hs, ho⟩ := Option.map_eq_some_iff.mp hexec
  obtain ⟨-, ⟨n, w, hcalls, hfree⟩, -⟩ := threads_serial noEnv downOnce (World.empty .off ()) nestedSet hs
  exact ⟨s, hs, n, w, hcalls, hfree ho⟩

/-! ## Every moment -/

/-- A step of an operation leads to a later world. -/
theorem later_next {w₀ : World W B} (h : Later env code w₀ w) (f : Frame B) :
    Later env code w₀ (((configMachine env code).next f w).data w) := by
  cases f with
  | start op =>
    show Later env code w₀ ((startStep env op w).data w)
    cases hp : op.plain env w with
    | some q =>
      rw [startStep_of_plain hp]
      exact .call h (call_of_plain hp 0)
    | none =>
      cases op with
      | set P name v rethrow =>
        simp only [startStep]
        split
        · next w₁ e hs =>
          have hcall : call env code 0 (.set P name v rethrow) w = some (w₁, .error e) := by
            simp only [call, Op.exec, setConfigPropertyValue, hs]
            rfl
          exact .call h hcall
        · next w₁ hs => exact .stored h hs
      | _ => cases hp
  | loop x =>
    simp only [configMachine, loopStep]
    split
    · exact h
    · exact .aside h rfl rfl
  | body x l b =>
    simp only [configMachine, bodyStep]
    split
    · exact .aside h rfl rfl
    · exact .aside h rfl rfl
    · exact .aside h rfl rfl
    · exact .aside h rfl rfl
    · exact h
    · exact .aside h rfl rfl
    · next op k hb =>
      split
      · next name e he => exact .call h (call_of_plain (plain_of_early he) 0)
      · exact h

/-- **What stays.** Between any two moments of a run of any threads, inside
operations as well, the store is reachable by operations, and a property that
has been added keeps its type, its description, whether it is hidden and
whether it is manageable, and the listeners it has in their order. -/
theorem threads_keep (env : Env) (code : B → Instr W B) (lvl : Level) (mem : W) (progs : List (List (Op B)))
    {tr rest : List (Fin progs.length)} {s s' : ThreadsState progs W}
    (h : (configThreads env code (World.empty lvl mem) progs).exec tr = some s)
    (h' : (configThreads env code (World.empty lvl mem) progs).exec (tr ++ rest) = some s') :
    Reach env code s.shared ∧ Later env code s.shared s'.shared ∧
      ∀ name ∈ s.shared.store.propertyValues, KeptAt name s.shared.store s'.shared.store := by
  have hreach : Later env code (World.empty lvl mem) s.shared :=
    data_invariant (I := Later env code (World.empty lvl mem)) (fun f d hd => later_next hd f) h .refl
  rw [System.exec_append h rest] at h'
  have hlater : Later env code s.shared s'.shared :=
    data_invariant (I := Later env code s.shared) (fun f d hd => later_next hd f) h' .refl
  exact ⟨hreach.reach (.empty lvl mem), hlater, fun name hname => hlater.keptAt hname⟩

/-- While the listener of `a` sets `b`, and once it has. -/
theorem threads_keep_nested : ∃ s s' : ThreadsState nestedSet Unit,
    (configThreads noEnv downOnce (World.empty .off ()) nestedSet).exec (List.replicate 13 0) = some s ∧
    (configThreads noEnv downOnce (World.empty .off ()) nestedSet).exec
      (List.replicate 13 0 ++ List.replicate 5 0) = some s' ∧
    s.depth = 2 ∧ s'.depth = 0 ∧ KeptAt "a".toList s.shared.store s'.shared.store := by
  have hexec : ((configThreads noEnv downOnce (World.empty .off ()) nestedSet).exec (List.replicate 13 0)).map
      (fun s => (s.depth, (s.shared.store.propertyValues.lookup "a".toList).isSome)) = some (2, true) := by
    decide +kernel
  have hexec' : ((configThreads noEnv downOnce (World.empty .off ()) nestedSet).exec
      (List.replicate 13 0 ++ List.replicate 5 0)).map (·.depth) = some 0 := by decide +kernel
  obtain ⟨s, hs, hsome⟩ := Option.map_eq_some_iff.mp hexec
  obtain ⟨s', hs', hdepth'⟩ := Option.map_eq_some_iff.mp hexec'
  obtain ⟨hdepth, ha⟩ := Prod.mk.inj hsome
  have hkept := threads_keep noEnv downOnce .off () nestedSet hs hs'
  exact ⟨s, s', hs, hs', hdepth, hdepth', hkept.2.2 "a".toList (Finmap.lookup_isSome.mp ha)⟩

/-! ## Going on -/

/-- **No deadlock.** In every run of any threads with any listeners, the
thread that owns the mutex can make its next step, whatever calls its
listeners make, and while not all threads are done some thread can. A
listener waits for nothing but this mutex. -/
theorem threads_go_on (env : Env) (code : B → Instr W B) (w₀ : World W B) (progs : List (List (Op B)))
    {tr : List (Fin progs.length)} {s : ThreadsState progs W}
    (h : (configThreads env code w₀ progs).exec tr = some s) :
    (∀ i, s.owner = some i → ∃ s', (configThreads env code w₀ progs).exec (tr ++ [i]) = some s') ∧
    (¬ s.done → ∃ i s', (configThreads env code w₀ progs).exec (tr ++ [i]) = some s') := by
  have hi := serial_exec h
  have hstep : ∀ i, ((configMachine env code).step s i).isSome = true →
      ∃ s', (configThreads env code w₀ progs).exec (tr ++ [i]) = some s' := by
    intro i his
    obtain ⟨s', hs'⟩ := Option.isSome_iff_exists.mp his
    exact ⟨s', (System.exec_concat _ tr i s').mpr ⟨s, h, hs'⟩⟩
  refine ⟨fun i ho => hstep i (owner_steps hi ho), fun hd => ?_⟩
  obtain ⟨i, his⟩ := never_stuck hi hd
  exact ⟨i, hstep i his⟩

theorem threads_go_on_nested : ∃ s, (configThreads noEnv downOnce (World.empty .off ()) nestedSet).exec
      (List.replicate 13 0) = some s ∧ s.depth = 2 ∧
    ∃ s', (configThreads noEnv downOnce (World.empty .off ()) nestedSet).exec
      (List.replicate 13 0 ++ [0]) = some s' := by
  have hexec : ((configThreads noEnv downOnce (World.empty .off ()) nestedSet).exec (List.replicate 13 0)).map
      (fun s => (s.depth, s.owner)) = some (2, some 0) := by decide +kernel
  obtain ⟨s, hs, hboth⟩ := Option.map_eq_some_iff.mp hexec
  obtain ⟨hdepth, ho⟩ := Prod.mk.inj hboth
  exact ⟨s, hs, hdepth, (threads_go_on noEnv downOnce (World.empty .off ()) nestedSet hs).1 0 ho⟩

/-- **Completion.** With the listeners ranked as in `cascades_end`, every run
of any threads can be completed. -/
theorem threads_complete (env : Env) (code : B → Instr W B) (rank : Str → Nat) (lvl : Level) (mem : W)
    (progs : List (List (Op B)))
    (hrank : ∀ ops ∈ progs, ∀ op ∈ ops, ∀ name l, op = .addListener name l → Ends code rank (rank name) l.func)
    {tr : List (Fin progs.length)} {s : ThreadsState progs W}
    (h : (configThreads env code (World.empty lvl mem) progs).exec tr = some s) :
    ∃ rest s', (configThreads env code (World.empty lvl mem) progs).exec (tr ++ rest) = some s' ∧ s'.done := by
  refine completes (fun cs w hserved hcs i op hop _ => ?_) h
  obtain ⟨n, hn⟩ := calls_of_serves hserved
  have hranked : Ranked code rank (World.empty lvl mem : World W B) := by
    refine ⟨fun name hname => absurd hname Finmap.notMem_empty, fun name l hl => ?_⟩
    cases hl
  have hops : ∀ op' ∈ cs.map Prod.fst ++ [op], ∀ name l, op' = .addListener name l →
      Ends code rank (rank name) l.func := by
    intro op' hop' name l he
    rcases List.mem_append.mp hop' with hop' | hop'
    · obtain ⟨x, hx, rfl⟩ := List.mem_map.mp hop'
      obtain ⟨j, hj⟩ := hcs x hx
      exact hrank _ (List.get_mem _ _) _ hj name l he
    · rw [List.mem_singleton.mp hop'] at he
      exact hrank _ (List.get_mem _ _) _ hop name l he
  obtain ⟨m, p, hm⟩ : ∃ m p, calls env code m (cs.map Prod.fst ++ [op]) (World.empty lvl mem) = some p :=
    calls_end_of_ranked hranked hops
  obtain ⟨q, hq, w₁, r₁, hcall, -⟩ := calls_concat.mp hm
  -- the calls before lead to the same world, with whatever fuel
  have hsame := calls_mono (le_max_left n m) hn
  rw [calls_mono (le_max_right n m) hq] at hsame
  cases hsame
  exact ⟨w₁, r₁, runs_iff.mpr ⟨m, hcall⟩⟩

theorem threads_complete_nested : ∃ rest s', (configThreads noEnv downOnce (World.empty .off ()) nestedSet).exec
    (List.replicate 13 0 ++ rest) = some s' ∧ s'.done := by
  have hexec : ((configThreads noEnv downOnce (World.empty .off ()) nestedSet).exec
      (List.replicate 13 0)).isSome = true := by decide +kernel
  obtain ⟨s, hs⟩ := Option.isSome_iff_exists.mp hexec
  have hret : ∀ r, Ends downOnce (fun name => if name = "a".toList then 1 else 0) r false := fun r => .ret rfl
  refine threads_complete noEnv downOnce (fun name => if name = "a".toList then 1 else 0) .off () nestedSet
    (fun ops hops op hop name l he => ?_) hs
  subst he
  simp only [List.mem_cons, List.not_mem_nil, or_false] at hops
  rcases hops with rfl | rfl
  · simp only [List.mem_cons, reduceCtorEq, Op.addListener.injEq, List.not_mem_nil, or_false, false_or] at hop
    rcases hop with ⟨rfl, rfl⟩ | ⟨rfl, rfl⟩
    · exact hret _
    · refine .call rfl (fun name he => ?_) (fun name l he => by cases he) fun _ => hret _
      cases he
      decide
  · simp at hop

end SoapStab.Config
