import SoapStab.Config.Store

/-!
# `set_config_property_value` and listeners that call back in

A listener is an arbitrary program. The text of all listeners is a function
`code : B → Instr W B` from program points to instructions: a point returns,
throws, computes on the rest of the memory, uses the logger or calls a
configuration operation and continues at a point that may depend on the
outcome. Nothing bounds the type `B` of points, so loops, captured state and
programs that never return are all included.

`set_config_property_value` walks the live list of listeners: iteration `i`
looks at position `i` of the list *as it is then*. A listener may change the
list and may set properties itself, which runs further loops inside the
first one. `runListener code n` runs a body for at most `n` instructions;
`none` means that more are needed, so a program that never returns has no
result for any `n` (`runListener_mono`: more fuel changes no result).
-/
namespace SoapStab.Config

variable {W B : Type}

/-- A call of a public operation of `config`. -/
inductive Op (B : Type) where
  | get (P : PropType) (name : Str)
  | set (P : PropType) (name : Str) (newValue : P.Val) (rethrowListenerExceptions : Bool)
  | add (P : PropType) (name : Str) (defaultValue : Option P.Val) (isHidden isManageable : Bool)
      (description : Str)
  | addCstr (P : PropType) (name : Str) (defaultValue : Str) (isHidden isManageable : Bool)
      (description : Str)
  | addListener (name : Str) (listener : Listener B)
  | manageableNames
  | description (name : Str)
  | valueForOutput (name : Str)
  | typeForOutput (name : Str)

/-- What an operation returns. -/
inductive Ret where
  | unit
  | value (v : Var)
  | text (s : Str)
  | names (ns : Finset Str)
  deriving DecidableEq

/-- One instruction of a listener body. -/
inductive Instr (W B : Type) where
  | ret
  | throw (e : Thrown)
  | step (f : W → W × B)
  | log (lvl : Level) (text : Str) (next : B)
  | getLevel (k : Level → B)
  | setLevel (lvl : Level) (next : B)
  | call (op : Op B) (k : Except Thrown Ret → B)

/-! ## The notification loop -/

/-- The log line after a listener, by what it did.
mirrors src/config/config.h:219-238 -/
def resultLine (name : Str) (l : Listener B) : Except Thrown Unit → Level × Str
  | .ok () =>
    (.trace, "config::set_config_property_value(): listener ".toList ++ l.name ++ " on property ".toList ++
      name ++ " executed successfully".toList)
  | .error (.exCode c) =>
    (.warn, "!config::set_config_property_value(): listener ".toList ++ l.name ++
      " has thrown an ibb_exception when executing on changing property ".toList ++ name ++ ": ".toList ++
      exceptionDescription c)
  | .error (.ibb e) =>
    (.warn, "!config::set_config_property_value(): listener ".toList ++ l.name ++
      " has thrown an ibb_exception when executing on changing property ".toList ++ name ++ ": ".toList ++
      e.description)
  | .error (.other _) =>
    (.warn, "!config::set_config_property_value(): listener ".toList ++ l.name ++
      " has thrown when executing on changing property ".toList ++ name)

/-- What a listener adds to the collected descriptions. -/
def complaint (l : Listener B) : Except Thrown Unit → Str
  | .ok () => []
  | .error (.exCode c) => "\nlistener ".toList ++ l.name ++ ": ".toList ++ exceptionDescription c
  | .error (.ibb e) => "\nlistener ".toList ++ l.name ++ ": ".toList ++ e.description
  | .error (.other _) => "\nlistener ".toList ++ l.name ++ ": threw an unknown error".toList

/-- How the body of a listener runs. -/
abbrev Runner (W B : Type) := B → World W B → Option (World W B × Except Thrown Unit)

/-- One iteration on listener `l`; the second component is
`listener_exception_descriptions`.
mirrors src/config/config.h:216-238 -/
def notifyOne (run : Runner W B) (name : Str) (rethrow : Bool) (l : Listener B)
    (s : World W B × Str) : Option (World W B × Str) :=
  let w := s.1.log .trace ("config::set_config_property_value(): executing listener ".toList ++ l.name ++
    " on property ".toList ++ name)
  match run l.func w with
  | none => none
  | some (w, r) =>
    some (w.log (resultLine name l r).1 (resultLine name l r).2,
      if rethrow then s.2 ++ complaint l r else s.2)

/-- The loop from position `i` of the live list on; `ran` collects the
listeners it ran.
mirrors src/config/config.h:213-239 -/
def notify (run : Runner W B) (name : Str) (rethrow : Bool) :
    Nat → Nat → World W B × Str → List (Listener B) → Option ((World W B × Str) × List (Listener B))
  | 0, _, _, _ => none
  | n + 1, i, s, ran =>
    match (s.1.store.listeners name)[i]? with
    | none => some (s, ran)
    | some l =>
      match notifyOne run name rethrow l s with
      | none => none
      | some s' => notify run name rethrow n (i + 1) s' (ran ++ [l])

/-! ## `set_config_property_value` -/

/-- `_property_values[name] = v` -/
def Store.setValue (s : Store B) (name : Str) (v : Var) : Store B :=
  { s with propertyValues := s.propertyValues.insert name v }

/-- A default-constructed variant holds an empty string. -/
def Var.default : Var := ⟨.string, []⟩

/-- `_property_values[name]`: inserts a default where there is no value. -/
def Store.valueAt (s : Store B) (name : Str) : Store B × Var :=
  match s.propertyValues.lookup name with
  | some v => (s, v)
  | none => (s.setValue name Var.default, Var.default)

/-- The checks and the write, up to the loop.
mirrors src/config/config.h:191-211 -/
def storeNewValue (P : PropType) (name : Str) (newValue : P.Val) (w : World W B) : Res W B Unit :=
  match w.store.manageableProperties.lookup name with
  | none =>
    (w.log .err ("!config::set_config_property_value(): property ".toList ++ name ++
      " is not manageable or does not exist".toList), configError)
  | some _ =>
    let (store, current) := w.store.valueAt name
    let w := w.withStore store
    match current.strictGet P with
    | none =>
      (w.log .err ("!config::get_config_property_value(): the property found for name ".toList ++ name ++
        " is of type ".toList ++ PropType.mangled current.type ++
        ", but attempted to be set to a value of type ".toList ++ PropType.mangled P), configError)
    | some old =>
      let w := w.log .trace ("config::set_config_property_value(): current value: ".toList ++ name ++
        " -> ".toList ++ propertyValueForOutput w.store P name old)
      let w := (w.withStore (w.store.setValue name ⟨P, newValue⟩)).note (.stored name ⟨P, newValue⟩)
      (w.log .trace ("config::set_config_property_value(): new value set: ".toList ++ name ++
        " -> ".toList ++ propertyValueForOutput w.store P name newValue), .ok ())

/-- The world once a set has stored its value. -/
def storedWorld (P : PropType) (name : Str) (old newValue : P.Val) (w : World W B) : World W B :=
  let w := w.log .trace ("config::set_config_property_value(): current value: ".toList ++ name ++
    " -> ".toList ++ propertyValueForOutput w.store P name old)
  let w := (w.withStore (w.store.setValue name ⟨P, newValue⟩)).note (.stored name ⟨P, newValue⟩)
  w.log .trace ("config::set_config_property_value(): new value set: ".toList ++ name ++ " -> ".toList ++
    propertyValueForOutput w.store P name newValue)

@[simp] theorem storedWorld_store (P : PropType) (name : Str) (old v : P.Val) (w : World W B) :
    (storedWorld P name old v w).store = w.store.setValue name ⟨P, v⟩ := rfl

@[simp] theorem storedWorld_history (P : PropType) (name : Str) (old v : P.Val) (w : World W B) :
    (storedWorld P name old v w).history = w.history ++ [.stored name ⟨P, v⟩] := rfl

@[simp] theorem storedWorld_level (P : PropType) (name : Str) (old v : P.Val) (w : World W B) :
    (storedWorld P name old v w).logger.level = w.logger.level := by
  simp [storedWorld]

/-- A set of a manageable property that has a value. -/
theorem storeNewValue_eq {P : PropType} {name : Str} {v : P.Val} {w : World W B} {current : Var}
    (hm : name ∈ w.store.manageableProperties) (hv : w.store.propertyValues.lookup name = some current) :
    storeNewValue P name v w =
      match current.strictGet P with
      | none =>
        (w.log .err ("!config::get_config_property_value(): the property found for name ".toList ++ name ++
          " is of type ".toList ++ PropType.mangled current.type ++
          ", but attempted to be set to a value of type ".toList ++ PropType.mangled P), configError)
      | some old => (storedWorld P name old v w, .ok ()) := by
  obtain ⟨ls, hl⟩ := Finmap.mem_iff.mp hm
  unfold storeNewValue Store.valueAt
  simp only [hl, hv]
  rfl

/-- `listener_exception_descriptions_initial` -/
def descriptionsInitial (name : Str) : Str :=
  "Setting new property value for config property ".toList ++ name ++
    " caused exceptions in listeners:".toList

/-- mirrors src/config/config.h:240-242 -/
def rethrowResult (name : Str) (rethrow : Bool) (descriptions : Str) : Except Thrown Unit :=
  if rethrow ∧ descriptions ≠ descriptionsInitial name then
    .error (.ibb (IbbException.ofDescription EX_CONFIG_LISTENER_ERROR descriptions))
  else .ok ()

/-- The result, and the listeners the call's own loop ran.
mirrors src/config/config.h:190-243 -/
def setConfigPropertyValue (run : Runner W B) (n : Nat) (P : PropType) (name : Str) (newValue : P.Val)
    (rethrow : Bool) (w : World W B) : Option (Res W B Unit × List (Listener B)) :=
  match storeNewValue P name newValue w with
  | (w, .error e) => some ((w, .error e), [])
  | (w, .ok ()) =>
    match notify run name rethrow n 0 (w, descriptionsInitial name) [] with
    | none => none
    | some ((w, descriptions), ran) => some ((w, rethrowResult name rethrow descriptions), ran)

/-! ## Calls and bodies -/

/-- A result with its value wrapped. -/
def Res.wrap {α : Type} (f : α → Ret) (r : Res W B α) : Res W B Ret := (r.1, r.2.map f)

/-- The operations that run no listener. -/
def Op.plain (env : Env) : Op B → World W B → Option (Res W B Ret)
  | .get P name, w => some (Res.wrap (fun x => .value ⟨P, x⟩) (getConfigPropertyValue P name w))
  | .set .., _ => none
  | .add P name d h m desc, w => some (Res.wrap (fun _ => .unit) (addConfigProperty env P name d h m desc w))
  | .addCstr P name d h m desc, w =>
    some (Res.wrap (fun _ => .unit) (addConfigPropertyCstr env P name d h m desc w))
  | .addListener name l, w => some (Res.wrap (fun _ => .unit) (addPropertyListener name l w))
  | .manageableNames, w => some (w, .ok (.names (manageableConfigPropertyNames w)))
  | .description name, w => some (Res.wrap .text (manageableConfigPropertyDescription name w))
  | .valueForOutput name, w => some (Res.wrap .text (getConfigPropertyValueForOutput name w))
  | .typeForOutput name, w => some (Res.wrap .text (getConfigPropertyTypeForOutput name w))

/-- Any operation. -/
def Op.exec (env : Env) (run : Runner W B) (n : Nat) (op : Op B) (w : World W B) : Option (Res W B Ret) :=
  match op with
  | .set P name v rethrow =>
    (setConfigPropertyValue run n P name v rethrow w).map fun r => Res.wrap (fun _ => .unit) r.1
  | op => op.plain env w

/-- An operation that ends is a plain one or a set. -/
theorem Op.exec_cases {env : Env} {run : Runner W B} {n : Nat} {op : Op B} {w : World W B}
    {r : Res W B Ret} (h : op.exec env run n w = some r) :
    op.plain env w = some r ∨ ∃ P name v rethrow q, op = .set P name v rethrow ∧
      setConfigPropertyValue run n P name v rethrow w = some q ∧ r = Res.wrap (fun _ => .unit) q.1 := by
  cases op with
  | set P name v rethrow =>
    simp only [Op.exec, Option.map_eq_some_iff] at h
    obtain ⟨q, hq, rfl⟩ := h
    exact .inr ⟨P, name, v, rethrow, q, rfl, hq, rfl⟩
  | _ => exact .inl h

/-- A listener body, for at most `n` instructions. -/
def runListener (env : Env) (code : B → Instr W B) : Nat → Runner W B
  | 0, _, _ => none
  | n + 1, b, w =>
    match code b with
    | .ret => some (w, .ok ())
    | .throw e => some (w, .error e)
    | .step f => runListener env code n (f w.mem).2 { w with mem := (f w.mem).1 }
    | .log lvl text next => runListener env code n next (w.log lvl text)
    | .getLevel k => runListener env code n (k w.logger.level) w
    | .setLevel lvl next => runListener env code n next (w.setLevel lvl)
    | .call op k =>
      match op.exec env (runListener env code n) n w with
      | none => none
      | some (w, r) => runListener env code n (k r) w

/-- A call made by the program itself, outside any listener. -/
def call (env : Env) (code : B → Instr W B) (n : Nat) (op : Op B) (w : World W B) :
    Option (Res W B Ret) :=
  op.exec env (runListener env code n) n w

/-- A sequence of outermost calls and their results. -/
def calls (env : Env) (code : B → Instr W B) (n : Nat) :
    List (Op B) → World W B → Option (World W B × List (Except Thrown Ret))
  | [], w => some (w, [])
  | op :: ops, w =>
    match call env code n op w with
    | none => none
    | some (w, r) => (calls env code n ops w).map fun p => (p.1, r :: p.2)

/-! ## More fuel changes no result -/

/-- `run'` has every result of `run`. -/
def Runner.Le (run run' : Runner W B) : Prop := ∀ b w r, run b w = some r → run' b w = some r

theorem notifyOne_mono {run run' : Runner W B} (h : run.Le run') {name : Str} {rethrow : Bool}
    {l : Listener B} {s s' : World W B × Str} (hs : notifyOne run name rethrow l s = some s') :
    notifyOne run' name rethrow l s = some s' := by
  simp only [notifyOne] at hs ⊢
  split at hs
  · cases hs
  · next w r hr => rw [h _ _ _ hr]; exact hs

theorem notify_mono {run run' : Runner W B} (h : run.Le run') {name : Str} {rethrow : Bool} :
    ∀ {n m i : Nat} {s : World W B × Str} {ran : List (Listener B)} {r}, n ≤ m →
      notify run name rethrow n i s ran = some r → notify run' name rethrow m i s ran = some r := by
  intro n
  induction n with
  | zero => intro m i s ran r _ hr; cases hr
  | succ n ih =>
    intro m i s ran r hnm hr
    obtain ⟨m, rfl⟩ : ∃ k, m = k + 1 := ⟨m - 1, by omega⟩
    simp only [notify] at hr ⊢
    split at hr
    · exact hr
    · split at hr
      · cases hr
      · next s' hs => rw [notifyOne_mono h hs]; exact ih (by omega) hr

theorem setConfigPropertyValue_mono {run run' : Runner W B} (h : run.Le run') {n m : Nat} (hnm : n ≤ m)
    {P : PropType} {name : Str} {v : P.Val} {rethrow : Bool} {w : World W B} {r}
    (hr : setConfigPropertyValue run n P name v rethrow w = some r) :
    setConfigPropertyValue run' m P name v rethrow w = some r := by
  unfold setConfigPropertyValue at hr ⊢
  split at hr
  · exact hr
  · split at hr
    · cases hr
    · next hn => rw [notify_mono h hnm hn]; exact hr

theorem Op.exec_mono {env : Env} {run run' : Runner W B} (h : run.Le run') {n m : Nat} (hnm : n ≤ m)
    {op : Op B} {w : World W B} {r} (hr : op.exec env run n w = some r) :
    op.exec env run' m w = some r := by
  cases op with
  | set P name v rethrow =>
    simp only [Op.exec, Option.map_eq_some_iff] at hr ⊢
    obtain ⟨q, hq, rfl⟩ := hr
    exact ⟨q, setConfigPropertyValue_mono h hnm hq, rfl⟩
  | _ => exact hr

theorem runListener_succ (env : Env) (code : B → Instr W B) :
    ∀ n, (runListener env code n).Le (runListener env code (n + 1)) := by
  intro n
  induction n with
  | zero => intro b w r hr; cases hr
  | succ n ih =>
    intro b w r hr
    rw [runListener] at hr ⊢
    cases hc : code b with
    | ret => simpa only [hc] using hr
    | throw e => simpa only [hc] using hr
    | step f => simp only [hc] at hr ⊢; exact ih _ _ _ hr
    | log lvl text next => simp only [hc] at hr ⊢; exact ih _ _ _ hr
    | getLevel k => simp only [hc] at hr ⊢; exact ih _ _ _ hr
    | setLevel lvl next => simp only [hc] at hr ⊢; exact ih _ _ _ hr
    | call op k =>
      simp only [hc] at hr ⊢
      split at hr
      · cases hr
      · next w' q hq => rw [Op.exec_mono ih (Nat.le_succ n) hq]; exact ih _ _ _ hr

theorem runListener_mono (env : Env) (code : B → Instr W B) {n m : Nat} (h : n ≤ m) :
    (runListener env code n).Le (runListener env code m) := by
  induction h with
  | refl => exact fun _ _ _ hr => hr
  | step _ ih => exact fun b w r hr => runListener_succ env code _ b w r (ih b w r hr)

theorem call_mono {env : Env} {code : B → Instr W B} {n m : Nat} (h : n ≤ m) {op : Op B}
    {w : World W B} {r} (hr : call env code n op w = some r) : call env code m op w = some r :=
  Op.exec_mono (runListener_mono env code h) h hr

theorem calls_mono {env : Env} {code : B → Instr W B} {n m : Nat} (h : n ≤ m) :
    ∀ {ops : List (Op B)} {w : World W B} {r},
      calls env code n ops w = some r → calls env code m ops w = some r := by
  intro ops
  induction ops with
  | nil => intro w r hr; exact hr
  | cons op ops ih =>
    intro w r hr
    simp only [calls] at hr ⊢
    split at hr
    · cases hr
    · next w1 q h1 =>
      rw [call_mono h h1]
      obtain ⟨p, hp, rfl⟩ := Option.map_eq_some_iff.mp hr
      exact Option.map_eq_some_iff.mpr ⟨p, ih hp, rfl⟩

end SoapStab.Config
