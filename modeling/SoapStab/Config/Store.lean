import SoapStab.Common.StrValue
import Mathlib.Data.Finmap

/-!
# The configuration store

The four containers of `class config` and every operation that runs no
listener: reading the environment, `add_config_property`, the reads, the
output lookups and `add_property_listener`. `set_config_property_value`,
which runs listeners, is in `Exec`.

A `World` is the store, the logger, the rest of the process's memory (`mem`,
used by listener bodies only) and a `history`: a record of what the
operations did, kept for stating properties; no operation reads it.

An operation returns the new world and either a value or what it threw; as
in C++ a throw keeps the changes made before it. The recursive mutex is held
throughout each call, so a call is one step for other threads, and it lets a
listener call back in.

`boost::variant` is never empty, so the check for an empty value in
`get_config_property_value` has no branch here. The types are compared
through `type_info::name()`, whose values differ for the six types.
-/
namespace SoapStab.Config

/-! ## Environment -/

/-- The process environment: C strings. -/
structure Env where
  vars : Str → Option Str
  nulFree : ∀ {n v}, vars n = some v → NulFree v

def noEnv : Env := ⟨fun _ => none, fun h => by cases h⟩

/-- The environment in which every variable holds `s`. -/
def everyVariable (s : Str) (h : NulFree s) : Env := ⟨fun _ => some s, fun he => by cases he; exact h⟩

/-- `::getenv(name)` -/
def Env.getenv (env : Env) (name : Str) : Option Str := env.vars (cStr name)

@[simp] theorem Env.getenv_cStr (env : Env) (name : Str) : env.getenv (cStr name) = env.getenv name := by
  unfold Env.getenv
  rw [(cStr_eq_self _).mpr (cStr_nulFree name)]

/-- mirrors src/config/config.h:28 -/
def ENV_VAR_PREFIX : Str := "SOAPSTAB_".toList

/-- mirrors src/config/config.cpp:13 -/
def LOG_LEVEL : Str := "LOG_LEVEL".toList

/-! ## State -/

/-- `config_property_listener`; `B` is the type of listener bodies.
mirrors src/config/config.h:50-59 -/
structure Listener (B : Type) where
  func : B
  name : Str
  deriving DecidableEq

/-- mirrors src/config/config.h:413-428 -/
structure Store (B : Type) where
  propertyValues : Finmap fun _ : Str => Var
  propertyDescriptions : Finmap fun _ : Str => Str
  manageableProperties : Finmap fun _ : Str => List (Listener B)
  hiddenProperties : Finset Str

def Store.empty {B : Type} : Store B := ⟨∅, ∅, ∅, ∅⟩

/-- What the operations did.
* `reading`: an add is about to read the environment, with this default
  text; `debugOn`: the logger takes debug messages then;
* `unparsable`: an add failed in `str_to_value`;
* `added`, `stored`: a value entered the store. -/
inductive Event where
  | reading (name : Str) (isHidden : Bool) (defaultText : Option Str) (debugOn : Bool)
  | unparsable (name : Str)
  | added (name : Str) (v : Var) (isHidden isManageable : Bool)
  | stored (name : Str) (v : Var)
  deriving DecidableEq

structure World (W B : Type) where
  store : Store B
  logger : Logger
  mem : W
  history : List Event

variable {W B : Type}

/-- The world before the first operation. -/
def World.empty (lvl : Level) (mem : W) : World W B := ⟨Store.empty, ⟨lvl, []⟩, mem, []⟩

def World.log (w : World W B) (lvl : Level) (text : Str) : World W B :=
  { w with logger := w.logger.log lvl text }

def World.note (w : World W B) (e : Event) : World W B := { w with history := w.history ++ [e] }

def World.withStore (w : World W B) (s : Store B) : World W B := { w with store := s }

/-- `spdlog::set_level` -/
def World.setLevel (w : World W B) (lvl : Level) : World W B :=
  { w with logger := { w.logger with level := lvl } }

@[simp] theorem World.log_store (w : World W B) (lvl : Level) (t : Str) : (w.log lvl t).store = w.store := rfl
@[simp] theorem World.log_mem (w : World W B) (lvl : Level) (t : Str) : (w.log lvl t).mem = w.mem := rfl
@[simp] theorem World.log_history (w : World W B) (lvl : Level) (t : Str) :
    (w.log lvl t).history = w.history := rfl
@[simp] theorem World.log_logger_level (w : World W B) (lvl : Level) (t : Str) :
    (w.log lvl t).logger.level = w.logger.level := Logger.log_level _ _ _
@[simp] theorem World.note_store (w : World W B) (e : Event) : (w.note e).store = w.store := rfl
@[simp] theorem World.note_logger (w : World W B) (e : Event) : (w.note e).logger = w.logger := rfl
@[simp] theorem World.note_history (w : World W B) (e : Event) : (w.note e).history = w.history ++ [e] := rfl

@[simp] theorem World.withStore_store (w : World W B) (s : Store B) : (w.withStore s).store = s := rfl
@[simp] theorem World.withStore_logger (w : World W B) (s : Store B) :
    (w.withStore s).logger = w.logger := rfl
@[simp] theorem World.withStore_history (w : World W B) (s : Store B) :
    (w.withStore s).history = w.history := rfl

@[simp] theorem World.setLevel_store (w : World W B) (lvl : Level) : (w.setLevel lvl).store = w.store := rfl
@[simp] theorem World.setLevel_level (w : World W B) (lvl : Level) :
    (w.setLevel lvl).logger.level = lvl := rfl

/-- An operation that ends: the new world and its value or what it threw. -/
abbrev Res (W B α : Type) := World W B × Except Thrown α

def configError {α : Type} : Except Thrown α := .error (.exCode EX_CONFIG_ERROR)

/-- The listeners of a property, in addition order. -/
def Store.listeners (s : Store B) (name : Str) : List (Listener B) :=
  (s.manageableProperties.lookup name).getD []

/-! ## Names of types -/

/-- `type_info::name()` -/
def PropType.mangled : PropType → Str
  | .string => "NSt7__cxx1112basic_stringIcSt11char_traitsIcESaIcEEE".toList
  | .uint16 => "t".toList
  | .int32 => "i".toList
  | .int64 => "l".toList
  | .bool => "b".toList
  | .logLevel => "N6spdlog5level10level_enumE".toList

/-- `boost::core::demangle` of it -/
def PropType.demangled : PropType → Str
  | .string =>
    "std::__cxx11::basic_string<char, std::char_traits<char>, std::allocator<char> >".toList
  | .uint16 => "unsigned short".toList
  | .int32 => "int".toList
  | .int64 => "long".toList
  | .bool => "bool".toList
  | .logLevel => "spdlog::level::level_enum".toList

/-- mirrors src/config/config.cpp:22-27,140-159 -/
def PropType.forOutput : PropType → Str
  | .string => "string".toList
  | .uint16 => "uint16".toList
  | .int32 => "int32".toList
  | .int64 => "int64".toList
  | .bool => "boolean".toList
  | .logLevel => "log_level".toList

/-! ## `get_from_env_c` -/

/-- `{}` of a `bool` -/
def fmtBool (b : Bool) : Str := if b then "true".toList else "false".toList

/-- mirrors src/config/config.cpp:30-34 -/
def readingText (envVarName : Option Str) (throwIfNoEnv hideValue : Bool) (defaultValue : Option Str) : Str :=
  "+get_from_env(): env_var_name: ".toList ++ envVarName.getD "null".toList ++
    ", throw_if_no_env: ".toList ++ fmtBool throwIfNoEnv ++ ", hide_value: ".toList ++ fmtBool hideValue ++
    ", default_value: ".toList ++ defaultValue.getD "null".toList

/-- mirrors src/config/config.cpp:49-55 -/
def logValueRead (hideValue : Bool) (value : Str) (w : World W B) : World W B :=
  if w.logger.shouldLog .debug then
    if hideValue then w.log .debug "-get_from_env(): value: *****(hidden)*****".toList
    else w.log .debug ("-get_from_env(): value: ".toList ++ value)
  else w

/-- `none` is a null pointer; a pointer is the text up to the NUL.
mirrors src/config/config.cpp:29-57 -/
def getFromEnvC (env : Env) (envVarName : Option Str) (throwIfNoEnv hideValue : Bool)
    (defaultValue : Option Str) (w : World W B) : Res W B (Option Str) :=
  let w := w.log .debug (readingText envVarName throwIfNoEnv hideValue defaultValue)
  match envVarName with
  | none =>
    (w.log .err "!get_from_env(): Null pointer for the environment variable name".toList,
      .error (.exCode EX_NULL_POINTER))
  | some envVarName =>
    match env.getenv envVarName with
    | some value => (logValueRead hideValue value w, .ok (some value))
    | none =>
      if throwIfNoEnv then
        (w.log .err ("+get_from_env(): cannot find throwIfNoEnv environment variable ".toList ++ envVarName),
          .error (.exCode EX_INSUFFICIENT_ENV))
      else
        let w := w.log .trace ("get_from_env(): no environment variable ".toList ++ envVarName ++
          " found, falling back to the default value".toList)
        (logValueRead hideValue (defaultValue.getD []) w, .ok defaultValue)

/-! ## Adding -/

/-- The writes of a successful `add_config_property`.
mirrors src/config/config.h:272-282 -/
def Store.addProperty (s : Store B) (name : Str) (v : Var) (isHidden isManageable : Bool)
    (description : Str) : Store B where
  propertyValues := s.propertyValues.insert name v
  propertyDescriptions := s.propertyDescriptions.insert name description
  hiddenProperties := if isHidden then insert name s.hiddenProperties else s.hiddenProperties
  manageableProperties :=
    if isManageable then s.manageableProperties.insert name [] else s.manageableProperties

/-- The text of a default value as `c_str()` hands it over. -/
def defaultText {P : PropType} (defaultValue : Option P.Val) : Option Str :=
  defaultValue.map fun v => cStr (valueToStr P v)

/-- The right operand `str_to_value<P>(value_str)` is evaluated before
`_property_values[name]`. `value_str` is never built from a null pointer: a
null default goes with `throw_if_no_env`.
mirrors src/config/config.h:260-283 -/
def addConfigProperty (env : Env) (P : PropType) (name : Str) (defaultValue : Option P.Val)
    (isHidden isManageable : Bool) (description : Str) (w : World W B) : Res W B Unit :=
  if name ∈ w.store.propertyValues then
    (w.log .err "!config::add_config_property(): Property \x7b\x7d already exists".toList, configError)
  else
    let throwIfNoEnv := defaultValue.isNone
    let envVar := ENV_VAR_PREFIX ++ name
    let w := w.note (.reading name isHidden (defaultText defaultValue) (w.logger.shouldLog .debug))
    match getFromEnvC env (some (cStr envVar)) throwIfNoEnv isHidden (defaultText defaultValue) w with
    | (w, .error e) => (w, .error e)
    | (w, .ok valueStr) =>
      match strToValue P (valueStr.getD []) with
      | .error e => (w.note (.unparsable name), .error e)
      | .ok v =>
        ((w.withStore (w.store.addProperty name ⟨P, v⟩ isHidden isManageable description)).note
          (.added name ⟨P, v⟩ isHidden isManageable), .ok ())

/-- The text an added property is parsed from: the environment's, or else
the default's. -/
def sourceText {P : PropType} (env : Env) (name : Str) (defaultValue : Option P.Val) : Option Str :=
  (env.getenv (cStr (ENV_VAR_PREFIX ++ name))).or (defaultText defaultValue)

/-- The world once an add has read it. -/
def readSource {P : PropType} (env : Env) (name : Str) (defaultValue : Option P.Val) (isHidden : Bool)
    (w : World W B) : World W B :=
  (getFromEnvC env (some (cStr (ENV_VAR_PREFIX ++ name))) defaultValue.isNone isHidden
    (defaultText defaultValue)
    (w.note (.reading name isHidden (defaultText defaultValue) (w.logger.shouldLog .debug)))).1

theorem getFromEnvC_result {P : PropType} (env : Env) (name : Str) (d : Option P.Val) (h : Bool)
    (w : World W B) :
    (getFromEnvC env (some (cStr (ENV_VAR_PREFIX ++ name))) d.isNone h (defaultText d) w).2 =
      match sourceText env name d with
      | some text => .ok (some text)
      | none => .error (.exCode EX_INSUFFICIENT_ENV) := by
  unfold getFromEnvC sourceText
  simp only
  cases env.getenv (cStr (ENV_VAR_PREFIX ++ name)) with
  | some value => rfl
  | none => cases d <;> rfl

/-- The add of a fresh name, by what it reads and how that parses. -/
theorem addConfigProperty_fresh {env : Env} {P : PropType} {name : Str} {d : Option P.Val} {h m : Bool}
    {desc : Str} {w : World W B} (hf : name ∉ w.store.propertyValues) :
    addConfigProperty env P name d h m desc w =
      match sourceText env name d with
      | none => (readSource env name d h w, .error (.exCode EX_INSUFFICIENT_ENV))
      | some text =>
        match strToValue P text with
        | .error e => ((readSource env name d h w).note (.unparsable name), .error e)
        | .ok v =>
          (((readSource env name d h w).withStore
            ((readSource env name d h w).store.addProperty name ⟨P, v⟩ h m desc)).note
              (.added name ⟨P, v⟩ h m), .ok ()) := by
  have hres := getFromEnvC_result env name d h
    (w.note (.reading name h (defaultText d) (w.logger.shouldLog .debug)))
  unfold addConfigProperty readSource
  rw [if_neg hf]
  simp only
  generalize getFromEnvC env (some (cStr (ENV_VAR_PREFIX ++ name))) d.isNone h (defaultText d)
    (w.note (.reading name h (defaultText d) (w.logger.shouldLog .debug))) = q at hres ⊢
  obtain ⟨w', r⟩ := q
  simp only at hres
  subst hres
  cases sourceText env name d <;> rfl

/-- The overload whose default is a `const char *`.
mirrors src/config/config.h:300-304 -/
def addConfigPropertyCstr (env : Env) (P : PropType) (name : Str) (defaultValue : Str)
    (isHidden isManageable : Bool) (description : Str) (w : World W B) : Res W B Unit :=
  match strToValue P (cStr defaultValue) with
  | .error e => (w.note (.unparsable name), .error e)
  | .ok v => addConfigProperty env P name (some v) isHidden isManageable description w

/-- `push_back` on the listeners of a property, `listeners` so far. -/
def Store.pushListener (s : Store B) (name : Str) (listeners : List (Listener B)) (l : Listener B) :
    Store B :=
  { s with manageableProperties := s.manageableProperties.insert name (listeners ++ [l]) }

/-- mirrors src/config/config.cpp:77-85 -/
def addPropertyListener (name : Str) (listener : Listener B) (w : World W B) : Res W B Unit :=
  match w.store.manageableProperties.lookup name with
  | none =>
    (w.log .err ("!config::set_config_property_value(): property ".toList ++ name ++
      " is not manageable or does not exist".toList), configError)
  | some listeners => (w.withStore (w.store.pushListener name listeners listener), .ok ())

/-! ## Reading -/

def hiddenText : Str := "**** HIDDEN ****".toList

/-- mirrors src/config/config.h:324-332 -/
def propertyValueForOutput (s : Store B) (P : PropType) (name : Str) (toLog : P.Val) : Str :=
  if name ∈ s.hiddenProperties then hiddenText else valueToStr P toLog

/-- mirrors src/config/config.h:149-178 -/
def getConfigPropertyValue (P : PropType) (name : Str) (w : World W B) : Res W B P.Val :=
  match w.store.propertyValues.lookup name with
  | none =>
    (w.log .err ("!config::get_config_property_value(): no property found for name ".toList ++ name),
      configError)
  | some valueVar =>
    match valueVar.strictGet P with
    | none =>
      (w.log .err ("!config::get_config_property_value(): the property found for name ".toList ++ name ++
        " is of type ".toList ++ PropType.demangled valueVar.type ++ ", but expected to be of type ".toList ++
        PropType.demangled P), configError)
    | some value =>
      (if w.logger.shouldLog .trace then
        w.log .trace ("config::get_config_property_value(): ".toList ++ name ++ " -> ".toList ++
          propertyValueForOutput w.store P name value)
      else w, .ok value)

theorem getConfigPropertyValue_ok {P : PropType} {name : Str} {w : World W B} {x : P.Val} :
    (getConfigPropertyValue P name w).2 = .ok x ↔ w.store.propertyValues.lookup name = some ⟨P, x⟩ := by
  unfold getConfigPropertyValue
  cases hv : w.store.propertyValues.lookup name with
  | none => simp [configError]
  | some v =>
    simp only [Option.some.injEq, ← Var.strictGet_eq_some]
    cases v.strictGet P <;> simp [configError]

/-- mirrors src/config/config.cpp:87-97 -/
def manageableConfigPropertyNames (w : World W B) : Finset Str := w.store.manageableProperties.keys

/-- mirrors src/config/config.cpp:99-108 -/
def manageableConfigPropertyDescription (name : Str) (w : World W B) : Res W B Str :=
  match w.store.propertyDescriptions.lookup name with
  | none =>
    (w.log .err ("!config::manageable_config_property_description(): property ".toList ++ name ++
      " has no description".toList), configError)
  | some description => (w, .ok description)

/-- mirrors src/config/config.cpp:110-138 -/
def getConfigPropertyValueForOutput (name : Str) (w : World W B) : Res W B Str :=
  match w.store.propertyValues.lookup name with
  | none =>
    (w.log .err ("!config::get_config_property_value_var(): no property named ".toList ++ name),
      configError)
  | some valueVar => (w, .ok (propertyValueForOutput w.store valueVar.type name valueVar.val))

/-- mirrors src/config/config.h:371-380 -/
def configPropertyType (name : Str) (w : World W B) : Res W B PropType :=
  match w.store.propertyValues.lookup name with
  | none => (w.log .err ("config_property_type(): no property named ".toList ++ name), configError)
  | some valueVar => (w, .ok valueVar.type)

/-- mirrors src/config/config.cpp:140-159 -/
def getConfigPropertyTypeForOutput (name : Str) (w : World W B) : Res W B Str :=
  match configPropertyType name w with
  | (w, .error e) => (w, .error e)
  | (w, .ok t) => (w, .ok (PropType.forOutput t))

end SoapStab.Config
