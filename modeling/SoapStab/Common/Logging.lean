import SoapStab.Common.Str

/-!
# The logger

spdlog's levels with their names, and the default logger: an active level
and the messages emitted so far. A call at level `lvl` emits its message
when `lvl` is at least the active level (`Logger.log`).

`level_enum` also has `n_levels`, the count of the levels; it is not a
level and is left out.
-/
namespace SoapStab

/-- mirrors thirdparty/spdlog/common.h:205-214 -/
inductive Level where
  | trace | debug | info | warn | err | critical | off
  deriving DecidableEq

def Level.toNat : Level → Nat
  | .trace => 0
  | .debug => 1
  | .info => 2
  | .warn => 3
  | .err => 4
  | .critical => 5
  | .off => 6

/-- mirrors thirdparty/spdlog/common.h:216-227 and common-inl.h:23-26 -/
def Level.toStringView : Level → Str
  | .trace => "trace".toList
  | .debug => "debug".toList
  | .info => "info".toList
  | .warn => "warning".toList
  | .err => "error".toList
  | .critical => "critical".toList
  | .off => "off".toList

def Level.all : List Level := [.trace, .debug, .info, .warn, .err, .critical, .off]

/-- mirrors thirdparty/spdlog/common-inl.h:33-49 -/
def Level.fromStr (name : Str) : Level :=
  match Level.all.find? fun l => l.toStringView = name with
  | some l => l
  | none =>
    if name = "warn".toList then .warn
    else if name = "err".toList then .err
    else .off

/-- A message as the logger emits it. -/
structure Msg where
  level : Level
  text : Str
  deriving DecidableEq

/-- The default logger. -/
structure Logger where
  level : Level
  out : List Msg
  deriving DecidableEq

def Logger.shouldLog (lg : Logger) (lvl : Level) : Bool := decide (lg.level.toNat ≤ lvl.toNat)

def Logger.log (lg : Logger) (lvl : Level) (text : Str) : Logger :=
  if lg.shouldLog lvl then { lg with out := lg.out ++ [⟨lvl, text⟩] } else lg

@[simp] theorem Logger.log_level (lg : Logger) (lvl : Level) (text : Str) :
    (lg.log lvl text).level = lg.level := by
  unfold Logger.log; split <;> rfl

end SoapStab
