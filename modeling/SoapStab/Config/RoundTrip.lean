import SoapStab.Config.Store

/-!
# What a property is after its add

`add_config_property` prints the default, hands it over as a C string and
parses whatever `get_from_env_c` returns. So the property takes the value
meant (`RoundTrips`) if and only if parsing undoes that printing:
`roundTrips_iff`. It does except for the log level `warn`, whose text
"warning" is not among the levels `str_to_value` accepts, so that the add
throws; and except for a default whose text has a NUL, which is cut there.
-/
namespace SoapStab.Config

variable {W B : Type}

/-- The add succeeds, and a get after it returns `x`. -/
def AddYields (env : Env) (P : PropType) (name : Str) (v : P.Val) (isHidden isManageable : Bool)
    (description : Str) (w : World W B) (x : P.Val) : Prop :=
  (addConfigProperty env P name (some v) isHidden isManageable description w).2 = .ok () ∧
    (getConfigPropertyValue P name
      (addConfigProperty env P name (some v) isHidden isManageable description w).1).2 = .ok x

/-- Where the variable is unset, the property is the default `v`; where it
holds the text of `x`, the property is `x`. -/
structure RoundTrips (env : Env) (P : PropType) (name : Str) (v x : P.Val) (isHidden isManageable : Bool)
    (description : Str) (w : World W B) : Prop where
  unset : env.getenv (ENV_VAR_PREFIX ++ name) = none →
    AddYields env P name v isHidden isManageable description w v
  set : env.getenv (ENV_VAR_PREFIX ++ name) = some (valueToStr P x) →
    AddYields env P name v isHidden isManageable description w x

variable {env : Env} {P : PropType} {name : Str} {h m : Bool} {desc : Str} {w : World W B}

/-- An add yields what the text it reads parses to. -/
theorem addYields_iff (hf : name ∉ w.store.propertyValues) (v x : P.Val) :
    AddYields env P name v h m desc w x ↔
      ∃ text, sourceText env name (some v) = some text ∧ strToValue P text = .ok x := by
  unfold AddYields
  rw [addConfigProperty_fresh hf, getConfigPropertyValue_ok]
  cases sourceText env name (some v) with
  | none => simp
  | some text =>
    simp only [Option.some.injEq, exists_eq_left']
    cases hx : strToValue P text with
    | error e => simp
    | ok y =>
      simp only [true_and, World.note_store, World.withStore_store, Store.addProperty, Finmap.lookup_insert,
        Option.some.injEq, Except.ok.injEq]
      exact ⟨fun he => by cases he; rfl, fun he => by rw [he]⟩

theorem addYields_unset (hf : name ∉ w.store.propertyValues)
    (hu : env.getenv (ENV_VAR_PREFIX ++ name) = none) (v : P.Val) :
    AddYields env P name v h m desc w v ↔ Readable P v ∧ NulFree (valueToStr P v) := by
  have hsource : sourceText env name (some v) = some (cStr (valueToStr P v)) := by
    unfold sourceText defaultText
    rw [Env.getenv_cStr, hu]
    rfl
  rw [addYields_iff hf, hsource, ← strToValue_cStr]
  simp

theorem addYields_set (hf : name ∉ w.store.propertyValues) {x : P.Val}
    (hs : env.getenv (ENV_VAR_PREFIX ++ name) = some (valueToStr P x)) (v : P.Val) :
    AddYields env P name v h m desc w x ↔ Readable P x := by
  have hsource : sourceText env name (some v) = some (valueToStr P x) := by
    unfold sourceText
    rw [Env.getenv_cStr, hs]
    rfl
  rw [addYields_iff hf, hsource, ← strToValue_valueToStr]
  simp

/-- **The round trip**, in any state: it holds if and only if no value read
is the level `warn`, and no default read has a NUL in its text. -/
theorem roundTrips_iff (env : Env) (P : PropType) (name : Str) (v x : P.Val) (h m : Bool) (desc : Str)
    (w : World W B) (hf : name ∉ w.store.propertyValues) :
    RoundTrips env P name v x h m desc w ↔
      (env.getenv (ENV_VAR_PREFIX ++ name) = none → Readable P v ∧ NulFree (valueToStr P v)) ∧
      (env.getenv (ENV_VAR_PREFIX ++ name) = some (valueToStr P x) → Readable P x) := by
  refine ⟨fun hr => ⟨fun hu => ?_, fun hs => ?_⟩, fun hr => ⟨fun hu => ?_, fun hs => ?_⟩⟩
  · exact (addYields_unset hf hu v).mp (hr.unset hu)
  · exact (addYields_set hf hs v).mp (hr.set hs)
  · exact (addYields_unset hf hu v).mpr (hr.1 hu)
  · exact (addYields_set hf hs v).mpr (hr.2 hs)

/-- Adding `LOG_LEVEL` with the default `warn` throws. -/
theorem roundTrips_fails :
    ¬ RoundTrips noEnv .logLevel LOG_LEVEL .warn .warn false true []
      (World.empty .trace () : World Unit Unit) := by
  intro h
  have hthrows : (addConfigProperty noEnv .logLevel LOG_LEVEL (some .warn) false true []
    (World.empty .trace () : World Unit Unit)).2 = .error (.exCode EX_BAD_LOG_LEVEL) := by decide
  have hok := (h.unset rfl).1
  rw [hthrows] at hok
  cases hok

theorem roundTrips_info :
    RoundTrips noEnv .logLevel LOG_LEVEL .info .info false true []
      (World.empty .trace () : World Unit Unit) :=
  (roundTrips_iff noEnv .logLevel LOG_LEVEL .info .info false true [] _ Finmap.notMem_empty).mpr
    ⟨fun _ => by decide, fun _ => by decide⟩

end SoapStab.Config
