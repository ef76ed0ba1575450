import SoapStab.Config.Steps

/-!
# What a failed operation leaves behind

Every operation of `config` but one checks all it has to check before its
first write. The exception is the add, which parses inside the statement that
writes, as the right operand of `_property_values[name] = …`: C++ evaluates
that before the left operand, whose `operator[]` would insert.

`failed_leaves_no_trace`: in every reachable state, an operation that throws
leaves the store as it was and has run no listener, where a set counts if it
throws for its own reasons, before its listeners are called. So what was
tried may be tried again, with the outcome it would have had at first
(`add_retry`).
-/
namespace SoapStab.Config

variable {W B : Type}

/-- The property is not manageable, or has another type. -/
def CannotSet (P : PropType) (name : Str) (w : World W B) : Prop :=
  name ∉ w.store.manageableProperties ∨
    ∃ current, w.store.propertyValues.lookup name = some current ∧ current.type ≠ P

/-- If the operation is a set, it cannot be done. -/
def Op.FailsItself (w : World W B) : Op B → Prop
  | .set P name _ _ => CannotSet P name w
  | _ => True

/-- The containers of the store and the memory are as they were. -/
structure NoTrace (w w' : World W B) : Prop where
  values : w'.store.propertyValues = w.store.propertyValues
  descriptions : w'.store.propertyDescriptions = w.store.propertyDescriptions
  hidden : w'.store.hiddenProperties = w.store.hiddenProperties
  manageable : w'.store.manageableProperties = w.store.manageableProperties
  listeners : ∀ name, w'.store.listeners name = w.store.listeners name
  mem : w'.mem = w.mem

theorem NoTrace.of_eq {w w' : World W B} (hs : w'.store = w.store) (hm : w'.mem = w.mem) : NoTrace w w' := by
  constructor <;> simp [hs, hm]

theorem NoTrace.store {w w' : World W B} (h : NoTrace w w') : w'.store = w.store := by
  obtain ⟨hv, hd, hh, hm, -, -⟩ := h
  cases hs : w.store
  cases hs' : w'.store
  simp_all

theorem NoTrace.log (w : World W B) (lvl : Level) (t : Str) : NoTrace w (w.log lvl t) :=
  .of_eq rfl rfl

/-! ## Operations that run no listener -/

@[simp] theorem logValueRead_mem (h : Bool) (v : Str) (w : World W B) : (logValueRead h v w).mem = w.mem := by
  unfold logValueRead
  split
  · split <;> rfl
  · rfl

@[simp] theorem readSource_mem {P : PropType} (env : Env) (name : Str) (d : Option P.Val) (h : Bool)
    (w : World W B) : (readSource env name d h w).mem = w.mem := by
  unfold readSource getFromEnvC
  simp only
  split
  · rw [logValueRead_mem]
    rfl
  · split
    · rfl
    · rw [logValueRead_mem]
      rfl

variable {w w' : World W B} {e : Thrown}

theorem add_failed {env : Env} {P : PropType} {name : Str} {d : Option P.Val} {h m : Bool} {desc : Str}
    (he : addConfigProperty env P name d h m desc w = (w', .error e)) : NoTrace w w' := by
  by_cases hf : name ∈ w.store.propertyValues
  · unfold addConfigProperty at he
    rw [if_pos hf] at he
    cases he
    exact NoTrace.log ..
  · rw [addConfigProperty_fresh hf] at he
    split at he
    · cases he
      exact .of_eq (readSource_store ..) (readSource_mem ..)
    · split at he
      · cases he
        exact .of_eq (readSource_store ..) (readSource_mem ..)
      · cases he

theorem addCstr_failed {env : Env} {P : PropType} {name d : Str} {h m : Bool} {desc : Str}
    (he : addConfigPropertyCstr env P name d h m desc w = (w', .error e)) : NoTrace w w' := by
  unfold addConfigPropertyCstr at he
  split at he
  · cases he
    exact .of_eq rfl rfl
  · exact add_failed he

theorem addPropertyListener_failed {name : Str} {l : Listener B}
    (he : addPropertyListener name l w = (w', .error e)) : NoTrace w w' := by
  unfold addPropertyListener at he
  split at he
  · cases he
    exact NoTrace.log ..
  · cases he

theorem get_failed {P : PropType} {name : Str} (he : getConfigPropertyValue P name w = (w', .error e)) :
    NoTrace w w' := by
  unfold getConfigPropertyValue at he
  split at he
  · cases he
    exact NoTrace.log ..
  · split at he
    · cases he
      exact NoTrace.log ..
    · cases he

theorem description_failed {name : Str} (he : manageableConfigPropertyDescription name w = (w', .error e)) :
    NoTrace w w' := by
  unfold manageableConfigPropertyDescription at he
  split at he
  · cases he
    exact NoTrace.log ..
  · cases he

theorem valueForOutput_failed {name : Str} (he : getConfigPropertyValueForOutput name w = (w', .error e)) :
    NoTrace w w' := by
  unfold getConfigPropertyValueForOutput at he
  split at he
  · cases he
    exact NoTrace.log ..
  · cases he

theorem typeForOutput_failed {name : Str} (he : getConfigPropertyTypeForOutput name w = (w', .error e)) :
    NoTrace w w' := by
  unfold getConfigPropertyTypeForOutput configPropertyType at he
  cases hv : w.store.propertyValues.lookup name with
  | none =>
    simp only [hv] at he
    cases he
    exact NoTrace.log ..
  | some v =>
    simp only [hv] at he
    cases he

theorem wrap_failed {α : Type} {f : α → Ret} {r : Res W B α} (h : Res.wrap f r = (w', .error e)) :
    r = (w', .error e) := by
  obtain ⟨w₁, q⟩ := r
  cases q with
  | error e₁ =>
    cases h
    rfl
  | ok a => cases h

/-- An operation that runs no listener checks before it writes. -/
theorem plain_failed {env : Env} {op : Op B} (h : op.plain env w = some (w', .error e)) : NoTrace w w' := by
  cases op with
  | get P name => exact get_failed (wrap_failed (Option.some.inj h))
  | set => cases h
  | add P name d hid m desc => exact add_failed (wrap_failed (Option.some.inj h))
  | addCstr P name d hid m desc => exact addCstr_failed (wrap_failed (Option.some.inj h))
  | addListener name l => exact addPropertyListener_failed (wrap_failed (Option.some.inj h))
  | manageableNames => cases h
  | description name => exact description_failed (wrap_failed (Option.some.inj h))
  | valueForOutput name => exact valueForOutput_failed (wrap_failed (Option.some.inj h))
  | typeForOutput name => exact typeForOutput_failed (wrap_failed (Option.some.inj h))

theorem Op.exec_of_plain {env : Env} {op : Op B} {r : Res W B Ret} (h : op.plain env w = some r)
    (run : Runner W B) (n : Nat) : op.exec env run n w = some r := by
  cases op with
  | set => cases h
  | _ => exact h

/-! ## Setting -/

/-- A set that cannot be done throws before its listeners are called. -/
theorem storeNewValue_failed (hw : ManageableHasValue w) {P : PropType} {name : Str} (v : P.Val)
    (hc : CannotSet P name w) : ∃ t e, storeNewValue P name v w = (w.log .err t, .error e) := by
  rcases storeNewValue_cases hw P name v with ⟨old, hm, hv, -⟩ | ⟨-, t, h⟩
  · rcases hc with hnot | ⟨current, hcur, hne⟩
    · exact absurd hm hnot
    · rw [hv] at hcur
      cases hcur
      exact absurd rfl hne
  · exact ⟨t, _, h⟩

theorem set_failed (hw : ManageableHasValue w) (env : Env) {P : PropType} {name : Str} (v : P.Val)
    (rethrow : Bool) (hc : CannotSet P name w) :
    ∃ t e, ∀ (run : Runner W B) n,
      (Op.set P name v rethrow).exec env run n w = some (w.log .err t, .error e) := by
  obtain ⟨t, e, he⟩ := storeNewValue_failed hw v hc
  refine ⟨t, e, fun run n => ?_⟩
  simp only [Op.exec, setConfigPropertyValue, he, Option.map_some]
  rfl

/-! ## Trying again -/

/-- The outcome of an add depends on the store only. -/
theorem add_retry (hs : w'.store = w.store) (env : Env) (P : PropType) (name : Str) (d : Option P.Val)
    (h m : Bool) (desc : Str) :
    (addConfigProperty env P name d h m desc w').2 = (addConfigProperty env P name d h m desc w).2 ∧
      (addConfigProperty env P name d h m desc w').1.store =
        (addConfigProperty env P name d h m desc w).1.store := by
  by_cases hf : name ∈ w.store.propertyValues
  · unfold addConfigProperty
    rw [if_pos (hs ▸ hf), if_pos hf]
    exact ⟨rfl, hs⟩
  · rw [addConfigProperty_fresh hf, addConfigProperty_fresh (hs ▸ hf)]
    cases sourceText env name d with
    | none => exact ⟨rfl, by simpa using hs⟩
    | some text =>
      cases hx : strToValue P text with
      | error e => exact ⟨by simp only [hx], by simpa [hx] using hs⟩
      | ok v => exact ⟨by simp only [hx], by simp [hx, hs]⟩

/-- **No trace.** In every reachable state, an operation that throws, a set
if it cannot be done, leaves the store and the rest of the memory as they
were; it throws the same whatever listeners would do, as it runs none; and an
add tried afterwards, in any environment, has the outcome and the effect on
the store that it would have had before. -/
theorem failed_leaves_no_trace (env env' : Env) (code : B → Instr W B) (w w' : World W B)
    (hreach : Reach env code w) (op : Op B) (n : Nat) (e : Thrown)
    (h : call env' code n op w = some (w', .error e)) (hset : op.FailsItself w) :
    NoTrace w w' ∧
      (∀ (run : Runner W B) k, op.exec env' run k w = some (w', .error e)) ∧
      ∀ (env'' : Env) (P : PropType) (name : Str) (d : Option P.Val) (hid m : Bool) (desc : Str),
        (addConfigProperty env'' P name d hid m desc w').2 = (addConfigProperty env'' P name d hid m desc w).2 ∧
          (addConfigProperty env'' P name d hid m desc w').1.store =
            (addConfigProperty env'' P name d hid m desc w).1.store := by
  have hcore : NoTrace w w' ∧ ∀ (run : Runner W B) k, op.exec env' run k w = some (w', .error e) := by
    rcases Op.exec_cases h with hp | ⟨P, name, v, rethrow, q, rfl, -, -⟩
    · exact ⟨plain_failed hp, fun run k => Op.exec_of_plain hp run k⟩
    · obtain ⟨t, e₁, hexec⟩ := set_failed hreach.manageableHasValue env' v rethrow hset
      cases (hexec (runListener env' code n) n).symm.trans h
      exact ⟨NoTrace.log .., hexec⟩
  exact ⟨hcore.1, hcore.2, fun env'' P name d hid m desc => add_retry hcore.1.store env'' P name d hid m desc⟩

/-- A store with one manageable string property. -/
def oneString : World Unit Unit :=
  (addConfigProperty noEnv .string "a".toList (some "b".toList) false true [] (World.empty .off ())).1

/-- The variable of `PORT` is `x`, which is no number. -/
theorem failed_leaves_no_trace_port : ∃ w e,
    call (everyVariable "x".toList (by decide)) (fun _ : Unit => .ret) 0
      (.add .uint16 "PORT".toList (some 80) false true []) oneString = some (w, .error e) ∧ NoTrace oneString w := by
  have hadd : call noEnv (fun _ : Unit => .ret) 0 (.add .string "a".toList (some "b".toList) false true [])
    (World.empty .off ()) = some _ := rfl
  have hreach : Reach noEnv (fun _ : Unit => .ret) oneString := .call (.empty .off ()) hadd
  refine ⟨_, _, rfl, ?_⟩
  exact (failed_leaves_no_trace noEnv (everyVariable "x".toList (by decide)) (fun _ : Unit => .ret) oneString _ hreach
    (.add .uint16 "PORT".toList (some 80) false true []) 0 _ rfl trivial).1

end SoapStab.Config
