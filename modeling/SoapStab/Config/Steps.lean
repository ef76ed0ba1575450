import SoapStab.Config.Exec
import Mathlib.Logic.Relation

/-!
# What the operations can do to a world

`Prim` lists the changes of a world the operations are made of: log lines
and history records, the writes of a successful add, of
`add_property_listener` and of a set, the entry `operator[]` would insert
for a manageable name without a value, and what a listener body does to the
logger and to its own memory. `Steps` is a sequence of them.

`exec_steps`: every operation, nested calls of listeners included, takes its
world to another by `Steps`. What every `Prim` preserves therefore holds at
the end of every run and at every point inside it (`Steps.preserves`), with
no further induction over programs or fuel.

`Steps.grows` is the first use: history, hidden names and each list of
listeners only grow.
-/
namespace SoapStab.Config

variable {W B : Type}

inductive Prim : World W B → World W B → Prop
  | log (w) (lvl : Level) (text : Str) : Prim w (w.log lvl text)
  | mem (w) (m : W) : Prim w { w with mem := m }
  | level (w) (lvl : Level) : Prim w (w.setLevel lvl)
  | reading (w) (name : Str) (h : Bool) (d : Option Str) (on : Bool) : Prim w (w.note (.reading name h d on))
  | unparsable (w) (name : Str) : Prim w (w.note (.unparsable name))
  | added (w) (name : Str) (v : Var) (h m : Bool) (desc : Str) (fresh : name ∉ w.store.propertyValues) :
    Prim w ((w.withStore (w.store.addProperty name v h m desc)).note (.added name v h m))
  | listened (w) (name : Str) (l : Listener B) (ls : List (Listener B))
    (hl : w.store.manageableProperties.lookup name = some ls) :
    Prim w (w.withStore (w.store.pushListener name ls l))
  | filled (w) (name : Str) (hm : name ∈ w.store.manageableProperties)
    (hv : w.store.propertyValues.lookup name = none) :
    Prim w (w.withStore (w.store.setValue name Var.default))
  | stored (w) (name : Str) (v old : Var) (hm : name ∈ w.store.manageableProperties)
    (hv : w.store.propertyValues.lookup name = some old) (ht : old.type = v.type) :
    Prim w ((w.withStore (w.store.setValue name v)).note (.stored name v))

/-- A sequence of primitive changes. -/
abbrev Steps : World W B → World W B → Prop := Relation.ReflTransGen Prim

theorem Steps.preserves {I : World W B → Prop} (hI : ∀ w w', Prim w w' → I w → I w') {w w' : World W B}
    (h : Steps w w') (hw : I w) : I w' := by
  induction h with
  | refl => exact hw
  | tail _ hp ih => exact hI _ _ hp ih

theorem Prim.steps {w w' : World W B} (h : Prim w w') : Steps w w' := Relation.ReflTransGen.single h

theorem Steps.log (w : World W B) (lvl : Level) (text : Str) : Steps w (w.log lvl text) :=
  (Prim.log w lvl text).steps

/-! ## Operations that run no listener -/

theorem logValueRead_steps (h : Bool) (v : Str) (w : World W B) : Steps w (logValueRead h v w) := by
  unfold logValueRead
  split
  · split <;> exact Steps.log ..
  · exact .refl

theorem getFromEnvC_steps (env : Env) (name : Option Str) (th h : Bool) (d : Option Str) (w : World W B) :
    Steps w (getFromEnvC env name th h d w).1 := by
  unfold getFromEnvC
  refine (Steps.log w .debug (readingText name th h d)).trans ?_
  cases name with
  | none => exact Steps.log ..
  | some name =>
    simp only
    split
    · exact logValueRead_steps ..
    · split
      · exact Steps.log ..
      · exact (Steps.log ..).trans (logValueRead_steps ..)

@[simp] theorem logValueRead_store (h : Bool) (v : Str) (w : World W B) :
    (logValueRead h v w).store = w.store := by
  unfold logValueRead; split
  · split <;> rfl
  · rfl

@[simp] theorem getFromEnvC_store (env : Env) (name : Option Str) (th h : Bool) (d : Option Str)
    (w : World W B) : (getFromEnvC env name th h d w).1.store = w.store := by
  unfold getFromEnvC
  cases name with
  | none => rfl
  | some name =>
    simp only
    split
    · simp only [logValueRead_store, World.log_store]
    · split
      · rfl
      · simp only [logValueRead_store, World.log_store]

@[simp] theorem logValueRead_history (h : Bool) (v : Str) (w : World W B) :
    (logValueRead h v w).history = w.history := by
  unfold logValueRead; split
  · split <;> rfl
  · rfl

@[simp] theorem getFromEnvC_history (env : Env) (name : Option Str) (th h : Bool) (d : Option Str)
    (w : World W B) : (getFromEnvC env name th h d w).1.history = w.history := by
  unfold getFromEnvC
  cases name with
  | none => rfl
  | some name =>
    simp only
    split
    · simp only [logValueRead_history, World.log_history]
    · split
      · rfl
      · simp only [logValueRead_history, World.log_history]

theorem readSource_steps {P : PropType} (env : Env) (name : Str) (d : Option P.Val) (h : Bool)
    (w : World W B) : Steps w (readSource env name d h w) :=
  (Prim.reading w name h (defaultText d) (w.logger.shouldLog .debug)).steps.trans (getFromEnvC_steps ..)

@[simp] theorem readSource_history {P : PropType} (env : Env) (name : Str) (d : Option P.Val) (h : Bool)
    (w : World W B) : (readSource env name d h w).history =
      w.history ++ [.reading name h (defaultText d) (w.logger.shouldLog .debug)] := by
  simp [readSource]

@[simp] theorem readSource_store {P : PropType} (env : Env) (name : Str) (d : Option P.Val) (h : Bool)
    (w : World W B) : (readSource env name d h w).store = w.store := by
  simp [readSource]

theorem addConfigProperty_steps (env : Env) (P : PropType) (name : Str) (d : Option P.Val) (h m : Bool)
    (desc : Str) (w : World W B) : Steps w (addConfigProperty env P name d h m desc w).1 := by
  by_cases hf : name ∈ w.store.propertyValues
  · unfold addConfigProperty
    rw [if_pos hf]
    exact Steps.log ..
  · rw [addConfigProperty_fresh hf]
    have hread := readSource_steps env name d h w
    split
    · exact hread
    · split
      · exact hread.trans (Prim.unparsable _ name).steps
      · next v hv => exact hread.trans (Prim.added _ name ⟨P, v⟩ h m desc (by simpa using hf)).steps

@[simp] theorem logValueRead_level (h : Bool) (v : Str) (w : World W B) :
    (logValueRead h v w).logger.level = w.logger.level := by
  unfold logValueRead; split
  · split <;> simp only [World.log_logger_level]
  · rfl

@[simp] theorem readSource_level {P : PropType} (env : Env) (name : Str) (d : Option P.Val) (h : Bool)
    (w : World W B) : (readSource env name d h w).logger.level = w.logger.level := by
  unfold readSource getFromEnvC
  simp only
  split
  · simp only [logValueRead_level, World.log_logger_level, World.note_logger]
  · split <;> simp only [logValueRead_level, World.log_logger_level, World.note_logger]

theorem addConfigPropertyCstr_steps (env : Env) (P : PropType) (name d : Str) (h m : Bool)
    (desc : Str) (w : World W B) : Steps w (addConfigPropertyCstr env P name d h m desc w).1 := by
  unfold addConfigPropertyCstr
  split
  · exact (Prim.unparsable w name).steps
  · exact addConfigProperty_steps ..

theorem addPropertyListener_steps (name : Str) (l : Listener B) (w : World W B) :
    Steps w (addPropertyListener name l w).1 := by
  unfold addPropertyListener
  split
  · exact Steps.log ..
  · next ls hl => exact (Prim.listened w name l ls hl).steps

theorem getConfigPropertyValue_steps (P : PropType) (name : Str) (w : World W B) :
    Steps w (getConfigPropertyValue P name w).1 := by
  unfold getConfigPropertyValue
  split
  · exact Steps.log ..
  · split
    · exact Steps.log ..
    · simp only; split
      · exact Steps.log ..
      · exact .refl

theorem getConfigPropertyValue_store (P : PropType) (name : Str) (w : World W B) :
    (getConfigPropertyValue P name w).1.store = w.store := by
  unfold getConfigPropertyValue
  split
  · rfl
  · split
    · rfl
    · simp only; split <;> rfl

theorem manageableConfigPropertyDescription_steps (name : Str) (w : World W B) :
    Steps w (manageableConfigPropertyDescription name w).1 := by
  unfold manageableConfigPropertyDescription
  split
  · exact Steps.log ..
  · exact .refl

theorem getConfigPropertyValueForOutput_steps (name : Str) (w : World W B) :
    Steps w (getConfigPropertyValueForOutput name w).1 := by
  unfold getConfigPropertyValueForOutput
  split
  · exact Steps.log ..
  · exact .refl

theorem getConfigPropertyTypeForOutput_steps (name : Str) (w : World W B) :
    Steps w (getConfigPropertyTypeForOutput name w).1 := by
  unfold getConfigPropertyTypeForOutput configPropertyType
  cases w.store.propertyValues.lookup name with
  | none => exact Steps.log ..
  | some v => exact .refl

theorem plain_steps {env : Env} {op : Op B} {w : World W B} {r : Res W B Ret}
    (h : op.plain env w = some r) : Steps w r.1 := by
  cases op <;> simp only [Op.plain, Option.some.injEq, reduceCtorEq] at h <;> subst h
  · exact getConfigPropertyValue_steps ..
  · exact addConfigProperty_steps ..
  · exact addConfigPropertyCstr_steps ..
  · exact addPropertyListener_steps ..
  · exact .refl
  · exact manageableConfigPropertyDescription_steps ..
  · exact getConfigPropertyValueForOutput_steps ..
  · exact getConfigPropertyTypeForOutput_steps ..

/-- What an operation that runs no listener writes: nothing, one fresh
property, or one listener; never the log level. -/
structure Writes (op : Op B) (w w' : World W B) : Prop where
  level : w'.logger.level = w.logger.level
  store : w'.store = w.store ∨
    (∃ name v hid m desc, name ∉ w.store.propertyValues ∧ w'.store = w.store.addProperty name v hid m desc) ∨
    ∃ name l ls, op = .addListener name l ∧ w.store.manageableProperties.lookup name = some ls ∧
      w'.store = w.store.pushListener name ls l

theorem Writes.log (op : Op B) (w : World W B) (lvl : Level) (t : Str) : Writes op w (w.log lvl t) :=
  ⟨World.log_logger_level w lvl t, .inl rfl⟩

theorem Writes.none (op : Op B) (w : World W B) : Writes op w w := ⟨rfl, .inl rfl⟩

theorem addConfigProperty_writes (op : Op B) (env : Env) (P : PropType) (name : Str) (d : Option P.Val)
    (h m : Bool) (desc : Str) (w : World W B) :
    Writes op w (addConfigProperty env P name d h m desc w).1 := by
  by_cases hf : name ∈ w.store.propertyValues
  · unfold addConfigProperty
    rw [if_pos hf]
    exact Writes.log ..
  · rw [addConfigProperty_fresh hf]
    split
    · exact ⟨by simp, .inl (by simp)⟩
    · split
      · exact ⟨by simp, .inl (by simp)⟩
      · next v hv => exact ⟨by simp, .inr (.inl ⟨name, ⟨P, v⟩, h, m, desc, hf, by simp⟩)⟩

theorem plain_writes {env : Env} {op : Op B} {w : World W B} {r : Res W B Ret} (h : op.plain env w = some r) :
    Writes op w r.1 := by
  cases op with
  | get P name =>
    cases h
    simp only [Res.wrap, getConfigPropertyValue]
    split
    · exact Writes.log ..
    · split
      · exact Writes.log ..
      · simp only
        split
        · exact Writes.log ..
        · exact Writes.none ..
  | set => cases h
  | add P name d hid m desc => cases h; exact addConfigProperty_writes ..
  | addCstr P name d hid m desc =>
    cases h
    simp only [Res.wrap, addConfigPropertyCstr]
    split
    · exact ⟨rfl, .inl rfl⟩
    · exact addConfigProperty_writes ..
  | addListener name l =>
    cases h
    simp only [Res.wrap, addPropertyListener]
    split
    · exact Writes.log ..
    · next ls hl => exact ⟨rfl, .inr (.inr ⟨name, l, ls, rfl, hl, rfl⟩)⟩
  | manageableNames => cases h; exact Writes.none ..
  | description name =>
    cases h
    simp only [Res.wrap, manageableConfigPropertyDescription]
    split
    · exact Writes.log ..
    · exact Writes.none ..
  | valueForOutput name =>
    cases h
    simp only [Res.wrap, getConfigPropertyValueForOutput]
    split
    · exact Writes.log ..
    · exact Writes.none ..
  | typeForOutput name =>
    cases h
    simp only [Res.wrap, getConfigPropertyTypeForOutput, configPropertyType]
    cases w.store.propertyValues.lookup name with
    | none => exact Writes.log ..
    | some v => exact Writes.none ..

/-! ## Setting -/

theorem storeNewValue_steps (P : PropType) (name : Str) (v : P.Val) (w : World W B) :
    Steps w (storeNewValue P name v w).1 := by
  unfold storeNewValue
  split
  · exact Steps.log ..
  · next ls hl =>
    have hm : name ∈ w.store.manageableProperties := Finmap.mem_iff.mpr ⟨ls, hl⟩
    -- the reference `_property_values[name]`: of the value there, or of a fresh one
    have hat : Steps w (w.withStore (w.store.valueAt name).1) ∧
        (w.store.valueAt name).1.propertyValues.lookup name = some (w.store.valueAt name).2 ∧
        name ∈ (w.store.valueAt name).1.manageableProperties := by
      unfold Store.valueAt
      split
      · next cur hcur => exact ⟨.refl, hcur, hm⟩
      · next hnone =>
        exact ⟨(Prim.filled w name hm hnone).steps, Finmap.lookup_insert _, hm⟩
    simp only
    split
    · exact hat.1.trans (Steps.log ..)
    · next old hold =>
      have hcur := Var.strictGet_eq_some.mp hold
      have hwrite := (Prim.stored ((w.withStore (w.store.valueAt name).1).log .trace
        ("config::set_config_property_value(): current value: ".toList ++ name ++ " -> ".toList ++
          propertyValueForOutput (w.store.valueAt name).1 P name old))
        name ⟨P, v⟩ _ hat.2.2 hat.2.1 (by rw [hcur])).steps
      exact hat.1.trans ((Steps.log ..).trans (hwrite.trans (Steps.log ..)))

/-- A body's changes are steps. -/
def Runner.Stepping (run : Runner W B) : Prop := ∀ b w w' r, run b w = some (w', r) → Steps w w'

theorem notifyOne_steps {run : Runner W B} (hr : run.Stepping) {name : Str} {rethrow : Bool}
    {l : Listener B} {s s' : World W B × Str} (h : notifyOne run name rethrow l s = some s') :
    Steps s.1 s'.1 := by
  simp only [notifyOne] at h
  split at h
  · cases h
  · next w r hw =>
    cases h
    exact (Steps.log ..).trans ((hr _ _ _ _ hw).trans (Steps.log ..))

theorem notify_steps {run : Runner W B} (hr : run.Stepping) {name : Str} {rethrow : Bool} :
    ∀ {n i : Nat} {s s' : World W B × Str} {ran ran' : List (Listener B)},
      notify run name rethrow n i s ran = some (s', ran') → Steps s.1 s'.1 := by
  intro n
  induction n with
  | zero => intro i s s' ran ran' h; cases h
  | succ n ih =>
    intro i s s' ran ran' h
    simp only [notify] at h
    split at h
    · cases h; exact .refl
    · split at h
      · cases h
      · next s1 h1 => exact (notifyOne_steps hr h1).trans (ih h)

theorem setConfigPropertyValue_steps {run : Runner W B} (hr : run.Stepping) {n : Nat} {P : PropType}
    {name : Str} {v : P.Val} {rethrow : Bool} {w : World W B} {r}
    (h : setConfigPropertyValue run n P name v rethrow w = some r) : Steps w r.1.1 := by
  have hstore := storeNewValue_steps P name v w
  unfold setConfigPropertyValue at h
  split at h
  · next he => rw [he] at hstore; cases h; exact hstore
  · next w1 he =>
    rw [he] at hstore
    split at h
    · cases h
    · next hn => cases h; exact hstore.trans (notify_steps hr hn)

theorem exec_steps_of {env : Env} {run : Runner W B} (hr : run.Stepping) {n : Nat} {op : Op B}
    {w : World W B} {r : Res W B Ret} (h : op.exec env run n w = some r) : Steps w r.1 := by
  rcases Op.exec_cases h with h | ⟨P, name, v, rethrow, q, -, hq, rfl⟩
  · exact plain_steps h
  · exact setConfigPropertyValue_steps hr hq

theorem runListener_steps (env : Env) (code : B → Instr W B) : ∀ n, (runListener env code n).Stepping := by
  intro n
  induction n with
  | zero => intro b w w' r h; cases h
  | succ n ih =>
    intro b w w' r h
    rw [runListener] at h
    cases hc : code b with
    | ret => simp only [hc, Option.some.injEq, Prod.mk.injEq] at h; rw [h.1]
    | throw e => simp only [hc, Option.some.injEq, Prod.mk.injEq] at h; rw [h.1]
    | step f => simp only [hc] at h; exact (Prim.mem w _).steps.trans (ih _ _ _ _ h)
    | log lvl text next => simp only [hc] at h; exact (Steps.log ..).trans (ih _ _ _ _ h)
    | getLevel k => simp only [hc] at h; exact ih _ _ _ _ h
    | setLevel lvl next => simp only [hc] at h; exact (Prim.level w lvl).steps.trans (ih _ _ _ _ h)
    | call op k =>
      simp only [hc] at h
      split at h
      · cases h
      · next w1 q hq => exact (exec_steps_of ih hq).trans (ih _ _ _ _ h)

/-- **Every operation is a sequence of primitive changes**, the nested calls
of listeners included. -/
theorem exec_steps {env : Env} {code : B → Instr W B} {n : Nat} {op : Op B} {w : World W B}
    {r : Res W B Ret} (h : call env code n op w = some r) : Steps w r.1 :=
  exec_steps_of (runListener_steps env code n) h

theorem calls_steps {env : Env} {code : B → Instr W B} {n : Nat} :
    ∀ {ops : List (Op B)} {w w' : World W B} {rs}, calls env code n ops w = some (w', rs) → Steps w w' := by
  intro ops
  induction ops with
  | nil => intro w w' rs h; cases h; exact .refl
  | cons op ops ih =>
    intro w w' rs h
    simp only [calls] at h
    split at h
    · cases h
    · next w1 r h1 =>
      simp only [Option.map_eq_some_iff] at h
      obtain ⟨⟨w2, rs'⟩, h2, h3⟩ := h
      cases h3
      exact (exec_steps h1).trans (ih h2)

/-! ## What only grows -/

theorem Steps.history {w w' : World W B} (h : Steps w w') : w.history <+: w'.history := by
  induction h with
  | refl => exact List.prefix_refl _
  | tail _ hp ih =>
    refine ih.trans ?_
    cases hp with
    | log | mem | level | listened | filled => exact List.prefix_refl _
    | reading | unparsable | added | stored => exact List.prefix_append _ _

structure Grows (w w' : World W B) : Prop where
  history : w.history <+: w'.history
  hidden : w.store.hiddenProperties ⊆ w'.store.hiddenProperties
  listeners : ∀ name, w.store.listeners name <+: w'.store.listeners name

theorem Grows.refl (w : World W B) : Grows w w :=
  ⟨List.prefix_refl _, Finset.Subset.refl _, fun _ => List.prefix_refl _⟩

theorem Grows.trans {w w' w'' : World W B} (h : Grows w w') (h' : Grows w' w'') : Grows w w'' :=
  ⟨h.history.trans h'.history, h.hidden.trans h'.hidden, fun n => (h.listeners n).trans (h'.listeners n)⟩

/-- A manageable property has a value: what makes `listeners` survive the
add of another property. -/
def ManageableHasValue (w : World W B) : Prop :=
  ∀ name, name ∈ w.store.manageableProperties → name ∈ w.store.propertyValues

theorem ManageableHasValue.of_store {w w' : World W B} (h : ManageableHasValue w) (hs : w'.store = w.store) :
    ManageableHasValue w' := by
  unfold ManageableHasValue
  rwa [hs]

theorem listeners_pushListener (s : Store B) (name n : Str) (ls : List (Listener B)) (l : Listener B) :
    (s.pushListener name ls l).listeners n = if n = name then ls ++ [l] else s.listeners n := by
  unfold Store.listeners Store.pushListener
  by_cases h : n = name
  · subst h; simp
  · simp [h, Finmap.lookup_insert_of_ne]

theorem Prim.manageableHasValue {w w' : World W B} (h : Prim w w') (hw : ManageableHasValue w) :
    ManageableHasValue w' := by
  intro n hn
  cases h with
  | log | mem | level | reading | unparsable => exact hw n hn
  | added name v h m desc fresh =>
    simp only [World.note_store, World.withStore_store, Store.addProperty] at hn ⊢
    rw [Finmap.mem_insert]
    split at hn
    · rcases Finmap.mem_insert.mp hn with rfl | hn
      · exact .inl rfl
      · exact .inr (hw n hn)
    · exact .inr (hw n hn)
  | listened name l ls hl =>
    rcases Finmap.mem_insert.mp hn with rfl | hn
    · exact hw _ (Finmap.mem_iff.mpr ⟨ls, hl⟩)
    · exact hw n hn
  | filled name hm hv => exact Finmap.mem_insert.mpr (.inr (hw n hn))
  | stored name v old hm hv ht => exact Finmap.mem_insert.mpr (.inr (hw n hn))

theorem Prim.grows {w w' : World W B} (h : Prim w w') (hw : ManageableHasValue w) : Grows w w' := by
  cases h with
  | log | mem | level => exact ⟨List.prefix_refl _, Finset.Subset.refl _, fun _ => List.prefix_refl _⟩
  | reading | unparsable =>
    exact ⟨List.prefix_append _ _, Finset.Subset.refl _, fun _ => List.prefix_refl _⟩
  | added name v h m desc fresh =>
    refine ⟨List.prefix_append _ _, ?_, fun n => ?_⟩
    · simp only [World.note_store, World.withStore_store, Store.addProperty]
      split
      · exact Finset.subset_insert _ _
      · exact Finset.Subset.refl _
    · cases m with
      | false => exact List.prefix_refl _
      | true =>
        by_cases hn : n = name
        · -- a fresh name has no listeners yet
          have hnone : w.store.manageableProperties.lookup name = none :=
            Finmap.lookup_eq_none.mpr fun hm => fresh (hw name hm)
          subst hn
          simp [Store.listeners, hnone]
        · simp [Store.listeners, Store.addProperty, Finmap.lookup_insert_of_ne _ hn]
  | listened name l ls hl =>
    refine ⟨List.prefix_refl _, Finset.Subset.refl _, fun n => ?_⟩
    rw [World.withStore_store, listeners_pushListener]
    split
    · next hn => subst hn; simp [Store.listeners, hl]
    · exact List.prefix_refl _
  | filled name hm hv => exact ⟨List.prefix_refl _, Finset.Subset.refl _, fun _ => List.prefix_refl _⟩
  | stored name v old hm hv ht =>
    exact ⟨List.prefix_append _ _, Finset.Subset.refl _, fun _ => List.prefix_refl _⟩

theorem Steps.grows {w w' : World W B} (h : Steps w w') (hw : ManageableHasValue w) :
    Grows w w' ∧ ManageableHasValue w' := by
  induction h with
  | refl => exact ⟨Grows.refl w, hw⟩
  | tail _ hp ih => exact ⟨ih.1.trans (hp.grows ih.2), hp.manageableHasValue ih.2⟩

/-- What a set does before its listeners run: where there is a manageable
property of that type it stores, and otherwise it only logs. -/
theorem storeNewValue_cases {w : World W B} (hw : ManageableHasValue w) (P : PropType) (name : Str)
    (v : P.Val) :
    (∃ old, name ∈ w.store.manageableProperties ∧ w.store.propertyValues.lookup name = some ⟨P, old⟩ ∧
      storeNewValue P name v w = (storedWorld P name old v w, .ok ())) ∨
    ((¬ ∃ old : P.Val, name ∈ w.store.manageableProperties ∧
        w.store.propertyValues.lookup name = some ⟨P, old⟩) ∧
      ∃ t, storeNewValue P name v w = (w.log .err t, configError)) := by
  by_cases hm : name ∈ w.store.manageableProperties
  · obtain ⟨cur, hcur⟩ := Finmap.mem_iff.mp (hw name hm)
    rw [storeNewValue_eq hm hcur]
    cases hget : cur.strictGet P with
    | none =>
      refine .inr ⟨?_, _, rfl⟩
      rintro ⟨old, -, hold⟩
      rw [hcur, Option.some.injEq, ← Var.strictGet_eq_some, hget] at hold
      cases hold
    | some old => exact .inl ⟨old, hm, by rw [hcur, Var.strictGet_eq_some.mp hget], rfl⟩
  · unfold storeNewValue
    rw [Finmap.lookup_eq_none.mpr hm]
    exact .inr ⟨fun hold => hm hold.choose_spec.1, _, rfl⟩

/-! ## Reachable worlds -/

/-- Worlds reached by operations, those inside running operations included:
`stored` is the point of a set where its listeners start, and from there
`aside` is what a listener does on its own and `call` what it calls. -/
inductive Reach (env : Env) (code : B → Instr W B) : World W B → Prop
  | empty (lvl : Level) (mem : W) : Reach env code (World.empty lvl mem)
  | call {w : World W B} {n : Nat} {op : Op B} {r : Res W B Ret} (hw : Reach env code w)
    (h : call env code n op w = some r) : Reach env code r.1
  | stored {w w' : World W B} {P : PropType} {name : Str} {v : P.Val} (hw : Reach env code w)
    (h : storeNewValue P name v w = (w', .ok ())) : Reach env code w'
  | aside {w w' : World W B} (hw : Reach env code w) (hs : w'.store = w.store)
    (hh : w'.history = w.history) : Reach env code w'

/-- A property of store and history that holds of the empty world and is
kept by every primitive change holds of every reachable world. -/
theorem Reach.preserves {env : Env} {code : B → Instr W B} {I : World W B → Prop}
    (h0 : ∀ lvl mem, I (World.empty lvl mem)) (hI : ∀ w w', Prim w w' → I w → I w')
    (ha : ∀ w w', w'.store = w.store → w'.history = w.history → I w → I w') {w : World W B}
    (h : Reach env code w) : I w := by
  induction h with
  | empty lvl mem => exact h0 lvl mem
  | call _ hc ih => exact (exec_steps hc).preserves hI ih
  | @stored w w' P name v _ hs ih =>
    have hsteps := storeNewValue_steps P name v w
    rw [hs] at hsteps
    exact hsteps.preserves hI ih
  | aside _ hs hh ih => exact ha _ _ hs hh ih

theorem Reach.manageableHasValue {env : Env} {code : B → Instr W B} {w : World W B}
    (h : Reach env code w) : ManageableHasValue w := by
  refine h.preserves (fun _ _ n hn => ?_) (fun _ _ hp => hp.manageableHasValue)
    fun _ _ hs _ hw => hw.of_store hs
  exact absurd hn (Finmap.notMem_empty)

end SoapStab.Config
