import SoapStab.Config.Steps

/-!
# Hidden values in the log

`is_hidden` is documented as "True if the property value must be hidden from
the logs". The reads, `set_config_property_value` and the output lookups ask
`_hidden_properties` before they print a value, and `get_from_env_c` masks
the value it returns; but its first message prints `default_value` as it is.

Two runs of the same operations that differ only in the values of hidden
properties (`EnvTwin`, `OpTwin`, `InstrTwin`) stay in step: whatever one of
them logs, returns or throws, so does the other, except for that message
(`exec_twin`). So the outputs are always the same, and the logs are the same
exactly when the default texts printed by it are (`sameLog_iff`);
`shownDefaults` lists them. `sameLog_fails` is the smallest run that leaks.
-/
namespace SoapStab.Config

variable {W B : Type}

/-! ## Runs that differ in hidden values only -/

section Twins

variable (H : Set Str)

/-- The same variables are set; those of properties outside `H` alike. -/
structure EnvTwin (env₁ env₂ : Env) : Prop where
  present : ∀ n, (env₁.getenv n).isSome = (env₂.getenv n).isSome
  same : ∀ name ∉ H, env₁.getenv (cStr (ENV_VAR_PREFIX ++ name)) = env₂.getenv (cStr (ENV_VAR_PREFIX ++ name))

/-- The same call, up to the values it gives to a property of `H`. -/
inductive OpTwin : Op B → Op B → Prop
  | same (op : Op B) : OpTwin op op
  | set (P : PropType) (name : Str) (v₁ v₂ : P.Val) (rethrow : Bool) (hn : name ∈ H) :
    OpTwin (.set P name v₁ rethrow) (.set P name v₂ rethrow)
  | add (P : PropType) (name : Str) (d₁ d₂ : Option P.Val) (h m : Bool) (desc : Str) (hn : name ∈ H)
    (hd : d₁.isSome = d₂.isSome) : OpTwin (.add P name d₁ h m desc) (.add P name d₂ h m desc)
  | addCstr (P : PropType) (name d₁ d₂ : Str) (h m : Bool) (desc : Str) (hn : name ∈ H) :
    OpTwin (.addCstr P name d₁ h m desc) (.addCstr P name d₂ h m desc)

/-- The call hands a value of a property of `H` to its caller. -/
def Op.readsValue : Op B → Prop
  | .get _ name => name ∈ H
  | _ => False

/-- The same instruction of a listener that reads no property of `H`. -/
inductive InstrTwin : Instr W B → Instr W B → Prop
  | same (i : Instr W B) (h : ∀ op k, i ≠ .call op k) : InstrTwin i i
  | call {op₁ op₂ : Op B} (k : Except Thrown Ret → B) (h : OpTwin H op₁ op₂) (hr : ¬ op₁.readsValue H) :
    InstrTwin (.call op₁ k) (.call op₂ k)

/-- All parses succeed, and the properties of `H` that are added are added
as hidden. -/
structure Proper (history : List Event) : Prop where
  parsed : ∀ name, .unparsable name ∉ history
  hidden : ∀ name v h m, .added name v h m ∈ history → name ∈ H → h = true

end Twins

/-- The defaults of hidden properties that `get_from_env_c` prints. -/
def shownDefaults (history : List Event) : List (Option Str) :=
  history.filterMap fun
    | .reading _ true defaultText true => some defaultText
    | _ => none

variable {H : Set Str}

theorem Proper.of_prefix {h h' : List Event} (hp : Proper H h') (hle : h <+: h') : Proper H h :=
  ⟨fun n hn => hp.parsed n (hle.subset hn), fun n v b m hn => hp.hidden n v b m (hle.subset hn)⟩

theorem Proper.of_steps {w w' : World W B} (hp : Proper H w'.history) (h : Steps w w') :
    Proper H w.history := hp.of_prefix h.history

theorem shownDefaults_append (h h' : List Event) :
    shownDefaults (h ++ h') = shownDefaults h ++ shownDefaults h' := List.filterMap_append

/-! ## Worlds that differ in hidden values only -/

variable (H) in
structure Twin (w₁ w₂ : World W B) : Prop where
  types : ∀ n,
    (w₁.store.propertyValues.lookup n).map Var.type = (w₂.store.propertyValues.lookup n).map Var.type
  values : ∀ n ∉ H, w₁.store.propertyValues.lookup n = w₂.store.propertyValues.lookup n
  hides : ∀ n ∈ H, n ∈ w₁.store.propertyValues → n ∈ w₁.store.hiddenProperties
  descriptions : w₁.store.propertyDescriptions = w₂.store.propertyDescriptions
  manageable : w₁.store.manageableProperties = w₂.store.manageableProperties
  hidden : w₁.store.hiddenProperties = w₂.store.hiddenProperties
  hasValue : ManageableHasValue w₁
  level : w₁.logger.level = w₂.logger.level
  mem : w₁.mem = w₂.mem
  out : w₁.logger.out = w₂.logger.out ↔ shownDefaults w₁.history = shownDefaults w₂.history

variable {w₁ w₂ : World W B}

theorem Twin.shouldLog (h : Twin H w₁ w₂) (lvl : Level) :
    w₁.logger.shouldLog lvl = w₂.logger.shouldLog lvl := by
  unfold Logger.shouldLog; rw [h.level]

theorem World.log_out (w : World W B) (lvl : Level) (t : Str) :
    (w.log lvl t).logger.out =
      if w.logger.shouldLog lvl then w.logger.out ++ [⟨lvl, t⟩] else w.logger.out := by
  unfold World.log Logger.log
  simp only
  split <;> rfl

theorem Twin.log (h : Twin H w₁ w₂) (lvl : Level) (t : Str) : Twin H (w₁.log lvl t) (w₂.log lvl t) := by
  refine { h with level := by simpa using h.level, out := ?_ }
  rw [World.log_out, World.log_out, h.shouldLog, World.log_history, World.log_history, ← h.out]
  split
  · exact List.append_left_inj _
  · exact Iff.rfl

theorem Twin.note (h : Twin H w₁ w₂) (e₁ e₂ : Event) (he : shownDefaults [e₁] = shownDefaults [e₂]) :
    Twin H (w₁.note e₁) (w₂.note e₂) := by
  refine { h with out := ?_ }
  rw [World.note_history, World.note_history, shownDefaults_append, shownDefaults_append, he,
    List.append_left_inj]
  exact h.out

theorem readingText_inj (env : Option Str) (th hid : Bool) {d₁ d₂ : Option Str} (hd : d₁.isSome = d₂.isSome) :
    readingText env th hid d₁ = readingText env th hid d₂ ↔ d₁ = d₂ := by
  unfold readingText
  rw [List.append_right_inj]
  cases d₁ <;> cases d₂ <;> simp_all

/-- The record of a read and the message that prints its default. -/
theorem Twin.reading (h : Twin H w₁ w₂) (env : Str) (name : Str) (th hid : Bool) {d₁ d₂ : Option Str}
    (hd : d₁.isSome = d₂.isSome) (hh : hid = true ∨ d₁ = d₂) :
    Twin H ((w₁.note (.reading name hid d₁ (w₁.logger.shouldLog .debug))).log .debug
        (readingText (some env) th hid d₁))
      ((w₂.note (.reading name hid d₂ (w₂.logger.shouldLog .debug))).log .debug
        (readingText (some env) th hid d₂)) := by
  rcases hh with rfl | rfl
  · have hlvl := h.shouldLog .debug
    refine { h with level := by simpa using h.level, out := ?_ }
    rw [World.log_out, World.log_out, World.log_history, World.log_history]
    simp only [World.note_logger, World.note_history, shownDefaults_append, ← hlvl]
    by_cases hon : w₁.logger.shouldLog .debug = true
    · -- the message tells the defaults apart
      have htext := readingText_inj (some env) th true hd
      simp only [hon, if_true]
      refine ⟨fun heq => ?_, fun heq => ?_⟩
      · obtain ⟨ho, hm⟩ := List.append_inj' heq rfl
        have hm : readingText (some env) th true d₁ = readingText (some env) th true d₂ := by simpa using hm
        rw [h.out.mp ho, htext.mp hm]
      · obtain ⟨hs, hm⟩ := List.append_inj' heq rfl
        have hm : d₁ = d₂ := by simpa [shownDefaults] using hm
        rw [h.out.mpr hs, hm]
    · simpa [hon, shownDefaults] using h.out
  · rw [h.shouldLog]
    exact (h.note _ _ rfl).log _ _

theorem Twin.lookup_cases (h : Twin H w₁ w₂) (n : Str) :
    w₁.store.propertyValues.lookup n = none ∧ w₂.store.propertyValues.lookup n = none ∨
      ∃ T x₁ x₂, w₁.store.propertyValues.lookup n = some ⟨T, x₁⟩ ∧
        w₂.store.propertyValues.lookup n = some ⟨T, x₂⟩ ∧
          (n ∈ H ∧ n ∈ w₁.store.hiddenProperties ∨ x₁ = x₂) := by
  have ht := h.types n
  cases h₁ : w₁.store.propertyValues.lookup n with
  | none =>
    rw [h₁] at ht
    exact .inl ⟨rfl, by simpa using ht.symm⟩
  | some v₁ =>
    rw [h₁] at ht
    obtain ⟨v₂, h₂, htype⟩ := Option.map_eq_some_iff.mp ht.symm
    obtain ⟨T, x₁⟩ := v₁
    obtain ⟨T', x₂⟩ := v₂
    cases htype
    refine .inr ⟨T, x₁, x₂, rfl, h₂, ?_⟩
    by_cases hn : n ∈ H
    · exact .inl ⟨hn, h.hides n hn (Finmap.mem_iff.mpr ⟨_, h₁⟩)⟩
    · have := h.values n hn
      rw [h₁, h₂] at this
      cases this
      exact .inr rfl

theorem Twin.forOutput (h : Twin H w₁ w₂) {n : Str} {P : PropType} {x₁ x₂ : P.Val}
    (hx : n ∈ H ∧ n ∈ w₁.store.hiddenProperties ∨ x₁ = x₂) :
    propertyValueForOutput w₁.store P n x₁ = propertyValueForOutput w₂.store P n x₂ := by
  unfold propertyValueForOutput
  rw [← h.hidden]
  rcases hx with ⟨-, hx⟩ | rfl
  · rw [if_pos hx, if_pos hx]
  · rfl

theorem Twin.mem_values (h : Twin H w₁ w₂) (n : Str) :
    n ∈ w₁.store.propertyValues ↔ n ∈ w₂.store.propertyValues := by
  rw [Finmap.mem_iff, Finmap.mem_iff]
  rcases h.lookup_cases n with ⟨h₁, h₂⟩ | ⟨T, x₁, x₂, h₁, h₂, -⟩ <;> simp [h₁, h₂]

/-! ## Operations that run no listener -/

variable (H) in
/-- Both ended alike. -/
def ResTwin {α : Type} (r₁ r₂ : Res W B α) : Prop := Twin H r₁.1 r₂.1 ∧ r₁.2 = r₂.2

theorem ResTwin.wrap {α : Type} {r₁ r₂ : Res W B α} (h : ResTwin H r₁ r₂) (f : α → Ret) :
    ResTwin H (Res.wrap f r₁) (Res.wrap f r₂) := ⟨h.1, by rw [Res.wrap, Res.wrap, h.2]⟩

theorem getConfigPropertyValue_twin (h : Twin H w₁ w₂) (P : PropType) (name : Str) :
    Twin H (getConfigPropertyValue P name w₁).1 (getConfigPropertyValue P name w₂).1 ∧
      (name ∉ H → (getConfigPropertyValue P name w₁).2 = (getConfigPropertyValue P name w₂).2) := by
  unfold getConfigPropertyValue
  rcases h.lookup_cases name with ⟨h₁, h₂⟩ | ⟨T, x₁, x₂, h₁, h₂, hx⟩ <;> rw [h₁, h₂]
  · exact ⟨h.log _ _, fun _ => rfl⟩
  · by_cases hT : T = P
    · subst hT
      simp only [Var.strictGet_mk, ← h.shouldLog, h.forOutput hx]
      refine ⟨?_, fun hn => ?_⟩
      · split
        · exact h.log _ _
        · exact h
      · rcases hx with ⟨hH, -⟩ | rfl
        · exact absurd hH hn
        · rfl
    · have hbad : ∀ x, (Var.mk T x).strictGet P = none := fun _ => Var.strictGet_eq_none.mpr hT
      simp only [hbad]
      exact ⟨h.log _ _, fun _ => trivial⟩

theorem getConfigPropertyValueForOutput_twin (h : Twin H w₁ w₂) (name : Str) :
    ResTwin H (getConfigPropertyValueForOutput name w₁) (getConfigPropertyValueForOutput name w₂) := by
  unfold getConfigPropertyValueForOutput
  rcases h.lookup_cases name with ⟨h₁, h₂⟩ | ⟨T, x₁, x₂, h₁, h₂, hx⟩ <;> rw [h₁, h₂]
  · exact ⟨h.log _ _, rfl⟩
  · exact ⟨h, congrArg Except.ok (h.forOutput hx)⟩

theorem getConfigPropertyTypeForOutput_twin (h : Twin H w₁ w₂) (name : Str) :
    ResTwin H (getConfigPropertyTypeForOutput name w₁) (getConfigPropertyTypeForOutput name w₂) := by
  unfold getConfigPropertyTypeForOutput configPropertyType
  rcases h.lookup_cases name with ⟨h₁, h₂⟩ | ⟨T, x₁, x₂, h₁, h₂, hx⟩ <;> rw [h₁, h₂]
  · exact ⟨h.log _ _, rfl⟩
  · exact ⟨h, rfl⟩

theorem manageableConfigPropertyDescription_twin (h : Twin H w₁ w₂) (name : Str) :
    ResTwin H (manageableConfigPropertyDescription name w₁)
      (manageableConfigPropertyDescription name w₂) := by
  unfold manageableConfigPropertyDescription
  rw [← h.descriptions]
  split
  · exact ⟨h.log _ _, rfl⟩
  · exact ⟨h, rfl⟩

theorem addPropertyListener_twin (h : Twin H w₁ w₂) (name : Str) (l : Listener B) :
    ResTwin H (addPropertyListener name l w₁) (addPropertyListener name l w₂) := by
  have hsteps := addPropertyListener_steps name l w₁
  unfold addPropertyListener at hsteps ⊢
  rw [← h.manageable]
  split
  · exact ⟨h.log _ _, rfl⟩
  · next ls hl =>
    simp only [hl] at hsteps
    refine ⟨{ h with manageable := ?_, hasValue := (hsteps.grows h.hasValue).2 }, rfl⟩
    exact congrArg (Finmap.insert name (ls ++ [l])) h.manageable

/-! ## Adding -/

theorem logValueRead_twin (h : Twin H w₁ w₂) {hid : Bool} {v₁ v₂ : Str} (hv : hid = true ∨ v₁ = v₂) :
    Twin H (logValueRead hid v₁ w₁) (logValueRead hid v₂ w₂) := by
  unfold logValueRead
  rw [h.shouldLog]
  split
  · rcases hv with rfl | rfl
    · exact h.log _ _
    · split <;> exact h.log _ _
  · exact h

theorem readSource_twin {P : PropType} {env₁ env₂ : Env} (he : EnvTwin H env₁ env₂) (h : Twin H w₁ w₂)
    (name : Str) {d₁ d₂ : Option P.Val} (hd : d₁.isSome = d₂.isSome) {hid : Bool}
    (hh : hid = true ∨ d₁ = d₂ ∧ sourceText env₁ name d₁ = sourceText env₂ name d₂) :
    Twin H (readSource env₁ name d₁ hid w₁) (readSource env₂ name d₂ hid w₂) := by
  have hdt : (defaultText d₁).isSome = (defaultText d₂).isSome := by
    simpa [defaultText, Option.isSome_map] using hd
  have hnone : d₁.isNone = d₂.isNone := by cases d₁ <;> cases d₂ <;> simp_all
  have hread := h.reading (cStr (ENV_VAR_PREFIX ++ name)) name d₁.isNone hid hdt
    (hh.imp_right fun hs => by rw [hs.1])
  have hpres := he.present (cStr (ENV_VAR_PREFIX ++ name))
  unfold readSource getFromEnvC
  simp only [← hnone]
  unfold sourceText at hh
  cases h₁ : env₁.getenv (cStr (ENV_VAR_PREFIX ++ name)) with
  | some v₁ =>
    obtain ⟨v₂, h₂⟩ := Option.isSome_iff_exists.mp (hpres.symm.trans (by rw [h₁]; rfl))
    simp only [h₁, h₂] at hh ⊢
    exact logValueRead_twin hread (hh.imp_right fun hs => by simpa using hs.2)
  | none =>
    have h₂ : env₂.getenv (cStr (ENV_VAR_PREFIX ++ name)) = none := by
      rw [h₁] at hpres
      simpa using hpres.symm
    simp only [h₁, h₂] at hh ⊢
    split
    · exact hread.log _ _
    · exact logValueRead_twin (hread.log _ _) (hh.imp_right fun hs => by rw [hs.1])

theorem addProperty_twin (h : Twin H w₁ w₂) {name : Str} (hf : name ∉ w₁.store.propertyValues) {v₁ v₂ : Var}
    (ht : v₁.type = v₂.type) {hid : Bool} (hh : name ∈ H ∧ hid = true ∨ name ∉ H ∧ v₁ = v₂) (m : Bool)
    (desc : Str) :
    Twin H ((w₁.withStore (w₁.store.addProperty name v₁ hid m desc)).note (.added name v₁ hid m))
      ((w₂.withStore (w₂.store.addProperty name v₂ hid m desc)).note (.added name v₂ hid m)) := by
  have hstore : Twin H (w₁.withStore (w₁.store.addProperty name v₁ hid m desc))
      (w₂.withStore (w₂.store.addProperty name v₂ hid m desc)) := by
    refine { h with types := fun n => ?_, values := fun n hn => ?_, hides := fun n hn hmem => ?_,
                    descriptions := ?_, manageable := ?_, hidden := ?_, hasValue := ?_ }
    · by_cases hnn : n = name
      · subst hnn; simp [Store.addProperty, ht]
      · simp only [World.withStore_store, Store.addProperty, Finmap.lookup_insert_of_ne _ hnn]
        exact h.types n
    · by_cases hnn : n = name
      · subst hnn
        rcases hh with ⟨hH, -⟩ | ⟨-, rfl⟩
        · exact absurd hH hn
        · simp [Store.addProperty]
      · simp only [World.withStore_store, Store.addProperty, Finmap.lookup_insert_of_ne _ hnn]
        exact h.values n hn
    · simp only [World.withStore_store, Store.addProperty] at hmem ⊢
      rcases Finmap.mem_insert.mp hmem with rfl | hold
      · rcases hh with ⟨-, rfl⟩ | ⟨hH, -⟩
        · simp
        · exact absurd hn hH
      · split
        · exact Finset.mem_insert_of_mem (h.hides n hn hold)
        · exact h.hides n hn hold
    · exact congrArg (Finmap.insert name desc) h.descriptions
    · simp only [World.withStore_store, Store.addProperty, h.manageable]
    · simp only [World.withStore_store, Store.addProperty, h.hidden]
    · exact (Prim.added w₁ name v₁ hid m desc hf).manageableHasValue h.hasValue
  exact hstore.note _ _ rfl

/-- A read that leads to a success says that a property of `H` is hidden. -/
theorem addConfigProperty_hides {env : Env} {P : PropType} {name : Str} {d : Option P.Val} {hid m : Bool}
    {desc : Str} {w : World W B} (hf : name ∉ w.store.propertyValues) {text : Str}
    (hs : sourceText env name d = some text) (hn : name ∈ H)
    (hp : Proper H (addConfigProperty env P name d hid m desc w).1.history) :
    hid = true ∧ ∃ v, strToValue P text = .ok v := by
  rw [addConfigProperty_fresh hf, hs] at hp
  simp only at hp
  cases hv : strToValue P text with
  | error e => rw [hv] at hp; exact absurd (by simp) (hp.parsed name)
  | ok v => rw [hv] at hp; exact ⟨hp.hidden name ⟨P, v⟩ hid m (by simp) hn, v, rfl⟩

theorem sourceText_isSome {P : PropType} {env₁ env₂ : Env} (he : EnvTwin H env₁ env₂) (name : Str)
    {d₁ d₂ : Option P.Val} (hd : d₁.isSome = d₂.isSome) :
    (sourceText env₁ name d₁).isSome = (sourceText env₂ name d₂).isSome := by
  unfold sourceText defaultText
  rw [Option.isSome_or, Option.isSome_or, he.present, Option.isSome_map, Option.isSome_map, hd]

theorem addConfigProperty_twin {env₁ env₂ : Env} (he : EnvTwin H env₁ env₂) (h : Twin H w₁ w₂) (P : PropType)
    (name : Str) {d₁ d₂ : Option P.Val} (hd : d₁.isSome = d₂.isSome) (hid m : Bool) (desc : Str)
    (hsame : name ∈ H ∨ d₁ = d₂)
    (hp₁ : Proper H (addConfigProperty env₁ P name d₁ hid m desc w₁).1.history)
    (hp₂ : Proper H (addConfigProperty env₂ P name d₂ hid m desc w₂).1.history) :
    ResTwin H (addConfigProperty env₁ P name d₁ hid m desc w₁)
      (addConfigProperty env₂ P name d₂ hid m desc w₂) := by
  by_cases hf : name ∈ w₁.store.propertyValues
  · unfold addConfigProperty
    rw [if_pos hf, if_pos ((h.mem_values name).mp hf)]
    exact ⟨h.log _ _, rfl⟩
  have hf₂ : name ∉ w₂.store.propertyValues := fun hm => hf ((h.mem_values name).mpr hm)
  have hpres := sourceText_isSome he name hd
  by_cases hn : name ∈ H
  · cases h₁ : sourceText env₁ name d₁ with
    | none =>
      have h₂ : sourceText env₂ name d₂ = none := by rw [h₁] at hpres; simpa using hpres.symm
      have hnone : d₁ = none ∧ d₂ = none := by
        cases d₁ <;> cases d₂ <;> simp_all [sourceText, defaultText]
      rw [addConfigProperty_fresh hf, addConfigProperty_fresh hf₂, h₁, h₂]
      exact ⟨readSource_twin he h name hd (.inr ⟨hnone.1.trans hnone.2.symm, h₁.trans h₂.symm⟩), rfl⟩
    | some t₁ =>
      obtain ⟨t₂, h₂⟩ := Option.isSome_iff_exists.mp (hpres.symm.trans (by rw [h₁]; rfl))
      obtain ⟨rfl, v₁, hv₁⟩ := addConfigProperty_hides hf h₁ hn hp₁
      obtain ⟨-, v₂, hv₂⟩ := addConfigProperty_hides hf₂ h₂ hn hp₂
      rw [addConfigProperty_fresh hf, addConfigProperty_fresh hf₂, h₁, h₂]
      simp only [hv₁, hv₂]
      have htype : (Var.mk P v₁).type = (Var.mk P v₂).type := rfl
      exact ⟨addProperty_twin (readSource_twin he h name hd (.inl rfl)) (by simpa using hf) htype
        (.inl ⟨hn, rfl⟩) m desc, rfl⟩
  · have hdd := hsame.resolve_left hn
    subst hdd
    have hsrc : sourceText env₁ name d₁ = sourceText env₂ name d₁ := by
      unfold sourceText; rw [he.same name hn]
    have hread : Twin H (readSource env₁ name d₁ hid w₁) (readSource env₂ name d₁ hid w₂) :=
      readSource_twin he h name hd (.inr ⟨rfl, hsrc⟩)
    rw [addConfigProperty_fresh hf, addConfigProperty_fresh hf₂, ← hsrc]
    split
    · exact ⟨hread, rfl⟩
    · split
      · exact ⟨hread.note _ _ rfl, rfl⟩
      · exact ⟨addProperty_twin hread (by simpa using hf) rfl (.inr ⟨hn, rfl⟩) m desc, rfl⟩

theorem addConfigPropertyCstr_twin {env₁ env₂ : Env} (he : EnvTwin H env₁ env₂) (h : Twin H w₁ w₂)
    (P : PropType) (name d₁ d₂ : Str) (hid m : Bool) (desc : Str) (hsame : name ∈ H ∨ d₁ = d₂)
    (hp₁ : Proper H (addConfigPropertyCstr env₁ P name d₁ hid m desc w₁).1.history)
    (hp₂ : Proper H (addConfigPropertyCstr env₂ P name d₂ hid m desc w₂).1.history) :
    ResTwin H (addConfigPropertyCstr env₁ P name d₁ hid m desc w₁)
      (addConfigPropertyCstr env₂ P name d₂ hid m desc w₂) := by
  unfold addConfigPropertyCstr at *
  cases hv₁ : strToValue P (cStr d₁) with
  | error e =>
    rw [hv₁] at hp₁
    exact absurd (by simp) (hp₁.parsed name)
  | ok v₁ =>
    cases hv₂ : strToValue P (cStr d₂) with
    | error e =>
      rw [hv₂] at hp₂
      exact absurd (by simp) (hp₂.parsed name)
    | ok v₂ =>
      simp only [hv₁] at hp₁
      simp only [hv₂] at hp₂
      have hsome : (some v₁).isSome = (some v₂).isSome := rfl
      refine addConfigProperty_twin he h P name hsome hid m desc (hsame.imp_right fun hd => ?_) hp₁ hp₂
      subst hd
      rw [hv₁] at hv₂
      cases hv₂
      rfl

/-! ## Setting -/

theorem setValue_twin (h : Twin H w₁ w₂) {name : Str} (hm : name ∈ w₁.store.propertyValues) {v₁ v₂ : Var}
    (ht : v₁.type = v₂.type) (hh : name ∈ H ∨ v₁ = v₂) :
    Twin H (w₁.withStore (w₁.store.setValue name v₁)) (w₂.withStore (w₂.store.setValue name v₂)) := by
  refine { h with types := fun n => ?_, values := fun n hn => ?_, hides := fun n hn hmem => ?_,
                  hasValue := fun n hn => Finmap.mem_insert.mpr (.inr (h.hasValue n hn)) }
  · by_cases hnn : n = name
    · subst hnn; simp [Store.setValue, ht]
    · simp only [World.withStore_store, Store.setValue, Finmap.lookup_insert_of_ne _ hnn]
      exact h.types n
  · by_cases hnn : n = name
    · subst hnn
      rcases hh with hH | rfl
      · exact absurd hH hn
      · simp [Store.setValue]
    · simp only [World.withStore_store, Store.setValue, Finmap.lookup_insert_of_ne _ hnn]
      exact h.values n hn
  · rcases Finmap.mem_insert.mp hmem with rfl | hold
    · exact h.hides n hn hm
    · exact h.hides n hn hold

theorem storedWorld_twin (h : Twin H w₁ w₂) {P : PropType} {name : Str} {x₁ x₂ v₁ v₂ : P.Val}
    (hm : name ∈ w₁.store.propertyValues) (hx : name ∈ H ∧ name ∈ w₁.store.hiddenProperties ∨ x₁ = x₂)
    (hv : name ∈ H ∨ v₁ = v₂) : Twin H (storedWorld P name x₁ v₁ w₁) (storedWorld P name x₂ v₂ w₂) := by
  have htype : (Var.mk P v₁).type = (Var.mk P v₂).type := rfl
  have hnew : name ∈ H ∧ name ∈ w₁.store.hiddenProperties ∨ v₁ = v₂ :=
    hv.imp_left fun hn => ⟨hn, h.hides name hn hm⟩
  unfold storedWorld
  rw [← h.forOutput hx]
  have hcurrent := h.log .trace ("config::set_config_property_value(): current value: ".toList ++ name ++
    " -> ".toList ++ propertyValueForOutput w₁.store P name x₁)
  have hset := setValue_twin hcurrent hm htype (hv.imp_right fun hv => by rw [hv])
  have hnote := hset.note (.stored name ⟨P, v₁⟩) (.stored name ⟨P, v₂⟩) rfl
  simp only
  rw [← hnote.forOutput hnew]
  exact hnote.log _ _

theorem storeNewValue_twin (h : Twin H w₁ w₂) (P : PropType) (name : Str) {v₁ v₂ : P.Val}
    (hv : name ∈ H ∨ v₁ = v₂) : ResTwin H (storeNewValue P name v₁ w₁) (storeNewValue P name v₂ w₂) := by
  by_cases hm : name ∈ w₁.store.manageableProperties
  · have hval := h.hasValue name hm
    rcases h.lookup_cases name with ⟨h₁, -⟩ | ⟨T, x₁, x₂, h₁, h₂, hx⟩
    · exact absurd hval (Finmap.lookup_eq_none.mp h₁)
    · rw [storeNewValue_eq hm h₁, storeNewValue_eq (h.manageable ▸ hm) h₂]
      by_cases hT : T = P
      · subst hT
        simp only [Var.strictGet_mk]
        exact ⟨storedWorld_twin h hval hx hv, rfl⟩
      · have hbad : ∀ x, (Var.mk T x).strictGet P = none := fun _ => Var.strictGet_eq_none.mpr hT
        simp only [hbad]
        exact ⟨h.log _ _, rfl⟩
  · have hnone := Finmap.lookup_eq_none.mpr hm
    unfold storeNewValue
    rw [← h.manageable, hnone]
    exact ⟨h.log _ _, rfl⟩

/-! ## Runs -/

variable (H) in
/-- Bodies that stay in step, as long as both runs are proper. -/
def RunnerTwin (run₁ run₂ : Runner W B) : Prop :=
  ∀ ⦃b w₁ w₂ r₁ r₂⦄, Twin H w₁ w₂ → run₁ b w₁ = some r₁ → run₂ b w₂ = some r₂ →
    Proper H r₁.1.history → Proper H r₂.1.history → ResTwin H r₁ r₂

theorem notifyOne_twin {run₁ run₂ : Runner W B} (hr : RunnerTwin H run₁ run₂) {name : Str} {rethrow : Bool}
    {l : Listener B} {d : Str} (h : Twin H w₁ w₂) {s₁ s₂ : World W B × Str}
    (h₁ : notifyOne run₁ name rethrow l (w₁, d) = some s₁)
    (h₂ : notifyOne run₂ name rethrow l (w₂, d) = some s₂)
    (hp₁ : Proper H s₁.1.history) (hp₂ : Proper H s₂.1.history) : Twin H s₁.1 s₂.1 ∧ s₁.2 = s₂.2 := by
  simp only [notifyOne] at h₁ h₂
  split at h₁
  · cases h₁
  · next w₁' r₁ hw₁ =>
    split at h₂
    · cases h₂
    · next w₂' r₂ hw₂ =>
      cases h₁
      cases h₂
      obtain ⟨hw, hrr⟩ := hr (h.log _ _) hw₁ hw₂ hp₁ hp₂
      simp only at hw hrr
      subst hrr
      exact ⟨hw.log _ _, rfl⟩

theorem notify_twin {run₁ run₂ : Runner W B} (hr : RunnerTwin H run₁ run₂) (hs₁ : run₁.Stepping)
    (hs₂ : run₂.Stepping) {name : Str} {rethrow : Bool} :
    ∀ {n i : Nat} {w₁ w₂ : World W B} {d : Str} {ran₁ ran₂ s₁ s₂}, Twin H w₁ w₂ →
      notify run₁ name rethrow n i (w₁, d) ran₁ = some s₁ →
      notify run₂ name rethrow n i (w₂, d) ran₂ = some s₂ →
      Proper H s₁.1.1.history → Proper H s₂.1.1.history → Twin H s₁.1.1 s₂.1.1 ∧ s₁.1.2 = s₂.1.2 := by
  intro n
  induction n with
  | zero => intro i w₁ w₂ d ran₁ ran₂ s₁ s₂ _ h₁; cases h₁
  | succ n ih =>
    intro i w₁ w₂ d ran₁ ran₂ s₁ s₂ h h₁ h₂ hp₁ hp₂
    have hlist : w₁.store.listeners name = w₂.store.listeners name := by
      unfold Store.listeners; rw [h.manageable]
    simp only [notify, hlist] at h₁ h₂
    cases hl : (w₂.store.listeners name)[i]? with
    | none =>
      simp only [hl] at h₁ h₂
      cases h₁
      cases h₂
      exact ⟨h, rfl⟩
    | some l =>
      simp only [hl] at h₁ h₂
      split at h₁
      · cases h₁
      · next t₁ ht₁ =>
        split at h₂
        · cases h₂
        · next t₂ ht₂ =>
          have hq₁ := hp₁.of_steps (notify_steps hs₁ h₁)
          have hq₂ := hp₂.of_steps (notify_steps hs₂ h₂)
          obtain ⟨ht, hd⟩ := notifyOne_twin hr h ht₁ ht₂ hq₁ hq₂
          obtain ⟨t₁w, t₁d⟩ := t₁
          obtain ⟨t₂w, t₂d⟩ := t₂
          simp only at ht hd
          subst hd
          exact ih ht h₁ h₂ hp₁ hp₂

theorem setConfigPropertyValue_twin {run₁ run₂ : Runner W B} (hr : RunnerTwin H run₁ run₂)
    (hs₁ : run₁.Stepping) (hs₂ : run₂.Stepping) {n : Nat} {P : PropType} {name : Str} {v₁ v₂ : P.Val}
    (hv : name ∈ H ∨ v₁ = v₂) {rethrow : Bool} (h : Twin H w₁ w₂) {q₁ q₂}
    (h₁ : setConfigPropertyValue run₁ n P name v₁ rethrow w₁ = some q₁)
    (h₂ : setConfigPropertyValue run₂ n P name v₂ rethrow w₂ = some q₂)
    (hp₁ : Proper H q₁.1.1.history) (hp₂ : Proper H q₂.1.1.history) : ResTwin H q₁.1 q₂.1 := by
  obtain ⟨hw, hres⟩ := storeNewValue_twin h P name hv
  unfold setConfigPropertyValue at h₁ h₂
  generalize storeNewValue P name v₁ w₁ = p₁ at hw hres h₁
  generalize storeNewValue P name v₂ w₂ = p₂ at hw hres h₂
  obtain ⟨w₁', r₁⟩ := p₁
  obtain ⟨w₂', r₂⟩ := p₂
  simp only at hw hres
  subst hres
  cases r₁ with
  | error e =>
    cases h₁
    cases h₂
    exact ⟨hw, rfl⟩
  | ok u =>
    simp only at h₁ h₂
    split at h₁
    · cases h₁
    · next hn₁ =>
      split at h₂
      · cases h₂
      · next hn₂ =>
        cases h₁
        cases h₂
        obtain ⟨ht, hd⟩ := notify_twin hr hs₁ hs₂ hw hn₁ hn₂ hp₁ hp₂
        exact ⟨ht, congrArg (rethrowResult name rethrow) hd⟩

/-- **One operation**, run on twin worlds, leaves twin worlds, and gives the
same unless it reads a value that may differ. -/
theorem exec_twin {env₁ env₂ : Env} (he : EnvTwin H env₁ env₂) {run₁ run₂ : Runner W B}
    (hr : RunnerTwin H run₁ run₂) (hs₁ : run₁.Stepping) (hs₂ : run₂.Stepping) {n : Nat} {op₁ op₂ : Op B}
    (hop : OpTwin H op₁ op₂) (h : Twin H w₁ w₂) {r₁ r₂ : Res W B Ret} (h₁ : op₁.exec env₁ run₁ n w₁ = some r₁)
    (h₂ : op₂.exec env₂ run₂ n w₂ = some r₂) (hp₁ : Proper H r₁.1.history) (hp₂ : Proper H r₂.1.history) :
    Twin H r₁.1 r₂.1 ∧ (¬ op₁.readsValue H → r₁.2 = r₂.2) := by
  have hres : ∀ {r r' : Res W B Ret}, ResTwin H r r' → some r = some r₁ → some r' = some r₂ →
      Twin H r₁.1 r₂.1 ∧ (¬ op₁.readsValue H → r₁.2 = r₂.2) := by
    intro r r' hrr hr₁ hr₂
    cases hr₁
    cases hr₂
    exact ⟨hrr.1, fun _ => hrr.2⟩
  cases hop with
  | same =>
    cases op₁ with
    | get P name =>
      cases h₁
      cases h₂
      obtain ⟨hw, hv⟩ := getConfigPropertyValue_twin h P name
      exact ⟨hw, fun hn => congrArg (Except.map fun x => Ret.value ⟨P, x⟩) (hv hn)⟩
    | set P name v rethrow =>
      obtain ⟨q₁, hq₁, rfl⟩ := Option.map_eq_some_iff.mp h₁
      obtain ⟨q₂, hq₂, rfl⟩ := Option.map_eq_some_iff.mp h₂
      exact hres ((setConfigPropertyValue_twin hr hs₁ hs₂ (.inr rfl) h hq₁ hq₂ hp₁ hp₂).wrap _) rfl rfl
    | add P name d hid m desc =>
      cases h₁
      cases h₂
      exact hres ((addConfigProperty_twin he h P name rfl hid m desc (.inr rfl) hp₁ hp₂).wrap _) rfl rfl
    | addCstr P name d hid m desc =>
      cases h₁
      cases h₂
      exact hres ((addConfigPropertyCstr_twin he h P name d d hid m desc (.inr rfl) hp₁ hp₂).wrap _) rfl rfl
    | addListener name l => exact hres ((addPropertyListener_twin h name l).wrap _) h₁ h₂
    | manageableNames =>
      have hn : manageableConfigPropertyNames w₁ = manageableConfigPropertyNames w₂ := by
        unfold manageableConfigPropertyNames; rw [h.manageable]
      exact hres ⟨h, congrArg (fun ns => Except.ok (Ret.names ns)) hn⟩ h₁ h₂
    | description name => exact hres ((manageableConfigPropertyDescription_twin h name).wrap _) h₁ h₂
    | valueForOutput name => exact hres ((getConfigPropertyValueForOutput_twin h name).wrap _) h₁ h₂
    | typeForOutput name => exact hres ((getConfigPropertyTypeForOutput_twin h name).wrap _) h₁ h₂
  | set P name v₁ v₂ rethrow hn =>
    obtain ⟨q₁, hq₁, rfl⟩ := Option.map_eq_some_iff.mp h₁
    obtain ⟨q₂, hq₂, rfl⟩ := Option.map_eq_some_iff.mp h₂
    exact hres ((setConfigPropertyValue_twin hr hs₁ hs₂ (.inl hn) h hq₁ hq₂ hp₁ hp₂).wrap _) rfl rfl
  | add P name d₁ d₂ hid m desc hn hd =>
    cases h₁
    cases h₂
    exact hres ((addConfigProperty_twin he h P name hd hid m desc (.inl hn) hp₁ hp₂).wrap _) rfl rfl
  | addCstr P name d₁ d₂ hid m desc hn =>
    cases h₁
    cases h₂
    exact hres ((addConfigPropertyCstr_twin he h P name d₁ d₂ hid m desc (.inl hn) hp₁ hp₂).wrap _) rfl rfl

theorem runListener_twin {env₁ env₂ : Env} (he : EnvTwin H env₁ env₂) {code₁ code₂ : B → Instr W B}
    (hc : ∀ b, InstrTwin H (code₁ b) (code₂ b)) :
    ∀ n, RunnerTwin H (runListener env₁ code₁ n) (runListener env₂ code₂ n) := by
  intro n
  induction n with
  | zero => intro b w₁ w₂ r₁ r₂ _ h₁; cases h₁
  | succ n ih =>
    intro b w₁ w₂ r₁ r₂ h h₁ h₂ hp₁ hp₂
    rw [runListener] at h₁ h₂
    have hb := hc b
    generalize code₁ b = i₁ at hb h₁
    generalize code₂ b = i₂ at hb h₂
    cases hb with
    | same _ hnc =>
      cases i₁ with
      | ret => cases h₁; cases h₂; exact ⟨h, rfl⟩
      | throw e => cases h₁; cases h₂; exact ⟨h, rfl⟩
      | step f =>
        simp only [← h.mem] at h₁ h₂
        refine ih ?_ h₁ h₂ hp₁ hp₂
        exact { h with mem := rfl }
      | log lvl text next => exact ih (h.log lvl text) h₁ h₂ hp₁ hp₂
      | getLevel k =>
        simp only [← h.level] at h₁ h₂
        exact ih h h₁ h₂ hp₁ hp₂
      | setLevel lvl next =>
        refine ih ?_ h₁ h₂ hp₁ hp₂
        exact { h with level := rfl }
      | call op k => exact absurd rfl (hnc op k)
    | call k hop hread =>
      simp only at h₁ h₂
      split at h₁
      · cases h₁
      · next v₁ q₁ hq₁ =>
        split at h₂
        · cases h₂
        · next v₂ q₂ hq₂ =>
          have hp₁' := hp₁.of_steps (runListener_steps env₁ code₁ n _ _ _ _ h₁)
          have hp₂' := hp₂.of_steps (runListener_steps env₂ code₂ n _ _ _ _ h₂)
          obtain ⟨hw, hq⟩ := exec_twin he ih (runListener_steps env₁ code₁ n) (runListener_steps env₂ code₂ n)
            hop h hq₁ hq₂ hp₁' hp₂'
          have hq := hq hread
          simp only at hw hq
          subst hq
          exact ih hw h₁ h₂ hp₁ hp₂

/-- What the `get_config_property_value_for_output` calls returned. -/
def outputs : List (Op B) → List (Except Thrown Ret) → List (Except Thrown Ret)
  | .valueForOutput _ :: ops, r :: rs => r :: outputs ops rs
  | _ :: ops, _ :: rs => outputs ops rs
  | _, _ => []

theorem outputs_cons {op₁ op₂ : Op B} (hop : OpTwin H op₁ op₂) {r₁ r₂ : Except Thrown Ret}
    (hr : ¬ op₁.readsValue H → r₁ = r₂) {ops₁ ops₂ : List (Op B)} {rs₁ rs₂ : List (Except Thrown Ret)}
    (h : outputs ops₁ rs₁ = outputs ops₂ rs₂) :
    outputs (op₁ :: ops₁) (r₁ :: rs₁) = outputs (op₂ :: ops₂) (r₂ :: rs₂) := by
  cases hop with
  | same =>
    cases op₁ with
    | valueForOutput name => rw [outputs, outputs, h, hr id]
    | _ => exact h
  | _ => exact h

theorem calls_twin {env₁ env₂ : Env} (he : EnvTwin H env₁ env₂) {code₁ code₂ : B → Instr W B}
    (hc : ∀ b, InstrTwin H (code₁ b) (code₂ b)) {n : Nat} {ops₁ ops₂ : List (Op B)}
    (hops : List.Forall₂ (OpTwin H) ops₁ ops₂) :
    ∀ {w₁ w₂ : World W B} {p₁ p₂}, Twin H w₁ w₂ → calls env₁ code₁ n ops₁ w₁ = some p₁ →
      calls env₂ code₂ n ops₂ w₂ = some p₂ → Proper H p₁.1.history → Proper H p₂.1.history →
      Twin H p₁.1 p₂.1 ∧ outputs ops₁ p₁.2 = outputs ops₂ p₂.2 := by
  induction hops with
  | nil => intro w₁ w₂ p₁ p₂ h h₁ h₂ _ _; cases h₁; cases h₂; exact ⟨h, rfl⟩
  | cons hop _ ih =>
    intro w₁ w₂ p₁ p₂ h h₁ h₂ hp₁ hp₂
    simp only [calls] at h₁ h₂
    split at h₁
    · cases h₁
    · next v₁ q₁ hq₁ =>
      split at h₂
      · cases h₂
      · next v₂ q₂ hq₂ =>
        obtain ⟨t₁, ht₁, rfl⟩ := Option.map_eq_some_iff.mp h₁
        obtain ⟨t₂, ht₂, rfl⟩ := Option.map_eq_some_iff.mp h₂
        obtain ⟨hw, hq⟩ := exec_twin he (runListener_twin he hc n) (runListener_steps env₁ code₁ n)
          (runListener_steps env₂ code₂ n) hop h hq₁ hq₂ (hp₁.of_steps (calls_steps ht₁))
          (hp₂.of_steps (calls_steps ht₂))
        obtain ⟨ht, ho⟩ := ih hw ht₁ ht₂ hp₁ hp₂
        exact ⟨ht, outputs_cons hop hq ho⟩

theorem Twin.empty (lvl : Level) (mem : W) :
    Twin H (World.empty lvl mem : World W B) (World.empty lvl mem) where
  types _ := rfl
  values _ _ := rfl
  hides _ _ hm := absurd hm Finmap.notMem_empty
  descriptions := rfl
  manageable := rfl
  hidden := rfl
  hasValue _ hm := absurd hm Finmap.notMem_empty
  level := rfl
  mem := rfl
  out := iff_of_true rfl rfl

/-- Two finished runs have the same log and the same outputs. -/
def SameLog (ops₁ ops₂ : List (Op B)) (p₁ p₂ : World W B × List (Except Thrown Ret)) : Prop :=
  p₁.1.logger.out = p₂.1.logger.out ∧ outputs ops₁ p₁.2 = outputs ops₂ p₂.2

/-- **Hidden values and the log.** Two runs that differ only in the values
of hidden properties have the same log and outputs if and only if the
defaults of hidden properties that were read with debug messages on are the
same. -/
theorem sameLog_iff {env₁ env₂ : Env} (he : EnvTwin H env₁ env₂) {code₁ code₂ : B → Instr W B}
    (hc : ∀ b, InstrTwin H (code₁ b) (code₂ b)) {ops₁ ops₂ : List (Op B)}
    (hops : List.Forall₂ (OpTwin H) ops₁ ops₂) (lvl : Level) (mem : W) {n₁ n₂ : Nat} {p₁ p₂}
    (h₁ : calls env₁ code₁ n₁ ops₁ (World.empty lvl mem) = some p₁)
    (h₂ : calls env₂ code₂ n₂ ops₂ (World.empty lvl mem) = some p₂)
    (hp₁ : Proper H p₁.1.history) (hp₂ : Proper H p₂.1.history) :
    SameLog ops₁ ops₂ p₁ p₂ ↔ shownDefaults p₁.1.history = shownDefaults p₂.1.history := by
  have h₁ := calls_mono (Nat.le_max_left n₁ n₂) h₁
  have h₂ := calls_mono (Nat.le_max_right n₁ n₂) h₂
  obtain ⟨ht, ho⟩ := calls_twin he hc hops (Twin.empty lvl mem) h₁ h₂ hp₁ hp₂
  exact ⟨fun h => ht.out.mp h.1, fun h => ⟨ht.out.mpr h, ho⟩⟩

/-! ## The default of one hidden property -/

/-- Adding a hidden string property `p` with this default. -/
def addSecret (d : String) : List (Op Unit) := [.add .string "p".toList (some d.toList) true false []]

def secretRun (lvl : Level) (d : String) : World Unit Unit × List (Except Thrown Ret) :=
  (calls noEnv (fun _ => .ret) 0 (addSecret d) (World.empty lvl ())).getD (World.empty lvl (), [])

theorem secretRun_eq (lvl : Level) (d : String) :
    calls noEnv (fun _ => .ret) 0 (addSecret d) (World.empty lvl ()) = some (secretRun lvl d) := rfl

theorem addSecret_twin (d₁ d₂ : String) :
    List.Forall₂ (OpTwin {"p".toList}) (addSecret d₁) (addSecret d₂) :=
  .cons (.add .string _ _ _ true false [] rfl rfl) .nil

/-- All parses succeed, and what is added is hidden. -/
def allHidden (history : List Event) : Bool :=
  history.all fun
    | .unparsable _ => false
    | .added _ _ hid _ => hid
    | _ => true

theorem Proper.of_allHidden {history : List Event} (h : allHidden history = true) : Proper H history where
  parsed _ hmem := nomatch List.all_eq_true.mp h _ hmem
  hidden _ _ _ _ hmem _ := List.all_eq_true.mp h _ hmem

theorem secretRun_hidden : ∀ lvl ∈ [Level.debug, .info], ∀ d ∈ ["a", "b"],
    allHidden (secretRun lvl d).1.history = true := by decide

theorem ret_twin (b : Unit) : InstrTwin H ((fun _ => .ret : Unit → Instr Unit Unit) b) .ret :=
  .same _ fun _ _ hi => by cases hi

/-- At level debug, two runs that differ only in the default of a hidden
property write different logs. -/
theorem sameLog_fails :
    ¬ ∀ (H : Set Str) (env₁ env₂ : Env) (code₁ code₂ : Unit → Instr Unit Unit) (ops₁ ops₂ : List (Op Unit))
      (lvl : Level) (n₁ n₂ : Nat) (p₁ p₂ : World Unit Unit × List (Except Thrown Ret)),
      EnvTwin H env₁ env₂ → (∀ b, InstrTwin H (code₁ b) (code₂ b)) → List.Forall₂ (OpTwin H) ops₁ ops₂ →
      calls env₁ code₁ n₁ ops₁ (World.empty lvl ()) = some p₁ →
      calls env₂ code₂ n₂ ops₂ (World.empty lvl ()) = some p₂ →
      Proper H p₁.1.history → Proper H p₂.1.history → SameLog ops₁ ops₂ p₁ p₂ := by
  intro h
  have hout : (secretRun .debug "a").1.logger.out ≠ (secretRun .debug "b").1.logger.out := by decide
  exact hout (h {"p".toList} noEnv noEnv (fun _ => .ret) (fun _ => .ret) (addSecret "a") (addSecret "b") .debug
    0 0 _ _ ⟨fun _ => rfl, fun _ _ => rfl⟩ ret_twin (addSecret_twin _ _)
    (secretRun_eq .debug "a") (secretRun_eq .debug "b") (.of_allHidden (secretRun_hidden _ (by decide) _ (by decide)))
    (.of_allHidden (secretRun_hidden _ (by decide) _ (by decide)))).1

/-! ## Hidden values that are masked -/

/-- The names whose C string is `p`. -/
def pNames : Set Str := {name | cStr name = "p".toList}

/-- Only the variable of `p` is set, to the text `v`. -/
def pEnv (v : String) (hv : NulFree v.toList) : Env where
  vars n := if n = "SOAPSTAB_p".toList then some v.toList else none
  nulFree he := by
    obtain ⟨-, he⟩ := Option.ite_none_right_eq_some.mp he
    cases he
    exact hv

theorem pEnv_twin (v₁ v₂ : String) (hv₁ : NulFree v₁.toList) (hv₂ : NulFree v₂.toList) :
    EnvTwin pNames (pEnv v₁ hv₁) (pEnv v₂ hv₂) where
  present n := by
    simp only [Env.getenv, pEnv]
    split <;> rfl
  same name hn := by
    have hother : cStr (ENV_VAR_PREFIX ++ name) ≠ "SOAPSTAB_p".toList := by
      rw [cStr_append (by decide)]
      exact fun he => hn (List.append_cancel_left he)
    rw [Env.getenv_cStr, Env.getenv_cStr]
    simp only [Env.getenv, pEnv, if_neg hother]

/-- Adding a hidden string property `p` and setting it. -/
def setSecret (v : String) : List (Op Unit) :=
  [.add .string "p".toList (some "a".toList) true true [], .set .string "p".toList v.toList false]

/-- Its run at level debug, where the variable is `v`. -/
def setSecretRun (v : String) (hv : NulFree v.toList) (s : String) : World Unit Unit × List (Except Thrown Ret) :=
  (calls (pEnv v hv) (fun _ => .ret) 1 (setSecret s) (World.empty .debug ())).getD (World.empty .debug (), [])

theorem setSecretRun_eq (v : String) (hv : NulFree v.toList) (s : String) :
    calls (pEnv v hv) (fun _ => .ret) 1 (setSecret s) (World.empty .debug ()) = some (setSecretRun v hv s) := rfl

theorem setSecret_twin (v₁ v₂ : String) : List.Forall₂ (OpTwin pNames) (setSecret v₁) (setSecret v₂) :=
  .cons (.same _) (.cons (.set .string _ _ _ false (show cStr "p".toList = "p".toList by decide)) .nil)

/-- **Masked.** At level debug, two runs with the same default in which the
variable and the value set differ. At level info, the two runs that
`sameLog_fails` tells apart at level debug. -/
theorem sameLog_masked :
    (∃ p₁ p₂, calls (pEnv "x" (by decide)) (fun _ => .ret) 1 (setSecret "s") (World.empty .debug ()) = some p₁ ∧
      calls (pEnv "y" (by decide)) (fun _ => .ret) 1 (setSecret "t") (World.empty .debug ()) = some p₂ ∧
      SameLog (setSecret "s") (setSecret "t") p₁ p₂) ∧
    SameLog (addSecret "a") (addSecret "b") (secretRun .info "a") (secretRun .info "b") := by
  refine ⟨⟨_, _, setSecretRun_eq "x" (by decide) "s", setSecretRun_eq "y" (by decide) "t", ?_⟩, ?_⟩
  · exact (sameLog_iff (pEnv_twin "x" "y" (by decide) (by decide)) ret_twin (setSecret_twin "s" "t") .debug ()
      (setSecretRun_eq "x" (by decide) "s") (setSecretRun_eq "y" (by decide) "t")
      (.of_allHidden (by decide)) (.of_allHidden (by decide))).mpr (by decide)
  · exact (sameLog_iff ⟨fun _ => rfl, fun _ _ => rfl⟩ ret_twin (addSecret_twin "a" "b") .info ()
      (secretRun_eq .info "a") (secretRun_eq .info "b")
      (.of_allHidden (secretRun_hidden _ (by decide) _ (by decide)))
      (.of_allHidden (secretRun_hidden _ (by decide) _ (by decide)))).mpr (by decide)

end SoapStab.Config
