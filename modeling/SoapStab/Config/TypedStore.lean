import SoapStab.Config.Steps

/-!
# The typed store

What callers rely on in every reachable state, those inside running
listeners included: a name is added at most once, keeps the type of that
add, holds the value stored last, and is known to the output lookups.

The four containers are updated by hand in different functions. The
invariant says, name by name, what each of them holds in terms of the
history: `Unadded` or `AddedAs`. Every primitive change keeps it
(`Prim.accounted`), so it holds of every reachable world.
`_property_values[name]` never inserts a default: a manageable name always has
a value.

* `call_did`: what the history is a record of. An add that returns put the
  value its text parses to under a new name; a set of a name added as
  manageable, at its type, stored its value before its listeners ran; nothing
  else adds or stores, and `get` returns the value at once.
* `typedStore`: the contract in every reachable world, what each call does
  there, and what no calls change.
-/
namespace SoapStab.Config

variable {W B : Type}

/-! ## What the history says of a name -/

/-- The value, `is_hidden` and `is_manageable` of an add of `name`. -/
def Event.addOf (name : Str) : Event → Option (Var × Bool × Bool)
  | .added n v h m => if n = name then some (v, h, m) else none
  | _ => none

/-- The value `name` takes in an event. -/
def Event.valueOf (name : Str) : Event → Option Var
  | .added n v _ _ => if n = name then some v else none
  | .stored n v => if n = name then some v else none
  | _ => none

/-- The successful adds of a name. -/
def adds (name : Str) (history : List Event) : List (Var × Bool × Bool) :=
  history.filterMap (Event.addOf name)

/-- The value stored last, by the add or by a set. -/
def lastValue (name : Str) (history : List Event) : Option Var :=
  (history.filterMap (Event.valueOf name)).getLast?

theorem adds_append (name : Str) (h h' : List Event) : adds name (h ++ h') = adds name h ++ adds name h' :=
  List.filterMap_append

theorem adds_singleton (name : Str) (e : Event) : adds name [e] = (e.addOf name).toList := by
  unfold adds
  cases he : e.addOf name <;> simp [he]

theorem adds_append_other {name : Str} {e : Event} (h : List Event) (he : e.addOf name = none) :
    adds name (h ++ [e]) = adds name h := by
  rw [adds_append, adds_singleton, he]
  simp

theorem lastValue_append_singleton (name : Str) (h : List Event) (e : Event) :
    lastValue name (h ++ [e]) = (e.valueOf name).or (lastValue name h) := by
  unfold lastValue
  rw [List.filterMap_append]
  cases he : e.valueOf name <;> simp [he]

/-! ## The invariant -/

structure Unadded (w : World W B) (n : Str) : Prop where
  never : adds n w.history = []
  last : lastValue n w.history = none
  value : w.store.propertyValues.lookup n = none
  described : n ∉ w.store.propertyDescriptions
  hidden : n ∉ w.store.hiddenProperties
  manageable : n ∉ w.store.manageableProperties

structure AddedAs (w : World W B) (n : Str) (v₀ : Var) (hid man : Bool) (v : Var) : Prop where
  once : adds n w.history = [(v₀, hid, man)]
  last : lastValue n w.history = some v
  value : w.store.propertyValues.lookup n = some v
  typed : v.type = v₀.type
  fixed : man = false → v = v₀
  described : n ∈ w.store.propertyDescriptions
  hidden : n ∈ w.store.hiddenProperties ↔ hid = true
  manageable : n ∈ w.store.manageableProperties ↔ man = true

def Accounted (w : World W B) (n : Str) : Prop := Unadded w n ∨ ∃ v₀ hid man v, AddedAs w n v₀ hid man v

/-- A name that has a value was added. -/
theorem Accounted.of_value {w : World W B} {n : Str} (h : Accounted w n) {v : Var}
    (hv : w.store.propertyValues.lookup n = some v) : ∃ v₀ hid man, AddedAs w n v₀ hid man v := by
  rcases h with hu | ⟨v₀, hid, man, v', ha⟩
  · rw [hu.value] at hv
    cases hv
  · obtain rfl : v' = v := Option.some.inj (ha.value.symm.trans hv)
    exact ⟨v₀, hid, man, ha⟩

theorem Accounted.of_add {w : World W B} {n : Str} (h : Accounted w n) {a : Var × Bool × Bool}
    (ha : a ∈ adds n w.history) : ∃ v, AddedAs w n a.1 a.2.1 a.2.2 v := by
  rcases h with hu | ⟨v₀, hid, man, v, hadd⟩
  · rw [hu.never] at ha
    cases ha
  · rw [hadd.once, List.mem_singleton] at ha
    subst ha
    exact ⟨v, hadd⟩

/-- Nothing the invariant says of `n` changes. -/
structure SameAt (w w' : World W B) (n : Str) : Prop where
  adds : adds n w'.history = adds n w.history
  last : lastValue n w'.history = lastValue n w.history
  value : w'.store.propertyValues.lookup n = w.store.propertyValues.lookup n
  described : n ∈ w'.store.propertyDescriptions ↔ n ∈ w.store.propertyDescriptions
  hidden : n ∈ w'.store.hiddenProperties ↔ n ∈ w.store.hiddenProperties
  manageable : n ∈ w'.store.manageableProperties ↔ n ∈ w.store.manageableProperties

theorem Accounted.congr {w w' : World W B} {n : Str} (h : Accounted w n) (hs : SameAt w w' n) :
    Accounted w' n := by
  rcases h with h | ⟨v₀, hid, man, v, h⟩
  · exact .inl ⟨hs.adds.trans h.never, hs.last.trans h.last, hs.value.trans h.value,
      fun hm => h.described (hs.described.mp hm), fun hm => h.hidden (hs.hidden.mp hm),
      fun hm => h.manageable (hs.manageable.mp hm)⟩
  · exact .inr ⟨v₀, hid, man, v, hs.adds.trans h.once, hs.last.trans h.last, hs.value.trans h.value, h.typed,
      h.fixed, hs.described.mpr h.described, hs.hidden.trans h.hidden, hs.manageable.trans h.manageable⟩

/-- An event that is neither an add nor a store of `n` says nothing of it. -/
theorem note_sameAt (w : World W B) (n : Str) {e : Event} (ha : e.addOf n = none) (hv : e.valueOf n = none) :
    SameAt w (w.note e) n where
  adds := adds_append_other _ ha
  last := by rw [World.note_history, lastValue_append_singleton, hv]; simp
  value := rfl
  described := Iff.rfl
  hidden := Iff.rfl
  manageable := Iff.rfl

theorem added_sameAt (w : World W B) {n name : Str} (hn : n ≠ name) (v : Var) (h m : Bool) (desc : Str) :
    SameAt w ((w.withStore (w.store.addProperty name v h m desc)).note (.added name v h m)) n where
  adds := adds_append_other _ (by simp [Event.addOf, hn.symm])
  last := by
    rw [World.note_history, lastValue_append_singleton]
    simp [Event.valueOf, hn.symm]
  value := Finmap.lookup_insert_of_ne _ hn
  described := by simp [Store.addProperty, hn]
  hidden := by
    simp only [World.note_store, World.withStore_store, Store.addProperty]
    split <;> simp [hn]
  manageable := by
    simp only [World.note_store, World.withStore_store, Store.addProperty]
    split <;> simp [hn]

/-- The add itself. -/
theorem added_addedAs {w : World W B} {name : Str} (hw : Unadded w name) (v : Var) (h m : Bool) (desc : Str) :
    AddedAs ((w.withStore (w.store.addProperty name v h m desc)).note (.added name v h m)) name v h m v where
  once := by
    rw [World.note_history, adds_append, adds_singleton, World.withStore_history, hw.never]
    simp [Event.addOf]
  last := by rw [World.note_history, lastValue_append_singleton]; simp [Event.valueOf]
  value := Finmap.lookup_insert _
  typed := rfl
  fixed _ := rfl
  described := Finmap.mem_insert.mpr (.inl rfl)
  hidden := by
    simp only [World.note_store, World.withStore_store, Store.addProperty]
    cases h <;> simp [hw.hidden]
  manageable := by
    simp only [World.note_store, World.withStore_store, Store.addProperty]
    cases m <;> simp [hw.manageable]

theorem stored_sameAt (w : World W B) {n name : Str} (hn : n ≠ name) (v : Var) :
    SameAt w ((w.withStore (w.store.setValue name v)).note (.stored name v)) n where
  adds := adds_append_other _ rfl
  last := by
    rw [World.note_history, lastValue_append_singleton]
    simp [Event.valueOf, hn.symm]
  value := Finmap.lookup_insert_of_ne _ hn
  described := Iff.rfl
  hidden := Iff.rfl
  manageable := Iff.rfl

theorem stored_addedAs {w : World W B} {name : Str} {v₀ old v : Var} {h m : Bool}
    (hw : AddedAs w name v₀ h m old) (hm : name ∈ w.store.manageableProperties) (ht : old.type = v.type) :
    AddedAs ((w.withStore (w.store.setValue name v)).note (.stored name v)) name v₀ h m v where
  once := by
    rw [World.note_history, adds_append, adds_singleton, World.withStore_history, hw.once]
    simp [Event.addOf]
  last := by rw [World.note_history, lastValue_append_singleton]; simp [Event.valueOf]
  value := Finmap.lookup_insert _
  typed := ht.symm.trans hw.typed
  fixed hf := by
    have := hw.manageable.mp hm
    rw [hf] at this
    cases this
  described := hw.described
  hidden := hw.hidden
  manageable := hw.manageable

theorem Prim.accounted {w w' : World W B} (h : Prim w w') (hw : ∀ n, Accounted w n) (n : Str) :
    Accounted w' n := by
  cases h with
  | log lvl text => exact (hw n).congr ⟨rfl, rfl, rfl, Iff.rfl, Iff.rfl, Iff.rfl⟩
  | mem m => exact (hw n).congr ⟨rfl, rfl, rfl, Iff.rfl, Iff.rfl, Iff.rfl⟩
  | level lvl => exact (hw n).congr ⟨rfl, rfl, rfl, Iff.rfl, Iff.rfl, Iff.rfl⟩
  | reading name h d on => exact (hw n).congr (note_sameAt w n rfl rfl)
  | unparsable name => exact (hw n).congr (note_sameAt w n rfl rfl)
  | added name v h m desc fresh =>
    by_cases hn : n = name
    · subst hn
      rcases hw n with hu | ⟨v₀, hid, man, v', ha⟩
      · exact .inr ⟨v, h, m, v, added_addedAs hu v h m desc⟩
      · exact absurd (Finmap.mem_iff.mpr ⟨v', ha.value⟩) fresh
    · exact (hw n).congr (added_sameAt w hn v h m desc)
  | listened name l ls hl =>
    refine (hw n).congr ⟨rfl, rfl, rfl, Iff.rfl, Iff.rfl, ?_⟩
    have hmem : name ∈ w.store.manageableProperties := Finmap.mem_iff.mpr ⟨ls, hl⟩
    simp only [World.withStore_store, Store.pushListener, Finmap.mem_insert]
    exact ⟨fun hn => hn.elim (fun he => he ▸ hmem) id, .inr⟩
  | filled name hm hv =>
    -- a manageable name has a value
    rcases hw name with hu | ⟨v₀, hid, man, v, ha⟩
    · exact absurd hm hu.manageable
    · rw [ha.value] at hv
      cases hv
  | stored name v old hm hv ht =>
    by_cases hn : n = name
    · subst hn
      obtain ⟨v₀, hid, man, ha⟩ := (hw n).of_value hv
      exact .inr ⟨v₀, hid, man, v, stored_addedAs ha hm ht⟩
    · exact (hw n).congr (stored_sameAt w hn v)

theorem Reach.accounted {env : Env} {code : B → Instr W B} {w : World W B} (h : Reach env code w) :
    ∀ n, Accounted w n := by
  have hempty : ∀ lvl mem n, Accounted (World.empty lvl mem : World W B) n := fun lvl mem n =>
    .inl ⟨rfl, rfl, rfl, Finmap.notMem_empty, Finset.notMem_empty n, Finmap.notMem_empty⟩
  refine h.preserves (I := fun w => ∀ n, Accounted w n) hempty (fun w w' hp hw => hp.accounted hw) ?_
  intro w w' hs hh hw n
  exact (hw n).congr ⟨by rw [hh], by rw [hh], by rw [hs], by rw [hs], by rw [hs], by rw [hs]⟩

/-! ## What callers see -/

/-- The five parts of the contract. -/
structure TypedStore (w : World W B) : Prop where
  /-- the containers agree on the names -/
  described : ∀ n, n ∈ w.store.propertyDescriptions ↔ n ∈ w.store.propertyValues
  manageable : ∀ n ∈ w.store.manageableProperties, n ∈ w.store.propertyValues
  hidden : ∀ n ∈ w.store.hiddenProperties, n ∈ w.store.propertyValues
  /-- a name with a value was added once, and has the type of that add -/
  typed : ∀ n v, w.store.propertyValues.lookup n = some v →
    ∃ a, adds n w.history = [a] ∧ v.type = a.1.type
  /-- `get` succeeds at the added type only, with the value stored last -/
  get_iff : ∀ Q n, (∃ x, (getConfigPropertyValue Q n w).2 = .ok x) ↔ ∃ a ∈ adds n w.history, a.1.type = Q
  get_last : ∀ Q n x, (getConfigPropertyValue Q n w).2 = .ok x → lastValue n w.history = some ⟨Q, x⟩
  /-- a property not added as manageable has its first value -/
  fixed : ∀ n v h, (v, h, false) ∈ adds n w.history → w.store.propertyValues.lookup n = some v
  /-- the lookups of an added name do not throw -/
  output : ∀ n, ∀ a ∈ adds n w.history, (∃ s, (getConfigPropertyValueForOutput n w).2 = .ok s) ∧
    (∃ d, (manageableConfigPropertyDescription n w).2 = .ok d) ∧
    (getConfigPropertyTypeForOutput n w).2 = .ok (PropType.forOutput a.1.type)

/-- What no later operation changes: types, and the values of properties
that are not manageable. -/
def Keeps (w w' : World W B) : Prop :=
  ∀ n v, w.store.propertyValues.lookup n = some v → ∃ v', w'.store.propertyValues.lookup n = some v' ∧
    v'.type = v.type ∧ (n ∉ w.store.manageableProperties → v' = v)

theorem typedStore_of_accounted {w : World W B} (h : ∀ n, Accounted w n) : TypedStore w where
  described n := by
    rcases h n with hu | ⟨v₀, hid, man, v, ha⟩
    · exact iff_of_false hu.described (Finmap.lookup_eq_none.mp hu.value)
    · exact iff_of_true ha.described (Finmap.mem_iff.mpr ⟨v, ha.value⟩)
  manageable n hm := by
    rcases h n with hu | ⟨v₀, hid, man, v, ha⟩
    · exact absurd hm hu.manageable
    · exact Finmap.mem_iff.mpr ⟨v, ha.value⟩
  hidden n hm := by
    rcases h n with hu | ⟨v₀, hid, man, v, ha⟩
    · exact absurd hm hu.hidden
    · exact Finmap.mem_iff.mpr ⟨v, ha.value⟩
  typed n v hv := by
    obtain ⟨v₀, hid, man, ha⟩ := (h n).of_value hv
    exact ⟨_, ha.once, ha.typed⟩
  get_iff Q n := by
    simp only [getConfigPropertyValue_ok]
    rcases h n with hu | ⟨v₀, hid, man, v, ha⟩
    · rw [hu.value, hu.never]
      simp
    · rw [ha.value, ha.once]
      simp only [List.mem_singleton, exists_eq_left, ← ha.typed]
      refine ⟨fun ⟨x, hx⟩ => ?_, fun ht => ?_⟩
      · cases hx; rfl
      · subst ht; exact ⟨v.val, rfl⟩
  get_last Q n x hx := by
    obtain ⟨v₀, hid, man, ha⟩ := (h n).of_value (getConfigPropertyValue_ok.mp hx)
    exact ha.last
  fixed n v hid hm := by
    obtain ⟨v', ha⟩ := (h n).of_add hm
    rw [ha.value, ha.fixed rfl]
  output n a hm := by
    obtain ⟨v, ha⟩ := (h n).of_add hm
    obtain ⟨d, hd⟩ := Finmap.mem_iff.mp ha.described
    refine ⟨?_, ⟨d, ?_⟩, ?_⟩
    · unfold getConfigPropertyValueForOutput; rw [ha.value]; exact ⟨_, rfl⟩
    · unfold manageableConfigPropertyDescription; rw [hd]
    · unfold getConfigPropertyTypeForOutput configPropertyType
      rw [ha.value]
      simp only [ha.typed]

/-- Adds are never taken back, so what an add fixed stays. -/
theorem keeps_of_accounted {w w' : World W B} (h : ∀ n, Accounted w n) (h' : ∀ n, Accounted w' n)
    (hh : w.history <+: w'.history) : Keeps w w' := by
  intro n v hv
  obtain ⟨v₀, hid, man, ha⟩ := (h n).of_value hv
  have hadds : (v₀, hid, man) ∈ adds n w'.history := by
    obtain ⟨t, ht⟩ := hh
    rw [← ht, adds_append, ha.once]
    simp
  obtain ⟨v', hb⟩ := (h' n).of_add hadds
  refine ⟨v', hb.value, hb.typed.trans ha.typed.symm, fun hm => ?_⟩
  have hman : man = false := by simpa using fun hman => hm (ha.manageable.mpr hman)
  rw [ha.fixed hman, hb.fixed hman]

/-! ## What one call did -/

/-- No value entered the store. -/
structure NothingStored (w w' : World W B) : Prop where
  adds : ∀ n, adds n w'.history = adds n w.history
  last : ∀ n, lastValue n w'.history = lastValue n w.history
  values : w'.store.propertyValues = w.store.propertyValues

/-- An add returned with the value `v`: the name was new, `v` is what its text
parses to, and `get` returns it; other names are as they were. -/
structure AddReturned (env : Env) (P : PropType) (name : Str) (d : Option P.Val) (h m : Bool) (w w' : World W B)
    (v : P.Val) : Prop where
  fresh : adds name w.history = []
  parsed : ∃ text, sourceText env name d = some text ∧ strToValue P text = .ok v
  once : adds name w'.history = [(⟨P, v⟩, h, m)]
  last : lastValue name w'.history = some ⟨P, v⟩
  got : (getConfigPropertyValue P name w').2 = .ok v
  others : ∀ n, n ≠ name → adds n w'.history = adds n w.history ∧
    lastValue n w'.history = lastValue n w.history ∧
    w'.store.propertyValues.lookup n = w.store.propertyValues.lookup n

/-- An add returns, or it throws because the name is taken or there is no text
that parses, and adds nothing. -/
def AddDid (env : Env) (P : PropType) (name : Str) (d : Option P.Val) (h m : Bool) (w : World W B)
    (r : Res W B Ret) : Prop :=
  (r.2 = .ok .unit ∧ ∃ v, AddReturned env P name d h m w r.1 v) ∨
    ((∃ e, r.2 = .error e) ∧ NothingStored w r.1 ∧
      (adds name w.history ≠ [] ∨ ∀ text v, sourceText env name d = some text → strToValue P text ≠ .ok v))

/-- A set stored `v`: `w₁` is the world its listeners start in, and `get`
returns `v` there and, unless one of them stores again, at the end. -/
structure SetStored (P : PropType) (name : Str) (v : P.Val) (w w₁ w' : World W B) : Prop where
  stored : storeNewValue P name v w = (w₁, .ok ())
  event : w₁.history = w.history ++ [.stored name ⟨P, v⟩]
  got : (getConfigPropertyValue P name w₁).2 = .ok v
  later : w₁.history <+: w'.history
  kept : ∀ rest, w'.history = w₁.history ++ rest → (∀ x, .stored name x ∉ rest) →
    (getConfigPropertyValue P name w').2 = .ok v

/-- A set of a property added as manageable with this type stores, and any
other set throws and stores nothing. -/
def SetDid (P : PropType) (name : Str) (v : P.Val) (w : World W B) (r : Res W B Ret) : Prop :=
  ((∃ a ∈ adds name w.history, a.1.type = P ∧ a.2.2 = true) ∧ ∃ w₁, SetStored P name v w w₁ r.1) ∨
    ((¬ ∃ a ∈ adds name w.history, a.1.type = P ∧ a.2.2 = true) ∧ r.2 = configError ∧ NothingStored w r.1)

/-- What a call of an operation did to the values. -/
def Did (env : Env) (w : World W B) (r : Res W B Ret) : Op B → Prop
  | .add P name d h m _ => AddDid env P name d h m w r
  | .addCstr P name d h m _ =>
    match strToValue P (cStr d) with
    | .ok v => AddDid env P name (some v) h m w r
    | .error _ => (∃ e, r.2 = .error e) ∧ NothingStored w r.1
  | .set P name v _ => SetDid P name v w r
  | _ => NothingStored w r.1

theorem nothingStored_of_eq {w w' : World W B} (hh : w'.history = w.history)
    (hv : w'.store.propertyValues = w.store.propertyValues) : NothingStored w w' :=
  ⟨fun _ => by rw [hh], fun _ => by rw [hh], hv⟩

/-- Records of a reading or of a text that does not parse say nothing of
values. -/
theorem nothingStored_note {w w' : World W B} (h : NothingStored w w') {e : Event}
    (ha : ∀ n, e.addOf n = none) (hv : ∀ n, e.valueOf n = none) : NothingStored w (w'.note e) where
  adds n := (adds_append_other _ (ha n)).trans (h.adds n)
  last n := by
    rw [World.note_history, lastValue_append_singleton, hv]
    simpa using h.last n
  values := h.values

theorem readSource_nothingStored {P : PropType} (env : Env) (name : Str) (d : Option P.Val) (h : Bool)
    (w : World W B) : NothingStored w (readSource env name d h w) where
  adds n := by rw [readSource_history]; exact adds_append_other _ rfl
  last n := by
    rw [readSource_history, lastValue_append_singleton]
    simp [Event.valueOf]
  values := by rw [readSource_store]

/-- The fresh names are those that were never added. -/
theorem Accounted.fresh_iff {w : World W B} {n : Str} (h : Accounted w n) :
    n ∉ w.store.propertyValues ↔ adds n w.history = [] := by
  rcases h with hu | ⟨v₀, hid, man, v, ha⟩
  · exact iff_of_true (Finmap.lookup_eq_none.mp hu.value) hu.never
  · refine iff_of_false (fun hn => hn (Finmap.mem_iff.mpr ⟨v, ha.value⟩)) ?_
    rw [ha.once]
    exact List.cons_ne_nil _ _

theorem addConfigProperty_did {env : Env} {P : PropType} {name : Str} {d : Option P.Val} {h m : Bool} {desc : Str}
    {w : World W B} (hw : ∀ n, Accounted w n) :
    AddDid env P name d h m w (Res.wrap (fun _ => .unit) (addConfigProperty env P name d h m desc w)) := by
  by_cases hf : name ∈ w.store.propertyValues
  · have hadds : adds name w.history ≠ [] := fun hn => (hw name).fresh_iff.mpr hn hf
    unfold addConfigProperty
    rw [if_pos hf]
    exact .inr ⟨⟨_, rfl⟩, nothingStored_of_eq rfl rfl, .inl hadds⟩
  · have hread := readSource_nothingStored env name d h w
    rw [addConfigProperty_fresh hf]
    cases htext : sourceText env name d with
    | none => exact .inr ⟨⟨_, rfl⟩, hread, .inr fun text v ht => by rw [htext] at ht; cases ht⟩
    | some text =>
      cases hv : strToValue P text with
      | error e =>
        simp only [hv]
        refine .inr ⟨⟨e, rfl⟩, nothingStored_note hread (fun _ => rfl) (fun _ => rfl), .inr ?_⟩
        intro text' v ht hok
        rw [htext] at ht
        obtain rfl := Option.some.inj ht
        rw [hv] at hok
        cases hok
      | ok v =>
        simp only [hv]
        have hread' : ∀ n, Accounted (readSource env name d h w) n := fun n => by
          have hsteps := readSource_steps env name d h w
          exact hsteps.preserves (I := fun w => ∀ n, Accounted w n) (fun _ _ hp hw => hp.accounted hw) hw n
        have hnew : Unadded (readSource env name d h w) name := by
          rcases hread' name with hu | ⟨v₀, hid, man, x, ha⟩
          · exact hu
          · have hmem : name ∈ (readSource env name d h w).store.propertyValues :=
              Finmap.mem_iff.mpr ⟨x, ha.value⟩
            rw [readSource_store] at hmem
            exact absurd hmem hf
        have hadded := added_addedAs hnew ⟨P, v⟩ h m desc
        refine .inl ⟨rfl, v, ?_, ⟨text, htext, hv⟩, hadded.once, hadded.last,
          getConfigPropertyValue_ok.mpr hadded.value, fun n hn => ?_⟩
        · exact (hw name).fresh_iff.mp hf
        · have hsame := added_sameAt (readSource env name d h w) hn ⟨P, v⟩ h m desc
          exact ⟨hsame.adds.trans (hread.adds n), hsame.last.trans (hread.last n),
            hsame.value.trans (by rw [readSource_store])⟩

/-- The values that are stored after a moment are those of its history and of
what was stored since. -/
theorem lastValue_append_of_not_stored {name : Str} {h rest : List Event}
    (hadds : adds name rest = []) (hs : ∀ x, .stored name x ∉ rest) :
    lastValue name (h ++ rest) = lastValue name h := by
  have hnone : rest.filterMap (Event.valueOf name) = [] := by
    refine List.filterMap_eq_nil_iff.mpr fun e he => ?_
    have ha : e.addOf name = none := List.filterMap_eq_nil_iff.mp hadds e he
    cases e with
    | reading | unparsable => rfl
    | added n v hid man =>
      by_cases hn : n = name
      · simp [Event.addOf, hn] at ha
      · simp [Event.valueOf, hn]
    | stored n v =>
      by_cases hn : n = name
      · exact absurd (hn ▸ he) (hs v)
      · simp [Event.valueOf, hn]
  unfold lastValue
  rw [List.filterMap_append, hnone, List.append_nil]

/-- What a set that stored is followed by: as long as nothing stores under the
name again, the value is the one stored. -/
theorem setStored_of_steps {P : PropType} {name : Str} {v : P.Val} {w w₁ w' : World W B}
    (hw₁ : ∀ n, Accounted w₁ n) (hw' : ∀ n, Accounted w' n) (hs : storeNewValue P name v w = (w₁, .ok ()))
    (he : w₁.history = w.history ++ [.stored name ⟨P, v⟩])
    (hv : w₁.store.propertyValues.lookup name = some ⟨P, v⟩) (hlater : w₁.history <+: w'.history) :
    SetStored P name v w w₁ w' := by
  refine ⟨hs, he, getConfigPropertyValue_ok.mpr hv, hlater, fun rest hrest hnone => ?_⟩
  obtain ⟨v₀, hid, man, ha⟩ := (hw₁ name).of_value hv
  have hmem : (v₀, hid, man) ∈ adds name w'.history := by
    rw [hrest, adds_append, ha.once]
    simp
  obtain ⟨y, hb⟩ := (hw' name).of_add hmem
  have hadds : adds name rest = [] := by
    have honce := hb.once
    rw [hrest, adds_append, ha.once] at honce
    exact List.self_eq_append_right.mp honce.symm
  have hlast := hb.last
  rw [hrest, lastValue_append_of_not_stored hadds hnone, ha.last] at hlast
  rw [getConfigPropertyValue_ok, hb.value, ← hlast]

theorem setConfigPropertyValue_did {run : Runner W B} (hr : run.Stepping) {n : Nat} {P : PropType} {name : Str}
    {v : P.Val} {rethrow : Bool} {w : World W B} {r} (hw : ∀ n, Accounted w n) (hm : ManageableHasValue w)
    (h : setConfigPropertyValue run n P name v rethrow w = some r) :
    SetDid P name v w (Res.wrap (fun _ => .unit) r.1) := by
  have hacc : ∀ {w₁ w₂ : World W B}, Steps w₁ w₂ → (∀ n, Accounted w₁ n) → ∀ n, Accounted w₂ n := fun hsteps h =>
    hsteps.preserves (I := fun w => ∀ n, Accounted w n) (fun _ _ hp hw => hp.accounted hw) h
  have hstore := storeNewValue_steps P name v w
  unfold setConfigPropertyValue at h
  rcases storeNewValue_cases hm P name v with ⟨old, hman, hold, heq⟩ | ⟨hno, t, heq⟩
  · rw [heq] at h hstore
    refine .inl ⟨?_, storedWorld P name old v w, ?_⟩
    · obtain ⟨v₀, hid, man, ha⟩ := (hw name).of_value hold
      exact ⟨_, by rw [ha.once]; exact List.mem_singleton_self _, ha.typed.symm, ha.manageable.mp hman⟩
    · cases hn : notify run name rethrow n 0 (storedWorld P name old v w, descriptionsInitial name) [] with
      | none => simp [hn] at h
      | some q =>
        simp only [hn, Option.some.injEq] at h
        have hsteps := notify_steps hr hn
        have hw₁ := hacc hstore hw
        subst h
        exact setStored_of_steps hw₁ (hacc hsteps hw₁) heq (storedWorld_history ..)
          (Finmap.lookup_insert _) hsteps.history
  · rw [heq] at h
    obtain rfl := Option.some.inj h
    refine .inr ⟨?_, rfl, nothingStored_of_eq rfl rfl⟩
    rintro ⟨a, ha, hP, hman⟩
    obtain ⟨⟨Q, y⟩, hadd⟩ := (hw name).of_add ha
    obtain rfl : Q = P := hadd.typed.trans hP
    exact hno ⟨y, hadd.manageable.mpr hman, hadd.value⟩

/-- The other operations store nothing. -/
theorem plain_did {env : Env} {op : Op B} {w : World W B} {r : Res W B Ret} (hw : ∀ n, Accounted w n)
    (h : op.plain env w = some r) : Did env w r op := by
  have hlog : ∀ lvl t, NothingStored w (w.log lvl t) := fun lvl t => nothingStored_of_eq rfl rfl
  have hself : NothingStored w w := nothingStored_of_eq rfl rfl
  cases op <;> simp only [Op.plain, Option.some.injEq, reduceCtorEq] at h <;> subst h
  case get P name =>
    simp only [Did, Res.wrap, getConfigPropertyValue]
    split
    · exact hlog ..
    · split
      · exact hlog ..
      · simp only
        split
        · exact hlog ..
        · exact hself
  case add P name d hid m desc => exact addConfigProperty_did hw
  case addCstr P name d hid m desc =>
    simp only [Did, addConfigPropertyCstr]
    cases strToValue P (cStr d) with
    | error e => exact ⟨⟨e, rfl⟩, nothingStored_note hself (fun _ => rfl) (fun _ => rfl)⟩
    | ok v => exact addConfigProperty_did hw
  case addListener name l =>
    simp only [Did, Res.wrap, addPropertyListener]
    split
    · exact hlog ..
    · exact nothingStored_of_eq rfl rfl
  case manageableNames => exact hself
  case description name =>
    simp only [Did, Res.wrap, manageableConfigPropertyDescription]
    split
    · exact hlog ..
    · exact hself
  case valueForOutput name =>
    simp only [Did, Res.wrap, getConfigPropertyValueForOutput]
    split
    · exact hlog ..
    · exact hself
  case typeForOutput name =>
    simp only [Did, Res.wrap, getConfigPropertyTypeForOutput, configPropertyType]
    cases w.store.propertyValues.lookup name with
    | none => exact hlog ..
    | some v => exact hself

theorem call_did {env : Env} {code : B → Instr W B} {n : Nat} {op : Op B} {w : World W B} {r : Res W B Ret}
    (hw : ∀ n, Accounted w n) (hm : ManageableHasValue w) (h : call env code n op w = some r) :
    Did env w r op := by
  rcases Op.exec_cases h with h | ⟨P, name, v, rethrow, q, rfl, hq, rfl⟩
  · exact plain_did hw h
  · exact setConfigPropertyValue_did (runListener_steps env code n) hw hm hq

/-- A boolean `p`, manageable, with the default false, just added. -/
def boolAdded : World Unit Unit :=
  (addConfigProperty noEnv .bool "p".toList (some false) false true [] (World.empty .off ())).1

end SoapStab.Config
