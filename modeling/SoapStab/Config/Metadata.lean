import SoapStab.Config.TypedStore

/-!
# What an add fixes for good

`Later w w'`: operations, and what listeners do between them, lead from `w`
to `w'`. Nothing they do takes a property back or changes what its add said
of it: `metadata_kept`. The output lookups answer for such a property at any
later time with the text of what `get` returns, or with one text for all
values if it is hidden.
-/
namespace SoapStab.Config

variable {W B : Type}

/-- Worlds reached from `w` by operations, those inside running operations
included; see `Reach`. -/
inductive Later (env : Env) (code : B → Instr W B) (w : World W B) : World W B → Prop
  | refl : Later env code w w
  | call {w₁ : World W B} {n : Nat} {op : Op B} {r : Res W B Ret} (hw : Later env code w w₁)
    (h : call env code n op w₁ = some r) : Later env code w r.1
  | stored {w₁ w₂ : World W B} {P : PropType} {name : Str} {v : P.Val} (hw : Later env code w w₁)
    (h : storeNewValue P name v w₁ = (w₂, .ok ())) : Later env code w w₂
  | aside {w₁ w₂ : World W B} (hw : Later env code w w₁) (hs : w₂.store = w₁.store)
    (hh : w₂.history = w₁.history) : Later env code w w₂

theorem Later.reach {env : Env} {code : B → Instr W B} {w w' : World W B} (h : Later env code w w')
    (hw : Reach env code w) : Reach env code w' := by
  induction h with
  | refl => exact hw
  | call _ h ih => exact .call ih h
  | stored _ h ih => exact .stored ih h
  | aside _ hs hh ih => exact .aside ih hs hh

theorem Later.history {env : Env} {code : B → Instr W B} {w w' : World W B} (h : Later env code w w') :
    w.history <+: w'.history := by
  induction h with
  | refl => exact List.prefix_refl _
  | call _ h ih => exact ih.trans (exec_steps h).history
  | @stored w₁ w₂ P name v _ h ih =>
    have hsteps := storeNewValue_steps P name v w₁
    rw [h] at hsteps
    exact ih.trans hsteps.history
  | aside _ _ hh ih => exact hh ▸ ih

/-- What stays of the property `n`. -/
structure KeptAt (n : Str) (s s' : Store B) : Prop where
  described : s'.propertyDescriptions.lookup n = s.propertyDescriptions.lookup n
  hidden : n ∈ s'.hiddenProperties ↔ n ∈ s.hiddenProperties
  manageable : n ∈ s'.manageableProperties ↔ n ∈ s.manageableProperties
  typed : ∀ v, s.propertyValues.lookup n = some v → ∃ v', s'.propertyValues.lookup n = some v' ∧ v'.type = v.type
  listeners : s.listeners n <+: s'.listeners n

theorem KeptAt.refl (n : Str) (s : Store B) : KeptAt n s s :=
  ⟨rfl, Iff.rfl, Iff.rfl, fun v hv => ⟨v, hv, rfl⟩, List.prefix_refl _⟩

theorem KeptAt.trans {n : Str} {s s' s'' : Store B} (h : KeptAt n s s') (h' : KeptAt n s' s'') : KeptAt n s s'' where
  described := h'.described.trans h.described
  hidden := h'.hidden.trans h.hidden
  manageable := h'.manageable.trans h.manageable
  typed v hv := by
    obtain ⟨v', hv', ht⟩ := h.typed v hv
    obtain ⟨v'', hv'', ht'⟩ := h'.typed v' hv'
    exact ⟨v'', hv'', ht'.trans ht⟩
  listeners := h.listeners.trans h'.listeners

/-- The value stored for another property. -/
theorem keptAt_setValue {n name : Str} (s : Store B) (hn : n ≠ name) (v : Var) : KeptAt n s (s.setValue name v) :=
  ⟨rfl, Iff.rfl, Iff.rfl, fun x hx => ⟨x, (Finmap.lookup_insert_of_ne _ hn).trans hx, rfl⟩, List.prefix_refl _⟩

theorem keptAt_addProperty {n name : Str} (s : Store B) (hn : n ≠ name) (v : Var) (h m : Bool) (desc : Str) :
    KeptAt n s (s.addProperty name v h m desc) where
  described := Finmap.lookup_insert_of_ne _ hn
  hidden := by
    simp only [Store.addProperty]
    split <;> simp [hn]
  manageable := by
    simp only [Store.addProperty]
    split <;> simp [hn]
  typed x hx := ⟨x, (Finmap.lookup_insert_of_ne _ hn).trans hx, rfl⟩
  listeners := by
    unfold Store.listeners Store.addProperty
    cases m with
    | true => simp [Finmap.lookup_insert_of_ne _ hn]
    | false => exact List.prefix_refl _

theorem keptAt_pushListener {n name : Str} {s : Store B} {ls : List (Listener B)}
    (hl : s.manageableProperties.lookup name = some ls) (l : Listener B) :
    KeptAt n s (s.pushListener name ls l) where
  described := rfl
  hidden := Iff.rfl
  manageable := by
    have hmem : name ∈ s.manageableProperties := Finmap.mem_iff.mpr ⟨ls, hl⟩
    simp only [Store.pushListener, Finmap.mem_insert]
    exact ⟨fun hn => hn.elim (fun he => he ▸ hmem) id, .inr⟩
  typed v hv := ⟨v, hv, rfl⟩
  listeners := by
    rw [listeners_pushListener]
    split
    · next hn => subst hn; simp [Store.listeners, hl]
    · exact List.prefix_refl _

theorem Prim.keptAt {w w' : World W B} (h : Prim w w') {n : Str} (hn : n ∈ w.store.propertyValues) :
    KeptAt n w.store w'.store := by
  cases h with
  | log | mem | level | reading | unparsable => exact KeptAt.refl ..
  | added name v h m desc fresh =>
    exact keptAt_addProperty w.store (fun he : n = name => fresh (he ▸ hn)) v h m desc
  | listened name l ls hl => exact keptAt_pushListener hl l
  | filled name hm hv =>
    refine keptAt_setValue w.store (fun he => ?_) Var.default
    rw [he, Finmap.mem_iff, hv] at hn
    obtain ⟨v, hv⟩ := hn
    cases hv
  | stored name v old hm hv ht =>
    by_cases he : n = name
    · subst he
      refine ⟨rfl, Iff.rfl, Iff.rfl, fun x hx => ⟨v, Finmap.lookup_insert _, ?_⟩, List.prefix_refl _⟩
      rw [hv] at hx
      cases hx
      exact ht.symm
    · exact keptAt_setValue w.store he v

theorem KeptAt.mem {n : Str} {s s' : Store B} (h : KeptAt n s s') (hn : n ∈ s.propertyValues) :
    n ∈ s'.propertyValues := by
  obtain ⟨v, hv⟩ := Finmap.mem_iff.mp hn
  obtain ⟨v', hv', -⟩ := h.typed v hv
  exact Finmap.mem_iff.mpr ⟨v', hv'⟩

theorem Steps.keptAt {w w' : World W B} (h : Steps w w') {n : Str} (hn : n ∈ w.store.propertyValues) :
    KeptAt n w.store w'.store := by
  induction h with
  | refl => exact KeptAt.refl ..
  | tail _ hp ih => exact ih.trans (hp.keptAt (ih.mem hn))

theorem Later.keptAt {env : Env} {code : B → Instr W B} {w w' : World W B} (h : Later env code w w') {n : Str}
    (hn : n ∈ w.store.propertyValues) : KeptAt n w.store w'.store := by
  induction h with
  | refl => exact KeptAt.refl ..
  | call _ h ih => exact ih.trans ((exec_steps h).keptAt (ih.mem hn))
  | @stored w₁ w₂ P name v _ h ih =>
    have hsteps := storeNewValue_steps P name v w₁
    rw [h] at hsteps
    exact ih.trans (hsteps.keptAt (ih.mem hn))
  | aside _ hs _ ih => exact hs ▸ ih

/-- An add that returns was of a fresh name. -/
theorem addConfigProperty_ok {env : Env} {P : PropType} {name : Str} {d : Option P.Val} {h m : Bool}
    {desc : Str} {w w' : World W B} (hadd : addConfigProperty env P name d h m desc w = (w', .ok ())) :
    name ∉ w.store.propertyValues ∧ ∃ v : P.Val, w'.store = w.store.addProperty name ⟨P, v⟩ h m desc := by
  by_cases hf : name ∈ w.store.propertyValues
  · unfold addConfigProperty at hadd
    rw [if_pos hf] at hadd
    cases hadd
  · refine ⟨hf, ?_⟩
    rw [addConfigProperty_fresh hf] at hadd
    split at hadd
    · cases hadd
    · split at hadd
      · cases hadd
      · next v hv =>
        cases hadd
        exact ⟨v, by simp⟩

/-- **Metadata.** From its add on, a property keeps its description, its
type, whether it is hidden and whether it is manageable, and its listeners in
the order of their addition; `get` at its type succeeds, and the output
lookup shows the value got, unless the property is hidden. -/
theorem metadata_kept {env : Env} {code : B → Instr W B} {P : PropType} {name : Str} {d : Option P.Val}
    {hid man : Bool} {desc : Str} {w w₁ w₂ w₃ : World W B} (hw : Reach env code w)
    (hadd : addConfigProperty env P name d hid man desc w = (w₁, .ok ())) (h₂ : Later env code w₁ w₂)
    (h₃ : Later env code w₂ w₃) :
    (manageableConfigPropertyDescription name w₃).2 = .ok desc ∧
    (getConfigPropertyTypeForOutput name w₃).2 = .ok (PropType.forOutput P) ∧
    (name ∈ manageableConfigPropertyNames w₃ ↔ man = true) ∧
    w₂.store.listeners name <+: w₃.store.listeners name ∧
    ∃ x, (getConfigPropertyValue P name w₃).2 = .ok x ∧
      (getConfigPropertyValueForOutput name w₃).2 = .ok (if hid then hiddenText else valueToStr P x) := by
  obtain ⟨hf, v, hstore⟩ := addConfigProperty_ok hadd
  have hunadded : name ∉ w.store.hiddenProperties ∧ name ∉ w.store.manageableProperties := by
    rcases hw.accounted name with hu | ⟨v₀, hid', man', v', ha⟩
    · exact ⟨hu.hidden, hu.manageable⟩
    · exact absurd (Finmap.mem_iff.mpr ⟨v', ha.value⟩) hf
  have hmem : name ∈ w₁.store.propertyValues := by
    rw [hstore]
    exact Finmap.mem_insert.mpr (.inl rfl)
  have hk₂ := h₂.keptAt hmem
  have hk₃ := h₃.keptAt (hk₂.mem hmem)
  have hk := hk₂.trans hk₃
  have hdesc : w₃.store.propertyDescriptions.lookup name = some desc := by
    rw [hk.described, hstore]
    exact Finmap.lookup_insert _
  have hman : name ∈ w₃.store.manageableProperties ↔ man = true := by
    rw [hk.manageable, hstore]
    cases man <;> simp [Store.addProperty, hunadded.2]
  have hhid : name ∈ w₃.store.hiddenProperties ↔ hid = true := by
    rw [hk.hidden, hstore]
    cases hid <;> simp [Store.addProperty, hunadded.1]
  obtain ⟨⟨Q, x⟩, hx, hQ⟩ := hk.typed ⟨P, v⟩ (by rw [hstore]; exact Finmap.lookup_insert _)
  obtain rfl : Q = P := hQ
  refine ⟨?_, ?_, ?_, hk₃.listeners, x, getConfigPropertyValue_ok.mpr hx, ?_⟩
  · unfold manageableConfigPropertyDescription
    rw [hdesc]
  · unfold getConfigPropertyTypeForOutput configPropertyType
    rw [hx]
  · unfold manageableConfigPropertyNames
    rw [Finmap.mem_keys]
    exact hman
  · unfold getConfigPropertyValueForOutput propertyValueForOutput
    rw [hx]
    simp only [hhid]

/-- A hidden `p`, looked up after a listener was added. -/
theorem metadata_kept_hidden : ∃ w₁ w₂ : World Unit Unit,
    addConfigProperty noEnv .bool "p".toList (some true) true true "d".toList (World.empty .off ()) = (w₁, .ok ()) ∧
    (getConfigPropertyValueForOutput "p".toList w₂).2 = .ok hiddenText ∧
    (manageableConfigPropertyDescription "p".toList w₂).2 = .ok "d".toList := by
  have hadd : ∃ w₁, addConfigProperty noEnv .bool "p".toList (some true) true true "d".toList
    (World.empty .off () : World Unit Unit) = (w₁, .ok ()) := ⟨_, rfl⟩
  obtain ⟨w₁, hadd⟩ := hadd
  have hcall : call noEnv (fun _ : Unit => .ret) 1 (.addListener "p".toList ⟨(), []⟩) w₁ = some _ := rfl
  have h := metadata_kept (Reach.empty .off ()) hadd .refl (Later.call .refl hcall)
  obtain ⟨x, -, hout⟩ := h.2.2.2.2
  exact ⟨w₁, _, hadd, hout, h.1⟩

end SoapStab.Config
