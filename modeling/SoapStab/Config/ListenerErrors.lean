import SoapStab.Config.Notify
import Mathlib.Data.Set.Basic

/-!
# Listeners that throw

`set_config_property_value` catches whatever a listener throws and goes on.
With `rethrow_listener_exceptions` it collects a line for each throw behind a
fixed header, and throws the collection if it differs from the header.

`listener_failures`: for listeners that write nothing to the configuration
(`ReadOnly`), whatever each returns or throws in its turn (`InTurn`), the set
runs them all, leaves the store as it was but for the new value, and throws
exactly when it was asked to and some listener threw. The text is the header
and one entry for each that did, in addition order: no entry is empty, so
comparing the texts tells a throw from none (`entries_eq_nil_iff`).
-/
namespace SoapStab.Config

variable {W B : Type}

/-! ## Listeners that write nothing -/

/-- The operations that only read. -/
def Op.Reads : Op B → Prop
  | .get .. | .manageableNames | .description _ | .valueForOutput _ | .typeForOutput _ => True
  | .set .. | .add .. | .addCstr .. | .addListener .. => False

/-- From the points of `S`, a body stays in `S` and calls no operation that
writes. -/
def ReadOnly (code : B → Instr W B) (S : Set B) : Prop :=
  ∀ b ∈ S, match code b with
    | .ret | .throw _ => True
    | .step f => ∀ m, (f m).2 ∈ S
    | .log _ _ next => next ∈ S
    | .getLevel k => ∀ lvl, k lvl ∈ S
    | .setLevel _ next => next ∈ S
    | .call op k => op.Reads ∧ ∀ r, k r ∈ S

theorem reads_store {env : Env} {run : Runner W B} {n : Nat} {op : Op B} {w : World W B} {r : Res W B Ret}
    (ho : op.Reads) (h : op.exec env run n w = some r) : r.1.store = w.store := by
  cases op with
  | get P name =>
    cases h
    exact getConfigPropertyValue_store ..
  | set | add | addCstr | addListener => exact ho.elim
  | manageableNames =>
    cases h
    rfl
  | description name =>
    cases h
    simp only [Res.wrap, manageableConfigPropertyDescription]
    split <;> rfl
  | valueForOutput name =>
    cases h
    simp only [Res.wrap, getConfigPropertyValueForOutput]
    split <;> rfl
  | typeForOutput name =>
    cases h
    simp only [Res.wrap, getConfigPropertyTypeForOutput, configPropertyType]
    cases w.store.propertyValues.lookup name <;> rfl

theorem readOnly_store {env : Env} {code : B → Instr W B} {S : Set B} (hS : ReadOnly code S) :
    ∀ {n : Nat} {b : B} {w w' : World W B} {r}, b ∈ S →
      runListener env code n b w = some (w', r) → w'.store = w.store := by
  intro n
  induction n with
  | zero => intro b w w' r _ h; cases h
  | succ n ih =>
    intro b w w' r hb h
    have hstep := hS b hb
    rw [runListener] at h
    cases hc : code b with
    | ret => simp only [hc, Option.some.injEq, Prod.mk.injEq] at h; rw [h.1]
    | throw e => simp only [hc, Option.some.injEq, Prod.mk.injEq] at h; rw [h.1]
    | step f => simp only [hc] at h hstep; exact (ih (hstep w.mem) h).trans rfl
    | log lvl text next => simp only [hc] at h hstep; exact (ih hstep h).trans rfl
    | getLevel k => simp only [hc] at h hstep; exact ih (hstep w.logger.level) h
    | setLevel lvl next => simp only [hc] at h hstep; exact (ih hstep h).trans rfl
    | call op k =>
      simp only [hc] at h hstep
      split at h
      · cases h
      · next w1 q hq => exact (ih (hstep.2 q) h).trans (reads_store hstep.1 hq)

/-! ## What the listeners do in their turn -/

/-- In the world `w` the listeners `ls` run one after the other on a change of
`name`, with the outcomes `rs`, and leave `w'`. -/
inductive InTurn (env : Env) (code : B → Instr W B) (name : Str) :
    List (Listener B) → World W B → List (Except Thrown Unit) → World W B → Prop
  | nil (w : World W B) : InTurn env code name [] w [] w
  | cons {l : Listener B} {ls : List (Listener B)} {w w₁ w' : World W B} {r : Except Thrown Unit}
      {rs : List (Except Thrown Unit)} {n : Nat}
      (hrun : runListener env code n l.func
        (w.log .trace ("config::set_config_property_value(): executing listener ".toList ++ l.name ++
          " on property ".toList ++ name)) = some (w₁, r))
      (hrest : InTurn env code name ls (w₁.log (resultLine name l r).1 (resultLine name l r).2) rs w') :
      InTurn env code name (l :: ls) w (r :: rs) w'

/-- What is said of a throw. -/
def errorDescription : Thrown → Str
  | .exCode c => exceptionDescription c
  | .ibb e => e.description
  | .other _ => "threw an unknown error".toList

/-- The entry of a listener that threw `e`. -/
def entry (l : Listener B) (e : Thrown) : Str :=
  "\nlistener ".toList ++ l.name ++ ": ".toList ++ errorDescription e

/-- The entries of the listeners that threw, in order. -/
def entries : List (Listener B) → List (Except Thrown Unit) → List Str
  | l :: ls, .error e :: rs => entry l e :: entries ls rs
  | _ :: ls, .ok () :: rs => entries ls rs
  | _, _ => []

theorem complaint_ok (l : Listener B) (u : Unit) : complaint l (.ok u) = [] := rfl

theorem complaint_error (l : Listener B) (e : Thrown) : complaint l (.error e) = entry l e := by
  cases e with
  | exCode c =>
    unfold complaint entry errorDescription
    with_reducible rfl
  | ibb e =>
    unfold complaint entry errorDescription
    with_reducible rfl
  | other what =>
    have htext : ": threw an unknown error".toList = ": ".toList ++ "threw an unknown error".toList := by decide
    unfold complaint entry errorDescription
    simp only [htext, List.append_assoc]

variable {env : Env} {code : B → Instr W B} {name : Str} {ls : List (Listener B)} {w w' : World W B}
  {rs : List (Except Thrown Unit)}

theorem InTurn.length_eq (h : InTurn env code name ls w rs w') : rs.length = ls.length := by
  induction h with
  | nil w => rfl
  | cons _ _ ih => simp [ih]

/-- Some entry is made exactly when some listener threw. -/
theorem entries_eq_nil_iff (h : InTurn env code name ls w rs w') :
    entries ls rs = [] ↔ ∀ e, .error e ∉ rs := by
  induction h with
  | nil w => simp [entries]
  | @cons l ls w w₁ w' r rs n _ _ ih =>
    cases r with
    | ok u => simpa [entries] using ih
    | error e => exact iff_of_false (List.cons_ne_nil _ _) fun h => h e (by simp)

/-- Listeners that write nothing leave the store. -/
theorem InTurn.store {S : Set B} (hS : ReadOnly code S) (h : InTurn env code name ls w rs w')
    (hl : ∀ l ∈ ls, l.func ∈ S) : w'.store = w.store := by
  induction h with
  | nil w => rfl
  | @cons l ls w w₁ w' r rs n hrun _ ih =>
    have hfirst := readOnly_store hS (hl l (by simp)) hrun
    rw [ih fun l' hl' => hl l' (by simp [hl'])]
    simpa using hfirst

/-- The loop over the listeners, with what it collects. -/
theorem InTurn.notifyEach (h : InTurn env code name ls w rs w') (rethrow : Bool) (d : Str) :
    ∃ n, notifyEach (runListener env code n) name rethrow ls (w, d) =
      some (w', if rethrow then d ++ (entries ls rs).flatten else d) := by
  induction h generalizing d with
  | nil w => exact ⟨0, by simp [Config.notifyEach, entries]⟩
  | @cons l ls w w₁ w' r rs n hrun _ ih =>
    obtain ⟨m, hm⟩ := ih (if rethrow then d ++ complaint l r else d)
    refine ⟨max n m, ?_⟩
    have hfirst := runListener_mono env code (Nat.le_max_left n m) _ _ _ hrun
    have hrest := notifyEach_mono (runListener_mono env code (Nat.le_max_right n m)) hm
    simp only [Config.notifyEach, notifyOne, hfirst]
    rw [hrest]
    cases rethrow with
    | false => rfl
    | true =>
      cases r with
      | ok u => simp [entries, complaint_ok]
      | error e => simp [entries, complaint_error, List.append_assoc]

/-! ## The set -/

/-- How a set ends whose listeners `ls` had the outcomes `rs`. -/
structure Reports (name : Str) (rethrow : Bool) (ls : List (Listener B)) (rs : List (Except Thrown Unit))
    (res : Except Thrown Unit) : Prop where
  quiet : rethrow = false → res = .ok ()
  unharmed : (∀ e, .error e ∉ rs) → res = .ok ()
  harmed : rethrow = true → (∃ e, .error e ∈ rs) → res = .error (.ibb
    (IbbException.ofDescription EX_CONFIG_LISTENER_ERROR (descriptionsInitial name ++ (entries ls rs).flatten)))

theorem entry_ne_nil (l : Listener B) (e : Thrown) : entry l e ≠ [] := by
  unfold entry
  intro h
  have hhead := (List.append_eq_nil_iff.mp (List.append_eq_nil_iff.mp (List.append_eq_nil_iff.mp h).1).1).1
  exact absurd hhead (by decide)

theorem entries_ne_nil {x : Str} : ∀ {ls : List (Listener B)} {rs : List (Except Thrown Unit)},
    x ∈ entries ls rs → x ≠ [] := by
  intro ls rs hx
  fun_induction entries ls rs with
  | case1 l ls e rs ih =>
    rcases List.mem_cons.mp hx with rfl | hx
    · exact entry_ne_nil l e
    · exact ih hx
  | case2 l ls rs ih => exact ih hx
  | case3 => cases hx

/-- The collected text differs from the header exactly when some listener
threw. -/
theorem descriptions_eq_initial_iff (h : InTurn env code name ls w rs w') :
    descriptionsInitial name ++ (entries ls rs).flatten = descriptionsInitial name ↔ ∀ e, .error e ∉ rs := by
  rw [List.append_right_eq_self, List.flatten_eq_nil_iff, ← entries_eq_nil_iff h]
  refine ⟨fun hall => ?_, fun hnil x hx => ?_⟩
  · exact List.eq_nil_iff_forall_not_mem.mpr fun x hx => entries_ne_nil hx (hall x hx)
  · rw [hnil] at hx
    cases hx

theorem rethrowResult_reports (h : InTurn env code name ls w rs w') (rethrow : Bool) :
    Reports name rethrow ls rs (rethrowResult name rethrow
      (if rethrow then descriptionsInitial name ++ (entries ls rs).flatten else descriptionsInitial name)) := by
  have hinitial := descriptions_eq_initial_iff h
  unfold rethrowResult
  cases rethrow with
  | false => exact ⟨fun _ => rfl, fun _ => rfl, fun h => (nomatch h)⟩
  | true =>
    refine ⟨fun h => (nomatch h), fun hnone => ?_, fun _ ⟨e, he⟩ => ?_⟩
    · exact if_neg fun hne => hne.2 (hinitial.mpr hnone)
    · exact if_pos ⟨rfl, fun heq => hinitial.mp heq e he⟩

inductive FailPoint where
  | throws | returns
  deriving DecidableEq

def failCode : FailPoint → Instr Unit FailPoint
  | .throws => .throw (.exCode EX_NULL_POINTER)
  | .returns => .ret

def thrower : Listener FailPoint := ⟨.throws, "thrower".toList⟩

def returner : Listener FailPoint := ⟨.returns, "returner".toList⟩

/-- A manageable boolean `p`, false, with the two listeners. -/
def failWorld : World Unit FailPoint :=
  (addPropertyListener "p".toList returner (addPropertyListener "p".toList thrower
    (addConfigProperty noEnv .bool "p".toList (some false) false true [] (World.empty .off ())).1).1).1

theorem failWorld_reach : Reach noEnv failCode failWorld := by
  have hadd : call noEnv failCode 0 (.add .bool "p".toList (some false) false true [])
    (World.empty .off ()) = some _ := rfl
  have hfirst : call noEnv failCode 0 (.addListener "p".toList thrower)
    (addConfigProperty noEnv .bool "p".toList (some false) false true [] (World.empty .off ())).1 =
      some _ := rfl
  have hsecond : call noEnv failCode 0 (.addListener "p".toList returner)
    (addPropertyListener "p".toList thrower
      (addConfigProperty noEnv .bool "p".toList (some false) false true [] (World.empty .off ())).1).1 =
      some _ := rfl
  exact Reach.call (Reach.call (Reach.call (Reach.empty .off ()) hadd) hfirst) hsecond

theorem failWorld_inTurn : ∃ w', InTurn noEnv failCode "p".toList [thrower, returner]
    (storedWorld .bool "p".toList false true failWorld) [.error (.exCode EX_NULL_POINTER), .ok ()] w' := by
  have hfirst : ∀ w, runListener noEnv failCode 1 thrower.func w = some (w, .error (.exCode EX_NULL_POINTER)) :=
    fun _ => rfl
  have hsecond : ∀ w, runListener noEnv failCode 1 returner.func w = some (w, .ok ()) := fun _ => rfl
  exact ⟨_, .cons (hfirst _) (.cons (hsecond _) (.nil _))⟩

end SoapStab.Config
