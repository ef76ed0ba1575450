import SoapStab.Config.Steps

/-!
# Which listeners a set runs

`set_config_property_value` documents that "all the currently existing
listeners for the property are called". Its loop walks the live list, which
a listener can append to through the recursive mutex.

`notify_runs`: whatever the listeners do, the loop runs the listeners that
are registered for the property *when it ends*, each once, in addition
order. So it runs exactly those registered when the value is stored
(`NotifiesSnapshot`) if and only if these register no other listener on the
property (`NoneRegistered`): `notifiesSnapshot_iff`, for every program text
and every reachable state. Where one does register, the newcomer runs too,
and a listener that registers itself again keeps the loop going forever
although each of its runs returns.
-/
namespace SoapStab.Config

variable {W B : Type}

/-- Run the listeners of a fixed list, each once, in order. -/
def notifyEach (run : Runner W B) (name : Str) (rethrow : Bool) :
    List (Listener B) → World W B × Str → Option (World W B × Str)
  | [], s => some s
  | l :: ls, s =>
    match notifyOne run name rethrow l s with
    | none => none
    | some s' => notifyEach run name rethrow ls s'

theorem notifyEach_mono {run run' : Runner W B} (h : run.Le run') {name : Str} {rethrow : Bool} :
    ∀ {ls : List (Listener B)} {s s' : World W B × Str},
      notifyEach run name rethrow ls s = some s' → notifyEach run' name rethrow ls s = some s' := by
  intro ls
  induction ls with
  | nil => intro s s' hs; exact hs
  | cons l ls ih =>
    intro s s' hs
    simp only [notifyEach] at hs ⊢
    split at hs
    · cases hs
    · next s1 h1 => rw [notifyOne_mono h h1]; exact ih hs

theorem notifyEach_append (run : Runner W B) (name : Str) (rethrow : Bool) (ls ls' : List (Listener B))
    (s : World W B × Str) :
    notifyEach run name rethrow (ls ++ ls') s =
      (notifyEach run name rethrow ls s).bind (notifyEach run name rethrow ls') := by
  induction ls generalizing s with
  | nil => rfl
  | cons l ls ih =>
    simp only [List.cons_append, notifyEach]
    split
    · rfl
    · exact ih _

theorem notifyOne_grows {run : Runner W B} (hr : run.Stepping) {name : Str} {rethrow : Bool}
    {l : Listener B} {s s' : World W B × Str} (h : notifyOne run name rethrow l s = some s')
    (hm : ManageableHasValue s.1) : Grows s.1 s'.1 ∧ ManageableHasValue s'.1 :=
  (notifyOne_steps hr h).grows hm

theorem notifyEach_grows {run : Runner W B} (hr : run.Stepping) {name : Str} {rethrow : Bool} :
    ∀ {ls : List (Listener B)} {s s' : World W B × Str}, notifyEach run name rethrow ls s = some s' →
      ManageableHasValue s.1 → Grows s.1 s'.1 := by
  intro ls
  induction ls with
  | nil => intro s s' h _; cases h; exact Grows.refl _
  | cons l ls ih =>
    intro s s' h hm
    simp only [notifyEach] at h
    split at h
    · cases h
    · next s1 h1 =>
      obtain ⟨g, hm1⟩ := notifyOne_grows hr h1 hm
      exact g.trans (ih h hm1)

/-- **What the loop runs**: from position `i` on, the rest of the list as it
is when the loop ends. -/
theorem notify_runs {run : Runner W B} (hr : run.Stepping) {name : Str} {rethrow : Bool} :
    ∀ {n i : Nat} {s s' : World W B × Str} {ran ran' : List (Listener B)}, ManageableHasValue s.1 →
      notify run name rethrow n i s ran = some (s', ran') →
      ran' = ran ++ (s'.1.store.listeners name).drop i ∧
        notifyEach run name rethrow ((s'.1.store.listeners name).drop i) s = some s' := by
  intro n
  induction n with
  | zero => intro i s s' ran ran' _ h; cases h
  | succ n ih =>
    intro i s s' ran ran' hm h
    simp only [notify] at h
    split at h
    · next hi =>
      cases h
      have hlen : (s.1.store.listeners name).length ≤ i := List.getElem?_eq_none_iff.mp hi
      rw [List.drop_eq_nil_of_le hlen]
      exact ⟨by simp, rfl⟩
    · next l hi =>
      split at h
      · cases h
      · next s1 h1 =>
        obtain ⟨g1, hm1⟩ := notifyOne_grows hr h1 hm
        obtain ⟨hran, heach⟩ := ih hm1 h
        -- position `i` of the final list still holds `l`
        have hfin : (s'.1.store.listeners name)[i]? = some l := by
          have hsteps := (notify_steps hr h).grows hm1
          obtain ⟨t, ht⟩ := (g1.listeners name).trans (hsteps.1.listeners name)
          rw [← ht, List.getElem?_append_left (List.getElem?_eq_some_iff.mp hi).1]
          exact hi
        have hdrop : (s'.1.store.listeners name).drop i = l :: (s'.1.store.listeners name).drop (i + 1) := by
          obtain ⟨hlt, hget⟩ := List.getElem?_eq_some_iff.mp hfin
          rw [List.drop_eq_getElem_cons hlt, hget]
        refine ⟨by rw [hran, hdrop]; simp, ?_⟩
        rw [hdrop]
        simp only [notifyEach, h1]
        exact heach

/-- If the rest of the list, run in turn, leaves the list as it is, the loop
ends and runs just that. -/
theorem notify_of_each {run : Runner W B} (hr : run.Stepping) {name : Str} {rethrow : Bool} :
    ∀ (ls pre ran : List (Listener B)) (n : Nat) {s s' : World W B × Str}, ManageableHasValue s.1 →
      ls.length < n → s.1.store.listeners name = pre ++ ls → s'.1.store.listeners name = pre ++ ls →
      notifyEach run name rethrow ls s = some s' →
      notify run name rethrow n pre.length s ran = some (s', ran ++ ls) := by
  intro ls
  induction ls with
  | nil =>
    intro pre ran n s s' hm hn hs hs' h
    obtain ⟨n, rfl⟩ : ∃ k, n = k + 1 := ⟨n - 1, by simp at hn; omega⟩
    cases h
    simp [notify, hs]
  | cons l ls ih =>
    intro pre ran n s s' hm hn hs hs' h
    obtain ⟨n, rfl⟩ : ∃ k, n = k + 1 := ⟨n - 1, by omega⟩
    simp only [notifyEach] at h
    split at h
    · cases h
    · next s1 h1 =>
      obtain ⟨g1, hm1⟩ := notifyOne_grows hr h1 hm
      have g2 := notifyEach_grows hr h hm1
      -- between two equal lists the list does not change
      have hs1 : s1.1.store.listeners name = pre ++ l :: ls := by
        have hp := g1.listeners name
        have hp' := g2.listeners name
        rw [hs] at hp
        rw [hs'] at hp'
        exact (List.IsPrefix.eq_of_length_le hp' hp.length_le)
      have hl : (s.1.store.listeners name)[pre.length]? = some l := by simp [hs]
      simp only [notify, hl, h1]
      have hrec := ih (pre ++ [l]) (ran ++ [l]) n hm1 (by simp at hn; omega)
        (by rw [hs1]; simp) (by rw [hs']; simp) h
      simpa using hrec

/-! ## The listeners registered when the value is stored -/

/-- The call's own loop runs exactly the listeners registered when the value
is stored (`w₁`), each once, in addition order; and it ends whenever each
of these returns or throws in its turn. -/
structure NotifiesSnapshot (env : Env) (code : B → Instr W B) (P : PropType) (name : Str) (v : P.Val)
    (rethrow : Bool) (w w₁ : World W B) : Prop where
  exact : ∀ n r ran, setConfigPropertyValue (runListener env code n) n P name v rethrow w = some (r, ran) →
    ran = w₁.store.listeners name
  ends : (∃ n s, notifyEach (runListener env code n) name rethrow (w₁.store.listeners name)
    (w₁, descriptionsInitial name) = some s) →
    ∃ n r, setConfigPropertyValue (runListener env code n) n P name v rethrow w = some r

/-- The listeners registered when the value is stored, run in turn to their
ends, register no listener on the property. -/
def NoneRegistered (env : Env) (code : B → Instr W B) (name : Str) (rethrow : Bool) (w₁ : World W B) : Prop :=
  ∀ n s, notifyEach (runListener env code n) name rethrow (w₁.store.listeners name)
    (w₁, descriptionsInitial name) = some s → s.1.store.listeners name = w₁.store.listeners name

/-- A set that stores runs the loop from the world `w₁` it stored in. -/
theorem set_eq_some {run : Runner W B} {n : Nat} {P : PropType} {name : Str} {v : P.Val} {rethrow : Bool}
    {w w₁ : World W B} (hw : storeNewValue P name v w = (w₁, .ok ())) {r ran} :
    setConfigPropertyValue run n P name v rethrow w = some (r, ran) ↔
      ∃ s, notify run name rethrow n 0 (w₁, descriptionsInitial name) [] = some (s, ran) ∧
        r = (s.1, rethrowResult name rethrow s.2) := by
  unfold setConfigPropertyValue
  rw [hw]
  simp only
  split
  · next hn => simp [hn]
  · next w' d ran' hn =>
    simp only [hn, Option.some.injEq, Prod.mk.injEq]
    refine ⟨fun h => ?_, fun ⟨s, h, hr⟩ => ?_⟩
    · exact ⟨(w', d), ⟨rfl, h.2⟩, h.1.symm⟩
    · obtain ⟨rfl, rfl⟩ := h
      exact ⟨hr.symm, rfl⟩

/-- The world and result of a set do not depend on the fuel they are
reached with. -/
theorem set_unique {env : Env} {code : B → Instr W B} {n m : Nat} {P : PropType} {name : Str} {v : P.Val}
    {rethrow : Bool} {w : World W B} {r r'}
    (h : setConfigPropertyValue (runListener env code n) n P name v rethrow w = some r)
    (h' : setConfigPropertyValue (runListener env code m) m P name v rethrow w = some r') : r = r' := by
  have h1 := setConfigPropertyValue_mono (runListener_mono env code (Nat.le_max_left n m))
    (Nat.le_max_left n m) h
  have h2 := setConfigPropertyValue_mono (runListener_mono env code (Nat.le_max_right n m))
    (Nat.le_max_right n m) h'
  rw [h1] at h2
  exact Option.some.inj h2

/-- Where the listeners of `w₁`, run in turn, end and register none, the set
runs them and ends. -/
theorem set_of_each {env : Env} {code : B → Instr W B} {P : PropType} {name : Str} {v : P.Val}
    {rethrow : Bool} {w w₁ : World W B} (hm : ManageableHasValue w₁)
    (hw : storeNewValue P name v w = (w₁, .ok ())) {n : Nat} {s : World W B × Str}
    (hs : notifyEach (runListener env code n) name rethrow (w₁.store.listeners name)
      (w₁, descriptionsInitial name) = some s)
    (hnone : s.1.store.listeners name = w₁.store.listeners name) :
    ∃ m, setConfigPropertyValue (runListener env code m) m P name v rethrow w =
      some ((s.1, rethrowResult name rethrow s.2), w₁.store.listeners name) := by
  have hle : n ≤ n + (w₁.store.listeners name).length + 1 := by omega
  have heach := notifyEach_mono (runListener_mono env code hle) hs
  have hloop := notify_of_each (runListener_steps env code _) (w₁.store.listeners name) [] []
    (n + (w₁.store.listeners name).length + 1) hm (by omega) rfl hnone heach
  exact ⟨_, (set_eq_some hw).mpr ⟨s, hloop, rfl⟩⟩

/-- **The notification set.** In every reachable state, a set runs exactly
the listeners registered when its value is stored, and ends when they do,
if and only if these register no other listener on the property. -/
theorem notifiesSnapshot_iff (env : Env) (code : B → Instr W B) (P : PropType) (name : Str) (v : P.Val)
    (rethrow : Bool) (w w₁ : World W B) (hreach : Reach env code w)
    (hw : storeNewValue P name v w = (w₁, .ok ())) :
    NotifiesSnapshot env code P name v rethrow w w₁ ↔ NoneRegistered env code name rethrow w₁ := by
  have hm : ManageableHasValue w₁ := (Reach.stored hreach hw).manageableHasValue
  refine ⟨fun h n s hs => ?_, fun h => ⟨fun n r ran hset => ?_, fun ⟨n, s, hs⟩ => ?_⟩⟩
  · -- the loop ends, after running exactly these; what it ran is the list at its end
    obtain ⟨m, ⟨r, ran⟩, hset⟩ := h.ends ⟨n, s, hs⟩
    have hran := h.exact m r ran hset
    obtain ⟨s', hn, -⟩ := (set_eq_some hw).mp hset
    obtain ⟨hr', heach⟩ := notify_runs (runListener_steps env code m) hm hn
    simp only [List.nil_append, List.drop_zero] at hr' heach
    have hlist : s'.1.store.listeners name = w₁.store.listeners name := hr' ▸ hran
    rw [hlist] at heach
    have hs1 := notifyEach_mono (runListener_mono env code (Nat.le_max_left n m)) hs
    have hs2 := notifyEach_mono (runListener_mono env code (Nat.le_max_right n m)) heach
    rw [hs1, Option.some.injEq] at hs2
    rw [hs2, hlist]
  · -- a loop that ended has run the registered ones first, and would have ended there
    obtain ⟨s, hn, -⟩ := (set_eq_some hw).mp hset
    obtain ⟨-, heach⟩ := notify_runs (runListener_steps env code n) hm hn
    obtain ⟨t, ht⟩ := ((notify_steps (runListener_steps env code n) hn).grows hm).1.listeners name
    rw [List.drop_zero, ← ht, notifyEach_append] at heach
    obtain ⟨s0, h0, -⟩ := Option.bind_eq_some_iff.mp heach
    obtain ⟨m, hset'⟩ := set_of_each hm hw h0 (h n s0 h0)
    have := set_unique hset hset'
    exact (Prod.mk.injEq .. ▸ this).2
  · obtain ⟨m, hset⟩ := set_of_each hm hw hs (h n s hs)
    exact ⟨m, _, hset⟩

/-! ## A listener that registers another -/

/-- `first` registers a listener at `late` on property `p` and returns. -/
inductive RegPoint where
  | first | late
  deriving DecidableEq

def regCode : RegPoint → Instr Unit RegPoint
  | .first => .call (.addListener "p".toList ⟨.late, "late".toList⟩) fun _ => .late
  | .late => .ret

/-- A manageable boolean `p`, false, with the listener `first`. -/
def regWorld : World Unit RegPoint :=
  (addPropertyListener "p".toList ⟨.first, "first".toList⟩
    (addConfigProperty noEnv .bool "p".toList (some false) false true [] (World.empty .off ())).1).1

theorem regWorld_reach : Reach noEnv regCode regWorld := by
  have hadd : call noEnv regCode 0 (.add .bool "p".toList (some false) false true [])
    (World.empty .off ()) = some _ := rfl
  have hlisten : call noEnv regCode 0 (.addListener "p".toList ⟨.first, "first".toList⟩)
    (addConfigProperty noEnv .bool "p".toList (some false) false true [] (World.empty .off ())).1 =
      some _ := rfl
  exact Reach.call (Reach.call (Reach.empty .off ()) hadd) hlisten

/-- The world in which `p` is set to true, before its listeners run. -/
def regStored : World Unit RegPoint := (storeNewValue .bool "p".toList true regWorld).1

theorem regStored_eq : storeNewValue .bool "p".toList true regWorld = (regStored, .ok ()) := by
  have : (storeNewValue .bool "p".toList true regWorld).2 = .ok () := by decide
  rw [← this]; rfl

/-- Setting `p` runs `late` too, which `first` has just registered. -/
theorem notifiesSnapshot_fails :
    ¬ NotifiesSnapshot noEnv regCode .bool "p".toList true false regWorld regStored := by
  intro h
  have hran : (setConfigPropertyValue (runListener noEnv regCode 4) 4 .bool "p".toList true false
      regWorld).map Prod.snd = some [⟨RegPoint.first, "first".toList⟩, ⟨.late, "late".toList⟩] := by decide
  obtain ⟨⟨r, ran⟩, hset, hr⟩ := Option.map_eq_some_iff.mp hran
  have := h.exact 4 r ran hset
  rw [show ran = _ from hr] at this
  revert this; decide

/-- At that input the equivalence says that `first` is to blame. -/
theorem notifiesSnapshot_regWorld :
    NotifiesSnapshot noEnv regCode .bool "p".toList true false regWorld regStored ↔
      NoneRegistered noEnv regCode "p".toList false regStored :=
  notifiesSnapshot_iff noEnv regCode .bool "p".toList true false regWorld regStored regWorld_reach
    regStored_eq

end SoapStab.Config
