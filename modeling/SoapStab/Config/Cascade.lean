import SoapStab.Config.Steps

/-!
# Sets that set: when a cascade of listeners ends

A listener may set properties, whose listeners run inside its own run, and
may register listeners, which the running loop may come to. Nothing in the
code bounds this.

**Results.**
* `cascades_end`: with properties ranked so that a listener only sets, and
  only registers on, properties of a lower rank than its own, every run of
  outermost calls ends, if the bodies end between their calls.
* `cycles_never_end`: where the first listener of each of some properties
  begins by setting one of them again, a set of any of them never returns.
-/
namespace SoapStab.Config

variable {W B : Type}

/-! ## Listeners that only go down -/

/-- The property whose listeners an operation runs or adds to. -/
def Op.target : Op B → Option Str
  | .set _ name _ _ => some name
  | .addListener name _ => some name
  | _ => none

/-- A body of rank `r` ends if its calls do: its instructions are
well-founded, its sets and registrations are on properties below `r`, and
what it registers is of the rank of its property. -/
inductive Ends (code : B → Instr W B) (rank : Str → Nat) : Nat → B → Prop
  | ret {r b} (h : code b = .ret) : Ends code rank r b
  | throw {r b e} (h : code b = .throw e) : Ends code rank r b
  | step {r b f} (h : code b = .step f) (next : ∀ m, Ends code rank r (f m).2) : Ends code rank r b
  | log {r b lvl text b'} (h : code b = .log lvl text b') (next : Ends code rank r b') :
    Ends code rank r b
  | getLevel {r b k} (h : code b = .getLevel k) (next : ∀ lvl, Ends code rank r (k lvl)) :
    Ends code rank r b
  | setLevel {r b lvl b'} (h : code b = .setLevel lvl b') (next : Ends code rank r b') : Ends code rank r b
  | call {r b op k} (h : code b = .call op k) (below : ∀ name, op.target = some name → rank name < r)
    (listener : ∀ name l, op = .addListener name l → Ends code rank (rank name) l.func)
    (next : ∀ res, Ends code rank r (k res)) : Ends code rank r b

variable {code : B → Instr W B} {rank : Str → Nat} {env : Env} {w w' w'' : World W B} {r : Nat}

/-- The registered listeners are of the ranks of their properties. -/
structure Ranked (code : B → Instr W B) (rank : Str → Nat) (w : World W B) : Prop where
  valued : ManageableHasValue w
  ends : ∀ name, ∀ l ∈ w.store.listeners name, Ends code rank (rank name) l.func

/-- What a body of rank `r` keeps: the listeners of properties not below. -/
structure KeepsAbove (code : B → Instr W B) (rank : Str → Nat) (r : Nat) (w w' : World W B) : Prop where
  ranked : Ranked code rank w'
  above : ∀ name, r ≤ rank name → w'.store.listeners name = w.store.listeners name

theorem KeepsAbove.trans (h : KeepsAbove code rank r w w') (h' : KeepsAbove code rank r w' w'') :
    KeepsAbove code rank r w w'' :=
  ⟨h'.ranked, fun name hn => (h'.above name hn).trans (h.above name hn)⟩

theorem KeepsAbove.mono {r' : Nat} (h : KeepsAbove code rank r w w') (hr : r ≤ r') :
    KeepsAbove code rank r' w w' :=
  ⟨h.ranked, fun name hn => h.above name (hr.trans hn)⟩

theorem KeepsAbove.of_listeners (hw : Ranked code rank w) (hv : ManageableHasValue w')
    (hs : ∀ name, w'.store.listeners name = w.store.listeners name) : KeepsAbove code rank r w w' :=
  ⟨⟨hv, fun name l hl => hw.ends name l (hs name ▸ hl)⟩, fun name _ => hs name⟩

theorem KeepsAbove.of_store (hw : Ranked code rank w) (hs : w'.store = w.store) : KeepsAbove code rank r w w' :=
  .of_listeners hw (hw.valued.of_store hs) fun name => by rw [hs]

/-- The add of a fresh property registers nothing. -/
theorem listeners_addProperty (hw : ManageableHasValue w) {name : Str} (hf : name ∉ w.store.propertyValues)
    (v : Var) (hid m : Bool) (desc : Str) (n : Str) :
    (w.store.addProperty name v hid m desc).listeners n = w.store.listeners n := by
  have hnone : w.store.manageableProperties.lookup name = none :=
    Finmap.lookup_eq_none.mpr fun hm => hf (hw name hm)
  cases m with
  | false => rfl
  | true =>
    by_cases hn : n = name
    · subst hn
      simp [Store.listeners, Store.addProperty, hnone]
    · simp [Store.listeners, Store.addProperty, Finmap.lookup_insert_of_ne _ hn]

/-- An operation that runs no listener ends, and registers at most what it is
told to. -/
theorem plain_keeps (hw : Ranked code rank w) {op : Op B} {res : Res W B Ret} (h : op.plain env w = some res)
    (below : ∀ name l, op = .addListener name l → rank name < r)
    (listener : ∀ name l, op = .addListener name l → Ends code rank (rank name) l.func) :
    KeepsAbove code rank r w res.1 := by
  have hv := ((plain_steps h).grows hw.valued).2
  rcases (plain_writes h).store with hs | ⟨name, v, hid, m, desc, hf, hs⟩ | ⟨name, l, ls, hop, hls, hs⟩
  · exact .of_store hw hs
  · exact .of_listeners hw hv fun n => by rw [hs, listeners_addProperty hw.valued hf]
  · have hname : w.store.listeners name = ls := by rw [Store.listeners, hls, Option.getD_some]
    refine ⟨⟨hv, fun n l' hl' => ?_⟩, fun n hn => ?_⟩
    · rw [hs, listeners_pushListener] at hl'
      split at hl'
      · next he =>
        subst he
        rcases List.mem_append.mp hl' with hl' | hl'
        · exact hw.ends n l' (hname ▸ hl')
        · rw [List.mem_singleton.mp hl']
          exact listener n l hop
      · exact hw.ends n l' hl'
    · rw [hs, listeners_pushListener, if_neg]
      rintro rfl
      exact absurd (below n l hop) (not_lt.mpr hn)

/-! ## Bodies, loops and sets that end -/

/-- Every set of the property ends. -/
def SetsEnd (env : Env) (code : B → Instr W B) (rank : Str → Nat) (name : Str) : Prop :=
  ∀ (P : PropType) (v : P.Val) (rethrow : Bool) (w : World W B), Ranked code rank w →
    ∃ n q, setConfigPropertyValue (runListener env code n) n P name v rethrow w = some q ∧
      KeepsAbove code rank (rank name) w q.1.1

theorem exec_ends (hw : Ranked code rank w) {op : Op B}
    (hsets : ∀ P name v rethrow, op = .set P name v rethrow → SetsEnd env code rank name)
    (below : ∀ name, op.target = some name → rank name < r)
    (listener : ∀ name l, op = .addListener name l → Ends code rank (rank name) l.func) :
    ∃ n res, op.exec env (runListener env code n) n w = some res ∧ KeepsAbove code rank r w res.1 := by
  have hadds : ∀ name l, op = .addListener name l → rank name < r := fun name l he =>
    below name (by rw [he]; rfl)
  cases op with
  | set P name v rethrow =>
    obtain ⟨n, q, hq, hkeeps⟩ := hsets P name v rethrow rfl P v rethrow w hw
    exact ⟨n, _, by rw [Op.exec, hq, Option.map_some], hkeeps.mono (below name rfl).le⟩
  | _ => exact ⟨0, _, rfl, @plain_keeps _ _ _ _ env _ _ hw _ _ rfl hadds listener⟩

/-- **A body.** -/
theorem body_ends (hsets : ∀ name, rank name < r → SetsEnd env code rank name) {b : B}
    (hb : Ends code rank r b) (w : World W B) (hw : Ranked code rank w) :
    ∃ n w' res, runListener env code n b w = some (w', res) ∧ KeepsAbove code rank r w w' := by
  induction hb generalizing w with
  | ret h => exact ⟨1, w, .ok (), by rw [runListener, h], .of_store hw rfl⟩
  | @throw r b e h => exact ⟨1, w, .error e, by rw [runListener, h], .of_store hw rfl⟩
  | @step r b f h next ih =>
    have hstep : KeepsAbove code rank r w { w with mem := (f w.mem).1 } := .of_store hw rfl
    obtain ⟨n, w', res, hrun, hkeeps⟩ := ih w.mem hsets _ hstep.ranked
    exact ⟨n + 1, w', res, by rw [runListener, h]; exact hrun, hstep.trans hkeeps⟩
  | @log r b lvl text b' h next ih =>
    have hlog : KeepsAbove code rank r w (w.log lvl text) := .of_store hw rfl
    obtain ⟨n, w', res, hrun, hkeeps⟩ := ih hsets _ hlog.ranked
    exact ⟨n + 1, w', res, by rw [runListener, h]; exact hrun, hlog.trans hkeeps⟩
  | @getLevel r b k h next ih =>
    obtain ⟨n, w', res, hrun, hkeeps⟩ := ih w.logger.level hsets w hw
    exact ⟨n + 1, w', res, by rw [runListener, h]; exact hrun, hkeeps⟩
  | @setLevel r b lvl b' h next ih =>
    have hlevel : KeepsAbove code rank r w (w.setLevel lvl) := .of_store hw rfl
    obtain ⟨n, w', res, hrun, hkeeps⟩ := ih hsets _ hlevel.ranked
    exact ⟨n + 1, w', res, by rw [runListener, h]; exact hrun, hlevel.trans hkeeps⟩
  | @call r b op k h below listener next _ ih =>
    have hcalls : ∀ P name v rethrow, op = .set P name v rethrow → SetsEnd env code rank name :=
      fun P name v rethrow he => hsets name (below name (by rw [he]; rfl))
    obtain ⟨n₁, q, hq, hcall⟩ := exec_ends hw hcalls below listener
    obtain ⟨n₂, w', res, hrun, hkeeps⟩ := ih q.2 hsets q.1 hcall.ranked
    refine ⟨max n₁ n₂ + 1, w', res, ?_, hcall.trans hkeeps⟩
    have hq' := Op.exec_mono (runListener_mono env code (le_max_left n₁ n₂)) (le_max_left n₁ n₂) hq
    rw [runListener, h]
    simp only [hq']
    exact runListener_mono env code (le_max_right n₁ n₂) _ _ _ hrun

/-- **The loop.** Its list stays as it is, and each of its listeners ends. -/
theorem notify_ends {name : Str} (hsets : ∀ q, rank q < rank name → SetsEnd env code rank q)
    (rethrow : Bool) (k : Nat) : ∀ (i : Nat) (s : World W B × Str) (ran : List (Listener B)),
      Ranked code rank s.1 → (s.1.store.listeners name).length = i + k →
      ∃ n q, notify (runListener env code n) name rethrow n i s ran = some q ∧
        KeepsAbove code rank (rank name) s.1 q.1.1 := by
  induction k with
  | zero =>
    intro i s ran hs hlength
    have hnone : (s.1.store.listeners name)[i]? = none := List.getElem?_eq_none (by omega)
    exact ⟨1, (s, ran), by rw [notify, hnone], .of_store hs rfl⟩
  | succ k ih =>
    intro i s ran hs hlength
    have hlt : i < (s.1.store.listeners name).length := by omega
    obtain ⟨l, hl⟩ : ∃ l, (s.1.store.listeners name)[i]? = some l := ⟨_, List.getElem?_eq_getElem hlt⟩
    have hlog : KeepsAbove code rank (rank name) s.1 (s.1.log .trace
        ("config::set_config_property_value(): executing listener ".toList ++ l.name ++
          " on property ".toList ++ name)) := .of_store hs rfl
    obtain ⟨n₁, w₁, res, hrun, hkeeps⟩ :=
      body_ends hsets (hs.ends name l (List.mem_of_getElem? hl)) _ hlog.ranked
    obtain ⟨s', hone, hs'⟩ : ∃ s', notifyOne (runListener env code n₁) name rethrow l s = some s' ∧
        s'.1.store = w₁.store := by
      simp only [notifyOne, hrun]
      exact ⟨_, rfl, rfl⟩
    have hlater : KeepsAbove code rank (rank name) s.1 s'.1 :=
      ⟨(KeepsAbove.of_store (r := rank name) hkeeps.ranked hs').ranked,
        fun q hq => by rw [hs']; exact hkeeps.above q hq⟩
    obtain ⟨n₂, q, hq, hrest⟩ := ih (i + 1) s' (ran ++ [l]) hlater.ranked
      (by rw [hlater.above name (le_refl _)]; omega)
    refine ⟨max n₁ n₂ + 1, q, ?_, hlater.trans hrest⟩
    have hone' := notifyOne_mono (runListener_mono env code (Nat.le_succ_of_le (le_max_left n₁ n₂))) hone
    have hq' := notify_mono (runListener_mono env code (Nat.le_succ_of_le (le_max_right n₁ n₂)))
      (le_max_right n₁ n₂) hq
    rw [notify, hl]
    simp only [hone', hq']

theorem set_ends {name : Str} (hsets : ∀ q, rank q < rank name → SetsEnd env code rank q) :
    SetsEnd env code rank name := by
  intro P v rethrow w hw
  rcases storeNewValue_cases hw.valued P name v with ⟨old, hm, -, hstored⟩ | ⟨-, t, hfailed⟩
  · have hstep := storeNewValue_steps P name v w
    rw [hstored] at hstep
    have hkeeps : KeepsAbove code rank (rank name) w (storedWorld P name old v w) :=
      .of_listeners hw (hstep.grows hw.valued).2 fun _ => rfl
    obtain ⟨n, q, hq, hrest⟩ := notify_ends hsets rethrow _ 0
      (storedWorld P name old v w, descriptionsInitial name) [] hkeeps.ranked (Nat.zero_add _).symm
    refine ⟨n, ((q.1.1, rethrowResult name rethrow q.1.2), q.2), ?_, hkeeps.trans hrest⟩
    simp only [setConfigPropertyValue, hstored, hq]
  · exact ⟨0, ((w.log .err t, configError), []), by simp only [setConfigPropertyValue, hfailed, configError],
      .of_store hw rfl⟩

/-- With ranked listeners every set ends. -/
theorem sets_end (env : Env) (code : B → Instr W B) (rank : Str → Nat) (name : Str) :
    SetsEnd env code rank name := by
  induction hn : rank name using Nat.strong_induction_on generalizing name with
  | _ n ih => exact set_ends fun q hq => ih (rank q) (hn ▸ hq) q rfl

theorem calls_end_of_ranked (hw : Ranked code rank w) {ops : List (Op B)}
    (h : ∀ op ∈ ops, ∀ name l, op = .addListener name l → Ends code rank (rank name) l.func) :
    ∃ n r, calls env code n ops w = some r := by
  induction ops generalizing w with
  | nil => exact ⟨0, _, rfl⟩
  | cons op ops ih =>
    let top := (op.target.map rank).getD 0 + 1
    have hbelow : ∀ name, op.target = some name → rank name < top := fun name he => by simp [top, he]
    have hsets : ∀ P name v rethrow, op = .set P name v rethrow → SetsEnd env code rank name :=
      fun P name v rethrow _ => sets_end env code rank name
    obtain ⟨n₁, q, hq, hkeeps⟩ := exec_ends hw hsets hbelow (h op List.mem_cons_self)
    obtain ⟨n₂, r, hr⟩ := ih hkeeps.ranked fun op hop => h op (List.mem_cons_of_mem _ hop)
    refine ⟨max n₁ n₂, (r.1, q.2 :: r.2), ?_⟩
    have hq' : call env code (max n₁ n₂) op w = some q := call_mono (le_max_left n₁ n₂) hq
    simp only [calls, hq', calls_mono (le_max_right n₁ n₂) hr, Option.map_some]

/-- **Cascades end.** If some ranking of the properties is such that every
listener the program registers only sets, and only registers on, properties
ranked below its own, and its body ends if its calls do, then every sequence
of calls returns, whatever values are set. -/
theorem cascades_end (env : Env) (code : B → Instr W B) (rank : Str → Nat) (ops : List (Op B)) (lvl : Level)
    (mem : W) (h : ∀ op ∈ ops, ∀ name l, op = .addListener name l → Ends code rank (rank name) l.func) :
    ∃ n r, calls env code n ops (World.empty lvl mem) = some r := by
  have hempty : ∀ name, (World.empty lvl mem : World W B).store.listeners name = [] := fun _ => rfl
  refine calls_end_of_ranked ⟨fun name hn => absurd hn Finmap.notMem_empty, fun name l hl => ?_⟩ h
  rw [hempty] at hl
  cases hl

/-- Listeners on `a` and `b`: the first sets `b`, the second returns. -/
def downOnce : Bool → Instr Unit Bool
  | true => .call (.set .bool "b".toList true false) fun _ => false
  | false => .ret

theorem cascades_end_downOnce : ∃ n r, calls noEnv downOnce n
    [.add .bool "a".toList (some false) false true [], .add .bool "b".toList (some false) false true [],
      .addListener "b".toList ⟨false, []⟩, .addListener "a".toList ⟨true, []⟩,
      .set .bool "a".toList true false] (World.empty .off ()) = some r := by
  have hret : ∀ r, Ends downOnce (fun name => if name = "a".toList then 1 else 0) r false := fun r => .ret rfl
  refine cascades_end noEnv downOnce (fun name => if name = "a".toList then 1 else 0) _ .off ()
    fun op hop name l he => ?_
  subst he
  simp only [List.mem_cons, reduceCtorEq, Op.addListener.injEq, List.not_mem_nil, or_false, false_or] at hop
  rcases hop with ⟨rfl, rfl⟩ | ⟨rfl, rfl⟩
  · exact hret _
  · refine .call rfl (fun name he => ?_) (fun name l he => by cases he) fun _ => hret _
    cases he
    decide

/-! ## Cascades that never end -/

/-- The first listener of every property of `S` begins by setting a property
of `S`, to a value of its type. -/
def Circular (code : B → Instr W B) (S : Str → Prop) (w : World W B) : Prop :=
  ∀ name, S name → ∃ l ls Q next v rethrow k,
    w.store.manageableProperties.lookup name = some (l :: ls) ∧
      code l.func = .call (.set Q next v rethrow) k ∧ S next ∧
      ∃ x, w.store.propertyValues.lookup next = some ⟨Q, x⟩

/-- A set keeps the types of the values and the listeners. -/
theorem Circular.stored {S : Str → Prop} (h : Circular code S w) {P : PropType} {name : Str} {old : P.Val}
    (hv : w.store.propertyValues.lookup name = some ⟨P, old⟩) (v : P.Val)
    (hs : w'.store = w.store.setValue name ⟨P, v⟩) : Circular code S w' := by
  intro n hn
  obtain ⟨l, ls, Q, next, x, rethrow, k, hl, hcode, hnext, y, hy⟩ := h n hn
  refine ⟨l, ls, Q, next, x, rethrow, k, by rw [hs]; exact hl, hcode, hnext, ?_⟩
  rw [hs]
  by_cases hname : next = name
  · subst hname
    rw [hv] at hy
    cases hy
    exact ⟨v, Finmap.lookup_insert _⟩
  · exact ⟨y, (Finmap.lookup_insert_of_ne _ hname).trans hy⟩

/-- A set whose first listener does not return does not. -/
theorem set_none_of_first {run : Runner W B} {m : Nat} {P : PropType} {name : Str} {old v : P.Val}
    {rethrow : Bool} {l : Listener B} {ls : List (Listener B)}
    (hl : w.store.manageableProperties.lookup name = some (l :: ls))
    (hv : w.store.propertyValues.lookup name = some ⟨P, old⟩)
    (hrun : ∀ text, run l.func ((storedWorld P name old v w).log .trace text) = none) :
    setConfigPropertyValue run m P name v rethrow w = none := by
  have hstored := storeNewValue_eq (v := v) (Finmap.mem_iff.mpr ⟨_, hl⟩) hv
  rw [Var.strictGet_mk] at hstored
  have hfirst : ((storedWorld P name old v w).store.listeners name)[0]? = some l := by
    simp [Store.listeners, Store.setValue, hl]
  have hone : ∀ text, notifyOne run name rethrow l (storedWorld P name old v w, text) = none := fun text => by
    simp only [notifyOne, hrun]
  cases m with
  | zero => simp only [setConfigPropertyValue, hstored, notify]
  | succ m => simp only [setConfigPropertyValue, hstored, notify, hfirst, hone]

theorem set_never_ends {S : Str → Prop} (n : Nat) : ∀ (m : Nat) (w : World W B) (name : Str) (P : PropType)
    (v old : P.Val) (rethrow : Bool), Circular code S w → S name →
    w.store.propertyValues.lookup name = some ⟨P, old⟩ →
      setConfigPropertyValue (runListener env code n) m P name v rethrow w = none := by
  induction n with
  | zero =>
    intro m w name P v old rethrow hw hS hv
    obtain ⟨l, ls, -, -, -, -, -, hl, -⟩ := hw name hS
    exact set_none_of_first hl hv fun _ => rfl
  | succ n ih =>
    intro m w name P v old rethrow hw hS hv
    obtain ⟨l, ls, Q, next, x, rethrow', k, hl, hcode, hnext, y, hy⟩ := hw name hS
    refine set_none_of_first hl hv fun text => ?_
    -- the listener's own set is one of the same kind
    have hw' : Circular code S ((storedWorld P name old v w).log .trace text) := hw.stored hv v rfl
    obtain ⟨z, hz⟩ : ∃ z, ((storedWorld P name old v w).log .trace text).store.propertyValues.lookup next =
        some ⟨Q, z⟩ := by
      by_cases hname : next = name
      · subst hname
        rw [hv] at hy
        cases hy
        exact ⟨v, Finmap.lookup_insert _⟩
      · exact ⟨y, (Finmap.lookup_insert_of_ne _ hname).trans hy⟩
    rw [runListener, hcode]
    simp only [Op.exec, ih n _ next Q x z rethrow' hw' hnext hz, Option.map_none]

/-- **Cycles never end.** If the first listener of every property of a set
begins by setting one of the set again, a set of any of them never returns,
however long it runs. -/
theorem cycles_never_end (env : Env) (code : B → Instr W B) (S : Str → Prop) {w : World W B}
    (hw : Circular code S w) {name : Str} (hS : S name) {P : PropType} {old : P.Val}
    (hv : w.store.propertyValues.lookup name = some ⟨P, old⟩) (v : P.Val) (rethrow : Bool) (n : Nat) :
    call env code n (.set P name v rethrow) w = none := by
  rw [call, Op.exec, set_never_ends n n w name P v old rethrow hw hS hv, Option.map_none]

/-- A listener on `a` sets `a`. -/
def setsAgain : Unit → Instr Unit Unit := fun _ => .call (.set .bool "a".toList true false) fun _ => ()

def againWorld : World Unit Unit where
  store := { (Store.empty : Store Unit) with
    propertyValues := (∅ : Finmap fun _ : Str => Var).insert "a".toList ⟨.bool, false⟩
    manageableProperties := (∅ : Finmap fun _ : Str => List (Listener Unit)).insert "a".toList [⟨(), []⟩] }
  logger := ⟨.off, []⟩
  mem := ()
  history := []

theorem cycles_never_end_again :
    ¬ ∃ n r, call noEnv setsAgain n (.set .bool "a".toList true false) againWorld = some r := by
  rintro ⟨n, r, hr⟩
  have hvalue : againWorld.store.propertyValues.lookup "a".toList = some ⟨.bool, false⟩ :=
    Finmap.lookup_insert _
  have hcircular : Circular setsAgain (· = "a".toList) againWorld := by
    rintro name rfl
    exact ⟨⟨(), []⟩, [], .bool, "a".toList, true, false, fun _ => (), Finmap.lookup_insert _, rfl, rfl, false,
      hvalue⟩
  rw [cycles_never_end noEnv setsAgain (· = "a".toList) hcircular rfl hvalue] at hr
  cases hr

end SoapStab.Config
