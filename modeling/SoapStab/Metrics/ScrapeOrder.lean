import SoapStab.Metrics.Locking
import SoapStab.Metrics.Scrape

/-!
# Two scrapes of one counter

Between two responses 200 of one run, a counter that is not created again and
not set only grows: the second response has every series the first one has,
with the same label map and at least its value. This holds although neither
response is the state of the registry at one moment. As in `Service`, no
update of a metric, an insert included, overlaps its formatting, and values
are exact rationals: no `NaN` is added.

**Result.** `scrapes_go_up`. A series is an entry of the table, which keeps
its key (`Metric.Grown`).
-/

namespace SoapStab.Metrics

open SoapStab.Lib.Hash SoapStab.Lib.Lists SoapStab.Lib.Traces

variable {hs : Str → UInt64} {m m' m'' : Metric hs}

/-! ## What grows -/

/-- Every entry is still there, with the same key and at least its value. -/
def Metric.Grown (m m' : Metric hs) : Prop :=
  ∀ e ∈ m.valuesByLabels.entries, ∃ v, (e.1, v) ∈ m'.valuesByLabels.entries ∧ e.2.value ≤ v.value

theorem Metric.Grown.refl (m : Metric hs) : m.Grown m := fun e he => ⟨e.2, he, le_refl _⟩

theorem Metric.Grown.trans (h : m.Grown m') (h' : m'.Grown m'') : m.Grown m'' := by
  intro e he
  obtain ⟨v, hv, hle⟩ := h e he
  obtain ⟨w, hw, hle'⟩ := h' (e.1, v) hv
  exact ⟨w, hw, hle.trans hle'⟩

theorem Metric.Rehashed.grown (h : m.Rehashed m') : m.Grown m' := by
  obtain ⟨t, rfl, hp⟩ := h
  exact fun e he => ⟨e.2, hp.mem_iff.mpr he, le_refl _⟩

/-- A call that does not set makes a counter grow. -/
theorem grown_call (hc : m.cls = .counter) {c : Call} (hset : (Access.update c).isSet = false) :
    m.Grown (m.call c) := by
  have hkeys : ∀ e ∈ m.valuesByLabels.entries, ∃ v, (e.1, v) ∈ (m.call c).valuesByLabels.entries := by
    intro e he
    rw [call_eq]
    split
    · exact ⟨e.2, he⟩
    · exact exists_mem_assignIn _ _ he
  have hstored : ∀ {m : Metric hs} {l : LabelMap} {v : MetricValue}, (l, v) ∈ m.valuesByLabels.entries →
      stored m l = some v.value := by
    intro m l v hmem
    rw [stored, (m.valuesByLabels.find_iff l v).mpr ⟨(l, v), hmem, (labelKeys hs).same_refl l, rfl⟩]
    rfl
  intro e he
  obtain ⟨v, hv⟩ := hkeys e he
  obtain ⟨w, hw, hle⟩ := raised_access hc hset e.1 e.2.value (hstored he)
  have hval : v.value = w := Option.some.inj ((hstored hv).symm.trans hw)
  exact ⟨v, hv, hval ▸ hle⟩

theorem update_cls (m : Metric hs) (u : Update) : (m.update u).cls = m.cls := by
  obtain ⟨c, hc⟩ := update_eq_call m u
  rw [hc, call_cls]

/-- Whether an update overwrites what is stored. -/
def Update.isSet : Update → Bool
  | .call c => (Access.update c).isSet
  | .dec _ _ => false

theorem grown_update (hc : m.cls = .counter) {u : Update} (hset : u.isSet = false) : m.Grown (m.update u) := by
  cases u with
  | call c => exact grown_call hc hset
  | dec d now => exact grown_call (c := .inc (-d) now) hc rfl

namespace Connection

variable {env : Env} {s s' : Service hs} {i j : Nat}

/-! ## One handle in a run -/

theorem grown_step {e : ServiceEvent hs} (h : s.step env e = some s') {handle : Nat}
    (hm : s.registry.heap[handle]? = some m) (hc : m.cls = .counter)
    (hset : ∀ u, e = .metrics (.update handle u) → u.isSet = false) :
    ∃ m', s'.registry.heap[handle]? = some m' ∧ m'.cls = .counter ∧ m.Grown m' := by
  obtain ⟨hlt, -⟩ := List.getElem?_eq_some_iff.mp hm
  rcases registry_step h with ⟨st, rfl, hr⟩ | ⟨r, -, hre, hr⟩ | ⟨-, -, hr⟩
  · rw [hr]
    cases st with
    | createGauge name help v d now => exact ⟨m, (List.getElem?_append_left hlt).trans hm, hc, .refl m⟩
    | createCounter name help d now => exact ⟨m, (List.getElem?_append_left hlt).trans hm, hc, .refl m⟩
    | update k u =>
      simp only [Registry.step, Registry.update, List.getElem?_modify, hm, Option.map_eq_map, Option.map_some]
      by_cases hk : k = handle
      · subst hk
        rw [if_pos rfl]
        exact ⟨_, rfl, (update_cls m u).trans hc, grown_update hc (hset u rfl)⟩
      · rw [if_neg hk]
        exact ⟨m, rfl, hc, .refl m⟩
  · rw [hr]
    obtain ⟨hlength, hget⟩ := List.forall₂_iff_get.mp hre.heap
    have hlt' : handle < r.heap.length := hlength ▸ hlt
    obtain rfl : s.registry.heap[handle] = m := (List.getElem?_eq_some_iff.mp hm).2
    have hre' := hget handle hlt hlt'
    refine ⟨r.heap[handle], List.getElem?_eq_getElem hlt', ?_, hre'.grown⟩
    obtain ⟨t, ht, -⟩ := hre'
    rw [List.get_eq_getElem, List.get_eq_getElem] at ht
    rw [ht]
    exact hc
  · exact ⟨m, by rw [hr, hm], hc, .refl m⟩

/-- **A run.** A counter whose handle is not set grows. -/
theorem grown_exec {before rest : List (ServiceEvent hs)} (h : (service hs env).exec before = some s)
    (h' : (service hs env).exec (before ++ rest) = some s') {handle : Nat}
    (hm : s.registry.heap[handle]? = some m) (hc : m.cls = .counter)
    (hset : ∀ u, .metrics (.update handle u) ∈ rest → u.isSet = false) :
    ∃ m', s'.registry.heap[handle]? = some m' ∧ m'.cls = .counter ∧ m.Grown m' := by
  induction rest using List.reverseRecOn generalizing s' with
  | nil =>
    rw [List.append_nil, h] at h'
    cases h'
    exact ⟨m, hm, hc, .refl m⟩
  | append_singleton rest e ih =>
    rw [← List.append_assoc] at h'
    obtain ⟨s₁, h₁, hl⟩ := ((service hs env).exec_concat _ e s').mp h'
    obtain ⟨m₁, hm₁, hc₁, hg₁⟩ := ih h₁ fun u hu => hset u (List.mem_append_left _ hu)
    obtain ⟨m₂, hm₂, hc₂, hg₂⟩ := grown_step hl hm₁ hc₁ fun u hu => hset u (by simp [hu])
    exact ⟨m₂, hm₂, hc₂, hg₁.trans hg₂⟩

/-! ## One export after the other -/

/-- An export that began is under way until it ends. -/
theorem exporting_until {before d : List (ServiceEvent hs)} (h : (service hs env).exec before = some s)
    (hx : s.exporting ≠ none) (h' : (service hs env).exec (before ++ d) = some s') (hd : .exportEnds ∉ d) :
    s'.exporting ≠ none := by
  induction d using List.reverseRecOn generalizing s' with
  | nil =>
    rw [List.append_nil, h] at h'
    cases h'
    exact hx
  | append_singleton d e ih =>
    rw [← List.append_assoc] at h'
    obtain ⟨s₁, h₁, hl⟩ := ((service hs env).exec_concat _ e s').mp h'
    have hbusy : s₁.exporting ≠ none := ih h₁ fun he => hd (List.mem_append_left _ he)
    rcases service_cases hl with ⟨_, -, -, rfl⟩ | ⟨_, -, -, rfl⟩ | ⟨se, cs, -, -, -, rfl⟩ |
      ⟨i, c, cs, -, hnone, -⟩ | ⟨i, c, -, hnone, -⟩ | ⟨i, handle, todo, shown, m, -, -, -, rfl⟩ |
      ⟨i, shown, cs, rfl, -⟩
    · exact hbusy
    · exact hbusy
    · exact hbusy
    · exact absurd hnone hbusy
    · exact absurd hnone hbusy
    · simp
    · exact absurd (by simp) hd

/-- The step that begins an export. -/
theorem exportBegins_step (h : s.step env (.exportBegins i) = some s') :
    s.exporting = none ∧ s'.exporting ≠ none := by
  rcases service_cases h with ⟨_, he, -⟩ | ⟨_, he, -⟩ | ⟨_, _, he, -⟩ | ⟨_, _, _, he, -⟩ |
    ⟨j, c, -, hnone, -, -, rfl⟩ | ⟨_, _, _, _, _, he, -⟩ | ⟨_, _, _, he, -⟩
  · cases he
  · cases he
  · cases he
  · cases he
  · exact ⟨hnone, by simp⟩
  · cases he
  · cases he

theorem exec_begins {tr before rest : List (ServiceEvent hs)} (h : (service hs env).exec tr = some s)
    (htr : tr = before ++ .exportBegins i :: rest) : ∃ s₀ s₁, (service hs env).exec before = some s₀ ∧
      (service hs env).exec (before ++ [.exportBegins i]) = some s₁ ∧ s₀.exporting = none ∧ s₁.exporting ≠ none := by
  have hp : before ++ [.exportBegins i] <+: tr := ⟨rest, by rw [htr]; simp⟩
  obtain ⟨s₁, h₁⟩ := System.exec_prefix h hp
  obtain ⟨s₀, h₀, hl⟩ := ((service hs env).exec_concat _ _ s₁).mp h₁
  exact ⟨s₀, s₁, h₀, h₁, exportBegins_step hl⟩

/-- Two exports do not overlap: the one that began later began after the end
of the other. -/
theorem exports_apart {tr before during before' during' : List (ServiceEvent hs)} {ms ms' : List (Metric hs)}
    (h : (service hs env).exec tr = some s) (hx : ExportOf env tr i before during ms)
    (hx' : ExportOf env tr j before' during' ms') (hlt : before.length < before'.length) :
    before ++ .exportBegins i :: during <+: before' := by
  obtain ⟨after, htr⟩ := hx.run
  obtain ⟨after', htr'⟩ := hx'.run
  have hp' : before' <+: tr := ⟨_, htr'.symm⟩
  by_cases hle : (before ++ .exportBegins i :: during).length ≤ before'.length
  · exact List.prefix_of_prefix_length_le ⟨.exportEnds :: after, by rw [htr]; simp⟩ hp' hle
  -- the later one would have begun during the other
  exfalso
  obtain ⟨-, s₁, -, h₁, -, hbusy⟩ := exec_begins h htr
  obtain ⟨s₀', -, h₀', -, hnone, -⟩ := exec_begins h htr'
  have hp₁ : before ++ [.exportBegins i] <+: before' :=
    List.prefix_of_prefix_length_le ⟨during ++ .exportEnds :: after, by rw [htr]; simp⟩ hp'
      (by rw [List.length_append]; exact hlt)
  have hp₂ : before' <+: before ++ .exportBegins i :: during :=
    List.prefix_of_prefix_length_le hp' ⟨.exportEnds :: after, by rw [htr]; simp⟩ (by omega)
  obtain ⟨d, rfl⟩ := hp₁
  have hd : d <+: during := by simpa using hp₂
  exact exporting_until h₁ hbusy h₀' (fun he => hx.notEnded (hd.subset he)) hnone

/-- A name that is not created keeps its last handle. -/
theorem isLast_append_of_notMem {names rest : List Str} {name : Str} {handle : Nat}
    (h : IsLast names name handle) (hrest : name ∉ rest) : IsLast (names ++ rest) name handle := by
  induction rest using List.reverseRecOn with
  | nil => rwa [List.append_nil]
  | append_singleton rest n ih =>
    rw [List.mem_append, List.mem_singleton, not_or] at hrest
    rw [← List.append_assoc, isLast_append, if_neg (Ne.symm hrest.2)]
    exact ih hrest.1

/-- The last handle of a name that the registry maps. -/
theorem isLast_of_seen {before during : List (ServiceEvent hs)} {handle : Nat}
    (h : (service hs env).exec before = some s) (hh : handle ∈ s.registry.handles)
    (hseen : SeenIn env before during handle m) : IsLast s.registry.names m.name handle := by
  obtain ⟨e, he, rfl⟩ := List.mem_map.mp hh
  have hlast := isLast_of_mem (registry_exec h).1 he
  have hname := names_seen h hseen (List.getElem?_eq_some_iff.mp hlast.1).1
  rw [hlast.1] at hname
  exact Option.some.inj hname ▸ hlast

/-- **Scrapes go up.** A counter that one response 200 of a run shows is in
every later one, with each of its series at the same or a larger value, as
long as its name is not created again and it is not set. No update of a
metric overlaps its formatting, and values are exact rationals. -/
theorem scrapes_go_up (env : Env) {tr before during before' during' : List (ServiceEvent hs)}
    {ms ms' : List (Metric hs)} (h : (service hs env).exec tr = some s)
    (hx : ExportOf env tr i before during ms) (hx' : ExportOf env tr j before' during' ms')
    (hlt : before.length < before'.length) (hm : m ∈ ms) (hc : m.cls = .counter)
    (hcreate : ∀ e ∈ tr.drop before.length, e.creates ≠ some m.name)
    (hset : ∀ handle u, .metrics (.update handle u) ∈ tr.drop before.length →
      s.registry.names[handle]? = some m.name → u.isSet = false) :
    ∃ m' ∈ ms', m'.name = m.name ∧ m.Grown m' := by
  obtain ⟨s₀, h₀, hshown⟩ := hx.shown
  obtain ⟨s₀', h₀', hshown'⟩ := hx'.shown
  obtain ⟨after', htr'⟩ := hx'.run
  obtain ⟨d₀, hd₀⟩ := exports_apart h hx hx' hlt
  obtain ⟨handle, hh, hseen⟩ := exists_of_forall₂ hshown.flip hm
  have hlast := isLast_of_seen h₀ hh hseen
  -- the handle is still the last of its name when the second export begins
  have hdrop : tr.drop before.length =
      .exportBegins i :: during ++ d₀ ++ .exportBegins j :: (during' ++ .exportEnds :: after') := by
    rw [htr', ← hd₀, List.append_assoc, List.append_assoc, List.drop_left, List.append_assoc]
  have hnames : ∀ {t : List (ServiceEvent hs)} {s₁ : Service hs}, (service hs env).exec (before ++ t) = some s₁ →
      t <+: tr.drop before.length → IsLast s₁.registry.names m.name handle := by
    intro t s₁ h₁ ht
    rw [(registry_exec h₁).2.2, List.filterMap_append, ← (registry_exec h₀).2.2]
    refine isLast_append_of_notMem hlast fun hmem => ?_
    obtain ⟨e, he, hce⟩ := List.mem_filterMap.mp hmem
    exact hcreate e (ht.subset he) hce
  have hlast' : IsLast s₀'.registry.names m.name handle := by
    refine hnames (t := .exportBegins i :: during ++ d₀) ?_ ⟨_, hdrop.symm⟩
    rw [← List.append_assoc, hd₀]
    exact h₀'
  have hh' : handle ∈ s₀'.registry.handles := by
    have hfind := ((registry_exec h₀').1 m.name handle).mpr hlast'
    obtain ⟨e, he, -, rfl⟩ := (s₀'.registry.metrics.find_iff m.name handle).mp hfind
    exact List.mem_map_of_mem he
  obtain ⟨m', hm', hseen'⟩ := exists_of_forall₂ hshown' hh'
  have hname : m'.name = m.name := by
    have hsome := names_seen h₀' hseen' (List.getElem?_eq_some_iff.mp hlast'.1).1
    rw [hlast'.1] at hsome
    exact (Option.some.inj hsome).symm
  -- from the moment the first export saw the handle to that of the second
  obtain ⟨d, s₁, hd, h₁, hm₁⟩ := hseen
  obtain ⟨d', s₂, hd', h₂, hm₂⟩ := hseen'
  obtain ⟨d₁, hd₁⟩ := hd
  have hsplit : before' ++ d' = before ++ d ++ (d₁ ++ d₀ ++ d') := by
    rw [← hd₀, ← hd₁]
    simp
  have hfinal : s.registry.names[handle]? = some m.name := by
    have htr : tr = before ++ tr.drop before.length := by
      rw [hdrop, ← List.append_assoc, ← List.append_assoc, hd₀]
      exact htr'
    rw [htr] at h
    exact (hnames h (List.prefix_refl _)).1
  obtain ⟨m₂, hm₂', -, hgrown⟩ := grown_exec h₁ (hsplit ▸ h₂) hm₁ hc fun u hu => by
    refine hset handle u ?_ hfinal
    rw [hdrop, ← hd₁]
    rcases List.mem_append.mp hu with hu | hu
    · exact List.mem_append_left _ (by rw [List.append_assoc]; exact List.mem_append_right _ hu)
    · have hmem := List.mem_append_left (.exportEnds :: after') (hd'.subset hu)
      exact List.mem_append_right _ hmem
  rw [hm₂] at hm₂'
  cases hm₂'
  exact ⟨m', hm', hname, hgrown⟩

/-- Counter `b` is scraped at 0, raised to 2 and scraped again. -/
def twoScrapes : List (ServiceEvent fun _ => 0) :=
  [.metrics (.createCounter "b".toList [] noLabels 0), .server (.accept ⟨0, []⟩), .server (.accept ⟨0, []⟩),
    readEvent _ 0 ⟨0, []⟩ ⟨"GET".toList, "/".toList⟩, readEvent _ 1 ⟨0, []⟩ ⟨"GET".toList, "/".toList⟩,
    .exportBegins 0, .exportNext, .exportEnds, .metrics (.update 0 (.call (.inc 2 1))),
    .exportBegins 1, .exportNext, .exportEnds]

theorem scrapes_go_up_two : ∃ m' ∈ [(Counter.ctor (fun _ => 0) "b".toList [] noLabels 0).call (.inc 2 1)],
    m'.name = "b".toList ∧ (Counter.ctor (fun _ => 0) "b".toList [] noLabels 0).Grown m' := by
  have hx : ExportOf slashEnv twoScrapes 0 (twoScrapes.take 5) [.exportNext]
      [Counter.ctor (fun _ => 0) "b".toList [] noLabels 0] :=
    ⟨⟨_, rfl⟩, by simp, _, rfl, .cons ⟨_, _, List.nil_prefix, rfl, rfl⟩ .nil⟩
  have hx' : ExportOf slashEnv twoScrapes 1 (twoScrapes.take 9) [.exportNext]
      [(Counter.ctor (fun _ => 0) "b".toList [] noLabels 0).call (.inc 2 1)] :=
    ⟨⟨_, rfl⟩, by simp, _, rfl, .cons ⟨_, _, List.nil_prefix, rfl, rfl⟩ .nil⟩
  exact scrapes_go_up slashEnv rfl hx hx' (by decide) (List.mem_singleton_self _) rfl
    (by simp [twoScrapes, ServiceEvent.creates, Step.creates])
    (by simp [twoScrapes, readEvent, Update.isSet, Access.isSet])

end Connection

end SoapStab.Metrics
