import SoapStab.Metrics.Metric

/-!
# Is a series identified by its label map?

`_values_by_labels` is keyed by `label_map_t` under
`label_values_map_t_hash`. The property: label maps that are equal as maps
hash alike, so in every run of `set`/`inc` calls they address one entry.

The hash folds over the iteration order, so it does not hold of all label
maps. `LabelIdentity hs S` is the property for the label maps of `S` in any
iteration order, over whole runs; `labelIdentity_iff` says it holds exactly
when the pair hashes of each map of `S` agree (`PairHashesAgree`), as they do
when no map of `S` has more than one label. With two labels whose
pair hashes differ, a value set through one order is not the one read
through the other, and the series is exported twice
(`labelIdentity_fails`).
-/
namespace SoapStab.Metrics

open SoapStab.Lib.Hash

variable {hs : Str → UInt64}

/-- The label maps of `S`, in any iteration order. -/
def Upto (S : LabelMap → Prop) (m : LabelMap) : Prop := ∃ m₀, S m₀ ∧ m₀.eqv m = true

theorem upto_eqv {S : LabelMap → Prop} {m m' : LabelMap} (h : Upto S m) (he : m.eqv m' = true) :
    Upto S m' := by
  obtain ⟨m₀, h0, h1⟩ := h
  exact ⟨m₀, h0, LabelMap.eqv_trans h1 he⟩

/-- In one state of a metric: equal label maps are one series. -/
structure SeriesIdentity (P : LabelMap → Prop) (s : Metric hs) : Prop where
  distinct : s.valuesByLabels.entries.Pairwise fun a b => a.1.eqv b.1 = false
  value : ∀ l l', P l → l.eqv l' = true → s.valueLabels l' = s.valueLabels l
  set : ∀ l l' v ts, P l → l.eqv l' = true → (s.setLabels l v ts).valueLabels l' = some v
  inc : ∀ l l' d ts, P l → l.eqv l' = true →
    (s.virtualIncLabels l d ts).valueLabels l' = (s.virtualIncLabels l d ts).valueLabels l

/-- Equal label maps of `S` hash alike, and in every run over them they are
one series. -/
structure LabelIdentity (hs : Str → UInt64) (S : LabelMap → Prop) : Prop where
  hash : ∀ m m', Upto S m → m.eqv m' = true → labelValuesMapTHash hs m' = labelValuesMapTHash hs m
  runs : ∀ (cls : MetricClass) (name type help : Str) (v0 : ℚ) (D : LabelMap) (now : Int)
    (calls : List Call), Upto S D → (∀ c ∈ calls, Upto S (c.target D)) →
    SeriesIdentity (Upto S) ((Metric.ctor hs cls name type help v0 D now).run calls)

/-! ## One step, one run -/

/-- Every key of the metric, its default label map included, satisfies `P`. -/
def KeysIn (P : LabelMap → Prop) (s : Metric hs) : Prop :=
  P s.labelDefaults ∧ ∀ e ∈ s.valuesByLabels.entries, P e.1

theorem keysIn_ctor {P : LabelMap → Prop} {D : LabelMap} (hD : P D) (cls : MetricClass)
    (name type help : Str) (v0 : ℚ) (now : Int) :
    KeysIn P (Metric.ctor hs cls name type help v0 D now) :=
  ⟨hD, HashTable.keys_assign hD fun e he => by cases he⟩

theorem keysIn_call {P : LabelMap → Prop} {s : Metric hs} {c : Call} (h : KeysIn P s)
    (hc : P (c.target s.labelDefaults)) : KeysIn P (s.call c) := by
  refine ⟨by simpa using h.1, ?_⟩
  rw [call_eq]
  cases c.effect s.cls with
  | none => exact h.2
  | some e => exact HashTable.keys_assign hc h.2

theorem keysIn_run {P : LabelMap → Prop} {s : Metric hs} (calls : List Call) (h : KeysIn P s)
    (hc : ∀ c ∈ calls, P (c.target s.labelDefaults)) : KeysIn P (s.run calls) := by
  induction calls generalizing s with
  | nil => exact h
  | cons c cs ih =>
    refine ih (keysIn_call h (hc c (by simp))) fun c' hc' => ?_
    simpa using hc c' (by simp [hc'])

/-! ## Coherent hashes -/

theorem valueLabels_same {s : Metric hs} {l l' : LabelMap} (h : (labelKeys hs).same l l' = true) :
    s.valueLabels l' = s.valueLabels l := by
  unfold Metric.valueLabels
  rw [s.valuesByLabels.find_congr h]

theorem seriesIdentity_of_coherent {P : LabelMap → Prop} {s : Metric hs}
    (hP : ∀ l l', P l → l.eqv l' = true → P l') (hc : (labelKeys hs).Coherent P) (hk : KeysIn P s) :
    SeriesIdentity P s := by
  have same : ∀ l l', P l → l.eqv l' = true → (labelKeys hs).same l l' = true :=
    fun l l' h he => ((labelKeys hs).same_iff l l').mpr ⟨hc l l' h (hP l l' h he) he, he⟩
  refine ⟨HashTable.coherent_distinct hc hk.2, fun l l' h he => valueLabels_same (same l l' h he),
    fun l l' v ts h he => ?_, fun l l' d ts h he => valueLabels_same (same l l' h he)⟩
  rw [valueLabels_same (same l l' h he)]
  simp [Metric.valueLabels, Metric.setLabels, Metric.assign]

theorem coherent_of_agree {S : LabelMap → Prop} (h : ∀ m, S m → PairHashesAgree hs m) :
    (labelKeys hs).Coherent (Upto S) := by
  rintro a b ⟨m₀, h0, ha⟩ - hab
  have key := (hash_order_iff hs m₀).mpr (h m₀ h0)
  exact (key a (LabelMap.eqv_symm ha)).trans
    (key b (LabelMap.eqv_symm (LabelMap.eqv_trans ha hab))).symm

/-- **Label maps as identities.** Equal label maps of `S` hash alike and
are one series in every run exactly when the pair hashes of each map of `S`
agree. -/
theorem labelIdentity_iff (hs : Str → UInt64) (S : LabelMap → Prop) :
    LabelIdentity hs S ↔ ∀ m, S m → PairHashesAgree hs m := by
  refine ⟨fun h m hm => (hash_order_iff hs m).mp fun m' he => ?_, fun h => ?_⟩
  · exact h.hash m m' ⟨m, hm, LabelMap.eqv_refl m⟩ (LabelMap.eqv_symm he)
  · have hc := coherent_of_agree h
    refine ⟨fun m m' hm he => (hc m m' hm (upto_eqv hm he) he).symm,
      fun cls name type help v0 D now calls hD hcs => ?_⟩
    exact seriesIdentity_of_coherent (fun l l' hl he => upto_eqv hl he) hc
      (keysIn_run calls (keysIn_ctor hD cls name type help v0 now) hcs)

/-! ## Two labels in two orders -/

/-- A stand-in for `std::hash<string>`. -/
def lengthHash (s : Str) : UInt64 := UInt64.ofNat s.length

def postThenCode : LabelMap :=
  ⟨[("method".toList, "post".toList), ("code".toList, "200".toList)], by decide⟩

def codeThenPost : LabelMap :=
  ⟨[("code".toList, "200".toList), ("method".toList, "post".toList)], by decide⟩

/-- The two orders are equal maps with different hashes; a value set
through one is not found through the other, and setting through both leaves
two entries for one label map. -/
theorem labelIdentity_fails :
    ¬ LabelIdentity lengthHash (fun _ => True) ∧ postThenCode.eqv codeThenPost = true ∧
      (let g := Gauge.ctor lengthHash "g".toList [] 0 postThenCode 1
       (g.setLabels postThenCode 5 2).valueLabels codeThenPost = none ∧
       ((g.setLabels codeThenPost 5 2).valuesByLabels.entries.map Prod.fst) =
         [postThenCode, codeThenPost]) := by
  refine ⟨fun h => ?_, by decide, by decide, by decide⟩
  have := h.hash postThenCode codeThenPost ⟨postThenCode, trivial, by decide⟩ (by decide)
  revert this; decide

end SoapStab.Metrics
