import SoapStab.Lib.PromText.Document
import SoapStab.Metrics.Registry

/-!
# Whether the exposition text is faithful

`prometheus_txt` writes help strings and label values as they are. Read line
by line under the Prometheus text format, the text gives back the registered
metrics (`Faithful`) if and only if no help string has a backslash or a
newline and no label value a backslash, a double quote or a newline:
`faithful_iff`. `faithful_fails`: two registries with different label maps
and one text.

The text is a document of the format, written without its escapes
(`prometheusTxt_eq_document`). That names are identifiers is a hypothesis
(the code does not check it); that every metric has an entry and a known
type holds in every reachable state, whatever the iteration orders are
(`Reachable.sound`).
-/
namespace SoapStab.Metrics

open SoapStab.Lib.Hash SoapStab.Lib.Decimal SoapStab.Lib.Lists SoapStab.Lib.PromText

variable {hs : Str → UInt64}

/-! ## Reachable states -/

/-- The same metric with its entries in another iteration order. -/
def Metric.Rehashed (m m' : Metric hs) : Prop :=
  ∃ t, m' = { m with valuesByLabels := t } ∧ t.entries.Perm m.valuesByLabels.entries

/-- Registries the steps lead to, in any iteration orders. -/
inductive Reachable : Registry hs → Prop
  | empty : Reachable Registry.empty
  | step {r : Registry hs} (h : Reachable r) (s : Step hs) : Reachable (r.step s)
  | rehash {r r' : Registry hs} (h : Reachable r) (hh : List.Forall₂ Metric.Rehashed r.heap r'.heap)
    (hm : r'.metrics.entries.Perm r.metrics.entries) : Reachable r'

/-- A metric has an entry, and its type is one the format knows. -/
structure Metric.Sound (m : Metric hs) : Prop where
  entries : m.valuesByLabels.entries ≠ []
  type : m.type ∈ kinds

theorem assign_entries_ne_nil (t : HashTable (labelKeys hs) MetricValue) (l : LabelMap) (v : MetricValue) :
    (t.assign l v).entries ≠ [] := by
  intro h
  have hfind := t.find_assign_self l v
  rw [HashTable.find, h] at hfind
  cases hfind

theorem ctor_sound (cls : MetricClass) (name : Str) {type : Str} (ht : type ∈ kinds) (help : Str) (v : ℚ)
    (d : LabelMap) (now : Int) : (Metric.ctor hs cls name type help v d now).Sound :=
  ⟨assign_entries_ne_nil _ _ _, ht⟩

theorem Metric.Sound.update {m : Metric hs} (h : m.Sound) (u : Update) : (m.update u).Sound := by
  obtain ⟨c, hc⟩ := update_eq_call m u
  rw [hc]
  refine ⟨?_, by rw [call_type]; exact h.type⟩
  rw [call_eq]
  split
  · exact h.entries
  · exact assign_entries_ne_nil _ _ _

theorem Metric.Rehashed.sound {m m' : Metric hs} (hr : m.Rehashed m') (h : m.Sound) : m'.Sound := by
  obtain ⟨t, rfl, hp⟩ := hr
  exact ⟨fun he => h.entries (by rw [he] at hp; exact hp.nil_eq.symm), h.type⟩

theorem Registry.step_sound {r : Registry hs} (h : ∀ m ∈ r.heap, m.Sound) (s : Step hs) :
    ∀ m ∈ (r.step s).heap, m.Sound := by
  cases s with
  | createGauge name help v d now =>
    intro m hm
    rcases List.mem_append.mp hm with hm | hm
    · exact h m hm
    · cases List.mem_singleton.mp hm
      exact ctor_sound .gauge name (by decide) help v d now
  | createCounter name help d now =>
    intro m hm
    rcases List.mem_append.mp hm with hm | hm
    · exact h m hm
    · cases List.mem_singleton.mp hm
      exact ctor_sound .counter name (by decide) help 0 d now
  | update i u =>
    intro m hm
    obtain ⟨k, hk⟩ := List.mem_iff_getElem?.mp hm
    simp only [Registry.step, Registry.update, List.getElem?_modify] at hk
    obtain ⟨m₀, h₀, rfl⟩ := Option.map_eq_some_iff.mp hk
    have hs := h m₀ (List.mem_of_getElem? h₀)
    split
    · exact hs.update u
    · exact hs

theorem Reachable.sound {r : Registry hs} (h : Reachable r) : ∀ m ∈ r.heap, m.Sound := by
  induction h with
  | empty => intro m hm; cases hm
  | step _ s ih => exact Registry.step_sound ih s
  | rehash _ hh _ ih =>
    intro m' hm'
    obtain ⟨m, hm, hr⟩ := exists_of_forall₂ hh.flip hm'
    exact Metric.Rehashed.sound hr (ih m hm)

theorem exported_subset (r : Registry hs) : ∀ m ∈ r.exported, m ∈ r.heap := by
  intro m hm
  obtain ⟨e, -, he⟩ := List.mem_filterMap.mp hm
  exact List.mem_of_getElem? he

/-! ## The text as a document -/

/-- What the text should say of a metric. -/
def Metric.lines (fmtValue : ℚ → Str) (m : Metric hs) : List Line :=
  .help m.name m.help :: .type m.name m.type :: m.valuesByLabels.entries.map fun e =>
    .sample m.name e.1.pairs (fmtValue e.2.value) (decInt e.2.timestamp)

def Registry.lines (fmtValue : ℚ → Str) (r : Registry hs) : List Line :=
  r.exported.flatMap (Metric.lines fmtValue)

/-- The name in front of every part: first in front, then with the separator. -/
theorem append_intercalate (name : Str) (p : Str) (ps : List Str) :
    name ++ ("\n".toList ++ name).intercalate (p :: ps) = ['\n'].intercalate ((p :: ps).map (name ++ ·)) := by
  induction ps generalizing p with
  | nil => simp
  | cons p' ps ih =>
    have := ih p'
    simp only [List.map_cons, List.intercalate_cons_cons] at this ⊢
    rw [← this]
    simp

/-- The name and an entry are a sample line without escapes. -/
theorem append_fmtEntry (fmtValue : ℚ → Str) (name : Str) (e : LabelMap × MetricValue) :
    name ++ fmtEntry fmtValue e =
      (Line.sample name e.1.pairs (fmtValue e.2.value) (decInt e.2.timestamp)).raw := by
  have hlabels : fmtJoin ",".toList (e.1.pairs.map fmtLabelPair) = writeLabels id e.1.pairs := rfl
  simp only [fmtEntry, LabelMap.fmt, MetricValue.fmt, hlabels, Line.raw, Line.write]
  simp

theorem prometheusTxt_eq_block (fmtValue : ℚ → Str) {m : Metric hs} (h : m.Sound) :
    m.prometheusTxt fmtValue = block Line.raw (m.lines fmtValue) := by
  obtain ⟨e, es, hes⟩ := List.exists_cons_of_ne_nil h.entries
  have hsamples := append_intercalate m.name (fmtEntry fmtValue e) (es.map (fmtEntry fmtValue))
  simp only [List.map_cons, List.map_map, Function.comp_def, append_fmtEntry] at hsamples
  unfold Metric.prometheusTxt Metric.lines block fmtJoin
  simp only [hes, List.map_cons, List.map_map, Function.comp_def, List.intercalate_cons_cons,
    List.append_assoc]
  rw [← hsamples]
  have hhelp : (Line.help m.name m.help).raw = "# HELP ".toList ++ m.name ++ " ".toList ++ m.help := rfl
  have htype : (Line.type m.name m.type).raw = "# TYPE ".toList ++ m.name ++ " ".toList ++ m.type := rfl
  simp only [hhelp, htype, List.append_assoc]
  rfl

theorem prometheusTxt_eq_document (fmtValue : ℚ → Str) {r : Registry hs} (h : ∀ m ∈ r.exported, m.Sound) :
    r.prometheusTxt fmtValue = document Line.raw (r.exported.map (Metric.lines fmtValue)) := by
  unfold Registry.prometheusTxt document fmtJoin
  rw [List.map_map]
  refine congrArg _ (List.map_congr_left fun m hm => ?_)
  exact prometheusTxt_eq_block fmtValue (h m hm)

/-! ## Reading the text back -/

/-- The names of the exported metrics and of their labels are identifiers. -/
def Registry.LegalNames (r : Registry hs) : Prop :=
  ∀ m ∈ r.exported, metricAlphabet.isIdent m.name = true ∧
    ∀ e ∈ m.valuesByLabels.entries, ∀ p ∈ e.1.pairs, labelAlphabet.isIdent p.1 = true

instance (r : Registry hs) : Decidable r.LegalNames :=
  inferInstanceAs (Decidable (∀ m ∈ r.exported, metricAlphabet.isIdent m.name = true ∧
    ∀ e ∈ m.valuesByLabels.entries, ∀ p ∈ e.1.pairs, labelAlphabet.isIdent p.1 = true))

/-- Read line by line, the text gives back the metrics and nothing else. -/
def Faithful (fmtValue : ℚ → Str) (r : Registry hs) : Prop :=
  read (r.prometheusTxt fmtValue) = some (r.lines fmtValue)

def Registry.NothingToEscape (r : Registry hs) : Prop :=
  ∀ m ∈ r.exported, ('\\' ∉ m.help ∧ '\n' ∉ m.help) ∧
    ∀ e ∈ m.valuesByLabels.entries, ∀ p ∈ e.1.pairs, '\\' ∉ p.2 ∧ '"' ∉ p.2 ∧ '\n' ∉ p.2

instance (r : Registry hs) : Decidable r.NothingToEscape :=
  inferInstanceAs (Decidable (∀ m ∈ r.exported, ('\\' ∉ m.help ∧ '\n' ∉ m.help) ∧
    ∀ e ∈ m.valuesByLabels.entries, ∀ p ∈ e.1.pairs, '\\' ∉ p.2 ∧ '"' ∉ p.2 ∧ '\n' ∉ p.2))

theorem helpEscapes_plain (s : Str) : helpEscapes.Plain s ↔ '\\' ∉ s ∧ '\n' ∉ s := by
  unfold Escapes.Plain helpEscapes
  grind

theorem labelEscapes_plain (s : Str) : labelEscapes.Plain s ↔ '\\' ∉ s ∧ '"' ∉ s ∧ '\n' ∉ s := by
  unfold Escapes.Plain labelEscapes
  grind

theorem decInt_isWord (z : Int) : IsWord (decInt z) := by
  refine ⟨decInt_ne_nil z, fun h => ?_, fun h => ?_⟩
  · rcases mem_decInt h with h | h <;> exact absurd h (by decide)
  · rcases mem_decInt h with h | h <;> exact absurd h (by decide)

theorem lines_legal {fmtValue : ℚ → Str} (hv : ∀ q, IsWord (fmtValue q)) {m : Metric hs} (hm : m.Sound)
    (hname : metricAlphabet.isIdent m.name = true)
    (hlabels : ∀ e ∈ m.valuesByLabels.entries, ∀ p ∈ e.1.pairs, labelAlphabet.isIdent p.1 = true) :
    ∀ l ∈ m.lines fmtValue, l.Legal := by
  intro l hl
  rcases List.mem_cons.mp hl with rfl | hl
  · exact hname
  · rcases List.mem_cons.mp hl with rfl | hl
    · exact ⟨hname, hm.type⟩
    · obtain ⟨e, he, rfl⟩ := List.mem_map.mp hl
      exact ⟨hname, hlabels e he, hv _, decInt_isWord _⟩

theorem lines_plain (fmtValue : ℚ → Str) (r : Registry hs) :
    (∀ l ∈ r.lines fmtValue, l.Plain) ↔ r.NothingToEscape := by
  have hm : ∀ m : Metric hs, (∀ l ∈ m.lines fmtValue, l.Plain) ↔ ('\\' ∉ m.help ∧ '\n' ∉ m.help) ∧
      ∀ e ∈ m.valuesByLabels.entries, ∀ p ∈ e.1.pairs, '\\' ∉ p.2 ∧ '"' ∉ p.2 ∧ '\n' ∉ p.2 := by
    intro m
    simp only [Metric.lines, List.forall_mem_cons, List.forall_mem_map, Line.Plain, helpEscapes_plain,
      labelEscapes_plain, true_and]
  simp only [Registry.lines, List.mem_flatMap, forall_exists_index, and_imp]
  exact ⟨fun h m hmem => (hm m).mp fun l hl => h l m hmem hl,
    fun h l m hmem hl => (hm m).mpr (h m hmem) l hl⟩

theorem reads_back_iff {fmtValue : ℚ → Str} (hv : ∀ q, IsWord (fmtValue q)) {r : Registry hs}
    (hr : Reachable r) (hl : r.LegalNames) : Faithful fmtValue r ↔ r.NothingToEscape := by
  have hsound : ∀ m ∈ r.exported, m.Sound := fun m hm => hr.sound m (exported_subset r m hm)
  have hblocks : ∀ b ∈ r.exported.map (Metric.lines fmtValue), b ≠ [] ∧ ∀ l ∈ b, l.Legal := by
    intro b hb
    obtain ⟨m, hm, rfl⟩ := List.mem_map.mp hb
    exact ⟨List.cons_ne_nil _ _, lines_legal hv (hsound m hm) (hl m hm).1 (hl m hm).2⟩
  rw [← lines_plain fmtValue r, Faithful, prometheusTxt_eq_document fmtValue hsound]
  exact read_raw_iff hblocks

/-- **Whether the text is faithful.** In every reachable state with legal
names, the text reads back as the registered metrics if and only if nothing
in a help string or a label value needed an escape. Two such states that
differ in what the lines say differ in their texts. -/
theorem faithful_iff {fmtValue : ℚ → Str} (hv : ∀ q, IsWord (fmtValue q)) {r : Registry hs}
    (hr : Reachable r) (hl : r.LegalNames) :
    (Faithful fmtValue r ↔ r.NothingToEscape) ∧
      (r.NothingToEscape → ∀ r' : Registry hs, Reachable r' → r'.LegalNames → r'.NothingToEscape →
        r'.prometheusTxt fmtValue = r.prometheusTxt fmtValue → r'.lines fmtValue = r.lines fmtValue) := by
  refine ⟨reads_back_iff hv hr hl, fun hplain r' hr' hl' hplain' htxt => ?_⟩
  have h : read (r.prometheusTxt fmtValue) = some (r.lines fmtValue) := (reads_back_iff hv hr hl).mpr hplain
  have h' : read (r'.prometheusTxt fmtValue) = some (r'.lines fmtValue) :=
    (reads_back_iff hv hr' hl').mpr hplain'
  rw [htxt, h] at h'
  exact (Option.some.inj h').symm

/-! ## A label value that closes its quotes -/

/-- A rational in lowest terms. -/
def fmtRat (q : ℚ) : Str := decInt q.num ++ if q.den = 1 then [] else '/' :: decNat q.den

theorem fmtRat_isWord (q : ℚ) : IsWord (fmtRat q) := by
  have hnum := decInt_isWord q.num
  have hden : ∀ c ∈ decNat q.den, c.isDigit = true := fun c hc => decNat_isDigit hc
  have hspace : ' ' ∉ decNat q.den := fun h => absurd (hden _ h) (by decide)
  have hline : '\n' ∉ decNat q.den := fun h => absurd (hden _ h) (by decide)
  unfold fmtRat
  refine ⟨fun h => hnum.1 (List.append_eq_nil_iff.mp h).1, ?_, ?_⟩
  · split <;> simp [hnum.2.1, hspace]
  · split <;> simp [hnum.2.2, hline]

/-- A registry of one gauge `a` with the help `h` and the label map `d`. -/
def oneGauge (help : Str) (d : LabelMap) : Registry fun _ => 0 :=
  Registry.empty.step (.createGauge "a".toList help 1 d 0)

/-- `x` is `1` and `y` is `2`. -/
def twoLabels : LabelMap := ⟨[("x".toList, "1".toList), ("y".toList, "2".toList)], by decide⟩

/-- `x` is a text that looks like the two labels. -/
def oneLabel : LabelMap := ⟨[("x".toList, "1\",y=\"2".toList)], by decide⟩

theorem oneGauge_reachable (help : Str) (d : LabelMap) : Reachable (oneGauge help d) := .step .empty _

/-- The two registries have one text: read back, it is wrong for one. -/
theorem faithful_fails :
    ¬ ∃ fmtValue : ℚ → Str, (∀ r : Registry fun _ => 0, Reachable r → r.LegalNames → Faithful fmtValue r) ∨
      ∀ r r' : Registry fun _ => 0, Reachable r → Reachable r' → r.LegalNames → r'.LegalNames →
        r.prometheusTxt fmtValue = r'.prometheusTxt fmtValue → r.lines fmtValue = r'.lines fmtValue := by
  rintro ⟨fmtValue, h⟩
  have hone : (oneGauge [] oneLabel).LegalNames := by decide
  have htwo : (oneGauge [] twoLabels).LegalNames := by decide
  have htxt : (oneGauge [] oneLabel).prometheusTxt fmtValue =
      (oneGauge [] twoLabels).prometheusTxt fmtValue := rfl
  have hlines : (oneGauge [] oneLabel).lines fmtValue ≠ (oneGauge [] twoLabels).lines fmtValue := by
    intro he
    have hpairs : [[], [], oneLabel.pairs] = [[], [], twoLabels.pairs] := congrArg (List.map Line.labels) he
    exact absurd hpairs (by decide)
  rcases h with h | h
  · have hread : read _ = some _ := h _ (oneGauge_reachable [] oneLabel) hone
    have hread' : read _ = some _ := h _ (oneGauge_reachable [] twoLabels) htwo
    rw [htxt, hread'] at hread
    exact hlines (Option.some.inj hread).symm
  · exact hlines (h _ _ (oneGauge_reachable [] oneLabel) (oneGauge_reachable [] twoLabels) hone htwo htxt)

/-- A help text and a label that need no escape. -/
theorem faithful_iff_plain :
    Faithful fmtRat (oneGauge "all of it".toList twoLabels) := by
  have hl : (oneGauge "all of it".toList twoLabels).LegalNames := by decide
  exact (faithful_iff fmtRat_isWord (oneGauge_reachable _ _) hl).1.mpr (by decide)

end SoapStab.Metrics
