import SoapStab.Lib.PromText.Escapes

/-!
# Lines of the Prometheus text format

`HELP` and `TYPE` comments, samples with their labels in braces, and lines
that say nothing (blank ones and other comments). `readLine` reads the
canonical form: one blank between tokens, labels always in braces, a
timestamp on every sample. One blank also separates a name from its HELP
text, which starts right after it and may start with blanks itself (other
readers of the format skip these), and the last line of a text need not end
with a line feed.

* `readLine_render`, `render_of_readLine`: a legal line reads back as itself
  from its rendering, and from nothing else.
-/
namespace SoapStab.Lib.PromText

/-! ## Tokens -/

/-- What follows the text `p`. -/
def expect : Text → Text → Option Text
  | [], s => some s
  | _ :: _, [] => none
  | c :: p, d :: s => if c = d then expect p s else none

theorem expect_eq_some {p s r : Text} : expect p s = some r ↔ s = p ++ r := by
  induction p generalizing s with
  | nil => simp [expect, eq_comm]
  | cons c p ih =>
    cases s with
    | nil => simp [expect]
    | cons d s =>
      simp only [expect, List.cons_append, List.cons.injEq]
      split
      · next hc => rw [ih]; simp [hc]
      · next hc => simp [Ne.symm hc]

/-- The characters an identifier may start with and go on with. -/
structure Alphabet where
  first : Char → Bool
  rest : Char → Bool

def metricAlphabet : Alphabet where
  first c := c.isAlpha || c == '_' || c == ':'
  rest c := c.isAlpha || c == '_' || c == ':' || c.isDigit

def labelAlphabet : Alphabet where
  first c := c.isAlpha || c == '_'
  rest c := c.isAlpha || c == '_' || c.isDigit

def Alphabet.isIdent (A : Alphabet) : Text → Bool
  | [] => false
  | c :: s => A.first c && s.all A.rest

/-- The longest identifier the text starts with. -/
def Alphabet.ident (A : Alphabet) : Text → Option (Text × Text)
  | [] => none
  | c :: s => if A.first c then some (c :: s.takeWhile A.rest, s.dropWhile A.rest) else none

theorem Alphabet.eq_of_ident {A : Alphabet} {s n r : Text} (h : A.ident s = some (n, r)) : n ++ r = s := by
  cases s with
  | nil => cases h
  | cons c s =>
    simp only [Alphabet.ident] at h
    split at h
    · cases h
      rw [List.cons_append, List.takeWhile_append_dropWhile]
    · cases h

theorem Alphabet.ident_append {A : Alphabet} {n r : Text} (hn : A.isIdent n = true)
    (hr : ∀ c, r.head? = some c → A.rest c = false) : A.ident (n ++ r) = some (n, r) := by
  cases n with
  | nil => cases hn
  | cons c n =>
    simp only [Alphabet.isIdent, Bool.and_eq_true, List.all_eq_true] at hn
    have htake : (n ++ r).takeWhile A.rest = n ∧ (n ++ r).dropWhile A.rest = r := by
      rw [List.takeWhile_append_of_pos hn.2, List.dropWhile_append_of_pos hn.2]
      cases r with
      | nil => simp
      | cons d r => simp [hr d rfl]
    simp only [List.cons_append, Alphabet.ident, hn.1, if_true, htake.1, htake.2]

/-- A word up to the next blank. -/
def word (s : Text) : Option (Text × Text) :=
  match s.takeWhile (· ≠ ' ') with
  | [] => none
  | w => some (w, s.dropWhile (· ≠ ' '))

def IsWord (s : Text) : Prop := s ≠ [] ∧ ' ' ∉ s ∧ '\n' ∉ s

theorem eq_of_word {s w r : Text} (h : word s = some (w, r)) : w ++ r = s := by
  unfold word at h
  split at h
  · cases h
  · cases h
    rw [List.takeWhile_append_dropWhile]

theorem word_append {w r : Text} (hw : IsWord w) (hr : ∀ c, r.head? = some c → c = ' ') :
    word (w ++ r) = some (w, r) := by
  have hpos : ∀ c ∈ w, decide (c ≠ ' ') = true := fun c hc => by
    have : c ≠ ' ' := fun h => hw.2.1 (h ▸ hc)
    simpa using this
  have htake : (w ++ r).takeWhile (· ≠ ' ') = w ∧ (w ++ r).dropWhile (· ≠ ' ') = r := by
    rw [List.takeWhile_append_of_pos hpos, List.dropWhile_append_of_pos hpos]
    cases r with
    | nil => simp
    | cons d r => simp [hr d rfl]
  unfold word
  rw [htake.1, htake.2]
  cases hwe : w with
  | nil => exact absurd hwe hw.1
  | cons c w => rfl

/-! ## Lines -/

inductive Line where
  | help (name text : Text)
  | type (name kind : Text)
  | sample (name : Text) (labels : List (Text × Text)) (value timestamp : Text)
  deriving DecidableEq

/-- The labels of a sample. -/
def Line.labels : Line → List (Text × Text)
  | .sample _ labels _ _ => labels
  | _ => []

/-- The kinds of metrics the format knows. -/
def kinds : List Text :=
  ["counter".toList, "gauge".toList, "histogram".toList, "summary".toList, "untyped".toList]

/-- Names are identifiers, kinds are known, values and timestamps are words. -/
def Line.Legal : Line → Prop
  | .help name _ => metricAlphabet.isIdent name = true
  | .type name kind => metricAlphabet.isIdent name = true ∧ kind ∈ kinds
  | .sample name labels value timestamp => metricAlphabet.isIdent name = true ∧
      (∀ l ∈ labels, labelAlphabet.isIdent l.1 = true) ∧ IsWord value ∧ IsWord timestamp

/-! ### Writing -/

def helpPrefix : Text := "# HELP ".toList

def typePrefix : Text := "# TYPE ".toList

/-- One label, its value written by `f`. -/
def writeLabel (f : Text → Text) (l : Text × Text) : Text := l.1 ++ "=\"".toList ++ f l.2 ++ "\"".toList

def writeLabels (f : Text → Text) (labels : List (Text × Text)) : Text :=
  [','].intercalate (labels.map (writeLabel f))

/-- One line, `HELP` texts written by `g` and label values by `f`. -/
def Line.write (g f : Text → Text) : Line → Text
  | .help name text => helpPrefix ++ name ++ " ".toList ++ g text
  | .type name kind => typePrefix ++ name ++ " ".toList ++ kind
  | .sample name labels value timestamp =>
    name ++ "\x7b".toList ++ writeLabels f labels ++ "\x7d ".toList ++ value ++ " ".toList ++ timestamp

def Line.render (l : Line) : Text := l.write helpEscapes.escape labelEscapes.escape

def Line.raw (l : Line) : Text := l.write id id

/-! ### Reading -/

def readLabel (s : Text) : Option ((Text × Text) × Text) := do
  let (name, s) ← labelAlphabet.ident s
  let s ← expect "=\"".toList s
  let (value, s) ← labelEscapes.scan s
  let s ← expect "\"".toList s
  some ((name, value), s)

/-- At most `n` labels, separated by commas. -/
def readLabels : Nat → Text → Option (List (Text × Text) × Text)
  | 0, _ => none
  | n + 1, s => do
    let (l, s) ← readLabel s
    match expect [','] s with
    | none => some ([l], s)
    | some s => do
      let (ls, s) ← readLabels n s
      some (l :: ls, s)

def readLabelSet (s : Text) : Option (List (Text × Text) × Text) := do
  let s ← expect "\x7b".toList s
  match expect "\x7d".toList s with
  | some s => some ([], s)
  | none => do
    let (ls, s) ← readLabels s.length s
    let s ← expect "\x7d".toList s
    some (ls, s)

def readSample (s : Text) : Option Line := do
  let (name, s) ← metricAlphabet.ident s
  let (labels, s) ← readLabelSet s
  let s ← expect " ".toList s
  let (value, s) ← word s
  let s ← expect " ".toList s
  let (timestamp, s) ← word s
  if s = [] then some (.sample name labels value timestamp) else none

def readHelp (s : Text) : Option Line := do
  let (name, s) ← metricAlphabet.ident s
  let s ← expect " ".toList s
  let (text, s) ← helpEscapes.scan s
  if s = [] then some (.help name text) else none

def readType (s : Text) : Option Line := do
  let (name, s) ← metricAlphabet.ident s
  let kind ← expect " ".toList s
  if kinds.contains kind then some (.type name kind) else none

/-- `some none` is a line that says nothing, `none` an error. -/
def readLine (s : Text) : Option (Option Line) :=
  match expect helpPrefix s, expect typePrefix s, s with
  | some s, _, _ => (readHelp s).map some
  | none, some s, _ => (readType s).map some
  | none, none, [] => some none
  | none, none, '#' :: _ => some none
  | none, none, s => (readSample s).map some

/-! ### What was read is what was written -/

theorem write_of_readLabel {s : Text} {l : Text × Text} {r : Text} (h : readLabel s = some (l, r)) :
    writeLabel labelEscapes.escape l ++ r = s := by
  simp only [readLabel, Option.bind_eq_bind, Option.bind_eq_some_iff, Prod.exists, Option.some.injEq,
    Prod.mk.injEq] at h
  obtain ⟨name, s1, h1, s2, h2, value, s3, h3, s4, h4, rfl, rfl⟩ := h
  have h1 := Alphabet.eq_of_ident h1
  have h2 := expect_eq_some.mp h2
  have h3 := labelEscapes.escape_of_scan _ h3
  have h4 := expect_eq_some.mp h4
  subst h2 h4
  rw [← h1, ← h3]
  simp [writeLabel]

theorem write_of_readLabels {n : Nat} : ∀ {s : Text} {ls : List (Text × Text)} {r : Text},
    readLabels n s = some (ls, r) → writeLabels labelEscapes.escape ls ++ r = s := by
  induction n with
  | zero => intro s ls r h; cases h
  | succ n ih =>
    intro s ls r h
    simp only [readLabels, Option.bind_eq_bind, Option.bind_eq_some_iff, Prod.exists] at h
    obtain ⟨name, value, s1, h1, h⟩ := h
    have h1 := write_of_readLabel h1
    split at h
    · cases h
      simpa [writeLabels] using h1
    · next s2 h2 =>
      simp only [Option.bind_eq_some_iff, Prod.exists, Option.some.injEq, Prod.mk.injEq] at h
      obtain ⟨ls', s3, h3, rfl, rfl⟩ := h
      have h2 := expect_eq_some.mp h2
      have h3' := ih h3
      have hne : ls' ≠ [] := by
        rintro rfl
        cases n with
        | zero => cases h3
        | succ n =>
          simp only [readLabels, Option.bind_eq_bind, Option.bind_eq_some_iff, Prod.exists] at h3
          obtain ⟨name', value', s', -, h3⟩ := h3
          split at h3
          · cases h3
          · simp only [Option.bind_eq_some_iff, Option.some.injEq, Prod.mk.injEq, reduceCtorEq, false_and,
              and_false, exists_false] at h3
      obtain ⟨l', ls'', rfl⟩ := List.exists_cons_of_ne_nil hne
      rw [← h1, h2, ← h3']
      simp [writeLabels, List.intercalate_cons_cons]

theorem write_of_readLabelSet {s : Text} {ls : List (Text × Text)} {r : Text}
    (h : readLabelSet s = some (ls, r)) :
    "\x7b".toList ++ writeLabels labelEscapes.escape ls ++ "\x7d".toList ++ r = s := by
  simp only [readLabelSet, Option.bind_eq_bind, Option.bind_eq_some_iff] at h
  obtain ⟨s1, h1, h⟩ := h
  have h1 := expect_eq_some.mp h1
  split at h
  · next s2 h2 =>
    cases h
    have h2 := expect_eq_some.mp h2
    rw [h1, h2]
    simp [writeLabels]
  · simp only [Option.bind_eq_some_iff, Prod.exists, Option.some.injEq, Prod.mk.injEq] at h
    obtain ⟨ls', s2, h2, s3, h3, rfl, rfl⟩ := h
    have h2 := write_of_readLabels h2
    have h3 := expect_eq_some.mp h3
    rw [h1, ← h2, h3]
    simp

theorem render_of_readSample {s : Text} {l : Line} (h : readSample s = some l) : l.render = s := by
  simp only [readSample, Option.bind_eq_bind, Option.bind_eq_some_iff, Prod.exists,
    Option.ite_none_right_eq_some, Option.some.injEq] at h
  obtain ⟨name, s1, h1, ls, s2, h2, s3, h3, value, s4, h4, s5, h5, ts, s6, h6, rfl, rfl⟩ := h
  have h1 := Alphabet.eq_of_ident h1
  have h2 := write_of_readLabelSet h2
  have h3 := expect_eq_some.mp h3
  have h4 := eq_of_word h4
  have h5 := expect_eq_some.mp h5
  have h6 := eq_of_word h6
  rw [List.append_nil] at h6
  subst h3 h5
  rw [← h1, ← h2, ← h4, ← h6]
  simp [Line.render, Line.write]

theorem render_of_readHelp {s : Text} {l : Line} (h : readHelp s = some l) : l.render = helpPrefix ++ s := by
  simp only [readHelp, Option.bind_eq_bind, Option.bind_eq_some_iff, Prod.exists,
    Option.ite_none_right_eq_some, Option.some.injEq] at h
  obtain ⟨name, s1, h1, s2, h2, text, s3, h3, rfl, rfl⟩ := h
  have h1 := Alphabet.eq_of_ident h1
  have h2 := expect_eq_some.mp h2
  have h3 := helpEscapes.escape_of_scan _ h3
  rw [← h1, h2, ← h3]
  simp [Line.render, Line.write]

theorem render_of_readType {s : Text} {l : Line} (h : readType s = some l) : l.render = typePrefix ++ s := by
  simp only [readType, Option.bind_eq_bind, Option.bind_eq_some_iff, Prod.exists,
    Option.ite_none_right_eq_some, Option.some.injEq] at h
  obtain ⟨name, s1, h1, kind, h2, -, rfl⟩ := h
  have h1 := Alphabet.eq_of_ident h1
  have h2 := expect_eq_some.mp h2
  rw [← h1, h2]
  simp [Line.render, Line.write]

/-- A line is read from its rendering only. -/
theorem render_of_readLine {s : Text} {l : Line} (h : readLine s = some (some l)) : l.render = s := by
  unfold readLine at h
  split at h
  · next s1 h1 =>
    obtain ⟨l', hl, he⟩ := Option.map_eq_some_iff.mp h
    cases he
    rw [render_of_readHelp hl, expect_eq_some.mp h1]
  · next s1 _ h1 =>
    obtain ⟨l', hl, he⟩ := Option.map_eq_some_iff.mp h
    cases he
    rw [render_of_readType hl, expect_eq_some.mp h1]
  · cases h
  · cases h
  · obtain ⟨l', hl, he⟩ := Option.map_eq_some_iff.mp h
    cases he
    exact render_of_readSample hl

/-! ### What was written reads back -/

theorem expect_append (p r : Text) : expect p (p ++ r) = some r := expect_eq_some.mpr rfl

theorem readLabel_write {l : Text × Text} (hl : labelAlphabet.isIdent l.1 = true) (r : Text) :
    readLabel (writeLabel labelEscapes.escape l ++ r) = some (l, r) := by
  have hname : labelAlphabet.ident (writeLabel labelEscapes.escape l ++ r) =
      some (l.1, "=\"".toList ++ (labelEscapes.escape l.2 ++ ("\"".toList ++ r))) := by
    have hsplit : writeLabel labelEscapes.escape l ++ r =
        l.1 ++ ("=\"".toList ++ (labelEscapes.escape l.2 ++ ("\"".toList ++ r))) := by simp [writeLabel]
    rw [hsplit]
    exact Alphabet.ident_append hl fun c hc => by cases hc; decide
  have hvalue := labelEscapes.scan_escape l.2 (r := "\"".toList ++ r) fun c hc => by cases hc; decide
  simp only [readLabel, hname, Option.bind_eq_bind, Option.bind_some, expect_append, hvalue]

theorem readLabels_write {ls : List (Text × Text)} (hl : ∀ l ∈ ls, labelAlphabet.isIdent l.1 = true)
    (hne : ls ≠ []) {r : Text} (hr : ∀ c, r.head? = some c → c ≠ ',') :
    ∀ {n : Nat}, ls.length ≤ n → readLabels n (writeLabels labelEscapes.escape ls ++ r) = some (ls, r) := by
  have hend : expect [','] r = none := by
    cases r with
    | nil => rfl
    | cons c r => exact if_neg (Ne.symm (hr c rfl))
  induction ls with
  | nil => intro n _; exact absurd rfl hne
  | cons l ls ih =>
    intro n hn
    obtain ⟨n, rfl⟩ : ∃ k, n = k + 1 := ⟨n - 1, by simp only [List.length_cons] at hn; omega⟩
    cases ls with
    | nil =>
      have hlabel := readLabel_write (hl l (by simp)) r
      simp only [writeLabels, List.map_cons, List.map_nil, List.intercalate_singleton, readLabels, hlabel,
        Option.bind_eq_bind, Option.bind_some, hend]
    | cons l' ls =>
      have hsplit : writeLabels labelEscapes.escape (l :: l' :: ls) ++ r =
          writeLabel labelEscapes.escape l ++
            ([','] ++ (writeLabels labelEscapes.escape (l' :: ls) ++ r)) := by
        simp [writeLabels, List.intercalate_cons_cons]
      have hlabel := readLabel_write (hl l (by simp))
        ([','] ++ (writeLabels labelEscapes.escape (l' :: ls) ++ r))
      have hrest := ih (fun l'' h => hl l'' (by simp [h])) (by simp) (n := n)
        (by simp only [List.length_cons] at hn ⊢; omega)
      rw [hsplit]
      simp only [readLabels, hlabel, Option.bind_eq_bind, Option.bind_some, expect_append, hrest]

theorem length_le_writeLabels (f : Text → Text) (ls : List (Text × Text)) :
    ls.length ≤ (writeLabels f ls).length := by
  induction ls with
  | nil => exact Nat.zero_le _
  | cons l ls ih =>
    cases ls with
    | nil => simp [writeLabels, writeLabel]; omega
    | cons l' ls =>
      simp only [writeLabels, List.map_cons, List.intercalate_cons_cons, List.length_append,
        List.length_cons] at ih ⊢
      simp only [List.length_nil]
      omega

theorem readLabelSet_write {ls : List (Text × Text)} (hl : ∀ l ∈ ls, labelAlphabet.isIdent l.1 = true)
    (r : Text) : readLabelSet ("\x7b".toList ++
      (writeLabels labelEscapes.escape ls ++ ("\x7d".toList ++ r))) = some (ls, r) := by
  simp only [readLabelSet, Option.bind_eq_bind, expect_append, Option.bind_some]
  cases ls with
  | nil =>
    have hempty : writeLabels labelEscapes.escape [] ++ ("\x7d".toList ++ r) = "\x7d".toList ++ r := rfl
    rw [hempty, expect_append]
  | cons l ls =>
    have hstart : expect "\x7d".toList
        (writeLabels labelEscapes.escape (l :: ls) ++ ("\x7d".toList ++ r)) = none := by
      -- an identifier does not start with the brace
      have hident := hl l (by simp)
      have hwrite : ∃ t, writeLabels labelEscapes.escape (l :: ls) ++ ("\x7d".toList ++ r) = l.1 ++ t := by
        cases ls <;> simp [writeLabels, writeLabel, List.intercalate_cons_cons]
      obtain ⟨t, ht⟩ := hwrite
      rw [ht]
      cases hname : l.1 with
      | nil => rw [hname] at hident; cases hident
      | cons c name =>
        rw [hname] at hident
        have hc : '\x7d' ≠ c := by
          rintro rfl
          simp [Alphabet.isIdent, labelAlphabet] at hident
        exact if_neg hc
    have hlen := length_le_writeLabels labelEscapes.escape (l :: ls)
    have hread := readLabels_write hl (by simp) (r := "\x7d".toList ++ r) (fun c hc => by cases hc; decide)
      (n := (writeLabels labelEscapes.escape (l :: ls) ++ ("\x7d".toList ++ r)).length)
      (by rw [List.length_append]; omega)
    simp only [hstart, hread, Option.bind_some, expect_append]

theorem readSample_write {name : Text} {labels : List (Text × Text)} {value timestamp : Text}
    (h : (Line.sample name labels value timestamp).Legal) :
    readSample (Line.sample name labels value timestamp).render =
      some (.sample name labels value timestamp) := by
  obtain ⟨hname, hlabels, hvalue, htime⟩ := h
  have hsplit : (Line.sample name labels value timestamp).render =
      name ++ ("\x7b".toList ++ (writeLabels labelEscapes.escape labels ++ ("\x7d".toList ++
        (" ".toList ++ (value ++ (" ".toList ++ timestamp)))))) := by
    simp [Line.render, Line.write]
  have h1 := Alphabet.ident_append hname (r := "\x7b".toList ++ (writeLabels labelEscapes.escape labels ++
    ("\x7d".toList ++ (" ".toList ++ (value ++ (" ".toList ++ timestamp))))) ) fun c hc => by cases hc; decide
  have h2 := readLabelSet_write hlabels (" ".toList ++ (value ++ (" ".toList ++ timestamp)))
  have h3 := word_append hvalue (r := " ".toList ++ timestamp) fun c hc => by cases hc; rfl
  have h4 := word_append htime (r := []) fun c hc => by cases hc
  rw [List.append_nil] at h4
  rw [hsplit]
  simp only [readSample, h1, h2, h3, h4, Option.bind_eq_bind, Option.bind_some, expect_append, if_true]

theorem readHelp_write {name text : Text} (h : (Line.help name text).Legal) :
    readHelp (name ++ " ".toList ++ helpEscapes.escape text) = some (.help name text) := by
  have h1 := Alphabet.ident_append h (r := " ".toList ++ helpEscapes.escape text)
    fun c hc => by cases hc; decide
  have h2 := helpEscapes.scan_escape text (r := []) fun c hc => by cases hc
  rw [List.append_nil] at h2
  rw [List.append_assoc]
  simp only [readHelp, h1, h2, Option.bind_eq_bind, Option.bind_some, expect_append, if_true]

theorem readType_write {name kind : Text} (h : (Line.type name kind).Legal) :
    readType (name ++ " ".toList ++ kind) = some (.type name kind) := by
  have h1 := Alphabet.ident_append h.1 (r := " ".toList ++ kind) fun c hc => by cases hc; decide
  rw [List.append_assoc]
  have hkind : kinds.contains kind = true := List.contains_iff_mem.mpr h.2
  simp only [readType, h1, Option.bind_eq_bind, Option.bind_some, expect_append, if_pos hkind]

/-- A legal line reads back from its rendering. -/
theorem readLine_render {l : Line} (h : l.Legal) : readLine l.render = some (some l) := by
  cases l with
  | help name text =>
    have hsplit : (Line.help name text).render =
        helpPrefix ++ (name ++ " ".toList ++ helpEscapes.escape text) := by
      simp [Line.render, Line.write]
    unfold readLine
    simp only [hsplit, expect_append, readHelp_write h, Option.map_some]
  | type name kind =>
    have hsplit : (Line.type name kind).render = typePrefix ++ (name ++ " ".toList ++ kind) := by
      simp [Line.render, Line.write]
    have hhelp : ∀ s, expect helpPrefix (typePrefix ++ s) = none := fun _ => rfl
    unfold readLine
    simp only [hsplit, hhelp, expect_append, readType_write h, Option.map_some]
  | sample name labels value timestamp =>
    have hread := readSample_write h
    -- the line starts with a letter
    have hstart : ∃ c s, (Line.sample name labels value timestamp).render = c :: s ∧
        metricAlphabet.first c = true := by
      have hname := h.1
      cases name with
      | nil => cases hname
      | cons c name =>
        simp only [Alphabet.isIdent, Bool.and_eq_true] at hname
        exact ⟨c, _, rfl, hname.1⟩
    obtain ⟨c, s, hcs, hc⟩ := hstart
    have hne : '#' ≠ c := by
      rintro rfl
      revert hc
      decide
    have hhelp : expect helpPrefix (c :: s) = none := if_neg hne
    have htype : expect typePrefix (c :: s) = none := if_neg hne
    unfold readLine
    rw [hcs] at hread ⊢
    simp only [hhelp, htype]
    split
    · next he => cases he
    · next he => cases he
    · next he => cases he
    · next he => cases he; exact absurd rfl hne
    · rw [hread]
      rfl

end SoapStab.Lib.PromText
