import SoapStab.Lib.Lists
import SoapStab.Lib.PromText.Line

/-!
# Documents of the Prometheus text format

A document is read line by line. `document` writes blocks of lines with a
blank line between two blocks; `Line.render` writes a line with the escapes
and `Line.raw` without.

* `read_document`: a document of legal lines written with the escapes reads
  back.
* `read_length`: what was read, rendered, fits into the text it was read from.
* `read_raw_iff`: a document written without escapes reads back as the lines
  it was made of if and only if nothing in it needed an escape. Where it does
  read back, the lines rendered are no longer than the lines written, so
  nothing can have been escaped.
-/
namespace SoapStab.Lib.PromText

open SoapStab.Lib.Lists

def readLines : List Text → Option (List Line)
  | [] => some []
  | s :: ss =>
    match readLine s, readLines ss with
    | some (some l), some ls => some (l :: ls)
    | some none, some ls => some ls
    | _, _ => none

def read (t : Text) : Option (List Line) := readLines (t.splitOn '\n')

theorem readLines_append {ss ss' : List Text} {ls ls' : List Line} (h : readLines ss = some ls)
    (h' : readLines ss' = some ls') : readLines (ss ++ ss') = some (ls ++ ls') := by
  induction ss generalizing ls with
  | nil => cases h; exact h'
  | cons s ss ih =>
    simp only [readLines, List.cons_append] at h ⊢
    split at h
    · next l ls₁ hl hls =>
      cases h
      simp only [hl, ih hls, List.cons_append]
    · next ls₁ hl hls =>
      cases h
      simp only [hl, ih hls]
    · cases h

/-- The lines read, rendered, fit into the lines they were read from; every
blank line leaves room for one more character. -/
theorem readLines_length {ss : List Text} : ∀ {ls : List Line}, readLines ss = some ls →
    (ls.map fun l => l.render.length + 1).sum + ss.count [] ≤ (ss.map fun s => s.length + 1).sum := by
  induction ss with
  | nil => intro ls h; cases h; simp
  | cons s ss ih =>
    intro ls h
    simp only [readLines] at h
    split at h
    · next l ls₁ hl hls =>
      cases h
      have hs := render_of_readLine hl
      have hne : s ≠ [] := by
        rintro rfl
        cases hl
      have := ih hls
      simp only [List.map_cons, List.sum_cons, List.count_cons, beq_iff_eq, hne, if_false, hs]
      omega
    · next ls₁ hl hls =>
      cases h
      have := ih hls
      simp only [List.map_cons, List.sum_cons, List.count_cons]
      split <;> omega
    · cases h

theorem length_splitOn (t : Text) : ((t.splitOn '\n').map fun s => s.length + 1).sum = t.length + 1 := by
  induction t with
  | nil => rfl
  | cons c t ih =>
    rw [List.splitOn_cons_eq_if_modifyHead]
    split
    · simp only [List.map_cons, List.sum_cons, List.length_nil, List.length_cons, ih]
      omega
    · cases hs : t.splitOn '\n' with
      | nil => exact absurd hs (List.splitOn_ne_nil _ _)
      | cons l ls =>
        rw [hs] at ih
        simp only [List.modifyHead_cons, List.map_cons, List.sum_cons, List.length_cons] at ih ⊢
        omega

theorem read_length {t : Text} {ls : List Line} (h : read t = some ls) :
    (ls.map fun l => l.render.length + 1).sum + (t.splitOn '\n').count [] ≤ t.length + 1 := by
  rw [← length_splitOn]
  exact readLines_length h

/-! ### Blocks of lines, with a blank line between them -/

def block (w : Line → Text) (ls : List Line) : Text := ['\n'].intercalate (ls.map w)

def document (w : Line → Text) (blocks : List (List Line)) : Text :=
  ['\n', '\n'].intercalate (blocks.map (block w))

theorem notMem_intercalate {c : Char} {sep : Text} (hsep : c ∉ sep) {ss : List Text} (h : ∀ s ∈ ss, c ∉ s) :
    c ∉ sep.intercalate ss := by
  induction ss with
  | nil => simp
  | cons s ss ih =>
    have hs := h s (by simp)
    have hrest := ih fun s' hs' => h s' (by simp [hs'])
    cases ss with
    | nil => simpa using hs
    | cons s' ss =>
      rw [List.intercalate_cons_cons]
      simp only [List.mem_append, not_or]
      exact ⟨⟨hs, hsep⟩, hrest⟩

theorem Alphabet.newline_notMem {A : Alphabet} (hA : A.first '\n' = false ∧ A.rest '\n' = false) {n : Text}
    (h : A.isIdent n = true) : '\n' ∉ n := by
  cases n with
  | nil => cases h
  | cons c n =>
    simp only [Alphabet.isIdent, Bool.and_eq_true, List.all_eq_true] at h
    intro hm
    rcases List.mem_cons.mp hm with rfl | hm
    · rw [hA.1] at h
      cases h.1
    · have := h.2 _ hm
      rw [hA.2] at this
      cases this

theorem newline_notMem_writeLabels {ls : List (Text × Text)}
    (h : ∀ l ∈ ls, labelAlphabet.isIdent l.1 = true) : '\n' ∉ writeLabels labelEscapes.escape ls := by
  refine notMem_intercalate (by decide) fun s hs => ?_
  obtain ⟨l, hl, rfl⟩ := List.mem_map.mp hs
  have hname := Alphabet.newline_notMem (by decide) (h l hl)
  have hvalue := labelEscapes.newline_notMem_escape l.2
  simp [writeLabel, hname, hvalue]

theorem newline_notMem_render {l : Line} (h : l.Legal) : '\n' ∉ l.render := by
  cases l with
  | help name text =>
    have hname := Alphabet.newline_notMem (by decide) h
    have htext := helpEscapes.newline_notMem_escape text
    have hprefix : '\n' ∉ helpPrefix := by decide
    simp [Line.render, Line.write, hprefix, hname, htext]
  | type name kind =>
    have hname := Alphabet.newline_notMem (by decide) h.1
    have hkind : '\n' ∉ kind := by
      have hall : ∀ k ∈ kinds, '\n' ∉ k := by decide
      exact hall kind h.2
    have hprefix : '\n' ∉ typePrefix := by decide
    simp [Line.render, Line.write, hprefix, hname, hkind]
  | sample name labels value timestamp =>
    obtain ⟨hname, hlabels, hvalue, htime⟩ := h
    have hname := Alphabet.newline_notMem (by decide) hname
    have hlabels := newline_notMem_writeLabels hlabels
    simp [Line.render, Line.write, hname, hlabels, hvalue.2.2, htime.2.2]

theorem readLines_render {ls : List Line} (h : ∀ l ∈ ls, l.Legal) :
    readLines (ls.map Line.render) = some ls := by
  induction ls with
  | nil => rfl
  | cons l ls ih =>
    have hrest := ih fun l' hl' => h l' (by simp [hl'])
    simp only [List.map_cons, readLines, readLine_render (h l (by simp)), hrest]

theorem splitOn_block {ls : List Line} (h : ∀ l ∈ ls, l.Legal) (hne : ls ≠ []) :
    (block Line.render ls).splitOn '\n' = ls.map Line.render := by
  refine List.splitOn_intercalate '\n' (fun s hs => ?_) (by simpa using hne)
  obtain ⟨l, hl, rfl⟩ := List.mem_map.mp hs
  exact newline_notMem_render (h l hl)

/-- A document written with the escapes reads back. -/
theorem read_document {blocks : List (List Line)} (h : ∀ b ∈ blocks, b ≠ [] ∧ ∀ l ∈ b, l.Legal) :
    read (document Line.render blocks) = some blocks.flatten := by
  induction blocks with
  | nil => rfl
  | cons b bs ih =>
    obtain ⟨hne, hb⟩ := h b (by simp)
    have hrest := ih fun b' hb' => h b' (by simp [hb'])
    have hlines : readLines ((block Line.render b).splitOn '\n') = some b := by
      rw [splitOn_block hb hne]
      exact readLines_render hb
    cases bs with
    | nil => simpa [read, document] using hlines
    | cons b' bs =>
      have hdoc : document Line.render (b :: b' :: bs) =
          block Line.render b ++ '\n' :: ([] ++ '\n' :: document Line.render (b' :: bs)) := by
        simp [document, List.intercalate_cons_cons]
      unfold read at hrest ⊢
      rw [hdoc, List.splitOn_append_cons_self, List.splitOn_append_cons_self]
      have hblank : readLines (([] : Text).splitOn '\n') = some [] := rfl
      have hbs := readLines_append hblank hrest
      rw [List.nil_append] at hbs
      exact readLines_append hlines hbs

/-! ### Documents written without the escapes -/

/-- Nothing in the line needs an escape. -/
def Line.Plain : Line → Prop
  | .help _ text => helpEscapes.Plain text
  | .type _ _ => True
  | .sample _ labels _ _ => ∀ l ∈ labels, labelEscapes.Plain l.2

theorem length_intercalate (sep : Text) (s : Text) (ss : List Text) :
    (sep.intercalate (s :: ss)).length + sep.length = ((s :: ss).map fun s => s.length + sep.length).sum := by
  induction ss generalizing s with
  | nil => simp
  | cons s' ss ih =>
    have := ih s'
    rw [List.intercalate_cons_cons]
    simp only [List.length_append, List.map_cons, List.sum_cons] at this ⊢
    omega

theorem length_writeLabel_le (l : Text × Text) :
    (writeLabel id l).length ≤ (writeLabel labelEscapes.escape l).length := by
  have := labelEscapes.length_le_escape l.2
  simp only [writeLabel, List.length_append, id]
  omega

theorem length_writeLabels_le (ls : List (Text × Text)) :
    (writeLabels id ls).length ≤ (writeLabels labelEscapes.escape ls).length ∧
      ((writeLabels labelEscapes.escape ls).length ≤ (writeLabels id ls).length →
        ∀ l ∈ ls, labelEscapes.Plain l.2) := by
  cases ls with
  | nil => exact ⟨Nat.le_refl _, fun _ l hl => by cases hl⟩
  | cons l ls =>
    have hraw := length_intercalate [','] (writeLabel id l) (ls.map (writeLabel id))
    have hesc := length_intercalate [','] (writeLabel labelEscapes.escape l)
      (ls.map (writeLabel labelEscapes.escape))
    rw [← List.map_cons, List.map_map] at hraw hesc
    have hle : ∀ p ∈ l :: ls, ((fun s : Text => s.length + [','].length) ∘ writeLabel id) p ≤
        ((fun s : Text => s.length + [','].length) ∘ writeLabel labelEscapes.escape) p := fun p _ =>
      Nat.add_le_add_right (length_writeLabel_le p) _
    have hsum := List.sum_le_sum hle
    refine ⟨?_, fun h => ?_⟩
    · unfold writeLabels
      omega
    · have heq := le_of_sum_le hle (by unfold writeLabels at h; omega)
      intro l' hl'
      refine labelEscapes.plain_of_length ?_
      have := heq l' hl'
      simp only [Function.comp, writeLabel, List.length_append, id] at this
      omega

theorem length_raw_le (l : Line) : l.raw.length ≤ l.render.length := by
  cases l with
  | help name text =>
    have := helpEscapes.length_le_escape text
    simp only [Line.raw, Line.render, Line.write, List.length_append, id]
    omega
  | type name kind => exact Nat.le_refl _
  | sample name labels value timestamp =>
    have := (length_writeLabels_le labels).1
    simp only [Line.raw, Line.render, Line.write, List.length_append]
    omega

theorem plain_of_length_raw {l : Line} (h : l.render.length ≤ l.raw.length) : l.Plain := by
  cases l with
  | help name text =>
    refine helpEscapes.plain_of_length ?_
    simp only [Line.raw, Line.render, Line.write, List.length_append, id] at h
    omega
  | type name kind => trivial
  | sample name labels value timestamp =>
    refine (length_writeLabels_le labels).2 ?_
    simp only [Line.raw, Line.render, Line.write, List.length_append] at h
    omega

theorem raw_of_plain {l : Line} (h : l.Plain) : l.raw = l.render := by
  cases l with
  | help name text => simp only [Line.raw, Line.render, Line.write, helpEscapes.escape_of_plain h, id]
  | type name kind => rfl
  | sample name labels value timestamp =>
    have hlabels : writeLabels labelEscapes.escape labels = writeLabels id labels := by
      unfold writeLabels
      refine congrArg _ (List.map_congr_left fun l hl => ?_)
      simp only [writeLabel, labelEscapes.escape_of_plain (h l hl), id]
    simp only [Line.raw, Line.render, Line.write, hlabels]

theorem length_block (w : Line → Text) {b : List Line} (hb : b ≠ []) :
    (block w b).length + 1 = (b.map fun l => (w l).length + 1).sum := by
  obtain ⟨l, ls, rfl⟩ := List.exists_cons_of_ne_nil hb
  have h := length_intercalate ['\n'] (w l) (ls.map w)
  rw [← List.map_cons, List.map_map] at h
  exact h

/-- The length of a document of at least one block. -/
theorem length_document (w : Line → Text) {blocks : List (List Line)} (hb : blocks ≠ [])
    (h : ∀ b ∈ blocks, b ≠ []) :
    (document w blocks).length + 2 = (blocks.flatten.map fun l => (w l).length + 1).sum + blocks.length := by
  have hsum : (blocks.map fun b => (block w b).length + 2).sum =
      (blocks.flatten.map fun l => (w l).length + 1).sum + blocks.length := by
    clear hb
    induction blocks with
    | nil => rfl
    | cons b bs ih =>
      have hblock := length_block w (h b (by simp))
      have hrest := ih fun b' hb' => h b' (by simp [hb'])
      simp only [List.map_cons, List.sum_cons, List.flatten_cons, List.map_append, List.sum_append,
        List.length_cons, hrest]
      omega
  obtain ⟨b, bs, rfl⟩ := List.exists_cons_of_ne_nil hb
  have hdoc := length_intercalate ['\n', '\n'] (block w b) (bs.map (block w))
  rw [← List.map_cons, List.map_map] at hdoc
  rw [← hsum]
  exact hdoc

/-- Between two blocks there is a blank line. -/
theorem count_blank_document (w : Line → Text) (blocks : List (List Line)) :
    blocks.length ≤ ((document w blocks).splitOn '\n').count [] + 1 := by
  induction blocks with
  | nil => simp
  | cons b bs ih =>
    cases bs with
    | nil => simp
    | cons b' bs =>
      have hdoc : document w (b :: b' :: bs) =
          block w b ++ '\n' :: ([] ++ '\n' :: document w (b' :: bs)) := by
        simp [document, List.intercalate_cons_cons]
      rw [hdoc, List.splitOn_append_cons_self, List.splitOn_append_cons_self]
      simp only [List.count_append, List.length_cons, List.splitOn_nil, List.count_singleton_self] at ih ⊢
      omega

/-- **Without escapes**, a document of legal lines reads back as its lines if
and only if none of them needed one. -/
theorem read_raw_iff {blocks : List (List Line)} (h : ∀ b ∈ blocks, b ≠ [] ∧ ∀ l ∈ b, l.Legal) :
    read (document Line.raw blocks) = some blocks.flatten ↔ ∀ l ∈ blocks.flatten, l.Plain := by
  refine ⟨fun hread => ?_, fun hplain => ?_⟩
  · by_cases hb : blocks = []
    · subst hb
      intro l hl
      cases hl
    have hlen := read_length hread
    have hdoc := length_document Line.raw hb fun b hb => (h b hb).1
    have hcount := count_blank_document Line.raw blocks
    have hle : ∀ l ∈ blocks.flatten, l.raw.length + 1 ≤ l.render.length + 1 := fun l _ =>
      Nat.add_le_add_right (length_raw_le l) 1
    have heq := le_of_sum_le hle (by omega)
    intro l hl
    exact plain_of_length_raw (by have := heq l hl; omega)
  · have hsame : document Line.raw blocks = document Line.render blocks := by
      unfold document block
      refine congrArg _ (List.map_congr_left fun b hb => congrArg _ (List.map_congr_left fun l hl => ?_))
      exact raw_of_plain (hplain l (List.mem_flatten.mpr ⟨b, hb, hl⟩))
    rw [hsame]
    exact read_document h

end SoapStab.Lib.PromText
