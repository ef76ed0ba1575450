import SoapStab.Common.StrValue

/-!
# The text of an exception

`ibb_exception` keeps a rendered text beside the code and the description it
is made of. The constructors render it, copies and moves carry it along, and
`operator=(ex_code_t)` sets code and description and leaves it alone.

A `History` is how an object came to be: a constructor, then any assignments,
their sources objects with histories of their own. `Agrees` is the property
that `what()` is the text of the object's code and description.
`agrees_iff` says for which histories it holds: a bare code was assigned to no
object but one whose text is that of the same bare code, and a description
given explicitly has no NUL, at which `what()` would end.

The strings of an object that was moved from are unspecified. The property
says nothing of its text, until a code is assigned to it. An object that was
moved to itself is one that was moved from: its strings are unspecified too.
-/
namespace SoapStab

open SoapStab.Lib.Decimal

/-- mirrors src/exceptions/exceptions.cpp:51-53 -/
def IbbException.ofCStr (code : ExCode) (description : Str) : IbbException :=
  .ofDescription code (cStr description)

/-- mirrors src/exceptions/exceptions.cpp:70-74 -/
def IbbException.assignCode (e : IbbException) (i : ExCode) : IbbException :=
  { e with code := i, description := exceptionDescription i }

/-- The C string that `what()` returns.
mirrors src/exceptions/exceptions.cpp:62-64 -/
def IbbException.whatText (e : IbbException) : Str := cStr e.what

inductive History where
  | ofCode (code : ExCode)
  | ofCStr (code : ExCode) (description : Str)
  | ofDescription (code : ExCode) (description : Str)
  | copyOf (source : History)
  | moveOf (source : History)
  | assign (target source : History)
  | moveAssign (target source : History)
  | assignCode (target : History) (i : ExCode)
  /-- The source of a move, also one to itself, with the strings it was left
  with. -/
  | movedFrom (source : History) (description what : Str)

/-- The object.
mirrors src/exceptions/exceptions.h:20-26 -/
def History.object : History → IbbException
  | .ofCode c => .ofCode c
  | .ofCStr c d => .ofCStr c d
  | .ofDescription c d => .ofDescription c d
  | .copyOf s => s.object
  | .moveOf s => s.object
  | .assign _ s => s.object
  | .moveAssign _ s => s.object
  | .assignCode t i => t.object.assignCode i
  | .movedFrom s d w => { s.object with description := d, what := w }

/-- Where the code and the description of an object are from. -/
inductive Origin where
  | bare (code : ExCode)
  | described (code : ExCode) (description : Str)
  | moved
  deriving DecidableEq

def History.origin : History → Origin
  | .ofCode c => .bare c
  | .ofCStr c d => .described c (cStr d)
  | .ofDescription c d => .described c d
  | .copyOf s => s.origin
  | .moveOf s => s.origin
  | .assign _ s => s.origin
  | .moveAssign _ s => s.origin
  | .assignCode _ i => .bare i
  | .movedFrom _ _ _ => .moved

/-- What the text of an object was rendered from, or left over as. -/
inductive Rendered where
  | bare (code : ExCode)
  | described (code : ExCode) (description : Str)
  | leftOver (what : Str)
  deriving DecidableEq

def History.rendered : History → Rendered
  | .ofCode c => .bare c
  | .ofCStr c d => .described c (cStr d)
  | .ofDescription c d => .described c d
  | .copyOf s => s.rendered
  | .moveOf s => s.rendered
  | .assign _ s => s.rendered
  | .moveAssign _ s => s.rendered
  | .assignCode t _ => t.rendered
  | .movedFrom _ _ w => .leftOver w

/-- The text for a code. -/
def codeText (code : ExCode) : Str :=
  whatStart ++ decInt code.toInt ++ ": ".toList ++ exceptionDescription code

/-- `what()` is the text of `code()`, followed by `description()` where that
was given explicitly. -/
def Agrees (h : History) : Prop :=
  match h.origin with
  | .bare _ => h.object.whatText = codeText h.object.code
  | .described _ _ => h.object.whatText = codeText h.object.code ++ ": ".toList ++ h.object.description
  | .moved => True

/-- A bare code has a text rendered from that same bare code, and an explicit
description has no NUL. -/
def InStep (h : History) : Prop :=
  match h.origin, h.rendered with
  | .bare c, .bare c' => c' = c
  | .bare _, .described _ _ => False
  | .bare c, .leftOver w => cStr w = codeText c
  | .described _ d, _ => NulFree d
  | .moved, _ => True

/-! ## Texts -/

theorem nulFree_append {a b : Str} (ha : NulFree a) (hb : NulFree b) : NulFree (a ++ b) :=
  fun h => (List.mem_append.mp h).elim ha hb

theorem nulFree_ite {p : Prop} [Decidable p] {a b : Str} (ha : NulFree a) (hb : NulFree b) :
    NulFree (if p then a else b) := by
  split
  · exact ha
  · exact hb

theorem exceptionDescription_nulFree (c : ExCode) : NulFree (exceptionDescription c) := by
  unfold exceptionDescription
  iterate 14 refine nulFree_ite (by decide +kernel) ?_
  decide +kernel

theorem codeText_nulFree (c : ExCode) : NulFree (codeText c) := by
  have hstart : NulFree whatStart := by decide
  have hcolon : NulFree ": ".toList := by decide
  exact nulFree_append (nulFree_append (nulFree_append hstart (decInt_nulFree _)) hcolon)
    (exceptionDescription_nulFree c)

/-- The code can be read off its text, whatever follows. -/
theorem codeText_append_inj {c c' : ExCode} {s s' : Str} (h : codeText c ++ s = codeText c' ++ s') : c = c' := by
  have hread : ∀ (c : ExCode) (s : Str),
      readInt (decInt c.toInt ++ (": ".toList ++ (exceptionDescription c ++ s))) = some c.toInt := by
    intro c s
    refine readInt_decInt c.toInt _ fun k hk => ?_
    have hcolon : some ':' = some k := hk
    cases hcolon
    decide
  simp only [codeText, List.append_assoc] at h
  have hrest := congrArg readInt (List.append_cancel_left h)
  rw [hread, hread] at hrest
  exact Int32.toInt_inj.mp (Option.some.inj hrest)

theorem codeText_inj {c c' : ExCode} : codeText c = codeText c' ↔ c = c' := by
  refine ⟨fun h => ?_, fun h => by rw [h]⟩
  have happ : codeText c ++ [] = codeText c' ++ [] := by rw [h]
  exact codeText_append_inj happ

/-- A text with an explicit description is not that of a bare code. -/
theorem codeText_append_ne (c c' : ExCode) {s : Str} (hs : s ≠ []) : codeText c ++ s ≠ codeText c' := by
  intro h
  have happ : codeText c ++ s = codeText c' ++ [] := h.trans (List.append_nil _).symm
  have hc := codeText_append_inj happ
  rw [hc] at h
  exact hs (List.append_right_eq_self.mp h)

/-! ## Histories -/

/-- Code and description are those of the origin. -/
theorem object_origin (h : History) :
    match h.origin with
    | .bare c => h.object.code = c
    | .described c d => h.object.code = c ∧ h.object.description = d
    | .moved => True := by
  induction h with
  | ofCode c => rfl
  | ofCStr c d => exact ⟨rfl, rfl⟩
  | ofDescription c d => exact ⟨rfl, rfl⟩
  | copyOf s ih => exact ih
  | moveOf s ih => exact ih
  | assign t s _ ih => exact ih
  | moveAssign t s _ ih => exact ih
  | assignCode t i _ => rfl
  | movedFrom s d w _ => exact trivial

/-- The text is the one last rendered. -/
theorem object_what (h : History) :
    h.object.what = match h.rendered with
      | .bare c => codeText c
      | .described c d => codeText c ++ ": ".toList ++ d
      | .leftOver w => w := by
  induction h with
  | ofCode c => rfl
  | ofCStr c d => rfl
  | ofDescription c d => rfl
  | copyOf s ih => exact ih
  | moveOf s ih => exact ih
  | assign t s _ ih => exact ih
  | moveAssign t s _ ih => exact ih
  | assignCode t i ih => exact ih
  | movedFrom s d w _ => rfl

/-- An object with an explicit description has the text rendered with it. -/
theorem rendered_of_described {h : History} {c : ExCode} {d : Str} (ho : h.origin = .described c d) :
    h.rendered = .described c d := by
  induction h with
  | ofCode c' => cases ho
  | ofCStr c' d' => cases ho; rfl
  | ofDescription c' d' => cases ho; rfl
  | copyOf s ih => exact ih ho
  | moveOf s ih => exact ih ho
  | assign t s _ ih => exact ih ho
  | moveAssign t s _ ih => exact ih ho
  | assignCode t i _ => cases ho
  | movedFrom s d' w _ => cases ho

/-- **The text of an exception** agrees with the exception exactly when its
history keeps the two in step. -/
theorem agrees_iff (h : History) : Agrees h ↔ InStep h := by
  have horigin := object_origin h
  have hwhat := object_what h
  unfold Agrees InStep IbbException.whatText
  cases ho : h.origin with
  | moved => simp
  | described c d =>
    rw [ho] at horigin
    rw [rendered_of_described ho] at hwhat ⊢
    simp only at horigin hwhat ⊢
    have hfree : NulFree (codeText c ++ ": ".toList) := nulFree_append (codeText_nulFree c) (by decide)
    rw [hwhat, horigin.1, horigin.2, cStr_append hfree, List.append_cancel_left_eq, cStr_eq_self]
  | bare c =>
    rw [ho] at horigin
    simp only at horigin ⊢
    rw [hwhat, horigin]
    cases h.rendered with
    | bare c' =>
      simp only
      rw [(cStr_eq_self _).mpr (codeText_nulFree c'), codeText_inj]
    | described c' d =>
      simp only [iff_false]
      rw [List.append_assoc, cStr_append (codeText_nulFree c')]
      have hcolon : (':' : Char) ≠ nul := by decide
      exact codeText_append_ne c' c (by simp [cStr, hcolon])
    | leftOver w => rfl

/-- An exception for a configuration error to which another code is assigned
goes on saying that it is one. -/
theorem agrees_fails : ¬ Agrees (.assignCode (.ofCode EX_CONFIG_ERROR) EX_NULL_POINTER) := by
  intro h
  have htext : cStr (codeText EX_CONFIG_ERROR) = codeText EX_NULL_POINTER := h
  rw [(cStr_eq_self _).mpr (codeText_nulFree _), codeText_inj] at htext
  exact absurd htext (by decide)

end SoapStab
