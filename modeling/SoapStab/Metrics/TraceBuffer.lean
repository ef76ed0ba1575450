import Mathlib.Data.List.GetD
import Mathlib.Data.List.Infix
import Mathlib.Data.List.TakeWhile
import Mathlib.Tactic.Common

/-!
# The trace buffer of the read handler

With trace messages on, the read handler copies the body of a request piece
by piece into `strdat`, an array of `METRICS_SERVER_BUFFER_SIZE_BYTES`
characters on its stack, and makes a string of it.

The memory here starts at `strdat` and does not end where the array does;
`written` records the indices written. `strncpy` is told to write no more than
the array holds. The zero behind the copy goes to the index given by the
piece's own size. So the loop stays in the array if and only if every piece is
shorter than the array: `inBounds_iff`. While it does, it collects each piece
up to its first zero byte (`copyBody_body`).
-/
namespace SoapStab.Metrics.TraceBuffer

/-- The memory from `strdat` on, the indices written so far, and what
`reqbodyss` holds. -/
structure Frame where
  mem : Nat → UInt8
  written : List Nat
  body : List UInt8

/-- `strdat` is not initialised. -/
def Frame.start (mem : Nat → UInt8) : Frame := ⟨mem, [], []⟩

/-- `strdat[i] = b` -/
def Frame.store (s : Frame) (i : Nat) (b : UInt8) : Frame :=
  { s with mem := fun j => if j = i then b else s.mem j, written := s.written ++ [i] }

/-- `strncpy(strdat, src, count)`: the bytes of `src` before its first zero,
then zeros, `count` bytes in all. -/
def Frame.strncpy (s : Frame) (src : List UInt8) (count : Nat) : Frame :=
  { s with
    mem := fun j => if j < count then (src.takeWhile (· != 0)).getD j 0 else s.mem j
    written := s.written ++ List.range count }

/-- `string(strdat)`, where there is a zero at `terminator` at the latest. -/
def Frame.string (s : Frame) (terminator : Nat) : List UInt8 :=
  ((List.range (terminator + 1)).map s.mem).takeWhile (· != 0)

/-- One iteration.
mirrors src/metrics/metrics_server.cpp:127-129 -/
def Frame.copyPiece (strdatsize : Nat) (s : Frame) (piece : List UInt8) : Frame :=
  let s := s.strncpy piece (if piece.length > strdatsize then strdatsize else piece.length)
  let s := s.store piece.length 0
  { s with body := s.body ++ s.string piece.length }

/-- mirrors src/metrics/metrics_server.cpp:123-130 -/
def copyBody (strdatsize : Nat) (s : Frame) (pieces : List (List UInt8)) : Frame :=
  pieces.foldl (Frame.copyPiece strdatsize) s

/-- After each iteration, every index written so far is in the array, and so
is a zero for `string(strdat)` to end at. -/
def InBounds (strdatsize : Nat) (mem : Nat → UInt8) (pieces : List (List UInt8)) : Prop :=
  ∀ before piece, before ++ [piece] <+: pieces →
    (∀ i ∈ (copyBody strdatsize (.start mem) (before ++ [piece])).written, i < strdatsize) ∧
      ∃ i, i < strdatsize ∧ (copyBody strdatsize (.start mem) (before ++ [piece])).mem i = 0

/-! ## Indices -/

theorem copyBody_concat (n : Nat) (s : Frame) (before : List (List UInt8)) (piece : List UInt8) :
    copyBody n s (before ++ [piece]) = (copyBody n s before).copyPiece n piece := by
  simp [copyBody]

/-- One iteration writes below its clamp, and at the size of the piece. -/
theorem mem_written_copyPiece (n : Nat) (s : Frame) (piece : List UInt8) (i : Nat) :
    i ∈ (s.copyPiece n piece).written ↔ i ∈ s.written ∨ i < min piece.length n ∨ i = piece.length := by
  have hclamp : (if piece.length > n then n else piece.length) = min piece.length n := by
    split <;> omega
  simp only [Frame.copyPiece, Frame.store, Frame.strncpy, hclamp, List.mem_append, List.mem_range,
    List.mem_singleton, or_assoc]

theorem mem_written_copyBody (n : Nat) (mem : Nat → UInt8) (pieces : List (List UInt8)) (i : Nat) :
    i ∈ (copyBody n (.start mem) pieces).written ↔
      ∃ piece ∈ pieces, i < min piece.length n ∨ i = piece.length := by
  induction pieces using List.reverseRecOn with
  | nil => simp [copyBody, Frame.start]
  | append_singleton before piece ih =>
    rw [copyBody_concat, mem_written_copyPiece, ih]
    simp [or_and_right, exists_or]

theorem copyPiece_terminated (n : Nat) (s : Frame) (piece : List UInt8) :
    (s.copyPiece n piece).mem piece.length = 0 := if_pos rfl

/-- **Bounds.** The copy stays in an array of `n` characters exactly when
every piece of the body has fewer than `n` bytes. -/
theorem inBounds_iff (n : Nat) (mem : Nat → UInt8) (pieces : List (List UInt8)) :
    InBounds n mem pieces ↔ ∀ piece ∈ pieces, piece.length < n := by
  constructor
  · intro h piece hp
    obtain ⟨before, after, rfl⟩ := List.append_of_mem hp
    have hwritten := (h before piece ⟨after, by simp⟩).1
    exact hwritten _ ((mem_written_copyBody n mem _ _).mpr ⟨piece, by simp, .inr rfl⟩)
  · intro h before piece hp
    have hsub : ∀ q ∈ before ++ [piece], q.length < n := fun q hq => h q (hp.subset hq)
    refine ⟨fun i hi => ?_, piece.length, hsub piece (by simp), ?_⟩
    · obtain ⟨q, hq, hlt | rfl⟩ := (mem_written_copyBody n mem _ i).mp hi
      · omega
      · exact hsub q hq
    · rw [copyBody_concat]
      exact copyPiece_terminated n _ piece

/-- A body in one piece that is as long as the array: the zero is written
behind its end. -/
theorem inBounds_fails : ¬ InBounds 4 (fun _ => 0) [[71, 69, 84, 33]] := by
  intro h
  exact absurd ((h [] [71, 69, 84, 33] (List.prefix_refl _)).1 4 (by decide)) (by decide)

/-! ## What is collected -/

/-- The memory after the copy of a piece that fits: its text, and zeros. -/
theorem mem_copyPiece {n : Nat} {piece : List UInt8} (h : piece.length < n) (s : Frame) {i : Nat}
    (hi : i ≤ piece.length) :
    (s.copyPiece n piece).mem i = (piece.takeWhile (· != 0)).getD i 0 := by
  have hlen : (piece.takeWhile (· != 0)).length ≤ piece.length := (List.takeWhile_prefix _).length_le
  simp only [Frame.copyPiece, Frame.store, Frame.strncpy, if_neg (by omega : ¬ piece.length > n)]
  by_cases he : i = piece.length
  · rw [if_pos he, he, List.getD_eq_default _ _ hlen]
  · rw [if_neg he, if_pos (by omega)]

theorem range_map_getD (t : List UInt8) {k : Nat} (h : t.length ≤ k) :
    (List.range (k + 1)).map (fun i => t.getD i 0) = t ++ List.replicate (k + 1 - t.length) 0 := by
  refine List.ext_getElem (by simp; omega) fun i h₁ h₂ => ?_
  simp only [List.getElem_map, List.getElem_range, List.getElem_append, List.getElem_replicate]
  split
  · next hlt => exact List.getD_eq_getElem _ _ hlt
  · next hge => exact List.getD_eq_default _ _ (by omega)

theorem copyPiece_body {n : Nat} {piece : List UInt8} (h : piece.length < n) (s : Frame) :
    (s.copyPiece n piece).body = s.body ++ piece.takeWhile (· != 0) := by
  have hlen : (piece.takeWhile (· != 0)).length ≤ piece.length := (List.takeWhile_prefix _).length_le
  have hmem : (List.range (piece.length + 1)).map (s.copyPiece n piece).mem =
      piece.takeWhile (· != 0) ++ List.replicate (piece.length + 1 - (piece.takeWhile (· != 0)).length) 0 := by
    rw [← range_map_getD _ hlen]
    exact List.map_congr_left fun i hi => mem_copyPiece h s (by simpa [Nat.lt_succ_iff] using hi)
  have hbody : (s.copyPiece n piece).body = s.body ++
      ((List.range (piece.length + 1)).map (s.copyPiece n piece).mem).takeWhile (· != 0) := rfl
  have htext : ∀ b ∈ piece.takeWhile (· != 0), (b != 0) = true :=
    fun b hb => List.mem_takeWhile_imp (p := (· != 0)) hb
  rw [hbody, hmem, List.takeWhile_append_of_pos htext]
  simp

/-- **The text** collected of pieces that fit: each up to its first zero. -/
theorem copyBody_body {n : Nat} (mem : Nat → UInt8) {pieces : List (List UInt8)}
    (h : ∀ piece ∈ pieces, piece.length < n) :
    (copyBody n (.start mem) pieces).body = pieces.flatMap (List.takeWhile (· != 0)) := by
  induction pieces using List.reverseRecOn with
  | nil => rfl
  | append_singleton before piece ih =>
    rw [copyBody_concat, copyPiece_body (h piece (by simp)), ih fun q hq => h q (by simp [hq])]
    simp

end SoapStab.Metrics.TraceBuffer
