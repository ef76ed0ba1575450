import SoapStab.Lib.Monitor

/-!
# The synchronized queue

`synchronized_queue<T>` is a deque of shared pointers; each of its four
functions works on it under the mutex. The steps of the bodies are those of
the deque's functions, and the steps of different callers interleave as the
mutex allows.

`fifo`: whatever callers do, the items delivered by `pop`, followed by those
still queued, are those pushed, in the order in which the pushes were served:
no item is lost, delivered twice or overtaken. A null pointer is `none`; it
may be pushed as well, and a `pop` that returns it cannot be told from one
that found the queue empty, so it is no item here. `pop_null`: where no null pointer is pushed, `pop`
returns null only if everything pushed so far has been delivered.
-/
namespace SoapStab.SynchronizedQueue

open SoapStab.Lib.Monitor SoapStab.Lib.Traces

variable {α : Type}

inductive QueueCall (α : Type) where
  | push (item : Option α)
  | pop
  | size
  | empty
  deriving DecidableEq

/-- The locals of a call: `result`, `size` and `empty`. -/
structure QueueLocals (α : Type) where
  result : Option α
  size : Nat
  empty : Bool

/-- mirrors src/common/synchronized_queue.h:40-50 -/
def popSteps : List (List (Option α) → QueueLocals α → List (Option α) × QueueLocals α) :=
  [fun q v => (q, { v with empty := q.isEmpty }),
   fun q v => (q, if v.empty then v else { v with result := q.head?.join }),
   fun q v => (if v.empty then q else q.tail, v)]

/-- mirrors src/common/synchronized_queue.h:40-71 -/
def queueSteps : QueueCall α → List (List (Option α) → QueueLocals α → List (Option α) × QueueLocals α)
  | .push item => [fun q v => (q ++ [item], v)]
  | .pop => popSteps
  | .size => [fun q v => (q, { v with size := q.length })]
  | .empty => [fun q v => (q, { v with empty := q.isEmpty })]

/-- mirrors src/common/synchronized_queue.h:14-29 -/
def synchronizedQueue (α : Type) : Object (List (Option α)) (QueueCall α) (QueueLocals α) where
  locals _ := ⟨none, 0, false⟩
  body c := some (queueSteps c)

/-- Callers of a new queue. -/
def callers (progs : List (List (QueueCall α))) :
    System (State (Fin progs.length) (List (Option α)) (QueueCall α) (QueueLocals α)) (Fin progs.length) :=
  (synchronizedQueue α).monitor [] progs.get

/-! ## A call in one go -/

theorem whole_push (q : List (Option α)) (item : Option α) :
    (synchronizedQueue α).whole q (.push item) = (q ++ [item], ⟨none, 0, false⟩) := rfl

theorem whole_pop (q : List (Option α)) :
    (synchronizedQueue α).whole q .pop = (q.tail, ⟨q.head?.join, 0, q.isEmpty⟩) := by
  cases q <;> rfl

/-! ## Items -/

/-- The item a call pushes. -/
def QueueCall.item : QueueCall α → Option α
  | .push item => item
  | _ => none

/-- The items pushed, in order. -/
def pushed (cs : List (QueueCall α)) : List α := cs.filterMap QueueCall.item

/-- The item a call delivered. -/
def deliveredBy (r : QueueCall α × QueueLocals α) : Option α :=
  match r.1 with
  | .pop => r.2.result
  | _ => none

/-- The items delivered, in order. -/
def delivered {ι : Type} (rs : List (Served ι (QueueCall α) (QueueLocals α))) : List α :=
  rs.filterMap fun r => deliveredBy (r.call, r.locals)

/-- One call moves the items from what is pushed to what is delivered. -/
theorem whole_items (q : List (Option α)) (c : QueueCall α) :
    (deliveredBy (c, ((synchronizedQueue α).whole q c).2)).toList ++
        ((synchronizedQueue α).whole q c).1.filterMap id =
      q.filterMap id ++ c.item.toList := by
  cases c with
  | push item => cases item <;> simp [whole_push, deliveredBy, QueueCall.item]
  | pop =>
    rw [whole_pop]
    cases q with
    | nil => rfl
    | cons x q => cases x <;> simp [deliveredBy, QueueCall.item]
  | size => simp [deliveredBy, QueueCall.item, synchronizedQueue, Object.whole, runSteps, queueSteps]
  | empty => simp [deliveredBy, QueueCall.item, synchronizedQueue, Object.whole, runSteps, queueSteps]

/-- Calls one after the other. -/
theorem after_items (q : List (Option α)) (cs : List (QueueCall α)) :
    (cs.zip ((synchronizedQueue α).results q cs)).filterMap deliveredBy ++
        ((synchronizedQueue α).after q cs).filterMap id =
      q.filterMap id ++ pushed cs := by
  induction cs generalizing q with
  | nil => simp [Object.results, Object.after, pushed]
  | cons c cs ih =>
    have hstep := whole_items q c
    have hrest := ih ((synchronizedQueue α).whole q c).1
    have hcons : ∀ (x : QueueCall α × QueueLocals α) (l : List (QueueCall α × QueueLocals α)),
        (x :: l).filterMap deliveredBy = (deliveredBy x).toList ++ l.filterMap deliveredBy := by
      intro x l
      cases hx : deliveredBy x <;> simp [hx]
    have hpushed : pushed (c :: cs) = c.item.toList ++ pushed cs := by
      unfold pushed
      cases hc : c.item <;> simp [hc]
    calc ((c :: cs).zip ((synchronizedQueue α).results q (c :: cs))).filterMap deliveredBy ++
          ((synchronizedQueue α).after q (c :: cs)).filterMap id
        = (deliveredBy (c, ((synchronizedQueue α).whole q c).2)).toList ++
            (((synchronizedQueue α).whole q c).1.filterMap id ++ pushed cs) := by
          rw [Object.results, List.zip_cons_cons, hcons, List.append_assoc, ← hrest]
          rfl
      _ = q.filterMap id ++ pushed (c :: cs) := by
          rw [← List.append_assoc, hstep, hpushed, List.append_assoc]

theorem delivered_eq {ι : Type} (rs : List (Served ι (QueueCall α) (QueueLocals α))) :
    delivered rs = ((rs.map (·.call)).zip (rs.map (·.locals))).filterMap deliveredBy := by
  rw [delivered, List.zip_map', List.filterMap_map]
  rfl

/-- **First in, first out.** In every run of any callers, whenever no call is
under way, the items delivered so far followed by those queued are the items
pushed so far; every caller's calls are served in its order. Null pointers
are not counted, neither where they are pushed nor where they are delivered. -/
theorem fifo (progs : List (List (QueueCall α))) {tr : List (Fin progs.length)}
    {s : State (Fin progs.length) (List (Option α)) (QueueCall α) (QueueLocals α)}
    (h : (callers progs).exec tr = some s) :
    (s.holder = none → delivered s.served ++ s.shared.filterMap id = pushed s.calls) ∧
      ∀ i, s.callsOf i <+: progs.get i := by
  have hi := serial_exec h
  refine ⟨fun hfree => ?_, fun i => ?_⟩
  · rw [delivered_eq, hi.results, hi.free hfree]
    exact after_items [] s.calls
  · rw [hi.order i, List.append_assoc]
    exact List.prefix_append _ _

/-- Two producers and a consumer: the second producer waits while the first
one pushes. -/
theorem fifo_three : ∃ s, (callers [[.push (some 1)], [.push (some 2)], [.pop]]).exec
    [0, 0, 0, 1, 1, 1, 2, 2, 2, 2, 2] = some s ∧ delivered s.served ++ s.shared.filterMap id = [1, 2] := by
  refine ⟨_, rfl, ?_⟩
  exact (@fifo Nat [[.push (some 1)], [.push (some 2)], [.pop]] [0, 0, 0, 1, 1, 1, 2, 2, 2, 2, 2] _ rfl).1 rfl

/-- What is queued was pushed. -/
theorem mem_after {q : List (Option α)} {cs : List (QueueCall α)} {x : Option α}
    (h : x ∈ (synchronizedQueue α).after q cs) : x ∈ q ∨ .push x ∈ cs := by
  induction cs generalizing q with
  | nil => exact .inl h
  | cons c cs ih =>
    rcases ih h with hq | hcs
    · have hq : x ∈ ((synchronizedQueue α).whole q c).1 := hq
      cases c with
      | push item =>
        rw [whole_push] at hq
        rcases List.mem_append.mp hq with hq | hq
        · exact .inl hq
        · exact .inr (by rw [List.mem_singleton.mp hq]; exact List.mem_cons_self)
      | pop =>
        rw [whole_pop] at hq
        exact .inl (List.mem_of_mem_tail hq)
      | size => exact .inl hq
      | empty => exact .inl hq
    · exact .inr (List.mem_cons_of_mem _ hcs)

/-- **A null result.** Where no caller pushes a null pointer, a `pop` returned
null only when every item pushed before had been delivered. -/
theorem pop_null (progs : List (List (QueueCall α))) (hnull : ∀ cs ∈ progs, .push none ∉ cs)
    {tr : List (Fin progs.length)}
    {s : State (Fin progs.length) (List (Option α)) (QueueCall α) (QueueLocals α)}
    (h : (callers progs).exec tr = some s)
    {before after : List (Served (Fin progs.length) (QueueCall α) (QueueLocals α))}
    {r : Served (Fin progs.length) (QueueCall α) (QueueLocals α)} (hs : s.served = before ++ r :: after)
    (hr : r.call = .pop) :
    r.locals.result = none ↔ delivered before = pushed (before.map (·.call)) := by
  have hi := serial_exec h
  obtain ⟨hbefore, hlocals⟩ := served_locals hi hs
  have hitems := after_items [] (before.map (·.call))
  rw [← hbefore, ← delivered_eq] at hitems
  rw [hlocals, hr, whole_pop]
  generalize hq : (synchronizedQueue α).after [] (before.map (·.call)) = q at hitems
  simp only [List.filterMap_nil, List.nil_append] at hitems
  rw [← hitems]
  cases q with
  | nil => simp
  | cons x q =>
    have hx : x ≠ none := by
      rintro rfl
      rcases mem_after (hq ▸ List.mem_cons_self : none ∈ (synchronizedQueue α).after [] (before.map (·.call)))
        with hmem | hmem
      · cases hmem
      · obtain ⟨r', hr', hcall⟩ := List.mem_map.mp hmem
        refine hnull (progs.get r'.caller) (List.get_mem _ _) ((fifo progs h).2 r'.caller |>.subset ?_)
        refine List.mem_map.mpr ⟨r', List.mem_filter.mpr ⟨?_, by simp⟩, hcall⟩
        rw [hs]
        exact List.mem_append_left _ hr'
    obtain ⟨a, rfl⟩ := Option.ne_none_iff_exists'.mp hx
    simp

/-- A second `pop`, when the item pushed was delivered by the first. -/
theorem pop_null_drained : ∃ s, (callers [[.push (some 1)], [.pop, .pop]]).exec
      ([0, 0, 0] ++ List.replicate 10 1) = some s ∧
    ∃ pushing popping r, s.served = [pushing, popping] ++ r :: [] ∧ popping.locals.result = some 1 ∧
      r.locals.result = none := by
  refine ⟨_, rfl, _, _, _, rfl, rfl, ?_⟩
  exact (@pop_null Nat [[.push (some 1)], [.pop, .pop]] (by decide) ([0, 0, 0] ++ List.replicate 10 1) _ rfl
    [_, _] [] _ rfl rfl).mpr rfl

end SoapStab.SynchronizedQueue
