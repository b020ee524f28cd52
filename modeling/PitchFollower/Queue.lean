import PitchFollower.Fault
import PitchFollower.Room

/-!
# Bounded queues

First in, first out, up to a capacity.  A full queue refuses what is pushed and
stays as it is.  The items are kept in two lists, so that pushing takes the same
time however many wait: the newer ones are kept in reverse order, and turned
around when all older ones have been taken.
-/

namespace PitchFollower

/-- Items that wait for their turn. -/
structure BoundedQueue (α : Type) where
  capacity : Nat
  /-- The older items, the oldest first. -/
  older : List α
  /-- The newer items, the newest first. -/
  newer : List α
  /-- How many items there are. -/
  count : Nat
  count_eq : count = older.length + newer.length

namespace BoundedQueue

variable {α : Type}

/-- The items, the oldest first. -/
def toList (q : BoundedQueue α) : List α :=
  q.older ++ q.newer.reverse

/-- A queue without items. -/
def empty (capacity : Nat) : BoundedQueue α :=
  ⟨capacity, [], [], 0, rfl⟩

/-- A queue without items for which there is room in memory. -/
def reserve (capacity itemBytes : Nat) : Except Fault (BoundedQueue α) :=
  if HasRoom capacity itemBytes then
    .ok (empty capacity)
  else .error .bufferSize

/-- A queue that takes nothing more. -/
def Full (q : BoundedQueue α) : Prop :=
  q.capacity ≤ q.count

instance (q : BoundedQueue α) : Decidable q.Full :=
  inferInstanceAs (Decidable (_ ≤ _))

/-- A queue with one item more, whatever its capacity. -/
def append (q : BoundedQueue α) (item : α) : BoundedQueue α where
  capacity := q.capacity
  older := q.older
  newer := item :: q.newer
  count := q.count + 1
  count_eq := by simp only [q.count_eq, List.length_cons]; omega

/-- Adds an item at the end, and tells whether there was room for it. -/
def push (q : BoundedQueue α) (item : α) : BoundedQueue α × Bool :=
  if q.Full then (q, false) else (q.append item, true)

/-- Takes the oldest item, if there is one. -/
def pop (q : BoundedQueue α) : BoundedQueue α × Option α :=
  match h : q.older with
  | item :: rest =>
    ({ q with
        older := rest
        count := q.count - 1
        count_eq := by
          simp only [q.count_eq, h, List.length_cons]; omega }, some item)
  | [] =>
    match h' : q.newer.reverse with
    | [] => (q, none)
    | item :: rest =>
      ({ capacity := q.capacity
         older := rest
         newer := []
         count := q.count - 1
         count_eq := by
          have := congrArg List.length h'
          simp only [List.length_reverse, List.length_cons] at this
          simp only [q.count_eq, h, List.length_nil, this]; omega }, some item)

/-- Takes all items. -/
def drain (q : BoundedQueue α) : BoundedQueue α × List α :=
  (empty q.capacity, q.toList)

theorem length_toList (q : BoundedQueue α) : q.toList.length = q.count := by
  simp [toList, q.count_eq]

theorem toList_append (q : BoundedQueue α) (item : α) :
    (q.append item).toList = q.toList ++ [item] := by
  simp [toList, append]

/-- Popping splits the items into the first one and the rest. -/
theorem toList_pop (q : BoundedQueue α) :
    q.toList = q.pop.2.toList ++ q.pop.1.toList := by
  unfold pop
  split
  · next h => simp [toList, h]
  · next h =>
    split
    · next h' => simp [toList, h, h']
    · next h' => simp [toList, h, h']

/-- What is left after popping an item is one item less. -/
theorem toList_of_pop {q rest : BoundedQueue α} {item : α}
    (h : q.pop = (rest, some item)) : q.toList = item :: rest.toList := by
  rw [toList_pop, h]
  rfl

/-- Nothing is popped from a queue without items, and the queue stays as it
is. -/
theorem eq_of_pop_none {q rest : BoundedQueue α} (h : q.pop = (rest, none)) :
    rest = q ∧ q.toList = [] := by
  unfold pop at h
  split at h
  · cases h
  · next hold =>
    split at h
    · next hnew =>
      cases h
      exact ⟨rfl, by rw [toList, hold, hnew, List.append_nil]⟩
    · cases h

theorem count_lt_of_pop {q rest : BoundedQueue α} {item : α}
    (h : q.pop = (rest, some item)) : rest.count < q.count := by
  rw [← length_toList, ← length_toList, toList_of_pop h]
  exact Nat.lt_succ_self _

end BoundedQueue

end PitchFollower
