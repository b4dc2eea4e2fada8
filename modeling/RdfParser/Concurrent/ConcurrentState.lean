/-
  Concurrent/ConcurrentState.lean --- the memory two threads share, and the steps
  of the parsing thread.

  Sources: `internal/Turtle/States/ConcurrentState.hpp` for the steps, and the
  members of `TurtleFileParser` in `TurtleFileParser.hpp` for the memory.

  A step is one load or store of a flag, one operation on the queue, the locking
  or unlocking of a mutex, or a notification.  A thread that waits for a mutex has
  no step while the other one holds it.  A thread inside `wait` has none: a
  notification wakes it, or it wakes up spuriously, which is an event and not a step.
  A notification that finds nobody waiting is lost.
-/
import RdfParser.Foundation.Transition
import RdfParser.Turtle.Actions

set_option autoImplicit false

namespace RdfParser.Concurrent

open RdfParser.Foundation RdfParser.Turtle

/-- `RdfConcurrentStreamParser_QueueCapacity`. -/
def queueCapacity : Nat := 100000

/-- The thresholds given to the constructor. -/
structure Thresholds where
  upperThreshold : Nat
  lowerThreshold : Nat

/-- The constructor throws when the lower threshold is the larger one. -/
def Thresholds.Admitted (c : Thresholds) : Prop := c.lowerThreshold ≤ c.upperThreshold

instance (c : Thresholds) : Decidable c.Admitted :=
  inferInstanceAs (Decidable (c.lowerThreshold ≤ c.upperThreshold))

/-- The default arguments of the constructor. -/
def Thresholds.default : Thresholds := ⟨queueCapacity, queueCapacity / 10⟩

/-- The parsing thread and the thread that iterates over the triples. -/
inductive Thread where
  | parsing
  | main
  deriving DecidableEq, Repr

/-- Where the parsing thread is.  `next` lies between two calls of the state. -/
inductive ParsingAt (T : Type) where
  | next
  -- insertTriple_impl
  | insertLock (t : T)
  | insertStore (t : T)
  | insertUnlock (t : T)
  | insertPush (t : T)
  | insertNotify
  | insertQuietly (t : T)
  -- syncWithMainThread_impl
  | syncLock
  | syncStore
  | syncTest
  | syncBlock
  | syncWait
  | syncRelock
  | syncUnlock
  -- setParsingIsDone_impl
  | doneLock
  | doneStore
  | doneUnlock
  | doneNotify
  | doneFlag
  /-- `startParsing` has returned. -/
  | finished
  /-- `startParsing` has thrown, which ends the whole program. -/
  | terminated
  deriving DecidableEq, Repr

/-- Where the main thread is. -/
inductive MainAt where
  -- hasNextTriple_impl
  | hasNextLoad
  | hasNextDone
  | hasNextLock
  | hasNextStore
  | hasNextTest
  | hasNextBlock
  | hasNextWait
  | hasNextRelock
  | hasNextRecheck
  | hasNextRedone
  | hasNextReturn (result : Bool)
  -- nextTriple_impl
  | nextPop
  | nextLoad
  | nextLock
  | nextStore
  | nextUnlock
  | nextNotify
  /-- `hasNextTriple_impl` has returned false. -/
  | ended
  /-- `hasNextTriple_impl` has thrown an `InternalError`. -/
  | failed
  deriving DecidableEq, Repr

/-- A `TurtleFileParser` with its two threads. -/
structure FileParser (T : Type) where
  queue : List T := []
  termCountWithinThresholds : Bool := false
  termsCountIsNotEmpty : Bool := false
  parsingIsDone : Bool := false
  m : Option Thread := none
  m2 : Option Thread := none
  parsing : ParsingAt T := .next
  main : MainAt := .hasNextLoad
  /-- The calls the parse has still to make. -/
  operations : List (Signal T)
  /-- Whether the parse ends with an exception. -/
  throws : Bool
  /-- The calls the parse has made, in order. -/
  executed : List (Signal T) := []
  /-- The triples the main thread has got, in order. -/
  popped : List T := []
  deriving DecidableEq, Repr

namespace FileParser

variable {T : Type}

/-- `spsc_queue::push`: a full queue stays as it is. -/
def push (s : FileParser T) (t : T) : FileParser T :=
  { s with
    queue := if s.queue.length < queueCapacity then s.queue ++ [t] else s.queue
    executed := s.executed ++ [.insertTriple t] }

/-- After a push the queue is not empty, whether or not there was room. -/
@[grind .] theorem push_queue_ne_nil (s : FileParser T) (t : T) : (s.push t).queue ≠ [] := by
  unfold push
  simp only
  split
  · simp
  · rename_i hfull
    intro hnil
    rw [hnil] at hfull
    exact hfull (by simp [queueCapacity])

/-- `cv2.notify_one`. -/
def notifyMain (s : FileParser T) : FileParser T :=
  match s.main with
  | .hasNextWait => { s with main := .hasNextRelock }
  | _ => s

/-- The next step of the parsing thread between two calls: the first load of the
next call, or the end of `startParsing`. -/
def nextCall (c : Thresholds) (s : FileParser T) : FileParser T :=
  match s.operations with
  | [] => { s with parsing := if s.throws then .terminated else .finished }
  | .insertTriple t :: operations =>
      { s with
        operations := operations
        parsing := if s.termsCountIsNotEmpty then .insertQuietly t else .insertLock t }
  | .syncWithMainThread :: operations =>
      if c.upperThreshold < s.queue.length then
        { s with operations := operations, parsing := .syncLock }
      else
        { s with operations := operations, executed := s.executed ++ [.syncWithMainThread] }
  | .setParsingIsDone :: operations =>
      { s with
        operations := operations
        parsing := if s.termsCountIsNotEmpty then .doneFlag else .doneLock }

/-- One step of the parsing thread. -/
def parsingStep (c : Thresholds) (s : FileParser T) : Option (FileParser T) :=
  match s.parsing with
  | .next => some (s.nextCall c)
  | .insertLock t =>
      if s.m2 = none then some { s with m2 := some .parsing, parsing := .insertStore t } else none
  | .insertStore t => some { s with termsCountIsNotEmpty := true, parsing := .insertUnlock t }
  | .insertUnlock t => some { s with m2 := none, parsing := .insertPush t }
  | .insertPush t => some { s.push t with parsing := .insertNotify }
  | .insertNotify => some { s.notifyMain with parsing := .next }
  | .insertQuietly t => some { s.push t with parsing := .next }
  | .syncLock =>
      if s.m = none then some { s with m := some .parsing, parsing := .syncStore } else none
  | .syncStore => some { s with termCountWithinThresholds := false, parsing := .syncTest }
  | .syncTest =>
      some { s with parsing := if s.termCountWithinThresholds then .syncUnlock else .syncBlock }
  | .syncBlock => some { s with m := none, parsing := .syncWait }
  | .syncWait => none
  | .syncRelock =>
      if s.m = none then some { s with m := some .parsing, parsing := .syncTest } else none
  | .syncUnlock =>
      some { s with
        m := none, parsing := .next, executed := s.executed ++ [.syncWithMainThread] }
  | .doneLock =>
      if s.m2 = none then some { s with m2 := some .parsing, parsing := .doneStore } else none
  | .doneStore => some { s with termsCountIsNotEmpty := true, parsing := .doneUnlock }
  | .doneUnlock => some { s with m2 := none, parsing := .doneNotify }
  | .doneNotify => some { s.notifyMain with parsing := .doneFlag }
  | .doneFlag =>
      some { s with
        parsingIsDone := true, parsing := .next, executed := s.executed ++ [.setParsingIsDone] }
  | .finished => none
  | .terminated => none

end FileParser

end RdfParser.Concurrent
