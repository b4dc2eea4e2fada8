/-
  Concurrent/TurtleFileParser.lean --- the steps of the thread that iterates over
  the triples, and the system of both threads.

  Source: `TurtleFileParser.hpp`.  The iterator calls `hasNextTriple`, and, as long
  as that returns true, `nextTriple` and `hasNextTriple` again.
-/
import RdfParser.Concurrent.ConcurrentState

set_option autoImplicit false

namespace RdfParser.Concurrent

open RdfParser.Foundation RdfParser.Turtle

namespace FileParser

variable {T : Type}

/-- `cv.notify_one`. -/
def notifyParsing (s : FileParser T) : FileParser T :=
  match s.parsing with
  | .syncWait => { s with parsing := .syncRelock }
  | _ => s

/-- `spsc_queue::pop`: an empty queue leaves the current triple as it is. -/
def pop (s : FileParser T) : FileParser T :=
  match s.queue with
  | [] => s
  | t :: queue => { s with queue := queue, popped := s.popped ++ [t] }

/-- One step of the main thread. -/
def mainStep (c : Thresholds) (s : FileParser T) : Option (FileParser T) :=
  match s.main with
  | .hasNextLoad => some { s with main := if s.queue = [] then .hasNextDone else .nextPop }
  | .hasNextDone => some { s with main := if s.parsingIsDone then .ended else .hasNextLock }
  | .hasNextLock =>
      if s.m2 = none then some { s with m2 := some .main, main := .hasNextStore } else none
  | .hasNextStore => some { s with termsCountIsNotEmpty := false, main := .hasNextTest }
  | .hasNextTest =>
      some { s with main := if s.termsCountIsNotEmpty then .hasNextRecheck else .hasNextBlock }
  | .hasNextBlock => some { s with m2 := none, main := .hasNextWait }
  | .hasNextWait => none
  | .hasNextRelock =>
      if s.m2 = none then some { s with m2 := some .main, main := .hasNextTest } else none
  | .hasNextRecheck =>
      some { s with main := if s.queue = [] then .hasNextRedone else .hasNextReturn true }
  | .hasNextRedone =>
      if s.parsingIsDone then some { s with main := .hasNextReturn false }
      else some { s with m2 := none, main := .failed }
  | .hasNextReturn result =>
      some { s with m2 := none, main := if result then .nextPop else .ended }
  | .nextPop => some { s.pop with main := .nextLoad }
  | .nextLoad =>
      some { s with
        main := if s.queue.length < c.lowerThreshold then .nextLock else .hasNextLoad }
  | .nextLock =>
      if s.m = none then some { s with m := some .main, main := .nextStore } else none
  | .nextStore => some { s with termCountWithinThresholds := true, main := .nextUnlock }
  | .nextUnlock => some { s with m := none, main := .nextNotify }
  | .nextNotify => some { s.notifyParsing with main := .hasNextLoad }
  | .ended => none
  | .failed => none

/-! ## What a step leaves alone -/

/-- A step of the parsing thread: it only adds to the queue, and of the main thread it
changes nothing but that it may wake it. -/
structure ParsingFrame (s s' : FileParser T) : Prop where
  throws : s'.throws = s.throws
  popped : s'.popped = s.popped
  queue : s.queue ≠ [] → s'.queue ≠ []
  parsingIsDone : s.parsingIsDone = true → s'.parsingIsDone = true
  main : s'.main = s.main ∨ s.main = .hasNextWait ∧ s'.main = .hasNextRelock

/-- A step of the main thread: it only takes from the queue, and of the parsing thread
it changes nothing but that it may wake it. -/
structure MainFrame (s s' : FileParser T) : Prop where
  operations : s'.operations = s.operations
  throws : s'.throws = s.throws
  executed : s'.executed = s.executed
  parsingIsDone : s'.parsingIsDone = s.parsingIsDone
  parsing : s'.parsing = s.parsing ∨ s.parsing = .syncWait ∧ s'.parsing = .syncRelock
  triples : s'.popped ++ s'.queue = s.popped ++ s.queue
  shrinks : s'.queue.length ≤ s.queue.length

theorem notifyMain_frame (s : FileParser T) (parsing : ParsingAt T) :
    ParsingFrame s { s.notifyMain with parsing := parsing } := by
  unfold notifyMain
  split
  · rename_i hwait
    exact ⟨rfl, rfl, id, id, .inr ⟨hwait, rfl⟩⟩
  · exact ⟨rfl, rfl, id, id, .inl rfl⟩

theorem nextCall_frame (c : Thresholds) (s : FileParser T) : ParsingFrame s (s.nextCall c) := by
  unfold nextCall
  split
  · exact ⟨rfl, rfl, id, id, .inl rfl⟩
  · exact ⟨rfl, rfl, id, id, .inl rfl⟩
  · split
    · exact ⟨rfl, rfl, id, id, .inl rfl⟩
    · exact ⟨rfl, rfl, id, id, .inl rfl⟩
  · exact ⟨rfl, rfl, id, id, .inl rfl⟩

theorem parsingStep_frame {c : Thresholds} {s s' : FileParser T}
    (h : s.parsingStep c = some s') : ParsingFrame s s' := by
  unfold parsingStep at h
  split at h
  all_goals try split at h
  all_goals try cases h
  all_goals first
    | exact nextCall_frame c s
    | exact notifyMain_frame s _
    | exact ⟨rfl, rfl, fun _ => push_queue_ne_nil s _, id, .inl rfl⟩
    | exact ⟨rfl, rfl, id, id, .inl rfl⟩
    | exact ⟨rfl, rfl, id, fun _ => rfl, .inl rfl⟩

theorem pop_frame (s : FileParser T) (main : MainAt) :
    MainFrame s { s.pop with main := main } := by
  unfold pop
  split
  · exact ⟨rfl, rfl, rfl, rfl, .inl rfl, rfl, le_refl _⟩
  · rename_i t queue hqueue
    refine ⟨rfl, rfl, rfl, rfl, .inl rfl, ?_, ?_⟩
    · simp [hqueue]
    · simp [hqueue]

theorem notifyParsing_frame (s : FileParser T) (main : MainAt) :
    MainFrame s { s.notifyParsing with main := main } := by
  unfold notifyParsing
  split
  · rename_i hwait
    exact ⟨rfl, rfl, rfl, rfl, .inr ⟨hwait, rfl⟩, rfl, le_refl _⟩
  · exact ⟨rfl, rfl, rfl, rfl, .inl rfl, rfl, le_refl _⟩

theorem mainStep_frame {c : Thresholds} {s s' : FileParser T}
    (h : s.mainStep c = some s') : MainFrame s s' := by
  unfold mainStep at h
  split at h
  all_goals try split at h
  all_goals try cases h
  all_goals first
    | exact pop_frame s _
    | exact notifyParsing_frame s _
    | exact ⟨rfl, rfl, rfl, rfl, .inl rfl, rfl, le_refl _⟩

/-- The parsing thread has only been woken. -/
theorem MainFrame.parsing_eq {s s' : FileParser T} (h : MainFrame s s')
    (hplace : s'.parsing ≠ .syncRelock) : s'.parsing = s.parsing := by
  rcases h.parsing with hsame | ⟨-, hwoken⟩
  · exact hsame
  · exact absurd hwoken hplace

/-- The main thread has only been woken. -/
theorem ParsingFrame.main_eq {s s' : FileParser T} (h : ParsingFrame s s')
    (hplace : s'.main ≠ .hasNextRelock) : s'.main = s.main := by
  rcases h.main with hsame | ⟨-, hwoken⟩
  · exact hsame
  · exact absurd hwoken hplace

/-! ## The system -/

/-- Both threads.  Once the program is terminated nothing happens any more. -/
def threads (c : Thresholds) : System Thread (FileParser T) where
  step
    | .parsing, s => s.parsingStep c
    | .main, s =>
        match s.parsing with
        | .terminated => none
        | _ => s.mainStep c

/-- The parser as its constructor leaves it, with the calls its parse will make. -/
def start (operations : List (Signal T)) (throws : Bool) : FileParser T where
  operations := operations
  throws := throws

theorem threads_step {c : Thresholds} {thread : Thread} {s s' : FileParser T}
    (h : (threads c).step thread s = some s') :
    thread = .parsing ∧ s.parsingStep c = some s' ∨ thread = .main ∧ s.mainStep c = some s' := by
  cases thread with
  | parsing => exact .inl ⟨rfl, h⟩
  | main =>
      refine .inr ⟨rfl, ?_⟩
      simp only [threads] at h
      split at h
      · exact absurd h (by simp)
      · exact h

theorem reaches_parsing {c : Thresholds} {s s' : FileParser T}
    (h : s.parsingStep c = some s') : (threads c).Reaches s s' := by
  have hstep : (threads c).step .parsing s = some s' := h
  exact System.Reaches.step hstep

/-- An invariant of both threads holds in every state of a restricted run. -/
theorem reachesUnder_invariant {c : Thresholds} {guard : Thread → FileParser T → Prop}
    (Inv : FileParser T → Prop) {s s' : FileParser T}
    (h : (threads c).ReachesUnder guard s s') (hinit : Inv s)
    (hparsing : ∀ t t', guard .parsing t → t.parsingStep c = some t' → Inv t → Inv t')
    (hmain : ∀ t t', guard .main t → t.mainStep c = some t' → Inv t → Inv t') : Inv s' := by
  refine h.invariant hinit ?_
  intro thread t t' hguard hstep hinv
  rcases threads_step hstep with ⟨rfl, hmove⟩ | ⟨rfl, hmove⟩
  · exact hparsing t t' hguard hmove hinv
  · exact hmain t t' hguard hmove hinv

/-! ## Spurious wake-ups

`wait` may also return though nobody has notified: the thread then locks its mutex and tests
the flag as after a notification.  In a run of `threads` this does not happen. -/

/-- A thread inside `wait` wakes up by itself. -/
def wakeStep (thread : Thread) (s : FileParser T) : Option (FileParser T) :=
  match thread, s.parsing, s.main with
  | .parsing, .syncWait, _ => some { s with parsing := .syncRelock }
  | .main, .terminated, _ => none
  | .main, _, .hasNextWait => some { s with main := .hasNextRelock }
  | _, _, _ => none

theorem wakeStep_cases {thread : Thread} {s s' : FileParser T}
    (h : s.wakeStep thread = some s') :
    s.parsing = .syncWait ∧ s' = { s with parsing := .syncRelock } ∨
      s.main = .hasNextWait ∧ s' = { s with main := .hasNextRelock } := by
  unfold wakeStep at h
  split at h
  · rename_i hwait
    exact .inl ⟨hwait, (Option.some.inj h).symm⟩
  · cases h
  · rename_i hwait _
    exact .inr ⟨hwait, (Option.some.inj h).symm⟩
  · cases h

/-- Both threads, with spurious wake-ups. -/
def wakingThreads (c : Thresholds) : System (System.Event Thread Thread) (FileParser T) :=
  (threads c).withEvents wakeStep

/-- A run without spurious wake-ups is one with them. -/
theorem reachesUnder_waking {c : Thresholds} {guard : Thread → FileParser T → Prop}
    {s s' : FileParser T} (h : (threads c).ReachesUnder guard s s') :
    (wakingThreads c).ReachesUnder (System.onSteps guard) s s' :=
  h.withEvents

/-- An invariant of both threads that a spurious wake-up keeps as well. -/
theorem wakingUnder_invariant {c : Thresholds} {guard : Thread → FileParser T → Prop}
    (Inv : FileParser T → Prop) {s s' : FileParser T}
    (h : (wakingThreads c).ReachesUnder (System.onSteps guard) s s') (hinit : Inv s)
    (hparsing : ∀ t t', guard .parsing t → t.parsingStep c = some t' → Inv t → Inv t')
    (hmain : ∀ t t', guard .main t → t.mainStep c = some t' → Inv t → Inv t')
    (hwake : ∀ thread t t', t.wakeStep thread = some t' → Inv t → Inv t') : Inv s' := by
  refine h.invariant_withEvents hinit ?_ hwake
  intro thread t t' hguard hstep hinv
  rcases threads_step hstep with ⟨rfl, hmove⟩ | ⟨rfl, hmove⟩
  · exact hparsing t t' hguard hmove hinv
  · exact hmain t t' hguard hmove hinv

end FileParser

end RdfParser.Concurrent
