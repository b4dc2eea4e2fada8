/-
  Concurrent/Wakeup.lean --- what the main thread finds when it leaves `cv2.wait`.

  The parsing thread announces a triple, or the end, by raising
  `termsCountIsNotEmpty` before the triple is in the queue and before the done flag
  is raised.  A main thread that tests the flag in between leaves the wait and
  finds nothing.
-/
import RdfParser.Concurrent.Invariants

set_option autoImplicit false

namespace RdfParser.Concurrent

open RdfParser.Foundation RdfParser.Turtle

variable {T : Type} {c : Thresholds} {s s' : FileParser T}

/-- Something has been announced that is not there yet, and `m2` is free. -/
def ParsingAt.announces : ParsingAt T → Bool
  | .insertPush _ | .doneNotify | .doneFlag => true
  | _ => false

attribute [grind =] ParsingAt.announces

namespace FileParser

/-- The main thread does not test the flag while the triple, or the end, it
announces is still missing. -/
def NoEarlyTest (thread : Thread) (s : FileParser T) : Prop :=
  ¬ (thread = .main ∧ s.main = .hasNextTest ∧ s.termsCountIsNotEmpty = true ∧
    s.queue = [] ∧ s.parsing.announces = true)

instance [DecidableEq T] (thread : Thread) (s : FileParser T) : Decidable (NoEarlyTest thread s) :=
  inferInstanceAs (Decidable (¬ _))

/-- A raised flag over an empty queue announces something. -/
structure Announced (s : FileParser T) : Prop where
  blocked : s.main = .hasNextBlock → s.termsCountIsNotEmpty = false
  waiting : s.main = .hasNextTest ∨ s.main = .hasNextWait ∨ s.main = .hasNextRelock →
    s.termsCountIsNotEmpty = true → s.queue = [] → s.parsingIsDone = false →
    s.parsing.announces = true ∨ s.parsing = .doneUnlock ∨ ∃ t, s.parsing = .insertUnlock t

/-- A main thread that has left the wait finds a triple or the end. -/
structure Woken (s : FileParser T) : Prop where
  recheck : s.main = .hasNextRecheck → s.queue ≠ [] ∨ s.parsingIsDone = true
  redone : s.main = .hasNextRedone → s.parsingIsDone = true
  alive : s.main ≠ .failed

theorem Announced.start (operations : List (Signal T)) (throws : Bool) :
    (start operations throws).Announced :=
  ⟨by simp [FileParser.start], by simp [FileParser.start]⟩

theorem Woken.start (operations : List (Signal T)) (throws : Bool) :
    (start operations throws).Woken :=
  ⟨by simp [FileParser.start], by simp [FileParser.start], by simp [FileParser.start]⟩

theorem Announced.parsingStep (h : s.parsingStep c = some s') (hexclusive : s.Exclusive)
    (hinv : s.Announced) : s'.Announced := by
  obtain ⟨hblocked, hwaiting⟩ := hinv
  have hm2Parsing := hexclusive.m2Parsing
  have hm2Main := hexclusive.m2Main
  unfold FileParser.parsingStep at h
  split at h
  all_goals
    rename_i hplace
    rw [hplace] at hwaiting hm2Parsing
    constructor <;> grind -linarith

theorem Announced.mainStep (h : s.mainStep c = some s') (hinv : s.Announced) :
    s'.Announced := by
  obtain ⟨hblocked, hwaiting⟩ := hinv
  unfold FileParser.mainStep at h
  split at h
  all_goals
    rename_i hplace
    rw [hplace] at hblocked hwaiting
    constructor <;> grind -linarith

theorem Woken.parsingStep (h : s.parsingStep c = some s') (hinv : s.Woken) : s'.Woken := by
  have hframe := parsingStep_frame h
  obtain ⟨hrecheck, hredone, halive⟩ := hinv
  refine ⟨fun hplace => ?_, fun hplace => ?_, fun hplace => ?_⟩
  · rw [hframe.main_eq (by simp [hplace])] at hplace
    rcases hrecheck hplace with hqueue | hdone
    · exact .inl (hframe.queue hqueue)
    · exact .inr (hframe.parsingIsDone hdone)
  · rw [hframe.main_eq (by simp [hplace])] at hplace
    exact hframe.parsingIsDone (hredone hplace)
  · rw [hframe.main_eq (by simp [hplace])] at hplace
    exact halive hplace

/-- The test succeeds only on something that is there: while the main thread
owns `m2`, what is announced is announced with `m2` free. -/
theorem Woken.mainStep (hguard : NoEarlyTest .main s) (h : s.mainStep c = some s')
    (hexclusive : s.Exclusive) (hannounced : s.Announced) (hinv : s.Woken) : s'.Woken := by
  obtain ⟨hrecheck, hredone, halive⟩ := hinv
  have hwaiting := hannounced.waiting
  have hm2Parsing := hexclusive.m2Parsing
  have hm2Main := hexclusive.m2Main
  unfold NoEarlyTest at hguard
  unfold FileParser.mainStep at h
  split at h
  all_goals
    rename_i hplace
    rw [hplace] at hrecheck hredone hwaiting hm2Main hguard
    constructor <;> grind -linarith

/-- What a woken main thread will test is what it was waiting for. -/
theorem Announced.wakeStep {thread : Thread} (h : s.wakeStep thread = some s')
    (hinv : s.Announced) : s'.Announced := by
  obtain ⟨hblocked, hwaiting⟩ := hinv
  rcases wakeStep_cases h with ⟨hwait, rfl⟩ | ⟨hwait, rfl⟩
  · rw [hwait] at hwaiting
    exact ⟨hblocked, by simpa [ParsingAt.announces] using hwaiting⟩
  · rw [hwait] at hwaiting
    exact ⟨by simp, fun _ => hwaiting (by simp)⟩

theorem Woken.wakeStep {thread : Thread} (h : s.wakeStep thread = some s')
    (hinv : s.Woken) : s'.Woken := by
  obtain ⟨hrecheck, hredone, halive⟩ := hinv
  rcases wakeStep_cases h with ⟨-, rfl⟩ | ⟨-, rfl⟩
  · exact ⟨hrecheck, hredone, halive⟩
  · exact ⟨by simp, by simp, by simp⟩

/-- In a run without early tests, a main thread that leaves `cv2.wait` finds a
triple in the queue or the done flag raised, and `InternalError` is never thrown. -/
theorem wait_finds (operations : List (Signal T)) (throws : Bool) (c : Thresholds)
    {s : FileParser T}
    (hreach : (wakingThreads c).ReachesUnder (System.onSteps NoEarlyTest)
      (FileParser.start operations throws) s) :
    (s.main = .hasNextRecheck → s.queue ≠ [] ∨ s.parsingIsDone = true) ∧ s.main ≠ .failed := by
  have hinv : s.Exclusive ∧ s.Announced ∧ s.Woken := by
    refine wakingUnder_invariant (fun t => t.Exclusive ∧ t.Announced ∧ t.Woken) hreach
      ⟨Exclusive.start _ _, Announced.start _ _, Woken.start _ _⟩ ?_ ?_ ?_
    · intro t t' _ hstep ⟨hexclusive, hannounced, hwoken⟩
      exact ⟨hexclusive.parsingStep hstep, hannounced.parsingStep hstep hexclusive,
        hwoken.parsingStep hstep⟩
    · intro t t' hguard hstep ⟨hexclusive, hannounced, hwoken⟩
      exact ⟨hexclusive.mainStep hstep, hannounced.mainStep hstep,
        hwoken.mainStep hguard hstep hexclusive hannounced⟩
    · intro thread t t' hstep ⟨hexclusive, hannounced, hwoken⟩
      exact ⟨hexclusive.wakeStep hstep, hannounced.wakeStep hstep, hwoken.wakeStep hstep⟩
  exact ⟨hinv.2.2.recheck, hinv.2.2.alive⟩

/-- The main thread waits first, and once in vain; the parsing thread inserts the triple
and notifies it. -/
def wakeupSchedule : List (System.Event Thread Thread) :=
  List.replicate 6 (.step .main) ++ [.occurs .main] ++ List.replicate 3 (.step .main) ++
    List.replicate 6 (.step .parsing) ++ List.replicate 2 (.step .main)

theorem wakeupSchedule_finds : ∃ s : FileParser (Rdf.Triple false),
    (wakingThreads .default).ReachesUnder (System.onSteps NoEarlyTest)
      (FileParser.start
        [.insertTriple oneTriple, .syncWithMainThread, .setParsingIsDone] false) s ∧
    s.main = .hasNextRecheck ∧ (s.queue ≠ [] ∨ s.parsingIsDone = true) := by
  have hfollow : ∃ s, (wakingThreads .default).follow (System.onSteps NoEarlyTest) wakeupSchedule
      (FileParser.start
        [.insertTriple oneTriple, .syncWithMainThread, .setParsingIsDone] false) = some s ∧
      s.main = .hasNextRecheck := ⟨_, rfl, rfl⟩
  obtain ⟨s, hs, hmain⟩ := hfollow
  have hreach := System.reaches_of_follow hs
  exact ⟨s, hreach, hmain, (wait_finds _ false .default hreach).1 hmain⟩

/-- The main thread takes the triple and waits again.  The parsing thread announces
the end and notifies the main thread before it raises the done flag. -/
def earlyEndSchedule : List Thread :=
  List.replicate 6 .parsing ++ List.replicate 13 .main ++ List.replicate 6 .parsing ++
    List.replicate 4 .main

/-- Iterating over `<s> <p> <o> .` can end in an `InternalError`. -/
theorem earlyEndSchedule_fails : ¬ ∀ (prefixMap : Turtle.PrefixMap) (document : Bytes)
    (p : Parse false), Parses prefixMap document p →
    ∀ c : Thresholds, c.Admitted → ∀ s, (threads c).Reaches (ofParse p) s →
      s.main ≠ .failed := by
  intro hclaim
  obtain ⟨p, hparse, -, hstart⟩ := oneTripleDocument_parse
  have hfollow : ∃ s, (threads .default).follow (fun _ _ => True) earlyEndSchedule
      (FileParser.start
        [.insertTriple oneTriple, .syncWithMainThread, .setParsingIsDone] false) = some s ∧
      s.main = .failed := ⟨_, rfl, rfl⟩
  rw [← hstart] at hfollow
  obtain ⟨s, hs, hfailed⟩ := hfollow
  have hreach := (System.reaches_of_follow hs).reaches
  exact hclaim [] oneTripleDocument p hparse .default (by decide) s hreach hfailed

end FileParser

end RdfParser.Concurrent
