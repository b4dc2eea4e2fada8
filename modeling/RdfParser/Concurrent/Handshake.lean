/-
  Concurrent/Handshake.lean --- when the two threads never wait for each other in
  vain.

  The main thread lowers `termsCountIsNotEmpty` after it has looked at the queue
  and at the done flag.  If the parsing thread has nothing left that raises the
  flag again, nobody will wake the main thread; and if the parsing thread then
  waits as well, both wait.  Waits end by notification only: that a thread may
  wake up by itself is nothing to rely on.
-/
import RdfParser.Concurrent.Wakeup

set_option autoImplicit false

namespace RdfParser.Concurrent

open RdfParser.Foundation RdfParser.Turtle

variable {T : Type} {c : Thresholds} {s s' : FileParser T}

/-- Whether the calls, made while the main thread does nothing and the queue has
the given length, raise a lowered `termsCountIsNotEmpty` before the parsing thread
waits or returns.  A parse that throws ends the program instead. -/
def raisesAgain (c : Thresholds) (length : Nat) (throws : Bool) : List (Signal T) → Bool
  | [] => throws
  | .insertTriple _ :: _ => true
  | .syncWithMainThread :: operations =>
      !decide (c.upperThreshold < length) && raisesAgain c length throws operations
  | .setParsingIsDone :: _ => true

attribute [grind =] raisesAgain

namespace FileParser

/-- Whether the parsing thread, left alone, raises a lowered
`termsCountIsNotEmpty` before it waits or returns. -/
def willRaise (c : Thresholds) (s : FileParser T) : Bool :=
  match s.parsing with
  | .next | .insertNotify | .syncUnlock | .doneUnlock | .doneNotify | .doneFlag =>
      raisesAgain c s.queue.length s.throws s.operations
  | .insertUnlock t | .insertPush t | .insertQuietly t =>
      raisesAgain c (s.push t).queue.length s.throws s.operations
  | .insertLock _ | .insertStore _ | .doneLock | .doneStore => true
  | .syncTest | .syncRelock =>
      s.termCountWithinThresholds && raisesAgain c s.queue.length s.throws s.operations
  | .syncLock | .syncStore | .syncBlock | .syncWait => false
  | .finished => false
  | .terminated => true

attribute [grind =] willRaise

/-- The main thread lowers the flag only if the parsing thread will raise it
again, and does not test it early. -/
def NoLostWakeup (c : Thresholds) (thread : Thread) (s : FileParser T) : Prop :=
  ¬ (thread = .main ∧ s.main = .hasNextStore ∧ s.willRaise c = false) ∧ NoEarlyTest thread s

instance [DecidableEq T] (c : Thresholds) (thread : Thread) (s : FileParser T) :
    Decidable (NoLostWakeup c thread s) :=
  inferInstanceAs (Decidable (¬ _ ∧ NoEarlyTest thread s))

/-- While the main thread waits, the flag is being raised or will be. -/
structure Awaited (c : Thresholds) (s : FileParser T) : Prop where
  raised : s.main = .hasNextWait → s.termsCountIsNotEmpty = true →
    s.parsing = .insertNotify ∨ s.parsing = .doneUnlock ∨ s.parsing = .doneNotify ∨
      ∃ t, s.parsing = .insertUnlock t ∨ s.parsing = .insertPush t
  lowered : s.main = .hasNextTest ∨ s.main = .hasNextBlock ∨ s.main = .hasNextWait ∨
      s.main = .hasNextRelock →
    s.termsCountIsNotEmpty = false → s.willRaise c = true
  ended : s.main = .hasNextReturn false ∨ s.main = .ended → s.parsingIsDone = true

theorem Awaited.start (c : Thresholds) (operations : List (Signal T)) (throws : Bool) :
    (start operations throws).Awaited c :=
  ⟨by simp [FileParser.start], by simp [FileParser.start], by simp [FileParser.start]⟩

theorem Awaited.parsingStep (h : s.parsingStep c = some s') (hinv : s.Awaited c) :
    s'.Awaited c := by
  obtain ⟨hraised, hlowered, hended⟩ := hinv
  unfold FileParser.parsingStep at h
  split at h
  all_goals
    rename_i hplace
    unfold willRaise at hlowered
    rw [hplace] at hraised hlowered
    constructor <;> grind -linarith

theorem Awaited.mainStep (hguard : NoLostWakeup c .main s) (h : s.mainStep c = some s')
    (hannounced : s.Announced) (hinv : s.Awaited c) : s'.Awaited c := by
  obtain ⟨hraised, hlowered, hended⟩ := hinv
  have hblocked := hannounced.blocked
  have hstore := hguard.1
  unfold FileParser.mainStep at h
  split at h
  all_goals
    rename_i hplace
    rw [hplace] at hraised hlowered hended hblocked hstore
    constructor <;> grind -linarith

/-! ## Nobody waits in vain -/

/-- A thread waits for a notification and no thread has a step. -/
def Stuck (c : Thresholds) (s : FileParser T) : Prop :=
  (s.parsing = .syncWait ∨ s.main = .hasNextWait) ∧ s.parsing ≠ .terminated ∧
    s.parsingStep c = none ∧ s.mainStep c = none

/-- What holds in the states of a run without lost wake-ups. -/
structure Attended (c : Thresholds) (s : FileParser T) : Prop where
  exclusive : s.Exclusive
  closing : s.Closing
  announced : s.Announced
  woken : s.Woken
  awaited : s.Awaited c

theorem Attended.of_reach {prefixMap : Turtle.PrefixMap} {document : Bytes} {p : Parse false}
    (hparse : Parses prefixMap document p) {s : FileParser (Rdf.Triple false)}
    (hreach : (threads c).ReachesUnder (NoLostWakeup c) (ofParse p) s) : s.Attended c := by
  refine reachesUnder_invariant (Attended c) hreach
    ⟨Exclusive.start _ _, Closing.ofParse hparse, Announced.start _ _, Woken.start _ _,
      Awaited.start c _ _⟩ ?_ ?_
  · intro t t' _ hstep hinv
    exact ⟨hinv.exclusive.parsingStep hstep, hinv.closing.parsingStep hstep,
      hinv.announced.parsingStep hstep hinv.exclusive, hinv.woken.parsingStep hstep,
      hinv.awaited.parsingStep hstep⟩
  · intro t t' hguard hstep hinv
    exact ⟨hinv.exclusive.mainStep hstep, hinv.closing.mainStep hstep,
      hinv.announced.mainStep hstep,
      hinv.woken.mainStep hguard.2 hstep hinv.exclusive hinv.announced,
      hinv.awaited.mainStep hguard hstep hinv.announced⟩

/-- While the main thread waits, the parsing thread is raising the flag or on its
way to it, and no mutex stops it. -/
theorem Attended.parsing_moves (hinv : s.Attended c) (hmain : s.main = .hasNextWait)
    (halive : s.parsing ≠ .terminated) : s.parsingStep c ≠ none := by
  obtain ⟨hraised, hlowered, -⟩ := hinv.awaited
  have hm := hinv.exclusive.m_free
  have hm2 := hinv.exclusive.m2_free
  rw [hmain] at hm hm2
  unfold willRaise at hlowered
  unfold FileParser.parsingStep
  split
  all_goals
    rename_i hplace
    rw [hplace] at hm hm2 halive hraised hlowered
    simp only [ParsingAt.ownsM, ParsingAt.ownsM2, MainAt.ownsM, MainAt.ownsM2] at hm hm2
    grind -linarith

/-- While the parsing thread waits, the main thread waits as well or has a step. -/
theorem Attended.main_moves (hinv : s.Attended c) (hparsing : s.parsing = .syncWait)
    (hmain : s.main ≠ .hasNextWait) : s.mainStep c ≠ none := by
  have hdone := hinv.closing.done
  have hended := hinv.awaited.ended
  have halive := hinv.woken.alive
  have hm := hinv.exclusive.m_free
  have hm2 := hinv.exclusive.m2_free
  rw [hparsing] at hm hm2 hdone
  unfold FileParser.mainStep
  split
  all_goals
    rename_i hplace
    rw [hplace] at hm hm2 hmain halive hended
    simp only [ParsingAt.ownsM, ParsingAt.ownsM2, MainAt.ownsM, MainAt.ownsM2] at hm hm2
    grind -linarith

/-- The main thread never waits for a parsing thread that waits, or that has
returned. -/
theorem Attended.not_both (hinv : s.Attended c) (hmain : s.main = .hasNextWait) :
    s.parsing ≠ .syncWait ∧ s.parsing ≠ .finished := by
  have hmoves := hinv.parsing_moves hmain
  constructor
  · intro hparsing
    refine hmoves (by simp [hparsing]) ?_
    unfold FileParser.parsingStep
    simp only [hparsing]
  · intro hparsing
    refine hmoves (by simp [hparsing]) ?_
    unfold FileParser.parsingStep
    simp only [hparsing]

/-- In a run without lost wake-ups no thread waits while neither can move; the
main thread does not wait for a parsing thread that has returned, and the threads
do not wait for each other. -/
theorem handshakes_alive {prefixMap : Turtle.PrefixMap} {document : Bytes} {p : Parse false}
    (hparse : Parses prefixMap document p) (c : Thresholds) {s : FileParser (Rdf.Triple false)}
    (hreach : (threads c).ReachesUnder (NoLostWakeup c) (ofParse p) s) :
    ¬ s.Stuck c ∧ ¬ (s.parsing = .finished ∧ s.main = .hasNextWait) ∧
      ¬ (s.parsing = .syncWait ∧ s.main = .hasNextWait) := by
  have hinv := Attended.of_reach hparse hreach
  refine ⟨?_, ?_, ?_⟩
  · intro ⟨hwaits, halive, hparsing, hmain⟩
    by_cases hwait : s.main = .hasNextWait
    · exact hinv.parsing_moves hwait halive hparsing
    · rcases hwaits with hsync | hnext
      · exact hinv.main_moves hsync hwait hmain
      · exact hwait hnext
  · intro ⟨hfinished, hwait⟩
    exact (hinv.not_both hwait).2 hfinished
  · intro ⟨hsync, hwait⟩
    exact (hinv.not_both hwait).1 hsync

/-- The main thread waits from the beginning; the parsing thread will wake it. -/
theorem wakeupSchedule_alive : ∃ p : Parse false, Parses [] oneTripleDocument p ∧
    ∃ s : FileParser (Rdf.Triple false),
      (threads .default).ReachesUnder (NoLostWakeup .default) (ofParse p) s ∧
      s.main = .hasNextWait ∧ ¬ s.Stuck .default ∧
      ¬ (s.parsing = .finished ∧ s.main = .hasNextWait) ∧
      ¬ (s.parsing = .syncWait ∧ s.main = .hasNextWait) := by
  obtain ⟨p, hparse, -, hstart⟩ := oneTripleDocument_parse
  have hfollow : ∃ s, (threads .default).follow (NoLostWakeup .default)
      (List.replicate 6 .main)
      (FileParser.start
        [.insertTriple oneTriple, .syncWithMainThread, .setParsingIsDone] false) = some s ∧
      s.main = .hasNextWait := ⟨_, rfl, rfl⟩
  rw [← hstart] at hfollow
  obtain ⟨s, hs, hmain⟩ := hfollow
  have hreach := System.reaches_of_follow hs
  exact ⟨p, hparse, s, hreach, hmain, handshakes_alive hparse .default hreach⟩

/-- The main thread reads the done flag before the parsing thread does anything,
and lowers `termsCountIsNotEmpty` after it has returned. -/
def lostWakeupSchedule : List Thread :=
  List.replicate 2 .main ++ List.replicate 10 .parsing ++ List.replicate 4 .main

/-- The main thread waits for ever, with the triple of `<s> <p> <o> .` in the queue. -/
theorem lostWakeupSchedule_stuck : ¬ ∀ (prefixMap : Turtle.PrefixMap) (document : Bytes)
    (p : Parse false), Parses prefixMap document p →
    ∀ c : Thresholds, c.Admitted → ∀ s, (threads c).Reaches (ofParse p) s → ¬ s.Stuck c := by
  intro hclaim
  obtain ⟨p, hparse, -, hstart⟩ := oneTripleDocument_parse
  have hfollow : ∃ s, (threads .default).follow (fun _ _ => True) lostWakeupSchedule
      (FileParser.start
        [.insertTriple oneTriple, .syncWithMainThread, .setParsingIsDone] false) = some s ∧
      s.parsing = .finished ∧ s.main = .hasNextWait := ⟨_, rfl, rfl, rfl⟩
  rw [← hstart] at hfollow
  obtain ⟨s, hs, hparsing, hmain⟩ := hfollow
  have hreach := (System.reaches_of_follow hs).reaches
  refine hclaim [] oneTripleDocument p hparse .default (by decide) s hreach ?_
  refine ⟨.inr hmain, by simp [hparsing], ?_, ?_⟩
  · unfold FileParser.parsingStep
    simp only [hparsing]
  · unfold FileParser.mainStep
    simp only [hmain]

end FileParser

end RdfParser.Concurrent
