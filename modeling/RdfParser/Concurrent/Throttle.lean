/-
  Concurrent/Throttle.lean --- how full the queue is when a statement is started.

  `nextTriple_impl` reads the length of the queue before it takes the mutex and
  raises `termCountWithinThresholds` afterwards.  A decision that has become stale
  releases a parsing thread which is throttled for a longer queue: one that sleeps in
  `wait`, or one that has woken up, be it by itself, and has to lock the mutex first.
-/
import RdfParser.Concurrent.Invariants

set_option autoImplicit false

namespace RdfParser.Concurrent

open RdfParser.Foundation RdfParser.Turtle

namespace FileParser

variable {T : Type} {c : Thresholds} {s s' : FileParser T}

/-- The parsing thread starts a statement: the first one, or one after
`syncWithMainThread_impl` has returned. -/
def StartsStatement (s : FileParser T) : Prop :=
  s.parsing = .next ∧ (s.executed = [] ∨ s.executed.getLast? = some .syncWithMainThread)

attribute [grind =] StartsStatement

/-- The main thread does not raise `termCountWithinThresholds` over a queue that is
longer than the threshold for which the parsing thread waits: while that thread is inside
`wait`, asleep or about to lock the mutex again. -/
def NoStaleRelease (c : Thresholds) (thread : Thread) (s : FileParser T) : Prop :=
  ¬ (thread = .main ∧ s.main = .nextStore ∧
    (s.parsing = .syncWait ∨ s.parsing = .syncRelock) ∧ c.upperThreshold < s.queue.length)

instance [DecidableEq T] (c : Thresholds) (thread : Thread) (s : FileParser T) :
    Decidable (NoStaleRelease c thread s) :=
  inferInstanceAs (Decidable (¬ _))

/-- A throttled parsing thread is released only over a queue within the threshold. -/
structure Throttled (c : Thresholds) (s : FileParser T) : Prop where
  starting : s.StartsStatement → s.queue.length ≤ c.upperThreshold
  released : s.parsing = .syncTest ∨ s.parsing = .syncBlock ∨ s.parsing = .syncWait ∨
      s.parsing = .syncRelock →
    s.termCountWithinThresholds = true → s.queue.length ≤ c.upperThreshold
  leaving : s.parsing = .syncUnlock → s.queue.length ≤ c.upperThreshold
  notifying : s.parsing = .insertNotify →
    s.executed ≠ [] ∧ s.executed.getLast? ≠ some .syncWithMainThread

theorem Throttled.start (c : Thresholds) (operations : List (Signal T)) (throws : Bool) :
    (start operations throws).Throttled c :=
  ⟨by simp [FileParser.start], by simp [FileParser.start], by simp [FileParser.start],
    by simp [FileParser.start]⟩

theorem Throttled.parsingStep (h : s.parsingStep c = some s') (hinv : s.Throttled c) :
    s'.Throttled c := by
  obtain ⟨hstarting, hreleased, hleaving, hnotifying⟩ := hinv
  unfold FileParser.parsingStep at h
  split at h
  all_goals
    rename_i hplace
    unfold StartsStatement at hstarting
    rw [hplace] at hstarting hreleased hleaving hnotifying
    constructor <;> grind -linarith

/-- The flag is raised with `m` locked, so a parsing thread that is throttled is inside
`wait` then. -/
theorem Throttled.mainStep (hguard : NoStaleRelease c .main s)
    (h : s.mainStep c = some s') (hexclusive : s.Exclusive) (hinv : s.Throttled c) :
    s'.Throttled c := by
  obtain ⟨hstarting, hreleased, hleaving, hnotifying⟩ := hinv
  have hmParsing := hexclusive.mParsing
  have hmMain := hexclusive.mMain
  unfold NoStaleRelease at hguard
  unfold FileParser.mainStep at h
  split at h
  all_goals
    rename_i hplace
    rw [hplace] at hmMain hguard
    constructor <;> grind -linarith

/-- A wake-up leaves the flag and the queue as they are. -/
theorem Throttled.wakeStep {thread : Thread} (h : s.wakeStep thread = some s')
    (hinv : s.Throttled c) : s'.Throttled c := by
  obtain ⟨hstarting, hreleased, hleaving, hnotifying⟩ := hinv
  rcases wakeStep_cases h with ⟨hwait, rfl⟩ | ⟨-, rfl⟩
  · rw [hwait] at hreleased
    refine ⟨by simp [StartsStatement], fun _ => hreleased (by simp), by simp, by simp⟩
  · exact ⟨hstarting, hreleased, hleaving, hnotifying⟩

/-- In a run without stale releases the queue is within the threshold whenever the
parsing thread starts a statement, whether or not threads wake up by themselves. -/
theorem statement_starts_throttled (operations : List (Signal T)) (throws : Bool)
    (c : Thresholds) {s : FileParser T}
    (hreach : (wakingThreads c).ReachesUnder (System.onSteps (NoStaleRelease c))
      (FileParser.start operations throws) s) (hstarts : s.StartsStatement) :
    s.queue.length ≤ c.upperThreshold := by
  have hinv : s.Exclusive ∧ s.Throttled c := by
    refine wakingUnder_invariant (fun t => t.Exclusive ∧ t.Throttled c) hreach
      ⟨Exclusive.start _ _, Throttled.start c _ _⟩ ?_ ?_ ?_
    · intro t t' _ hstep ⟨hexclusive, hthrottled⟩
      exact ⟨hexclusive.parsingStep hstep, hthrottled.parsingStep hstep⟩
    · intro t t' hguard hstep ⟨hexclusive, hthrottled⟩
      exact ⟨hexclusive.mainStep hstep, hthrottled.mainStep hguard hstep hexclusive⟩
    · intro thread t t' hstep ⟨hexclusive, hthrottled⟩
      exact ⟨hexclusive.wakeStep hstep, hthrottled.wakeStep hstep⟩
  exact hinv.2.starting hstarts

/-- One triple may be cached; the parse goes on when none is left. -/
def singleEntry : Thresholds := ⟨1, 1⟩

/-- `<s> <p> <o>, <o>, <o> .` -/
def threeTriplesDocument : Bytes := bytes "<s> <p> <o>, <o>, <o> ."

/-- The calls of `threeTriplesDocument`. -/
def threeTriplesCalls : List (Signal (Rdf.Triple false)) :=
  [.insertTriple oneTriple, .insertTriple oneTriple, .insertTriple oneTriple,
    .syncWithMainThread, .setParsingIsDone]

theorem threeTriplesDocument_parse : ∃ p : Parse false, Parses [] threeTriplesDocument p ∧
    ofParse p = FileParser.start threeTriplesCalls false := by
  have hcomputed : (parseWithin (q := false) 60 [] threeTriplesDocument).map
      (fun p => (decide p.throws, p.final.signals)) = some (false, threeTriplesCalls) := by
    decide +kernel
  obtain ⟨p, hp, hthrows, hsignals⟩ := parseWithin_signals hcomputed
  refine ⟨p, hp, ?_⟩
  unfold ofParse
  rw [hthrows, hsignals]

/-- The parsing thread waits with three triples in the queue.  It wakes up by itself, finds
the flag lowered and waits again; the main thread takes all triples before it wakes it. -/
def patientReleaseSchedule : List (System.Event Thread Thread) :=
  List.replicate 15 (.step .parsing) ++ [.occurs .parsing] ++
    List.replicate 3 (.step .parsing) ++ List.replicate 13 (.step .main) ++
    List.replicate 3 (.step .parsing)

theorem patientRelease_throttled : ∃ s : FileParser (Rdf.Triple false),
    (wakingThreads singleEntry).ReachesUnder (System.onSteps (NoStaleRelease singleEntry))
      (FileParser.start threeTriplesCalls false) s ∧
    s.StartsStatement ∧ s.popped.length = 3 ∧ s.queue.length ≤ singleEntry.upperThreshold := by
  have hfollow : ∃ s, (wakingThreads singleEntry).follow
      (System.onSteps (NoStaleRelease singleEntry)) patientReleaseSchedule
      (FileParser.start threeTriplesCalls false) = some s ∧
      s.StartsStatement ∧ s.popped.length = 3 := ⟨_, rfl, ⟨rfl, .inr rfl⟩, rfl⟩
  obtain ⟨s, hs, hstarts, hpopped⟩ := hfollow
  have hreach := System.reaches_of_follow hs
  exact ⟨s, hreach, hstarts, hpopped,
    statement_starts_throttled _ false singleEntry hreach hstarts⟩

/-- The main thread takes the first triple and finds the queue empty.  Before it
takes the mutex, the parsing thread inserts two triples and waits. -/
def staleReleaseSchedule : List Thread :=
  List.replicate 6 .parsing ++ List.replicate 3 .main ++ List.replicate 9 .parsing ++
    List.replicate 4 .main ++ List.replicate 3 .parsing

/-- A statement is started with two triples in a queue for one. -/
theorem staleRelease_overfull : ¬ ∀ (prefixMap : Turtle.PrefixMap) (document : Bytes)
    (p : Parse false), Parses prefixMap document p → ∀ c : Thresholds, c.Admitted →
    ∀ s, (threads c).Reaches (ofParse p) s → s.StartsStatement →
      s.queue.length ≤ c.upperThreshold := by
  intro hclaim
  obtain ⟨p, hparse, hstart⟩ := threeTriplesDocument_parse
  have hfollow : ∃ s, (threads singleEntry).follow (fun _ _ => True) staleReleaseSchedule
      (FileParser.start threeTriplesCalls false) = some s ∧
      s.StartsStatement ∧ s.queue.length = 2 := ⟨_, rfl, ⟨rfl, .inr rfl⟩, rfl⟩
  rw [← hstart] at hfollow
  obtain ⟨s, hs, hstarts, hqueue⟩ := hfollow
  have hreach := (System.reaches_of_follow hs).reaches
  have hbound := hclaim [] threeTriplesDocument p hparse singleEntry (by decide) s hreach hstarts
  rw [hqueue] at hbound
  exact absurd hbound (by decide)

end FileParser

end RdfParser.Concurrent
