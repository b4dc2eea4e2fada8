/-
  Concurrent/EndOfStream.lean --- what it means that `hasNextTriple` returns false.

  `hasNextTriple_impl` reads the length of the queue and the done flag one after
  the other, at two places.  Triples pushed between the two reads are overlooked
  if the flag is raised between them as well.
-/
import RdfParser.Concurrent.Invariants

set_option autoImplicit false

namespace RdfParser.Concurrent

open RdfParser.Foundation RdfParser.Turtle

namespace FileParser

variable {T : Type} {c : Thresholds} {s s' : FileParser T}

/-- The parsing thread does not raise the done flag over waiting triples while the
main thread, having found the queue empty, is about to read that flag. -/
def NoLateDone (thread : Thread) (s : FileParser T) : Prop :=
  ¬ (thread = .parsing ∧ s.parsing = .doneFlag ∧
    (s.main = .hasNextDone ∨ s.main = .hasNextRedone) ∧ s.queue ≠ [])

instance [DecidableEq T] (thread : Thread) (s : FileParser T) : Decidable (NoLateDone thread s) :=
  inferInstanceAs (Decidable (¬ _))

/-- A main thread that sees the done flag has seen an empty queue. -/
structure Drained (s : FileParser T) : Prop where
  reading : s.main = .hasNextDone ∨ s.main = .hasNextRedone →
    s.parsingIsDone = true → s.queue = []
  returning : s.main = .hasNextReturn false ∨ s.main = .ended →
    s.parsingIsDone = true ∧ s.queue = []

theorem Drained.start (operations : List (Signal T)) (throws : Bool) :
    (start operations throws).Drained :=
  ⟨by simp [FileParser.start], by simp [FileParser.start]⟩

theorem Drained.parsingStep (hguard : NoLateDone .parsing s)
    (h : s.parsingStep c = some s') (hclosing : s.Closing) (hinv : s.Drained) : s'.Drained := by
  obtain ⟨hreading, hreturning⟩ := hinv
  have hdone := hclosing.done
  unfold NoLateDone at hguard
  unfold FileParser.parsingStep at h
  split at h
  all_goals
    rename_i hplace
    rw [hplace] at hdone hguard
    constructor <;> grind -linarith

theorem Drained.mainStep (h : s.mainStep c = some s') (hinv : s.Drained) : s'.Drained := by
  obtain ⟨hreading, hreturning⟩ := hinv
  unfold FileParser.mainStep at h
  split at h
  all_goals
    rename_i hplace
    rw [hplace] at hreading hreturning
    constructor <;> grind -linarith

theorem Drained.wakeStep {thread : Thread} (h : s.wakeStep thread = some s')
    (hinv : s.Drained) : s'.Drained := by
  obtain ⟨hreading, hreturning⟩ := hinv
  rcases wakeStep_cases h with ⟨-, rfl⟩ | ⟨-, rfl⟩
  · exact ⟨hreading, hreturning⟩
  · exact ⟨by simp, by simp⟩

/-- A parse that does not throw never terminates the program. -/
theorem reachesUnder_not_terminated {guard : Thread → FileParser T → Prop}
    (hreach : (wakingThreads c).ReachesUnder (System.onSteps guard) s s') (hok : s.throws = false)
    (hstart : s.parsing ≠ .terminated) : s'.parsing ≠ .terminated := by
  have hinv : s'.throws = false ∧ s'.parsing ≠ .terminated := by
    refine wakingUnder_invariant (fun t => t.throws = false ∧ t.parsing ≠ .terminated) hreach
      ⟨hok, hstart⟩ ?_ ?_ ?_
    · intro t t' _ hstep ⟨hthrows, _⟩
      obtain ⟨hsame, hterminated⟩ := parsingStep_throws hstep
      refine ⟨hsame.trans hthrows, ?_⟩
      intro hend
      rw [hterminated hend] at hthrows
      exact absurd hthrows (by simp)
    · intro t t' _ hstep ⟨hthrows, hplace⟩
      obtain ⟨hsame, hterminated⟩ := mainStep_throws hstep
      exact ⟨hsame.trans hthrows, fun hend => hplace (hterminated hend)⟩
    · intro thread t t' hstep ⟨hthrows, hplace⟩
      rcases wakeStep_cases hstep with ⟨-, rfl⟩ | ⟨-, rfl⟩
      · exact ⟨hthrows, by simp⟩
      · exact ⟨hthrows, hplace⟩
  exact hinv.2

/-- In a run that never raises the done flag over unseen triples, `hasNextTriple`
returns false only when every triple has been inserted and taken. -/
theorem hasNext_false_sound {prefixMap : PrefixMap} {document : Bytes} {p : Parse false}
    (hparse : Parses prefixMap document p) (hok : ¬ p.throws) (c : Thresholds)
    {s : FileParser (Rdf.Triple false)}
    (hreach : (wakingThreads c).ReachesUnder (System.onSteps NoLateDone) (ofParse p) s)
    (hended : s.main = .ended) :
    s.queue = [] ∧ s.operations = [] ∧ (s.parsing = .next ∨ s.parsing = .finished) := by
  have hinv : s.Closing ∧ s.Drained := by
    refine wakingUnder_invariant (fun t => t.Closing ∧ t.Drained) hreach
      ⟨Closing.ofParse hparse, Drained.start _ _⟩ ?_ ?_ ?_
    · intro t t' hguard hstep ⟨hclosing, hdrained⟩
      exact ⟨hclosing.parsingStep hstep, hdrained.parsingStep hguard hstep hclosing⟩
    · intro t t' _ hstep ⟨hclosing, hdrained⟩
      exact ⟨hclosing.mainStep hstep, hdrained.mainStep hstep⟩
    · intro thread t t' hstep ⟨hclosing, hdrained⟩
      exact ⟨hclosing.wakeStep hstep, hdrained.wakeStep hstep⟩
  have halive := reachesUnder_not_terminated hreach (decide_eq_false hok) (by simp [ofParse, start])
  obtain ⟨hclosing, hdrained⟩ := hinv
  obtain ⟨hdone, hempty⟩ := hdrained.returning (.inr hended)
  obtain ⟨hoperations, hplace⟩ := hclosing.done hdone
  refine ⟨hempty, hoperations, ?_⟩
  rcases hplace with hnext | hfinished | hterminated
  · exact .inl hnext
  · exact .inr hfinished
  · exact absurd hterminated halive

/-- The parsing thread runs first, then the main thread takes the triple. -/
def patientSchedule : List Thread := List.replicate 9 .parsing ++ List.replicate 9 .main

theorem patientSchedule_drained : ∃ p : Parse false, Parses [] oneTripleDocument p ∧
    ∃ s : FileParser (Rdf.Triple false),
      (wakingThreads .default).ReachesUnder (System.onSteps NoLateDone) (ofParse p) s ∧
      s.main = .ended ∧ s.queue = [] ∧ s.operations = [] ∧
      (s.parsing = .next ∨ s.parsing = .finished) := by
  obtain ⟨p, hparse, hok, hstart⟩ := oneTripleDocument_parse
  have hfollow : ∃ s, (threads .default).follow NoLateDone patientSchedule
      (start [.insertTriple oneTriple, .syncWithMainThread, .setParsingIsDone] false) = some s ∧
      s.main = .ended := ⟨_, rfl, rfl⟩
  rw [← hstart] at hfollow
  obtain ⟨s, hs, hended⟩ := hfollow
  have hreach := reachesUnder_waking (System.reaches_of_follow hs)
  exact ⟨p, hparse, s, hreach, hended, hasNext_false_sound hparse hok .default hreach hended⟩

/-- The main thread finds the queue empty; before it reads the done flag, the
parsing thread pushes the triple and raises the flag. -/
def lateDoneSchedule : List Thread := [.main] ++ List.replicate 9 .parsing ++ [.main]

/-- The triple of `<s> <p> <o> .` is left in the queue when `hasNextTriple` has
returned false. -/
theorem lateDoneSchedule_overlooks : ¬ ∀ (prefixMap : Turtle.PrefixMap) (document : Bytes)
    (p : Parse false), Parses prefixMap document p → ¬ p.throws →
    ∀ c : Thresholds, c.Admitted → ∀ s, (threads c).Reaches (ofParse p) s →
      s.main = .ended → s.queue = [] := by
  intro hclaim
  obtain ⟨p, hparse, hok, hstart⟩ := oneTripleDocument_parse
  have hfollow : ∃ s, (threads .default).follow (fun _ _ => True) lateDoneSchedule
      (start [.insertTriple oneTriple, .syncWithMainThread, .setParsingIsDone] false) = some s ∧
      s.main = .ended ∧ s.queue = [oneTriple] := ⟨_, rfl, rfl, rfl⟩
  rw [← hstart] at hfollow
  obtain ⟨s, hs, hended, hqueue⟩ := hfollow
  have hreach := (System.reaches_of_follow hs).reaches
  have hempty := hclaim [] oneTripleDocument p hparse hok .default (by decide) s hreach hended
  rw [hqueue] at hempty
  exact absurd hempty (by simp)

end FileParser

end RdfParser.Concurrent
