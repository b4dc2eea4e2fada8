/-
  Concurrent/Malformed.lean --- which malformed documents can look complete.

  The done flag is raised by the action of `turtleDoc`, before `eof` is required.
  If `turtleDoc` matches a prefix of a malformed document, a main thread that keeps
  up with the parsing thread sees the flag before the program is terminated.
-/
import RdfParser.Concurrent.Invariants

set_option autoImplicit false

namespace RdfParser.Concurrent

open RdfParser.Foundation RdfParser.Turtle

variable {T : Type} {c : Thresholds} {s s' : FileParser T}

namespace FileParser

/-! ## No end without `setParsingIsDone` -/

/-- The done flag stays lowered, and the main thread does not report an end. -/
structure NeverDone (s : FileParser T) : Prop where
  calls : .setParsingIsDone ∉ s.operations
  place : s.parsing ≠ .doneLock ∧ s.parsing ≠ .doneStore ∧ s.parsing ≠ .doneUnlock ∧
    s.parsing ≠ .doneNotify ∧ s.parsing ≠ .doneFlag
  lowered : s.parsingIsDone = false
  main : s.main ≠ .hasNextReturn false ∧ s.main ≠ .ended

theorem NeverDone.start {operations : List (Signal T)} (throws : Bool)
    (h : .setParsingIsDone ∉ operations) : (start operations throws).NeverDone :=
  ⟨h, by simp [FileParser.start], rfl, by simp [FileParser.start]⟩

theorem NeverDone.parsingStep (h : s.parsingStep c = some s') (hinv : s.NeverDone) :
    s'.NeverDone := by
  obtain ⟨hcalls, hplaces, hlowered, hmain⟩ := hinv
  unfold FileParser.parsingStep at h
  split at h
  all_goals
    rename_i hplace
    rw [hplace] at hplaces
    constructor <;> grind -linarith

theorem NeverDone.mainStep (h : s.mainStep c = some s') (hinv : s.NeverDone) :
    s'.NeverDone := by
  obtain ⟨hcalls, hplaces, hlowered, hmain⟩ := hinv
  unfold FileParser.mainStep at h
  split at h
  all_goals
    rename_i hplace
    rw [hplace] at hmain
    constructor <;> grind -linarith

theorem NeverDone.wakeStep {thread : Thread} (h : s.wakeStep thread = some s')
    (hinv : s.NeverDone) : s'.NeverDone := by
  obtain ⟨hcalls, hplaces, hlowered, hmain⟩ := hinv
  rcases wakeStep_cases h with ⟨-, rfl⟩ | ⟨-, rfl⟩
  · exact ⟨hcalls, by simp, hlowered, hmain⟩
  · exact ⟨hcalls, hplaces, hlowered, by simp⟩

/-- Without the call the main thread never reports an end, whatever wakes it. -/
theorem never_ended {operations : List (Signal T)} {throws : Bool}
    (h : .setParsingIsDone ∉ operations) {guard : Thread → FileParser T → Prop}
    {s : FileParser T} (hreach : (wakingThreads c).ReachesUnder (System.onSteps guard)
      (FileParser.start operations throws) s) : s.main ≠ .ended := by
  have hinv : s.NeverDone := by
    refine wakingUnder_invariant NeverDone hreach (NeverDone.start throws h) ?_ ?_ ?_
    · intro t t' _ hstep hnever
      exact hnever.parsingStep hstep
    · intro t t' _ hstep hnever
      exact hnever.mainStep hstep
    · intro thread t t' hstep hnever
      exact hnever.wakeStep hstep
  exact hinv.main.2

/-! ## A main thread that keeps up -/

/-- Both threads are between two calls, no mutex is taken, and the queue holds the
given triples. -/
structure Rested (s : FileParser T) (queue : List T) (operations : List (Signal T)) : Prop where
  parsing : s.parsing = .next
  main : s.main = .hasNextLoad
  queue : s.queue = queue
  m : s.m = none
  m2 : s.m2 = none
  operations : s.operations = operations

theorem Rested.start (operations : List (Signal T)) (throws : Bool) :
    (start operations throws).Rested [] operations :=
  ⟨rfl, rfl, rfl, rfl, rfl, rfl⟩

/-- The parsing thread inserts one triple. -/
theorem Rested.insert {t : T} {operations : List (Signal T)} (c : Thresholds)
    (h : s.Rested [] (.insertTriple t :: operations)) :
    ∃ s', (threads c).Reaches s s' ∧ s'.Rested [t] operations := by
  obtain ⟨hparsing, hmain, hqueue, hm, hm2, hoperations⟩ := h
  have hfollow : ∃ steps s', (threads c).follow (fun _ _ => True)
      (List.replicate steps .parsing) s = some s' ∧ s'.Rested [t] operations := by
    -- six steps if the flag has to be raised, two if it is
    refine ⟨if s.termsCountIsNotEmpty then 2 else 6, ?_⟩
    cases hflag : s.termsCountIsNotEmpty with
    | true =>
        refine ⟨{ s.push t with parsing := .next, operations := operations }, ?_, ?_⟩
        · simp [System.follow, threads, FileParser.parsingStep, nextCall, push, hparsing,
            hoperations, hflag, hqueue, queueCapacity]
        · exact ⟨rfl, hmain, by simp [push, hqueue, queueCapacity], hm, hm2, rfl⟩
    | false =>
        refine ⟨{ s.push t with
          parsing := .next, operations := operations, termsCountIsNotEmpty := true }, ?_, ?_⟩
        · simp [System.follow, threads, FileParser.parsingStep, nextCall, push, hparsing,
            hoperations, hflag, hqueue, queueCapacity, hmain, hm2, notifyMain]
        · exact ⟨rfl, hmain, by simp [push, hqueue, queueCapacity], hm, hm2, rfl⟩
  obtain ⟨steps, s', hs', hrested⟩ := hfollow
  exact ⟨s', (System.reaches_of_follow hs').reaches, hrested⟩

/-- The main thread takes the triple. -/
theorem Rested.take {t : T} {operations : List (Signal T)} (c : Thresholds)
    (h : s.Rested [t] operations) :
    ∃ s', (threads c).Reaches s s' ∧ s'.Rested [] operations := by
  obtain ⟨hparsing, hmain, hqueue, hm, hm2, hoperations⟩ := h
  have hfollow : ∃ steps s', (threads c).follow (fun _ _ => True)
      (List.replicate steps .main) s = some s' ∧ s'.Rested [] operations := by
    -- four more steps if the main thread reports that there is room again
    refine ⟨if 0 < c.lowerThreshold then 7 else 3, ?_⟩
    by_cases hlower : 0 < c.lowerThreshold
    · refine ⟨{ s.pop with termCountWithinThresholds := true }, ?_, ?_⟩
      · simp [System.follow, threads, FileParser.mainStep, pop, hparsing, hqueue, hmain, hm,
          hlower, notifyParsing]
      · simp only [pop, hqueue]
        exact ⟨hparsing, hmain, rfl, hm, hm2, hoperations⟩
    · refine ⟨s.pop, ?_, ?_⟩
      · simp [System.follow, threads, FileParser.mainStep, pop, hparsing, hqueue, hmain, hlower]
      · simp only [pop, hqueue]
        exact ⟨hparsing, hmain, rfl, hm, hm2, hoperations⟩
  obtain ⟨steps, s', hs', hrested⟩ := hfollow
  exact ⟨s', (System.reaches_of_follow hs').reaches, hrested⟩

/-- With an empty queue the parsing thread is never throttled. -/
theorem Rested.sync {operations : List (Signal T)} (c : Thresholds)
    (h : s.Rested [] (.syncWithMainThread :: operations)) :
    ∃ s', (threads c).Reaches s s' ∧ s'.Rested [] operations := by
  obtain ⟨hparsing, hmain, hqueue, hm, hm2, hoperations⟩ := h
  refine ⟨{ s with
    operations := operations, executed := s.executed ++ [.syncWithMainThread] }, ?_, ?_⟩
  · refine reaches_parsing ?_
    unfold FileParser.parsingStep nextCall
    simp only [hparsing, hoperations, hqueue, List.length_nil, Nat.not_lt_zero, if_false]
  · exact ⟨hparsing, hmain, hqueue, hm, hm2, rfl⟩

/-- The main thread sees the end. -/
theorem Rested.done {operations : List (Signal T)} (c : Thresholds)
    (h : s.Rested [] (.setParsingIsDone :: operations)) :
    ∃ s', (threads c).Reaches s s' ∧ s'.main = .ended := by
  obtain ⟨hparsing, hmain, hqueue, hm, hm2, hoperations⟩ := h
  have hfollow : ∃ steps s', (threads c).follow (fun _ _ => True)
      (List.replicate steps .parsing ++ [.main, .main]) s = some s' ∧ s'.main = .ended := by
    refine ⟨if s.termsCountIsNotEmpty then 2 else 6, ?_⟩
    cases hflag : s.termsCountIsNotEmpty with
    | true =>
        simp [System.follow, threads, FileParser.parsingStep, FileParser.mainStep, nextCall,
          hparsing, hoperations, hflag, hqueue, hmain]
    | false =>
        simp [System.follow, threads, FileParser.parsingStep, FileParser.mainStep, nextCall,
          hparsing, hoperations, hflag, hqueue, hmain, hm2, notifyMain]
  obtain ⟨steps, s', hs', hended⟩ := hfollow
  exact ⟨s', (System.reaches_of_follow hs').reaches, hended⟩

/-- If every triple is taken at once, the main thread sees the end of the calls. -/
theorem reaches_ended (c : Thresholds) (calls : List (Signal T))
    (hcalls : .setParsingIsDone ∉ calls) (s : FileParser T)
    (h : s.Rested [] (calls ++ [.setParsingIsDone])) :
    ∃ s', (threads c).Reaches s s' ∧ s'.main = .ended := by
  induction calls generalizing s with
  | nil => exact h.done c
  | cons call calls ih =>
      rw [List.mem_cons, not_or] at hcalls
      cases call with
      | insertTriple t =>
          obtain ⟨s₁, hreach₁, hrested₁⟩ := Rested.insert c h
          obtain ⟨s₂, hreach₂, hrested₂⟩ := hrested₁.take c
          obtain ⟨s₃, hreach₃, hended⟩ := ih hcalls.2 s₂ hrested₂
          exact ⟨s₃, (hreach₁.trans hreach₂).trans hreach₃, hended⟩
      | syncWithMainThread =>
          obtain ⟨s₁, hreach₁, hrested₁⟩ := Rested.sync c h
          obtain ⟨s₂, hreach₂, hended⟩ := ih hcalls.2 s₁ hrested₁
          exact ⟨s₂, hreach₁.trans hreach₂, hended⟩
      | setParsingIsDone => exact absurd rfl hcalls.1

/-! ## Malformed documents -/

/-- Iterating over a document, malformed or not, can look like a normal end if and
only if `turtleDoc` with its actions matches a prefix of the document. -/
theorem never_ends_iff {prefixMap : Turtle.PrefixMap} {document : Bytes} {p : Parse false}
    (hparse : Parses prefixMap document p) (c : Thresholds) :
    (∀ s, (threads c).Reaches (ofParse p) s → s.main ≠ .ended) ↔
      ¬ DocMatched prefixMap document := by
  rcases hparse.signals with ⟨hmatched, calls, hcalls, hsignals⟩ | ⟨hnone, hsignals⟩
  · have hrested : (ofParse p).Rested [] (calls ++ [.setParsingIsDone]) := by
      rw [← hsignals]
      exact Rested.start _ _
    obtain ⟨s, hreach, hended⟩ := reaches_ended c calls hcalls _ hrested
    constructor
    · intro hnever
      exact absurd hended (hnever s hreach)
    · intro hnone
      exact absurd hmatched hnone
  · constructor
    · intro _
      exact hnone
    · intro _ s hreach
      exact never_ended hsignals hreach.withEvents

/-- `<s> <p> <o> . x` -/
def trailingDocument : Bytes := bytes "<s> <p> <o> . x"

theorem trailingDocument_parse : ∃ p : Parse false, Parses [] trailingDocument p ∧ p.throws ∧
    ofParse p = start [.insertTriple oneTriple, .syncWithMainThread, .setParsingIsDone] true := by
  have hcomputed : (parseWithin (q := false) 60 [] trailingDocument).map
      (fun p => (decide p.throws, p.final.signals)) =
      some (true, [.insertTriple oneTriple, .syncWithMainThread, .setParsingIsDone]) := by
    decide +kernel
  obtain ⟨p, hp, hthrows, hsignals⟩ := parseWithin_signals hcomputed
  refine ⟨p, hp, of_decide_eq_true hthrows, ?_⟩
  unfold ofParse
  rw [hthrows, hsignals]

/-- The parsing thread raises the done flag, and the main thread takes the triple
and sees the flag before the parsing thread throws. -/
def completeSchedule : List Thread := List.replicate 9 .parsing ++ List.replicate 9 .main

/-- `<s> <p> <o> . x` is rejected, but can be iterated to a normal end. -/
theorem trailingDocument_ends : ¬ ∀ (prefixMap : Turtle.PrefixMap) (document : Bytes)
    (p : Parse false), Parses prefixMap document p → p.throws →
    ∀ c : Thresholds, c.Admitted → ∀ s, (threads c).Reaches (ofParse p) s →
      s.main ≠ .ended := by
  intro hclaim
  obtain ⟨p, hparse, hthrows, hstart⟩ := trailingDocument_parse
  have hfollow : ∃ s, (threads .default).follow (fun _ _ => True) completeSchedule
      (FileParser.start
        [.insertTriple oneTriple, .syncWithMainThread, .setParsingIsDone] true) = some s ∧
      s.main = .ended := ⟨_, rfl, rfl⟩
  rw [← hstart] at hfollow
  obtain ⟨s, hs, hended⟩ := hfollow
  have hreach := (System.reaches_of_follow hs).reaches
  exact hclaim [] trailingDocument p hparse hthrows .default (by decide) s hreach hended

/-- `<s> <p> <o> ; x` breaks off inside its statement. -/
def brokenDocument : Bytes := bytes "<s> <p> <o> ; x"

theorem brokenDocument_parse : ∃ p : Parse false, Parses [] brokenDocument p ∧ p.throws ∧
    .setParsingIsDone ∉ p.final.signals := by
  have hcomputed : (parseWithin (q := false) 60 [] brokenDocument).map
      (fun p => (decide p.throws, p.final.signals)) = some (true, [.insertTriple oneTriple]) := by
    decide +kernel
  obtain ⟨p, hp, hthrows, hsignals⟩ := parseWithin_signals hcomputed
  refine ⟨p, hp, of_decide_eq_true hthrows, ?_⟩
  rw [hsignals]
  decide

theorem brokenDocument_never_ends : ∃ p : Parse false, Parses [] brokenDocument p ∧ p.throws ∧
    ∀ s, (threads .default).Reaches (ofParse p) s → s.main ≠ .ended := by
  obtain ⟨p, hparse, hthrows, hsignals⟩ := brokenDocument_parse
  have hnone : ¬ DocMatched [] brokenDocument := by
    rcases hparse.signals with ⟨-, calls, -, hdone⟩ | ⟨hnone, -⟩
    · rw [hdone] at hsignals
      exact absurd (List.mem_append_right calls (List.mem_singleton_self _)) hsignals
    · exact hnone
  exact ⟨p, hparse, hthrows, (never_ends_iff hparse .default).mpr hnone⟩

end FileParser

end RdfParser.Concurrent
