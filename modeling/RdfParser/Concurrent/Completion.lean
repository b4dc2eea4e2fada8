/-
  Concurrent/Completion.lean --- how an iteration over a file ends.

  Every step of a thread lowers a rank: a call that is left is worth more than the steps it
  takes, a queued triple more than the steps of taking it.  So every run ends, whatever the
  order of the steps; a wait ends by a notification only, since a thread that wakes up by
  itself and waits again could go on for ever.  A mutex never stops a run, only a
  notification that is not sent does; and a run without lost notifications, lost triples and
  a done flag raised too soon ends when the main thread has got all triples of the document.
-/
import RdfParser.Concurrent.EndOfStream
import RdfParser.Concurrent.Handshake
import RdfParser.Concurrent.Ordering
import RdfParser.Concurrent.Teardown
import RdfParser.Turtle.FileParsing

set_option autoImplicit false

namespace RdfParser.Concurrent

open RdfParser.Foundation RdfParser.Turtle

variable {T : Type} {c : Thresholds} {s s' : FileParser T} {operations : List (Signal T)}

/-! ## The rank -/

/-- What the rest of a call, and of what it causes, is worth. -/
def ParsingAt.rank : ParsingAt T → Nat
  | .finished | .terminated | .syncWait => 0
  | .next | .syncBlock => 1
  | .syncUnlock | .doneFlag => 2
  | .syncTest => 3
  | .syncStore | .syncRelock => 4
  | .syncLock => 5
  | .insertNotify => 7
  | .doneNotify => 8
  | .doneUnlock => 9
  | .doneStore => 10
  | .doneLock => 11
  | .insertQuietly _ => 20
  | .insertPush _ => 26
  | .insertUnlock _ => 27
  | .insertStore _ => 28
  | .insertLock _ => 29

def MainAt.rank : MainAt → Nat
  | .nextPop | .hasNextWait | .ended | .failed => 0
  | .hasNextBlock | .hasNextReturn _ => 1
  | .hasNextRedone => 2
  | .hasNextRecheck => 3
  | .hasNextTest => 4
  | .hasNextStore | .hasNextRelock => 5
  | .hasNextLock => 6
  | .hasNextDone => 7
  | .hasNextLoad => 8
  | .nextNotify => 13
  | .nextUnlock => 14
  | .nextStore => 15
  | .nextLock => 16
  | .nextLoad => 17

attribute [grind =] ParsingAt.rank MainAt.rank

namespace FileParser

/-- A bound on the steps that are left. -/
def rank (s : FileParser T) : Nat :=
  30 * s.operations.length + 18 * s.queue.length + s.parsing.rank + s.main.rank

attribute [grind =] rank

theorem parsingStep_rank (h : s.parsingStep c = some s') : s'.rank < s.rank := by
  unfold FileParser.parsingStep at h
  split at h
  all_goals
    rename_i hplace
    grind -linarith

/-- A main thread that is about to take a triple finds one. -/
theorem Fed.mainStep_rank (hfed : s.Fed) (h : s.mainStep c = some s') : s'.rank < s.rank := by
  unfold Fed at hfed
  unfold FileParser.mainStep at h
  split at h
  all_goals
    rename_i hplace
    rw [hplace] at hfed
    grind -linarith

/-! ## Where runs end

A thread that owns a mutex has a step, so a mutex holds up nobody for good. -/

theorem parsingStep_of_owns (h : s.parsing.ownsM = true ∨ s.parsing.ownsM2 = true) :
    s.parsingStep c ≠ none := by
  unfold FileParser.parsingStep
  split
  all_goals
    rename_i hplace
    simp [hplace, ParsingAt.ownsM, ParsingAt.ownsM2] at h ⊢

theorem mainStep_of_owns (h : s.main.ownsM = true ∨ s.main.ownsM2 = true) :
    s.mainStep c ≠ none := by
  unfold FileParser.mainStep
  split
  all_goals
    rename_i hplace
    rw [hplace] at h
    grind -linarith

/-- While the program runs, no thread has a step. -/
theorem final_steps (hfinal : (threads c).Final s) (halive : s.parsing ≠ .terminated) :
    s.parsingStep c = none ∧ s.mainStep c = none := by
  refine ⟨hfinal .parsing, ?_⟩
  have hmain := hfinal .main
  simp only [threads] at hmain
  exact hmain

/-- Where no thread has a step, the mutexes are free. -/
theorem Exclusive.free_of_stopped (hinv : s.Exclusive) (hparsing : s.parsingStep c = none)
    (hmain : s.mainStep c = none) : s.m = none ∧ s.m2 = none := by
  have hparsingOwns : ¬ (s.parsing.ownsM = true ∨ s.parsing.ownsM2 = true) :=
    fun howns => parsingStep_of_owns howns hparsing
  have hmainOwns : ¬ (s.main.ownsM = true ∨ s.main.ownsM2 = true) :=
    fun howns => mainStep_of_owns howns hmain
  rw [not_or, Bool.not_eq_true, Bool.not_eq_true] at hparsingOwns hmainOwns
  exact ⟨hinv.m_free hparsingOwns.1 hmainOwns.1, hinv.m2_free hparsingOwns.2 hmainOwns.2⟩

/-- A parsing thread without a step has ended, or waits for a notification. -/
theorem parsingStep_none (h : s.parsingStep c = none) (hm : s.m = none) (hm2 : s.m2 = none) :
    s.parsing = .finished ∨ s.parsing = .syncWait ∨ s.parsing = .terminated := by
  unfold FileParser.parsingStep at h
  split at h
  all_goals grind -linarith

/-- A main thread without a step has ended, or waits for a notification. -/
theorem mainStep_none (h : s.mainStep c = none) (hm : s.m = none) (hm2 : s.m2 = none) :
    s.main = .ended ∨ s.main = .failed ∨ s.main = .hasNextWait := by
  unfold FileParser.mainStep at h
  split at h
  all_goals grind -linarith

/-- The places of the threads in a state in which no thread has a step. -/
theorem Exclusive.final_places (hinv : s.Exclusive) (hfinal : (threads c).Final s) :
    s.parsing = .terminated ∨
      (s.parsing = .finished ∨ s.parsing = .syncWait) ∧
        (s.main = .ended ∨ s.main = .failed ∨ s.main = .hasNextWait) := by
  by_cases hterminated : s.parsing = .terminated
  · exact .inl hterminated
  · obtain ⟨hparsing, hmain⟩ := final_steps hfinal hterminated
    obtain ⟨hm, hm2⟩ := hinv.free_of_stopped hparsing hmain
    rcases parsingStep_none hparsing hm hm2 with hfinished | hwait | hend
    · exact .inr ⟨.inl hfinished, mainStep_none hmain hm hm2⟩
    · exact .inr ⟨.inr hwait, mainStep_none hmain hm hm2⟩
    · exact absurd hend hterminated

/-- Every run ends after a bounded number of steps.  Where it ends, the program is
terminated, or each thread has come to its end or waits for a notification. -/
theorem runs_end (operations : List (Signal T)) (throws : Bool) (c : Thresholds)
    {schedule : List Thread} {s : FileParser T}
    (hfollow : (threads c).follow (fun _ _ => True) schedule
      (FileParser.start operations throws) = some s) :
    schedule.length ≤ 30 * operations.length + 9 ∧
      ((threads c).Final s → s.parsing = .terminated ∨
        (s.parsing = .finished ∨ s.parsing = .syncWait) ∧
          (s.main = .ended ∨ s.main = .failed ∨ s.main = .hasNextWait)) := by
  constructor
  · have hkeep : ∀ thread (t t' : FileParser T), True →
        (threads c).step thread t = some t' → t.Fed → t'.Fed := by
      intro thread t t' _ hstep hfed
      rcases threads_step hstep with ⟨-, hmove⟩ | ⟨-, hmove⟩
      · exact hfed.parsingStep hmove
      · exact hfed.mainStep hmove
    have hlower : ∀ thread (t t' : FileParser T), True →
        (threads c).step thread t = some t' → t.Fed → t'.rank < t.rank := by
      intro thread t t' _ hstep hfed
      rcases threads_step hstep with ⟨-, hmove⟩ | ⟨-, hmove⟩
      · exact parsingStep_rank hmove
      · exact hfed.mainStep_rank hmove
    have hfed : (FileParser.start operations throws).Fed := by simp [Fed, FileParser.start]
    have hlength := System.follow_length_le hkeep hlower hfed hfollow
    have hstart : (FileParser.start operations throws).rank = 30 * operations.length + 9 := rfl
    omega
  · have hinv : s.Exclusive :=
      reachesUnder_invariant Exclusive (System.reaches_of_follow hfollow)
        (Exclusive.start _ _) (fun _ _ _ hstep hinv => hinv.parsingStep hstep)
        (fun _ _ _ hstep hinv => hinv.mainStep hstep)
    exact hinv.final_places

/-- The main thread has taken a triple, and the parsing thread goes on with the second. -/
theorem interleaved_ends : ∃ s : FileParser Nat,
    (threads .default).follow (fun _ _ => True) interleavedSchedule
      (FileParser.start [.insertTriple 1, .insertTriple 2, .syncWithMainThread] false) =
        some s ∧
    interleavedSchedule.length ≤
      30 * [Signal.insertTriple 1, .insertTriple 2, .syncWithMainThread].length + 9 ∧
    ((threads .default).Final s → s.parsing = .terminated ∨
      (s.parsing = .finished ∨ s.parsing = .syncWait) ∧
        (s.main = .ended ∨ s.main = .failed ∨ s.main = .hasNextWait)) := by
  have hfollow : ∃ s, (threads .default).follow (fun _ _ => True) interleavedSchedule
      (FileParser.start [.insertTriple 1, .insertTriple 2, .syncWithMainThread] false) =
      some s := ⟨_, rfl⟩
  obtain ⟨s, hs⟩ := hfollow
  exact ⟨s, hs, runs_end _ false .default hs⟩

/-! ## Careful runs -/

/-- The steps that lose nothing: a statement is started only with room for its triples, the
done flag is not raised over triples the main thread overlooks, and no wake-up is lost. -/
def Careful (c : Thresholds) (thread : Thread) (s : FileParser T) : Prop :=
  RoomForStatement thread s ∧ NoLateDone thread s ∧ NoLostWakeup c thread s

instance [DecidableEq T] (c : Thresholds) (thread : Thread) (s : FileParser T) :
    Decidable (Careful c thread s) :=
  inferInstanceAs (Decidable (_ ∧ _ ∧ _))

/-- `startParsing` returns only if the parse does not throw. -/
def ReturnsNormally (s : FileParser T) : Prop := s.parsing = .finished → s.throws = false

theorem ReturnsNormally.parsingStep (h : s.parsingStep c = some s') : s'.ReturnsNormally := by
  unfold ReturnsNormally
  unfold FileParser.parsingStep at h
  split at h
  all_goals grind -linarith

theorem ReturnsNormally.mainStep (h : s.mainStep c = some s') (hinv : s.ReturnsNormally) :
    s'.ReturnsNormally := by
  have hframe := mainStep_frame h
  intro hfinished
  rw [hframe.parsing_eq (by simp [hfinished])] at hfinished
  rw [hframe.throws]
  exact hinv hfinished

/-- What holds in the states of a careful run. -/
structure Settled (c : Thresholds) (operations : List (Signal T)) (throws : Bool)
    (s : FileParser T) : Prop where
  attended : s.Attended c
  drained : s.Drained
  lossless : s.Lossless
  recorded : s.Recorded operations
  throws : s.throws = throws
  returns : s.ReturnsNormally

theorem Settled.of_reach {prefixMap : Turtle.PrefixMap} {document : Bytes} {p : Parse false}
    (hparse : Parses prefixMap document p) {s : FileParser (Rdf.Triple false)}
    (hreach : (threads c).ReachesUnder (Careful c) (ofParse p) s) :
    s.Settled c p.final.signals (decide p.throws) := by
  refine ⟨Attended.of_reach hparse (hreach.mono fun _ _ hguard => hguard.2.2), ?_, ?_, ?_, ?_, ?_⟩
  · have hinv : s.Closing ∧ s.Drained := by
      refine reachesUnder_invariant (fun t => t.Closing ∧ t.Drained) hreach
        ⟨Closing.ofParse hparse, Drained.start _ _⟩ ?_ ?_
      · intro t t' hguard hstep ⟨hclosing, hdrained⟩
        exact ⟨hclosing.parsingStep hstep, hdrained.parsingStep hguard.2.1 hstep hclosing⟩
      · intro t t' _ hstep ⟨hclosing, hdrained⟩
        exact ⟨hclosing.mainStep hstep, hdrained.mainStep hstep⟩
    exact hinv.2
  · exact reachesUnder_invariant Lossless hreach (Lossless.start _ _)
      (fun _ _ hguard hstep hinv => hinv.parsingStep hguard.1 hstep)
      (fun _ _ _ hstep hinv => hinv.mainStep hstep)
  · exact reachesUnder_invariant (Recorded p.final.signals) hreach (Recorded.start _ _)
      (fun _ _ _ hstep hinv => hinv.parsingStep hstep)
      (fun _ _ _ hstep hinv => hinv.mainStep hstep)
  · exact reachesUnder_invariant (fun t => t.throws = decide p.throws) hreach rfl
      (fun _ _ _ hstep hinv => (parsingStep_throws hstep).1.trans hinv)
      (fun _ _ _ hstep hinv => (mainStep_throws hstep).1.trans hinv)
  · exact reachesUnder_invariant ReturnsNormally hreach (by simp [ReturnsNormally, ofParse, start])
      (fun _ _ _ hstep _ => ReturnsNormally.parsingStep hstep)
      (fun _ _ _ hstep hinv => hinv.mainStep hstep)

variable {throws : Bool}

/-- A careful run does not end with a thread that waits. -/
theorem Settled.final_places (hinv : s.Settled c operations throws)
    (hfinal : (threads c).Final s) (halive : s.parsing ≠ .terminated) :
    s.parsing = .finished ∧ s.main = .ended := by
  obtain ⟨hparsing, hmain⟩ := final_steps hfinal halive
  have hawake : s.main ≠ .hasNextWait :=
    fun hwait => hinv.attended.parsing_moves hwait halive hparsing
  have hunthrottled : s.parsing ≠ .syncWait :=
    fun hwait => hinv.attended.main_moves hwait hawake hmain
  rcases hinv.attended.exclusive.final_places hfinal with hend | ⟨hfinished | hwait, hplace⟩
  · exact absurd hend halive
  · rcases hplace with hended | hfailed | hwait
    · exact ⟨hfinished, hended⟩
    · exact absurd hfailed hinv.attended.woken.alive
    · exact absurd hwait hawake
  · exact absurd hwait hunthrottled

/-- The triples the main thread has got begin the triples of the parse. -/
theorem Settled.popped_prefix (hinv : s.Settled c operations throws) :
    s.popped <+: triplesOf operations := by
  obtain ⟨rest, hrest⟩ := hinv.recorded.executed_prefix
  refine ⟨s.queue ++ triplesOf rest, ?_⟩
  rw [← List.append_assoc, hinv.lossless.kept, ← triplesOf_append, hrest]

/-- When both threads have come to their end, every triple has been taken. -/
theorem Settled.popped_eq (hinv : s.Settled c operations throws)
    (hfinished : s.parsing = .finished) (hended : s.main = .ended) :
    s.queue = [] ∧ s.popped = triplesOf operations := by
  have hempty := (hinv.drained.returning (.inr hended)).2
  have hkept := hinv.lossless.kept
  have hcalls := hinv.recorded
  unfold Recorded at hcalls
  rw [hfinished, hinv.attended.closing.ended (.inl hfinished)] at hcalls
  simp only [ParsingAt.pending, List.append_nil] at hcalls
  rw [hempty, List.append_nil, hcalls] at hkept
  exact ⟨hempty, hkept⟩

/-- A careful run that cannot go on has delivered the whole file: if its parse, over the stream
that is discarded as it is read, does not throw, both threads have ended, and the main thread
has got the triples of the file, all of them and in their order; if it throws, the program is
terminated. -/
theorem iteration_complete {prefixMap : Turtle.PrefixMap} {document : Bytes} {p : Parse false}
    (hparse : FileParses prefixMap document p) (c : Thresholds)
    {s : FileParser (Rdf.Triple false)}
    (hreach : (threads c).ReachesUnder (Careful c) (ofParse p) s)
    (hfinal : (threads c).Final s) :
    (¬ p.throws → s.parsing = .finished ∧ s.main = .ended ∧ s.queue = [] ∧
      s.popped = p.final.inserted) ∧
    (p.throws → s.parsing = .terminated ∧ s.popped <+: p.final.inserted) := by
  have hinv := Settled.of_reach hparse.parses hreach
  constructor
  · intro hok
    have halive : s.parsing ≠ .terminated :=
      reachesUnder_not_terminated hreach.withEvents (decide_eq_false hok)
        (by simp [ofParse, start])
    obtain ⟨hfinished, hended⟩ := hinv.final_places hfinal halive
    obtain ⟨hempty, hpopped⟩ := hinv.popped_eq hfinished hended
    exact ⟨hfinished, hended, hempty, hpopped⟩
  · intro hthrows
    refine ⟨?_, hinv.popped_prefix⟩
    by_contra halive
    have hfinished := (hinv.final_places hfinal halive).1
    have hnormal := hinv.returns hfinished
    rw [hinv.throws] at hnormal
    exact of_decide_eq_false hnormal hthrows

theorem patientSchedule_complete : ∃ p : Parse false, FileParses [] oneTripleDocument p ∧
    ¬ p.throws ∧ ∃ s : FileParser (Rdf.Triple false),
      (threads .default).ReachesUnder (Careful .default) (ofParse p) s ∧
      (threads .default).Final s ∧ s.popped = [oneTriple] ∧
      (¬ p.throws → s.parsing = .finished ∧ s.main = .ended ∧ s.queue = [] ∧
        s.popped = p.final.inserted) ∧
      (p.throws → s.parsing = .terminated ∧ s.popped <+: p.final.inserted) := by
  obtain ⟨p, hparse, hok, hstart⟩ := oneTripleDocument_parse
  have hfollow : ∃ s, (threads .default).follow (Careful .default) (.parsing :: patientSchedule)
      (start [.insertTriple oneTriple, .syncWithMainThread, .setParsingIsDone] false) = some s ∧
      s.popped = [oneTriple] ∧ s.parsingStep .default = none ∧ s.mainStep .default = none :=
    ⟨_, rfl, rfl, rfl, rfl⟩
  rw [← hstart] at hfollow
  obtain ⟨s, hs, hpopped, hparsing, hmain⟩ := hfollow
  have hreach := System.reaches_of_follow hs
  have hfinal : (threads .default).Final s := by
    intro thread
    cases thread with
    | parsing => exact hparsing
    | main =>
        simp only [threads]
        split
        · rfl
        · exact hmain
  have hfile : FileParses [] oneTripleDocument p :=
    fileParses_iff.mpr ⟨by decide, readsAlike_of_short (by decide), hparse⟩
  exact ⟨p, hfile, hok, s, hreach, hfinal, hpopped,
    iteration_complete hfile .default hreach hfinal⟩

end FileParser

/-! ## The owner -/

namespace Owned

variable {T : Type} {c : Thresholds} {s s' : Owned T}

def rank (s : Owned T) : Nat :=
  s.parser.rank +
    match s.owner with
    | .constructing => 3
    | .iterating => 2
    | .joining => 1
    | .joined => 0

theorem Fed.step {move : Move} (h : (teardown c).step move s = some s')
    (hinv : s.parser.Fed) : s'.parser.Fed := by
  cases move with
  | parsing =>
      obtain ⟨hstep, -⟩ := teardown_parsing h
      exact hinv.parsingStep hstep
  | main =>
      rcases teardown_main h with ⟨-, rfl⟩ | ⟨-, -, hstep⟩ | ⟨-, rfl⟩
      · exact hinv
      · exact hinv.mainStep hstep
      · exact hinv
  | stop =>
      obtain ⟨-, -, rfl⟩ := teardown_stop h
      exact hinv

theorem step_rank {move : Move} (h : (teardown c).step move s = some s')
    (hfed : s.parser.Fed) : s'.rank < s.rank := by
  unfold rank
  cases move with
  | parsing =>
      obtain ⟨hstep, howner⟩ := teardown_parsing h
      have hless := FileParser.parsingStep_rank hstep
      rw [howner]
      omega
  | main =>
      rcases teardown_main h with ⟨howner, rfl⟩ | ⟨howner, howner', hstep⟩ | ⟨howner, rfl⟩
      · rw [howner]
        by_cases hadmitted : c.Admitted
        · simp [hadmitted]
        · simp [hadmitted]
      · have hless := hfed.mainStep_rank hstep
        rw [howner, howner']
        omega
      · rw [howner]
        simp
  | stop =>
      obtain ⟨howner, -, rfl⟩ := teardown_stop h
      rw [howner]
      simp

/-- Where nobody has a step, the parser is joined, or somebody waits for a notification. -/
theorem Quiet.final_places (hinv : s.Quiet) (hfinal : (teardown c).Final s) :
    s.parser.parsing = .terminated ∨ s.owner = .joined ∨ s.Deadlocked ∨
      s.owner = .iterating ∧ s.parser.main = .hasNextWait ∧
        (s.parser.parsing = .finished ∨ s.parser.parsing = .syncWait) := by
  by_cases hterminated : s.parser.parsing = .terminated
  · exact .inl hterminated
  · have hparsing : s.parser.parsingStep c = none := by
      simpa [teardown] using hfinal .parsing
    have hmain : s.mainStep c = none := by
      have hstep := hfinal .main
      simp only [teardown] at hstep
      exact hstep
    have hstop : s.stop = none := by
      have hstep := hfinal .stop
      simp only [teardown] at hstep
      exact hstep
    have howns : ¬ (s.parser.parsing.ownsM = true ∨ s.parser.parsing.ownsM2 = true) :=
      fun howns => FileParser.parsingStep_of_owns howns hparsing
    rw [not_or, Bool.not_eq_true, Bool.not_eq_true] at howns
    right
    unfold mainStep at hmain
    cases howner : s.owner with
    | constructing => simp [howner] at hmain
    | joined => exact .inl rfl
    | joining =>
        obtain ⟨hm, hm2⟩ := hinv.joining howner
        have hplace := FileParser.parsingStep_none hparsing
          (hinv.exclusive.m_free howns.1 hm) (hinv.exclusive.m2_free howns.2 hm2)
        rcases hplace with hfinished | hwait | hend
        · simp [howner, hfinished] at hmain
        · exact .inr (.inl ⟨howner, hwait⟩)
        · exact absurd hend hterminated
    | iterating =>
        have hstopped : s.parser.mainStep c = none := by
          simpa [howner] using hmain
        have hinside : s.parser.main.betweenCalls = false := by
          simpa [stop, howner] using hstop
        obtain ⟨hm, hm2⟩ := hinv.exclusive.free_of_stopped hparsing hstopped
        refine .inr (.inr ⟨rfl, ?_, ?_⟩)
        · rcases FileParser.mainStep_none hstopped hm hm2 with hended | hfailed | hwait
          · simp [hended, MainAt.betweenCalls] at hinside
          · simp [hfailed, MainAt.betweenCalls] at hinside
          · exact hwait
        · rcases FileParser.parsingStep_none hparsing hm hm2 with hfinished | hwait | hend
          · exact .inl hfinished
          · exact .inr hwait
          · exact absurd hend hterminated

/-- The whole life of a parser, from its constructor to the end of its destructor, is a
bounded number of steps.  It ends with the parsing thread joined, unless the program is
terminated or somebody waits for a notification. -/
theorem life_ends (operations : List (Signal T)) (throws : Bool) (c : Thresholds)
    {moves : List Move} {s : Owned T}
    (hfollow : (teardown c).follow (fun _ _ => True) moves
      (start (FileParser.start operations throws)) = some s) :
    moves.length ≤ 30 * operations.length + 12 ∧
      ((teardown c).Final s →
        s.parser.parsing = .terminated ∨ s.owner = .joined ∨ s.Deadlocked ∨
          s.owner = .iterating ∧ s.parser.main = .hasNextWait ∧
            (s.parser.parsing = .finished ∨ s.parser.parsing = .syncWait)) := by
  constructor
  · have hkeep : ∀ move (t t' : Owned T), True → (teardown c).step move t = some t' →
        t.parser.Fed → t'.parser.Fed := fun _ _ _ _ hstep hfed => Fed.step hstep hfed
    have hlower : ∀ move (t t' : Owned T), True → (teardown c).step move t = some t' →
        t.parser.Fed → t'.rank < t.rank := fun _ _ _ _ hstep hfed => step_rank hstep hfed
    have hfed : (start (FileParser.start operations throws)).parser.Fed := by
      simp [FileParser.Fed, start, FileParser.start]
    have hlength := System.follow_length_le hkeep hlower hfed hfollow
    have hstart : (start (FileParser.start operations throws)).rank =
        30 * operations.length + 9 + 3 := rfl
    omega
  · have hinv : s.Quiet :=
      (System.reaches_of_follow hfollow).invariant (Quiet.start _ _)
        fun _ _ _ _ hstep hquiet => hquiet.step hstep
    exact hinv.final_places

/-- The owner joins the parsing thread after it has ended. -/
def joiningSchedule : List Move := endingSchedule ++ [.main]

theorem joiningSchedule_ends : ∃ s : Owned (Rdf.Triple false),
    (teardown .default).follow (fun _ _ => True) joiningSchedule
      (start (FileParser.start
        [.insertTriple FileParser.oneTriple, .syncWithMainThread, .setParsingIsDone] false)) =
        some s ∧
    s.owner = .joined ∧
    joiningSchedule.length ≤ 30 * [Signal.insertTriple FileParser.oneTriple,
      .syncWithMainThread, .setParsingIsDone].length + 12 ∧
    ((teardown .default).Final s →
      s.parser.parsing = .terminated ∨ s.owner = .joined ∨ s.Deadlocked ∨
        s.owner = .iterating ∧ s.parser.main = .hasNextWait ∧
          (s.parser.parsing = .finished ∨ s.parser.parsing = .syncWait)) := by
  have hfollow : ∃ s, (teardown .default).follow (fun _ _ => True) joiningSchedule
      (start (FileParser.start
        [.insertTriple FileParser.oneTriple, .syncWithMainThread, .setParsingIsDone] false)) =
        some s ∧ s.owner = .joined := ⟨_, rfl, rfl⟩
  obtain ⟨s, hs, howner⟩ := hfollow
  exact ⟨s, hs, howner, life_ends _ false .default hs⟩

end Owned

end RdfParser.Concurrent
