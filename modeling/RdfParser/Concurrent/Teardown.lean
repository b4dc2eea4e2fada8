/-
  Concurrent/Teardown.lean --- destroying a `TurtleFileParser`.

  Sources: `TurtleFileParser.hpp` and `internal/util/ScopedThread.hpp`.

  The parsing thread is the last member of the parser, so its `ScopedThread` is
  destroyed first, by the destructor as well as when the constructor throws after
  it has started the thread.  `~ScopedThread` joins the parsing thread; from then
  on nobody notifies `cv`.

  The destructor closes the stream before.  A parse that still reads then sees the
  end of the input: the calls of the model are those the parse really makes.
-/
import RdfParser.Concurrent.Invariants

set_option autoImplicit false

namespace RdfParser.Concurrent

open RdfParser.Foundation RdfParser.Turtle

/-! ## The owner -/

/-- Where the owner of the parser is. -/
inductive OwnerAt where
  /-- In the body of the constructor; the parsing thread runs already. -/
  | constructing
  | iterating
  /-- In `~ScopedThread`, at `t.join()`. -/
  | joining
  | joined
  deriving DecidableEq, Repr

/-- A parser and its owner.  What the owner does while it iterates is what the main
thread of the parser does. -/
structure Owned (T : Type) where
  parser : FileParser T
  owner : OwnerAt := .constructing

/-- Who acts: one of the two threads, or the owner decides to stop. -/
inductive Move where
  | parsing
  | main
  | stop
  deriving DecidableEq, Repr

/-- The places where the main thread is not inside a call: before `hasNextTriple`,
before `nextTriple`, after the last call, and after an exception. -/
def MainAt.betweenCalls : MainAt → Bool
  | .hasNextLoad | .nextPop | .ended | .failed => true
  | _ => false

theorem MainAt.owns_betweenCalls {main : MainAt} (h : main.betweenCalls = true) :
    main.ownsM = false ∧ main.ownsM2 = false := by
  cases main <;> simp [MainAt.betweenCalls] at h <;> exact ⟨rfl, rfl⟩

namespace Owned

variable {T : Type} {c : Thresholds} {s s' : Owned T}

/-- One step of the owner, other than to stop. -/
def mainStep (c : Thresholds) (s : Owned T) : Option (Owned T) :=
  match s.owner with
  | .constructing => some { s with owner := if c.Admitted then .iterating else .joining }
  | .iterating => (s.parser.mainStep c).map fun parser => { s with parser := parser }
  | .joining =>
      match s.parser.parsing with
      | .finished => some { s with owner := .joined }
      | _ => none
  | .joined => none

/-- The owner gives the parser up. -/
def stop (s : Owned T) : Option (Owned T) :=
  if s.owner = .iterating ∧ s.parser.main.betweenCalls = true then
    some { s with owner := .joining }
  else none

end Owned

/-- The parsing thread and the owner.  Once the program is terminated nothing
happens any more. -/
def teardown {T : Type} (c : Thresholds) : System Move (Owned T) where
  step
    | .parsing, s => (s.parser.parsingStep c).map fun parser => { s with parser := parser }
    | .main, s =>
        match s.parser.parsing with
        | .terminated => none
        | _ => s.mainStep c
    | .stop, s =>
        match s.parser.parsing with
        | .terminated => none
        | _ => s.stop

/-- A spurious wake-up of one of the threads. -/
def Owned.wakeStep {T : Type} (thread : Thread) (s : Owned T) : Option (Owned T) :=
  (s.parser.wakeStep thread).map fun parser => { s with parser := parser }

/-- The parsing thread and the owner, with spurious wake-ups. -/
def wakingTeardown {T : Type} (c : Thresholds) :
    System (System.Event Move Thread) (Owned T) :=
  (teardown c).withEvents Owned.wakeStep

/-! ## A parsing thread that is left alone -/

/-- Whether the calls, made while nobody takes triples from the queue, find it
within the threshold whenever they look. -/
def runsThrough {T : Type} (c : Thresholds) (length : Nat) : List (Signal T) → Bool
  | [] => true
  | .insertTriple _ :: operations =>
      runsThrough c (if length < queueCapacity then length + 1 else length) operations
  | .syncWithMainThread :: operations =>
      !decide (c.upperThreshold < length) && runsThrough c length operations
  | .setParsingIsDone :: operations => runsThrough c length operations

attribute [grind =] runsThrough

namespace FileParser

variable {T : Type} {c : Thresholds} {s s' : FileParser T}

/-- Whether the parsing thread ends when it is left alone. -/
def endsAlone (c : Thresholds) (s : FileParser T) : Bool :=
  match s.parsing with
  | .next | .insertNotify | .syncUnlock | .doneLock | .doneStore | .doneUnlock | .doneNotify
  | .doneFlag => runsThrough c s.queue.length s.operations
  | .insertLock t | .insertStore t | .insertUnlock t | .insertPush t | .insertQuietly t =>
      runsThrough c (s.push t).queue.length s.operations
  | .syncTest | .syncRelock =>
      s.termCountWithinThresholds && runsThrough c s.queue.length s.operations
  | .syncLock | .syncStore | .syncBlock | .syncWait => false
  | .finished | .terminated => true

attribute [grind =] endsAlone

/-- A bound on the steps of the parsing thread that is left alone. -/
def stepsLeft (s : FileParser T) : Nat :=
  10 * s.operations.length +
    match s.parsing with
    | .next | .syncWait | .finished | .terminated => 0
    | .insertNotify | .insertQuietly _ | .syncBlock | .syncUnlock | .doneFlag => 1
    | .insertPush _ | .syncTest | .doneNotify => 2
    | .insertUnlock _ | .syncStore | .syncRelock | .doneUnlock => 3
    | .insertStore _ | .syncLock | .doneStore => 4
    | .insertLock _ | .doneLock => 5

attribute [grind =] stepsLeft

theorem parsingStep_stepsLeft (hwaits : s.endsAlone c = false) (h : s.parsingStep c = some s') :
    s'.stepsLeft < s.stepsLeft := by
  unfold FileParser.parsingStep at h
  split at h
  all_goals grind -linarith

/-- Unless it waits, a parsing thread that will wait has a step, as long as the main
thread owns no mutex. -/
theorem Exclusive.parsingStep_ne_none (hinv : s.Exclusive) (hm : s.main.ownsM = false)
    (hm2 : s.main.ownsM2 = false) (hwaits : s.endsAlone c = false)
    (hplace : s.parsing ≠ .syncWait) : s.parsingStep c ≠ none := by
  have hmFree : s.parsing.ownsM = false → s.m = none := fun h => hinv.m_free h hm
  have hm2Free : s.parsing.ownsM2 = false → s.m2 = none := fun h => hinv.m2_free h hm2
  unfold endsAlone at hwaits
  unfold FileParser.parsingStep
  split
  all_goals
    rename_i hat
    rw [hat] at hmFree hm2Free hplace hwaits
    simp only [ParsingAt.ownsM, ParsingAt.ownsM2] at hmFree hm2Free
    grind -linarith

/-- A step of the parsing thread does not change how it will end. -/
theorem parsingStep_endsAlone (h : s.parsingStep c = some s') :
    s'.endsAlone c = s.endsAlone c := by
  unfold parsingStep at h
  split at h
  all_goals grind -linarith

/-- A parsing thread that ends alone does not wait, so nothing wakes it. -/
theorem wakeStep_endsAlone {thread : Thread} (h : s.wakeStep thread = some s')
    (hends : s.endsAlone c = true) : s'.endsAlone c = true := by
  rcases wakeStep_cases h with ⟨hwait, rfl⟩ | ⟨-, rfl⟩
  · unfold endsAlone at hends
    simp [hwait] at hends
  · exact hends

end FileParser

namespace Owned

variable {T : Type} {c : Thresholds} {s s' : Owned T}

/-- The owner waits for a parsing thread that waits. -/
def Deadlocked (s : Owned T) : Prop := s.owner = .joining ∧ s.parser.parsing = .syncWait

/-- The owner's next step gives the parser up: it stops, or the constructor throws. -/
def GivesUp (c : Thresholds) (move : Move) (s : Owned T) : Prop :=
  move = .stop ∨ move = .main ∧ s.owner = .constructing ∧ ¬ c.Admitted

instance (c : Thresholds) (move : Move) (s : Owned T) : Decidable (GivesUp c move s) :=
  inferInstanceAs (Decidable (_ ∨ _ ∧ _ ∧ ¬ _))

/-- The parser is given up only when its parsing thread ends without help. -/
def LeftToEnd (c : Thresholds) (move : Move) (s : Owned T) : Prop :=
  ¬ (GivesUp c move s ∧ s.parser.endsAlone c = false)

instance (c : Thresholds) (move : Move) (s : Owned T) : Decidable (LeftToEnd c move s) :=
  inferInstanceAs (Decidable (¬ (_ ∧ _)))

/-- A parsing thread that is joined ends without help. -/
def Endable (c : Thresholds) (s : Owned T) : Prop :=
  s.owner = .joining → s.parser.endsAlone c = true

/-- The steps of the parsing thread. -/
theorem teardown_parsing (h : (teardown c).step .parsing s = some s') :
    s.parser.parsingStep c = some s'.parser ∧ s'.owner = s.owner := by
  obtain ⟨parser, hstep, rfl⟩ := Option.map_eq_some_iff.mp h
  exact ⟨hstep, rfl⟩

/-- The steps of the owner, as long as the program is not terminated. -/
theorem teardown_main (h : (teardown c).step .main s = some s') :
    s.owner = .constructing ∧
        s' = { s with owner := if c.Admitted then .iterating else .joining } ∨
      s.owner = .iterating ∧ s'.owner = .iterating ∧
        s.parser.mainStep c = some s'.parser ∨
      s.owner = .joining ∧ s' = { s with owner := .joined } := by
  have hmain : s.mainStep c = some s' := by
    simp only [teardown] at h
    split at h
    · cases h
    · exact h
  unfold mainStep at hmain
  split at hmain
  · rename_i howner
    cases hmain
    exact .inl ⟨howner, rfl⟩
  · rename_i howner
    obtain ⟨parser, hstep, rfl⟩ := Option.map_eq_some_iff.mp hmain
    exact .inr (.inl ⟨howner, howner, hstep⟩)
  · rename_i howner
    split at hmain
    · cases hmain
      exact .inr (.inr ⟨howner, rfl⟩)
    · cases hmain
  · cases hmain

/-- The owner stops between two calls. -/
theorem teardown_stop (h : (teardown c).step .stop s = some s') :
    s.owner = .iterating ∧ s.parser.main.betweenCalls = true ∧
      s' = { s with owner := .joining } := by
  have hstop : s.stop = some s' := by
    simp only [teardown] at h
    split at h
    · cases h
    · exact h
  unfold stop at hstop
  split at hstop
  · rename_i hbetween
    cases hstop
    exact ⟨hbetween.1, hbetween.2, rfl⟩
  · cases hstop

theorem Endable.step {move : Move} (hguard : LeftToEnd c move s)
    (h : (teardown c).step move s = some s') (hinv : s.Endable c) : s'.Endable c := by
  intro hjoining
  have hends : GivesUp c move s → s.parser.endsAlone c = true := by
    intro hgives
    by_contra hwaits
    exact hguard ⟨hgives, Bool.eq_false_iff.mpr hwaits⟩
  cases move with
  | parsing =>
      obtain ⟨hstep, howner⟩ := teardown_parsing h
      rw [FileParser.parsingStep_endsAlone hstep]
      exact hinv (howner ▸ hjoining)
  | main =>
      rcases teardown_main h with ⟨howner, rfl⟩ | ⟨-, howner, -⟩ | ⟨-, rfl⟩
      · by_cases hadmitted : c.Admitted
        · simp [hadmitted] at hjoining
        · exact hends (.inr ⟨rfl, howner, hadmitted⟩)
      · rw [howner] at hjoining
        cases hjoining
      · cases hjoining
  | stop =>
      obtain ⟨-, -, rfl⟩ := teardown_stop h
      exact hends (.inl rfl)

theorem Endable.wakeStep {thread : Thread} (h : s.wakeStep thread = some s')
    (hinv : s.Endable c) : s'.Endable c := by
  obtain ⟨parser, hwake, rfl⟩ := Option.map_eq_some_iff.mp h
  intro hjoining
  exact FileParser.wakeStep_endsAlone hwake (hinv hjoining)

/-- A parser whose parsing thread has just been started. -/
def start (parser : FileParser T) : Owned T where
  parser := parser

/-- If the parser is only given up when its parsing thread ends without help, the
owner never joins a thread that waits. -/
theorem never_deadlocked (operations : List (Signal T)) (throws : Bool) (c : Thresholds)
    {s : Owned T}
    (hreach : (wakingTeardown c).ReachesUnder (System.onSteps (LeftToEnd c))
      (start (FileParser.start operations throws)) s) : ¬ s.Deadlocked := by
  have hinv : s.Endable c := by
    refine hreach.invariant_withEvents (by simp [Endable, start]) ?_ ?_
    · intro move t t' hguard hstep hendable
      exact hendable.step hguard hstep
    · intro thread t t' hwake hendable
      exact hendable.wakeStep hwake
  intro ⟨hjoining, hwaits⟩
  have hends := hinv hjoining
  unfold FileParser.endsAlone at hends
  simp [hwaits] at hends

/-- The parsing thread ends while it is joined. -/
def endingSchedule : List Move := [.main, .stop] ++ List.replicate 10 .parsing

theorem endingSchedule_joins : ∃ s : Owned (Rdf.Triple false),
    (wakingTeardown .default).ReachesUnder (System.onSteps (LeftToEnd .default))
      (start (FileParser.start
        [.insertTriple FileParser.oneTriple, .syncWithMainThread, .setParsingIsDone] false)) s ∧
    s.owner = .joining ∧ s.parser.parsing = .finished ∧ ¬ s.Deadlocked := by
  have hfollow : ∃ s, (teardown .default).follow (LeftToEnd .default) endingSchedule
      (start (FileParser.start
        [.insertTriple FileParser.oneTriple, .syncWithMainThread, .setParsingIsDone] false)) =
        some s ∧
      s.owner = .joining ∧ s.parser.parsing = .finished := ⟨_, rfl, rfl, rfl⟩
  obtain ⟨s, hs, howner, hparsing⟩ := hfollow
  have hreach : (wakingTeardown .default).ReachesUnder (System.onSteps (LeftToEnd .default))
      _ s := (System.reaches_of_follow hs).withEvents
  exact ⟨s, hreach, howner, hparsing, never_deadlocked _ false .default hreach⟩

/-- The constructor throws while the parsing thread runs, which then finds more than
the threshold. -/
def throwingSchedule : List Move := [.main] ++ List.replicate 11 .parsing

/-- The thresholds 0 and 1 make the constructor throw; for `<s> <p> <o> .` the
exception never leaves it. -/
theorem throwingSchedule_deadlocks : ¬ ∀ (prefixMap : Turtle.PrefixMap) (document : Bytes)
    (p : Parse false), Parses prefixMap document p → ∀ (c : Thresholds) (s : Owned _),
    (teardown c).Reaches (start (FileParser.ofParse p)) s → ¬ s.Deadlocked := by
  intro hclaim
  obtain ⟨p, hparse, -, hstart⟩ := FileParser.oneTripleDocument_parse
  have hfollow : ∃ s, (teardown ⟨0, 1⟩).follow (fun _ _ => True) throwingSchedule
      (start (FileParser.start
        [.insertTriple FileParser.oneTriple, .syncWithMainThread, .setParsingIsDone] false)) =
        some s ∧
      s.Deadlocked := ⟨_, rfl, rfl, rfl⟩
  rw [← hstart] at hfollow
  obtain ⟨s, hs, hdeadlocked⟩ := hfollow
  exact hclaim [] FileParser.oneTripleDocument p hparse ⟨0, 1⟩ s
    (System.reaches_of_follow hs).reaches hdeadlocked

/-! ## A parser that is given up too early -/

/-- While the owner joins, its side of the parser owns no mutex. -/
structure Quiet (s : Owned T) : Prop where
  exclusive : s.parser.Exclusive
  constructing : s.owner = .constructing → s.parser.main = .hasNextLoad
  joining : s.owner = .joining → s.parser.main.ownsM = false ∧ s.parser.main.ownsM2 = false

theorem Quiet.start (operations : List (Signal T)) (throws : Bool) :
    (start (FileParser.start operations throws)).Quiet :=
  ⟨FileParser.Exclusive.start _ _, fun _ => rfl, by simp [Owned.start]⟩

theorem Quiet.step {move : Move} (h : (teardown c).step move s = some s') (hinv : s.Quiet) :
    s'.Quiet := by
  cases move with
  | parsing =>
      obtain ⟨hstep, howner⟩ := teardown_parsing h
      have hframe := FileParser.parsingStep_frame hstep
      refine ⟨hinv.exclusive.parsingStep hstep, fun hconstructing => ?_, fun hjoining => ?_⟩
      · have hmain := hinv.constructing (howner ▸ hconstructing)
        rcases hframe.main with hsame | ⟨hwait, -⟩
        · exact hsame.trans hmain
        · rw [hmain] at hwait
          cases hwait
      · have hfree := hinv.joining (howner ▸ hjoining)
        rcases hframe.main with hsame | ⟨-, hwoken⟩
        · rw [hsame]
          exact hfree
        · rw [hwoken]
          exact ⟨rfl, rfl⟩
  | main =>
      rcases teardown_main h with ⟨howner, rfl⟩ | ⟨-, howner, hstep⟩ | ⟨-, rfl⟩
      · have hmain := hinv.constructing howner
        refine ⟨hinv.exclusive, fun _ => hmain, fun _ => ?_⟩
        rw [hmain]
        exact ⟨rfl, rfl⟩
      · refine ⟨hinv.exclusive.mainStep hstep, ?_, ?_⟩
        · intro hconstructing
          rw [howner] at hconstructing
          cases hconstructing
        · intro hjoining
          rw [howner] at hjoining
          cases hjoining
      · refine ⟨hinv.exclusive, ?_, ?_⟩
        · intro hconstructing
          cases hconstructing
        · intro hjoining
          cases hjoining
  | stop =>
      obtain ⟨-, hbetween, rfl⟩ := teardown_stop h
      refine ⟨hinv.exclusive, ?_, fun _ => MainAt.owns_betweenCalls hbetween⟩
      intro hconstructing
      cases hconstructing

/-- A joined parsing thread that does not end without help comes to wait. -/
theorem deadlocks (hjoining : s.owner = .joining) (hquiet : s.Quiet)
    (hwaits : s.parser.endsAlone c = false) :
    ∃ s', (teardown c).Reaches s s' ∧ s'.Deadlocked := by
  induction hsteps : s.parser.stepsLeft using Nat.strong_induction_on generalizing s with
  | _ steps ih =>
      by_cases hplace : s.parser.parsing = .syncWait
      · exact ⟨s, System.Reaches.refl s, hjoining, hplace⟩
      · obtain ⟨hm, hm2⟩ := hquiet.joining hjoining
        obtain ⟨parser, hstep⟩ := Option.ne_none_iff_exists'.mp
          (hquiet.exclusive.parsingStep_ne_none hm hm2 hwaits hplace)
        have hless := FileParser.parsingStep_stepsLeft hwaits hstep
        have hmove : (teardown c).step .parsing s = some { s with parser := parser } := by
          simp [teardown, hstep]
        obtain ⟨s', hreach, hdeadlocked⟩ := ih parser.stepsLeft (hsteps ▸ hless)
          (s := { s with parser := parser }) hjoining (hquiet.step hmove)
          ((FileParser.parsingStep_endsAlone hstep).trans hwaits) rfl
        exact ⟨s', (System.Reaches.step hmove).trans hreach, hdeadlocked⟩

/-- The parser has been given up, and its thread needs no help to end. -/
def Ending (c : Thresholds) (s : Owned T) : Prop :=
  s.owner = .joined ∨ s.owner = .joining ∧ s.parser.endsAlone c = true

/-- A joined parsing thread that ends without help keeps doing so. -/
theorem Ending.reaches (hending : s.Ending c) (hreach : (teardown c).Reaches s s') :
    s'.Ending c := by
  refine hreach.invariant hending ?_
  intro move t t' _ hstep hinv
  unfold Ending at hinv ⊢
  cases move with
  | parsing =>
      obtain ⟨hmove, howner⟩ := teardown_parsing hstep
      rw [howner, FileParser.parsingStep_endsAlone hmove]
      exact hinv
  | main =>
      rcases teardown_main hstep with ⟨howner, -⟩ | ⟨howner, -⟩ | ⟨-, rfl⟩
      · simp [howner] at hinv
      · simp [howner] at hinv
      · exact .inl rfl
  | stop =>
      obtain ⟨howner, -, -⟩ := teardown_stop hstep
      simp [howner] at hinv

/-- Whether the owner of a parser that has been given up is left waiting was settled
when it gave it up. -/
theorem deadlocks_iff (operations : List (Signal T)) (throws : Bool) (c : Thresholds)
    {s : Owned T} (hreach : (teardown c).Reaches (start (FileParser.start operations throws)) s)
    (hjoining : s.owner = .joining) :
    (∃ s', (teardown c).Reaches s s' ∧ s'.Deadlocked) ↔ s.parser.endsAlone c = false := by
  have hquiet : s.Quiet :=
    hreach.invariant (Quiet.start _ _) fun _ _ _ _ hstep hinv => hinv.step hstep
  constructor
  · intro ⟨s', hreach', hdeadlocked⟩
    by_contra hends
    have hending : s.Ending c := .inr ⟨hjoining, by simpa using hends⟩
    rcases hending.reaches hreach' with hjoined | ⟨-, hends'⟩
    · rw [hdeadlocked.1] at hjoined
      cases hjoined
    · unfold FileParser.endsAlone at hends'
      simp [hdeadlocked.2] at hends'
  · exact deadlocks hjoining hquiet

end Owned

end RdfParser.Concurrent
