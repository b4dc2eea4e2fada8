/-
  Concurrent/Overflow.lean --- when no triple is lost in the queue.

  The queue has a fixed capacity, and a push on a full queue is not noticed.  The
  parsing thread looks at the queue only between two statements, so what counts is
  the room a statement finds when it starts.
-/
import RdfParser.Concurrent.Invariants

set_option autoImplicit false

namespace RdfParser.Concurrent

open RdfParser.Foundation RdfParser.Turtle

variable {T : Type} {c : Thresholds} {s s' : FileParser T}

/-- How many triples are inserted before the next call of another kind. -/
def leadingTriples : List (Signal T) → Nat
  | .insertTriple _ :: operations => leadingTriples operations + 1
  | _ => 0

/-- The triples of some calls, in order. -/
def triplesOf (operations : List (Signal T)) : List T := operations.filterMap Signal.triple?

/-- The last of some calls was an insertion. -/
def endsInTriple (operations : List (Signal T)) : Bool :=
  (operations.getLast?.bind Signal.triple?).isSome

@[grind =] theorem leadingTriples_insertTriple (t : T) (operations : List (Signal T)) :
    leadingTriples (.insertTriple t :: operations) = leadingTriples operations + 1 := rfl

@[grind =] theorem triplesOf_insertTriple (operations : List (Signal T)) (t : T) :
    triplesOf (operations ++ [.insertTriple t]) = triplesOf operations ++ [t] := by
  simp [triplesOf, Signal.triple?]

@[grind =] theorem triplesOf_syncWithMainThread (operations : List (Signal T)) :
    triplesOf (operations ++ [.syncWithMainThread]) = triplesOf operations := by
  simp [triplesOf, Signal.triple?]

@[grind =] theorem triplesOf_setParsingIsDone (operations : List (Signal T)) :
    triplesOf (operations ++ [.setParsingIsDone]) = triplesOf operations := by
  simp [triplesOf, Signal.triple?]

@[grind =] theorem endsInTriple_append (operations : List (Signal T)) (operation : Signal T) :
    endsInTriple (operations ++ [operation]) = operation.triple?.isSome := by
  simp [endsInTriple]

attribute [grind =] Signal.triple?

namespace FileParser

/-- The parsing thread starts a statement: it has not just inserted a triple. -/
def AtStatement (s : FileParser T) : Prop :=
  s.parsing = .next ∧ endsInTriple s.executed = false

/-- A statement is started only if the queue has room for all of its triples. -/
def RoomForStatement (thread : Thread) (s : FileParser T) : Prop :=
  ¬ (thread = .parsing ∧ s.AtStatement ∧
    queueCapacity < s.queue.length + leadingTriples s.operations)

instance [DecidableEq T] (thread : Thread) (s : FileParser T) :
    Decidable (RoomForStatement thread s) :=
  inferInstanceAs (Decidable (¬ (_ ∧ (_ ∧ _) ∧ _)))

/-- Within a statement there is room for the rest of it, and nothing has been
lost so far. -/
structure Lossless (s : FileParser T) : Prop where
  room : (s.parsing = .next ∧ endsInTriple s.executed = true ∨ s.parsing = .insertNotify) →
    s.queue.length + leadingTriples s.operations ≤ queueCapacity
  pending : ∀ t, s.parsing = .insertLock t ∨ s.parsing = .insertStore t ∨
      s.parsing = .insertUnlock t ∨ s.parsing = .insertPush t ∨ s.parsing = .insertQuietly t →
    s.queue.length + leadingTriples s.operations + 1 ≤ queueCapacity
  kept : s.popped ++ s.queue = triplesOf s.executed

theorem Lossless.start (operations : List (Signal T)) (throws : Bool) :
    (start operations throws).Lossless :=
  ⟨by simp [FileParser.start, endsInTriple], by simp [FileParser.start],
    by simp [FileParser.start, triplesOf]⟩

theorem Lossless.parsingStep (hguard : RoomForStatement .parsing s)
    (h : s.parsingStep c = some s') (hinv : s.Lossless) : s'.Lossless := by
  obtain ⟨hroom, hpending, hkept⟩ := hinv
  unfold RoomForStatement AtStatement at hguard
  unfold FileParser.parsingStep at h
  split at h
  all_goals
    rename_i hplace
    rw [hplace] at hroom hpending hguard
    constructor <;> grind -linarith

theorem Lossless.mainStep (h : s.mainStep c = some s') (hinv : s.Lossless) : s'.Lossless := by
  have hframe := mainStep_frame h
  have hshrinks := hframe.shrinks
  obtain ⟨hroom, hpending, hkept⟩ := hinv
  rw [← hframe.operations] at hroom hpending
  rw [← hframe.executed] at hroom hkept
  refine ⟨fun hplace => ?_, fun t hplace => ?_, hframe.triples.trans hkept⟩
  · have hsame : s'.parsing = s.parsing := by
      refine hframe.parsing_eq fun hwoken => ?_
      simp [hwoken] at hplace
    rw [hsame] at hplace
    exact (Nat.add_le_add_right hshrinks _).trans (hroom hplace)
  · have hsame : s'.parsing = s.parsing := by
      refine hframe.parsing_eq fun hwoken => ?_
      simp [hwoken] at hplace
    rw [hsame] at hplace
    have hfits := hpending t hplace
    omega

theorem Lossless.wakeStep {thread : Thread} (h : s.wakeStep thread = some s')
    (hinv : s.Lossless) : s'.Lossless := by
  obtain ⟨hroom, hpending, hkept⟩ := hinv
  rcases wakeStep_cases h with ⟨-, rfl⟩ | ⟨-, rfl⟩
  · exact ⟨by simp, by simp, hkept⟩
  · exact ⟨hroom, hpending, hkept⟩

/-- If every statement finds room for its triples, every push succeeds and no
triple is lost. -/
theorem no_triple_lost (operations : List (Signal T)) (throws : Bool) (c : Thresholds)
    {s : FileParser T}
    (hreach : (wakingThreads c).ReachesUnder (System.onSteps RoomForStatement)
      (FileParser.start operations throws) s) :
    (∀ t, s.parsing = .insertPush t ∨ s.parsing = .insertQuietly t →
      s.queue.length < queueCapacity) ∧
    s.popped ++ s.queue = triplesOf s.executed := by
  have hinv : s.Lossless := by
    refine wakingUnder_invariant Lossless hreach (Lossless.start _ _) ?_ ?_ ?_
    · intro t t' hguard hstep hlossless
      exact hlossless.parsingStep hguard hstep
    · intro t t' _ hstep hlossless
      exact hlossless.mainStep hstep
    · intro thread t t' hstep hlossless
      exact hlossless.wakeStep hstep
  refine ⟨?_, hinv.kept⟩
  intro t hpush
  have hpending := hinv.pending t
  grind -linarith

theorem twoTriples_kept : ∃ s : FileParser Nat,
    (wakingThreads .default).ReachesUnder (System.onSteps RoomForStatement)
      (FileParser.start [.insertTriple 1, .insertTriple 2, .syncWithMainThread] false) s ∧
    (∀ t, s.parsing = .insertPush t ∨ s.parsing = .insertQuietly t →
      s.queue.length < queueCapacity) ∧
    s.popped ++ s.queue = triplesOf s.executed := by
  have hfollow : ∃ s, (threads .default).follow RoomForStatement (List.replicate 8 .parsing)
      (FileParser.start [.insertTriple 1, .insertTriple 2, .syncWithMainThread] false) =
      some s := ⟨_, rfl⟩
  obtain ⟨s, hs⟩ := hfollow
  have hreach := reachesUnder_waking (System.reaches_of_follow hs)
  exact ⟨s, hreach, no_triple_lost _ false .default hreach⟩

/-! ## Large statements

A parsing thread that is not interrupted pushes a whole statement, however large
it is. -/

/-- The queue never exceeds its capacity. -/
theorem queue_length_le {operations : List (Signal T)} {throws : Bool} {s : FileParser T}
    (hreach : (threads c).Reaches (FileParser.start operations throws) s) :
    s.queue.length ≤ queueCapacity := by
  refine reachesUnder_invariant (fun t => t.queue.length ≤ queueCapacity) hreach
    (Nat.zero_le _) ?_ ?_
  · intro t t' _ hstep hle
    unfold FileParser.parsingStep at hstep
    split at hstep
    all_goals grind -linarith
  · intro t t' _ hstep hle
    unfold FileParser.mainStep at hstep
    split at hstep
    all_goals grind -linarith

/-- With the flag raised, the parsing thread alone inserts one triple after the
other. -/
theorem inserts_alone (ts : List T) (rest : List (Signal T)) (s : FileParser T)
    (hplace : s.parsing = .next) (hflag : s.termsCountIsNotEmpty = true)
    (hoperations : s.operations = ts.map .insertTriple ++ rest) :
    ∃ s', (threads c).Reaches s s' ∧ s'.executed = s.executed ++ ts.map .insertTriple ∧
      s'.popped = s.popped := by
  induction ts generalizing s with
  | nil => exact ⟨s, System.Reaches.refl s, by simp, rfl⟩
  | cons t ts ih =>
      let s₁ : FileParser T :=
        { s with
          termsCountIsNotEmpty := true
          operations := ts.map .insertTriple ++ rest
          parsing := .insertQuietly t }
      let s₂ : FileParser T := { s₁.push t with parsing := .next }
      have h₁ : s.parsingStep c = some s₁ := by
        unfold FileParser.parsingStep nextCall
        simp only [hplace, hoperations, List.map_cons, List.cons_append, hflag, if_true]
        rfl
      have h₂ : s₁.parsingStep c = some s₂ := rfl
      obtain ⟨s', hreach, hexecuted, hpopped⟩ := ih s₂ rfl rfl rfl
      refine ⟨s', (reaches_parsing h₁).trans ((reaches_parsing h₂).trans hreach), ?_, hpopped⟩
      rw [hexecuted, List.map_cons]
      exact List.append_assoc _ [_] _

/-- A statement with more triples than the queue can hold loses some of them when
the main thread does not run meanwhile. -/
theorem large_statement_loses (c : Thresholds) (t : T) (ts : List T) (rest : List (Signal T))
    (throws : Bool) (hlarge : queueCapacity ≤ ts.length) :
    ∃ s, (threads c).Reaches
        (FileParser.start (.insertTriple t :: (ts.map .insertTriple ++ rest)) throws) s ∧
      s.popped ++ s.queue ≠ triplesOf s.executed := by
  -- the first insertion finds the flag lowered and raises it
  have hfirst : ∃ s, (threads c).follow (fun _ _ => True) (List.replicate 6 .parsing)
      (FileParser.start (.insertTriple t :: (ts.map .insertTriple ++ rest)) throws) = some s ∧
      s.parsing = .next ∧ s.termsCountIsNotEmpty = true ∧
      s.operations = ts.map .insertTriple ++ rest ∧ s.executed = [.insertTriple t] ∧
      s.popped = [] := ⟨_, rfl, rfl, rfl, rfl, rfl, rfl⟩
  obtain ⟨s₁, hs₁, hplace, hflag, hoperations, hexecuted₁, hpopped₁⟩ := hfirst
  obtain ⟨s, hreach, hexecuted, hpopped⟩ :=
    inserts_alone (c := c) ts rest s₁ hplace hflag hoperations
  have hall := (System.reaches_of_follow hs₁).reaches.trans hreach
  refine ⟨s, hall, ?_⟩
  intro hkept
  have hlength : (triplesOf s.executed).length = ts.length + 1 := by
    rw [hexecuted, hexecuted₁]
    unfold triplesOf
    rw [List.filterMap_append, Signal.filterMap_insertTriple]
    simp [Signal.triple?]
  rw [← hkept, hpopped, hpopped₁, List.nil_append] at hlength
  have hle := queue_length_le hall
  omega

/-- The statement `<s> <p> <o>, <o>, ... .` with one object more than the queue can
hold loses a triple under the default thresholds. -/
theorem default_thresholds_lose : ¬ ∀ (operations : List (Signal (Rdf.Triple false)))
    (throws : Bool) (c : Thresholds), c.Admitted →
    ∀ s, (threads c).Reaches (FileParser.start operations throws) s →
      s.popped ++ s.queue = triplesOf s.executed := by
  intro hclaim
  obtain ⟨s, hreach, hlost⟩ := large_statement_loses .default oneTriple
    (List.replicate queueCapacity oneTriple) [.syncWithMainThread, .setParsingIsDone] false
    (by rw [List.length_replicate])
  exact hlost (hclaim _ false .default (by decide) s hreach)

end FileParser

end RdfParser.Concurrent
