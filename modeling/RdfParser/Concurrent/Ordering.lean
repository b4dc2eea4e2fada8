/-
  Concurrent/Ordering.lean --- what the main thread gets in any interleaving.

  The parsing thread makes the calls of its parse one after the other, and the queue keeps
  their order.  So whatever the threads do, the main thread gets triples of the parse in
  their order and none of them twice; a full queue is the only way to lose one.
-/
import RdfParser.Concurrent.Overflow

set_option autoImplicit false

namespace RdfParser.Concurrent

open RdfParser.Foundation RdfParser.Turtle

variable {T : Type} {c : Thresholds} {s s' : FileParser T} {operations : List (Signal T)}

/-- The call the parsing thread is in the middle of, as long as it is not recorded. -/
def ParsingAt.pending : ParsingAt T → List (Signal T)
  | .insertLock t | .insertStore t | .insertUnlock t | .insertPush t | .insertQuietly t =>
      [.insertTriple t]
  | .syncLock | .syncStore | .syncTest | .syncBlock | .syncWait | .syncRelock | .syncUnlock =>
      [.syncWithMainThread]
  | .doneLock | .doneStore | .doneUnlock | .doneNotify | .doneFlag => [.setParsingIsDone]
  | .next | .insertNotify | .finished | .terminated => []

attribute [grind =] ParsingAt.pending

namespace FileParser

/-! ## The calls -/

/-- The calls that were made, the one that is being made and those to come. -/
def Recorded (operations : List (Signal T)) (s : FileParser T) : Prop :=
  s.executed ++ (s.parsing.pending ++ s.operations) = operations

theorem Recorded.start (operations : List (Signal T)) (throws : Bool) :
    (start operations throws).Recorded operations := rfl

theorem Recorded.parsingStep (h : s.parsingStep c = some s') (hinv : s.Recorded operations) :
    s'.Recorded operations := by
  unfold FileParser.parsingStep at h
  split at h
  all_goals
    rename_i hplace
    unfold Recorded at hinv ⊢
    rw [hplace] at hinv
    grind -linarith

theorem Recorded.mainStep (h : s.mainStep c = some s') (hinv : s.Recorded operations) :
    s'.Recorded operations := by
  have hframe := mainStep_frame h
  unfold Recorded at hinv ⊢
  rw [hframe.executed, hframe.operations, ← hinv]
  rcases hframe.parsing with hsame | ⟨hwait, hwoken⟩
  · rw [hsame]
  · rw [hwait, hwoken]
    rfl

theorem Recorded.wakeStep {thread : Thread} (h : s.wakeStep thread = some s')
    (hinv : s.Recorded operations) : s'.Recorded operations := by
  unfold Recorded at hinv ⊢
  rcases wakeStep_cases h with ⟨hwait, rfl⟩ | ⟨-, rfl⟩
  · rw [hwait] at hinv
    exact hinv
  · exact hinv

theorem Recorded.executed_prefix (h : s.Recorded operations) : s.executed <+: operations := by
  unfold Recorded at h
  exact ⟨_, h⟩

theorem triplesOf_append (left right : List (Signal T)) :
    triplesOf (left ++ right) = triplesOf left ++ triplesOf right := by
  simp [triplesOf]

/-- While a triple is being inserted, the parse has more triples than were inserted. -/
theorem Recorded.inserting {t : T} (h : s.Recorded operations)
    (hplace : s.parsing.pending = [.insertTriple t]) :
    (triplesOf s.executed).length < (triplesOf operations).length := by
  unfold Recorded at h
  have htriples : triplesOf operations =
      triplesOf s.executed ++ (t :: triplesOf s.operations) := by
    rw [← h, hplace, triplesOf_append, triplesOf_append]
    simp [triplesOf, Signal.triple?]
  rw [htriples, List.length_append, List.length_cons]
  omega

/-! ## The triples -/

/-- The main thread takes a triple only from a queue that has one. -/
def Fed (s : FileParser T) : Prop :=
  s.main = .nextPop ∨ s.main = .hasNextReturn true → s.queue ≠ []

theorem Fed.parsingStep (h : s.parsingStep c = some s') (hinv : s.Fed) : s'.Fed := by
  have hframe := parsingStep_frame h
  intro hplace
  have hsame : s'.main = s.main := by
    refine hframe.main_eq fun hwoken => ?_
    simp [hwoken] at hplace
  rw [hsame] at hplace
  exact hframe.queue (hinv hplace)

theorem Fed.mainStep (h : s.mainStep c = some s') (hinv : s.Fed) : s'.Fed := by
  unfold Fed at hinv ⊢
  unfold FileParser.mainStep at h
  split at h
  all_goals
    rename_i hplace
    rw [hplace] at hinv
    grind -linarith

theorem Fed.wakeStep {thread : Thread} (h : s.wakeStep thread = some s') (hinv : s.Fed) :
    s'.Fed := by
  rcases wakeStep_cases h with ⟨-, rfl⟩ | ⟨-, rfl⟩
  · exact hinv
  · simp [Fed]

/-- The queues, the triples taken and the triples inserted are the same in both states. -/
structure SameTriples (s s' : FileParser T) : Prop where
  popped : s'.popped = s.popped
  queue : s'.queue = s.queue
  inserted : triplesOf s'.executed = triplesOf s.executed

theorem nextCall_triples (c : Thresholds) (s : FileParser T) : SameTriples s (s.nextCall c) := by
  unfold nextCall
  split
  · exact ⟨rfl, rfl, rfl⟩
  · exact ⟨rfl, rfl, rfl⟩
  · split
    · exact ⟨rfl, rfl, rfl⟩
    · exact ⟨rfl, rfl, triplesOf_syncWithMainThread s.executed⟩
  · exact ⟨rfl, rfl, rfl⟩

theorem wakeStep_triples {thread : Thread} (h : s.wakeStep thread = some s') :
    SameTriples s s' := by
  rcases wakeStep_cases h with ⟨-, rfl⟩ | ⟨-, rfl⟩ <;> exact ⟨rfl, rfl, rfl⟩

theorem notifyMain_triples (s : FileParser T) (parsing : ParsingAt T) :
    SameTriples s { s.notifyMain with parsing := parsing } := by
  unfold notifyMain
  split <;> exact ⟨rfl, rfl, rfl⟩

/-- The parsing thread pushes the triple of its call, or touches no triple. -/
theorem parsingStep_triples (h : s.parsingStep c = some s') :
    (∃ t, s.parsing.pending = [.insertTriple t] ∧ SameTriples (s.push t) s') ∨
      SameTriples s s' := by
  unfold FileParser.parsingStep at h
  split at h
  all_goals rename_i hplace
  all_goals try split at h
  all_goals try cases h
  all_goals first
    | exact .inl ⟨_, by rw [hplace]; rfl, rfl, rfl, rfl⟩
    | exact .inr (nextCall_triples c s)
    | exact .inr (notifyMain_triples s _)
    | exact .inr ⟨rfl, rfl, triplesOf_syncWithMainThread s.executed⟩
    | exact .inr ⟨rfl, rfl, triplesOf_setParsingIsDone s.executed⟩
    | exact .inr ⟨rfl, rfl, rfl⟩

/-- What was taken and what is queued are inserted triples, in their order. -/
def Ordered (s : FileParser T) : Prop := (s.popped ++ s.queue).Sublist (triplesOf s.executed)

theorem Ordered.congr (hinv : s.Ordered) (hsame : SameTriples s s') : s'.Ordered := by
  unfold Ordered
  rw [hsame.popped, hsame.queue, hsame.inserted]
  exact hinv

/-- A push that finds no room only makes the list of the inserted triples longer. -/
theorem Ordered.push (hinv : s.Ordered) (t : T) : (s.push t).Ordered := by
  unfold Ordered FileParser.push at *
  simp only [triplesOf_insertTriple]
  split
  · rw [← List.append_assoc]
    exact hinv.append (List.Sublist.refl [t])
  · exact hinv.trans (List.sublist_append_left _ _)

theorem Ordered.parsingStep (h : s.parsingStep c = some s') (hinv : s.Ordered) : s'.Ordered := by
  rcases parsingStep_triples h with ⟨t, -, hsame⟩ | hsame
  · exact (hinv.push t).congr hsame
  · exact hinv.congr hsame

theorem Ordered.mainStep (h : s.mainStep c = some s') (hinv : s.Ordered) : s'.Ordered := by
  have hframe := mainStep_frame h
  unfold Ordered
  rw [hframe.triples, hframe.executed]
  exact hinv

/-- Nothing was lost. -/
def Kept (s : FileParser T) : Prop := s.popped ++ s.queue = triplesOf s.executed

theorem Kept.congr (hinv : s.Kept) (hsame : SameTriples s s') : s'.Kept := by
  unfold Kept
  rw [hsame.popped, hsame.queue, hsame.inserted]
  exact hinv

/-- As long as all triples of the parse fit into the queue, every push finds room. -/
theorem Kept.parsingStep (h : s.parsingStep c = some s') (hrecorded : s.Recorded operations)
    (hfits : (triplesOf operations).length ≤ queueCapacity) (hinv : s.Kept) : s'.Kept := by
  rcases parsingStep_triples h with ⟨t, hplace, hsame⟩ | hsame
  · have hshort := hrecorded.inserting hplace
    unfold Kept at *
    have hroom : s.queue.length < queueCapacity := by
      have hlength := congrArg List.length hinv
      rw [List.length_append] at hlength
      omega
    rw [hsame.popped, hsame.queue, hsame.inserted]
    simp only [FileParser.push, hroom, if_true, triplesOf_insertTriple, ← hinv, List.append_assoc]
  · exact hinv.congr hsame

theorem Kept.mainStep (h : s.mainStep c = some s') (hinv : s.Kept) : s'.Kept := by
  have hframe := mainStep_frame h
  unfold Kept
  rw [hframe.triples, hframe.executed]
  exact hinv

/-! ## Every interleaving -/

/-- In every interleaving the calls are made in their order, the main thread takes triples
that were inserted, in their order, each at most once and only when there is one; and
nothing is lost if all triples of the parse fit into the queue. -/
theorem order_kept (operations : List (Signal T)) (throws : Bool) (c : Thresholds)
    {s : FileParser T}
    (hreach : (wakingThreads c).Reaches (FileParser.start operations throws) s) :
    s.executed <+: operations ∧ (s.popped ++ s.queue).Sublist (triplesOf s.executed) ∧
      (s.main = .nextPop → s.queue ≠ []) ∧
      ((triplesOf operations).length ≤ queueCapacity →
        s.popped ++ s.queue = triplesOf s.executed) := by
  have hrun := hreach.onSteps
  have hinv : s.Recorded operations ∧ s.Fed ∧ s.Ordered := by
    refine wakingUnder_invariant (fun t => t.Recorded operations ∧ t.Fed ∧ t.Ordered) hrun
      ⟨rfl, by simp [Fed, FileParser.start], List.Sublist.refl []⟩ ?_ ?_ ?_
    · rintro t t' - hstep ⟨hrecorded, hfed, hordered⟩
      exact ⟨hrecorded.parsingStep hstep, hfed.parsingStep hstep, hordered.parsingStep hstep⟩
    · rintro t t' - hstep ⟨hrecorded, hfed, hordered⟩
      exact ⟨hrecorded.mainStep hstep, hfed.mainStep hstep, hordered.mainStep hstep⟩
    · rintro thread t t' hstep ⟨hrecorded, hfed, hordered⟩
      exact ⟨hrecorded.wakeStep hstep, hfed.wakeStep hstep,
        hordered.congr (wakeStep_triples hstep)⟩
  obtain ⟨hrecorded, hfed, hordered⟩ := hinv
  refine ⟨hrecorded.executed_prefix, hordered, fun hplace => hfed (.inl hplace), fun hfits => ?_⟩
  have hkept : s.Recorded operations ∧ s.Kept := by
    refine wakingUnder_invariant (fun t => t.Recorded operations ∧ t.Kept) hrun
      ⟨rfl, rfl⟩ ?_ ?_ ?_
    · rintro t t' - hstep ⟨hrecorded, hkept⟩
      exact ⟨hrecorded.parsingStep hstep, hkept.parsingStep hstep hrecorded hfits⟩
    · rintro t t' - hstep ⟨hrecorded, hkept⟩
      exact ⟨hrecorded.mainStep hstep, hkept.mainStep hstep⟩
    · rintro thread t t' hstep ⟨hrecorded, hkept⟩
      exact ⟨hrecorded.wakeStep hstep, hkept.congr (wakeStep_triples hstep)⟩
  exact hkept.2

/-- The main thread takes the first of two triples while the second is being inserted. -/
def interleavedSchedule : List Thread :=
  List.replicate 5 .parsing ++ List.replicate 2 .main ++ List.replicate 2 .parsing

theorem interleaved_ordered : ∃ s : FileParser Nat,
    (wakingThreads .default).Reaches
      (FileParser.start [.insertTriple 1, .insertTriple 2, .syncWithMainThread] false) s ∧
    s.popped = [1] ∧ s.queue = [] ∧
    s.executed <+: [.insertTriple 1, .insertTriple 2, .syncWithMainThread] ∧
    (s.popped ++ s.queue).Sublist (triplesOf s.executed) ∧
    (s.main = .nextPop → s.queue ≠ []) ∧
    ((triplesOf [Signal.insertTriple 1, .insertTriple 2, .syncWithMainThread]).length ≤
        queueCapacity →
      s.popped ++ s.queue = triplesOf s.executed) := by
  have hfollow : ∃ s, (threads .default).follow (fun _ _ => True) interleavedSchedule
      (FileParser.start [.insertTriple 1, .insertTriple 2, .syncWithMainThread] false) =
      some s ∧ s.popped = [1] ∧ s.queue = [] := ⟨_, rfl, rfl, rfl⟩
  obtain ⟨s, hs, hpopped, hqueue⟩ := hfollow
  have hreach := (reachesUnder_waking (System.reaches_of_follow hs)).reaches
  exact ⟨s, hreach, hpopped, hqueue, order_kept _ false .default hreach⟩

end FileParser

end RdfParser.Concurrent
