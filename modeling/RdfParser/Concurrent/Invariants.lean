/-
  Concurrent/Invariants.lean --- what holds in every interleaving of the two
  threads, whatever the thresholds are.
-/
import RdfParser.Concurrent.TurtleFileParser
import RdfParser.Turtle.Document

set_option autoImplicit false

namespace RdfParser.Concurrent

open RdfParser.Foundation RdfParser.Turtle

variable {T : Type} {c : Thresholds} {s s' : FileParser T}

/-! ## The mutexes

A thread owns a mutex exactly at the places between locking and unlocking it. -/

/-- The places where the parsing thread owns `m`. -/
def ParsingAt.ownsM : ParsingAt T → Bool
  | .syncStore | .syncTest | .syncBlock | .syncUnlock => true
  | _ => false

/-- The places where the parsing thread owns `m2`. -/
def ParsingAt.ownsM2 : ParsingAt T → Bool
  | .insertStore _ | .insertUnlock _ | .doneStore | .doneUnlock => true
  | _ => false

/-- The places where the main thread owns `m`. -/
def MainAt.ownsM : MainAt → Bool
  | .nextStore | .nextUnlock => true
  | _ => false

/-- The places where the main thread owns `m2`. -/
def MainAt.ownsM2 : MainAt → Bool
  | .hasNextStore | .hasNextTest | .hasNextBlock => true
  | .hasNextRecheck | .hasNextRedone | .hasNextReturn _ => true
  | _ => false

attribute [grind =] ParsingAt.ownsM ParsingAt.ownsM2 MainAt.ownsM MainAt.ownsM2
attribute [grind =] FileParser.nextCall FileParser.push FileParser.pop
attribute [grind =] FileParser.notifyMain FileParser.notifyParsing

namespace FileParser

/-- The mutexes belong to the threads that are at places that own them. -/
structure Exclusive (s : FileParser T) : Prop where
  mParsing : s.m = some .parsing ↔ s.parsing.ownsM = true
  mMain : s.m = some .main ↔ s.main.ownsM = true
  m2Parsing : s.m2 = some .parsing ↔ s.parsing.ownsM2 = true
  m2Main : s.m2 = some .main ↔ s.main.ownsM2 = true

theorem Exclusive.start (operations : List (Signal T)) (throws : Bool) :
    (start operations throws).Exclusive := by
  constructor <;> simp [FileParser.start, ParsingAt.ownsM, ParsingAt.ownsM2, MainAt.ownsM,
    MainAt.ownsM2]

theorem Exclusive.parsingStep (h : s.parsingStep c = some s') (hinv : s.Exclusive) :
    s'.Exclusive := by
  obtain ⟨hmParsing, hmMain, hm2Parsing, hm2Main⟩ := hinv
  unfold FileParser.parsingStep at h
  split at h
  all_goals
    rename_i hplace
    rw [hplace] at hmParsing hm2Parsing
    constructor <;> grind -linarith

theorem Exclusive.mainStep (h : s.mainStep c = some s') (hinv : s.Exclusive) :
    s'.Exclusive := by
  obtain ⟨hmParsing, hmMain, hm2Parsing, hm2Main⟩ := hinv
  unfold FileParser.mainStep at h
  split at h
  all_goals
    rename_i hplace
    rw [hplace] at hmMain hm2Main
    constructor <;> grind -linarith

theorem Exclusive.wakeStep {thread : Thread} (h : s.wakeStep thread = some s')
    (hinv : s.Exclusive) : s'.Exclusive := by
  obtain ⟨hmParsing, hmMain, hm2Parsing, hm2Main⟩ := hinv
  rcases wakeStep_cases h with ⟨hwait, rfl⟩ | ⟨hwait, rfl⟩
  · rw [hwait] at hmParsing hm2Parsing
    exact ⟨hmParsing, hmMain, hm2Parsing, hm2Main⟩
  · rw [hwait] at hmMain hm2Main
    exact ⟨hmParsing, hmMain, hm2Parsing, hm2Main⟩

theorem unowned {owner : Option Thread} (hparsing : owner ≠ some .parsing)
    (hmain : owner ≠ some .main) : owner = none := by
  cases owner with
  | none => rfl
  | some thread =>
      cases thread with
      | parsing => exact absurd rfl hparsing
      | main => exact absurd rfl hmain

/-- A mutex that neither thread is at a place to own is free. -/
theorem Exclusive.m_free (h : s.Exclusive) (hparsing : s.parsing.ownsM = false)
    (hmain : s.main.ownsM = false) : s.m = none := by
  refine unowned ?_ ?_
  · intro howned
    exact absurd (h.mParsing.mp howned) (by simp [hparsing])
  · intro howned
    exact absurd (h.mMain.mp howned) (by simp [hmain])

theorem Exclusive.m2_free (h : s.Exclusive) (hparsing : s.parsing.ownsM2 = false)
    (hmain : s.main.ownsM2 = false) : s.m2 = none := by
  refine unowned ?_ ?_
  · intro howned
    exact absurd (h.m2Parsing.mp howned) (by simp [hparsing])
  · intro howned
    exact absurd (h.m2Main.mp howned) (by simp [hmain])

/-! ## The calls of a parse -/

/-- Nothing is called after `setParsingIsDone`. -/
def doneIsLast : List (Signal T) → Bool
  | [] => true
  | .setParsingIsDone :: operations => operations.isEmpty
  | _ :: operations => doneIsLast operations

/-- Once the done flag is about to be raised, the parse has no call left. -/
structure Closing (s : FileParser T) : Prop where
  calls : doneIsLast s.operations = true
  closing : s.parsing = .doneLock ∨ s.parsing = .doneStore ∨ s.parsing = .doneUnlock ∨
    s.parsing = .doneNotify ∨ s.parsing = .doneFlag → s.operations = []
  done : s.parsingIsDone = true → s.operations = [] ∧
    (s.parsing = .next ∨ s.parsing = .finished ∨ s.parsing = .terminated)
  ended : s.parsing = .finished ∨ s.parsing = .terminated → s.operations = []

attribute [grind =] doneIsLast

theorem doneIsLast_of_notMem {operations : List (Signal T)}
    (h : .setParsingIsDone ∉ operations) : doneIsLast operations = true := by
  induction operations with
  | nil => rfl
  | cons operation operations ih =>
      rw [List.mem_cons, not_or] at h
      have hrest : doneIsLast operations = true := ih h.2
      cases operation with
      | insertTriple t => exact hrest
      | syncWithMainThread => exact hrest
      | setParsingIsDone => exact absurd rfl h.1

theorem doneIsLast_append_done {operations : List (Signal T)}
    (h : .setParsingIsDone ∉ operations) :
    doneIsLast (operations ++ [.setParsingIsDone]) = true := by
  induction operations with
  | nil => rfl
  | cons operation operations ih =>
      rw [List.mem_cons, not_or] at h
      have hrest : doneIsLast (operations ++ [.setParsingIsDone]) = true := ih h.2
      cases operation with
      | insertTriple t => exact hrest
      | syncWithMainThread => exact hrest
      | setParsingIsDone => exact absurd rfl h.1

theorem Closing.start {operations : List (Signal T)} (throws : Bool)
    (h : doneIsLast operations = true) : (start operations throws).Closing :=
  ⟨h, by simp [FileParser.start], by simp [FileParser.start], by simp [FileParser.start]⟩

theorem Closing.parsingStep (h : s.parsingStep c = some s') (hinv : s.Closing) : s'.Closing := by
  obtain ⟨hcalls, hclosing, hdone, hended⟩ := hinv
  unfold FileParser.parsingStep at h
  split at h
  all_goals
    rename_i hplace
    rw [hplace] at hclosing hdone hended
    constructor <;> grind -linarith

theorem Closing.mainStep (h : s.mainStep c = some s') (hinv : s.Closing) : s'.Closing := by
  have hframe := mainStep_frame h
  obtain ⟨hcalls, hclosing, hdone, hended⟩ := hinv
  rw [← hframe.operations] at hcalls hclosing hdone hended
  rw [← hframe.parsingIsDone] at hdone
  rcases hframe.parsing with hsame | ⟨hwait, hwoken⟩
  · rw [← hsame] at hclosing hdone hended
    exact ⟨hcalls, hclosing, hdone, hended⟩
  · -- a throttled parsing thread is woken
    rw [hwait] at hdone
    refine ⟨hcalls, by simp [hwoken], ?_, by simp [hwoken]⟩
    intro hraised
    exact absurd (hdone hraised).2 (by simp)

theorem Closing.wakeStep {thread : Thread} (h : s.wakeStep thread = some s')
    (hinv : s.Closing) : s'.Closing := by
  obtain ⟨hcalls, hclosing, hdone, hended⟩ := hinv
  rcases wakeStep_cases h with ⟨hwait, rfl⟩ | ⟨-, rfl⟩
  · rw [hwait] at hdone
    refine ⟨hcalls, by simp, ?_, by simp⟩
    intro hraised
    exact absurd (hdone hraised).2 (by simp)
  · exact ⟨hcalls, hclosing, hdone, hended⟩

/-! ## The end of the parsing thread -/

theorem parsingStep_throws (h : s.parsingStep c = some s') :
    s'.throws = s.throws ∧ (s'.parsing = .terminated → s.throws = true) := by
  unfold FileParser.parsingStep at h
  split at h
  all_goals grind -linarith

theorem mainStep_throws (h : s.mainStep c = some s') :
    s'.throws = s.throws ∧ (s'.parsing = .terminated → s.parsing = .terminated) := by
  have hframe := mainStep_frame h
  refine ⟨hframe.throws, fun hterminated => ?_⟩
  rw [← hframe.parsing_eq (by simp [hterminated]), hterminated]

/-! ## Documents -/

/-- The file parser whose parsing thread makes the calls of the given parse, and ends as
the parse does. -/
def ofParse (p : Parse false) : FileParser (Rdf.Triple false) :=
  start p.final.signals (decide p.throws)

/-- The calls of a document end with `setParsingIsDone`, if it is called at all. -/
theorem Closing.ofParse {prefixMap : PrefixMap} {document : Bytes} {p : Parse false}
    (h : Parses prefixMap document p) : (ofParse p).Closing := by
  refine Closing.start (decide p.throws) ?_
  rcases h.signals with ⟨-, calls, hnone, hsignals⟩ | ⟨-, hnone⟩
  · rw [hsignals]
    exact doneIsLast_append_done hnone
  · exact doneIsLast_of_notMem hnone

/-- `<s> <p> <o> .` -/
def oneTripleDocument : Bytes := bytes "<s> <p> <o> ."

/-- The triple of `oneTripleDocument`. -/
def oneTriple : Rdf.Triple false :=
  ⟨Rdf.uriRef (bytes "s"), Rdf.uriRef (bytes "p"), Rdf.uriRef (bytes "o")⟩

theorem oneTripleDocument_parse : ∃ p : Parse false, Parses [] oneTripleDocument p ∧
    ¬ p.throws ∧
    ofParse p = start [.insertTriple oneTriple, .syncWithMainThread, .setParsingIsDone] false := by
  have hcomputed : (parseWithin (q := false) 60 [] oneTripleDocument).map
      (fun p => (decide p.throws, p.final.signals)) =
      some (false, [.insertTriple oneTriple, .syncWithMainThread, .setParsingIsDone]) := by
    decide +kernel
  obtain ⟨p, hp, hthrows, hsignals⟩ := parseWithin_signals hcomputed
  refine ⟨p, hp, of_decide_eq_false hthrows, ?_⟩
  unfold ofParse
  rw [hthrows, hsignals]

end FileParser

end RdfParser.Concurrent
