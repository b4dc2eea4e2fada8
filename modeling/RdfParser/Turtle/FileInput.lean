/-
  Turtle/FileInput.lean --- matching a file as it is read.

  Source: `TurtleFileParser.hpp`, and the actions of `directive` and `tripleExtended` in
  `internal/Turtle/Actions/BasicActions.hpp`, which are `discard_input`.

  The file parser reads through a buffer that is discarded after every attempt at
  `tripleExtended` or `directive`, while the rules around them still hold the places
  where they began.  A statement that matches does not go back to its place; so only the
  last attempt at a statement, which fails, can go back to one that has moved.
-/
import RdfParser.Peg.Stream
import RdfParser.Turtle.Essence
import RdfParser.Turtle.Totality

set_option autoImplicit false

namespace RdfParser.Turtle

open RdfParser.Foundation RdfParser.Rdf RdfParser.Peg

/-- The rules whose action is `discard_input`. -/
def discarding : RuleName → Bool
  | .directive | .tripleExtended _ => true
  | _ => false

/-- `RdfConcurrentStreamParser_BufferSize`. -/
def bufferSize : Nat := 1024 * 1024 * 128

/-- `istream_input` on a document that is shorter than the buffer, with chunks of 64
bytes. -/
def fileInput (document : Bytes) : Buffering RuleName where
  document := document
  saves := acts
  discards := discarding
  chunk := 64

/-- After some statements, the place where no further statement matches: after its layout
the statement has been tried in vain. -/
inductive Stops : Bytes → Bytes → Prop where
  | here {input stop : Bytes} {t t' : Trace RuleName}
      (hignored : Run turtle (.ref .ignored) input (.ok stop) t)
      (hstatement : Run turtle (.ref .statement) stop .fail t') : Stops input stop
  | next {input middle rest stop : Bytes} {t t' : Trace RuleName}
      (hignored : Run turtle (.ref .ignored) input (.ok middle) t)
      (hstatement : Run turtle (.ref .statement) middle (.ok rest) t')
      (h : Stops rest stop) : Stops input stop

theorem Stops.suffix {input stop : Bytes} (h : Stops input stop) : stop <:+ input := by
  induction h with
  | here hignored _ => exact hignored.suffix.imp fun _ h => h.symm
  | next hignored hstatement _ ih =>
      have h₁ := hignored.suffix.imp fun _ h => h.symm
      have h₂ := hstatement.suffix.imp fun _ h => h.symm
      exact ih.trans (List.IsSuffix.trans h₂ h₁)

/-- There is exactly one such place. -/
theorem Stops.unique {input stop stop' : Bytes} (h : Stops input stop) (h' : Stops input stop') :
    stop = stop' := by
  induction h with
  | here hignored hstatement =>
      cases h' with
      | here hignored' _ => exact Outcome.ok.inj (hignored.deterministic hignored').1
      | next hignored' hstatement' _ =>
          obtain rfl := Outcome.ok.inj (hignored.deterministic hignored').1
          cases (hstatement.deterministic hstatement').1
  | next hignored hstatement _ ih =>
      cases h' with
      | here hignored' hstatement' =>
          obtain rfl := Outcome.ok.inj (hignored.deterministic hignored').1
          cases (hstatement.deterministic hstatement').1
      | next hignored' hstatement' h' =>
          obtain rfl := Outcome.ok.inj (hignored.deterministic hignored').1
          obtain rfl := Outcome.ok.inj (hstatement.deterministic hstatement').1
          exact ih h'

/-- Every document has such a place. -/
theorem stops_exists (input : Bytes) : ∃ stop, Stops input stop := by
  induction hlength : input.length using Nat.strong_induction_on generalizing input with
  | _ length ih =>
      obtain ⟨middle, _, hignored⟩ := ignored_matches input
      obtain ⟨outcome, _, hstatement⟩ := matching_ends .statement middle
      cases outcome with
      | error => exact absurd rfl (matching_never_errors (by simp) hstatement)
      | fail => exact ⟨middle, .here hignored hstatement⟩
      | ok rest =>
          have hshorter := hstatement.consumes consuming_closed rfl
          obtain ⟨text, rfl⟩ := hignored.suffix
          rw [List.length_append] at hlength
          obtain ⟨stop, hstops⟩ := ih rest.length (by omega) rest rfl
          exact ⟨stop, .next hignored hstatement hstops⟩

/-! ## Rules without a discard -/

/-- The rules in which nothing is discarded. -/
def undisturbed : RuleName → Bool
  | .directive | .tripleExtended _ | .statement | .turtleDoc | .triplesBlock | .grammar _ => false
  | _ => true

theorem undisturbed_closed (name : RuleName) (h : undisturbed name = true) :
    ∀ other ∈ (turtle name).names, undisturbed other = true := by
  cases name
  all_goals first
    | decide
    | exact absurd h Bool.false_ne_true
    | rename_i sparqlQuery
      cases sparqlQuery <;> decide

theorem undisturbed_quiet {document : Bytes} (name : RuleName) (h : undisturbed name = true) :
    (fileInput document).discards name = false := by
  cases name <;> first | rfl | exact absurd h Bool.false_ne_true

/-- What such a rule consists of discards nothing, and it has no action. -/
theorem discarding_body {name : RuleName} (h : discarding name = true) :
    (∀ other ∈ (turtle name).names, undisturbed other = true) ∧ acts name = false := by
  cases name
  case directive => exact ⟨by decide, rfl⟩
  case tripleExtended q => exact ⟨by cases q <;> decide, rfl⟩
  all_goals exact absurd h Bool.false_ne_true

/-! ## Where the buffer begins -/

/-- The place in the document that has been reached. -/
abbrev reached (document input : Bytes) : Nat := (fileInput document).offset input

/-- Matching a statement, with the beginning of the buffer before and after it: an attempt at
a triple is followed by a discard whether it succeeds or not. -/
inductive Passes (document : Bytes) : Nat → Bytes → Nat → Bytes → Prop where
  | triple {start : Nat} {input rest : Bytes} {t : Trace RuleName}
      (h : Run turtle (.ref (.tripleExtended false)) input (.ok rest) t) :
      Passes document start input ((fileInput document).discard start rest) rest
  | directive {start : Nat} {input rest : Bytes} {t t' : Trace RuleName}
      (htriple : Run turtle (.ref (.tripleExtended false)) input .fail t)
      (h : Run turtle (.ref .directive) input (.ok rest) t') :
      Passes document start input
        ((fileInput document).discard ((fileInput document).discard start input) rest) rest

/-- As `Stops`, with the beginning of the buffer at first and where the statements stop. -/
inductive StopsAt (document : Bytes) : Nat → Bytes → Nat → Bytes → Prop where
  | here {start : Nat} {input stop : Bytes} {t t' : Trace RuleName}
      (hignored : Run turtle (.ref .ignored) input (.ok stop) t)
      (hstatement : Run turtle (.ref .statement) stop .fail t') :
      StopsAt document start input start stop
  | next {start start' final : Nat} {input middle rest stop : Bytes} {t : Trace RuleName}
      (hignored : Run turtle (.ref .ignored) input (.ok middle) t)
      (hpasses : Passes document start middle start' rest)
      (h : StopsAt document start' rest final stop) : StopsAt document start input final stop

section Matching

variable {document input rest : Bytes} {start start' : Nat}

theorem reached_le {stop : Bytes} (h : stop <:+ input) : reached document input ≤
    reached document stop := by
  have hlength := h.length_le
  unfold reached Buffering.offset
  omega

theorem reached_le_iff {stop : Bytes} {bound : Nat} :
    reached document stop ≤ bound ↔ document.length ≤ stop.length + bound := by
  unfold reached Buffering.offset fileInput
  simp only
  omega

theorem Passes.statement (h : Passes document start input start' rest) :
    ∃ t, Run turtle (.ref .statement) input (.ok rest) t := by
  cases h with
  | triple h => exact ⟨_, .ref (.sorStop h (by simp))⟩
  | directive htriple h => exact ⟨_, .ref (.sorNext htriple h)⟩

theorem passes_of_statement {t : Trace RuleName} (start : Nat)
    (h : Run turtle (.ref .statement) input (.ok rest) t) :
    ∃ start', Passes document start input start' rest := by
  obtain ⟨_, hbody, -⟩ := h.ref_ok
  rcases hbody.sor_ok with htriple | ⟨_, _, htriple, hdirective, -⟩
  · exact ⟨_, .triple htriple⟩
  · exact ⟨_, .directive htriple hdirective⟩

/-- A statement is not empty. -/
theorem statement_nonempty {t : Trace RuleName}
    (h : Run turtle (.ref .statement) input (.ok rest) t) :
    ∃ text, text ≠ [] ∧ input = text ++ rest := by
  obtain ⟨text, rfl⟩ := h.suffix
  have hshorter := h.consumes consuming_closed rfl
  refine ⟨text, ?_, rfl⟩
  rintro rfl
  simp at hshorter

/-- The buffer moves forward, at most to the end of the statement, and the statement ends
within a chunk from where it has moved. -/
theorem Passes.bounds (h : Passes document start input start' rest)
    (hinput : input <:+ document) (hstart : start ≤ reached document input) :
    rest <:+ document ∧ start ≤ start' ∧ start' ≤ reached document rest ∧
      reached document rest ≤ start' + 64 := by
  obtain ⟨_, hrun⟩ := h.statement
  obtain ⟨hrest, hle⟩ := hrun.offset_le (b := fileInput document) hinput
  have hwithin : ∀ first, first ≤ reached document rest →
      first ≤ (fileInput document).discard first rest ∧
        (fileInput document).discard first rest ≤ reached document rest ∧
        reached document rest ≤ (fileInput document).discard first rest + 64 :=
    fun first hfirst => ⟨Buffering.le_discard _ _ _, Buffering.discard_le_offset hfirst,
      Buffering.offset_le_discard _ _ _⟩
  cases h with
  | triple _ => exact ⟨hrest, hwithin start (hstart.trans hle)⟩
  | directive _ _ =>
      have hfirst := Buffering.le_discard (fileInput document) start input
      have hsecond := Buffering.discard_le_offset (b := fileInput document) hstart
      obtain ⟨h₁, h₂, h₃⟩ := hwithin _ (hsecond.trans hle)
      exact ⟨hrest, hfirst.trans h₁, h₂, h₃⟩

theorem StopsAt.stops {final : Nat} {stop : Bytes} (h : StopsAt document start input final stop) :
    Stops input stop := by
  induction h with
  | here hignored hstatement => exact .here hignored hstatement
  | next hignored hpasses _ ih =>
      obtain ⟨_, hstatement⟩ := hpasses.statement
      exact .next hignored hstatement ih

theorem Stops.stopsAt {stop : Bytes} (h : Stops input stop) (start : Nat) :
    ∃ final, StopsAt document start input final stop := by
  induction h generalizing start with
  | here hignored hstatement => exact ⟨start, .here hignored hstatement⟩
  | next hignored hstatement _ ih =>
      obtain ⟨start', hpasses⟩ := passes_of_statement start hstatement
      obtain ⟨final, hstops⟩ := ih start'
      exact ⟨final, .next hignored hpasses hstops⟩

/-- The buffer only moves forward, and stays where it is if the statements stop within a
chunk. -/
theorem StopsAt.bounds {final : Nat} {stop : Bytes}
    (h : StopsAt document start input final stop) (hinput : input <:+ document)
    (hstart : start ≤ reached document input) :
    start ≤ final ∧ (reached document stop ≤ start + 64 → final = start) := by
  induction h with
  | here _ _ => exact ⟨le_rfl, fun _ => rfl⟩
  | @next start start' _ _ middle rest stop _ hignored hpasses hstops ih =>
      obtain ⟨hmiddle, hle⟩ := hignored.offset_le (b := fileInput document) hinput
      obtain ⟨hrest, hforward, hreached, -⟩ := hpasses.bounds hmiddle (hstart.trans hle)
      obtain ⟨hfinal, hsame⟩ := ih hrest hreached
      refine ⟨hforward.trans hfinal, fun hbound => ?_⟩
      obtain ⟨_, hstatement⟩ := hpasses.statement
      obtain ⟨-, hle'⟩ := hstatement.offset_le (b := fileInput document) hmiddle
      have hend : reached document rest ≤ start + 64 :=
        (reached_le hstops.stops.suffix).trans hbound
      have hstay : (fileInput document).discard start rest = start :=
        Buffering.discard_of_le hend
      have hstay' : (fileInput document).discard start middle = start :=
        Buffering.discard_of_le (hle'.trans hend)
      have hkept : start' = start := by
        cases hpasses with
        | triple _ => exact hstay
        | directive _ _ => rw [hstay', hstay]
      subst hkept
      exact hsame hbound

/-! ## What the actions are given -/

/-- Actions that are given the texts they read; and that are all given the texts their rules
have matched exactly if the buffer has stayed where it was. -/
structure Informed (start start' : Nat) (calls : List (Call RuleName)) : Prop where
  read : ∀ call ∈ calls, readsText call.name = true → call.seen = some call.text
  all : Faithful calls ↔ start' = start

theorem Informed.of_faithful {calls : List (Call RuleName)} (h : Faithful calls) (start : Nat) :
    Informed start start calls :=
  ⟨fun call hcall _ => h call hcall, fun _ => rfl, fun _ => h⟩

theorem Informed.append {start₁ start₂ : Nat} {calls₁ calls₂ : List (Call RuleName)}
    (h₁ : Informed start start₁ calls₁) (h₂ : Informed start₁ start₂ calls₂)
    (hle₁ : start ≤ start₁) (hle₂ : start₁ ≤ start₂) :
    Informed start start₂ (calls₁ ++ calls₂) := by
  refine ⟨fun call hcall hreads => ?_, fun hfaithful => ?_, fun hsame => ?_⟩
  · rcases List.mem_append.mp hcall with hcall | hcall
    · exact h₁.read call hcall hreads
    · exact h₂.read call hcall hreads
  · rw [h₂.all.mp hfaithful.right, h₁.all.mp hfaithful.left]
  · have hfirst : start₁ = start := by omega
    have hsecond : start₂ = start₁ := by omega
    exact (h₁.all.mpr hfirst).append (h₂.all.mpr hsecond)

/-- An action is called with what the buffer holds between its places. -/
def handed (call : Call RuleName) : RuleName × Bytes := (call.name, call.seen.getD [])

/-- An action that reads its text is handed it, and the others do not look. -/
theorem Informed.essence_handed {calls : List (Call RuleName)} {t : Trace RuleName}
    (h : Informed start start' calls) (hcalls : calls.map Call.entry = t.filter (acts ·.1)) :
    essence (calls.map handed) = essence t := by
  have hhanded : essence (calls.map handed) = essence (calls.map Call.entry) := by
    unfold essence
    rw [List.filterMap_map, List.filterMap_map]
    refine List.filterMap_congr fun call hcall => ?_
    unfold Function.comp essential handed Call.entry
    by_cases hreads : readsText call.name = true
    · simp only [h.read call hcall hreads, Option.getD_some]
    · simp only [hreads, Bool.false_eq_true, if_false]
  rw [hhanded, hcalls]
  unfold essence
  rw [List.filterMap_filter]
  refine List.filterMap_congr fun entry _ => ?_
  unfold essential
  cases acts entry.1 <;> simp

/-! ## Matching over the stream -/

/-- One of the two rules that are followed by a discard. -/
theorem discarding_streams {name : RuleName} (hname : discarding name = true)
    {outcome : Outcome} {t : Trace RuleName} (h : Run turtle (.ref name) input outcome t)
    (hinput : input <:+ document) (hstart : start ≤ reached document input) :
    ∃ calls, Streams (fileInput document) turtle (.ref name) start input (.matched outcome)
      ((fileInput document).after name start input (.matched outcome)) calls ∧
      Faithful calls := by
  obtain ⟨hbody, -⟩ := discarding_body hname
  cases h with
  | ref h =>
      obtain ⟨calls, hstreams, hfaithful⟩ :=
        h.streams undisturbed_closed undisturbed_quiet hbody hinput hstart
      have href := Streams.ref hstreams
      rw [Buffering.close_same] at href
      exact ⟨_, href, hfaithful.append (Buffering.call_faithful name h hinput hstart)⟩

/-- An action that does not read its text comes after those of its rule. -/
theorem Informed.call {name : RuleName} (hname : readsText name = false)
    {calls : List (Call RuleName)} {rule : Rule RuleName} {t : Trace RuleName}
    (h : Run turtle rule input (.ok rest) t) (hinput : input <:+ document)
    (hstart : start ≤ reached document input)
    (hread : ∀ call ∈ calls, readsText call.name = true → call.seen = some call.text)
    (hmoved : Faithful calls → Faithful
      ((fileInput document).call name start start' input (.matched (.ok rest))) → start' = start)
    (hkept : start' = start → Faithful calls) : Informed start start'
      (calls ++ (fileInput document).call name start start' input (.matched (.ok rest))) := by
  refine ⟨fun call hcall hreads => ?_, fun hall => hmoved hall.left hall.right, ?_⟩
  · rcases List.mem_append.mp hcall with hcall | hcall
    · exact hread call hcall hreads
    · have hsame : call.name = name := by
        unfold Buffering.call at hcall
        simp only at hcall
        split at hcall
        · rw [List.mem_singleton.mp hcall]
        · cases hcall
      rw [hsame, hname] at hreads
      cases hreads
  · rintro rfl
    exact (hkept rfl).append (Buffering.call_faithful name h hinput hstart)

/-- The action of a statement is not given its text once the buffer has moved. -/
theorem statement_moved {t : Trace RuleName}
    (h : Run turtle (.ref .statement) input (.ok rest) t) (hinput : input <:+ document)
    (hstart : start ≤ reached document input) (hle : start ≤ start')
    (hfaithful : Faithful
      ((fileInput document).call .statement start start' input (.matched (.ok rest)))) :
    start' = start := by
  obtain ⟨text, htext, rfl⟩ := statement_nonempty h
  have hseen := hfaithful _ (List.mem_singleton_self _)
  rw [consumed_append] at hseen
  exact Buffering.start_eq_of_seen hinput htext hstart hle hseen

theorem Passes.streams (h : Passes document start input start' rest)
    (hinput : input <:+ document) (hstart : start ≤ reached document input) :
    ∃ calls, Streams (fileInput document) turtle (.ref .statement) start input
      (.matched (.ok rest)) start' calls ∧ Informed start start' calls := by
  obtain ⟨_, hrun⟩ := h.statement
  obtain ⟨-, hle, -⟩ := h.bounds hinput hstart
  have hbody : ∃ calls, Streams (fileInput document) turtle (turtle .statement) start input
      (.matched (.ok rest)) start' calls ∧ Faithful calls := by
    cases h with
    | triple h =>
        obtain ⟨calls, hstreams, hfaithful⟩ := discarding_streams rfl h hinput hstart
        exact ⟨calls, .sorStop hstreams (by simp), hfaithful⟩
    | directive htriple h =>
        obtain ⟨_, hfirst, hfaithful⟩ := discarding_streams rfl htriple hinput hstart
        obtain ⟨_, hsecond, hfaithful'⟩ :=
          discarding_streams rfl h hinput (Buffering.discard_le_offset hstart)
        exact ⟨_, .sorNext hfirst hsecond, hfaithful.append hfaithful'⟩
  obtain ⟨calls, hstreams, hfaithful⟩ := hbody
  exact ⟨_, .ref hstreams, .call rfl hrun hinput hstart (fun call hcall _ => hfaithful call hcall)
    (fun _ => statement_moved hrun hinput hstart hle) fun _ => hfaithful⟩

/-- An attempt at a statement within a chunk goes back to where it began. -/
theorem statement_fails_streams {t : Trace RuleName}
    (h : Run turtle (.ref .statement) input .fail t) (hinput : input <:+ document)
    (hstart : start ≤ reached document input) (hbound : reached document input ≤ start + 64) :
    ∃ calls, Streams (fileInput document) turtle (.ref .statement) start input
      (.matched .fail) start calls ∧ Faithful calls := by
  have hstay : (fileInput document).discard start input = start := Buffering.discard_of_le hbound
  obtain ⟨_, _, htriple, hdirective⟩ : ∃ t t',
      Run turtle (.ref (.tripleExtended false)) input .fail t ∧
      Run turtle (.ref .directive) input .fail t' := by
    cases h with
    | ref h =>
        cases h with
        | sorStop _ hstop => exact absurd rfl hstop
        | sorNext htriple hdirective => exact ⟨_, _, htriple, hdirective⟩
  have hkept : ∀ name, discarding name = true →
      (fileInput document).after name start input (.matched .fail) = start :=
    fun _ hname => (if_pos hname).trans hstay
  obtain ⟨_, hfirst, hfaithful⟩ := discarding_streams rfl htriple hinput hstart
  obtain ⟨_, hsecond, hfaithful'⟩ := discarding_streams rfl hdirective hinput hstart
  rw [hkept _ rfl] at hfirst hsecond
  have hbody : Streams (fileInput document) turtle (turtle .statement) start input
      (.matched .fail) start _ := .sorNext hfirst hsecond
  have href := Streams.ref hbody
  rw [Buffering.close_same] at href
  exact ⟨_, href, (hfaithful.append hfaithful').append Faithful.nil⟩

theorem ignored_streams {t : Trace RuleName}
    (h : Run turtle (.ref .ignored) input (.ok rest) t) (hinput : input <:+ document)
    (hstart : start ≤ reached document input) :
    ∃ calls, Streams (fileInput document) turtle (.ref .ignored) start input
      (.matched (.ok rest)) start calls ∧ Faithful calls :=
  h.streams undisturbed_closed undisturbed_quiet (by decide) hinput hstart

/-- Layout and a statement. -/
theorem iteration_streams {middle : Bytes} {t : Trace RuleName}
    (hignored : Run turtle (.ref .ignored) input (.ok middle) t)
    (hpasses : Passes document start middle start' rest) (hinput : input <:+ document)
    (hstart : start ≤ reached document input) :
    ∃ calls, Streams (fileInput document) turtle iteration start input (.matched (.ok rest))
      start' calls ∧ Informed start start' calls := by
  obtain ⟨hmiddle, hle⟩ := hignored.offset_le (b := fileInput document) hinput
  obtain ⟨-, hforward, -⟩ := hpasses.bounds hmiddle (hstart.trans hle)
  obtain ⟨_, hfirst, hfaithful⟩ := ignored_streams hignored hinput hstart
  obtain ⟨_, hsecond, hinformed⟩ := hpasses.streams hmiddle (hstart.trans hle)
  exact ⟨_, .seqNext hfirst hsecond,
    (Informed.of_faithful hfaithful start).append hinformed le_rfl hforward⟩

/-- Layout and an attempt at a statement in vain. -/
theorem iteration_fails_streams {stop : Bytes} {t t' : Trace RuleName}
    (hignored : Run turtle (.ref .ignored) input (.ok stop) t)
    (hstatement : Run turtle (.ref .statement) stop .fail t') (hinput : input <:+ document)
    (hstart : start ≤ reached document input) (hbound : reached document stop ≤ start + 64) :
    ∃ calls, Streams (fileInput document) turtle iteration start input (.matched .fail) start
      calls ∧ Faithful calls := by
  obtain ⟨hstop, hle⟩ := hignored.offset_le (b := fileInput document) hinput
  obtain ⟨_, hfirst, hfaithful⟩ := ignored_streams hignored hinput hstart
  obtain ⟨_, hsecond, hfaithful'⟩ :=
    statement_fails_streams hstatement hstop (hstart.trans hle) hbound
  have hseq := Streams.seqNext hfirst hsecond
  rw [Streamed.restore_same] at hseq
  exact ⟨_, hseq, hfaithful.append hfaithful'⟩

/-- By induction on the statements up to the place where they stop. -/
theorem StopsAt.streams {final : Nat} {stop : Bytes}
    (h : StopsAt document start input final stop) (hinput : input <:+ document)
    (hstart : start ≤ reached document input) (hbound : reached document stop ≤ final + 64) :
    ∃ rest calls, Streams (fileInput document) turtle (.star iteration) start input
        (.matched (.ok rest)) final calls ∧ Informed start final calls ∧ rest <:+ document ∧
      final ≤ reached document rest := by
  induction h with
  | here hignored hstatement =>
      obtain ⟨calls, hstreams, hfaithful⟩ :=
        iteration_fails_streams hignored hstatement hinput hstart hbound
      exact ⟨_, calls, .starDone hstreams, .of_faithful hfaithful _, hinput, hstart⟩
  | next hignored hpasses hstops ih =>
      obtain ⟨hmiddle, hle⟩ := hignored.offset_le (b := fileInput document) hinput
      obtain ⟨hrest, hforward, hreached, -⟩ := hpasses.bounds hmiddle (hstart.trans hle)
      obtain ⟨_, hfirst, hinformed⟩ := iteration_streams hignored hpasses hinput hstart
      obtain ⟨_, _, hmore, hinformed', hlast, hlastStart⟩ := ih hrest hreached hbound
      exact ⟨_, _, .starNext hfirst hmore,
        hinformed.append hinformed' hforward (hstops.bounds hrest hreached).1, hlast,
        hlastStart⟩

theorem turtleDoc_streams {final : Nat} {stop : Bytes}
    (h : StopsAt document 0 document final stop) (hbound : reached document stop ≤ final + 64) :
    ∃ outcome calls, Streams (fileInput document) turtle (.ref .turtleDoc) 0 document
      (.matched outcome) final calls ∧ Informed 0 final calls := by
  have hdocument : document <:+ document := List.suffix_rfl
  cases h with
  | here hignored hstatement =>
      obtain ⟨_, hfirst, hfaithful⟩ :=
        iteration_fails_streams hignored hstatement hdocument (Nat.zero_le _) hbound
      have hplus : Streams (fileInput document) turtle (Rule.plus iteration) 0 document
          (.matched .fail) 0 _ := .seqStop hfirst (by simp)
      have hbody : Streams (fileInput document) turtle (turtle .turtleDoc) 0 document
          (.matched .fail) 0 _ := .seqStop hplus (by simp)
      have href := Streams.ref hbody
      rw [Buffering.close_same] at href
      exact ⟨_, _, href, .of_faithful (hfaithful.append Faithful.nil) 0⟩
  | next hignored hpasses hstops =>
      obtain ⟨hmiddle, hle⟩ := hignored.offset_le (b := fileInput document) hdocument
      obtain ⟨hrest, hforward, hreached, -⟩ := hpasses.bounds hmiddle (Nat.zero_le _)
      obtain ⟨_, hfirst, hinformed⟩ :=
        iteration_streams hignored hpasses hdocument (Nat.zero_le _)
      obtain ⟨last, _, hmore, hinformed', hlast, hlastStart⟩ :=
        hstops.streams hrest hreached hbound
      obtain ⟨rest, _, hlayout⟩ := ignored_matches last
      obtain ⟨_, hignored', hfaithful⟩ := ignored_streams hlayout hlast hlastStart
      have hfinal := (hstops.bounds hrest hreached).1
      have hinformed'' := (hinformed.append hinformed' hforward hfinal).append
        (.of_faithful hfaithful final) (hforward.trans hfinal) le_rfl
      have hbody : Streams (fileInput document) turtle (turtle .turtleDoc) 0 document
          (.matched (.ok rest)) final _ := .seqNext (.seqNext hfirst hmore) hignored'
      obtain ⟨_, hrun, -⟩ := hbody.run rfl
      exact ⟨_, _, .ref hbody, .call rfl hrun hdocument (Nat.zero_le _) hinformed''.read
        (fun hall _ => hinformed''.all.mp hall) hinformed''.all.mpr⟩

/-- Matching a document whose last attempt at a statement comes within a chunk after the
buffer has moved. -/
theorem StopsAt.document_streams {final : Nat} {stop : Bytes}
    (h : StopsAt document 0 document final stop) (hbound : reached document stop ≤ final + 64) :
    ∃ outcome calls, Streams (fileInput document) turtle (.ref (.grammar false)) 0 document
      (.matched outcome) final calls ∧ Informed 0 final calls := by
  obtain ⟨outcome, calls, hdoc, hinformed⟩ := turtleDoc_streams h hbound
  have hmust := Streams.must hdoc
  -- the first alternative of the grammar decides, since it cannot fail locally
  have hdecides : ∃ outcome', Streams (fileInput document) turtle
      (.seq (.must (.ref .turtleDoc)) (.must .eof)) 0 document (.matched outcome') final calls ∧
      outcome' ≠ .fail := by
    cases outcome with
    | fail | error => exact ⟨.error, .seqStop hmust (by simp [Streamed.escalate]), by simp⟩
    | ok rest =>
        cases rest with
        | nil =>
            have hend : Streams (fileInput document) turtle (.must .eof) final [] _ final [] :=
              .must (.token rfl .eofOk)
            have hseq := Streams.seqNext hmust hend
            rw [List.append_nil] at hseq
            exact ⟨_, hseq, by simp⟩
        | cons b rest =>
            have hend : Streams (fileInput document) turtle (.must .eof) final (b :: rest) _
                final [] :=
              .must (.token rfl (.eofFail (List.cons_ne_nil b rest)))
            have hseq := Streams.seqNext hmust hend
            rw [List.append_nil] at hseq
            exact ⟨_, hseq, by simp⟩
  obtain ⟨outcome', hfirst, hne⟩ := hdecides
  have hgrammar : Streams (fileInput document) turtle (turtle (.grammar false)) 0 document
      (.matched outcome') final calls :=
    .sorStop hfirst fun heq => hne (Streamed.matched.inj heq)
  have href := Streams.ref hgrammar
  have hclose : (fileInput document).close (.grammar false) 0 final (.matched outcome') =
      .matched outcome' := rfl
  have hcall : (fileInput document).call (.grammar false) 0 final document (.matched outcome') =
      [] := by
    cases outcome' <;> rfl
  have hafter : (fileInput document).after (.grammar false) final document (.matched outcome') =
      final := by
    cases outcome' <;> rfl
  rw [hclose, hcall, hafter, List.append_nil] at href
  exact ⟨outcome', calls, href, hinformed⟩

/-! ## What a match over the stream has passed -/

variable {calls : List (Call RuleName)} {outcome : Outcome}

/-- A rule that is followed by a discard moves the buffer nowhere else. -/
theorem discarding_after {name : RuleName} (hname : discarding name = true)
    (h : Streams (fileInput document) turtle (.ref name) start input (.matched outcome) start'
      calls) : start' = (fileInput document).after name start input (.matched outcome) := by
  obtain ⟨start₁, _, hbody, -, hafter, -⟩ := h.ref_matched
  rw [hafter, hbody.start_eq undisturbed_closed undisturbed_quiet (discarding_body hname).1]

/-- A statement has been passed; or it has been tried in vain, within a chunk. -/
theorem statement_inv (h : Streams (fileInput document) turtle (.ref .statement) start input
      (.matched outcome) start' calls) :
    (∃ rest, outcome = .ok rest ∧ Passes document start input start' rest) ∨
      outcome = .fail ∧ start' = start ∧ reached document input ≤ start + 64 ∧
        ∃ t, Run turtle (.ref .statement) input .fail t := by
  obtain ⟨t, hrun, -⟩ := h.run rfl
  obtain ⟨start₁, _, hbody, hback, hafter, -⟩ := h.ref_matched
  have hsame : start' = start₁ := by
    rw [hafter]
    cases outcome <;> rfl
  subst hsame
  have hne : outcome ≠ .error := matching_never_errors (by simp) hrun
  rcases hbody.sor_matched with ⟨htriple, hfail⟩ | ⟨start₂, _, _, htriple, hdirective, -⟩
  · cases outcome with
    | error => exact absurd rfl hne
    | fail => exact absurd rfl hfail
    | ok rest =>
        obtain ⟨_, hmatch, -⟩ := htriple.run rfl
        rw [discarding_after rfl htriple]
        exact .inl ⟨rest, rfl, .triple hmatch⟩
  · obtain ⟨_, hmatch, -⟩ := htriple.run rfl
    obtain ⟨_, hmatch', -⟩ := hdirective.run rfl
    have hfirst := discarding_after rfl htriple
    subst hfirst
    have hsecond := discarding_after rfl hdirective
    cases outcome with
    | error => exact absurd rfl hne
    | ok rest =>
        rw [hsecond]
        exact .inl ⟨rest, rfl, .directive hmatch hmatch'⟩
    | fail =>
        have hkept : start' = start := hback rfl rfl
        have hforward := hdirective.start_le
        rw [hkept] at hforward
        exact .inr ⟨rfl, hkept, Buffering.offset_le_of_discard hforward, t, hrun⟩

/-- Layout has been passed, and a statement or an attempt at one. -/
theorem iteration_inv (h : Streams (fileInput document) turtle iteration start input
      (.matched outcome) start' calls) :
    ∃ middle t, Run turtle (.ref .ignored) input (.ok middle) t ∧
      ((∃ rest, outcome = .ok rest ∧ Passes document start middle start' rest) ∨
        outcome = .fail ∧ start' = start ∧ reached document middle ≤ start + 64 ∧
          ∃ t', Run turtle (.ref .statement) middle .fail t') := by
  rcases h.seq_matched with ⟨middle, start₁, _, _, hignored, hstatement, -, -⟩ | ⟨hignored, hne⟩
  · obtain ⟨t, hrun, -⟩ := hignored.run rfl
    obtain rfl : start₁ = start :=
      hignored.start_eq undisturbed_closed undisturbed_quiet (by decide)
    exact ⟨middle, t, hrun, statement_inv hstatement⟩
  · obtain ⟨t, hrun, -⟩ := hignored.run rfl
    obtain ⟨rest, t', hmatch⟩ := ignored_matches input
    exact absurd (hrun.deterministic hmatch).1 (hne rest)

/-- By induction on the repetition. -/
theorem statements_inv (h : Streams (fileInput document) turtle (.star iteration) start input
      (.matched outcome) start' calls) :
    ∃ stop, StopsAt document start input start' stop ∧ reached document stop ≤ start' + 64 := by
  generalize hrule : Rule.star iteration = rule at h
  generalize hout : Streamed.matched outcome = out at h
  induction h with
  | token htoken _ =>
      subst hrule
      cases htoken
  | starNext h₁ _ _ ih =>
      cases hrule
      obtain ⟨_, _, hignored, ⟨_, hrest, hpasses⟩ | ⟨hfail, -⟩⟩ := iteration_inv h₁
      · cases hrest
        obtain ⟨stop, hstops, hbound⟩ := ih rfl hout
        exact ⟨stop, .next hignored hpasses hstops, hbound⟩
      · cases hfail
  | starDone h _ =>
      cases hrule
      obtain ⟨stop, _, hignored, ⟨_, hrest, -⟩ | ⟨-, -, hbound, _, hstatement⟩⟩ := iteration_inv h
      · cases hrest
      · exact ⟨stop, .here hignored hstatement, hbound⟩
  | starLost _ _ _ => cases hout
  | starStop h hstop _ =>
      cases hrule
      rcases hstop with rfl | rfl
      · obtain ⟨_, _, -, ⟨_, hrest, -⟩ | ⟨hfail, -⟩⟩ := iteration_inv h
        · cases hrest
        · cases hfail
      · cases hout
  | _ => cases hrule

theorem turtleDoc_inv (h : Streams (fileInput document) turtle (.ref .turtleDoc) 0 document
      (.matched outcome) start' calls) :
    ∃ stop, StopsAt document 0 document start' stop ∧ reached document stop ≤ start' + 64 := by
  obtain ⟨start₁, _, hbody, -, hafter, -⟩ := h.ref_matched
  have hsame : start' = start₁ := by
    rw [hafter]
    cases outcome <;> rfl
  subst hsame
  have hplus : ∃ outcome calls, Streams (fileInput document) turtle (Rule.plus iteration) 0
      document (.matched outcome) start' calls := by
    rcases hbody.seq_matched with ⟨_, start₂, _, _, hplus, hignored, -, -⟩ | ⟨hplus, -⟩
    · obtain rfl : start' = start₂ :=
        hignored.start_eq undisturbed_closed undisturbed_quiet (by decide)
      exact ⟨_, _, hplus⟩
    · exact ⟨_, _, hplus⟩
  obtain ⟨outcome', _, hplus⟩ := hplus
  rcases hplus.seq_matched with ⟨_, _, _, _, hfirst, hmore, -, -⟩ | ⟨hfirst, hne⟩
  · obtain ⟨_, _, hignored, ⟨_, hrest, hpasses⟩ | ⟨hfail, -⟩⟩ := iteration_inv hfirst
    · cases hrest
      obtain ⟨stop, hstops, hbound⟩ := statements_inv hmore
      exact ⟨stop, .next hignored hpasses hstops, hbound⟩
    · cases hfail
  · obtain ⟨stop, _, hignored, ⟨rest, hrest, -⟩ | ⟨-, rfl, hbound, _, hstatement⟩⟩ :=
      iteration_inv hfirst
    · exact absurd hrest (hne rest)
    · exact ⟨stop, .here hignored hstatement, hbound⟩

/-- A document that is matched without going back to a lost place makes its last attempt at a
statement within a chunk after the buffer has moved. -/
theorem document_inv (h : Streams (fileInput document) turtle (.ref (.grammar false)) 0 document
      (.matched outcome) start' calls) :
    ∃ stop, StopsAt document 0 document start' stop ∧ reached document stop ≤ start' + 64 := by
  obtain ⟨start₁, _, hbody, -, hafter, -⟩ := h.ref_matched
  have hsame : start' = start₁ := by
    rw [hafter]
    cases outcome <;> rfl
  subst hsame
  -- the alternative that is the document and its end has no local failure
  rcases hbody.sor_matched with ⟨hfirst, -⟩ | ⟨_, _, _, hfirst, -⟩
  · rcases hfirst.seq_matched with ⟨_, _, _, _, hmust, hend, -, -⟩ | ⟨hmust, -⟩
    · obtain rfl := hend.start_eq undisturbed_closed undisturbed_quiet (by simp [Rule.names])
      obtain ⟨_, hdoc, -⟩ := hmust.must_matched
      exact turtleDoc_inv hdoc
    · obtain ⟨_, hdoc, -⟩ := hmust.must_matched
      exact turtleDoc_inv hdoc
  · rcases hfirst.seq_matched with ⟨_, _, _, _, -, hend, -, -⟩ | ⟨hmust, -⟩
    · exact absurd rfl hend.must_ne_fail
    · exact absurd rfl hmust.must_ne_fail

/-- The matches of a document over the stream, with what its actions are given. -/
theorem document_informed (h : Streams (fileInput document) turtle (.ref (.grammar false)) 0
      document (.matched outcome) start' calls) : Informed 0 start' calls := by
  obtain ⟨stop, hstops, hbound⟩ := document_inv h
  obtain ⟨_, _, hstreams, hinformed⟩ := hstops.document_streams hbound
  obtain ⟨-, -, rfl⟩ := h.deterministic hstreams
  exact hinformed

end Matching

end RdfParser.Turtle
