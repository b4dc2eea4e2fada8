/-
  Turtle/FileParsing.lean --- parsing a file, compared with parsing a string.

  Source: `startParsing` in `TurtleFileParser.hpp`, and `action<Grammar::statement>` in
  `internal/Turtle/Actions/Actions.hpp`.

  Strictly, a file is read as a string is only while nothing is discarded: the action of a
  statement is given a text that is not its own once the buffer has moved.  But that action
  does not look at its text; so in what can be observed a file is parsed as a string unless
  the last attempt at a statement goes back to a place that the buffer has lost.
-/
import RdfParser.Turtle.FileInput

set_option autoImplicit false

namespace RdfParser.Turtle

open RdfParser.Foundation RdfParser.Rdf RdfParser.Peg

variable {document : Bytes}

/-! ## Everything alike -/

/-- Matching the document as a file ends as matching it as a string does, no saved place
is gone back to after it has moved, and the same actions run, each given the text that its
rule has matched. -/
def StreamAgrees (document : Bytes) : Prop :=
  ∃ outcome trace start calls,
    Run turtle (.ref (.grammar false)) document outcome trace ∧
    Streams (fileInput document) turtle (.ref (.grammar false)) 0 document (.matched outcome)
      start calls ∧
    calls.map (fun call => (call.name, call.seen)) =
      (trace.filter (acts ·.1)).map fun entry => (entry.1, some entry.2)

/-- The actions are given what their rules have matched. -/
theorem streamAgrees_iff : StreamAgrees document ↔ ∃ outcome start calls,
    Streams (fileInput document) turtle (.ref (.grammar false)) 0 document (.matched outcome)
      start calls ∧ Faithful calls := by
  constructor
  · rintro ⟨outcome, trace, start, calls, hrun, hstreams, hcalls⟩
    refine ⟨outcome, start, calls, hstreams, ?_⟩
    obtain ⟨trace', hrun', hentries⟩ := hstreams.run rfl
    obtain ⟨-, rfl⟩ := hrun.deterministic hrun'
    have hsame : calls.map (fun call => (call.name, call.seen)) =
        calls.map fun call => (call.name, some call.text) := by
      refine hcalls.trans ?_
      show ((trace.filter fun entry => (fileInput document).saves entry.1)).map _ = _
      rw [← hentries, List.map_map]
      rfl
    intro call hcall
    exact congrArg Prod.snd (List.map_inj_left.mp hsame call hcall)
  · rintro ⟨outcome, start, calls, hstreams, hfaithful⟩
    obtain ⟨trace, hrun, hentries⟩ := hstreams.run rfl
    refine ⟨outcome, trace, start, calls, hrun, hstreams, ?_⟩
    show _ = ((trace.filter fun entry => (fileInput document).saves entry.1)).map _
    rw [← hentries, List.map_map]
    refine List.map_inj_left.mpr fun call hcall => ?_
    simp only [Function.comp_apply, Call.entry, hfaithful call hcall]

/-- The document stops within the first chunk. -/
theorem StreamAgrees.stops (h : StreamAgrees document) :
    ∃ stop, Stops document stop ∧ document.length ≤ stop.length + 64 := by
  obtain ⟨_, _, _, hstreams, hfaithful⟩ := streamAgrees_iff.mp h
  obtain rfl := (document_informed hstreams).all.mp hfaithful
  obtain ⟨stop, hstops, hbound⟩ := document_inv hstreams
  rw [reached_le_iff] at hbound
  exact ⟨stop, hstops.stops, hbound⟩

/-- Matching the document as a file ends as matching it as a string does, no saved place is
gone back to after it has moved, and what the actions are given has the same effect. -/
def ReadsAlike (document : Bytes) : Prop :=
  ∃ outcome trace start calls,
    Run turtle (.ref (.grammar false)) document outcome trace ∧
    Streams (fileInput document) turtle (.ref (.grammar false)) 0 document (.matched outcome)
      start calls ∧
    essence (calls.map handed) = essence trace

/-- A match over the stream has the outcome of a match of the string, and the effect. -/
theorem streams_alike {outcome : Outcome} {start : Nat} {calls : List (Call RuleName)}
    (h : Streams (fileInput document) turtle (.ref (.grammar false)) 0 document
      (.matched outcome) start calls) :
    ∃ trace, Run turtle (.ref (.grammar false)) document outcome trace ∧
      essence (calls.map handed) = essence trace := by
  obtain ⟨trace, hrun, hentries⟩ := h.run rfl
  exact ⟨trace, hrun, (document_informed h).essence_handed hentries⟩

/-- A file is read as a string is exactly if the last attempt at a statement, the one that
fails, is made within a chunk after the buffer has last moved. -/
theorem readsAlike_iff (document : Bytes) :
    ReadsAlike document ↔
      ∃ final stop, StopsAt document 0 document final stop ∧
        document.length ≤ stop.length + (final + 64) := by
  constructor
  · rintro ⟨_, _, final, _, -, hstreams, -⟩
    obtain ⟨stop, hstops, hbound⟩ := document_inv hstreams
    exact ⟨final, stop, hstops, reached_le_iff.mp hbound⟩
  · rintro ⟨final, stop, hstops, hlength⟩
    obtain ⟨_, _, hstreams, -⟩ := hstops.document_streams (reached_le_iff.mpr hlength)
    obtain ⟨_, hrun, hessence⟩ := streams_alike hstreams
    exact ⟨_, _, _, _, hrun, hstreams, hessence⟩

/-- A statement that is longer than a chunk, and the end of its line. -/
def longDocument : Bytes :=
  bytes "<http://example.org/s> <http://example.org/p> <http://example.org/o> .\n"

example : ReadsAlike longDocument := by
  obtain ⟨_, htriple⟩ : ∃ t, Run turtle (.ref (.tripleExtended false)) longDocument
      (.ok (bytes "\n")) t := ⟨_, exec_sound 60 rfl⟩
  obtain ⟨_, hlayout⟩ : ∃ t, Run turtle (.ref .ignored) longDocument (.ok longDocument) t :=
    ⟨_, exec_sound 10 rfl⟩
  obtain ⟨_, hend⟩ : ∃ t, Run turtle (.ref .ignored) (bytes "\n") (.ok []) t :=
    ⟨_, exec_sound 10 rfl⟩
  obtain ⟨_, hnone⟩ : ∃ t, Run turtle (.ref .statement) [] .fail t := ⟨_, exec_sound 40 rfl⟩
  -- the buffer has moved to the end of the statement, after 70 bytes
  exact (readsAlike_iff longDocument).mpr
    ⟨70, [], .next hlayout (.triple htriple) (.here hend hnone), by decide⟩

/-- Every document that fits into the first chunk is read alike. -/
theorem readsAlike_of_short (h : document.length ≤ 64) : ReadsAlike document := by
  obtain ⟨stop, hstops⟩ := stops_exists document
  obtain ⟨final, hstopsAt⟩ : ∃ final, StopsAt document 0 document final stop :=
    hstops.stopsAt 0
  exact (readsAlike_iff document).mpr ⟨final, stop, hstopsAt, by omega⟩

/-- `tao::pegtl::parse<grammar<false>, action>` on a file that is shorter than the buffer, as
long as no place is gone back to that the buffer has lost. -/
def FileParses (prefixMap : PrefixMap) (document : Bytes) (p : Parse false) : Prop :=
  document.length < bufferSize ∧
  ∃ start calls, Streams (fileInput document) turtle (.ref (.grammar false)) 0 document
      (.matched p.outcome) start calls ∧
    runActions (calls.map handed) (initialState false prefixMap) = (p.final, p.fault)

/-- Such a parse is the parse of the string. -/
theorem fileParses_iff {prefixMap : PrefixMap} {p : Parse false} :
    FileParses prefixMap document p ↔
      document.length < bufferSize ∧ ReadsAlike document ∧ Parses prefixMap document p := by
  constructor
  · rintro ⟨hfits, start, calls, hstreams, hact⟩
    obtain ⟨trace, hrun, hessence⟩ := streams_alike hstreams
    refine ⟨hfits, ⟨_, trace, start, calls, hrun, hstreams, hessence⟩, trace, hrun, ?_⟩
    rw [← runActions_congr hessence]
    exact hact
  · rintro ⟨hfits, ⟨outcome, trace, start, calls, hrun, hstreams, hessence⟩, trace', hrun', hact⟩
    obtain ⟨rfl, rfl⟩ := hrun.deterministic hrun'
    refine ⟨hfits, start, calls, hstreams, ?_⟩
    rw [runActions_congr hessence]
    exact hact

theorem FileParses.parses {prefixMap : PrefixMap} {p : Parse false}
    (h : FileParses prefixMap document p) : Parses prefixMap document p :=
  (fileParses_iff.mp h).2.2

/-! ## Layout at the end -/

end RdfParser.Turtle
