/-
  Turtle/Datatypes.lean --- the datatype of a literal and the IRI it is written with.

  The actions of `iri` leave the resolved IRI in the element; `action<RdfLiteral>` takes
  the text of the tag instead and expands its prefix once more.  A base is applied in
  the first place only.
-/
import RdfParser.Turtle.Quoting

set_option autoImplicit false

namespace RdfParser.Turtle

open RdfParser.Foundation RdfParser.Rdf RdfParser.Peg RdfParser.Peg.Rule

variable {q : Bool}

/-! ## Terms and their spellings -/

theorem literal_datatype_inj {value left right : Bytes}
    (h : literal value none (some left) = literal value none (some right)) : left = right := by
  have hprinted := congrArg Term.identifier h
  rw [literal_identifier, literal_identifier] at hprinted
  replace hprinted := List.append_cancel_left hprinted
  simp only [printedSuffix] at hprinted
  split_ifs at hprinted with hleft hright hright
  · exact List.append_cancel_left (List.append_cancel_right hprinted)
  · exact absurd hprinted (by simp [bytes])
  · exact absurd hprinted (by simp [bytes])
  · rw [not_not] at hleft hright
    rw [hleft, hright]

theorem literal_ne_uriRef (value : Bytes) (lang type : Option Bytes) (u : Bytes) :
    literal value lang type ≠ uriRef u := by
  have hkind : (literal value lang type).nodeType = .literal := by
    unfold literal
    repeat' split
    all_goals rfl
  intro h
  rw [h] at hkind
  cases hkind

theorem blankNodeElement_ne_uriRef (label u : Bytes) :
    Action.blankNodeElement q label ≠ Element.ofTerm q (uriRef u) := by
  intro h
  cases q with
  | false => exact absurd (congrArg Term.nodeType h) (by simp [Action.blankNodeElement,
      Element.ofTerm, bNode, uriRef])
  | true => cases h

/-- A string is not itself with another one inserted. -/
theorem insert_ne_self {iri base : Bytes} (hbase : base ≠ []) :
    Foundation.insert iri 1 base ≠ .ok iri := by
  unfold Foundation.insert
  split
  · simp
  · intro h
    have hlength := congrArg List.length (Except.ok.inj h)
    simp only [List.length_append, List.length_take, List.length_drop] at hlength
    have hpos := List.length_pos_of_ne_nil hbase
    omega

/-- A spelling that stands for an IRI is that of an IRI. -/
theorem Leaf.iri_of_element {leaf : Leaf} (hleaf : leaf.isVar = false) {prefixMap : PrefixMap}
    {base u : Bytes} {label : Nat}
    (h : leaf.element q prefixMap base label = .ok (Element.ofTerm q (uriRef u))) :
    ∃ i, leaf = .iri i ∧ i.uri prefixMap base = .ok u := by
  cases leaf with
  | iri i =>
      simp only [element] at h
      cases huri : i.uri prefixMap base with
      | error fault => simp [huri, Except.map] at h
      | ok uri =>
          simp only [huri, Except.map, Except.ok.injEq] at h
          rw [← uriRef_inj.mp (Element.ofTerm_injective q h)]
          exact ⟨i, rfl, huri⟩
  | blankNodeLabel text =>
      simp only [element, Except.map] at h
      split at h
      · cases h
      · exact absurd (Except.ok.inj h) (blankNodeElement_ne_uriRef _ u)
  | anon text => exact absurd (Except.ok.inj h) (blankNodeElement_ne_uriRef _ u)
  | booleanLiteral text | numericLiteral kind text =>
      exact absurd (Element.ofTerm_injective q (Except.ok.inj h)) (literal_ne_uriRef _ _ _ u)
  | rdfLiteral text suffix =>
      simp only [element, Except.map] at h
      repeat' split at h
      · cases h
      · rename_i hliteral
        obtain ⟨lang, type, rfl⟩ := Suffix.literal_eq hliteral
        exact absurd (Element.ofTerm_injective q (Except.ok.inj h)) (literal_ne_uriRef _ _ _ u)
      · cases h
  | var text => cases hleaf

/-- The text of an IRI tells how it is spelled. -/
theorem IriLeaf.text_inj {i j : IriLeaf} (hi : i.WellFormed) (hj : j.WellFormed)
    (h : i.text = j.text) : i = j := by
  have hclash : ∀ text, Matches turtle .iriref text → ¬ Matches turtle .prefixedName text := by
    rintro text hiriref ⟨rest, trace, hrun⟩
    obtain ⟨iri, rfl⟩ := iriref_shape hiriref
    exact Run.not_matches (b := char '<') (n := 8) (by decide) (by decide) hrun
  cases i with
  | iriref text =>
      cases j with
      | iriref text' => exact congrArg IriLeaf.iriref h
      | prefixedName name =>
          obtain rfl : text = name := h
          exact absurd hj (hclash text hi)
  | prefixedName name =>
      cases j with
      | iriref text =>
          obtain rfl : name = text := h
          exact absurd hi (hclash name hj)
      | prefixedName name' => exact congrArg IriLeaf.prefixedName h

/-- The two ways to compute an IRI agree exactly if no base was applied. -/
theorem IriLeaf.datatype_eq_uri_iff {i : IriLeaf} (hi : i.WellFormed) {prefixMap : PrefixMap}
    {base u : Bytes} (h : i.uri prefixMap base = .ok u) :
    i.datatype prefixMap = .ok u ↔ base = [] ∨ Matches turtle .prefixedName i.text := by
  cases i with
  | iriref text =>
      obtain ⟨iri, rfl⟩ := iriref_shape hi
      have hnoname : ¬ Matches turtle .prefixedName (irirefToken iri) := by
        rintro ⟨rest, trace, hrun⟩
        exact Run.not_matches (b := char '<') (n := 8) (by decide) (by decide) hrun
      rw [iriref_uri] at h
      rw [iriref_datatype, Except.ok.injEq]
      constructor
      · rintro rfl
        by_contra hnot
        rw [not_or] at hnot
        rw [if_pos hnot.1] at h
        exact insert_ne_self hnot.1 h
      · rintro (rfl | hname)
        · exact Except.ok.inj h
        · exact absurd hname hnoname
  | prefixedName name =>
      refine iff_of_true ?_ (.inr hi)
      rw [prefixedName_uri (solid_of_matches hi rfl)] at h
      rw [prefixedName_datatype (colon_mem_of_matches hi)]
      cases hfind : prefixMap.find (beforeColon name) with
      | none => simp [hfind] at h
      | some mappedPrefix => simpa [hfind] using h

/-! ## Literals with a type tag -/

section TypeTag

variable {quote : UInt8} {v i rest u : Bytes} {s : State q}

/-- A string with `^^` and an IRI behind it is a literal. -/
theorem typeTag_yields {t t' : Trace RuleName}
    (hstring : Run turtle (.ref .turtleString)
      (quote :: (v ++ [quote]) ++ (bytes "^^" ++ (i ++ rest)))
      (.ok (bytes "^^" ++ (i ++ rest))) t)
    (hiri : Run turtle (.ref .iri) (i ++ rest) (.ok rest) t') :
    ∃ j : IriLeaf, j.text = i ∧ j.WellFormed ∧
      Yields (.ref .rdfLiteral) (quote :: (v ++ [quote]) ++ (bytes "^^" ++ (i ++ rest)))
        (.ok rest) (Leaf.rdfLiteral (quote :: (v ++ [quote])) (.typeTag j)).actions := by
  obtain ⟨j, hj, hwell, hactions⟩ := iri_leaf hiri
  obtain rfl : i = j.text := List.append_cancel_right hj
  refine ⟨j, rfl, hwell, ?_⟩
  obtain ⟨text, hinput, -, hessence⟩ := token_essence (by decide) hstring
  obtain rfl : quote :: (v ++ [quote]) = text := List.append_cancel_right hinput
  have hcarets : Yields (string (bytes "^^")) (bytes "^^" ++ (j.text ++ rest))
      (.ok (j.text ++ rest)) [] := ⟨[], Run.string_iff.mpr ⟨rfl, rfl⟩, rfl⟩
  have htag : Yields (turtle .rdfLiteralTypeTag) (bytes "^^" ++ (j.text ++ rest)) (.ok rest)
      j.actions := hcarets.seq ⟨t', hiri, hactions⟩
  have hconsumed : consumed (bytes "^^" ++ (j.text ++ rest)) rest = bytes "^^" ++ j.text := by
    rw [← List.append_assoc, consumed_append]
  have htag := htag.ref_ok
  rw [hconsumed] at htag
  have hlang : Yields (.ref .langtag) (bytes "^^" ++ (j.text ++ rest)) .fail [] :=
    refused_fails (b := char '^') (by decide) .langtag (by decide) rfl _
  have hsuffix : Yields suffixRule (bytes "^^" ++ (j.text ++ rest)) (.ok rest)
      (Suffix.typeTag j).actions := (hlang.skip htag).choose
  have hbody : Yields (turtle .rdfLiteral) _ (.ok rest)
      ((.turtleString, quote :: (v ++ [quote])) :: (Suffix.typeTag j).actions) :=
    Yields.seq ⟨t, hstring, hessence⟩ hsuffix
  exact hbody.ref_ok

/-- The literal is read with the datatype of its tag. -/
theorem readsLiteral_iff {j : IriLeaf} {input : Bytes} (hs : s.Settled)
    (hj : j.uri s.prefixMap s.base = .ok u)
    (h : Yields (.ref .rdfLiteral) input (.ok rest)
      (Leaf.rdfLiteral (quote :: (v ++ [quote])) (.typeTag j)).actions) :
    ReadsLiteral s input rest (literal v none (some u)) ↔ j.datatype s.prefixMap = .ok u := by
  have helement : (Leaf.rdfLiteral (quote :: (v ++ [quote])) (.typeTag j)).element q s.prefixMap
      s.base s.latestBNLabel = (j.datatype s.prefixMap).map fun datatype =>
        Element.ofTerm q (literal v none (some datatype)) := by
    simp only [Leaf.element, turtleString_body, Suffix.literal, hj]
    cases j.datatype s.prefixMap <;> rfl
  obtain ⟨trace, hrun, hessence⟩ := h
  constructor
  · rintro ⟨trace', s', hrun', hactions, hterm⟩
    obtain ⟨-, rfl⟩ := hrun.deterministic hrun'
    rw [runActions_eq_essence, hessence] at hactions
    obtain ⟨e, he, hreads⟩ := Leaf.runActions_inv hs (.inl rfl) hactions
    rw [helement] at he
    cases hdatatype : j.datatype s.prefixMap with
    | error fault => simp [hdatatype, Except.map] at he
    | ok datatype =>
        simp only [hdatatype, Except.map, Except.ok.injEq] at he
        have hsame := Element.ofTerm_injective q
          (he.trans (hreads.element.symm.trans hterm))
        rw [literal_datatype_inj hsame]
  · intro hdatatype
    rw [hdatatype] at helement
    obtain ⟨s', hactions, hreads⟩ := Leaf.runActions_ok hs (.inl rfl) helement
    refine ⟨trace, s', hrun, ?_, hreads.element⟩
    rw [runActions_eq_essence, hessence]
    exact hactions

/-- The datatype is the IRI that is read where the IRI of the tag stands alone exactly if
no base is in force or the IRI is a prefixed name. -/
theorem BasicState.Settled.datatype_iff (hs : s.Settled)
    (hstring : ∃ t, Run turtle (.ref .turtleString)
      (quote :: (v ++ [quote]) ++ (bytes "^^" ++ (i ++ rest)))
      (.ok (bytes "^^" ++ (i ++ rest))) t)
    (hiri : ∃ t, Run turtle (.ref .iri) (i ++ rest) (.ok rest) t)
    (halone : ∃ t s', Run turtle (.ref .term) i (.ok []) t ∧ runActions t s = (s', none) ∧
      s'.element = Element.ofTerm q (uriRef u)) :
    ReadsLiteral s (quote :: (v ++ [quote]) ++ (bytes "^^" ++ (i ++ rest))) rest
      (literal v none (some u)) ↔ s.base = [] ∨ Matches turtle .prefixedName i := by
  obtain ⟨_, hstring⟩ := hstring
  obtain ⟨_, hiri⟩ := hiri
  obtain ⟨t, s', hterm, hactions, huri⟩ := halone
  obtain ⟨j, hj, hwell, hyields⟩ := typeTag_yields hstring hiri
  -- alone, the text is spelled in the same way
  obtain ⟨leaf, hvar, hinput, hleaf, hessence⟩ := term_leaf hterm
  rw [runActions_eq_essence, hessence] at hactions
  obtain ⟨e, he, hreads⟩ := Leaf.runActions_inv hs (.inl hvar) hactions
  rw [← hreads.element, huri] at he
  obtain ⟨j', rfl, hj'⟩ := Leaf.iri_of_element hvar he
  have htext : j.text = j'.text := by
    rw [hj, hinput, List.append_nil]
    rfl
  obtain rfl := IriLeaf.text_inj hwell hleaf htext
  rw [readsLiteral_iff hs hj' hyields, IriLeaf.datatype_eq_uri_iff hwell hj', hj]

/-- In every state that a parse can reach before a literal. -/
theorem datatypes_resolve_iff {active : List (RuleName × Bytes)} (hreached : Reached active s)
    (houtside : ¬ Inside turtle .rdfLiteral active)
    (hstring : ∃ t, Run turtle (.ref .turtleString)
      (quote :: (v ++ [quote]) ++ (bytes "^^" ++ (i ++ rest)))
      (.ok (bytes "^^" ++ (i ++ rest))) t)
    (hiri : ∃ t, Run turtle (.ref .iri) (i ++ rest) (.ok rest) t)
    (halone : ∃ t s', Run turtle (.ref .term) i (.ok []) t ∧ runActions t s = (s', none) ∧
      s'.element = Element.ofTerm q (uriRef u)) :
    ReadsLiteral s (quote :: (v ++ [quote]) ++ (bytes "^^" ++ (i ++ rest))) rest
      (literal v none (some u)) ↔ s.base = [] ∨ Matches turtle .prefixedName i :=
  (hreached.settled houtside).datatype_iff hstring hiri halone

end TypeTag

/-- `"v"^^<d>` where no base is in force. -/
theorem unbased_resolves : ReadsLiteral (initialState false [])
    (char '"' :: (bytes "v" ++ [char '"']) ++ (bytes "^^" ++ (bytes "<d>" ++ bytes " .")))
    (bytes " .") (literal (bytes "v") none (some (bytes "d"))) := by
  have houtside : ¬ Inside turtle .rdfLiteral [] := by simp [Inside]
  refine (datatypes_resolve_iff (initialState_reached []) houtside ?_ ?_ ?_).mpr (.inl rfl)
  · exact ⟨_, exec_sound 30 rfl⟩
  · exact ⟨_, exec_sound 30 rfl⟩
  · exact ⟨_, _, exec_sound 30 rfl, rfl, rfl⟩

/-- `@base <b> . <s> <p> <o> .` -/
def basedDocument : Bytes := bytes "@base <b> . <s> <p> <o> ."

theorem basedDocument_reached : ∃ s : State false, Reached [] s ∧ s.base = bytes "b" := by
  have hcomputed : (exec turtle 60 (.ref (.grammar false)) basedDocument).map
      (fun result =>
        let final := runActions result.2 (initialState false [])
        decide (final.2 = none ∧ final.1.base = bytes "b")) = some true := by
    decide +kernel
  rw [Option.map_eq_some_iff] at hcomputed
  obtain ⟨⟨outcome, before⟩, hexec, hsummary⟩ := hcomputed
  obtain ⟨hnone, hbase⟩ := of_decide_eq_true hsummary
  exact ⟨_, ⟨_, [], _, before, .inl rfl, .finish (exec_sound 60 hexec), Prod.ext rfl hnone⟩, hbase⟩

/-- Behind that document, the datatype of `"v"^^<d>` is `d`, but `<d>` is `db`. -/
theorem basedDocument_disagrees : ¬ ∀ (active : List (RuleName × Bytes)) (s : State false),
    Reached active s → ¬ Inside turtle .rdfLiteral active →
    ∀ (quote : UInt8) (v i rest u : Bytes),
      (∃ t, Run turtle (.ref .turtleString)
        (quote :: (v ++ [quote]) ++ (bytes "^^" ++ (i ++ rest)))
        (.ok (bytes "^^" ++ (i ++ rest))) t) →
      (∃ t, Run turtle (.ref .iri) (i ++ rest) (.ok rest) t) →
      (∃ t s', Run turtle (.ref .term) i (.ok []) t ∧ runActions t s = (s', none) ∧
        s'.element = Element.ofTerm false (uriRef u)) →
      ReadsLiteral s (quote :: (v ++ [quote]) ++ (bytes "^^" ++ (i ++ rest))) rest
        (literal v none (some u)) := by
  intro hclaim
  obtain ⟨s, hreached, hbase⟩ := basedDocument_reached
  have houtside : ¬ Inside turtle .rdfLiteral [] := by simp [Inside]
  have hs := hreached.settled houtside
  have hstring : ∃ t, Run turtle (.ref .turtleString)
      (char '"' :: (bytes "v" ++ [char '"']) ++ (bytes "^^" ++ (bytes "<d>" ++ bytes " .")))
      (.ok (bytes "^^" ++ (bytes "<d>" ++ bytes " ."))) t := ⟨_, exec_sound 30 rfl⟩
  have hiri : ∃ t, Run turtle (.ref .iri) (bytes "<d>" ++ bytes " .") (.ok (bytes " .")) t :=
    ⟨_, exec_sound 30 rfl⟩
  have halone : ∃ t s', Run turtle (.ref .term) (bytes "<d>") (.ok []) t ∧
      runActions t s = (s', none) ∧
      s'.element = Element.ofTerm false (uriRef (bytes "db")) := by
    have helement : (Leaf.iri (.iriref (irirefToken (bytes "d")))).element false s.prefixMap s.base
        s.latestBNLabel = .ok (Element.ofTerm false (uriRef (bytes "db"))) := by
      simp only [Leaf.element, iriref_uri, hbase]
      rfl
    obtain ⟨s', hactions, hreads⟩ := Leaf.runActions_ok hs (.inl rfl) helement
    have hterm : Run turtle (.ref .term) (bytes "<d>") (.ok []) _ := exec_sound 30 rfl
    refine ⟨_, s', hterm, ?_, hreads.element⟩
    rw [runActions_eq_essence]
    exact hactions
  have hreads := hclaim [] s hreached houtside (char '"') (bytes "v") (bytes "<d>") (bytes " .")
    (bytes "db") hstring hiri halone
  rcases (hs.datatype_iff hstring hiri halone).mp hreads with hnil | ⟨rest, trace, hrun⟩
  · rw [hbase] at hnil
    cases hnil
  · exact Run.not_matches (b := char '<') (n := 8) (by decide) (by decide) hrun

end RdfParser.Turtle
