/-
  Turtle/Spelling.lean --- what the texts of terms look like, and when a term stands
  for an element.

  The actions of a term cut its text at fixed places.  The grammar makes sure that the
  text is long enough, so what is left to go wrong is the lookup of a prefix and the
  empty IRI under a base.
-/
import RdfParser.Turtle.LeafEffect
import RdfParser.Turtle.PrefixScope

set_option autoImplicit false

namespace RdfParser.Turtle

open RdfParser.Foundation RdfParser.Rdf RdfParser.Peg RdfParser.Peg.Rule

variable {q : Bool}

/-! ## Shapes -/

theorem iriref_shape {text : Bytes} (h : Matches turtle .iriref text) :
    ∃ iri, text = irirefToken iri := by
  obtain ⟨rest, _, hrun⟩ := h
  obtain ⟨iri, hinput⟩ := iriref_sound hrun
  exact ⟨iri, List.append_cancel_right hinput⟩

theorem blankNodeLabel_shape {text : Bytes} (h : Matches turtle .blankNodeLabel text) :
    ∃ label, text = bytes "_:" ++ label := by
  obtain ⟨rest, _, hrun⟩ := h
  obtain ⟨_, hbody, -⟩ := hrun.ref_ok
  obtain ⟨_, _, _, hunderscore, hmore, -⟩ := hbody.seq_ok
  obtain ⟨b, hb, hinput, -⟩ := hunderscore.byte_ok
  obtain ⟨_, _, _, hcolon, hname, -⟩ := hmore.seq_ok
  obtain ⟨c, hc, rfl, -⟩ := hcolon.byte_ok
  obtain ⟨label, rfl⟩ := hname.suffix
  refine ⟨label, List.append_cancel_right (hinput.trans ?_)⟩
  rw [beq_iff_eq.mp hb, beq_iff_eq.mp hc]
  rfl

theorem langtag_shape {text : Bytes} (h : Matches turtle .langtag text) :
    ∃ tag, text = char '@' :: tag := by
  obtain ⟨rest, _, hrun⟩ := h
  obtain ⟨_, hbody, -⟩ := hrun.ref_ok
  obtain ⟨_, _, _, hat, hmore, -⟩ := hbody.seq_ok
  obtain ⟨b, hb, hinput, -⟩ := hat.byte_ok
  obtain ⟨tag, rfl⟩ := hmore.suffix
  refine ⟨tag, List.append_cancel_right (hinput.trans ?_)⟩
  rw [beq_iff_eq.mp hb, List.cons_append]

/-- A string stands between two quotes of one kind. -/
theorem turtleString_shape {text : Bytes} (h : Matches turtle .turtleString text) :
    ∃ quote body, (quote = char '"' ∨ quote = char '\'') ∧
      text = quote :: (body ++ [quote]) := by
  obtain ⟨rest, trace, hrun⟩ := h
  have hdelimited : ∃ quote body, (quote = char '"' ∨ quote = char '\'') ∧
      text ++ rest = quote :: (body ++ quote :: rest) := by
    obtain ⟨_, hbody, -⟩ := hrun.ref_ok
    rcases hbody.sor_ok with hlong | ⟨_, _, -, hmore, -⟩
    · obtain ⟨_, hlong, -⟩ := hlong.ref_ok
      obtain ⟨body, hinput⟩ := Run.delimited
        [ch '"', ch '"', longStringBody '"', ch '"', ch '"'] hlong
      exact ⟨_, body, .inl rfl, hinput⟩
    rcases hmore.sor_ok with hlong | ⟨_, _, -, hmore, -⟩
    · obtain ⟨_, hlong, -⟩ := hlong.ref_ok
      obtain ⟨body, hinput⟩ := Run.delimited
        [ch '\'', ch '\'', longStringBody '\'', ch '\'', ch '\''] hlong
      exact ⟨_, body, .inr rfl, hinput⟩
    rcases hmore.sor_ok with hshort | ⟨_, _, -, hshort, -⟩
    · obtain ⟨_, hshort, -⟩ := hshort.ref_ok
      obtain ⟨body, hinput⟩ := Run.delimited [shortStringBody '\''] hshort
      exact ⟨_, body, .inr rfl, hinput⟩
    · obtain ⟨_, hshort, -⟩ := hshort.ref_ok
      obtain ⟨body, hinput⟩ := Run.delimited [shortStringBody '"'] hshort
      exact ⟨_, body, .inl rfl, hinput⟩
  obtain ⟨quote, body, hquote, hinput⟩ := hdelimited
  refine ⟨quote, body, hquote, List.append_cancel_right (hinput.trans ?_)⟩
  simp

theorem var_shape {text : Bytes} (h : Matches turtle .var text) :
    ∃ sigil name, (sigil = char '?' ∨ sigil = char '$') ∧ text = sigil :: name := by
  obtain ⟨rest, trace, hrun⟩ := h
  obtain ⟨_, hbody, -⟩ := hrun.ref_ok
  have hsigil : ∀ (sigil : Char) (inner : Trace RuleName),
      Run turtle (.seq (ch sigil) (.ref .varname)) (text ++ rest) (.ok rest) inner →
      ∃ name, text = char sigil :: name := by
    intro sigil inner hvar
    obtain ⟨_, _, _, hfirst, hname, -⟩ := hvar.seq_ok
    obtain ⟨b, hb, hinput, -⟩ := hfirst.byte_ok
    obtain ⟨name, rfl⟩ := hname.suffix
    refine ⟨name, List.append_cancel_right (hinput.trans ?_)⟩
    rw [beq_iff_eq.mp hb, List.cons_append]
  rcases hbody.sor_ok with hvar | ⟨_, _, -, hvar, -⟩
  · obtain ⟨_, hvar, -⟩ := hvar.ref_ok
    obtain ⟨name, hname⟩ := hsigil '?' _ hvar
    exact ⟨_, name, .inl rfl, hname⟩
  · obtain ⟨_, hvar, -⟩ := hvar.ref_ok
    obtain ⟨name, hname⟩ := hsigil '$' _ hvar
    exact ⟨_, name, .inr rfl, hname⟩

/-! ## The element of a spelling -/

theorem substr_inner (first last : UInt8) (body : Bytes) :
    substr (first :: (body ++ [last])) 1 (sizeSub (first :: (body ++ [last])).length 2) =
      .ok body := by
  simp [substr]

theorem iriref_uri (prefixMap : PrefixMap) (base iri : Bytes) :
    (IriLeaf.iriref (irirefToken iri)).uri prefixMap base =
      if base ≠ [] then insert iri 1 base else .ok iri := by
  simp only [IriLeaf.uri, irirefToken, substr_inner]

theorem prefixedName_uri {name : Bytes} (hname : Solid name) (prefixMap : PrefixMap)
    (base : Bytes) :
    (IriLeaf.prefixedName name).uri prefixMap base =
      match prefixMap.find (beforeColon name) with
      | some mappedPrefix => .ok (mappedPrefix ++ afterColon name)
      | none => .error (.runtimeError undefinedPrefix) := by
  cases hfind : prefixMap.find (beforeColon name) <;>
    simp only [IriLeaf.uri, extractWord_word hname, hfind]

theorem iriref_datatype (prefixMap : PrefixMap) (iri : Bytes) :
    (IriLeaf.iriref (irirefToken iri)).datatype prefixMap = .ok iri := by
  simp [IriLeaf.datatype, irirefToken, substr, bytes]

theorem prefixedName_datatype {name : Bytes} (hcolon : char ':' ∈ name)
    (prefixMap : PrefixMap) :
    (IriLeaf.prefixedName name).datatype prefixMap =
      match prefixMap.find (beforeColon name) with
      | some mappedPrefix => .ok (mappedPrefix ++ afterColon name)
      | none => .ok name := by
  have htag : substr (bytes "^^" ++ name) 2 (bytes "^^" ++ name).length = .ok name :=
    substr_rest (bytes "^^") name (by simp)
  cases hfind : prefixMap.find (beforeColon name) <;>
    simp only [IriLeaf.datatype, htag, List.contains_iff_mem, hcolon, if_true, hfind]

theorem blankNodeLabel_element (label : Bytes) :
    substr (bytes "_:" ++ label) 2 (bytes "_:" ++ label).length = .ok label :=
  substr_rest (bytes "_:") label (by simp)

theorem langtag_tag (tag : Bytes) :
    substr (char '@' :: tag) 1 (char '@' :: tag).length = .ok tag :=
  substr_rest [char '@'] tag (by simp)

theorem turtleString_body (quote : UInt8) (body : Bytes) :
    substr (quote :: (body ++ [quote])) 1
      (sizeSub (sizeSub (quote :: (body ++ [quote])).length 1) 1) = .ok body := by
  simp [substr]

theorem var_name (sigil : UInt8) (name : Bytes) :
    substr (sigil :: name) 1 (sizeSub (sigil :: name).length 1) = .ok name := by
  simp [substr]

/-! ## When a spelling stands for an element -/

/-- The prefix of a prefixed name is bound, and the empty reference does not meet a
base. -/
def IriLeaf.Resolves (prefixMap : PrefixMap) (base : Bytes) : IriLeaf → Prop
  | .iriref text => base = [] ∨ text ≠ irirefToken []
  | .prefixedName name => (prefixMap.find (beforeColon name)).isSome = true

/-- The IRI of a spelling resolves. -/
def Leaf.Resolves (prefixMap : PrefixMap) (base : Bytes) : Leaf → Prop
  | .iri i => i.Resolves prefixMap base
  | .rdfLiteral _ (.typeTag i) => i.Resolves prefixMap base
  | _ => True

theorem IriLeaf.uri_ok_iff {i : IriLeaf} (hi : i.WellFormed) (prefixMap : PrefixMap)
    (base : Bytes) :
    (∃ uri, i.uri prefixMap base = .ok uri) ↔ i.Resolves prefixMap base := by
  cases i with
  | iriref text =>
      obtain ⟨iri, rfl⟩ := iriref_shape hi
      rw [iriref_uri]
      by_cases hbase : base = []
      · simp [hbase, Resolves]
      · cases iri with
        | nil => simp [hbase, Resolves, Foundation.insert]
        | cons b iri => simp [hbase, Resolves, Foundation.insert, irirefToken]
  | prefixedName name =>
      rw [prefixedName_uri (solid_of_matches hi rfl)]
      cases hfind : prefixMap.find (beforeColon name) <;> simp [Resolves, hfind]

/-- A type tag whose IRI resolves names a datatype. -/
theorem IriLeaf.datatype_ok {i : IriLeaf} (hi : i.WellFormed) (prefixMap : PrefixMap) :
    ∃ datatype, i.datatype prefixMap = .ok datatype := by
  cases i with
  | iriref text =>
      obtain ⟨iri, rfl⟩ := iriref_shape hi
      exact ⟨iri, iriref_datatype prefixMap iri⟩
  | prefixedName name =>
      rw [prefixedName_datatype (colon_mem_of_matches hi)]
      cases prefixMap.find (beforeColon name) with
      | none => exact ⟨_, rfl⟩
      | some mappedPrefix => exact ⟨_, rfl⟩

theorem Suffix.literal_ok_iff {suffix : Suffix} (hsuffix : suffix.WellFormed)
    (text : Bytes) (prefixMap : PrefixMap) (base body : Bytes) :
    (∃ t, suffix.literal prefixMap base body = .ok t) ↔
      (Leaf.rdfLiteral text suffix).Resolves prefixMap base := by
  cases suffix with
  | plain => simp [literal, Leaf.Resolves]
  | langtag text =>
      obtain ⟨tag, rfl⟩ := langtag_shape hsuffix
      simp only [literal, langtag_tag, Leaf.Resolves]
      simp [Except.map]
  | typeTag i =>
      obtain ⟨datatype, hdatatype⟩ := i.datatype_ok hsuffix prefixMap
      have hi := i.uri_ok_iff hsuffix prefixMap base
      simp only [literal, Leaf.Resolves, hdatatype, ← hi]
      cases i.uri prefixMap base <;> simp [Except.map]

/-- A well-formed spelling stands for an element exactly when its IRI resolves. -/
theorem Leaf.element_ok_iff {leaf : Leaf} (hleaf : leaf.WellFormed) (prefixMap : PrefixMap)
    (base : Bytes) (label : Nat) :
    (∃ e, leaf.element q prefixMap base label = .ok e) ↔ leaf.Resolves prefixMap base := by
  cases leaf with
  | iri i =>
      have hi := i.uri_ok_iff hleaf prefixMap base
      simp only [element, Resolves, ← hi]
      cases i.uri prefixMap base <;> simp [Except.map]
  | blankNodeLabel text =>
      obtain ⟨label, rfl⟩ := blankNodeLabel_shape hleaf
      simp only [element, blankNodeLabel_element, Resolves]
      simp [Except.map]
  | anon _ | booleanLiteral _ | numericLiteral _ _ => simp [element, Resolves]
  | rdfLiteral text suffix =>
      obtain ⟨hstring, hsuffix⟩ := hleaf
      obtain ⟨quote, body, -, rfl⟩ := turtleString_shape hstring
      simp only [element, turtleString_body]
      rw [← Suffix.literal_ok_iff hsuffix]
      cases suffix.literal prefixMap base body <;> simp [Except.map]
  | var text =>
      obtain ⟨sigil, name, -, rfl⟩ := var_shape hleaf
      cases q with
      | false => simp [element, Resolves]
      | true =>
          simp only [element, var_name, Resolves]
          exact iff_of_true ⟨_, rfl⟩ trivial

end RdfParser.Turtle
