/-
  Peg/Munch.lean --- expressions that find longest prefixes.

  Greedy repetition and ordered choice never go back.  For a language whose parts are
  determined they still find the longest prefix; the rules below put such expressions
  together.
-/
import RdfParser.Foundation.Longest
import RdfParser.Peg.Simulation

set_option autoImplicit false

namespace RdfParser.Peg

open Computability RdfParser.Foundation

variable {ν : Type} {G : ν → Rule ν}

/-- The expression matches the longest prefix of its input in the language, and fails where
there is none. -/
structure Munches (G : ν → Rule ν) (rule : Rule ν) (L : Language UInt8) : Prop where
  reads : ∀ input rest, (∃ t, Run G rule input (.ok rest) t) ↔ Longest L input rest
  fails : ∀ input, (∀ text ∈ L, ¬ text <+: input) → ∃ t, Run G rule input .fail t

/-! ## Characters -/

/-- One byte of a class. -/
def byteOf (accepts : UInt8 → Bool) : Language UInt8 := {text | ∃ b, accepts b = true ∧ text = [b]}

/-- The UTF-8 encoding of one code point of a class. -/
def codePointOf (accepts : Nat → Bool) : Language UInt8 :=
  {text | ∃ c, accepts c = true ∧ peekUtf8 text = some (c, text.length)}

theorem code_byteOf (accepts : UInt8 → Bool) : Code (byteOf accepts) := by
  rintro _ ⟨b, -, rfl⟩ _ ⟨c, -, rfl⟩ hfront
  exact hfront.eq_of_length rfl

theorem over_byteOf (accepts : UInt8 → Bool) : Over (accepts · = true) (byteOf accepts) := by
  rintro _ ⟨b, hb, rfl⟩ c hc
  rw [List.mem_singleton.mp hc]
  exact hb

theorem begins_byteOf (accepts : UInt8 → Bool) :
    Begins (accepts · = true) (byteOf accepts) := by
  rintro _ ⟨b, hb, rfl⟩
  exact ⟨b, [], rfl, hb⟩

theorem byteOf_add (p q : UInt8 → Bool) :
    byteOf p + byteOf q = byteOf fun b => p b || q b := by
  ext text
  constructor
  · rintro (⟨b, hb, rfl⟩ | ⟨b, hb, rfl⟩)
    · exact ⟨b, by simp [hb], rfl⟩
    · exact ⟨b, by simp [hb], rfl⟩
  · rintro ⟨b, hb, rfl⟩
    rcases Bool.or_eq_true_iff.mp hb with hb | hb
    · exact .inl ⟨b, hb, rfl⟩
    · exact .inr ⟨b, hb, rfl⟩

/-- What follows an encoded code point does not matter. -/
theorem peekUtf8_append {text : Bytes} {p : Nat × Nat} (h : peekUtf8 text = some p)
    (rest : Bytes) : peekUtf8 (text ++ rest) = some p := by
  rcases text with _ | ⟨b₀, _ | ⟨b₁, _ | ⟨b₂, _ | ⟨b₃, text⟩⟩⟩⟩ <;>
    simp only [List.cons_append, List.nil_append, peekUtf8] at h ⊢
  · cases h
  all_goals split_ifs at h ⊢ <;> exact h

/-- It is at the front of the input. -/
theorem peekUtf8_take {input : Bytes} {c size : Nat} (h : peekUtf8 input = some (c, size)) :
    size ≤ input.length ∧ peekUtf8 (input.take size) = some (c, size) := by
  rcases input with _ | ⟨b₀, _ | ⟨b₁, _ | ⟨b₂, _ | ⟨b₃, text⟩⟩⟩⟩ <;>
    simp only [peekUtf8] at h ⊢
  · cases h
  all_goals
    split_ifs at h <;> obtain ⟨rfl, rfl⟩ := Prod.mk.inj (Option.some.inj h) <;>
      refine ⟨by simp, ?_⟩ <;>
      simp only [List.take_succ_cons, List.take_zero] <;>
      simp only [if_pos, if_neg, not_false_eq_true, true_and, and_self, *]

theorem code_codePointOf (accepts : Nat → Bool) : Code (codePointOf accepts) := by
  rintro u ⟨c, -, hu⟩ _ ⟨d, -, hv⟩ ⟨rest, rfl⟩
  rw [peekUtf8_append hu, Option.some.injEq, Prod.mk.injEq] at hv
  exact (List.prefix_append u rest).eq_of_length hv.2

/-- A byte below 128 stands for the code point of that number. -/
theorem byteOf_le {accepts : UInt8 → Bool} {p : Nat → Bool}
    (h : ∀ b, accepts b = true → b.toNat < 128 ∧ p b.toNat = true) :
    byteOf accepts ≤ codePointOf p := by
  rintro _ ⟨b, hb, rfl⟩
  exact ⟨b.toNat, (h b hb).2, by simp [peekUtf8, (h b hb).1]⟩

theorem codePointOf_le {p q : Nat → Bool} (h : ∀ c, p c = true → q c = true) :
    codePointOf p ≤ codePointOf q := by
  rintro text ⟨c, hc, hpeek⟩
  exact ⟨c, h c hc, hpeek⟩

/-- So no code point of another number begins with that byte. -/
theorem begins_codePointOf (accepts : Nat → Bool) :
    Begins (fun b => b.toNat < 128 → accepts b.toNat = true) (codePointOf accepts) := by
  rintro (_ | ⟨b, more⟩) ⟨c, hc, hpeek⟩
  · cases hpeek
  · refine ⟨b, more, rfl, fun hascii => ?_⟩
    simp only [peekUtf8, if_pos hascii, Option.some.injEq, Prod.mk.injEq] at hpeek
    rw [hpeek.1]
    exact hc

namespace Munches

variable {rule first second body : Rule ν} {L M P : Language UInt8} {input rest : Bytes}

theorem congr (h : Munches G rule L) (heq : L = M) : Munches G rule M := heq ▸ h

/-- It matches exactly where there is such a prefix. -/
theorem matches_iff (h : Munches G rule L) (input : Bytes) :
    (∃ rest t, Run G rule input (.ok rest) t) ↔ ∃ text ∈ L, text <+: input := by
  rw [← exists_longest_iff]
  exact exists_congr fun rest => h.reads input rest

/-- Where it fails, there is none. -/
theorem not_of_fail (h : Munches G rule L) {t : Trace ν} (hfail : Run G rule input .fail t) :
    ∀ text ∈ L, ¬ text <+: input := by
  intro text htext hfront
  obtain ⟨rest, t', hrun⟩ := (h.matches_iff input).mpr ⟨text, htext, hfront⟩
  cases (hfail.deterministic hrun).1

/-- It either matches or fails. -/
theorem total (h : Munches G rule L) (input : Bytes) :
    (∃ rest t, Run G rule input (.ok rest) t) ∨ ∃ t, Run G rule input .fail t := by
  by_cases hnone : ∀ text ∈ L, ¬ text <+: input
  · exact .inr (h.fails input hnone)
  · push Not at hnone
    exact .inl ((h.matches_iff input).mpr hnone)

/-- For a code, any prefix is the longest. -/
theorem of_code (hcode : Code L)
    (hreads : ∀ input rest, (∃ t, Run G rule input (.ok rest) t) ↔ ∃ text ∈ L, text ++ rest = input)
    (hfails : ∀ input, (∀ text ∈ L, ¬ text <+: input) → ∃ t, Run G rule input .fail t) :
    Munches G rule L := by
  refine ⟨fun input rest => ?_, hfails⟩
  rw [hreads]
  constructor
  · rintro ⟨text, htext, rfl⟩
    refine ⟨text, htext, rfl, fun other hother hfront => ?_⟩
    rw [hcode.eq hother htext hfront (List.prefix_append text rest)]
  · rintro ⟨text, htext, hinput, -⟩
    exact ⟨text, htext, hinput⟩

theorem success : Munches G .success 1 := by
  refine ⟨fun input rest => ?_, fun input h => absurd List.nil_prefix (h [] rfl)⟩
  constructor
  · rintro ⟨t, hrun⟩
    obtain ⟨rfl, -⟩ := hrun.success_ok
    refine ⟨[], rfl, rfl, fun other hother _ => ?_⟩
    rw [(Language.mem_one other).mp hother]
  · rintro ⟨text, htext, rfl, -⟩
    rw [(Language.mem_one text).mp htext]
    exact ⟨[], .success⟩

theorem byte (accepts : UInt8 → Bool) : Munches G (.byte accepts) (byteOf accepts) := by
  refine of_code (code_byteOf accepts) (fun input rest => ?_) fun input h => ?_
  · constructor
    · rintro ⟨t, hrun⟩
      obtain ⟨b, hb, rfl, -⟩ := hrun.byte_ok
      exact ⟨[b], ⟨b, hb, rfl⟩, rfl⟩
    · rintro ⟨_, ⟨b, hb, rfl⟩, rfl⟩
      exact ⟨[], .byteOk hb⟩
  · refine ⟨[], .byteFail fun b hb => ?_⟩
    cases input with
    | nil => cases hb
    | cons c input =>
        obtain rfl := Option.mem_some_iff.mp hb
        refine eq_false_of_ne_true fun haccepts => ?_
        exact h [c] ⟨c, haccepts, rfl⟩ ⟨input, rfl⟩

theorem codePoint (accepts : Nat → Bool) :
    Munches G (.codePoint accepts) (codePointOf accepts) := by
  refine of_code (code_codePointOf accepts) (fun input rest => ?_) fun input h => ?_
  · constructor
    · rintro ⟨t, hrun⟩
      cases hrun with
      | @codePointOk _ _ c size hpeek hc =>
          obtain ⟨hle, htake⟩ := peekUtf8_take hpeek
          refine ⟨input.take size, ⟨c, hc, ?_⟩, List.take_append_drop size input⟩
          rw [htake, List.length_take_of_le hle]
    · rintro ⟨text, ⟨c, hc, hpeek⟩, rfl⟩
      have hrun := Run.codePointOk (G := G) (peekUtf8_append hpeek rest) hc
      rw [List.drop_left] at hrun
      exact ⟨[], hrun⟩
  · refine ⟨[], .codePointFail fun p hp => ?_⟩
    refine eq_false_of_ne_true fun haccepts => ?_
    obtain ⟨hle, htake⟩ := peekUtf8_take hp
    refine h (input.take p.2) ⟨p.1, haccepts, ?_⟩ (List.take_prefix p.2 input)
    rw [htake, List.length_take_of_le hle]

theorem ref {name : ν} (h : Munches G (G name) L) : Munches G (.ref name) L := by
  refine ⟨fun input rest => ?_, fun input hnone => ?_⟩
  · rw [← h.reads]
    constructor
    · rintro ⟨t, hrun⟩
      obtain ⟨t', hbody, -⟩ := hrun.ref_ok
      exact ⟨t', hbody⟩
    · rintro ⟨t, hbody⟩
      exact ⟨_, .ref hbody⟩
  · obtain ⟨t, hfail⟩ := h.fails input hnone
    exact ⟨_, .ref hfail⟩

/-- What follows a text of a code does not matter. -/
theorem portable (h : Munches G rule L) (hcode : Code L) : Portable G rule := by
  intro text rest rest' t hrun
  obtain ⟨found, hfound, hinput, -⟩ := (h.reads _ _).mp ⟨t, hrun⟩
  obtain rfl := List.append_cancel_right hinput
  refine (h.reads _ _).mpr ⟨found, hfound, rfl, fun other hother hfront => ?_⟩
  rw [hcode.eq hother hfound hfront (List.prefix_append found rest')]

/-! ## Sequences and choices -/

/-- A sequence whose first part is determined. -/
theorem seq (h₁ : Munches G first L) (h₂ : Munches G second M) (hdetermined : Determined L M) :
    Munches G (.seq first second) (L * M) := by
  have hlongest : ∀ {u v middle : Bytes}, u ∈ L → v ∈ M → v <+: middle →
      Longest L (u ++ middle) middle := by
    intro u v middle hu hv hfront
    refine ⟨u, hu, rfl, fun other hother hother' => ?_⟩
    exact hdetermined u hu v hv other hother _ ((List.prefix_append_right_inj u).mpr hfront)
      hother'
  refine ⟨fun input rest => ⟨?_, ?_⟩, fun input hnone => ?_⟩
  · rintro ⟨t, hrun⟩
    obtain ⟨middle, _, _, hfirst, hsecond, -⟩ := hrun.seq_ok
    obtain ⟨u, hu, rfl, hulongest⟩ := (h₁.reads _ _).mp ⟨_, hfirst⟩
    obtain ⟨v, hv, rfl, hvlongest⟩ := (h₂.reads _ _).mp ⟨_, hsecond⟩
    refine ⟨u ++ v, Language.append_mem_mul hu hv, List.append_assoc .., ?_⟩
    intro other hother hfront
    obtain ⟨u', hu', v', hv', rfl⟩ := Language.mem_mul.mp hother
    -- the other text is divided at the same place
    obtain rfl := hdetermined.eq hu hv hu' hv' (by simp : u ++ v <+: u ++ (v ++ rest)) hfront
    rw [List.prefix_append_right_inj] at hfront
    rw [List.length_append, List.length_append]
    exact Nat.add_le_add_left (hvlongest v' hv' hfront) _
  · rintro ⟨text, htext, rfl, htextlongest⟩
    obtain ⟨u, hu, v, hv, rfl⟩ := Language.mem_mul.mp htext
    rw [List.append_assoc] at htextlongest ⊢
    obtain ⟨_, hfirst⟩ := (h₁.reads _ _).mpr (hlongest hu hv (List.prefix_append v rest))
    have hsecond : Longest M (v ++ rest) rest := by
      refine ⟨v, hv, rfl, fun v' hv' hfront => ?_⟩
      have hle := htextlongest (u ++ v') (Language.append_mem_mul hu hv')
        ((List.prefix_append_right_inj u).mpr hfront)
      rw [List.length_append, List.length_append] at hle
      omega
    obtain ⟨_, hsecond⟩ := (h₂.reads _ _).mpr hsecond
    exact ⟨_, .seqNext hfirst hsecond⟩
  · rcases h₁.total input with ⟨middle, _, hfirst⟩ | ⟨_, hfail⟩
    · obtain ⟨u, hu, rfl, -⟩ := (h₁.reads _ _).mp ⟨_, hfirst⟩
      have hsecond : ∀ v ∈ M, ¬ v <+: middle := by
        intro v hv hfront
        exact hnone (u ++ v) (Language.append_mem_mul hu hv)
          ((List.prefix_append_right_inj u).mpr hfront)
      obtain ⟨_, hfail⟩ := h₂.fails middle hsecond
      exact ⟨_, .seqNext hfirst hfail⟩
    · exact ⟨_, .seqStop hfail (by simp)⟩

/-- A choice in which the first alternative, where it has a prefix at all, has one that is
no shorter than those of the second. -/
theorem sor (h₁ : Munches G first L) (h₂ : Munches G second M)
    (hfirst : ∀ u ∈ L, ∀ v ∈ M, ∀ input, u <+: input → v <+: input →
      ∃ w ∈ L, w <+: input ∧ v.length ≤ w.length) : Munches G (.sor first second) (L + M) := by
  have hleft : ∀ {input rest : Bytes}, Longest L input rest → Longest (L + M) input rest := by
    rintro input rest ⟨u, hu, rfl, hlongest⟩
    refine ⟨u, .inl hu, rfl, fun other hother hfront => ?_⟩
    rcases hother with hother | hother
    · exact hlongest other hother hfront
    · obtain ⟨w, hw, hwprefix, hle⟩ := hfirst u hu other hother _ (List.prefix_append u rest)
        hfront
      exact hle.trans (hlongest w hw hwprefix)
  have hright : ∀ {input rest : Bytes}, (∀ text ∈ L, ¬ text <+: input) →
      (Longest M input rest ↔ Longest (L + M) input rest) := by
    intro input rest hnone
    constructor
    · rintro ⟨v, hv, rfl, hlongest⟩
      refine ⟨v, .inr hv, rfl, fun other hother hfront => ?_⟩
      rcases hother with hother | hother
      · exact absurd hfront (hnone other hother)
      · exact hlongest other hother hfront
    · rintro ⟨v, hv | hv, rfl, hlongest⟩
      · exact absurd (List.prefix_append v rest) (hnone v hv)
      · exact ⟨v, hv, rfl, fun other hother => hlongest other (.inr hother)⟩
  refine ⟨fun input rest => ?_, fun input hnone => ?_⟩
  · rcases h₁.total input with ⟨middle, t, hrun⟩ | ⟨t, hfail⟩
    · have hlongest := hleft ((h₁.reads _ _).mp ⟨t, hrun⟩)
      constructor
      · rintro ⟨t', hrun'⟩
        obtain ⟨heq, -⟩ := hrun'.deterministic (.sorStop hrun (by simp))
        rw [Outcome.ok.inj heq]
        exact hlongest
      · intro h
        rw [h.unique hlongest]
        exact ⟨t, .sorStop hrun (by simp)⟩
    · rw [← hright (h₁.not_of_fail hfail), ← h₂.reads]
      constructor
      · rintro ⟨t', hrun'⟩
        rcases hrun'.sor_ok with hrun | ⟨_, t₂, -, hrun, -⟩
        · cases (hfail.deterministic hrun).1
        · exact ⟨t₂, hrun⟩
      · rintro ⟨t₂, hrun⟩
        exact ⟨_, .sorNext hfail hrun⟩
  · obtain ⟨_, hfail⟩ := h₁.fails input fun text htext => hnone text (.inl htext)
    obtain ⟨_, hfail'⟩ := h₂.fails input fun text htext => hnone text (.inr htext)
    exact ⟨_, .sorNext hfail hfail'⟩

/-- A choice that makes up a code. -/
theorem sor_code (h₁ : Munches G first L) (h₂ : Munches G second M) (hcode : Code (L + M)) :
    Munches G (.sor first second) (L + M) := by
  refine h₁.sor h₂ fun u hu v hv input hu' hv' => ⟨u, hu, hu', ?_⟩
  rw [hcode.eq (.inl hu) (.inr hv) hu' hv']

/-- A choice between languages that exclude each other. -/
theorem sor_apart (h₁ : Munches G first L) (h₂ : Munches G second M) (hapart : Apart L M) :
    Munches G (.sor first second) (L + M) :=
  h₁.sor h₂ fun u hu v hv input hu' hv' => absurd hv' (hapart u hu v hv input hu')

/-- One of several characters. -/
theorem sorOf_one (b : UInt8) (bs : Bytes) :
    Munches G (.sorOf (.one b) (bs.map .one)) (byteOf (b :: bs).contains) := by
  have hone : ∀ b : UInt8, Munches G (.one b) (byteOf (· == b)) := fun b => .byte _
  induction bs generalizing b with
  | nil =>
      refine (hone b).congr (congrArg byteOf (funext fun c => ?_))
      rw [List.contains_cons, List.contains_nil, Bool.or_false]
  | cons next bs ih =>
      have hsum := byteOf_add (· == b) (next :: bs).contains
      have hcode : Code (byteOf (· == b) + byteOf (next :: bs).contains) :=
        hsum ▸ code_byteOf _
      exact ((hone b).sor_code (ih next) hcode).congr hsum

theorem opt (h : Munches G rule L) : Munches G (.opt rule) (L + 1) := by
  refine h.sor success fun u hu v hv input hu' _ => ⟨u, hu, hu', ?_⟩
  rw [(Language.mem_one v).mp hv]
  exact Nat.zero_le _

/-! ## Repetitions -/

/-- A repetition whose body matches series of texts of a code. -/
theorem star (h : Munches G body L) (hcode : Code P) (hsingle : P ≤ L) (hseries : L ≤ P∗)
    (hnil : [] ∉ L) : Munches G (.star body) P∗ := by
  have hsound : ∀ {input rest : Bytes} {t : Trace ν}, Run G (.star body) input (.ok rest) t →
      Longest P∗ input rest := by
    intro input rest t hrun
    generalize hrule : Rule.star body = rule at hrun
    generalize hout : Outcome.ok rest = outcome at hrun
    induction hrun with
    | starNext hfirst _ _ ih =>
        cases hrule
        obtain ⟨u, hu, rfl, -⟩ := (h.reads _ _).mp ⟨_, hfirst⟩
        obtain ⟨text, htext, rfl, hlongest⟩ := ih rfl hout
        refine ⟨u ++ text, append_mem_kstar (hseries hu) htext, List.append_assoc .., ?_⟩
        intro other hother hfront
        rcases hcode.kstar_cut (hseries hu) hother (List.prefix_append u _) hfront with
          hle | ⟨more, hmore, rfl⟩
        · rw [List.length_append]
          omega
        · rw [List.prefix_append_right_inj] at hfront
          rw [List.length_append, List.length_append]
          exact Nat.add_le_add_left (hlongest more hmore hfront) _
    | starDone hfail _ =>
        cases hrule
        cases hout
        refine ⟨[], Language.nil_mem_kstar P, rfl, fun other hother hfront => ?_⟩
        obtain ⟨texts, rfl, htexts⟩ := Language.mem_kstar.mp hother
        cases texts with
        | nil => exact Nat.le_refl _
        | cons p texts =>
            have hp := hsingle (htexts p List.mem_cons_self)
            exact absurd ((List.prefix_append p _).trans hfront) (h.not_of_fail hfail p hp)
    | _ => cases hrule <;> cases hout
  have hends : ∀ n (input : Bytes), input.length = n →
      ∃ rest t, Run G (.star body) input (.ok rest) t := by
    intro n
    induction n using Nat.strongRecOn with
    | ind n ih =>
    intro input hlength
    rcases h.total input with ⟨middle, t, hrun⟩ | ⟨t, hfail⟩
    · obtain ⟨u, hu, rfl, -⟩ := (h.reads _ _).mp ⟨t, hrun⟩
      have hpos : 0 < u.length := List.length_pos_of_ne_nil fun hempty => hnil (hempty ▸ hu)
      rw [List.length_append] at hlength
      obtain ⟨rest, _, hmore⟩ := ih middle.length (by omega) middle rfl
      exact ⟨rest, _, .starNext hrun hmore⟩
    · exact ⟨input, t, .starDone hfail⟩
  refine ⟨fun input rest => ⟨fun ⟨_, hrun⟩ => hsound hrun, fun hlongest => ?_⟩,
    fun input hnone => absurd List.nil_prefix (hnone [] (Language.nil_mem_kstar P))⟩
  obtain ⟨rest', t, hrun⟩ := hends input.length input rfl
  rw [hlongest.unique (hsound hrun)]
  exact ⟨t, hrun⟩

theorem star_code (h : Munches G body P) (hcode : Code P) (hnil : [] ∉ P) :
    Munches G (.star body) P∗ :=
  h.star hcode le_rfl le_kstar hnil

theorem plus_code (h : Munches G body P) (hcode : Code P) (hnil : [] ∉ P) :
    Munches G (.plus body) (P * P∗) :=
  h.seq (h.star_code hcode hnil) (hcode.determined _)

/-- Texts with separators between them and in front, but not behind. -/
theorem star_separated {separator : Rule ν} {S T : Language UInt8} (hsep : Munches G separator S)
    (hbody : Munches G body L) (hS : Code S) (hT : Code T) (hdetermined : Determined S∗ T)
    (hsingle : T ≤ L) (hseries : L ≤ T * T∗) (hnilS : [] ∉ S) (hnil : [] ∉ T) :
    Munches G (.star (.seq (.star separator) body)) (1 + (T + S)∗ * T) := by
  have hblock := (hsep.star_code hS hnilS).seq hbody ((hdetermined.mul T∗).mono hseries)
  have hmore : S∗ * L ≤ (S∗ * T)∗ := by
    have hone : T ≤ S∗ * T := by
      calc T = 1 * T := (one_mul T).symm
        _ ≤ S∗ * T := by
          gcongr
          exact one_le_kstar
    calc S∗ * L ≤ S∗ * (T * T∗) := by gcongr
      _ = S∗ * T * T∗ := (mul_assoc _ _ _).symm
      _ ≤ S∗ * T * (S∗ * T)∗ := by gcongr
      _ ≤ (S∗ * T)∗ := mul_kstar_le_kstar
  have hnilL : [] ∉ S∗ * L :=
    nil_not_mem_mul (.inr fun h => nil_not_mem_mul (.inl hnil) (hseries h))
  exact (hblock.star (hT.mul hdetermined) (by gcongr) hmore hnilL).congr (kstar_kstar_mul T S)

end Munches

end RdfParser.Peg
