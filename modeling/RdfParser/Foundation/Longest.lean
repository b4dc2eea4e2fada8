/-
  Foundation/Longest.lean --- the longest prefix in a language.

  A scanner that never goes back finds longest prefixes if its parts are determined:
  where the text of a part ends does not depend on what comes behind it.  The simplest
  case is a code, a language in which no text is a proper prefix of another.
-/
import Mathlib.Computability.Language
import Mathlib.Data.List.Infix
import Mathlib.Data.Nat.Find
import Mathlib.Order.CompletePartialOrder

set_option autoImplicit false

namespace RdfParser.Foundation

open Computability

variable {α : Type} {L M P : Language α} {input rest rest' text u v w : List α}

/-! ## Longest prefixes -/

/-- The longest prefix of the input in the language leaves `rest`. -/
def Longest (L : Language α) (input rest : List α) : Prop :=
  ∃ text ∈ L, text ++ rest = input ∧ ∀ other ∈ L, other <+: input → other.length ≤ text.length

theorem Longest.unique (h : Longest L input rest) (h' : Longest L input rest') : rest = rest' := by
  obtain ⟨text, htext, hinput, hlongest⟩ := h
  obtain ⟨text', htext', hinput', hlongest'⟩ := h'
  have hfront : text <+: input := ⟨rest, hinput⟩
  have hfront' : text' <+: input := ⟨rest', hinput'⟩
  have hlength := le_antisymm (hlongest' text htext hfront) (hlongest text' htext' hfront')
  have hsame := (List.prefix_of_prefix_length_le hfront hfront' hlength.le).eq_of_length hlength
  rw [← hinput', hsame] at hinput
  exact List.append_cancel_left hinput

/-- Where the input has a prefix in the language, it has a longest one. -/
theorem exists_longest_iff :
    (∃ rest, Longest L input rest) ↔ ∃ text ∈ L, text <+: input := by
  classical
  constructor
  · rintro ⟨rest, text, htext, hinput, -⟩
    exact ⟨text, htext, rest, hinput⟩
  · rintro ⟨text, htext, hfront⟩
    let HasLength (n : Nat) : Prop := ∃ text ∈ L, text <+: input ∧ text.length = n
    have hspec : HasLength (Nat.findGreatest HasLength input.length) :=
      Nat.findGreatest_spec hfront.length_le ⟨text, htext, hfront, rfl⟩
    obtain ⟨longest, hlongest, ⟨rest, hinput⟩, hlength⟩ := hspec
    refine ⟨rest, longest, hlongest, hinput, fun other hother hfront => ?_⟩
    rw [hlength]
    exact Nat.le_findGreatest hfront.length_le ⟨other, hother, hfront, rfl⟩

/-! ## Codes -/

/-- No text of the language is a proper prefix of another. -/
def Code (L : Language α) : Prop := ∀ u ∈ L, ∀ v ∈ L, u <+: v → u = v

theorem Code.mono (h : Code M) (hle : L ≤ M) : Code L :=
  fun u hu v hv => h u (hle hu) v (hle hv)

/-- An input has at most one prefix in a code. -/
theorem Code.eq (h : Code L) (hu : u ∈ L) (hv : v ∈ L) (hu' : u <+: input)
    (hv' : v <+: input) : u = v := by
  rcases List.prefix_or_prefix_of_prefix hu' hv' with huv | hvu
  · exact h u hu v hv huv
  · exact (h v hv u hu hvu).symm

/-- Two series of texts of a code begin alike. -/
theorem Code.kstar_cut (h : Code P) (hu : u ∈ P∗) (hw : w ∈ P∗) (hu' : u <+: input)
    (hw' : w <+: input) : w.length ≤ u.length ∨ ∃ more ∈ P∗, w = u ++ more := by
  obtain ⟨us, rfl, hus⟩ := Language.mem_kstar.mp hu
  obtain ⟨ws, rfl, hws⟩ := Language.mem_kstar.mp hw
  clear hu hw
  induction us generalizing ws input with
  | nil => exact .inr ⟨ws.flatten, Language.join_mem_kstar hws, rfl⟩
  | cons p us ih =>
      cases ws with
      | nil => exact .inl (Nat.zero_le _)
      | cons q ws =>
          obtain ⟨hp, hus⟩ := List.forall_mem_cons.mp hus
          obtain ⟨hq, hmore⟩ := List.forall_mem_cons.mp hws
          rw [List.flatten_cons] at hu' hw'
          obtain rfl : p = q := h.eq hp hq ((List.prefix_append _ _).trans hu')
            ((List.prefix_append _ _).trans hw')
          obtain ⟨input, rfl⟩ := (List.prefix_append _ _).trans hu'
          rw [List.prefix_append_right_inj] at hu' hw'
          rcases ih hus hu' ws hmore hw' with hle | ⟨more, hmore, heq⟩
          · refine .inl ?_
            simp only [List.flatten_cons, List.length_append]
            omega
          · exact .inr ⟨more, hmore, by rw [List.flatten_cons, List.flatten_cons, heq,
              List.append_assoc]⟩

theorem nil_not_mem_mul (h : [] ∉ L ∨ [] ∉ M) : [] ∉ L * M := by
  rintro ⟨u, hu, v, hv, heq⟩
  obtain ⟨rfl, rfl⟩ := List.append_eq_nil_iff.mp heq
  exact h.elim (fun hL => hL hu) fun hM => hM hv

theorem append_mem_kstar (hu : u ∈ P∗) (hv : v ∈ P∗) : u ++ v ∈ P∗ := by
  rw [← kstar_mul_kstar P]
  exact Language.append_mem_mul hu hv

/-- The last text of a series of texts of a code. -/
theorem Code.last_eq (h : Code P) (hnil : [] ∉ P) (hu : u ∈ P∗) (hw : w ∈ P∗) {c d : List α}
    (hc : c ∈ P) (hd : d ∈ P) (heq : u ++ c = w ++ d) : c = d := by
  have hone : ∀ {u w c d : List α}, c ∈ P → d ∈ P → u ++ c = w ++ d →
      (∃ more ∈ P∗, w = u ++ more) → c = d := by
    rintro u w c d hc hd heq ⟨more, hmore, rfl⟩
    rw [List.append_assoc, List.append_cancel_left_eq] at heq
    obtain ⟨texts, rfl, htexts⟩ := Language.mem_kstar.mp hmore
    cases texts with
    | nil => exact heq
    | cons p texts =>
        -- the first text is all of `c`, so nothing is left for `d`
        rw [List.flatten_cons, List.append_assoc] at heq
        have hp := h.eq (htexts p List.mem_cons_self) hc (List.prefix_append p _) ⟨[], by
          rw [List.append_nil, heq]⟩
        rw [← hp, List.self_eq_append_right] at heq
        exact absurd ((List.append_eq_nil_iff.mp heq).2 ▸ hd) hnil
  rcases h.kstar_cut hu hw (List.prefix_append u c) ⟨d, heq.symm⟩ with hle | hcut
  · rcases h.kstar_cut hw hu (List.prefix_append w d) ⟨c, heq⟩ with hle' | hcut
    · have hsame := List.append_inj_left heq (le_antisymm hle' hle)
      rw [hsame] at heq
      exact List.append_cancel_left heq
    · exact (hone hd hc heq.symm hcut).symm
  · exact hone hc hd heq hcut

/-! ## Determined parts -/

/-- In front of a text of `M`, a text of `L` is the longest that the input begins with. -/
def Determined (L M : Language α) : Prop :=
  ∀ u ∈ L, ∀ v ∈ M, ∀ other ∈ L, ∀ input, u ++ v <+: input → other <+: input →
    other.length ≤ u.length

theorem Code.determined (h : Code L) (M : Language α) : Determined L M := by
  intro u hu v _ other hother input huv hfront
  rw [h.eq hother hu hfront ((List.prefix_append u v).trans huv)]

theorem Determined.mono {N : Language α} (h : Determined L N) (hle : M ≤ N) : Determined L M :=
  fun u hu v hv => h u hu v (hle hv)

/-- Whatever follows the text of `M`. -/
theorem Determined.mul (h : Determined L M) (N : Language α) : Determined L (M * N) := by
  rintro u hu _ ⟨v, hv, w, -, rfl⟩ other hother input hfront
  refine h u hu v hv other hother input (List.IsPrefix.trans ?_ hfront)
  exact (List.prefix_append_right_inj u).mpr (List.prefix_append v w)

/-- Then a text is divided in one way. -/
theorem Determined.eq (h : Determined L M) {u' v' : List α} (hu : u ∈ L) (hv : v ∈ M)
    (hu' : u' ∈ L) (hv' : v' ∈ M) (hfront : u ++ v <+: input) (hfront' : u' ++ v' <+: input) :
    u = u' := by
  have hstart := (List.prefix_append u v).trans hfront
  have hstart' := (List.prefix_append u' v').trans hfront'
  have hle := h u hu v hv u' hu' input hfront hstart'
  have hle' := h u' hu' v' hv' u hu input hfront' hstart
  exact (List.prefix_of_prefix_length_le hstart hstart' hle').eq_of_length (le_antisymm hle' hle)

/-- Determined parts, the second of them a code, make a code. -/
theorem Code.mul (h : Code M) (hdetermined : Determined L M) : Code (L * M) := by
  intro text htext text' htext' hfront
  obtain ⟨u, hu, v, hv, rfl⟩ := Language.mem_mul.mp htext
  obtain ⟨u', hu', v', hv', rfl⟩ := Language.mem_mul.mp htext'
  obtain rfl := hdetermined.eq hu hv hu' hv' hfront List.prefix_rfl
  rw [List.prefix_append_right_inj] at hfront
  rw [h v hv v' hv' hfront]

/-! ## Languages that exclude each other -/

/-- No input has a prefix in both. -/
def Apart (L M : Language α) : Prop := ∀ u ∈ L, ∀ v ∈ M, ∀ input, u <+: input → ¬ v <+: input

theorem Apart.symm (h : Apart L M) : Apart M L :=
  fun v hv u hu input hv' hu' => h u hu v hv input hu' hv'

theorem Apart.add (h : Apart L M) {K : Language α} (h' : Apart L K) : Apart L (M + K) := by
  rintro u hu v (hv | hv)
  · exact h u hu v hv
  · exact h' u hu v hv

/-- Whatever follows. -/
theorem Apart.mul (h : Apart L M) (K N : Language α) : Apart (L * K) (M * N) := by
  rintro _ ⟨u, hu, v, -, rfl⟩ _ ⟨u', hu', v', -, rfl⟩ input hfront hfront'
  exact h u hu u' hu' input ((List.prefix_append u v).trans hfront)
    ((List.prefix_append u' v').trans hfront')

/-- After a part that both determine, the rest has to tell them apart. -/
theorem Determined.apart {N : Language α} (hM : Determined L M) (hN : Determined L N)
    (h : Apart M N) : Apart (L * M) (L * N) := by
  rintro _ ⟨u, hu, v, hv, rfl⟩ _ ⟨u', hu', v', hv', rfl⟩ input hfront hfront'
  have hboth : ∀ {w}, w ∈ M → w ∈ M + N := fun hw => .inl hw
  have hdetermined : Determined L (M + N) := by
    rintro u hu v (hv | hv)
    · exact hM u hu v hv
    · exact hN u hu v hv
  obtain rfl := hdetermined.eq hu (hboth hv) hu' (.inr hv') hfront hfront'
  obtain ⟨more, rfl⟩ := hfront
  rw [List.append_assoc, List.prefix_append_right_inj] at hfront'
  exact h v hv v' hv' (v ++ more) (List.prefix_append v more) hfront'

theorem Code.add (h : Code L) (h' : Code M) (hapart : Apart L M) : Code (L + M) := by
  rintro u (hu | hu) v (hv | hv) hfront
  · exact h u hu v hv hfront
  · exact absurd List.prefix_rfl (hapart u hu v hv v hfront)
  · exact absurd hfront (hapart v hv u hu v List.prefix_rfl)
  · exact h' u hu v hv hfront

/-! ## Letters -/

section Letters

variable {p q : α → Prop}

/-- All letters of the texts satisfy `p`. -/
def Over (p : α → Prop) (L : Language α) : Prop := ∀ u ∈ L, ∀ b ∈ u, p b

/-- All texts have a letter that satisfies `p`. -/
def Has (p : α → Prop) (L : Language α) : Prop := ∀ u ∈ L, ∃ b ∈ u, p b

/-- All texts begin with a letter that satisfies `p`. -/
def Begins (p : α → Prop) (L : Language α) : Prop := ∀ u ∈ L, ∃ b more, u = b :: more ∧ p b

theorem Over.imp (h : Over p L) (hpq : ∀ b, p b → q b) : Over q L :=
  fun u hu b hb => hpq b (h u hu b hb)

theorem over_one : Over p (1 : Language α) := by
  intro u hu b hb
  rw [(Language.mem_one u).mp hu] at hb
  cases hb

theorem Over.add (h : Over p L) (h' : Over p M) : Over p (L + M) := by
  rintro u (hu | hu)
  · exact h u hu
  · exact h' u hu

theorem Over.mul (h : Over p L) (h' : Over p M) : Over p (L * M) := by
  rintro _ ⟨u, hu, v, hv, rfl⟩ b hb
  rcases List.mem_append.mp hb with hb | hb
  · exact h u hu b hb
  · exact h' v hv b hb

theorem Over.kstar (h : Over p L) : Over p L∗ := by
  intro u hu b hb
  obtain ⟨texts, rfl, htexts⟩ := Language.mem_kstar.mp hu
  obtain ⟨text, htext, hb⟩ := List.mem_flatten.mp hb
  exact h text (htexts text htext) b hb

theorem Begins.mono (h : Begins p M) (hle : L ≤ M) : Begins p L :=
  fun u hu => h u (hle hu)

theorem Begins.imp (h : Begins p L) (hpq : ∀ b, p b → q b) : Begins q L := by
  intro u hu
  obtain ⟨b, more, heq, hb⟩ := h u hu
  exact ⟨b, more, heq, hpq b hb⟩

theorem Begins.add (h : Begins p L) (h' : Begins p M) : Begins p (L + M) := by
  rintro u (hu | hu)
  · exact h u hu
  · exact h' u hu

theorem Begins.mul (h : Begins p L) (M : Language α) : Begins p (L * M) := by
  rintro _ ⟨u, hu, v, -, rfl⟩
  obtain ⟨b, more, rfl, hb⟩ := h u hu
  exact ⟨b, more ++ v, rfl, hb⟩

theorem Begins.kstar_mul (h : Begins p L) (h' : Begins p M) : Begins p (L∗ * M) := by
  rintro _ ⟨u, hu, v, hv, rfl⟩
  obtain ⟨texts, rfl, htexts⟩ := Language.mem_kstar.mp hu
  cases texts with
  | nil => exact h' v hv
  | cons text texts =>
      obtain ⟨b, more, rfl, hb⟩ := h text (htexts text List.mem_cons_self)
      exact ⟨b, more ++ texts.flatten ++ v, by simp, hb⟩

theorem Begins.nil_not_mem (h : Begins p L) : [] ∉ L := by
  intro hnil
  obtain ⟨b, more, heq, -⟩ := h [] hnil
  cases heq

theorem Begins.has (h : Begins p L) : Has p L := by
  intro u hu
  obtain ⟨b, more, rfl, hb⟩ := h u hu
  exact ⟨b, List.mem_cons_self, hb⟩

theorem Has.add (h : Has p L) (h' : Has p M) : Has p (L + M) := by
  rintro u (hu | hu)
  · exact h u hu
  · exact h' u hu

theorem Has.left (h : Has p L) (M : Language α) : Has p (L * M) := by
  rintro _ ⟨u, hu, v, -, rfl⟩
  obtain ⟨b, hb, hp⟩ := h u hu
  exact ⟨b, List.mem_append_left v hb, hp⟩

theorem Has.right (h : Has p M) (L : Language α) : Has p (L * M) := by
  rintro _ ⟨u, -, v, hv, rfl⟩
  obtain ⟨b, hb, hp⟩ := h v hv
  exact ⟨b, List.mem_append_right u hb, hp⟩

/-- First letters tell languages apart. -/
theorem Begins.apart (h : Begins p L) (h' : Begins q M) (hpq : ∀ b, p b → ¬ q b) :
    Apart L M := by
  intro u hu v hv input hu' hv'
  obtain ⟨b, more, rfl, hb⟩ := h u hu
  obtain ⟨c, more', rfl, hc⟩ := h' v hv
  obtain ⟨after, rfl⟩ := hu'
  obtain rfl := (List.cons_prefix_cons.mp hv').1
  exact hpq _ hb hc

/-- A text ends in front of the first letter that its language does not have. -/
theorem Over.determined (h : Over p L) (h' : Begins q M) (hpq : ∀ b, q b → ¬ p b) :
    Determined L M := by
  intro u hu v hv other hother input huv hfront
  obtain ⟨b, more, rfl, hb⟩ := h' v hv
  by_contra hlonger
  have hnext : u ++ [b] <+: other := by
    refine List.prefix_of_prefix_length_le ?_ hfront ?_
    · have hhead : u ++ [b] <+: u ++ b :: more := by simp
      exact hhead.trans huv
    · rw [List.length_append, List.length_singleton]
      omega
  exact hpq b hb (h other hother b (hnext.subset (by simp)))

/-- Of two prefixes, the one with a letter that the other cannot have is longer. -/
theorem Has.longer (h : Has q L) (h' : Over p M) (hpq : ∀ b, q b → ¬ p b) (hu : u ∈ L)
    (hv : v ∈ M) (hu' : u <+: input) (hv' : v <+: input) : v.length ≤ u.length := by
  by_contra hlonger
  obtain ⟨b, hb, hq⟩ := h u hu
  have huv := List.prefix_of_prefix_length_le hu' hv' (not_le.mp hlonger).le
  exact hpq b hq (h' v hv b (huv.subset hb))

theorem Has.not_mem (h : Has q L) (h' : Over p M) (hpq : ∀ b, q b → ¬ p b) (hu : u ∈ L) :
    u ∉ M := by
  intro hM
  obtain ⟨b, hb, hq⟩ := h u hu
  exact hpq b hq (h' u hM b hb)

end Letters

/-! ## Series that end in `a` -/

/-- Blocks of `a`s with `b`s before each are words of both that end in `a`. -/
theorem kstar_kstar_mul {K : Type} [KleeneAlgebra K] (a b : K) :
    (b∗ * a)∗ = 1 + (a + b)∗ * a := by
  have ha : a ≤ (a + b)∗ := (le_add_of_nonneg_right zero_le).trans le_kstar
  have hb : b∗ ≤ (a + b)∗ := kstar_mono (le_add_of_nonneg_left zero_le)
  apply le_antisymm
  · refine kstar_le_of_mul_le_left (le_add_of_nonneg_right zero_le) ?_
    have hfirst : b∗ * a ≤ (a + b)∗ * a := mul_le_mul_left hb a
    have hmore : (a + b)∗ * a * (b∗ * a) ≤ (a + b)∗ * a := by
      calc (a + b)∗ * a * (b∗ * a) = (a + b)∗ * a * b∗ * a := (mul_assoc _ _ _).symm
        _ ≤ (a + b)∗ * (a + b)∗ * (a + b)∗ * a := by gcongr
        _ = (a + b)∗ * a := by rw [kstar_mul_kstar, kstar_mul_kstar]
    calc (1 + (a + b)∗ * a) * (b∗ * a) = b∗ * a + (a + b)∗ * a * (b∗ * a) := by
          rw [add_mul, one_mul]
      _ ≤ (a + b)∗ * a := add_le hfirst hmore
      _ ≤ 1 + (a + b)∗ * a := le_add_of_nonneg_left zero_le
  · refine add_le one_le_kstar ?_
    have hblocks : (a + b)∗ * a ≤ b∗ * a * (b∗ * a)∗ := by
      refine kstar_mul_le ?_ ?_
      · calc a = 1 * a * 1 := by rw [one_mul, mul_one]
          _ ≤ b∗ * a * (b∗ * a)∗ := by
            gcongr
            · exact one_le_kstar
            · exact one_le_kstar
      · rw [add_mul]
        refine add_le ?_ ?_
        · calc a * (b∗ * a * (b∗ * a)∗) ≤ b∗ * a * (b∗ * a * (b∗ * a)∗) := by
                gcongr
                calc a = 1 * a := (one_mul a).symm
                  _ ≤ b∗ * a := by
                    gcongr
                    exact one_le_kstar
            _ ≤ b∗ * a * (b∗ * a)∗ := by
                gcongr
                exact mul_kstar_le_kstar
        · calc b * (b∗ * a * (b∗ * a)∗) = b * b∗ * a * (b∗ * a)∗ := by
                simp only [mul_assoc]
            _ ≤ b∗ * a * (b∗ * a)∗ := by
                gcongr
                exact mul_kstar_le_kstar
    exact hblocks.trans mul_kstar_le_kstar

/-! ## Where texts end -/

/-- No text of the language goes on with such a letter behind another one. -/
def EndsBefore (p : α → Prop) (L : Language α) : Prop :=
  ∀ u ∈ L, ∀ b more, u ++ b :: more ∈ L → ¬ p b

/-- In front of such a letter, or of nothing, every text is the longest prefix. -/
theorem EndsBefore.longest {p : α → Prop} (h : EndsBefore p L) (hu : u ∈ L)
    (hrest : ∀ b ∈ rest.head?, p b) : Longest L (u ++ rest) rest := by
  refine ⟨u, hu, rfl, fun other hother hfront => ?_⟩
  by_contra hlt
  have hlonger : u <+: other :=
    List.prefix_of_prefix_length_le (List.prefix_append u rest) hfront (Nat.le_of_not_le hlt)
  obtain ⟨after, rfl⟩ := hlonger
  cases after with
  | nil => simp at hlt
  | cons b more =>
      obtain ⟨_, hrest'⟩ := (List.prefix_append_right_inj u).mp hfront
      rw [← hrest'] at hrest
      exact h u hu b more hother (hrest b rfl)

theorem Over.endsBefore {p q : α → Prop} (h : Over q L) (hpq : ∀ b, p b → ¬ q b) :
    EndsBefore p L :=
  fun u _ b more hother hb => hpq b hb (h _ hother b (by simp))

/-- A start from a code, and a series of texts of a code that begin otherwise. -/
theorem EndsBefore.series {p q : α → Prop} (hL : Code L) (hP : Code P) (hbegins : Begins q P)
    (hpq : ∀ b, p b → ¬ q b) : EndsBefore p (L * P∗) := by
  rintro _ ⟨u, hu, v, hv, rfl⟩ b more ⟨u', hu', v', hv', heq⟩ hb
  have hcut : u ++ (v ++ b :: more) = u' ++ v' := (heq.trans (List.append_assoc ..)).symm
  obtain rfl : u = u' :=
    hL.eq hu hu' (List.prefix_append u (v ++ b :: more)) ⟨v', hcut.symm⟩
  obtain rfl := List.append_cancel_left hcut
  rcases hP.kstar_cut hv hv' (List.prefix_append v (b :: more)) List.prefix_rfl with
    hle | ⟨after, hafter, hsplit⟩
  · simp only [List.length_append, List.length_cons] at hle
    omega
  · obtain rfl := List.append_cancel_left hsplit
    obtain ⟨texts, hjoin, htexts⟩ := Language.mem_kstar.mp hafter
    cases texts with
    | nil => cases hjoin
    | cons first texts =>
        obtain ⟨c, cs, rfl, hc⟩ := hbegins first (htexts first List.mem_cons_self)
        obtain ⟨rfl, -⟩ := List.cons.inj hjoin
        exact hpq b hb hc

end RdfParser.Foundation
