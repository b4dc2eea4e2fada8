/-
  Foundation/Transition.lean --- systems of parties that take atomic steps.

  Each party has a partial step function on a shared state; a run interleaves
  steps in any order.  Besides all runs there are the runs in which every step
  meets a condition on the acting party and the state before it, and the run of
  a given schedule.  A system can be exposed to events that no party brings about.
  A rank that every step lowers makes every run end.
-/
import Mathlib.Logic.Relation

set_option autoImplicit false

namespace RdfParser.Foundation

/-- The atomic steps of the parties `P` on states `S`.  A party whose step is
`none` is blocked or has ended. -/
structure System (P S : Type) where
  step : P → S → Option S

namespace System

variable {P S : Type} (system : System P S)

/-- A step whose party and state before it meet a condition. -/
def GuardedStep (guard : P → S → Prop) (s s' : S) : Prop :=
  ∃ party, guard party s ∧ system.step party s = some s'

/-- `s'` is reached from `s` by a run whose steps all meet the condition. -/
def ReachesUnder (guard : P → S → Prop) : S → S → Prop :=
  Relation.ReflTransGen (system.GuardedStep guard)

/-- `s'` is reached from `s` by some interleaving. -/
def Reaches : S → S → Prop := system.ReachesUnder fun _ _ => True

variable {system} {guard guard' : P → S → Prop} {s s' s'' : S}

theorem ReachesUnder.refl (s : S) : system.ReachesUnder guard s s :=
  Relation.ReflTransGen.refl

theorem ReachesUnder.trans (h : system.ReachesUnder guard s s')
    (h' : system.ReachesUnder guard s' s'') : system.ReachesUnder guard s s'' :=
  Relation.ReflTransGen.trans h h'

/-- A condition that holds at first and is kept by every step holds in every state
reached. -/
theorem ReachesUnder.invariant {Inv : S → Prop} (h : system.ReachesUnder guard s s')
    (hinit : Inv s)
    (hstep : ∀ party t t', guard party t → system.step party t = some t' → Inv t → Inv t') :
    Inv s' := by
  induction h with
  | refl => exact hinit
  | tail _ hlast ih =>
      obtain ⟨party, hguard, htake⟩ := hlast
      exact hstep party _ _ hguard htake ih

/-- A weaker condition allows more runs. -/
theorem ReachesUnder.mono (h : system.ReachesUnder guard s s')
    (himp : ∀ party t, guard party t → guard' party t) : system.ReachesUnder guard' s s' := by
  refine Relation.ReflTransGen.mono ?_ _ _ h
  intro t t' ⟨party, hguard, htake⟩
  exact ⟨party, himp party t hguard, htake⟩

/-- Every restricted run is a run. -/
theorem ReachesUnder.reaches (h : system.ReachesUnder guard s s') : system.Reaches s s' :=
  h.mono fun _ _ _ => trivial

theorem ReachesUnder.step {party : P} (hguard : guard party s)
    (h : system.step party s = some s') : system.ReachesUnder guard s s' :=
  Relation.ReflTransGen.single ⟨party, hguard, h⟩

/-- A run is a run of any system that has its steps. -/
theorem ReachesUnder.embed {P' : Type} {system' : System P' S} {condition : P' → S → Prop}
    (place : P → P') (h : system.ReachesUnder guard s s')
    (hstep : ∀ party t t', guard party t → system.step party t = some t' →
      condition (place party) t ∧ system'.step (place party) t = some t') :
    system'.ReachesUnder condition s s' := by
  induction h with
  | refl => exact ReachesUnder.refl s
  | tail _ hlast ih =>
      obtain ⟨party, hguard, htake⟩ := hlast
      obtain ⟨hcondition, htake'⟩ := hstep party _ _ hguard htake
      exact ih.trans (ReachesUnder.step hcondition htake')

theorem Reaches.refl (s : S) : system.Reaches s s := ReachesUnder.refl s

theorem Reaches.trans (h : system.Reaches s s') (h' : system.Reaches s' s'') :
    system.Reaches s s'' := ReachesUnder.trans h h'

theorem Reaches.step {party : P} (h : system.step party s = some s') : system.Reaches s s' :=
  ReachesUnder.step trivial h

/-! ## Schedules -/

variable (system)

/-- Run the parties in the given order, as long as every step meets the condition. -/
def follow (guard : P → S → Prop) [∀ party s, Decidable (guard party s)] :
    List P → S → Option S
  | [], s => some s
  | party :: schedule, s =>
      if guard party s then (system.step party s).bind (follow guard schedule) else none

variable {system}

/-- What a schedule leads to is reached. -/
theorem reaches_of_follow {schedule : List P} [∀ party s, Decidable (guard party s)]
    (h : system.follow guard schedule s = some s') : system.ReachesUnder guard s s' := by
  induction schedule generalizing s with
  | nil =>
      rw [follow, Option.some.injEq] at h
      rw [h]
      exact ReachesUnder.refl s'
  | cons party schedule ih =>
      rw [follow] at h
      split at h
      · rename_i hguard
        rw [Option.bind_eq_some_iff] at h
        obtain ⟨t, htake, hrest⟩ := h
        exact (ReachesUnder.step hguard htake).trans (ih hrest)
      · exact absurd h (by simp)

/-! ## Events -/

/-- What happens next in a run: a step of a party, or something that no party does. -/
inductive Event (P E : Type) where
  | step (party : P)
  | occurs (event : E)
  deriving DecidableEq, Repr

variable {E : Type} {occur : E → S → Option S}

/-- The system together with the events that may occur. -/
def withEvents (system : System P S) (occur : E → S → Option S) : System (Event P E) S where
  step
    | .step party, s => system.step party s
    | .occurs event, s => occur event s

/-- A condition on the steps of the parties: an event may occur at any time. -/
def onSteps (guard : P → S → Prop) : Event P E → S → Prop
  | .step party, s => guard party s
  | .occurs _, _ => True

instance (guard : P → S → Prop) [∀ party s, Decidable (guard party s)] (event : Event P E)
    (s : S) : Decidable (onSteps guard event s) :=
  match event with
  | .step party => inferInstanceAs (Decidable (guard party s))
  | .occurs _ => isTrue trivial

/-- A run without events is one with events. -/
theorem ReachesUnder.withEvents (h : system.ReachesUnder guard s s') :
    (system.withEvents occur).ReachesUnder (onSteps guard) s s' :=
  h.embed Event.step fun _ _ _ hguard hstep => ⟨hguard, hstep⟩

theorem Reaches.onSteps (h : (system.withEvents occur).Reaches s s') :
    (system.withEvents occur).ReachesUnder (onSteps fun _ _ => True) s s' := by
  refine h.mono fun event _ _ => ?_
  cases event <;> trivial

/-- What every step of a party and every event keeps, holds in every state reached. -/
theorem ReachesUnder.invariant_withEvents {Inv : S → Prop}
    (h : (system.withEvents occur).ReachesUnder (System.onSteps guard) s s') (hinit : Inv s)
    (hstep : ∀ party t t', guard party t → system.step party t = some t' → Inv t → Inv t')
    (hevent : ∀ event t t', occur event t = some t' → Inv t → Inv t') : Inv s' := by
  refine h.invariant hinit ?_
  intro event t t' hguard htake hinv
  cases event with
  | step party => exact hstep party t t' hguard htake hinv
  | occurs event => exact hevent event t t' htake hinv

/-! ## Runs that end -/

variable (system)

/-- No party has a step. -/
def Final (s : S) : Prop := ∀ party, system.step party s = none

variable {system}

/-- Where every step lowers a rank, the rank bounds the schedules that can be followed. -/
theorem follow_length_le {Inv : S → Prop} {rank : S → Nat} {schedule : List P}
    [∀ party s, Decidable (guard party s)]
    (hkeep : ∀ party t t', guard party t → system.step party t = some t' → Inv t → Inv t')
    (hlower : ∀ party t t', guard party t → system.step party t = some t' → Inv t →
      rank t' < rank t)
    (hinit : Inv s) (h : system.follow guard schedule s = some s') :
    schedule.length + rank s' ≤ rank s := by
  induction schedule generalizing s with
  | nil =>
      rw [follow, Option.some.injEq] at h
      rw [h, List.length_nil]
      omega
  | cons party schedule ih =>
      rw [follow] at h
      split at h
      · rename_i hguard
        rw [Option.bind_eq_some_iff] at h
        obtain ⟨t, htake, hrest⟩ := h
        have hless := hlower party s t hguard htake hinit
        have hshort := ih (hkeep party s t hguard htake hinit) hrest
        rw [List.length_cons]
        omega
      · exact absurd h (by simp)

end System

end RdfParser.Foundation
