/-!
# Runs of a labelled transition system

`Steps.invariant` and `Steps.simulates` make a fact about one step one about every run.
-/

namespace M4KK1.Lib

open List

variable {State Label Abstract : Type}

/-- Zero or more steps from `start`, with their labels in order. -/
inductive Steps (Step : State → Label → State → Prop) : State → List Label → State → Prop where
  | refl {start : State} : Steps Step start [] start
  | step {start current next : State} {labels : List Label} {label : Label}
      (prior : Steps Step start labels current) (transition : Step current label next) :
      Steps Step start (labels ++ [label]) next

namespace Steps

variable {Step : State → Label → State → Prop}

variable {start final : State} {labels : List Label}

theorem trans {middle : State} {first second : List Label}
    (left : Steps Step start first middle) (right : Steps Step middle second final) :
    Steps Step start (first ++ second) final := by
  induction right with
  | refl => simpa using left
  | step _ transition ih => simpa [append_assoc] using Steps.step ih transition

/-- What holds at the start and through every step holds at the end of a run. -/
theorem invariant (run : Steps Step start labels final) (Inv : State → Prop)
    (preserved : ∀ state label next, Inv state → Step state label next → Inv next)
    (initially : Inv start) : Inv final := by
  induction run with
  | refl => exact initially
  | step _ transition ih => exact preserved _ _ _ ih transition

theorem eq_of_nil (run : Steps Step start [] final) : final = start := by
  generalize isNil : ([] : List Label) = labels at run
  cases run with
  | refl => rfl
  | step prior transition =>
    exact absurd isNil.symm (append_ne_nil_of_right_ne_nil _ (cons_ne_nil _ _))

theorem mono {Other : State → Label → State → Prop} (run : Steps Step start labels final)
    (weaker : ∀ state label next, Step state label next → Other state label next) :
    Steps Other start labels final := by
  induction run with
  | refl => exact .refl
  | step _ transition ih => exact ih.step (weaker _ _ _ transition)

theorem history (run : Steps Step start labels final) (Inv : List Label → State → Prop)
    (preserved : ∀ labels state label next, Inv labels state → Step state label next →
      Inv (labels ++ [label]) next)
    (initially : Inv [] start) : Inv labels final := by
  induction run with
  | refl => exact initially
  | step _ transition ih => exact preserved _ _ _ _ ih transition

theorem simulates {Admitted : Label → Prop} {value : Abstract} (run : Steps Step start labels final)
    (Related : State → Abstract → Prop) (apply : Abstract → Label → Abstract)
    (simulated : ∀ state label next value, Related state value → Admitted label →
      Step state label next → Related next (apply value label))
    (initially : Related start value)
    (admitted : ∀ label ∈ labels, Admitted label) :
    Related final (labels.foldl apply value) := by
  induction run with
  | refl => exact initially
  | @step current next labels label prior transition ih =>
    rw [foldl_append]
    refine simulated current label next _ (ih fun other member => ?_) ?_ transition
    · exact admitted other (mem_append_left _ member)
    · exact admitted label (mem_append_right _ mem_cons_self)

end Steps

/-- Every step that runs with these labels take satisfies `Holds`. -/
def Throughout (Step : State → Label → State → Prop) (Holds : State → Label → State → Prop)
    (start : State) (labels : List Label) : Prop :=
  ∀ prior label rest before after, labels = prior ++ label :: rest →
    Steps Step start prior before → Step before label after → Holds before label after

theorem Throughout.congr {Step Holds Meets : State → Label → State → Prop} {start : State}
    {labels : List Label}
    (agree : ∀ prior before label after, Steps Step start prior before → Step before label after →
      (Holds before label after ↔ Meets before label after)) :
    Throughout Step Holds start labels ↔ Throughout Step Meets start labels := by
  constructor
  · intro holds prior label rest before after split run transition
    exact (agree prior before label after run transition).mp
      (holds prior label rest before after split run transition)
  · intro meets prior label rest before after split run transition
    exact (agree prior before label after run transition).mpr
      (meets prior label rest before after split run transition)

/-- So it does where each step of the run is known to meet a condition. -/
theorem Throughout.invariant {Step Holds : State → Label → State → Prop} {start : State}
    {labels : List Label}
    (holds : Throughout Step Holds start labels) (Inv : State → Prop)
    (preserved : ∀ state label next, label ∈ labels → Inv state → Holds state label next →
      Step state label next → Inv next)
    (initially : Inv start) {prior rest : List Label} {reached : State}
    (run : Steps Step start prior reached)
    (split : labels = prior ++ rest) : Inv reached := by
  induction run generalizing rest with
  | refl => exact initially
  | @step current next prior label run transition ih =>
    rw [append_assoc, singleton_append] at split
    have taken : label ∈ labels := split ▸ mem_append_right _ mem_cons_self
    exact preserved _ _ _ taken (ih split) (holds _ _ _ _ _ split run transition) transition

/-- The steps of a system that meet a condition on the state before them. -/
def Guarded (Step : State → Label → State → Prop) (Condition : State → Label → Prop)
    (state : State) (label : Label) (next : State) : Prop :=
  Condition state label ∧ Step state label next

end M4KK1.Lib
