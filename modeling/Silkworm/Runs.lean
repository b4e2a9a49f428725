import Mathlib.Data.List.Basic

/-!
# Runs of a system

A run is a list of events that a system takes one after the other. A property that every step
preserves holds after every run, and a number that every step decreases bounds its length.
-/

namespace Silkworm

variable {S E : Type}

inductive Run (step : S → E → S → Prop) : S → List E → S → Prop
  | nil (s : S) : Run step s [] s
  | cons {s s' s'' : S} {e : E} {es : List E} (h : step s e s') (tail : Run step s' es s'') :
      Run step s (e :: es) s''

namespace Run

variable {step : S → E → S → Prop} {P : S → Prop} {s s' : S} {es : List E}

theorem preserves (hstep : ∀ s e s', P s → step s e s' → P s') (h : Run step s es s') (hs : P s) :
    P s' := by
  induction h with
  | nil s => exact hs
  | cons h _ ih => exact ih (hstep _ _ _ hs h)

theorem mono {step' : S → E → S → Prop} (hstep : ∀ s e s', step s e s' → step' s e s')
    (h : Run step s es s') : Run step' s es s' := by
  induction h with
  | nil s => exact .nil s
  | cons h _ ih => exact .cons (hstep _ _ _ h) ih

theorem append {t : S} {fs : List E} (h : Run step s es t) (h' : Run step t fs s') :
    Run step s (es ++ fs) s' := by
  induction h with
  | nil s => exact h'
  | cons hstep _ ih => exact .cons hstep (ih h')

/-- Every step decreases the measure, so that a run is not longer than the measure is at first. -/
theorem length_add_le (measure : S → ℕ) (hstep : ∀ s e s', P s → step s e s' → P s')
    (hlt : ∀ s e s', P s → step s e s' → measure s' < measure s) (h : Run step s es s') (hs : P s) :
    es.length + measure s' ≤ measure s := by
  induction h with
  | nil s => simp
  | cons h _ ih =>
    have hdec := hlt _ _ _ hs h
    have htail := ih (hstep _ _ _ hs h)
    simp only [List.length_cons]
    omega

/-- A run of a system whose steps are computed. -/
theorem of_foldlM {exec : S → E → Option S} (h : es.foldlM exec s = some s') :
    Run (fun s e s' => exec s e = some s') s es s' := by
  induction es generalizing s with
  | nil =>
    cases h
    exact .nil _
  | cons e es ih =>
    rw [List.foldlM_cons] at h
    obtain ⟨next, hnext, h⟩ := Option.bind_eq_some_iff.mp h
    exact .cons hnext (ih h)

end Run
end Silkworm
