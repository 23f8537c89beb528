import Mathlib.Data.List.Induction
import Mathlib.Data.List.Infix
import Mathlib.Data.List.Nodup

/-! # Loop erasure

A path is walked along a trace; where the trace comes back to something that is on the
path, the path is cut back to it.
-/

namespace Memprof.Library

variable {σ : Type*} [DecidableEq σ]

/-- The path after one more step. -/
def erase (path : List σ) (step : σ) : List σ :=
  if step ∈ path then path.takeWhile (· ≠ step) ++ [step] else path ++ [step]

def loopErasure (trace : List σ) : List σ := trace.foldl erase []

@[simp] theorem loopErasure_nil : loopErasure ([] : List σ) = [] := rfl

theorem loopErasure_concat (trace : List σ) (step : σ) :
    loopErasure (trace ++ [step]) = erase (loopErasure trace) step := by
  rw [loopErasure, List.foldl_append]
  rfl

theorem erase_of_notMem {path : List σ} {step : σ} (fresh : step ∉ path) : erase path step = path ++ [step] :=
  if_neg fresh

/-- Cutting back leaves the path up to the step. -/
theorem erase_of_append {outer inner : List σ} {step : σ} (fresh : step ∉ outer) :
    erase (outer ++ step :: inner) step = outer ++ [step] := by
  have before : ∀ other ∈ outer, decide (other ≠ step) = true := by
    intro other member
    exact decide_eq_true fun same => fresh (same ▸ member)
  rw [erase, if_pos (by simp), List.takeWhile_append_of_pos before, List.takeWhile_cons_of_neg (by simp),
    List.append_nil]

theorem exists_erase (path : List σ) (step : σ) : ∃ outer, outer <+: path ∧ erase path step = outer ++ [step] := by
  by_cases member : step ∈ path
  · obtain ⟨outer, inner, rfl, fresh⟩ := List.eq_append_cons_of_mem member
    exact ⟨outer, List.prefix_append _ _, erase_of_append fresh⟩
  · exact ⟨path, List.prefix_rfl, erase_of_notMem member⟩

theorem nodup_erase {path : List σ} (distinct : path.Nodup) (step : σ) : (erase path step).Nodup := by
  by_cases member : step ∈ path
  · obtain ⟨outer, inner, rfl, fresh⟩ := List.eq_append_cons_of_mem member
    rw [erase_of_append fresh]
    exact distinct.sublist (by simp)
  · rw [erase_of_notMem member, ← List.concat_eq_append]
    exact distinct.concat member

theorem nodup_loopErasure (trace : List σ) : (loopErasure trace).Nodup := by
  induction trace using List.reverseRecOn with
  | nil => exact List.nodup_nil
  | append_singleton trace step inductionHypothesis =>
    rw [loopErasure_concat]
    exact nodup_erase inductionHypothesis step

/-! ## The paths a trace goes through -/

/-- `path` is where the walk is after some of `trace`. -/
def Visits (trace path : List σ) : Prop := ∃ walked, walked <+: trace ∧ loopErasure walked = path

instance (trace path : List σ) : Decidable (Visits trace path) :=
  decidable_of_iff (∃ walked ∈ trace.inits, loopErasure walked = path) (by simp only [List.mem_inits, Visits])

theorem visits_nil {path : List σ} : Visits ([] : List σ) path ↔ path = [] := by
  constructor
  · rintro ⟨walked, within, rfl⟩
    rw [List.prefix_nil.mp within]
    rfl
  · rintro rfl
    exact ⟨[], List.prefix_rfl, rfl⟩

theorem visits_loopErasure (trace : List σ) : Visits trace (loopErasure trace) := ⟨trace, List.prefix_rfl, rfl⟩

theorem visits_concat {trace path : List σ} {step : σ} :
    Visits (trace ++ [step]) path ↔ Visits trace path ∨ path = loopErasure (trace ++ [step]) := by
  constructor
  · rintro ⟨walked, within, rfl⟩
    cases List.prefix_concat_iff.mp within with
    | inl same => exact .inr (by rw [same])
    | inr within => exact .inl ⟨walked, within, rfl⟩
  · rintro (⟨walked, within, rfl⟩ | rfl)
    · exact ⟨walked, within.trans (List.prefix_append _ _), rfl⟩
    · exact visits_loopErasure _

/-- Before it came to a path the walk was on all that leads to it. -/
theorem visits_of_below {trace path : List σ} (below : path <+: loopErasure trace) : Visits trace path := by
  induction trace using List.reverseRecOn with
  | nil => exact visits_nil.mpr (List.prefix_nil.mp below)
  | append_singleton trace step inductionHypothesis =>
    rw [visits_concat, loopErasure_concat]
    obtain ⟨outer, within, cut⟩ := exists_erase (loopErasure trace) step
    rw [loopErasure_concat, cut] at below
    cases List.prefix_concat_iff.mp below with
    | inl same => exact .inr (by rw [cut, same])
    | inr below => exact .inl (inductionHypothesis (below.trans within))

theorem Visits.nodup {trace path : List σ} (visits : Visits trace path) : path.Nodup := by
  obtain ⟨walked, _, rfl⟩ := visits
  exact nodup_loopErasure walked

/-- Erasing loops adds no step. -/
theorem loopErasure_subset (trace : List σ) : loopErasure trace ⊆ trace := by
  induction trace using List.reverseRecOn with
  | nil => exact List.Subset.refl _
  | append_singleton trace step inductionHypothesis =>
    obtain ⟨outer, within, cut⟩ := exists_erase (loopErasure trace) step
    rw [loopErasure_concat, cut]
    exact List.append_subset.mpr
      ⟨fun _ member => List.mem_append_left _ (inductionHypothesis (within.subset member)), by simp⟩

theorem Visits.subset {trace path : List σ} (visits : Visits trace path) : path ⊆ trace := by
  obtain ⟨walked, within, rfl⟩ := visits
  exact fun _ member => within.subset (loopErasure_subset walked member)

/-- The walk never leaves the step it began with. -/
theorem first_below_loopErasure (first : σ) (rest : List σ) : [first] <+: loopErasure (first :: rest) := by
  induction rest using List.reverseRecOn with
  | nil => exact ⟨[], rfl⟩
  | append_singleton rest step inductionHypothesis =>
    rw [← List.cons_append, loopErasure_concat]
    obtain ⟨inner, spelled⟩ := inductionHypothesis
    rw [List.singleton_append] at spelled
    rw [← spelled]
    by_cases back : step = first
    · subst back
      rw [← List.nil_append (step :: inner), erase_of_append List.not_mem_nil]
      exact List.prefix_rfl
    · by_cases member : step ∈ inner
      · obtain ⟨outer, after, rfl, fresh⟩ := List.eq_append_cons_of_mem member
        rw [← List.cons_append, erase_of_append (by simp [back, fresh])]
        exact ⟨outer ++ [step], by simp⟩
      · rw [erase_of_notMem (by simp [back, member])]
        exact ⟨inner ++ [step], by simp⟩

/-- Of the paths of one step the walk is only on the first. -/
theorem visits_singleton {first other : σ} {rest : List σ} : Visits (first :: rest) [other] ↔ other = first := by
  constructor
  · rintro ⟨walked, within, here⟩
    cases walked with
    | nil => cases here
    | cons head walked =>
      obtain ⟨rfl, _⟩ := List.cons_prefix_cons.mp within
      have below := first_below_loopErasure head walked
      rw [here] at below
      exact (List.cons_prefix_cons.mp below).1.symm
  · rintro rfl
    exact visits_of_below (first_below_loopErasure other rest)

end Memprof.Library
