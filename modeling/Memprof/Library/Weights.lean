import Mathlib.Algebra.BigOperators.Group.Finset.Basic
import Mathlib.Algebra.BigOperators.Group.List.Basic

/-! # Weighted samples

What the samples with a property weigh together.  The weights may wrap around: all that is
used of them is that they add up in any order.
-/

namespace Memprof.Library

variable {τ M ι : Type*} [AddCommMonoid M]

def weight (samples : List (τ × M)) (property : τ → Prop) [DecidablePred property] : M :=
  (samples.map fun sample => if property sample.1 then sample.2 else 0).sum

section

variable (property : τ → Prop) [DecidablePred property]

@[simp] theorem weight_nil : weight ([] : List (τ × M)) property = 0 := rfl

theorem weight_cons (sample : τ × M) (samples : List (τ × M)) :
    weight (sample :: samples) property = (if property sample.1 then sample.2 else 0) + weight samples property := by
  rw [weight, List.map_cons, List.sum_cons]
  rfl

theorem weight_append (left right : List (τ × M)) :
    weight (left ++ right) property = weight left property + weight right property := by
  rw [weight, List.map_append, List.sum_append]
  rfl

theorem weight_concat (samples : List (τ × M)) (sample : τ × M) :
    weight (samples ++ [sample]) property = weight samples property + if property sample.1 then sample.2 else 0 := by
  rw [weight_append, weight_cons, weight_nil, add_zero]

theorem weight_perm {left right : List (τ × M)} (perm : left.Perm right) :
    weight left property = weight right property :=
  (perm.map _).sum_eq

end

theorem weight_congr {samples : List (τ × M)} {property property' : τ → Prop} [DecidablePred property]
    [DecidablePred property'] (same : ∀ sample ∈ samples, property sample.1 ↔ property' sample.1) :
    weight samples property = weight samples property' := by
  unfold weight
  congr 1
  apply List.map_congr_left
  intro sample member
  simp only [same sample member]

theorem weight_eq_zero {samples : List (τ × M)} {property : τ → Prop} [DecidablePred property]
    (nothing : ∀ sample ∈ samples, ¬ property sample.1) : weight samples property = 0 := by
  rw [@weight_congr _ _ _ samples property (fun _ => False) _ _ fun sample member =>
    iff_of_false (nothing sample member) not_false]
  simp [weight]

theorem weight_or {samples : List (τ × M)} {left right : τ → Prop} [DecidablePred left] [DecidablePred right]
    [DecidablePred fun sample => left sample ∨ right sample]
    (apart : ∀ sample ∈ samples, ¬ (left sample.1 ∧ right sample.1)) :
    weight samples (fun sample => left sample ∨ right sample) = weight samples left + weight samples right := by
  induction samples with
  | nil => simp
  | cons sample samples inductionHypothesis =>
    have rest := inductionHypothesis fun other member => apart other (by simp [member])
    have first := apart sample (by simp)
    rw [weight_cons, weight_cons, weight_cons, rest]
    by_cases holds : left sample.1
    · have other : ¬ right sample.1 := fun here => first ⟨holds, here⟩
      rw [if_pos (.inl holds), if_pos holds, if_neg other, zero_add, add_assoc]
    · by_cases here : right sample.1
      · rw [if_pos (.inr here), if_neg holds, if_pos here, zero_add, add_left_comm]
      · rw [if_neg (by simp [holds, here]), if_neg holds, if_neg here, zero_add, zero_add, zero_add]

/-- All samples together. -/
theorem weight_true (samples : List (τ × M)) : weight samples (fun _ => True) = (samples.map Prod.snd).sum := by
  simp only [weight, if_true]

theorem weight_flatMap {items : List ι} (samplesOf : ι → List (τ × M)) (property : τ → Prop) [DecidablePred property] :
    weight (items.flatMap samplesOf) property = (items.map fun item => weight (samplesOf item) property).sum := by
  induction items with
  | nil => rfl
  | cons item items inductionHypothesis =>
    rw [List.flatMap_cons, weight_append, inductionHypothesis, List.map_cons, List.sum_cons]

/-- Where each sample that counts is counted under one index, the parts add up. -/
theorem sum_weight {samples : List (τ × M)} {indexes : Finset ι} {part : ι → τ → Prop} {whole : τ → Prop}
    [∀ i, DecidablePred (part i)] [DecidablePred whole]
    (counted : ∀ sample ∈ samples, whole sample.1 →
      ∃ i ∈ indexes, part i sample.1 ∧ ∀ j ∈ indexes, part j sample.1 → j = i)
    (only : ∀ sample ∈ samples, ∀ i ∈ indexes, part i sample.1 → whole sample.1) :
    ∑ i ∈ indexes, weight samples (part i) = weight samples whole := by
  induction samples with
  | nil => simp
  | cons sample samples inductionHypothesis =>
    have rest := inductionHypothesis (fun other member => counted other (by simp [member]))
      fun other member => only other (by simp [member])
    simp only [weight_cons, Finset.sum_add_distrib, rest]
    congr 1
    by_cases holds : whole sample.1
    · obtain ⟨i, member, here, unique⟩ := counted sample (by simp) holds
      rw [if_pos holds, Finset.sum_eq_single_of_mem i member, if_pos here]
      intro j memberJ other
      exact if_neg fun there => other (unique j memberJ there)
    · rw [if_neg holds]
      apply Finset.sum_eq_zero
      intro i member
      exact if_neg fun here => holds (only sample (by simp) i member here)

end Memprof.Library
