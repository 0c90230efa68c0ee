import Mathlib.Logic.Function.Basic
import Mathlib.Tactic.Common

/-!
# Owners of resources

Resources that are in use or not, and owners that have some of them. In order, whatever is owned is
in use and has one owner (`Owned`), and nothing is in use without an owner (`NoLeak`). One owner
that gives up what it has and takes what it had or what was not in use keeps the order
(`Owned.step`), and leaks nothing when no more than it gives up and takes changes (`NoLeak.step`).
-/

variable {ι β : Type}

/-- What is owned is in use, and by one owner. -/
structure Owned (used : β → Prop) (own : ι → β → Prop) : Prop where
  used : ∀ i x, own i x → used x
  unique : ∀ i j x, own i x → own j x → i = j

/-- What is in use is owned. -/
def NoLeak (used : β → Prop) (own : ι → β → Prop) : Prop := ∀ x, used x → ∃ i, own i x

/-- Owner `i`, that had `old`, has `new`: nothing else that was in use goes, and what is new was
free or its own. -/
structure Exchange (used used' : β → Prop) (old new : β → Prop) : Prop where
  keep : ∀ x, used x → ¬ old x → used' x
  fresh : ∀ x, new x → used' x ∧ (old x ∨ ¬ used x)

namespace Exchange

variable {used used' used'' old new next : β → Prop}

lemma refl (hold : ∀ x, old x → used x) : Exchange used used old old :=
  ⟨fun _ hu _ => hu, fun x hx => ⟨hold x hx, .inl hx⟩⟩

lemma trans (h : Exchange used used' old new) (h' : Exchange used' used'' new next) :
    Exchange used used'' old next := by
  have hnew : ∀ x, new x → used x → old x := by
    intro x hx hu
    cases (h.fresh x hx).2 with
    | inl hold => exact hold
    | inr hfree => exact absurd hu hfree
  refine ⟨fun x hu hold => ?_, fun x hx => ⟨(h'.fresh x hx).1, ?_⟩⟩
  · exact h'.keep x (h.keep x hu hold) fun hn => hold (hnew x hn hu)
  · rw [or_iff_not_imp_right, not_not]
    intro hu
    cases (h'.fresh x hx).2 with
    | inl hn => exact hnew x hn hu
    | inr hfree =>
      by_contra hold
      exact hfree (h.keep x hu hold)

/-- What the owner has besides stays. -/
lemma frame (h : Exchange used used' old new) {rest : β → Prop}
    (hrest : ∀ x, rest x → used x ∧ ¬ old x) :
    Exchange used used' (fun x => old x ∨ rest x) fun x => new x ∨ rest x := by
  refine ⟨fun x hu hold => h.keep x hu fun ho => hold (.inl ho), fun x hx => ?_⟩
  cases hx with
  | inl hn => exact ⟨(h.fresh x hn).1, (h.fresh x hn).2.imp_left .inl⟩
  | inr hr => exact ⟨h.keep x (hrest x hr).1 (hrest x hr).2, .inl (.inr hr)⟩

end Exchange

namespace Owned

variable {used used' : β → Prop} {own own' : ι → β → Prop} {i : ι}

/-- An exchange of one owner, when the others have what they had. -/
lemma step (h : Owned used own) (ex : Exchange used used' (own i) (own' i))
    (hsame : ∀ j, j ≠ i → ∀ x, own' j x ↔ own j x) : Owned used' own' := by
  have hother : ∀ j, j ≠ i → ∀ x, own j x → used' x ∧ ¬ own' i x := by
    intro j hj x hx
    have hi : ¬ own i x := fun hi => hj (h.unique j i x hx hi)
    refine ⟨ex.keep x (h.used j x hx) hi, fun hnew => ?_⟩
    cases (ex.fresh x hnew).2 with
    | inl hold => exact hi hold
    | inr hfree => exact hfree (h.used j x hx)
  refine ⟨fun j x hx => ?_, fun j k x hj hk => ?_⟩
  · by_cases hji : j = i
    · subst hji
      exact (ex.fresh x hx).1
    · exact (hother j hji x ((hsame j hji x).1 hx)).1
  · by_cases hji : j = i
    · by_cases hki : k = i
      · rw [hji, hki]
      · rw [hji] at hj
        exact absurd hj (hother k hki x ((hsame k hki x).1 hk)).2
    · by_cases hki : k = i
      · rw [hki] at hk
        exact absurd hk (hother j hji x ((hsame j hji x).1 hj)).2
      · exact h.unique j k x ((hsame j hji x).1 hj) ((hsame k hki x).1 hk)

end Owned

/-- An exchange in which only what is given up and taken changes leaks nothing. -/
lemma NoLeak.step {used used' : β → Prop} {own own' : ι → β → Prop} {i : ι} (h : NoLeak used own)
    (hexact : ∀ x, used' x → used x ∧ ¬ own i x ∨ own' i x)
    (hsame : ∀ j, j ≠ i → ∀ x, own' j x ↔ own j x) : NoLeak used' own' := by
  intro x hx
  rcases hexact x hx with ⟨hu, hi⟩ | hnew
  · obtain ⟨j, hj⟩ := h x hu
    have hji : j ≠ i := by
      rintro rfl
      exact hi hj
    exact ⟨j, (hsame j hji x).2 hj⟩
  · exact ⟨i, hnew⟩

namespace Owned

variable {used used' : β → Prop} {own own' : ι → β → Prop} {i j : ι}

/-- A step of two owners, that share out what they had and what was not in use. -/
lemma two (h : Owned used own) (keep : ∀ x, used x → ¬ own i x → ¬ own j x → used' x)
    (fresh : ∀ x, own' i x ∨ own' j x → used' x ∧ (own i x ∨ own j x ∨ ¬ used x))
    (apart : ∀ x, own' i x → ¬ own' j x)
    (same : ∀ k, k ≠ i → k ≠ j → ∀ x, own' k x ↔ own k x) : Owned used' own' := by
  have hother : ∀ k, k ≠ i → k ≠ j → ∀ x, own k x → used' x ∧ ¬ own' i x ∧ ¬ own' j x := by
    intro k hki hkj x hx
    have hi : ¬ own i x := fun hi => hki (h.unique k i x hx hi)
    have hj : ¬ own j x := fun hj => hkj (h.unique k j x hx hj)
    have hnot : ¬ (own' i x ∨ own' j x) := by
      intro hnew
      rcases (fresh x hnew).2 with hold | hold | hfree
      · exact hi hold
      · exact hj hold
      · exact hfree (h.used k x hx)
    exact ⟨keep x (h.used k x hx) hi hj, fun hi => hnot (.inl hi), fun hj => hnot (.inr hj)⟩
  have hcases : ∀ k x, own' k x → (k = i ∨ k = j) ∧ (own' i x ∨ own' j x) ∨
      (k ≠ i ∧ k ≠ j) ∧ own k x := by
    intro k x hx
    by_cases hi : k = i
    · subst hi
      exact .inl ⟨.inl rfl, .inl hx⟩
    · by_cases hj : k = j
      · subst hj
        exact .inl ⟨.inr rfl, .inr hx⟩
      · exact .inr ⟨⟨hi, hj⟩, (same k hi hj x).1 hx⟩
  refine ⟨fun k x hx => ?_, fun k l x hk hl => ?_⟩
  · rcases hcases k x hx with ⟨-, hnew⟩ | ⟨⟨hi, hj⟩, hold⟩
    · exact (fresh x hnew).1
    · exact (hother k hi hj x hold).1
  · rcases hcases k x hk with ⟨hk', hnew⟩ | ⟨⟨hki, hkj⟩, hold⟩
    · rcases hcases l x hl with ⟨hl', -⟩ | ⟨⟨hli, hlj⟩, hold⟩
      · rcases hk' with rfl | rfl
        · rcases hl' with rfl | rfl
          · rfl
          · exact absurd hl (apart x hk)
        · rcases hl' with rfl | rfl
          · exact absurd hk (apart x hl)
          · rfl
      · obtain ⟨-, hi, hj⟩ := hother l hli hlj x hold
        exact absurd hnew (not_or.2 ⟨hi, hj⟩)
    · rcases hcases l x hl with ⟨-, hnew⟩ | ⟨-, hold'⟩
      · obtain ⟨-, hi, hj⟩ := hother k hki hkj x hold
        exact absurd hnew (not_or.2 ⟨hi, hj⟩)
      · exact h.unique k l x hold hold'

end Owned

/-- Two owners that share out what they had and take what was free leak nothing. -/
lemma NoLeak.two {used used' : β → Prop} {own own' : ι → β → Prop} {i j : ι} (h : NoLeak used own)
    (hexact : ∀ x, used' x → used x ∧ ¬ own i x ∧ ¬ own j x ∨ own' i x ∨ own' j x)
    (same : ∀ k, k ≠ i → k ≠ j → ∀ x, own' k x ↔ own k x) : NoLeak used' own' := by
  intro x hx
  rcases hexact x hx with ⟨hu, hi, hj⟩ | hi | hj
  · obtain ⟨k, hk⟩ := h x hu
    refine ⟨k, (same k (fun e => hi ?_) (fun e => hj ?_) x).2 hk⟩
    · exact e ▸ hk
    · exact e ▸ hk
  · exact ⟨i, hi⟩
  · exact ⟨j, hj⟩
