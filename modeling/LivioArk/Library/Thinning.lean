import Mathlib.Data.List.Basic

namespace LivioArk.Library.Thinning

variable {α β : Type*}

/-- The second list is the first without some elements that satisfy `P`. -/
inductive Thinned (P : α → Prop) : List α → List α → Prop
  | nil : Thinned P [] []
  | keep (x : α) {l l' : List α} : Thinned P l l' → Thinned P (x :: l) (x :: l')
  | skip {x : α} {l l' : List α} : P x → Thinned P l l' → Thinned P (x :: l) l'

namespace Thinned

variable {P Q : α → Prop} {l l' m m' : List α} {x : α}

theorem refl (l : List α) : Thinned P l l := by
  induction l with
  | nil => exact .nil
  | cons x l ih => exact ih.keep x

theorem mono (hPQ : ∀ x, P x → Q x) (h : Thinned P l l') : Thinned Q l l' := by
  induction h with
  | nil => exact .nil
  | keep x _ ih => exact ih.keep x
  | skip hx _ ih => exact ih.skip (hPQ _ hx)

theorem append (h : Thinned P l l') (hm : Thinned P m m') : Thinned P (l ++ m) (l' ++ m') := by
  induction h with
  | nil => exact hm
  | keep x _ ih => exact ih.keep x
  | skip hx _ ih => exact ih.skip hx

theorem without (l m : List α) (hx : P x) : Thinned P (l ++ x :: m) (l ++ m) :=
  (refl l).append (.skip hx (refl m))

theorem eq_nil (h : Thinned P [] l') : l' = [] := by
  cases h
  rfl

theorem sublist (h : Thinned P l l') : l'.Sublist l := by
  induction h with
  | nil => exact .slnil
  | keep x _ ih => exact ih.cons_cons x
  | skip _ _ ih => exact ih.cons _

theorem cons_cases (h : Thinned P (x :: l) l') :
    (∃ m, l' = x :: m ∧ Thinned P l m) ∨ P x ∧ Thinned P l l' := by
  cases h with
  | keep _ h => exact .inl ⟨_, rfl, h⟩
  | skip hx h => exact .inr ⟨hx, h⟩

end Thinned

end LivioArk.Library.Thinning
