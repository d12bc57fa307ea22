import Mathlib.Data.List.Basic
import Mathlib.Data.List.Count
import Mathlib.Data.List.Perm.Basic

namespace LivioArk.Library.Holdings

variable {π ρ σ : Type} {place : π}

def mapHeld (f : ρ → σ) (l : List (π × ρ)) : List (π × σ) := l.map fun e ↦ (e.1, f e.2)

theorem mapHeld_append (f : ρ → σ) (l l' : List (π × ρ)) :
    mapHeld f (l ++ l') = mapHeld f l ++ mapHeld f l' :=
  List.map_append

theorem snd_mapHeld (f : ρ → σ) (l : List (π × ρ)) :
    (mapHeld f l).map Prod.snd = (l.map Prod.snd).map f := by
  unfold mapHeld
  rw [List.map_map, List.map_map]
  rfl

variable [DecidableEq π]

/-- What is held in a place, oldest first. A list of places with what each
holds describes queues and variables alike. -/
def first (place : π) (l : List (π × ρ)) : Option ρ :=
  (l.find? fun e ↦ e.1 = place).map Prod.snd

def remove (place : π) (l : List (π × ρ)) : List (π × ρ) := l.eraseP fun e ↦ e.1 = place

def held (place : π) (l : List (π × ρ)) : ℕ := l.countP fun e ↦ e.1 = place

section Translate

variable (f : ρ → σ) (l : List (π × ρ))

theorem first_mapHeld : first place (mapHeld f l) = (first place l).map f := by
  unfold first mapHeld
  rw [List.find?_map, Option.map_map, Option.map_map]
  rfl

theorem remove_mapHeld : remove place (mapHeld f l) = mapHeld f (remove place l) := by
  unfold remove mapHeld
  rw [List.eraseP_map]
  rfl

theorem held_mapHeld : held place (mapHeld f l) = held place l := by
  unfold held mapHeld
  rw [List.countP_map]
  rfl

end Translate

theorem first_perm {l : List (π × ρ)} {r : ρ} (h : first place l = some r) :
    l.Perm ((place, r) :: remove place l) := by
  induction l with
  | nil => cases h
  | cons e l ih =>
    by_cases he : e.1 = place
    · have hr : e.2 = r := by simpa [first, he] using h
      have hrest : remove place (e :: l) = l := by simp [remove, he]
      rw [hrest, ← hr, ← he]
    · have hl : first place l = some r := by simpa [first, he] using h
      have hrest : remove place (e :: l) = e :: remove place l := by simp [remove, he]
      rw [hrest]
      exact ((ih hl).cons e).trans (List.Perm.swap _ _ _)

theorem moved_perm {l : List (π × ρ)} {r : ρ} {dst : π} (h : first place l = some r) :
    ((remove place l ++ [(dst, r)]).map Prod.snd).Perm (l.map Prod.snd) := by
  have hl := (first_perm h).map Prod.snd
  rw [List.map_append]
  exact List.perm_append_comm.trans hl.symm

theorem first_mem {l : List (π × ρ)} {r : ρ} (h : first place l = some r) :
    r ∈ l.map Prod.snd := by
  have hmem := (first_perm h).mem_iff (a := (place, r))
  exact List.mem_map.mpr ⟨(place, r), hmem.mpr (List.mem_cons_self ..), rfl⟩

section Counting

variable {α : Type} {p q : α → Bool} {l : List α} {x y : α}

/-- What changes for one element changes the count by one at most. -/
theorem countP_change (hnodup : l.Nodup) (hx : x ∈ l) (hsame : ∀ z ∈ l, z ≠ x → q z = p z) :
    l.countP q + (if p x then 1 else 0) = l.countP p + (if q x then 1 else 0) := by
  induction l with
  | nil => cases hx
  | cons z l ih =>
    rw [List.nodup_cons] at hnodup
    rw [List.countP_cons, List.countP_cons]
    by_cases hz : z = x
    · subst hz
      have hrest : l.countP q = l.countP p := by
        apply List.countP_congr
        intro w hw
        have hne : w ≠ z := fun heq ↦ hnodup.1 (heq ▸ hw)
        rw [hsame w (List.mem_cons_of_mem z hw) hne]
      omega
    · have hmem := (List.mem_cons.mp hx).resolve_left fun heq ↦ hz heq.symm
      have hrest := ih hnodup.2 hmem fun w hw ↦ hsame w (List.mem_cons_of_mem z hw)
      rw [hsame z List.mem_cons_self hz]
      omega

theorem countP_exchange [DecidableEq α] (hnodup : l.Nodup) (hx : x ∈ l) (hy : y ∈ l)
    (hxy : q x = p y) (hyx : q y = p x) (hsame : ∀ z ∈ l, z ≠ x → z ≠ y → q z = p z) :
    l.countP q = l.countP p := by
  by_cases heq : x = y
  · subst heq
    apply List.countP_congr
    intro z hz
    by_cases hzx : z = x
    · rw [hzx, hxy]
    · rw [hsame z hz hzx hzx]
  · have hfirst := countP_change (p := p) (q := fun z ↦ if z = x then q x else p z) hnodup hx
      fun z _ hz ↦ if_neg hz
    have hsecond := countP_change (p := fun z ↦ if z = x then q x else p z) (q := q) hnodup hy
      fun z hz hzy ↦ by
        by_cases hzx : z = x
        · rw [if_pos hzx, hzx]
        · rw [if_neg hzx]
          exact hsame z hz hzx hzy
    simp only [if_true, if_neg (Ne.symm heq), hxy, hyx] at hfirst hsecond
    omega

end Counting

end LivioArk.Library.Holdings
