import Mathlib

/-!
# Sorted maps

A finite map as the list of its entries, by growing keys: the order in which a loop over
the map comes to them.
-/

namespace SortedMap

variable {κ α : Type*} [LinearOrder κ]

/-- Look up a key. -/
def find (k : κ) : List (κ × α) → Option α
  | [] => none
  | (k', v) :: m => if k = k' then some v else find k m

/-- Set the value of a key. -/
def insert (k : κ) (v : α) : List (κ × α) → List (κ × α)
  | [] => [(k, v)]
  | (k', v') :: m =>
      if k < k' then (k, v) :: (k', v') :: m
      else if k = k' then (k, v) :: m
      else (k', v') :: insert k v m

/-- Look up a key, and put a default value there if it is missing: `operator[]`. -/
def subscript (dflt : α) (k : κ) (m : List (κ × α)) : α × List (κ × α) :=
  match find k m with
  | some v => (v, m)
  | none => (dflt, insert k dflt m)

/-- The keys grow. -/
def Sorted (m : List (κ × α)) : Prop := m.Pairwise fun e e' ↦ e.1 < e'.1

theorem find_insert (k k' : κ) (v : α) (m : List (κ × α)) :
    find k' (insert k v m) = if k' = k then some v else find k' m := by
  induction m with
  | nil => rfl
  | cons e m ih =>
      obtain ⟨k₀, v₀⟩ := e
      rw [insert]
      by_cases hlt : k < k₀
      · rw [if_pos hlt, find]
      · rw [if_neg hlt]
        by_cases heq : k = k₀
        · subst heq
          rw [if_pos rfl, find, find]
          split <;> rfl
        · rw [if_neg heq, find, find, ih]
          by_cases hk : k' = k₀
          · subst hk
            rw [if_pos rfl, if_pos rfl, if_neg (Ne.symm heq)]
          · rw [if_neg hk, if_neg hk]

theorem mem_insert {k : κ} {v : α} {m : List (κ × α)} {e : κ × α} (h : e ∈ insert k v m) :
    e = (k, v) ∨ e ∈ m := by
  induction m with
  | nil => exact .inl (List.mem_singleton.mp h)
  | cons e' m ih =>
      rw [insert] at h
      split at h
      · exact List.mem_cons.mp h
      split at h
      · exact (List.mem_cons.mp h).imp_right (List.mem_cons_of_mem _)
      · rcases List.mem_cons.mp h with rfl | h
        · exact .inr List.mem_cons_self
        · exact (ih h).imp_right (List.mem_cons_of_mem _)

theorem mem_of_find {k : κ} {v : α} {m : List (κ × α)} (h : find k m = some v) : (k, v) ∈ m := by
  induction m with
  | nil => cases h
  | cons e m ih =>
      obtain ⟨k', v'⟩ := e
      rw [find] at h
      split at h
      case isTrue heq =>
          subst heq
          obtain rfl := Option.some.inj h
          exact List.mem_cons_self
      case isFalse => exact List.mem_cons_of_mem _ (ih h)

/-- In a sorted map, an entry is what is found under its key. -/
theorem Sorted.find_of_mem {k : κ} {v : α} {m : List (κ × α)} (hm : Sorted m) (h : (k, v) ∈ m) :
    find k m = some v := by
  induction m with
  | nil => cases h
  | cons e m ih =>
      obtain ⟨hfirst, hrest⟩ := List.pairwise_cons.mp hm
      rw [find]
      rcases List.mem_cons.mp h with rfl | h
      · exact if_pos rfl
      · have hlt : e.1 < k := hfirst (k, v) h
        rw [if_neg hlt.ne']
        exact ih hrest h

theorem Sorted.insert {k : κ} {v : α} {m : List (κ × α)} (hm : Sorted m) :
    Sorted (insert k v m) := by
  induction m with
  | nil => exact List.pairwise_singleton _ _
  | cons e m ih =>
      obtain ⟨hfirst, hrest⟩ := List.pairwise_cons.mp hm
      rw [SortedMap.insert]
      rcases lt_trichotomy k e.1 with hlt | heq | hgt
      · rw [if_pos hlt]
        refine List.pairwise_cons.mpr ⟨fun e' he' ↦ ?_, hm⟩
        rcases List.mem_cons.mp he' with rfl | he'
        · exact hlt
        · exact hlt.trans (hfirst e' he')
      · rw [if_neg (by simp [heq]), if_pos heq]
        exact List.pairwise_cons.mpr ⟨fun e' he' ↦ heq ▸ hfirst e' he', hrest⟩
      · rw [if_neg hgt.not_gt, if_neg hgt.ne']
        refine List.pairwise_cons.mpr ⟨fun e' he' ↦ ?_, ih hrest⟩
        rcases mem_insert he' with rfl | he'
        · exact hgt
        · exact hfirst e' he'

end SortedMap
