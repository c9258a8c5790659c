import Mathlib

/-!
# The first elements with their keys

A loop that drops every element whose key it has met before keeps the first element with each key,
in the order of the list.
-/

namespace Nix

variable {α κ : Type*} [DecidableEq κ] {key : α → κ}

/-- The elements of a list of which no earlier element has the key. -/
def firstByKey (key : α → κ) (l : List α) : List α :=
  l.foldl (fun kept a => if key a ∈ kept.map key then kept else kept ++ [a]) []

@[simp] theorem firstByKey_nil : firstByKey key [] = [] := rfl

/-- One more element is taken when its key is new. -/
theorem firstByKey_concat (l : List α) (a : α) : firstByKey key (l ++ [a]) =
    if key a ∈ (firstByKey key l).map key then firstByKey key l else firstByKey key l ++ [a] := by
  rw [firstByKey, List.foldl_append]
  rfl

/-- No two of the kept elements have the same key. -/
theorem nodup_firstByKey (l : List α) : ((firstByKey key l).map key).Nodup := by
  induction l using List.reverseRecOn with
  | nil => simp
  | append_singleton l a ih =>
    rw [firstByKey_concat]
    split_ifs with h
    · exact ih
    · rw [List.map_append, List.nodup_append]
      exact ⟨ih, by simp, fun x hx y hy => by
        rw [List.map_singleton, List.mem_singleton] at hy
        rintro rfl
        exact h (hy ▸ hx)⟩

/-- Every key of the list is the key of a kept element. -/
theorem mem_map_firstByKey {l : List α} {k : κ} : k ∈ (firstByKey key l).map key ↔ k ∈ l.map key := by
  induction l using List.reverseRecOn with
  | nil => simp
  | append_singleton l a ih =>
    rw [firstByKey_concat, List.map_append, List.map_singleton, List.mem_append,
      List.mem_singleton, ← ih]
    split_ifs with h
    · exact ⟨Or.inl, fun hk => hk.elim id fun hk => hk ▸ h⟩
    · rw [List.map_append, List.map_singleton, List.mem_append, List.mem_singleton]

end Nix
