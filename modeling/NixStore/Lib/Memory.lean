import Mathlib

/-!
# Memory

Reading from and copying to a memory that is addressed by numbers.
-/

namespace Nix

variable {σ : Type*}

/-- So many cells from an address on. -/
def readMem (m : ℕ → σ) (pos len : ℕ) : List σ := (List.range' pos len).map m

/-- Model of `memcpy`. -/
def copyMem (m : ℕ → σ) (pos : ℕ) (data : List σ) : ℕ → σ := fun i =>
  if pos ≤ i then data[i - pos]?.getD (m i) else m i

/-- As many characters as asked for are read. -/
@[simp] theorem length_readMem (m : ℕ → σ) (pos len : ℕ) : (readMem m pos len).length = len := by
  simp [readMem]

@[simp] theorem readMem_zero (m : ℕ → σ) (pos : ℕ) : readMem m pos 0 = [] := rfl

/-- Reading in two parts. -/
theorem readMem_add (m : ℕ → σ) (pos a b : ℕ) :
    readMem m pos (a + b) = readMem m pos a ++ readMem m (pos + a) b := by
  rw [readMem, readMem, readMem, ← List.map_append, List.range'_append_1]

/-- What has been copied is read. -/
theorem readMem_copyMem (m : ℕ → σ) (pos : ℕ) (data : List σ) :
    readMem (copyMem m pos data) pos data.length = data := by
  refine List.ext_getElem (length_readMem _ _ _) fun i hi hi' => ?_
  simp [readMem, copyMem, hi']

/-- What lies in front of a copy is not changed. -/
theorem readMem_copyMem_of_le (m : ℕ → σ) {a len pos : ℕ} (h : a + len ≤ pos) (data : List σ) :
    readMem (copyMem m pos data) a len = readMem m a len := by
  refine List.map_congr_left fun i hi => ?_
  rw [List.mem_range'_1] at hi
  rw [copyMem, if_neg (by omega)]

end Nix
