import NixStore.Lib.FileSystem
import NixStore.Store.PathInjectivity

/-!
# The form of store paths

A store path is the store, a slash, and a name without slashes; this is what `makeStorePath` returns.
-/

namespace Nix

variable {cfg : StoreConfig} {sha256 : Str → Str}

/-- The store directory begins with a slash. -/
theorem head?_nixStore (cfg : StoreConfig) : cfg.nixStore.head? = some slash :=
  of_decide_eq_true cfg.absolute

/-- A path in the store goes on behind its slash. -/
theorem isInStore_iff {path : Path} :
    isInStore cfg path = true ↔ ∃ c rest, path = cfg.nixStore ++ slash :: c :: rest := by
  simp only [isInStore, Bool.and_eq_true, decide_eq_true_eq, isAbsolute]
  constructor
  · rintro ⟨⟨⟨-, htake⟩, hlen⟩, hslash⟩
    obtain ⟨hlt, hget⟩ := List.getElem?_eq_some_iff.mp hslash
    have hne : path.drop (cfg.nixStore.length + 1) ≠ [] := by
      rw [Ne, List.drop_eq_nil_iff]
      omega
    obtain ⟨c, rest, hrest⟩ := List.exists_cons_of_ne_nil hne
    refine ⟨c, rest, ?_⟩
    calc path = path.take cfg.nixStore.length ++ path.drop cfg.nixStore.length :=
          (List.take_append_drop _ _).symm
      _ = cfg.nixStore ++ slash :: c :: rest := by
          rw [htake, List.drop_eq_getElem_cons hlt, hget, hrest]
          rfl
  · rintro ⟨c, rest, rfl⟩
    refine ⟨⟨⟨?_, List.take_left⟩, by simp⟩, by simp [slash]⟩
    rw [List.head?_append, head?_nixStore]
    rfl

/-- What comes behind the store directory and its slash. -/
theorem drop_store_succ (rest : Str) :
    (cfg.nixStore ++ slash :: rest).drop (cfg.nixStore.length + 1) = rest := by
  rw [← List.drop_drop, List.drop_left]
  rfl

/-- A store path is the store, a slash, and a name. -/
theorem isStorePath_iff {path : Path} : isStorePath cfg path = true ↔
    ∃ n, n ≠ [] ∧ slash ∉ n ∧ path = cfg.nixStore ++ slash :: n := by
  rw [isStorePath, Bool.and_eq_true, isInStore_iff, decide_eq_true_eq]
  constructor
  · rintro ⟨⟨c, rest, rfl⟩, hslash⟩
    rw [drop_store_succ] at hslash
    exact ⟨c :: rest, List.cons_ne_nil _ _, hslash, rfl⟩
  · rintro ⟨n, hne, hslash, rfl⟩
    obtain ⟨c, rest, rfl⟩ := List.exists_cons_of_ne_nil hne
    exact ⟨⟨c, rest, rfl⟩, by rw [drop_store_succ]; exact hslash⟩

/-- A store path begins with a slash. -/
theorem head?_of_isStorePath {path : Path} (h : isStorePath cfg path = true) :
    path.head? = some slash := by
  obtain ⟨n, -, -, rfl⟩ := isStorePath_iff.mp h
  rw [List.head?_append, head?_nixStore]
  rfl

/-- The path that `toStorePath` returns. -/
theorem toStorePath_eq {path p : Path} (h : toStorePath cfg path = .ok p) : ∃ c rest,
    path = cfg.nixStore ++ slash :: c :: rest ∧
      p = cfg.nixStore ++ slash :: (c :: rest).takeWhile (· ≠ slash) := by
  unfold toStorePath at h
  split_ifs at h with hin
  obtain ⟨c, rest, rfl⟩ := isInStore_iff.mp hin
  cases h
  have htake : (cfg.nixStore ++ slash :: c :: rest).take (cfg.nixStore.length + 1) =
      cfg.nixStore ++ [slash] := by
    rw [List.append_cons, List.take_left' (by simp)]
  refine ⟨c, rest, rfl, ?_⟩
  rw [drop_store_succ, htake, List.append_assoc]
  rfl

/-- A name of store paths has no NUL. -/
theorem nulFree_of_isNameChar {n : Str} (h : ∀ c ∈ n, isNameChar c = true) : n.NulFree := fun h0 =>
  absurd (h 0 h0) (by decide)

/-- A path that is made out of a fingerprint is a store path. -/
theorem makeStorePath_spec {type : Str} {hash : Hash} {name : Str} {p : Path}
    (h : makeStorePath cfg sha256 type hash name = .ok p) :
    isStorePath cfg p = true ∧ p.NulFree ∧ ∀ c ∈ name, isNameChar c = true := by
  obtain ⟨⟨⟩, hcheck, h⟩ := Outcome.bind_eq_ok.mp h
  cases h
  have hname := isNameChar_of_checkStoreName hcheck
  have hhash : ∀ c ∈ hashPart sha256 (fingerprint cfg type hash name), c ∈ base32Chars :=
    fun c hc => mem_base32Chars_of_mem_printDigits32 hc
  refine ⟨isStorePath_iff.mpr
    ⟨hashPart sha256 (fingerprint cfg type hash name) ++ str "-" ++ name, by simp [str], ?_, ?_⟩,
    ?_, hname⟩
  · simp only [List.mem_append, not_or]
    exact ⟨⟨fun hc => absurd (hhash _ hc) (by decide), by decide⟩,
      fun hc => absurd (hname _ hc) (by decide)⟩
  · simp only [List.append_assoc]
    rfl
  · simp only [nulFree_append]
    exact ⟨⟨⟨⟨cfg.nulFree, by decide⟩, fun hc => absurd (hhash _ hc) (by decide)⟩, by decide⟩,
      nulFree_of_isNameChar hname⟩

/-- The form of a fixed-output path. -/
theorem makeFixedOutputPath_spec {recursive : Bool} {hashAlgo : HashType} {hash : Hash} {name : Str}
    {p : Path} (h : makeFixedOutputPath cfg sha256 recursive hashAlgo hash name = .ok p) :
    isStorePath cfg p = true ∧ p.NulFree := by
  unfold makeFixedOutputPath at h
  split_ifs at h with hsource
  · obtain ⟨hp, hnul, -⟩ := makeStorePath_spec h
    exact ⟨hp, hnul⟩
  · obtain ⟨algo, -, h⟩ := Outcome.bind_eq_ok.mp h
    obtain ⟨hp, hnul, -⟩ := makeStorePath_spec h
    exact ⟨hp, hnul⟩

end Nix
