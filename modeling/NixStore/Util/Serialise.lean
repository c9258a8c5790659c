import NixStore.Lib.Prog
import NixStore.Util.Hash

/-!
# Serialisation

Model of `serialise.cc`: the encodings of numbers and strings, and their decoding from a source of
bytes.  A source delivers the bytes in pieces whose sizes nothing is known about, and programs that
read from one can have a state of their own besides it.  `Consumes m w P Q` says that `m` consumes
exactly the bytes `w`, however they arrive, and returns.
-/

namespace Nix

/-! ### Writing -/

/-- The low bytes of a number, in little-endian order. -/
def leBytes : ℕ → ℕ → Str
  | 0, _ => []
  | k + 1, n => UInt8.ofNat n :: leBytes k (n / 256)

@[simp] theorem length_leBytes (k n : ℕ) : (leBytes k n).length = k := by
  induction k generalizing n with
  | zero => rfl
  | succ k ih => rw [leBytes, List.length_cons, ih]

/-- The value of the lowest `k` bytes. -/
theorem leValue_leBytes (k n : ℕ) : leValue (leBytes k n) = n % 256 ^ k := by
  induction k generalizing n with
  | zero => rw [pow_zero, Nat.mod_one]; rfl
  | succ k ih =>
    have hpow : 256 ^ (k + 1) = 256 * 256 ^ k := pow_succ' 256 k
    rw [leBytes, leValue, ih, hpow, Nat.mod_mul, UInt8.toNat_ofNat']

/-- Model of `writePadding`. -/
def writePadding (len : ℕ) : Str :=
  if len % 8 ≠ 0 then List.replicate (8 - len % 8) 0 else []

/-- Model of `writeInt`: the number is cut to 32 bits. -/
def writeInt (n : ℕ) : Str := leBytes 4 n ++ List.replicate 4 0

/-- Model of `writeLongLong`. -/
def writeLongLong (n : ℕ) : Str := leBytes 8 n

/-- Model of `writeString`. -/
def writeString (s : Str) : Str := writeInt s.length ++ s ++ writePadding s.length

/-- An integer takes eight bytes. -/
theorem length_writeInt (n : ℕ) : (writeInt n).length = 8 := by simp [writeInt]

/-- A string takes at least the eight bytes of its length. -/
theorem le_length_writeString (s : Str) : 8 ≤ (writeString s).length := by
  unfold writeString
  rw [List.length_append, List.length_append, length_writeInt]
  omega

/-! ### Sources -/

/-- Model of `Source`. -/
structure Source where
  /-- The bytes that have not been read. -/
  rest : Str
  /-- How many bytes there are behind the first one when `read` is called for the nth time. -/
  avail : ℕ → ℕ
  /-- How often `read` was called. -/
  calls : ℕ
  /-- The text of the exception at the end. -/
  eof : Str

/-- The exceptions of programs that read from a source. -/
inductive StreamError where
  /-- `SerialisationError` -/
  | serialisation (msg : Str)
  /-- `EndOfFile` -/
  | endOfFile (msg : Str)
  /-- `SysError`, without the text of the error number. -/
  | sysError (msg : Str)
  /-- Another `Error`. -/
  | error (msg : Str)
  /-- The recursion is deeper than the bound. -/
  | outOfFuel
deriving DecidableEq

/-- The state of a program that reads from a source. -/
structure Reading (κ : Type) where
  source : Source
  /-- The part of the state that has nothing to do with the source. -/
  other : κ

/-- Programs that read from a source. -/
abbrev SourceM (κ : Type) := Prog (Reading κ) StreamError

variable {κ α β : Type}

/-- A program that does not read. -/
def SourceM.lift (m : Prog κ StreamError α) : SourceM κ α := fun s =>
  match m s.other with
  | (r, k) => (r, { s with other := k })

/-- Model of `read`: at least one byte and at most `len` bytes. -/
def Source.read (len : ℕ) : SourceM κ Str := fun s =>
  if s.source.rest = [] then (.error (.endOfFile s.source.eof), s)
  else
    let n := min len (s.source.avail s.source.calls + 1)
    (.ok (s.source.rest.take n),
      { s with source := { s.source with
        rest := s.source.rest.drop n
        calls := s.source.calls + 1 } })

/-- The loop of `operator ()`, with the bytes read so far.  It makes at most `len` rounds. -/
def Source.getLoop : ℕ → ℕ → Str → SourceM κ Str
  | 0, _, data => pure data
  | k + 1, len, data =>
    if len = 0 then pure data
    else do
      let d ← Source.read len
      getLoop k (len - d.length) (data ++ d)

/-- Model of `operator ()`: exactly `len` bytes. -/
def Source.get (len : ℕ) : SourceM κ Str := Source.getLoop len len []

/-! ### Reading -/

/-- Model of `readPadding`. -/
def readPadding (len : ℕ) : SourceM κ Unit :=
  if len % 8 ≠ 0 then do
    let zero ← Source.get (8 - len % 8)
    if zero.any (· ≠ 0) then .throw (.serialisation (str "non-zero padding"))
  else pure ()

/-- Model of `readInt`. -/
def readInt : SourceM κ ℕ := do
  let buf ← Source.get 8
  if (buf.drop 4).any (· ≠ 0) then
    .throw (.serialisation (str "implementation cannot deal with > 32-bit integers"))
  else return leValue (buf.take 4)

/-- Model of `readLongLong`. -/
def readLongLong : SourceM κ ℕ := do
  let buf ← Source.get 8
  return leValue buf

/-- Model of `readString`. -/
def readString : SourceM κ Str := do
  let len ← readInt
  let buf ← Source.get len
  readPadding len
  return buf

/-! ### Programs that consume given bytes -/

/-- The program consumes exactly the given bytes and returns; `P` and `Q` are about the part of the
state that has nothing to do with the source. -/
def Consumes (m : SourceM κ α) (w : Str) (P : κ → Prop) (Q : α → κ → Prop) : Prop :=
  ∀ (s : Reading κ) (rest : Str), s.source.rest = w ++ rest → P s.other →
    m.Ends s (fun a s' => s'.source.rest = rest ∧ Q a s'.other) fun _ _ => False

/-- The program decodes the given bytes, and does nothing else. -/
def Decodes (m : SourceM κ α) (w : Str) (a : α) : Prop :=
  ∀ k, Consumes m w (· = k) fun b k' => b = a ∧ k' = k

section

variable {m : SourceM κ α} {w v : Str} {P P' : κ → Prop} {Q Q' : α → κ → Prop}

/-- Returning a value consumes nothing. -/
theorem Consumes.pure {a : α} (h : ∀ k, P k → Q a k) :
    Consumes (pure a : SourceM κ α) [] P Q := by
  intro s rest hs hP
  exact Prog.ends_pure ⟨hs, h _ hP⟩

/-- Two parsers in a row. -/
theorem Consumes.bind {f : α → SourceM κ β} {R : β → κ → Prop} (hm : Consumes m w P Q)
    (hf : ∀ a, Consumes (f a) v (Q a) R) : Consumes (m >>= f) (w ++ v) P R := by
  intro s rest hs hP
  rw [List.append_assoc] at hs
  refine (hm s (v ++ rest) hs hP).bind (fun a s' h => ?_) fun _ _ h => h
  exact hf a s' rest h.1 h.2

/-- Other conditions before and after. -/
theorem Consumes.mono (h : Consumes m w P Q) (hP : ∀ k, P' k → P k)
    (hQ : ∀ a k, Q a k → Q' a k) : Consumes m w P' Q' := by
  intro s rest hs hP'
  exact (h s rest hs (hP _ hP')).mono (fun a s' h => ⟨h.1, hQ a _ h.2⟩) fun _ _ h => h

/-- It is enough to look at one state at a time. -/
theorem Consumes.of_state (h : ∀ k₀, P k₀ → Consumes m w (· = k₀) Q) : Consumes m w P Q :=
  fun s rest hs hP => h s.other hP s rest hs rfl

/-- The same text, written otherwise. -/
theorem Consumes.congr (h : Consumes m w P Q) (hw : w = v) : Consumes m v P Q := hw ▸ h

/-- A program that does not read. -/
theorem Consumes.lift {m : Prog κ StreamError α}
    (h : ∀ k, P k → m.Ends k Q fun _ _ => False) : Consumes (SourceM.lift m) [] P Q := by
  intro s rest hs hP
  have hk := h _ hP
  unfold Prog.Ends SourceM.lift at *
  rcases hm : m s.other with ⟨e | a, k⟩
  · simp [hm] at hk
  · simp only [hm] at hk ⊢
    exact ⟨hs, hk⟩

/-- Returning a value decodes nothing. -/
theorem Decodes.pure (a : α) : Decodes (Pure.pure a : SourceM κ α) [] a :=
  fun _ => Consumes.pure fun _ hk => ⟨rfl, hk⟩

/-- Decoding before consuming. -/
theorem Decodes.bind {f : α → SourceM κ β} {R : β → κ → Prop} {a : α} (hm : Decodes m w a)
    (hf : Consumes (f a) v P R) : Consumes (m >>= f) (w ++ v) P R := by
  intro s rest hs hP
  refine Consumes.bind (hm s.other) (fun b => ?_) s rest hs rfl
  intro s' rest' hs' hb
  obtain ⟨rfl, hk⟩ := hb
  exact hf s' rest' hs' (hk ▸ hP)

/-- Decoding as the last step. -/
theorem Decodes.consumes {a : α} (hm : Decodes m w a) (h : ∀ k, P k → Q a k) :
    Consumes m w P Q := by
  intro s rest hs hP
  refine (hm s.other s rest hs rfl).mono (fun b s' hb => ?_) fun _ _ h => h
  obtain ⟨hrest, rfl, hk⟩ := hb
  exact ⟨hrest, h _ (hk ▸ hP)⟩

/-- Decoding one thing after another. -/
theorem Decodes.seq {f : α → SourceM κ β} {a : α} {b : β} (hm : Decodes m w a)
    (hf : Decodes (f a) v b) : Decodes (m >>= f) (w ++ v) b :=
  fun k => hm.bind (hf k)

/-- A check behind the decoding that reads nothing. -/
theorem Decodes.seq_nil {f : α → SourceM κ β} {a : α} {b : β} (hm : Decodes m w a)
    (hf : Decodes (f a) [] b) : Decodes (m >>= f) w b := by
  simpa using hm.seq hf

end

/-! ### Decoding what was written -/

/-- The pieces of the bytes add up, whatever their sizes. -/
theorem decodes_getLoop {k : ℕ} {w data : Str} (h : w.length ≤ k) :
    Decodes (Source.getLoop k w.length data : SourceM κ Str) w (data ++ w) := by
  induction k generalizing w data with
  | zero =>
    have hw : w = [] := List.length_eq_zero_iff.mp (Nat.le_zero.mp h)
    subst hw
    rw [List.append_nil]
    exact Decodes.pure data
  | succ k ih =>
    intro t s rest hs ht
    unfold Source.getLoop
    by_cases hlen : w.length = 0
    · rw [if_pos hlen]
      have hw : w = [] := List.length_eq_zero_iff.mp hlen
      subst hw
      rw [List.append_nil]
      exact Decodes.pure data t s rest hs ht
    · rw [if_neg hlen]
      -- the first call of `read` gives `n` bytes, the other calls the rest
      set n := min w.length (s.source.avail s.source.calls + 1) with hn
      have hne : s.source.rest ≠ [] := by
        intro hnil
        rw [hnil] at hs
        exact hlen (by simp [(List.append_eq_nil_iff.mp hs.symm).1])
      have htake : s.source.rest.take n = w.take n := by
        rw [hs, List.take_append_of_le_length (by omega)]
      have hdrop : s.source.rest.drop n = w.drop n ++ rest := by
        rw [hs, List.drop_append_of_le_length (by omega)]
      have hread : (Source.read w.length : SourceM κ Str) s = (.ok (w.take n),
          { s with source := { s.source with
            rest := w.drop n ++ rest
            calls := s.source.calls + 1 } }) := by
        unfold Source.read
        rw [if_neg hne, ← hn]
        dsimp only
        rw [htake, hdrop]
      have hsub : w.length - (w.take n).length = (w.drop n).length := by
        rw [List.length_take, List.length_drop]
        omega
      unfold Prog.Ends
      rw [Prog.bind_apply, hread]
      dsimp only
      rw [hsub, ← List.take_append_drop n w, ← List.append_assoc, List.take_append_drop]
      exact ih (by rw [List.length_drop]; omega) t _ rest rfl ht

/-- As many bytes as asked for. -/
theorem decodes_get {w : Str} {len : ℕ} (h : w.length = len) :
    Decodes (Source.get len : SourceM κ Str) w w := by
  subst h
  exact decodes_getLoop (le_refl w.length)

/-- The padding is read. -/
theorem decodes_readPadding (len : ℕ) :
    Decodes (readPadding len : SourceM κ Unit) (writePadding len) () := by
  unfold readPadding writePadding
  by_cases h : len % 8 ≠ 0
  · rw [if_pos h, if_pos h]
    refine (decodes_get List.length_replicate).seq_nil ?_
    rw [if_neg (by simp)]
    exact Decodes.pure ()
  · rw [if_neg h, if_neg h]
    exact Decodes.pure ()

/-- An integer is read back. -/
theorem decodes_readInt {n : ℕ} (hn : n < 2 ^ 32) :
    Decodes (readInt : SourceM κ ℕ) (writeInt n) n := by
  refine (decodes_get (length_writeInt n)).seq_nil ?_
  have hdrop : (writeInt n).drop 4 = List.replicate 4 0 := by
    unfold writeInt
    rw [List.drop_append_of_le_length (by simp), List.drop_of_length_le (by simp), List.nil_append]
  have htake : (writeInt n).take 4 = leBytes 4 n := by
    unfold writeInt
    rw [List.take_append_of_le_length (by simp), List.take_of_length_le (by simp)]
  rw [hdrop, htake, if_neg (by decide), leValue_leBytes, Nat.mod_eq_of_lt (by omega)]
  exact Decodes.pure n

/-- A long integer is read back. -/
theorem decodes_readLongLong {n : ℕ} (hn : n < 2 ^ 64) :
    Decodes (readLongLong : SourceM κ ℕ) (writeLongLong n) n := by
  refine (decodes_get (length_leBytes 8 n)).seq_nil ?_
  rw [leValue_leBytes, Nat.mod_eq_of_lt (by omega)]
  exact Decodes.pure n

/-- A string is read back. -/
theorem decodes_readString {s : Str} (hs : s.length < 2 ^ 32) :
    Decodes (readString : SourceM κ Str) (writeString s) s := by
  unfold writeString
  rw [List.append_assoc]
  refine (decodes_readInt hs).seq ((decodes_get rfl).seq ?_)
  exact (decodes_readPadding s.length).seq_nil (Decodes.pure s)

end Nix
