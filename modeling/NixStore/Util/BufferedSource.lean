import NixStore.Util.BufferedSink
import NixStore.Lib.Parser

/-!
# Buffered sources

Model of `BufferedSource` with its buffer and its two positions, and of `Source::operator ()`.  What
is read comes from `readUnbuffered`, which returns as much as it likes, but at least one byte and not
more than the buffer holds, until it throws at the end.
-/

namespace Nix

/-- What `readUnbuffered` returns, call by call. -/
structure ShortReads (bufSize : ℕ) where
  reads : List Str
  nonempty : ∀ r ∈ reads, r ≠ []
  fit : ∀ r ∈ reads, r.length ≤ bufSize

/-- Model of `BufferedSource`; `source` is what `readUnbuffered` is going to return. -/
structure BufferedSource (bufSize : ℕ) where
  bufPosIn : ℕ
  bufPosOut : ℕ
  buffer : ℕ → UInt8
  source : ShortReads bufSize

namespace BufferedSource

variable {bufSize : ℕ}

/-- A new source; the memory of its buffer holds anything. -/
def new (buffer : ℕ → UInt8) (source : ShortReads bufSize) : BufferedSource bufSize :=
  ⟨0, 0, buffer, source⟩

/-- Fill the buffer with `readUnbuffered`, if it is empty. -/
def fill (s : BufferedSource bufSize) : Outcome Str (BufferedSource bufSize) :=
  if s.bufPosIn = 0 then
    match s.source with
    | ⟨[], _, _⟩ => .error (str "unexpected end-of-file")
    | ⟨r :: reads, hne, hfit⟩ =>
      .ok { s with
        buffer := copyMem s.buffer 0 r
        bufPosIn := r.length
        source := ⟨reads, fun q hq => hne q (List.mem_cons_of_mem r hq),
          fun q hq => hfit q (List.mem_cons_of_mem r hq)⟩ }
  else .ok s

/-- Model of `read`: what is stored in the caller's buffer. -/
def read (s : BufferedSource bufSize) (len : ℕ) : Outcome Str (Str × BufferedSource bufSize) := do
  let s ← s.fill
  let n := if len > s.bufPosIn - s.bufPosOut then s.bufPosIn - s.bufPosOut else len
  let data := readMem s.buffer s.bufPosOut n
  let s := { s with bufPosOut := s.bufPosOut + n }
  if s.bufPosIn = s.bufPosOut then return (data, { s with bufPosIn := 0, bufPosOut := 0 })
  else return (data, s)

/-- Model of `Source::operator ()`, with a bound on the number of rounds. -/
def get : ℕ → BufferedSource bufSize → ℕ → Outcome Str (Str × BufferedSource bufSize)
  | _, s, 0 => .ok ([], s)
  | 0, _, _ + 1 => .diverge
  | fuel + 1, s, len + 1 => do
    let (data, s) ← s.read (len + 1)
    let (rest, s) ← get fuel s (len + 1 - data.length)
    return (data ++ rest, s)

/-- Requests, one after the other. -/
def readAll (s : BufferedSource bufSize) : List ℕ → Outcome Str (List Str × BufferedSource bufSize)
  | [] => .ok ([], s)
  | len :: lens => do
    let (data, s) ← s.read len
    let (datas, s) ← s.readAll lens
    return (data :: datas, s)

/-- The bytes that have not been delivered. -/
def remaining (s : BufferedSource bufSize) : Str :=
  readMem s.buffer s.bufPosOut (s.bufPosIn - s.bufPosOut) ++ s.source.reads.flatten

/-- The positions are in order, and equal only when the buffer is empty. -/
def Sound (s : BufferedSource bufSize) : Prop :=
  (s.bufPosIn = 0 ∧ s.bufPosOut = 0) ∨ (s.bufPosOut < s.bufPosIn ∧ s.bufPosIn ≤ bufSize)

/-- A new source is sound. -/
theorem sound_new (buffer : ℕ → UInt8) (source : ShortReads bufSize) : (new buffer source).Sound :=
  Or.inl ⟨rfl, rfl⟩

/-- A new source has all of its reads before it. -/
theorem remaining_new (buffer : ℕ → UInt8) (source : ShortReads bufSize) :
    (new buffer source).remaining = source.reads.flatten := rfl

variable {s : BufferedSource bufSize}

/-- The buffer is filled unless everything has been delivered. -/
theorem fill_spec (h : s.Sound) :
    (s.remaining = [] ∧ s.fill = .error (str "unexpected end-of-file")) ∨
      ∃ s', s.fill = .ok s' ∧ s'.remaining = s.remaining ∧ s'.bufPosOut < s'.bufPosIn ∧
        s'.bufPosIn ≤ bufSize := by
  rcases h with ⟨hin, hout⟩ | ⟨hlt, hle⟩
  · unfold fill
    rw [if_pos hin]
    split
    · rename_i hsource
      exact Or.inl ⟨by simp [remaining, hin, hsource], rfl⟩
    · rename_i r reads hne hfit hsource
      have hr : 0 < r.length := List.length_pos_iff.mpr (hne r List.mem_cons_self)
      refine Or.inr ⟨_, rfl, ?_, by simpa [hout] using hr, hfit r List.mem_cons_self⟩
      simp [remaining, hin, hout, hsource, readMem_copyMem]
  · refine Or.inr ⟨s, ?_, rfl, hlt, hle⟩
    rw [fill, if_neg (by omega)]

/-- A read fails exactly when everything has been delivered; otherwise it delivers the next bytes, at
least one if it is asked for one. -/
theorem read_spec (h : s.Sound) (len : ℕ) :
    (s.remaining = [] ∧ s.read len = .error (str "unexpected end-of-file")) ∨
      s.remaining ≠ [] ∧ ∃ data s', s.read len = .ok (data, s') ∧ s'.Sound ∧
        data ++ s'.remaining = s.remaining ∧ data.length ≤ len ∧ (0 < len → data ≠ []) := by
  rcases fill_spec h with ⟨hnil, hfill⟩ | ⟨s₁, hfill, hrem, hlt, hle⟩
  · exact Or.inl ⟨hnil, by rw [read, hfill, Outcome.error_bind]⟩
  refine Or.inr ⟨?_, ?_⟩
  · intro hnil
    rw [hnil, remaining, List.append_eq_nil_iff, ← List.length_eq_zero_iff, length_readMem] at hrem
    omega
  rw [read, hfill, Outcome.ok_bind]
  set n := if len > s₁.bufPosIn - s₁.bufPosOut then s₁.bufPosIn - s₁.bufPosOut else len with hn
  have hnle : n ≤ s₁.bufPosIn - s₁.bufPosOut := by
    rw [hn]
    split_ifs <;> omega
  have hnlen : n ≤ len := by
    rw [hn]
    split_ifs <;> omega
  have hnpos : 0 < len → 0 < n := by
    rw [hn]
    split_ifs <;> omega
  have hsplit : s₁.remaining = readMem s₁.buffer s₁.bufPosOut n ++
      (readMem s₁.buffer (s₁.bufPosOut + n) (s₁.bufPosIn - (s₁.bufPosOut + n)) ++
        s₁.source.reads.flatten) := by
    rw [← List.append_assoc, ← readMem_add, remaining]
    congr 2
    omega
  have hdata : 0 < len → readMem s₁.buffer s₁.bufPosOut n ≠ [] := fun hlen hnil => by
    have := congrArg List.length hnil
    rw [length_readMem, List.length_nil] at this
    exact absurd (hnpos hlen) (by omega)
  dsimp only
  split_ifs with hend
  · refine ⟨_, _, rfl, Or.inl ⟨rfl, rfl⟩, ?_, by rw [length_readMem]; exact hnlen, hdata⟩
    rw [← hrem, hsplit, ← hend]
    simp [remaining]
  · refine ⟨_, _, rfl, Or.inr ⟨by dsimp only; omega, hle⟩, ?_, by rw [length_readMem]; exact hnlen,
      hdata⟩
    rw [← hrem, hsplit]
    rfl

/-- Requests deliver the bytes in order. -/
theorem readAll_spec (h : s.Sound) {lens : List ℕ} {datas : List Str} {s' : BufferedSource bufSize}
    (hread : s.readAll lens = .ok (datas, s')) :
    s'.Sound ∧ datas.flatten ++ s'.remaining = s.remaining ∧
      List.Forall₂ (fun data len => data.length ≤ len ∧ (0 < len → data ≠ [])) datas lens := by
  induction lens generalizing s datas with
  | nil =>
    cases hread
    exact ⟨h, rfl, .nil⟩
  | cons len lens ih =>
    rw [readAll] at hread
    obtain ⟨⟨data, s₁⟩, hs₁, hread⟩ := Outcome.bind_eq_ok.mp hread
    obtain ⟨⟨datas', s₂⟩, hs₂, hread⟩ := Outcome.bind_eq_ok.mp hread
    cases hread
    rcases read_spec h len with ⟨-, herror⟩ | ⟨-, data', s₁', hok, hsound, happend, hdata⟩
    · rw [herror] at hs₁
      cases hs₁
    rw [hok, Outcome.ok.injEq, Prod.mk.injEq] at hs₁
    obtain ⟨rfl, rfl⟩ := hs₁
    obtain ⟨hsound', happend', hdatas⟩ := ih hsound hs₂
    refine ⟨hsound', ?_, .cons hdata hdatas⟩
    rw [List.flatten_cons, List.append_assoc, happend', happend]

/-- `Source::operator ()` delivers exactly as many bytes as it is asked for, or fails because there
are not so many. -/
theorem get_spec (h : s.Sound) {fuel len : ℕ} (hfuel : len ≤ fuel) :
    (s.remaining.length < len ∧ s.get fuel len = .error (str "unexpected end-of-file")) ∨
      len ≤ s.remaining.length ∧ ∃ s', s.get fuel len = .ok (s.remaining.take len, s') ∧ s'.Sound ∧
        s'.remaining = s.remaining.drop len := by
  induction fuel generalizing s len with
  | zero =>
    obtain rfl := Nat.le_zero.mp hfuel
    exact Or.inr ⟨Nat.zero_le _, s, rfl, h, rfl⟩
  | succ fuel ih =>
    cases len with
    | zero => exact Or.inr ⟨Nat.zero_le _, s, rfl, h, rfl⟩
    | succ len =>
      rcases read_spec h (len + 1) with ⟨hnil, herror⟩ | ⟨-, data, s₁, hok, hsound, happend, hle, hne⟩
      · exact Or.inl ⟨by rw [hnil]; exact Nat.succ_pos len, by rw [get, herror, Outcome.error_bind]⟩
      have hpos : 0 < data.length := List.length_pos_iff.mpr (hne (Nat.succ_pos len))
      have hlength : s.remaining.length = data.length + s₁.remaining.length := by
        rw [← happend, List.length_append]
      rw [get, hok, Outcome.ok_bind]
      rcases ih hsound (show len + 1 - data.length ≤ fuel by omega) with
        ⟨hlt, herror⟩ | ⟨hge, s₂, hget, hsound₂, hrem⟩
      · exact Or.inl ⟨by omega, by dsimp only; rw [herror, Outcome.error_bind]⟩
      · refine Or.inr ⟨by omega, s₂, ?_, hsound₂, ?_⟩
        · dsimp only
          rw [hget, Outcome.ok_bind, ← happend, List.take_append, List.take_of_length_le hle]
          rfl
        · rw [hrem, ← happend, List.drop_append, List.drop_of_length_le hle, List.nil_append]

/-- However short the reads are, requests get the underlying bytes in order and fail only at their
end, and a request for so many bytes gets so many, if there are so many. -/
def Delivers (buffer : ℕ → UInt8) (source : ShortReads bufSize) : Prop :=
  ∀ lens datas s', (new buffer source).readAll lens = .ok (datas, s') →
    datas.flatten ++ s'.remaining = source.reads.flatten ∧
      List.Forall₂ (fun data len => data.length ≤ len ∧ (0 < len → data ≠ [])) datas lens ∧
        (∀ len, s'.read len = .error (str "unexpected end-of-file") ∨ ∃ r, s'.read len = .ok r) ∧
          (∀ len, (∃ e, s'.read len = .error e) ↔ datas.flatten = source.reads.flatten) ∧
            ∀ fuel len, len ≤ fuel →
              (s'.remaining.length < len ∧
                s'.get fuel len = .error (str "unexpected end-of-file")) ∨
              len ≤ s'.remaining.length ∧ ∃ s'', s'.get fuel len = .ok (s'.remaining.take len, s'') ∧
                s''.remaining = s'.remaining.drop len

/-- A source delivers what its reads hold. -/
theorem delivers (buffer : ℕ → UInt8) (source : ShortReads bufSize) : Delivers buffer source := by
  intro lens datas s' hread
  obtain ⟨hsound, happend, hdatas⟩ := readAll_spec (sound_new buffer source) hread
  rw [remaining_new] at happend
  have hall : s'.remaining = [] ↔ datas.flatten = source.reads.flatten := by
    rw [← happend]
    constructor
    · exact fun hnil => by rw [hnil, List.append_nil]
    · exact fun heq => List.self_eq_append_right.mp heq
  refine ⟨happend, hdatas, fun len => ?_, fun len => ?_, fun fuel len hfuel => ?_⟩
  · rcases read_spec hsound len with ⟨-, herror⟩ | ⟨-, data, s'', hok, -⟩
    · exact Or.inl herror
    · exact Or.inr ⟨_, hok⟩
  · rw [← hall]
    rcases read_spec hsound len with ⟨hnil, herror⟩ | ⟨hne, data, s'', hok, -⟩
    · exact iff_of_true ⟨_, herror⟩ hnil
    · exact iff_of_false (by rw [hok]; rintro ⟨e, he⟩; cases he) hne
  · rcases get_spec hsound hfuel with herror | ⟨hle, s'', hget, -, hrem⟩
    · exact Or.inl herror
    · exact Or.inr ⟨hle, s'', hget, hrem⟩

end BufferedSource

/-- Buffering is transparent for sinks, for hashing and for sources exactly when the buffer of the sink
has room, no single piece of data for the hash has 2^32 bytes and all of it has less than 2^64. -/
theorem buffering_transparent_iff {size sourceSize : ℕ} (buffer : ℕ → UInt8) (calls : List SinkCall)
    (hashCalls : List HashCall) (source : ShortReads sourceSize) :
    (BufferedSink.Transparent size buffer calls ∧
        (∀ alg : HashAlg, alg.HashesExactly buffer hashCalls) ∧
          BufferedSource.Delivers buffer source) ↔
      0 < size ∧ (∀ d ∈ hashData hashCalls, d.length < 2 ^ 32) ∧
        (hashData hashCalls).flatten.length < 2 ^ 64 := by
  rw [BufferedSink.transparent_iff, HashAlg.hashesExactly_iff,
    and_iff_left (BufferedSource.delivers buffer source)]

/-- Data of 2^32 bytes in one piece is not hashed exactly. -/
theorem not_hashesExactly_large : ¬ ∀ alg : HashAlg,
    alg.HashesExactly (fun _ => 0) [.put (List.replicate (2 ^ 32) 0)] := by
  rw [HashAlg.hashesExactly_iff]
  rintro ⟨hdata, -⟩
  have hlt := hdata (List.replicate (2 ^ 32) 0) List.mem_cons_self
  rw [List.length_replicate] at hlt
  exact lt_irrefl _ hlt

end Nix
