import NixStore.Lib.Memory
import NixStore.Util.HashSink

/-!
# Buffered sinks

Model of `BufferedSink` with its buffer and its position, and of `HashSink` as the sink whose `write`
feeds a hash function.  A sink passes what it is given to `write` in pieces: parts of the buffer, and
data that is too large for it (`Carries`).  A hash function is given by its context and the functions
on it; `update` has a length of 32 bits in `hash.cc`, and the count of the bytes has 64.
-/

namespace Nix

/-- Model of `BufferedSink`; `out` is what `write` has made of the data that it was passed. -/
structure BufferedSink (τ : Type) where
  bufSize : ℕ
  bufPos : ℕ
  buffer : ℕ → UInt8
  out : τ

namespace BufferedSink

section

variable {τ : Type} (write : τ → Str → τ)

/-- A new sink; the memory of its buffer holds anything. -/
def new (bufSize : ℕ) (buffer : ℕ → UInt8) (out : τ) : BufferedSink τ := ⟨bufSize, 0, buffer, out⟩

/-- Model of `flush`. -/
def flush (s : BufferedSink τ) : BufferedSink τ :=
  if s.bufPos = 0 then s
  else { s with bufPos := 0, out := write s.out (readMem s.buffer 0 s.bufPos) }

/-- Model of `operator ()`. -/
def put (s : BufferedSink τ) (data : Str) : BufferedSink τ :=
  if data = [] then s
  else if s.bufPos + data.length ≥ s.bufSize then
    { s.flush write with out := write (s.flush write).out data }
  else
    let n := if s.bufPos + data.length > s.bufSize then s.bufSize - s.bufPos else data.length
    let s₁ := { s with
      buffer := copyMem s.buffer s.bufPos (data.take n), bufPos := s.bufPos + n }
    put (if s₁.bufPos = s₁.bufSize then s₁.flush write else s₁) (data.drop n)
termination_by data.length
decreasing_by
  have hpos := List.length_pos_iff.mpr ‹¬ data = []›
  rw [List.length_drop]
  split_ifs <;> omega

/-- The bytes in the buffer. -/
def pending (s : BufferedSink τ) : Str := readMem s.buffer 0 s.bufPos

variable {write} {s : BufferedSink τ} {data : Str}

/-- Nothing to put. -/
@[simp] theorem put_nil : s.put write [] = s := by
  rw [put, if_pos rfl]

/-- Data that fills the buffer bypasses it. -/
theorem put_of_ge (hdata : data ≠ []) (h : s.bufPos + data.length ≥ s.bufSize) :
    s.put write data = { s.flush write with out := write (s.flush write).out data } := by
  rw [put, if_neg hdata, if_pos h]

/-- Other data is copied to the buffer, in one round. -/
theorem put_of_lt (h : s.bufPos + data.length < s.bufSize) :
    s.put write data = { s with
      buffer := copyMem s.buffer s.bufPos data, bufPos := s.bufPos + data.length } := by
  by_cases hdata : data = []
  · subst hdata
    rw [put_nil]
    have hsame : copyMem s.buffer s.bufPos [] = s.buffer := by
      funext i
      simp [copyMem]
    rw [hsame]
    rfl
  · rw [put, if_neg hdata, if_neg (not_le.mpr h)]
    simp only [if_neg (not_lt.mpr h.le), if_neg h.ne, List.take_length, List.drop_length, put_nil]

/-- The sink has been given some data, and has passed it on in pieces up to what is in the buffer: a
piece is a part of the buffer or some of the data, and data that is too large for the buffer is a piece
of its own. -/
structure Carries (write : τ → Str → τ) (out₀ : τ) (size : ℕ) (datas : List Str)
    (s : BufferedSink τ) : Prop where
  bufSize_eq : s.bufSize = size
  bufPos_lt : s.bufPos < size ∨ s.bufPos = 0
  pieces : ∃ pieces : List Str, s.out = pieces.foldl write out₀ ∧
    pieces.flatten ++ s.pending = datas.flatten ∧
      (∀ p ∈ pieces, p.length < size ∨ p ∈ datas) ∧
        ∀ d ∈ datas, d ≠ [] → size ≤ d.length → d ∈ pieces

namespace Carries

variable {out₀ : τ} {size : ℕ} {datas : List Str}

/-- A new sink carries nothing. -/
theorem new (buffer : ℕ → UInt8) :
    Carries write out₀ size [] (BufferedSink.new size buffer out₀) :=
  ⟨rfl, Or.inr rfl, [], rfl, rfl, by simp, by simp⟩

/-- After a flush the buffer is empty. -/
theorem flush (h : Carries write out₀ size datas s) :
    Carries write out₀ size datas (s.flush write) ∧ (s.flush write).bufPos = 0 := by
  unfold BufferedSink.flush
  split_ifs with hpos
  · exact ⟨h, hpos⟩
  obtain ⟨pieces, hout, hflat, hpieces, hlarge⟩ := h.pieces
  have hlt : s.bufPos < size := h.bufPos_lt.resolve_right hpos
  refine ⟨⟨h.bufSize_eq, Or.inr rfl, pieces ++ [s.pending], ?_, ?_, ?_, ?_⟩, rfl⟩
  · rw [List.foldl_append, ← hout]
    rfl
  · simpa [pending] using hflat
  · intro p hp
    rcases List.mem_append.mp hp with hp | hp
    · exact hpieces p hp
    · rw [List.mem_singleton.mp hp, pending, length_readMem]
      exact Or.inl hlt
  · exact fun d hd hne hsize => List.mem_append_left _ (hlarge d hd hne hsize)

/-- A put adds its data to what the sink carries. -/
theorem put (h : Carries write out₀ size datas s) :
    Carries write out₀ size (datas ++ [data]) (s.put write data) := by
  by_cases hdata : data = []
  · subst hdata
    obtain ⟨pieces, hout, hflat, hpieces, hlarge⟩ := h.pieces
    rw [put_nil]
    refine ⟨h.bufSize_eq, h.bufPos_lt, pieces, hout, by simpa using hflat, fun p hp => ?_, ?_⟩
    · exact (hpieces p hp).imp_right (List.mem_append_left _)
    · intro d hd hne hsize
      rcases List.mem_append.mp hd with hd | hd
      · exact hlarge d hd hne hsize
      · exact absurd (List.mem_singleton.mp hd) hne
  by_cases hge : s.bufPos + data.length ≥ s.bufSize
  · obtain ⟨hflush, hpos⟩ := h.flush
    obtain ⟨pieces, hout, hflat, hpieces, hlarge⟩ := hflush.pieces
    rw [put_of_ge hdata hge]
    refine ⟨hflush.bufSize_eq, hflush.bufPos_lt, pieces ++ [data], ?_, ?_, ?_, ?_⟩
    · rw [List.foldl_append, ← hout]
      rfl
    · rw [pending, hpos, readMem_zero, List.append_nil] at hflat
      simp [pending, hpos, hflat]
    · intro p hp
      rcases List.mem_append.mp hp with hp | hp
      · exact (hpieces p hp).imp_right (List.mem_append_left _)
      · exact Or.inr (List.mem_append_right _ hp)
    · intro d hd hne hsize
      rcases List.mem_append.mp hd with hd | hd
      · exact List.mem_append_left _ (hlarge d hd hne hsize)
      · exact List.mem_append_right _ hd
  · obtain ⟨pieces, hout, hflat, hpieces, hlarge⟩ := h.pieces
    have hlt : s.bufPos + data.length < s.bufSize := not_le.mp hge
    rw [put_of_lt hlt]
    refine ⟨h.bufSize_eq, Or.inl (h.bufSize_eq ▸ hlt), pieces, hout, ?_, ?_, ?_⟩
    · have hcopy : readMem (copyMem s.buffer s.bufPos data) 0 (s.bufPos + data.length) =
          s.pending ++ data := by
        rw [readMem_add, readMem_copyMem_of_le _ (by omega), Nat.zero_add, readMem_copyMem, pending]
      rw [pending, hcopy, ← List.append_assoc, hflat, List.flatten_append, List.flatten_singleton]
    · exact fun p hp => (hpieces p hp).imp_right (List.mem_append_left _)
    · intro d hd hne hsize
      rcases List.mem_append.mp hd with hd | hd
      · exact hlarge d hd hne hsize
      · rw [List.mem_singleton.mp hd, ← h.bufSize_eq] at hsize
        omega

end Carries

end

end BufferedSink

/-! ### Calls -/

/-- A call on a sink. -/
inductive SinkCall where
  | put (data : Str)
  | flush

/-- What is given to a sink by some calls. -/
def sinkData (calls : List SinkCall) : List Str :=
  calls.filterMap fun
    | .put data => some data
    | .flush => none

namespace BufferedSink

variable {τ : Type} (write : τ → Str → τ)

/-- Calls on a sink, one after the other. -/
def run (s : BufferedSink τ) (calls : List SinkCall) : BufferedSink τ :=
  calls.foldl (fun s c =>
    match c with
    | .put data => s.put write data
    | .flush => s.flush write) s

variable {write}

/-- A run of calls adds their data. -/
theorem Carries.run {out₀ : τ} {size : ℕ} {datas : List Str} {s : BufferedSink τ}
    (h : Carries write out₀ size datas s) (calls : List SinkCall) :
    Carries write out₀ size (datas ++ sinkData calls) (s.run write calls) := by
  induction calls generalizing s datas with
  | nil => simpa [sinkData, BufferedSink.run] using h
  | cons c calls ih =>
    cases c with
    | put data =>
      have hput := ih (@Carries.put _ _ _ data _ _ _ h)
      rw [List.append_assoc] at hput
      exact hput
    | flush => exact ih h.flush.1

/-- A sink that keeps the data of each call of `write`. -/
def logWrite (log : List Str) (data : Str) : List Str := log ++ [data]

/-- The log has the pieces in order. -/
theorem foldl_logWrite (pieces log : List Str) : pieces.foldl logWrite log = log ++ pieces := by
  induction pieces generalizing log with
  | nil => simp
  | cons p pieces ih => rw [List.foldl_cons, ih, logWrite, List.append_assoc, List.singleton_append]

/-- After a final flush the calls of `write` have got everything in order, and between the calls there
is room in the buffer. -/
def Transparent (size : ℕ) (buffer : ℕ → UInt8) (calls : List SinkCall) : Prop :=
  (((new size buffer []).run logWrite calls).flush logWrite).out.flatten = (sinkData calls).flatten ∧
    ∀ before after, calls = before ++ after → ((new size buffer []).run logWrite before).bufPos < size

/-- A buffered sink is transparent if its buffer is not empty. -/
theorem transparent_iff {size : ℕ} {buffer : ℕ → UInt8} {calls : List SinkCall} :
    Transparent size buffer calls ↔ 0 < size := by
  constructor
  · exact fun h => Nat.zero_lt_of_lt (h.2 [] calls rfl)
  intro hsize
  have hcarries := fun calls => (@Carries.new _ logWrite [] size buffer).run calls
  refine ⟨?_, fun before _ _ => ?_⟩
  · obtain ⟨hflush, hpos⟩ := (hcarries calls).flush
    obtain ⟨pieces, hout, hflat, -⟩ := hflush.pieces
    rw [foldl_logWrite, List.nil_append] at hout
    rw [pending, hpos, readMem_zero, List.append_nil] at hflat
    rw [hout, hflat, List.nil_append]
  · rcases (hcarries before).bufPos_lt with hlt | hzero
    · exact hlt
    · rw [hzero]
      exact hsize

end BufferedSink

/-! ### Hashing -/

/-- A hash function with its context.  It does not matter in which pieces the data comes. -/
structure HashAlg where
  Ctx : Type
  start : Ctx
  update : Ctx → Str → Ctx
  finish : Ctx → Str
  update_append : ∀ c a b, update c (a ++ b) = update (update c a) b
  update_nil : ∀ c, update c [] = c

namespace HashAlg

variable (alg : HashAlg)

/-- The hash of some data. -/
def hash (data : Str) : Str := alg.finish (alg.update alg.start data)

/-- Model of `update` of `hash.cc`: the length is an `unsigned int`. -/
def update32 (ctx : alg.Ctx) (bytes : Str) : alg.Ctx :=
  alg.update ctx (bytes.take (bytes.length % 2 ^ 32))

/-- Model of `HashSink::write`: the context and the number of bytes. -/
def write (out : alg.Ctx × ℕ) (data : Str) : alg.Ctx × ℕ :=
  (alg.update32 out.1 data, (out.2 + data.length) % 2 ^ 64)

/-- Model of the constructor of `HashSink`. -/
def newSink (buffer : ℕ → UInt8) : BufferedSink (alg.Ctx × ℕ) :=
  .new sinkBufferSize buffer (alg.start, 0)

/-- Model of `HashSink::finish`. -/
def finishSink (s : BufferedSink (alg.Ctx × ℕ)) : Str × ℕ :=
  (alg.finish (s.flush alg.write).out.1, (s.flush alg.write).out.2)

/-- Model of `HashSink::currentHash`: the context is copied before it is finished. -/
def currentHash (s : BufferedSink (alg.Ctx × ℕ)) : (Str × ℕ) × BufferedSink (alg.Ctx × ℕ) :=
  let s := s.flush alg.write
  let ctx2 := s.out.1
  ((alg.finish ctx2, s.out.2), s)

end HashAlg

/-- A call on a `HashSink`. -/
inductive HashCall where
  | put (data : Str)
  | flush
  | currentHash

/-- What is given to a `HashSink` by some calls. -/
def hashData (calls : List HashCall) : List Str :=
  calls.filterMap fun
    | .put data => some data
    | _ => none

namespace HashAlg

variable (alg : HashAlg)

/-- Calls on a `HashSink`, one after the other. -/
def run (s : BufferedSink (alg.Ctx × ℕ)) (calls : List HashCall) : BufferedSink (alg.Ctx × ℕ) :=
  calls.foldl (fun s c =>
    match c with
    | .put data => s.put alg.write data
    | .flush => s.flush alg.write
    | .currentHash => (alg.currentHash s).2) s

/-- At any moment `currentHash` and `finish` return the hash and the size of everything that has been
written so far. -/
def HashesExactly (buffer : ℕ → UInt8) (calls : List HashCall) : Prop :=
  ∀ before after, calls = before ++ after →
    let s := alg.run (alg.newSink buffer) before
    let data := (hashData before).flatten
    (alg.currentHash s).1 = (alg.hash data, data.length) ∧
      alg.finishSink s = (alg.hash data, data.length)

variable {alg}

/-- For the sink, `currentHash` is a flush. -/
theorem carries_run {buffer : ℕ → UInt8} (calls : List HashCall) :
    BufferedSink.Carries alg.write (alg.start, 0) sinkBufferSize (hashData calls)
      (alg.run (alg.newSink buffer) calls) := by
  induction calls using List.reverseRecOn with
  | nil => exact BufferedSink.Carries.new buffer
  | append_singleton calls c ih =>
    have hrun : alg.run (alg.newSink buffer) (calls ++ [c]) =
        alg.run (alg.run (alg.newSink buffer) calls) [c] := by
      simp [run]
    rw [hrun, hashData, List.filterMap_append, ← hashData]
    cases c with
    | put data => exact ih.put
    | flush => simpa [hashData, run] using ih.flush.1
    | currentHash => simpa [hashData, run, currentHash] using ih.flush.1

/-- The counter stays within 64 bits. -/
theorem snd_foldl_write_lt (pieces : List Str) {out : alg.Ctx × ℕ} (hout : out.2 < 2 ^ 64) :
    (pieces.foldl alg.write out).2 < 2 ^ 64 := by
  induction pieces generalizing out with
  | nil => exact hout
  | cons p pieces ih => exact ih (Nat.mod_lt _ (by decide))

/-- Pieces that are short enough are hashed as a whole. -/
theorem foldl_write {pieces : List Str} (hpieces : ∀ p ∈ pieces, p.length < 2 ^ 32)
    (out : alg.Ctx × ℕ) : pieces.foldl alg.write out =
      (alg.update out.1 pieces.flatten,
        if pieces = [] then out.2 else (out.2 + pieces.flatten.length) % 2 ^ 64) := by
  induction pieces generalizing out with
  | nil => simp [alg.update_nil]
  | cons p pieces ih =>
    rw [List.forall_mem_cons] at hpieces
    rw [List.foldl_cons, ih hpieces.2, write, update32, Nat.mod_eq_of_lt hpieces.1, List.take_length,
      List.flatten_cons, alg.update_append, if_neg (List.cons_ne_nil _ _), List.length_append]
    split_ifs with hnil
    · simp [hnil]
    · rw [Nat.mod_add_mod, Nat.add_assoc]

/-- What `currentHash` and `finish` return. -/
theorem currentHash_run {buffer : ℕ → UInt8} (calls : List HashCall) :
    ∃ pieces : List Str, pieces.flatten = (hashData calls).flatten ∧
      (∀ p ∈ pieces, p.length < sinkBufferSize ∨ p ∈ hashData calls) ∧
        (∀ d ∈ hashData calls, d ≠ [] → sinkBufferSize ≤ d.length → d ∈ pieces) ∧
          let out := pieces.foldl alg.write (alg.start, 0)
          let s := alg.run (alg.newSink buffer) calls
          (alg.currentHash s).1 = (alg.finish out.1, out.2) ∧
            alg.finishSink s = (alg.finish out.1, out.2) := by
  obtain ⟨hflush, hpos⟩ := (@carries_run alg buffer calls).flush
  obtain ⟨pieces, hout, hflat, hpieces, hlarge⟩ := hflush.pieces
  rw [BufferedSink.pending, hpos, readMem_zero, List.append_nil] at hflat
  refine ⟨pieces, hflat, hpieces, hlarge, ?_, ?_⟩
  · rw [currentHash, ← hout]
  · rw [finishSink, ← hout]

/-- The hash function that keeps everything. -/
def bytesAlg : HashAlg where
  Ctx := Str
  start := []
  update ctx data := ctx ++ data
  finish ctx := ctx
  update_append c a b := (List.append_assoc c a b).symm
  update_nil := List.append_nil

/-- What the algorithm has seen of the pieces. -/
theorem fst_foldl_bytesAlg (pieces : List Str) (out : bytesAlg.Ctx × ℕ) :
    (pieces.foldl bytesAlg.write out).1 =
      List.append out.1 (pieces.flatMap fun p => p.take (p.length % 2 ^ 32)) := by
  induction pieces generalizing out with
  | nil => exact (List.append_nil out.1).symm
  | cons p pieces ih =>
    rw [List.foldl_cons, ih, List.flatMap_cons]
    exact List.append_assoc _ _ _

/-- No bit is lost in a sum of lengths only if no length is too large. -/
theorem forall_lt_of_sum_mod {m : ℕ} (hm : 0 < m) {l : List ℕ}
    (h : (l.map (· % m)).sum = l.sum) : ∀ n ∈ l, n < m := by
  induction l with
  | nil => simp
  | cons n l ih =>
    have hle : (l.map (· % m)).sum ≤ l.sum := by
      simpa using List.sum_le_sum fun n _ => Nat.mod_le n m
    have hn : n % m ≤ n := Nat.mod_le n m
    rw [List.map_cons, List.sum_cons, List.sum_cons] at h
    refine List.forall_mem_cons.mpr ⟨?_, ih (by omega)⟩
    rw [← show n % m = n by omega]
    exact Nat.mod_lt n hm

/-- A `HashSink` hashes exactly, whatever the hash function is, if no piece of data is too large for an
`unsigned int` and the whole is not too large for the counter. -/
theorem hashesExactly_iff {buffer : ℕ → UInt8} {calls : List HashCall} :
    (∀ alg : HashAlg, alg.HashesExactly buffer calls) ↔
      (∀ d ∈ hashData calls, d.length < 2 ^ 32) ∧ (hashData calls).flatten.length < 2 ^ 64 := by
  constructor
  · intro h
    obtain ⟨pieces, hflat, -, hlarge, hcurrent, -⟩ := @currentHash_run bytesAlg buffer calls
    have hexact := (h bytesAlg calls [] (by simp)).1
    rw [hcurrent, Prod.mk.injEq] at hexact
    obtain ⟨hhash, hbytes⟩ := hexact
    have hbytes' : pieces.flatMap (fun p => p.take (p.length % 2 ^ 32)) = pieces.flatten :=
      hflat ▸ (fst_foldl_bytesAlg pieces ([], 0)).symm.trans hhash
    have hsum : ((pieces.map List.length).map (· % 2 ^ 32)).sum = (pieces.map List.length).sum := by
      have hlen := congrArg List.length hbytes'
      rw [List.length_flatMap, List.length_flatten] at hlen
      rw [← hlen, List.map_map]
      refine congrArg List.sum (List.map_congr_left fun p _ => ?_)
      rw [List.length_take, min_eq_left (Nat.mod_le _ _), Function.comp_apply]
    have hlt := forall_lt_of_sum_mod (by decide : 0 < 2 ^ 32) hsum
    refine ⟨fun d hd => ?_, ?_⟩
    · by_contra hge
      have hsize : sinkBufferSize ≤ d.length := le_trans (by decide) (not_lt.mp hge)
      have hne : d ≠ [] := by
        rintro rfl
        exact hge (by decide)
      exact hge (hlt _ (List.mem_map_of_mem (hlarge d hd hne hsize)))
    · rw [← hbytes]
      exact snd_foldl_write_lt pieces (by decide)
  · rintro ⟨hdata, htotal⟩ alg before after rfl
    obtain ⟨pieces, hflat, hpieces, -, hcurrent, hfinish⟩ := @currentHash_run alg buffer before
    rw [hashData, List.filterMap_append, ← hashData, ← hashData] at hdata htotal
    have hshort : ∀ p ∈ pieces, p.length < 2 ^ 32 := by
      intro p hp
      rcases hpieces p hp with hlt | hmem
      · exact hlt.trans (by decide)
      · exact hdata p (List.mem_append_left _ hmem)
    have hcount : (if pieces = [] then 0 else (0 + pieces.flatten.length) % 2 ^ 64) =
        pieces.flatten.length := by
      rw [List.flatten_append, List.length_append, ← hflat] at htotal
      split_ifs with hnil
      · rw [hnil]
        rfl
      · rw [Nat.zero_add, Nat.mod_eq_of_lt (by omega)]
    rw [foldl_write hshort] at hcurrent hfinish
    dsimp only at hcurrent hfinish
    rw [hcount, hflat] at hcurrent hfinish
    exact ⟨hcurrent, hfinish⟩

end HashAlg

end Nix
