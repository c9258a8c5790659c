import NixStore.Store.StorePaths

/-!
# Hashing what is written

Model of `HashSink`, a buffered sink that feeds a hash function.  The hash function itself is a
parameter, and its context is represented by the bytes that it has been fed with: it does not matter
in which pieces they come.
-/

namespace Nix

/-- The size of the buffer of a `BufferedSink`. -/
def sinkBufferSize : ℕ := 32 * 1024

/-- Model of `HashSink`. -/
structure HashSink where
  /-- The bytes in the buffer. -/
  buffer : Str
  /-- The bytes that the context has been fed with. -/
  ctx : Str
deriving DecidableEq

namespace HashSink

/-- A new sink. -/
def empty : HashSink := ⟨[], []⟩

/-- Model of `flush`. -/
def flush (sink : HashSink) : HashSink := ⟨[], sink.ctx ++ sink.buffer⟩

/-- Model of `operator ()`: data that does not fit into the buffer bypasses it. -/
def put (sink : HashSink) (data : Str) : HashSink :=
  if data = [] then sink
  else if sink.buffer.length + data.length ≥ sinkBufferSize then
    ⟨[], sink.flush.ctx ++ data⟩
  else { sink with buffer := sink.buffer ++ data }

/-- Model of `finish`: the hash of everything, and its size. -/
def finish (sha256 : Str → Str) (sink : HashSink) : Hash × ℕ :=
  (hashString sha256 sink.flush.ctx, sink.flush.ctx.length)

/-- Everything that has been written. -/
def contents (sink : HashSink) : Str := sink.ctx ++ sink.buffer

@[simp] theorem contents_empty : empty.contents = [] := rfl

/-- Put data is appended. -/
@[simp] theorem contents_put (sink : HashSink) (data : Str) :
    (sink.put data).contents = sink.contents ++ data := by
  unfold put
  split_ifs with hnil hsize
  · rw [hnil, List.append_nil]
  · simp [contents, flush]
  · simp [contents]

/-- The hash and the length of what was put. -/
theorem finish_eq (sha256 : Str → Str) (sink : HashSink) :
    sink.finish sha256 = (hashString sha256 sink.contents, sink.contents.length) := rfl

end HashSink

end Nix
