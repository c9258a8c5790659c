import NixStore.Util.Serialise

/-!
# The messages of the daemon during an operation

Model of `processStderr` of `remote-store.cc` and of the parts of `nix-daemon.cc` that write what it
reads.  While the daemon works on an operation it sends pieces of its output, of data for the client,
and requests for data; then it says how the operation ended.  The client reads these messages from a
source that can deliver the bytes in any pieces.
-/

namespace Nix

/-- `PROTOCOL_VERSION`, which both sides send. -/
def PROTOCOL_VERSION : ℕ := 0x10c

/-- `GET_PROTOCOL_MINOR` -/
def GET_PROTOCOL_MINOR (version : ℕ) : ℕ := version % 256

/-- `STDERR_NEXT` -/
def STDERR_NEXT : ℕ := 0x6f6c6d67

/-- `STDERR_READ` -/
def STDERR_READ : ℕ := 0x64617461

/-- `STDERR_WRITE` -/
def STDERR_WRITE : ℕ := 0x64617416

/-- `STDERR_LAST` -/
def STDERR_LAST : ℕ := 0x616c7473

/-- `STDERR_ERROR` -/
def STDERR_ERROR : ℕ := 0x63787470

/-- Model of `Error`, with its exit status. -/
structure WorkerError where
  msg : Str
  status : UInt32
deriving DecidableEq

/-! ### The daemon -/

/-- What the daemon sends while it works on an operation. -/
inductive Frame where
  /-- Output, sent by `tunnelStderr`. -/
  | next (s : Str)
  /-- Data for the client, sent by `TunnelSink`. -/
  | write (data : Str)
  /-- A request for data, sent by `TunnelSource`. -/
  | read (len : ℕ)
deriving DecidableEq

/-- The bytes of a message. -/
def Frame.bytes : Frame → Str
  | .next s => writeInt STDERR_NEXT ++ writeString s
  | .write data => writeInt STDERR_WRITE ++ writeString data
  | .read len => writeInt STDERR_READ ++ writeInt len

/-- Model of `stopWork`. -/
def stopWork (success : Bool) (msg : Str) (status : UInt32) : Str :=
  if success then writeInt STDERR_LAST
  else
    writeInt STDERR_ERROR ++ (writeString msg ++ if status ≠ 0 then writeInt status.toNat else [])

/-- The places where the daemon reports an error. -/
inductive ReportPoint where
  /-- The store cannot be opened, after the greeting. -/
  | handshake
  /-- `performOp` has thrown. -/
  | operation
deriving DecidableEq

/-- What the daemon sends when it catches an error. -/
def reportError (point : ReportPoint) (clientVersion : ℕ) (e : WorkerError) : Str :=
  match point with
  | .handshake => stopWork false e.msg 0
  | .operation =>
    stopWork false e.msg (if GET_PROTOCOL_MINOR clientVersion ≥ 8 then e.status else 0)

/-! ### The client -/

/-- What the client does apart from reading messages. -/
structure ClientState where
  /-- What was written to standard error. -/
  stderr : Str
  /-- What the sink has received, if there is one. -/
  sink : Option Str
  source : Option Source
  /-- What was sent to the daemon. -/
  sent : Str

/-- `source->read`, and sending what it returns. -/
def ClientState.sendData (len : ℕ) (src : Source) : Prog ClientState StreamError Unit := fun k =>
  match (Source.read len : SourceM Unit Str) ⟨src, ()⟩ with
  | (.ok data, s) => (.ok (), { k with source := some s.source, sent := k.sent ++ writeString data })
  | (.error e, s) => (.error e, { k with source := some s.source })

/-- The loop of `processStderr`.  The result is `Error` if one is thrown for what the daemon sent. -/
def processStderrLoop (daemonVersion : ℕ) :
    ℕ → SourceM ClientState (Except WorkerError Unit)
  | 0 => .throw .outOfFuel
  | fuel + 1 => do
    let msg ← readInt
    if msg = STDERR_WRITE then do
      let s ← readString
      match (← Prog.get).other.sink with
      | none => return .error ⟨str "no sink", 1⟩
      | some data =>
        SourceM.lift (Prog.modify fun k => { k with sink := some (data ++ s) })
        processStderrLoop daemonVersion fuel
    else if msg = STDERR_READ then do
      match (← Prog.get).other.source with
      | none => return .error ⟨str "no source", 1⟩
      | some src =>
        let len ← readInt
        SourceM.lift (ClientState.sendData len src)
        processStderrLoop daemonVersion fuel
    else if msg = STDERR_NEXT then do
      let s ← readString
      SourceM.lift (Prog.modify fun k => { k with stderr := k.stderr ++ s })
      processStderrLoop daemonVersion fuel
    else if msg = STDERR_ERROR then do
      let error ← readString
      let status ← if GET_PROTOCOL_MINOR daemonVersion ≥ 8 then readInt else pure 1
      return .error ⟨error, UInt32.ofNat status⟩
    else if msg ≠ STDERR_LAST then
      return .error ⟨str "protocol error processing standard error", 1⟩
    else return .ok ()

/-- Model of `processStderr`.  Every message has at least eight bytes, so the number of bytes in the
source bounds the number of rounds. -/
def processStderr (daemonVersion : ℕ) : SourceM ClientState (Except WorkerError Unit) :=
  fun s => processStderrLoop daemonVersion (s.source.rest.length + 1) s

/-! ### Messages that the client understands -/

/-- What the messages of the daemon do to the state of the client: data is sent only to a client that
has a sink, and asked for only from one that has a source with data left. -/
inductive Accepts : ClientState → List Frame → ClientState → Prop
  | nil {k : ClientState} : Accepts k [] k
  | next {k k' : ClientState} {s : Str} {frames : List Frame} (size : s.length < 2 ^ 32)
      (rest : Accepts { k with stderr := k.stderr ++ s } frames k') :
      Accepts k (.next s :: frames) k'
  | write {k k' : ClientState} {data s : Str} {frames : List Frame} (size : s.length < 2 ^ 32)
      (sink : k.sink = some data) (rest : Accepts { k with sink := some (data ++ s) } frames k') :
      Accepts k (.write s :: frames) k'
  | read {k k₁ k' : ClientState} {len : ℕ} {src : Source} {frames : List Frame}
      (size : len < 2 ^ 32) (source : k.source = some src)
      (data : ClientState.sendData len src k = (.ok (), k₁)) (rest : Accepts k₁ frames k') :
      Accepts k (.read len :: frames) k'

section

variable {κ α β : Type} {m : SourceM κ α} {f : α → SourceM κ β} {w rest : Str} {a : α} {s : Reading κ}
  {Q : β → Reading κ → Prop} {E : StreamError → Reading κ → Prop}

/-- Go on after decoding, to any end. -/
theorem Decodes.ends (hm : Decodes m w a) (hs : s.source.rest = w ++ rest)
    (hf : ∀ s', s'.source.rest = rest → s'.other = s.other → (f a).Ends s' Q E) :
    (m >>= f).Ends s Q E := by
  refine (hm s.other s rest hs rfl).bind (fun b s' hb => ?_) fun _ _ h => h.elim
  obtain ⟨hrest, rfl, hother⟩ := hb
  exact hf s' hrest hother

/-- Go on after a change of the other part of the state. -/
theorem SourceM.ends_lift_bind {p : Prog κ StreamError α} {k : κ} (hp : p s.other = (.ok a, k))
    (hf : (f a).Ends { s with other := k } Q E) : (SourceM.lift p >>= f).Ends s Q E := by
  unfold Prog.Ends at hf ⊢
  rw [Prog.bind_apply, SourceM.lift, hp]
  exact hf

end

section

variable {k k' : ClientState} {frames : List Frame} {w : Str} {s : Reading ClientState} {v fuel : ℕ}
  {Q : Except WorkerError Unit → Reading ClientState → Prop}
  {E : StreamError → Reading ClientState → Prop}

/-- The loop of `processStderr` behind the messages. -/
theorem Accepts.ends (h : Accepts k frames k') (hs : s.source.rest = frames.flatMap Frame.bytes ++ w)
    (hk : s.other = k)
    (hrest : ∀ s' : Reading ClientState, s'.source.rest = w → s'.other = k' →
      (processStderrLoop v fuel).Ends s' Q E) :
    (processStderrLoop v (fuel + frames.length)).Ends s Q E := by
  induction h generalizing s with
  | nil => exact hrest s hs hk
  | @next k k' text frames size rest ih =>
    rw [List.flatMap_cons, Frame.bytes, List.append_assoc, List.append_assoc] at hs
    rw [List.length_cons, ← Nat.add_assoc, processStderrLoop]
    refine (decodes_readInt (by decide)).ends hs fun s₁ hs₁ hk₁ => ?_
    rw [if_neg (by decide), if_neg (by decide), if_pos rfl]
    refine (decodes_readString size).ends hs₁ fun s₂ hs₂ hk₂ => ?_
    refine SourceM.ends_lift_bind rfl (ih hs₂ ?_ hrest)
    rw [hk₂, hk₁, hk]
  | @write k k' data text frames size sink rest ih =>
    rw [List.flatMap_cons, Frame.bytes, List.append_assoc, List.append_assoc] at hs
    rw [List.length_cons, ← Nat.add_assoc, processStderrLoop]
    refine (decodes_readInt (by decide)).ends hs fun s₁ hs₁ hk₁ => ?_
    rw [if_pos rfl]
    refine (decodes_readString size).ends hs₁ fun s₂ hs₂ hk₂ => ?_
    refine Prog.ends_get_bind ?_
    have hk₂ : s₂.other = k := by rw [hk₂, hk₁, hk]
    rw [hk₂, sink]
    refine SourceM.ends_lift_bind rfl (ih hs₂ ?_ hrest)
    rw [hk₂]
  | @read k k₁ k' len src frames size source data rest ih =>
    rw [List.flatMap_cons, Frame.bytes, List.append_assoc, List.append_assoc] at hs
    rw [List.length_cons, ← Nat.add_assoc, processStderrLoop]
    refine (decodes_readInt (by decide)).ends hs fun s₁ hs₁ hk₁ => ?_
    rw [if_neg (by decide), if_pos rfl]
    refine Prog.ends_get_bind ?_
    have hk₁ : s₁.other = k := by rw [hk₁, hk]
    rw [hk₁, source]
    refine (decodes_readInt size).ends hs₁ fun s₂ hs₂ hk₂ => ?_
    refine SourceM.ends_lift_bind (a := ()) (k := k₁) ?_ (ih hs₂ rfl hrest)
    rw [hk₂, hk₁, data]

/-- There are at least as many bytes as frames. -/
theorem length_le_length_flatMap_bytes (frames : List Frame) :
    frames.length ≤ (frames.flatMap Frame.bytes).length := by
  induction frames with
  | nil => exact le_refl _
  | cons frame frames ih =>
    have hpos : 1 ≤ frame.bytes.length := by
      cases frame <;> simp [Frame.bytes, length_writeInt] <;> omega
    rw [List.length_cons, List.flatMap_cons, List.length_append]
    omega

/-- `processStderr` behind the messages. -/
theorem Accepts.ends_processStderr (h : Accepts k frames k')
    (hs : s.source.rest = frames.flatMap Frame.bytes ++ w) (hk : s.other = k)
    (hrest : ∀ (s' : Reading ClientState) (fuel : ℕ), s'.source.rest = w → s'.other = k' →
      (processStderrLoop v (fuel + 1)).Ends s' Q E) :
    (processStderr v).Ends s Q E := by
  have hle := length_le_length_flatMap_bytes frames
  have hfuel : s.source.rest.length + 1 =
      (s.source.rest.length - frames.length) + 1 + frames.length := by
    rw [hs, List.length_append]
    omega
  change (processStderrLoop v (s.source.rest.length + 1)).Ends s Q E
  rw [hfuel]
  exact h.ends hs hk fun s' hs' hk' => hrest s' _ hs' hk'

end

/-! ### Errors -/

/-- The loop reads no more than was asked for. -/
theorem ends_getLoop {κ : Type} (n len : ℕ) (data : Str) (s : Reading κ) :
    (Source.getLoop n len data : SourceM κ Str).Ends s (fun a _ => a.length ≤ data.length + len)
      fun _ _ => True := by
  induction n generalizing len data s with
  | zero => exact Prog.ends_pure (Nat.le_add_right _ _)
  | succ n ih =>
    unfold Source.getLoop
    split_ifs with hlen
    · exact Prog.ends_pure (Nat.le_add_right _ _)
    · have hread : (Source.read len : SourceM κ Str).Ends s (fun d _ => d.length ≤ len)
          fun _ _ => True := by
        unfold Prog.Ends
        by_cases hnil : s.source.rest = []
        · simp [Source.read, hnil]
        · simp [Source.read, hnil]
      refine hread.bind (fun d s' hd => ?_) fun _ _ => id
      refine (ih (len - d.length) (data ++ d) s').mono (fun a _ ha => ?_) fun _ _ => id
      rw [List.length_append] at ha
      omega

/-- The length of a string is read as 32 bits. -/
theorem ends_readString {κ : Type} (s : Reading κ) :
    (readString : SourceM κ Str).Ends s (fun a _ => a.length < 2 ^ 32) fun _ _ => True := by
  have hint : (readInt : SourceM κ ℕ).Ends s (fun n _ => n < 2 ^ 32) fun _ _ => True := by
    refine Prog.ends_true.bind (fun buf s' _ => ?_) fun _ _ => id
    split_ifs
    · exact Prog.ends_throw trivial
    · refine Prog.ends_pure ((leValue_lt _).trans_le ?_)
      have hlen : (buf.take 4).length ≤ 4 := by
        rw [List.length_take]
        exact min_le_left _ _
      exact (Nat.pow_le_pow_right (by decide) hlen).trans (by decide)
  refine hint.bind (fun len s₁ hlen => ?_) fun _ _ => id
  refine (ends_getLoop len len [] s₁).bind (fun buf s₂ hbuf => ?_) fun _ _ => id
  refine Prog.ends_true.bind (fun _ s₃ _ => ?_) fun _ _ => id
  refine Prog.ends_pure ?_
  rw [List.length_nil, Nat.zero_add] at hbuf
  exact hbuf.trans_lt hlen

/-- A source at its end. -/
theorem ends_readInt_of_nil {κ : Type} {s : Reading κ} (hs : s.source.rest = []) :
    (readInt : SourceM κ ℕ).Ends s (fun _ _ => False) fun _ _ => True := by
  have hget : (Source.get 8 : SourceM κ Str).Ends s (fun _ _ => False) fun _ _ => True := by
    unfold Source.get Source.getLoop Prog.Ends
    simp [Prog.bind_apply, Source.read, hs]
  exact hget.bind (fun _ _ h => h.elim) fun _ _ => id

/-- The client throws the error and is at the end of the message, however the bytes arrive. -/
def DecodesError (k k' : ClientState) (w : Str) (e : WorkerError) : Prop :=
  Consumes (processStderr PROTOCOL_VERSION) w (· = k) fun r k₁ => r = .error e ∧ k₁ = k'

section

variable {k k' : ClientState} {frames : List Frame} {e : WorkerError}

/-- An error behind accepted frames is decoded with its status. -/
theorem Accepts.decodesError (h : Accepts k frames k') (hstatus : e.status ≠ 0)
    (hmsg : e.msg.length < 2 ^ 32) :
    DecodesError k k' (frames.flatMap Frame.bytes ++ stopWork false e.msg e.status) e := by
  intro s rest hs hk
  rw [List.append_assoc] at hs
  refine h.ends_processStderr hs hk fun s₁ fuel hs₁ hk₁ => ?_
  rw [stopWork, if_neg (by simp), if_pos hstatus, List.append_assoc, List.append_assoc] at hs₁
  rw [processStderrLoop]
  refine (decodes_readInt (by decide)).ends hs₁ fun s₂ hs₂ hk₂ => ?_
  rw [if_neg (by decide), if_neg (by decide), if_neg (by decide), if_pos rfl]
  refine (decodes_readString hmsg).ends hs₂ fun s₃ hs₃ hk₃ => ?_
  rw [if_pos (by decide)]
  refine (decodes_readInt e.status.toNat_lt).ends hs₃ fun s₄ hs₄ hk₄ => ?_
  refine Prog.ends_pure ⟨hs₄, ?_, by rw [hk₄, hk₃, hk₂, hk₁]⟩
  rw [UInt32.ofNat_toNat]

/-- The bytes do not decode to an error if there is a source for which the client does something
else. -/
theorem not_decodesError_of_ends {w : Str}
    (h : (processStderr PROTOCOL_VERSION).Ends ⟨⟨w, fun _ => 0, 0, []⟩, k⟩ (fun r _ => r ≠ .error e)
      fun _ _ => True) : ¬ DecodesError k k' w e := by
  intro hdec
  have hboth := (hdec ⟨⟨w, fun _ => 0, 0, []⟩, k⟩ [] (List.append_nil w).symm rfl).and h
  unfold Prog.Ends at hboth
  split at hboth
  · exact hboth.2 hboth.1.2.1
  · exact hboth.1

/-- A message whose length does not fit in 32 bits is not read back. -/
theorem Accepts.not_decodesError_of_length (h : Accepts k frames k') (status : UInt32)
    (hmsg : ¬ e.msg.length < 2 ^ 32) :
    ¬ DecodesError k k' (frames.flatMap Frame.bytes ++ stopWork false e.msg status) e := by
  refine not_decodesError_of_ends (h.ends_processStderr rfl rfl fun s₁ fuel hs₁ hk₁ => ?_)
  rw [stopWork, if_neg (by simp)] at hs₁
  rw [processStderrLoop]
  refine (decodes_readInt (by decide)).ends hs₁ fun s₂ hs₂ hk₂ => ?_
  rw [if_neg (by decide), if_neg (by decide), if_neg (by decide), if_pos rfl]
  refine (ends_readString s₂).bind (fun a s₃ ha => ?_) fun _ _ => id
  refine Prog.ends_true.bind (fun status s₄ _ => Prog.ends_pure ?_) fun _ _ => id
  intro heq
  cases heq
  exact hmsg ha

/-- Without a status the client looks for one behind the message. -/
theorem Accepts.not_decodesError_of_status (h : Accepts k frames k') :
    ¬ DecodesError k k' (frames.flatMap Frame.bytes ++ stopWork false e.msg 0) e := by
  by_cases hmsg : e.msg.length < 2 ^ 32
  · refine not_decodesError_of_ends (h.ends_processStderr rfl rfl fun s₁ fuel hs₁ hk₁ => ?_)
    rw [stopWork, if_neg (by simp), if_neg (by simp)] at hs₁
    rw [processStderrLoop]
    refine (decodes_readInt (by decide)).ends hs₁ fun s₂ hs₂ hk₂ => ?_
    rw [if_neg (by decide), if_neg (by decide), if_neg (by decide), if_pos rfl]
    refine (decodes_readString hmsg).ends hs₂ fun s₃ hs₃ hk₃ => ?_
    rw [if_pos (by decide)]
    exact (ends_readInt_of_nil hs₃).bind (fun _ _ hf => hf.elim) fun _ _ => id
  · exact h.not_decodesError_of_length 0 hmsg

/-- The client decodes an error that the daemon reports, and is at the end of the message, if and only
if the error is reported for an operation, its status is not zero and the length of its text fits in
32 bits; this does not depend on the messages before it. -/
theorem decodesError_reportError (h : Accepts k frames k') (point : ReportPoint)
    (e : WorkerError) :
    DecodesError k k' (frames.flatMap Frame.bytes ++ reportError point PROTOCOL_VERSION e) e ↔
      point = .operation ∧ e.status ≠ 0 ∧ e.msg.length < 2 ^ 32 := by
  have hminor : GET_PROTOCOL_MINOR PROTOCOL_VERSION ≥ 8 := by decide
  constructor
  · intro hdec
    cases point with
    | handshake => exact absurd hdec h.not_decodesError_of_status
    | operation =>
      simp only [reportError, if_pos hminor] at hdec
      refine ⟨rfl, fun hzero => ?_, ?_⟩
      · rw [hzero] at hdec
        exact h.not_decodesError_of_status hdec
      · by_contra hmsg
        exact h.not_decodesError_of_length e.status hmsg hdec
  · rintro ⟨rfl, hstatus, hmsg⟩
    simp only [reportError, if_pos hminor]
    exact h.decodesError hstatus hmsg

end

/-- A client that has neither a sink nor a source. -/
def plainClient : ClientState := ⟨[], none, none, []⟩

/-- The build of a derivation fails after some output. -/
theorem decodesError_reportError_build :
    DecodesError plainClient { plainClient with stderr := str "building" }
      ([Frame.next (str "building")].flatMap Frame.bytes ++
        reportError .operation PROTOCOL_VERSION ⟨str "build failed", 100⟩)
      ⟨str "build failed", 100⟩ :=
  (decodesError_reportError (.next (by decide) .nil) .operation ⟨str "build failed", 100⟩).mpr
    ⟨rfl, by decide, by decide⟩

/-- The store of the daemon cannot be opened: the client waits for a status that is never sent. -/
theorem not_decodesError_handshake :
    ¬ DecodesError plainClient plainClient
      (reportError .handshake PROTOCOL_VERSION ⟨str "cannot open SQLite database", 1⟩)
      ⟨str "cannot open SQLite database", 1⟩ :=
  fun h => (Accepts.nil (k := plainClient)).not_decodesError_of_status h

end Nix
