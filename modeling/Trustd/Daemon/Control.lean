import Trustd.Core.Wire

/-
  The socket: reading a request, writing replies.

  Key definitions include:
    * `Trustd.Control.Client`
    * `Trustd.Control.Client.read`
    * `Trustd.Control.writeFrame`
    * `Trustd.Control.sendRoots`
-/

------------------------------------------------------------
-- Requests
------------------------------------------------------------

namespace Trustd

namespace Control

open Wire

/- `MAX_CLIENTS`. -/
def maxClients : Nat := 128

/- `CLIENT_TIMEOUT`, in seconds. -/
def clientTimeout : Nat := 5

/- A connection, by the number it was accepted under. -/
abbrev Stream := Nat

/- `Client`: a request that is not complete yet. -/
structure Client where
  stream : Stream
  buf : Bytes := []
  since : Nat := 0
deriving DecidableEq, Repr

/- How one read of the socket goes. -/
inductive ReadResult where
  | data (bytes : Bytes)
  | endOfStream
  | interrupted
  | failed
deriving DecidableEq, Repr

/- `Progress`, with the reply sent before a refusal. -/
inductive Progress where
  | incomplete
  | request (request : Request)
  | closed (reply : Option Reply)
deriving DecidableEq, Repr

def tooLarge : Progress :=
  .closed (some (.error "request too large".toList))

/-
  The reads of one wake-up, up to the one that would block:
  what is in the buffer then, or how the connection ended.
-/
def drain (buf : Bytes) :
    List ReadResult → Except Progress Bytes
  | [] => .ok buf
  | .endOfStream :: _ => .error (.closed none)
  | .interrupted :: rest => drain buf rest
  | .failed :: _ => .error (.closed none)
  | .data bytes :: rest =>
      let buf := buf ++ bytes
      if buf.length > 4 + maxMessageBytes then
        .error tooLarge
      else drain buf rest

/- `u32::from_le_bytes` of the first four bytes. -/
def frameLength (buf : Bytes) : Nat :=
  (buf.getD 0 0).toNat + (buf.getD 1 0).toNat * 2 ^ 8 +
    (buf.getD 2 0).toNat * 2 ^ 16 +
    (buf.getD 3 0).toNat * 2 ^ 24

/- Four bytes are enough to know a frame's length. -/
theorem frameLength_append
    {a : Bytes}
    (hFour : 4 ≤ a.length)
    (b : Bytes) :
    frameLength (a ++ b) = frameLength a := by
  match a, hFour with
  | _ :: _ :: _ :: _ :: _, _ => rfl

/- What the buffer holds, once nothing more can be read. -/
def examine
    (mp : MsgPack)
    (debug : Text → Text)
    (buf : Bytes) :
    Progress :=
  if buf.length < 4 then .incomplete
  else
    let length := frameLength buf
    if length > maxMessageBytes then tooLarge
    else if buf.length < 4 + length then .incomplete
    else
      match Request.decode mp ((buf.drop 4).take length) with
      | .ok request => .request request
      | .error e => .closed (some (.error (e.text debug)))

/- `Client::read`, over the reads of one wake-up. -/
def Client.read
    (mp : MsgPack)
    (debug : Text → Text)
    (client : Client)
    (reads : List ReadResult) :
    Progress × Client :=
  match drain client.buf reads with
  | .error progress => (progress, client)
  | .ok buf => (examine mp debug buf, { client with buf })

end Control

end Trustd

------------------------------------------------------------
-- Replies
------------------------------------------------------------

namespace Trustd

namespace Control

open General Wire

/- `u32::to_le_bytes`. -/
def leBytes (n : Nat) : Bytes :=
  [UInt8.ofNat n, UInt8.ofNat (n / 2 ^ 8),
    UInt8.ofNat (n / 2 ^ 16), UInt8.ofNat (n / 2 ^ 24)]

/- The frame a payload is written as. -/
def frame (payload : Bytes) : Bytes :=
  leBytes payload.length ++ payload

/-
  `write_frame` to a peer that takes `room` more bytes before
  its deadline or an error: what was written, and the room
  left if that was the whole frame.
-/
def writeFrame (room : Nat) (payload : Bytes) :
    Bytes × Option Nat :=
  if payload.length ≥ 2 ^ 32 then ([], none)
  else
    let frame := frame payload
    if frame.length ≤ room then
      (frame, some (room - frame.length))
    else (frame.take room, none)

/- A reply and the bytes of it that were written. -/
structure Written where
  reply : Reply
  bytes : Bytes
deriving DecidableEq, Repr

/- `respond`. -/
def respond (mp : MsgPack) (room : Nat) (reply : Reply) :
    Written × Bool :=
  let (bytes, left) := writeFrame room (reply.encode mp)
  ({ reply, bytes }, left.isSome)

/- The chunks of a root set still to be written. -/
def sendChunks (mp : MsgPack) (generation : Nat) :
    Nat → List (List Root) → List Written × Bool
  | _, [] => ([], true)
  | room, chunk :: rest =>
      let reply := Reply.roots generation chunk (rest ≠ [])
      match writeFrame room (reply.encode mp) with
      | (bytes, none) => ([{ reply, bytes }], false)
      | (bytes, some room) =>
          let (written, whole) :=
            sendChunks mp generation room rest
          ({ reply, bytes } :: written, whole)

/- `send_roots`. -/
def sendRoots
    (mp : MsgPack)
    (room generation : Nat)
    (roots : List Root) :
    List Written × Bool :=
  if roots = [] then
    let (written, whole) :=
      respond mp room (.roots generation [] false)
    ([written], whole)
  else
    sendChunks mp generation room (chunks rootsPerChunk roots)

/- Every root that is sent is one of those given. -/
theorem mem_sendChunks
    {mp : MsgPack}
    {generation room : Nat}
    {parts : List (List Root)}
    {written : Written}
    (hMem : written ∈
      (sendChunks mp generation room parts).1) :
    ∃ chunk more, chunk ∈ parts ∧
      written.reply = .roots generation chunk more := by
  induction parts generalizing room with
  | nil => cases hMem
  | cons chunk rest ih =>
      simp only [sendChunks] at hMem
      rcases hWrite : writeFrame room ((Reply.roots generation
          chunk (rest ≠ [])).encode mp) with
        ⟨bytes, _ | left⟩
      · rw [hWrite] at hMem
        rw [List.mem_singleton.mp hMem]
        exact ⟨chunk, _, List.mem_cons_self, rfl⟩
      · rw [hWrite] at hMem
        rcases List.mem_cons.mp hMem with rfl | hMem
        · exact ⟨chunk, _, List.mem_cons_self, rfl⟩
        · rcases ih hMem with ⟨part, more, hPart, hReply⟩
          exact ⟨part, more, List.mem_cons_of_mem _ hPart,
            hReply⟩

theorem mem_sendRoots
    {mp : MsgPack}
    {room generation : Nat}
    {roots : List Root}
    {written : Written}
    (hMem : written ∈ (sendRoots mp room generation roots).1) :
    ∃ chunk more,
      written.reply = .roots generation chunk more ∧
        ∀ root ∈ chunk, root ∈ roots := by
  unfold sendRoots at hMem
  split_ifs at hMem with hNil
  · rw [List.mem_singleton.mp hMem]
    exact ⟨[], false, rfl, fun root hRoot => by cases hRoot⟩
  · rcases mem_sendChunks hMem with
      ⟨chunk, more, hChunk, hReply⟩
    exact ⟨chunk, more, hReply, fun root hRoot =>
      mem_of_mem_chunks rootsPerChunk hChunk hRoot⟩

end Control

end Trustd
