import Trustd.Core.Store

/-
  The messages of the control socket.

  MessagePack itself comes from a crate and is a parameter:
  how an item is written, and how one is read off the front
  of what is left of a message.

  Key definitions include:
    * `Trustd.Wire.MsgPack`
    * `Trustd.Wire.Request`
    * `Trustd.Wire.Reply`
    * `Trustd.Wire.Request.decode`
    * `Trustd.Wire.Reply.encode`
    * `Trustd.Wire.Reply.decode`
-/

------------------------------------------------------------
-- MessagePack
------------------------------------------------------------

namespace Trustd

namespace Wire

/- What a writer is told to write. -/
inductive Item where
  | map (count : Nat)
  | array (count : Nat)
  | str (text : Text)
  | bool (value : Bool)
  | uint (value : Nat)
  | int (value : Int)
  | bin (data : Bytes)
  | nil
deriving DecidableEq, Repr

/-
  The crate's writer and reader. A read gives what it read
  and the bytes after it, or an error as it prints.
-/
structure MsgPack where
  write : Item → Bytes
  readMap : Bytes → Except Text (Nat × Bytes)
  readArray : Bytes → Except Text (Nat × Bytes)
  readStr : Bytes → Except Text (Text × Bytes)
  readBool : Bytes → Except Text (Bool × Bytes)
  readUint : Bytes → Except Text (Nat × Bytes)
  readInt : Bytes → Except Text (Int × Bytes)
  readBin : Bytes → Except Text (Bytes × Bytes)
  readNil : Bytes → Except Text Bytes
  skip : Bytes → Except Text Bytes
  peeksNil : Bytes → Bool

/- `Writer::to_bytes`. -/
def MsgPack.toBytes (mp : MsgPack) (items : List Item) :
    Bytes :=
  items.flatMap mp.write

end Wire

end Trustd

------------------------------------------------------------
-- Messages
------------------------------------------------------------

namespace Trustd

namespace Wire

/- `MAX_MESSAGE_BYTES`. -/
def maxMessageBytes : Nat := 65536

/- `ROOTS_PER_CHUNK`. -/
def rootsPerChunk : Nat := 24

/- `TRUST_QUERY`. -/
def trustQuery : Nat := 0x00000001

/- `TRUST_CONTROL`. -/
def trustControl : Nat := 0x00000002

/- `Source::as_str`. -/
def sourceAsStr : Source → Text
  | .shipped => "shipped".toList
  | .added => "added".toList

/- `Source::parse`. -/
def sourceParse (text : Text) : Option Source :=
  if text = "shipped".toList then some .shipped
  else if text = "added".toList then some .added
  else none

/- `Root`. -/
structure Root where
  fingerprint : Text := []
  subject : Text := []
  purposes : List Text := []
  source : Source := .shipped
  name : Option Text := none
  notAfter : Int := 0
  der : Bytes := []
deriving DecidableEq, Repr

/- `Request`. -/
inductive Request where
  | roots (withDer : Bool) (purpose : Option Text)
  | subscribe (withDer : Bool)
  | status
  | reload
deriving DecidableEq, Repr

/- `required_right`. -/
def Request.requiredRight : Request → Nat
  | .reload => trustControl
  | _ => trustQuery

/- `Health`. -/
inductive Health where
  | ok
  | degraded
deriving DecidableEq, Repr

/- `Health::as_str`. -/
def Health.asStr : Health → Text
  | .ok => "ok".toList
  | .degraded => "degraded".toList

/- `Health::parse`. -/
def Health.parse (text : Text) : Option Health :=
  if text = "ok".toList then some .ok
  else if text = "degraded".toList then some .degraded
  else none

/- `Status`. -/
structure Status where
  generation : Nat := 0
  health : Health := .ok
  message : Option Text := none
  shipped : Nat := 0
  added : Nat := 0
  distrusted : Nat := 0
  skipped : Nat := 0
  effective : Nat := 0
  compatMode : Nat := 0
  rendered : List Text := []
deriving DecidableEq, Repr

/- `Reply`. -/
inductive Reply where
  | ok
  | error (message : Text)
  | roots (generation : Nat) (roots : List Root) (more : Bool)
  | status (status : Status)
deriving DecidableEq, Repr

/- `WireError`. -/
inductive WireError where
  | encoding (why : Text)
  | missing (field : Text)
  | duplicate (key : Text)
  | unknownQuery (query : Text)
  | tooLarge (bytes : Nat)
  | io (error : IoError)
deriving DecidableEq, Repr

/- What an error prints, given what `{:?}` makes of a text. -/
def WireError.text (debug : Text → Text) : WireError → Text
  | .encoding why => "malformed message: ".toList ++ why
  | .missing field => "missing field ".toList ++ field
  | .duplicate key => "duplicate field ".toList ++ key
  | .unknownQuery query =>
      "unknown query ".toList ++ debug query
  | .tooLarge bytes =>
      "message of ".toList ++ Text.decimal bytes ++
        " bytes exceeds the ceiling".toList
  | .io error => error.text

end Wire

end Trustd

------------------------------------------------------------
-- Encoding
------------------------------------------------------------

namespace Trustd

namespace Wire

/- `write_str_list`. -/
def strListItems (key : Text) (items : List Text) :
    List Item :=
  [.str key, .array (items.length % 2 ^ 32)] ++
    items.map Item.str

/- What `write_opt_str` writes after the key. -/
def optItem : Option Text → Item
  | some text => .str text
  | none => .nil

/- `write_opt_str`. -/
def optStrItems (key : Text) (value : Option Text) :
    List Item :=
  [.str key, optItem value]

def Request.items : Request → List Item
  | .roots withDer purpose =>
      [.map 3, .str "query".toList, .str "roots".toList,
        .str "with_der".toList, .bool withDer] ++
        optStrItems "purpose".toList purpose
  | .subscribe withDer =>
      [.map 2, .str "query".toList, .str "subscribe".toList,
        .str "with_der".toList, .bool withDer]
  | .status =>
      [.map 1, .str "query".toList, .str "status".toList]
  | .reload =>
      [.map 1, .str "query".toList, .str "reload".toList]

/- `Request::encode`. -/
def Request.encode (mp : MsgPack) (request : Request) :
    Bytes :=
  mp.toBytes request.items

/- One root of a reply. -/
def Root.items (root : Root) : List Item :=
  [.map 7, .str "fingerprint".toList, .str root.fingerprint,
    .str "subject".toList, .str root.subject] ++
    strListItems "purposes".toList root.purposes ++
    [.str "source".toList, .str (sourceAsStr root.source)] ++
    optStrItems "name".toList root.name ++
    [.str "not_after".toList, .int root.notAfter,
      .str "der".toList, .bin root.der]

/- A reply with the status. -/
def Status.items (s : Status) : List Item :=
  [.map 12, .str "ok".toList, .bool true,
    .str "kind".toList, .str "status".toList,
    .str "generation".toList, .uint s.generation,
    .str "health".toList, .str s.health.asStr] ++
    optStrItems "message".toList s.message ++
    [.str "shipped".toList, .uint s.shipped,
      .str "added".toList, .uint s.added,
      .str "distrusted".toList, .uint s.distrusted,
      .str "skipped".toList, .uint s.skipped,
      .str "effective".toList, .uint s.effective,
      .str "compat_mode".toList, .uint s.compatMode] ++
    strListItems "rendered".toList s.rendered

def Reply.items : Reply → List Item
  | .ok => [.map 1, .str "ok".toList, .bool true]
  | .error message =>
      [.map 2, .str "ok".toList, .bool false,
        .str "error".toList, .str message]
  | .roots generation batch more =>
      [.map 5, .str "ok".toList, .bool true,
        .str "kind".toList, .str "roots".toList,
        .str "generation".toList, .uint generation,
        .str "more".toList, .bool more,
        .str "roots".toList,
        .array (batch.length % 2 ^ 32)] ++
        batch.flatMap Root.items
  | .status s => s.items

/- `Reply::encode`. -/
def Reply.encode (mp : MsgPack) (reply : Reply) : Bytes :=
  mp.toBytes reply.items

end Wire

end Trustd

------------------------------------------------------------
-- Decoding
------------------------------------------------------------

namespace Trustd

namespace Wire

/- A reader's error as a `WireError`. -/
def reading {α : Type} (x : Except Text α) :
    Except WireError α :=
  x.mapError WireError.encoding

/- The turns of `for_each_field` that are left. -/
def fieldsFrom {σ : Type}
    (mp : MsgPack)
    (field : Text → σ → Bytes → Except WireError (σ × Bytes)) :
    Nat → List Text → σ → Bytes →
      Except WireError (σ × Bytes)
  | 0, _, s, rest => .ok (s, rest)
  | n + 1, seen, s, rest => do
      let (key, rest) ← reading (mp.readStr rest)
      if key ∈ seen then throw (.duplicate key)
      else
        let (s, rest) ← field key s rest
        fieldsFrom mp field n (seen ++ [key]) s rest

/- `for_each_field`. -/
def forEachField {σ : Type}
    (mp : MsgPack)
    (field : Text → σ → Bytes → Except WireError (σ × Bytes))
    (s : σ)
    (message : Bytes) :
    Except WireError (σ × Bytes) := do
  let (n, rest) ← reading (mp.readMap message)
  fieldsFrom mp field n [] s rest

/- So many strings, one after the other. -/
def readStrs (mp : MsgPack) :
    Nat → Bytes → Except WireError (List Text × Bytes)
  | 0, rest => .ok ([], rest)
  | n + 1, rest => do
      let (text, rest) ← reading (mp.readStr rest)
      let (texts, rest) ← readStrs mp n rest
      return (text :: texts, rest)

/- `read_str_list`. -/
def readStrList (mp : MsgPack) (message : Bytes) :
    Except WireError (List Text × Bytes) := do
  let (n, rest) ← reading (mp.readArray message)
  if n > rest.length then throw (.tooLarge n)
  else readStrs mp n rest

/- `read_opt_str`. -/
def readOptStr (mp : MsgPack) (message : Bytes) :
    Except WireError (Option Text × Bytes) := do
  if mp.peeksNil message then
    let rest ← reading (mp.readNil message)
    return (none, rest)
  else
    let (text, rest) ← reading (mp.readStr message)
    return (some text, rest)

/- A field's value put where it belongs. -/
def store {α σ : Type}
    (set : α → σ)
    (x : Except WireError (α × Bytes)) :
    Except WireError (σ × Bytes) :=
  x.map (fun r => (set r.1, r.2))

/- A field that is passed over. -/
def skipField {σ : Type}
    (mp : MsgPack)
    (s : σ)
    (message : Bytes) :
    Except WireError (σ × Bytes) :=
  (reading (mp.skip message)).map (fun rest => (s, rest))

/- The locals of `Request::decode`. -/
structure RequestFields where
  query : Option Text := none
  withDer : Bool := false
  purpose : Option Text := none

def RequestFields.field (mp : MsgPack)
    (key : Text)
    (s : RequestFields)
    (r : Bytes) :
    Except WireError (RequestFields × Bytes) :=
  if key = "query".toList then
    store (fun v => { s with query := some v })
      (reading (mp.readStr r))
  else if key = "with_der".toList then
    store (fun v => { s with withDer := v })
      (reading (mp.readBool r))
  else if key = "purpose".toList then
    store (fun v => { s with purpose := v })
      (readOptStr mp r)
  else skipField mp s r

/- `Request::decode`. -/
def Request.decode (mp : MsgPack) (message : Bytes) :
    Except WireError Request := do
  let (s, _) ← forEachField mp (RequestFields.field mp) {}
    message
  match s.query with
  | none => throw (.missing "query".toList)
  | some query =>
      if query = "roots".toList then
        return .roots s.withDer s.purpose
      else if query = "subscribe".toList then
        return .subscribe s.withDer
      else if query = "status".toList then return .status
      else if query = "reload".toList then return .reload
      else throw (.unknownQuery query)

def Root.field (mp : MsgPack)
    (key : Text)
    (root : Root)
    (r : Bytes) :
    Except WireError (Root × Bytes) :=
  if key = "fingerprint".toList then
    store (fun v => { root with fingerprint := v })
      (reading (mp.readStr r))
  else if key = "subject".toList then
    store (fun v => { root with subject := v })
      (reading (mp.readStr r))
  else if key = "purposes".toList then
    store (fun v => { root with purposes := v })
      (readStrList mp r)
  else if key = "source".toList then
    store (fun v => { root with
        source := (sourceParse v).getD .shipped })
      (reading (mp.readStr r))
  else if key = "name".toList then
    store (fun v => { root with name := v })
      (readOptStr mp r)
  else if key = "not_after".toList then
    store (fun v => { root with notAfter := v })
      (reading (mp.readInt r))
  else if key = "der".toList then
    store (fun v => { root with der := v })
      (reading (mp.readBin r))
  else skipField mp root r

/- `decode_root`. -/
def decodeRoot (mp : MsgPack) (message : Bytes) :
    Except WireError (Root × Bytes) :=
  forEachField mp (Root.field mp) {} message

/- So many roots, one after the other. -/
def readRoots (mp : MsgPack) :
    Nat → Bytes → Except WireError (List Root × Bytes)
  | 0, rest => .ok ([], rest)
  | n + 1, rest => do
      let (root, rest) ← decodeRoot mp rest
      let (roots, rest) ← readRoots mp n rest
      return (root :: roots, rest)

/- The locals of `Reply::decode`. -/
structure ReplyFields where
  ok : Option Bool := none
  error : Option Text := none
  kind : Option Text := none
  generation : Nat := 0
  more : Bool := false
  roots : List Root := []
  status : Status := {}

def ReplyFields.field (mp : MsgPack)
    (key : Text)
    (s : ReplyFields)
    (r : Bytes) :
    Except WireError (ReplyFields × Bytes) :=
  if key = "ok".toList then
    store (fun v => { s with ok := some v })
      (reading (mp.readBool r))
  else if key = "error".toList then
    store (fun v => { s with error := some v })
      (reading (mp.readStr r))
  else if key = "kind".toList then
    store (fun v => { s with kind := some v })
      (reading (mp.readStr r))
  else if key = "generation".toList then
    store (fun v => { s with
        generation := v
        status := { s.status with generation := v } })
      (reading (mp.readUint r))
  else if key = "more".toList then
    store (fun v => { s with more := v })
      (reading (mp.readBool r))
  else if key = "roots".toList then do
    let (n, r) ← reading (mp.readArray r)
    store (fun v => { s with roots := s.roots ++ v })
      (readRoots mp n r)
  else if key = "health".toList then
    store (fun v => { s with status := { s.status with
        health := (Health.parse v).getD .ok } })
      (reading (mp.readStr r))
  else if key = "message".toList then
    store (fun v => { s with
        status := { s.status with message := v } })
      (readOptStr mp r)
  else if key = "shipped".toList then
    store (fun v => { s with
        status := { s.status with shipped := v } })
      (reading (mp.readUint r))
  else if key = "added".toList then
    store (fun v => { s with
        status := { s.status with added := v } })
      (reading (mp.readUint r))
  else if key = "distrusted".toList then
    store (fun v => { s with
        status := { s.status with distrusted := v } })
      (reading (mp.readUint r))
  else if key = "skipped".toList then
    store (fun v => { s with
        status := { s.status with skipped := v } })
      (reading (mp.readUint r))
  else if key = "effective".toList then
    store (fun v => { s with
        status := { s.status with effective := v } })
      (reading (mp.readUint r))
  else if key = "compat_mode".toList then
    store (fun v => { s with status := { s.status with
        compatMode := v % 2 ^ 32 } })
      (reading (mp.readUint r))
  else if key = "rendered".toList then
    store (fun v => { s with
        status := { s.status with rendered := v } })
      (readStrList mp r)
  else skipField mp s r

/- `Reply::decode`. -/
def Reply.decode (mp : MsgPack) (message : Bytes) :
    Except WireError Reply := do
  let (s, _) ← forEachField mp (ReplyFields.field mp) {}
    message
  match s.ok with
  | none => throw (.missing "ok".toList)
  | some false =>
      return .error (s.error.getD "unspecified error".toList)
  | some true =>
      if s.kind = some "roots".toList then
        return .roots s.generation s.roots s.more
      else if s.kind = some "status".toList then
        return .status s.status
      else return .ok

end Wire

end Trustd
