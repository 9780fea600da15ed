import Trustd.Core.MessagePack
import Trustd.Core.RoundTrip

/-
  How long a message is, by what is in it.

  A message is some bytes for its keys and its flags, and the
  sizes of its texts, its numbers and its certificates.

  Key definitions include:
    * `Trustd.Wire.textSize`
    * `Trustd.Wire.Root.size`
    * `Trustd.Wire.Status.size`
    * `Trustd.Wire.Reply.size`

  Key theorems include:
    * `Trustd.Wire.length_encode`
    * `Trustd.Wire.error_size_le_iff`
-/

------------------------------------------------------------
-- Sizes Of Fields
------------------------------------------------------------

namespace Trustd

namespace Wire

/- The bytes of a text. -/
def textSize (text : Text) : Nat :=
  strSize (Text.utf8 text).length

/- The bytes of a list of texts. -/
def textsSize (texts : List Text) : Nat :=
  countSize (texts.length % 2 ^ 32) + (texts.map textSize).sum

/- The bytes of a text that may be left out. -/
def optSize : Option Text → Nat
  | some text => textSize text
  | none => 1

/- The bytes of a root: 56 of them say what the others are. -/
def Root.size (root : Root) : Nat :=
  56 + textSize root.fingerprint + textSize root.subject +
    textsSize root.purposes +
    textSize (sourceAsStr root.source) + optSize root.name +
    intSize root.notAfter + binSize root.der.length

/- The bytes of some roots of a generation. -/
def chunkSize (generation : Nat) (roots : List Root) : Nat :=
  39 + uintSize generation +
    countSize (roots.length % 2 ^ 32) +
    (roots.map Root.size).sum

/- The bytes of a status. -/
def Status.size (s : Status) : Nat :=
  107 + uintSize s.generation + textSize s.health.asStr +
    optSize s.message + uintSize s.shipped +
    uintSize s.added + uintSize s.distrusted +
    uintSize s.skipped + uintSize s.effective +
    uintSize s.compatMode + textsSize s.rendered

/- The bytes of a reply. -/
def Reply.size : Reply → Nat
  | .ok => 5
  | .error message => 11 + textSize message
  | .roots generation batch _ => chunkSize generation batch
  | .status s => s.size

end Wire

end Trustd

------------------------------------------------------------
-- Sizes Of Messages
------------------------------------------------------------

namespace Trustd

namespace Wire

/- The sizes of some items, one after the other. -/
def sizes (items : List Item) : Nat :=
  (items.map Item.size).sum

@[simp] theorem sizes_nil : sizes [] = 0 := rfl

@[simp] theorem sizes_cons
    (item : Item)
    (items : List Item) :
    sizes (item :: items) = item.size + sizes items := rfl

@[simp] theorem sizes_append
    (a b : List Item) :
    sizes (a ++ b) = sizes a + sizes b := by
  rw [sizes, List.map_append, List.sum_append]
  rfl

theorem length_toBytes
    {mp : MsgPack}
    (hSized : Sized mp)
    (items : List Item) :
    (mp.toBytes items).length = sizes items := by
  induction items with
  | nil => rfl
  | cons item items ih =>
      rw [toBytes_cons, List.length_append, hSized, ih,
        sizes_cons]

theorem sizes_strs (texts : List Text) :
    sizes (texts.map Item.str) =
      (texts.map textSize).sum := by
  rw [sizes, List.map_map]
  rfl

theorem sizes_strListItems
    (key : Text)
    (texts : List Text) :
    sizes (strListItems key texts) =
      textSize key + textsSize texts := by
  unfold strListItems textsSize
  rw [sizes_append, sizes_strs, sizes_cons, sizes_cons,
    sizes_nil]
  simp only [Item.size, textSize]
  omega

theorem sizes_optStrItems
    (key : Text)
    (value : Option Text) :
    sizes (optStrItems key value) =
      textSize key + optSize value := by
  cases value with
  | none => rfl
  | some text => rfl

/- The keys of a root and what opens it. -/
theorem root_keys :
    countSize 7 + textSize "fingerprint".toList +
      textSize "subject".toList + textSize "purposes".toList +
      textSize "source".toList + textSize "name".toList +
      textSize "not_after".toList + textSize "der".toList =
        56 := by
  decide

theorem sizes_root (root : Root) :
    sizes root.items = root.size := by
  have hKeys := root_keys
  unfold Root.items Root.size
  simp only [sizes_append, sizes_cons, sizes_nil,
    sizes_strListItems, sizes_optStrItems, Item.size]
  unfold textSize at *
  omega

theorem sizes_roots (roots : List Root) :
    sizes (roots.flatMap Root.items) =
      (roots.map Root.size).sum := by
  induction roots with
  | nil => rfl
  | cons root roots ih =>
      rw [List.flatMap_cons, sizes_append, sizes_root, ih,
        List.map_cons, List.sum_cons]

/- The keys of a chunk and what opens it. -/
theorem chunk_keys :
    countSize 5 + textSize "ok".toList +
      textSize "kind".toList + textSize "roots".toList +
      textSize "generation".toList + textSize "more".toList +
      textSize "roots".toList = 37 := by
  decide

/- The keys of a status and what opens it. -/
theorem status_keys :
    countSize 12 + textSize "ok".toList +
      textSize "kind".toList + textSize "status".toList +
      textSize "generation".toList + textSize "health".toList +
      textSize "message".toList + textSize "shipped".toList +
      textSize "added".toList + textSize "distrusted".toList +
      textSize "skipped".toList + textSize "effective".toList +
      textSize "compat_mode".toList +
      textSize "rendered".toList = 106 := by
  decide

theorem sizes_reply (reply : Reply) :
    sizes reply.items = reply.size := by
  cases reply with
  | ok => decide
  | error message =>
      have hKeys : countSize 2 + textSize "ok".toList +
          textSize "error".toList = 10 := by
        decide
      simp only [Reply.items, Reply.size, sizes_cons, sizes_nil,
        Item.size]
      unfold textSize at *
      omega
  | roots generation roots more =>
      have hKeys := chunk_keys
      simp only [Reply.items, Reply.size, sizes_append,
        sizes_roots, sizes_cons, sizes_nil, Item.size,
        chunkSize]
      unfold textSize at hKeys
      omega
  | status s =>
      have hKeys := status_keys
      simp only [Reply.items, Reply.size, Status.items,
        Status.size, sizes_append, sizes_cons, sizes_nil,
        sizes_strListItems, sizes_optStrItems, Item.size]
      unfold textSize at *
      omega

/- A reply is as long as what is in it makes it. -/
theorem length_encode
    {mp : MsgPack}
    (hSized : Sized mp)
    (reply : Reply) :
    (reply.encode mp).length = reply.size := by
  rw [Reply.encode, length_toBytes hSized, sizes_reply]

/- The longest error that is within the limit. -/
theorem error_size_le_iff (message : Text) :
    (Reply.error message).size ≤ maxMessageBytes ↔
      (Text.utf8 message).length ≤ 65522 := by
  simp only [Reply.size, textSize, strSize, maxMessageBytes]
  split_ifs <;> omega

end Wire

end Trustd
