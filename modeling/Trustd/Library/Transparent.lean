import Trustd.Library.Clients

/-
  Calls of the safe client say what the core says.

  The client's arguments are lent for the call. What passes
  the checks reaches the core unchanged, what the core makes
  of it comes back unchanged, and a failure comes back with
  its code, its kind and its text. Memory is afterwards what
  it was before.

  Key definitions include:
    * `Trustd.TrustClient.Carries`
    * `Trustd.TrustClient.Transparent`

  Key theorems include:
    * `Trustd.TrustClient.carries_calling`
    * `Trustd.TrustClient.carries_lending`
    * `Trustd.TrustClient.client_transparent`
-/

------------------------------------------------------------
-- Carrying A Call
------------------------------------------------------------

namespace Trustd

namespace TrustClient

open General Results Decode LibTrust

variable {σ α β γ : Type}
variable {A : Allocator}

/-
  Where the arguments are lent, the call has the outcome of
  the work, and leaves the memory as it was.
-/
def Carries
    (call : Call σ (Except Error α))
    (lent : Heap Abi.Block → Prop)
    (work : Work σ Failure α) :
    Prop :=
  ∀ heap w, lent heap →
    call heap w = some
      ((work w).1.mapError Failure.crossed, heap, (work w).2)

/- The entry point's outcome is read from its result. -/
theorem carries_calling
    {inputs : Inputs.Input γ}
    {checked : Except IoError γ}
    {entered : γ → Work σ Failure Value}
    {work : γ → Work σ Failure β}
    {value : β → Value}
    {out : β → α}
    {read : Nat → Heap Abi.Block → Option (Except Error α)}
    {lent : Heap Abi.Block → Prop}
    (hEntered : ∀ args, entered args = (work args).map value)
    (hInputs : ∀ heap, lent heap →
      inputs heap = some checked)
    (hCoded : Coded (Work.checked checked work))
    (hRead : ∀ b result heap,
      Reads (.ok (value b)) result heap →
        read result heap = some (.ok (out b))) :
    Carries (calling (entry A inputs entered) read) lent
      ((Work.checked checked work).map out) := by
  intro heap w hLent
  have hWork : Work.checked checked entered w =
      ((Work.checked checked work w).1.map value,
        (Work.checked checked work w).2) := by
    cases checked with
    | error e => rfl
    | ok args =>
        change entered args w = _
        rw [hEntered]
        rfl
  rw [calling, entry_checked A (hInputs heap hLent) w, hWork]
  simp only [Option.bind_some]
  generalize hFinish : finish A
    ((Work.checked checked work w).1.map value)
    (Region.start heap) = made
  have hGrown := (finish_builds A
    ((Work.checked checked work w).1.map value)
    (Region.start heap)).1
  rw [hFinish] at hGrown
  have hMade : Made A made.2 made.1
      ((Work.checked checked work w).1.map value) :=
    ⟨heap, hFinish⟩
  have hRest : made.2.heap.freeAll made.2.owned = heap :=
    hGrown.others
  rw [owned_made hMade (Region.held_self made.2)
    (hCoded w) (fun b hReads => hRead b _ _ hReads), hRest]
  rfl

/- Spans are lent in memory of their own for the call. -/
theorem carries_lending
    {values : List Ref}
    {call : Abi.Strings → Call σ (Except Error α)}
    {lent : Heap Abi.Block → Prop}
    {work : Work σ Failure α}
    (hWithin : ∀ heap heap', heap.Within heap' →
      lent heap → lent heap')
    (hCall : ∀ view : Abi.Strings,
      Carries (call view)
        (fun heap => lent heap ∧
          view.len = (values.map span).length ∧
          heap.slice Abi.spans view.data view.len =
            some (values.map span))
        work) :
    Carries (lending A values call) lent work := by
  intro heap w hLent
  have hBuilds := Builds.place A Abi.spans (values.map span)
    (Region.start heap)
  unfold lending
  generalize Filling.place A Abi.spans (values.map span)
    (Region.start heap) = placed at hBuilds ⊢
  have hThere := hBuilds.2 placed.2.heap
    (Region.held_self placed.2)
  have hRest : placed.2.heap.freeAll placed.2.owned = heap :=
    hBuilds.1.others
  have hCalled := hCall ⟨placed.1, values.length⟩
    placed.2.heap w
    ⟨hWithin heap _ hBuilds.1.within hLent,
      (List.length_map span).symm,
      by simpa only [List.length_map] using hThere.2⟩
  simp only [hCalled, Option.map_some, hRest]

end TrustClient

end Trustd

------------------------------------------------------------
-- Arguments
------------------------------------------------------------

namespace Trustd

namespace TrustClient

open General Results Decode LibTrust

variable {heap heap' : Heap Abi.Block}

/- What the client borrows is at an address. -/
def Borrowed
    (heap : Heap Abi.Block)
    (ref : Ref)
    (value : Bytes) :
    Prop :=
  ref.data ≠ 0 ∧ Inputs.Lent heap (span ref) value

def BorrowedText
    (heap : Heap Abi.Block)
    (ref : Ref)
    (value : Text) :
    Prop :=
  Borrowed heap ref (Text.utf8 value)

def BorrowedMaybe
    (heap : Heap Abi.Block) :
    Option Ref → Option Text → Prop
  | none, none => True
  | some ref, some value => BorrowedText heap ref value
  | _, _ => False

def BorrowedTexts
    (heap : Heap Abi.Block)
    (refs : List Ref)
    (values : List Text) :
    Prop :=
  List.Forall₂ (BorrowedText heap) refs values

theorem Borrowed.within
    {ref : Ref}
    {value : Bytes}
    (hBorrowed : Borrowed heap ref value)
    (hWithin : heap.Within heap') :
    Borrowed heap' ref value :=
  ⟨hBorrowed.1, hBorrowed.2.1,
    hWithin.slice hBorrowed.2.2⟩

theorem BorrowedTexts.within
    {refs : List Ref}
    {values : List Text}
    (hBorrowed : BorrowedTexts heap refs values)
    (hWithin : heap.Within heap') :
    BorrowedTexts heap' refs values :=
  hBorrowed.imp (fun _ _ hText => hText.within hWithin)

theorem Borrowed.bytes
    {ref : Ref}
    {value : Bytes}
    (hBorrowed : Borrowed heap ref value) :
    Inputs.bytes (span ref) heap =
      some (Inputs.bytesOf value) :=
  Inputs.bytes_lent hBorrowed.2

theorem BorrowedText.text
    {ref : Ref}
    {value : Text}
    (hBorrowed : BorrowedText heap ref value) :
    Inputs.text (span ref) heap =
      some (Inputs.textOf value) :=
  Inputs.text_lent hBorrowed.2

theorem BorrowedMaybe.maybeText
    {ref : Option Ref}
    {value : Option Text}
    (hBorrowed : BorrowedMaybe heap ref value) :
    Inputs.maybeText (maybeSpan ref) heap =
      some (Inputs.maybeTextOf value) := by
  apply Inputs.maybeText_lent
  cases ref with
  | none =>
      cases value with
      | none => rfl
      | some value => exact hBorrowed.elim
  | some ref =>
      cases value with
      | none => exact hBorrowed.elim
      | some value => exact hBorrowed

/- Borrowed texts are lent where their spans are. -/
theorem BorrowedTexts.strings
    {refs : List Ref}
    {values : List Text}
    (hBorrowed : BorrowedTexts heap refs values)
    {view : Abi.Strings}
    (hLen : view.len = (refs.map span).length)
    (hSlice : heap.slice Abi.spans view.data view.len =
      some (refs.map span)) :
    Inputs.strings view heap =
      some (Inputs.stringsOf values) := by
  apply Inputs.strings_lent
  refine ⟨refs.map span, hLen, hSlice, ?_⟩
  rw [List.forall₂_map_left_iff]
  exact hBorrowed.imp (fun _ _ hText => hText.2)

/- The path of a client is short. -/
theorem Client.bytesOf_path (client : Client) :
    Inputs.bytesOf client.path = .ok client.path := by
  have hShort := client.socketPath.2.1
  rw [Inputs.bytesOf, if_neg]
  rw [Inputs.maxTextBytes]
  omega

end TrustClient

end Trustd

------------------------------------------------------------
-- Every Function
------------------------------------------------------------

namespace Trustd

namespace TrustClient

open General Results Decode LibTrust

variable {σ : Type}

/- The replies that a request asks for. -/
def okReply : Wire.Reply → Option Unit
  | .ok => some ()
  | _ => none

def statusReply : Wire.Reply → Option Wire.Status
  | .status status => some status
  | _ => none

def rootsReply :
    Wire.Reply → Option (Nat × List Wire.Root)
  | .roots generation roots _ => some (generation, roots)
  | _ => none

/-
  What every function of the client comes to: the checks of
  its arguments, and then the core's work on the arguments.
-/
structure Transparent
    (A : Allocator)
    (core : Core σ)
    (crates : Cert.Crates)
    (describers : Cert.Describers)
    (descriptor : Bytes) :
    Prop where
  status : ∀ (client : Client) path,
    Carries (client.status A core path)
      (fun heap => Borrowed heap path client.path)
      (Work.reply statusReply
        (core.exchange client.path client.timeoutMs .status))
  roots : ∀ (client : Client) path withDer purpose value,
    Carries (client.roots A core path withDer purpose)
      (fun heap => Borrowed heap path client.path ∧
        BorrowedMaybe heap purpose value)
      (Work.checked (Inputs.maybeTextOf value)
        (fun value => (Work.reply rootsReply
          (core.exchange client.path client.timeoutMs
            (.roots withDer value))).map Prod.snd))
  reload : ∀ (client : Client) path,
    Carries (client.reload A core path)
      (fun heap => Borrowed heap path client.path)
      (Work.reply okReply
        (core.exchange client.path client.timeoutMs .reload))
  certificate : ∀ bytes description value text,
    @Carries σ _ (certificate A bytes description)
      (fun heap => Borrowed heap bytes value ∧
        BorrowedText heap description text)
      (Work.checked
        (do
          let value ← Inputs.bytesOf value
          let text ← Inputs.textOf text
          return (value, text))
        (fun args => (Work.done (ClientCore.certificate args.1
          args.2)).failing managementError))
  inspect : ∀ der value,
    @Carries σ _ (inspect A crates describers der)
      (fun heap => Borrowed heap der value)
      (Work.checked (Inputs.bytesOf value)
        (fun value => (Work.done (Cert.describe crates
          describers value)).failing certError))
  vet : ∀ der value,
    Carries (vet A core der)
      (fun heap => Borrowed heap der value)
      (Work.checked (Inputs.bytesOf value)
        (fun value => (core.vet value).failing certError))
  usableName : ∀ name text,
    @Carries σ _ (usableName A name)
      (fun heap => BorrowedText heap name text)
      (Work.checked (Inputs.textOf text)
        (fun text => Work.done
          (.ok (ClientCore.usableName text))))
  mayReload :
    Carries (mayReload A core) (fun _ => True)
      (fun w => (.ok (core.mayReload w).1,
        (core.mayReload w).2))
  mayChange :
    Carries (mayChange A core) (fun _ => True)
      (core.mayChange.failing managementError)
  maySetCompat :
    Carries (maySetCompat A core) (fun _ => True)
      (core.maySetCompat.failing managementError)
  setCompat : ∀ mode,
    Carries (setCompat A core mode) (fun _ => True)
      ((core.setCompat mode).failing managementError)
  add : ∀ name der purposes text value texts,
    Carries (add A core name der purposes)
      (fun heap => BorrowedText heap name text ∧
        Borrowed heap der value ∧
        BorrowedTexts heap purposes texts)
      (Work.checked
        (do
          let text ← Inputs.textOf text
          let value ← Inputs.bytesOf value
          let texts ← Inputs.stringsOf texts
          return (text, value, texts))
        (fun args => (core.add args.1 args.2.1
          args.2.2).failing managementError))
  remove : ∀ name text,
    Carries (remove A core name)
      (fun heap => BorrowedText heap name text)
      (Work.checked (Inputs.textOf text)
        (fun text =>
          (core.remove text).failing managementError))
  distrusted :
    Carries (distrusted A core) (fun _ => True)
      (core.distrusted.failing managementError)
  distrust : ∀ fingerprint reason text why,
    Carries (distrust A core fingerprint reason)
      (fun heap => BorrowedText heap fingerprint text ∧
        BorrowedText heap reason why)
      (Work.checked
        (do
          let text ← Inputs.textOf text
          let why ← Inputs.textOf why
          return (text, why))
        (fun args => (core.distrust args.1 args.2).failing
          managementError))
  restore : ∀ fingerprint text,
    Carries (restore A core fingerprint)
      (fun heap => BorrowedText heap fingerprint text)
      (Work.checked (Inputs.textOf text)
        (fun text =>
          (core.restore text).failing managementError))
  resolve : ∀ argument text,
    Carries (resolve A core argument)
      (fun heap => BorrowedText heap argument text)
      (Work.checked (Inputs.textOf text)
        (fun text =>
          (core.resolve text).failing managementError))
  fingerprint : ∀ der value,
    @Carries σ _ (fingerprint A crates der)
      (fun heap => Borrowed heap der value)
      (Work.checked (Inputs.bytesOf value)
        (fun value => Work.done
          (.ok (Cert.fingerprint crates value))))
  toPem : ∀ der value,
    @Carries σ _ (toPem A der)
      (fun heap => Borrowed heap der value)
      (Work.checked (Inputs.bytesOf value)
        (fun value => Work.done (.ok (Cert.toPem value))))
  fromPem : ∀ ref text,
    @Carries σ _ (fromPem A ref)
      (fun heap => BorrowedText heap ref text)
      (Work.checked (Inputs.textOf text)
        (fun text => Work.done (.ok (Cert.fromPem text))))
  normaliseFingerprint : ∀ ref text,
    @Carries σ _ (normaliseFingerprint A ref)
      (fun heap => BorrowedText heap ref text)
      (Work.checked (Inputs.textOf text)
        (fun text => Work.done
          (.ok (Store.normaliseFingerprint text))))
  fingerprintIn : ∀ ref fingerprints text texts,
    @Carries σ _ (fingerprintIn A ref fingerprints)
      (fun heap => BorrowedText heap ref text ∧
        BorrowedTexts heap fingerprints texts)
      (Work.checked
        (do
          let text ← Inputs.textOf text
          let texts ← Inputs.stringsOf texts
          return (text, texts))
        (fun args => (Work.done (ClientCore.fingerprintAmong
          args.1 args.2)).failing managementError))
  defaultControlSecurity :
    @Carries σ _ (defaultControlSecurity A descriptor)
      (fun _ => True) (Work.done (.ok descriptor))

end TrustClient

end Trustd

------------------------------------------------------------
-- Nothing Is Lost At The Interface
------------------------------------------------------------

namespace Trustd

namespace TrustClient

open General Results Decode LibTrust

variable {σ α β : Type}
variable (A : Allocator)
variable (core : Core σ)

theorem Work.map_id (work : Work σ Failure α) :
    work.map (fun a => a) = work := by
  funext w
  unfold LibTrust.Work.map
  cases hOut : (work w).1 with
  | ok a =>
      rw [Prod.ext_iff]
      exact ⟨hOut.symm, rfl⟩
  | error e =>
      rw [Prod.ext_iff]
      exact ⟨hOut.symm, rfl⟩

theorem Work.checked_ok
    {γ : Type}
    (args : γ)
    (work : γ → Work σ Failure α) :
    Work.checked (.ok args) work = work args :=
  rfl

theorem Work.checked_map
    {γ : Type}
    (checked : Except IoError γ)
    (work : γ → Work σ Failure α)
    (f : α → β) :
    (Work.checked checked work).map f =
      Work.checked checked (fun args => (work args).map f) := by
  cases checked <;> rfl

theorem Work.checked_comp
    {γ δ : Type}
    (checked : Except IoError γ)
    (f : γ → δ)
    (work : δ → Work σ Failure α) :
    Work.checked (checked.map f) work =
      Work.checked checked (fun args => work (f args)) := by
  cases checked <;> rfl

section

variable {A core}
variable {γ : Type}
variable {inputs : Inputs.Input γ}
variable {entered : γ → Work σ Failure Value}
variable {value : β → Value}
variable {read : Nat → Heap Abi.Block →
  Option (Except Error β)}
variable {lent : Heap Abi.Block → Prop}

/- A call that hands on what it reads. -/
theorem carries_checked
    {checked : Except IoError γ}
    {work : γ → Work σ Failure β}
    (hEntered : ∀ args, entered args = (work args).map value)
    (hInputs : ∀ heap, lent heap →
      inputs heap = some checked)
    (hPlain : Plain checked)
    (hCoded : ∀ args, Coded (work args))
    (hRead : ∀ b result heap,
      Reads (.ok (value b)) result heap →
        read result heap = some (.ok b)) :
    Carries (calling (entry A inputs entered) read) lent
      (Work.checked checked work) := by
  rw [← Work.map_id (Work.checked checked work)]
  exact carries_calling hEntered hInputs
    (Coded.checked hPlain hCoded) hRead

/- One that takes nothing, or nothing that is refused. -/
theorem carries_work
    {args : γ}
    {work : γ → Work σ Failure β}
    (hEntered : ∀ args, entered args = (work args).map value)
    (hInputs : ∀ heap, lent heap →
      inputs heap = some (.ok args))
    (hCoded : ∀ args, Coded (work args))
    (hRead : ∀ b result heap,
      Reads (.ok (value b)) result heap →
        read result heap = some (.ok b)) :
    Carries (calling (entry A inputs entered) read) lent
      (work args) :=
  carries_checked hEntered hInputs (plain_ok args) hCoded hRead

/- One whose work may fail, as the library reports it. -/
theorem carries_failing
    {ε : Type}
    {checked : Except IoError γ}
    {failure : ε → Failure}
    {work : γ → Work σ ε β}
    (hCode : ∀ e, (failure e).code ≠ 0)
    (hInputs : ∀ heap, lent heap →
      inputs heap = some checked)
    (hPlain : Plain checked)
    (hRead : ∀ b result heap,
      Reads (.ok (value b)) result heap →
        read result heap = some (.ok b)) :
    Carries
      (calling
        (entry A inputs
          (fun args => ((work args).failing failure).map
            value)) read)
      lent
      (Work.checked checked
        (fun args => (work args).failing failure)) := by
  apply carries_checked _ hInputs hPlain _ hRead
  · intro args
    rfl
  · intro args
    exact coded_failing hCode (work args)

/- One that takes nothing. -/
theorem carries_alone
    {ε : Type}
    {failure : ε → Failure}
    {work : Work σ ε β}
    (hCode : ∀ e, (failure e).code ≠ 0)
    (hRead : ∀ b result heap,
      Reads (.ok (value b)) result heap →
        read result heap = some (.ok b)) :
    Carries
      (calling
        (entry A (pure ())
          (fun _ => (work.failing failure).map value)) read)
      (fun _ => True) (work.failing failure) := by
  rw [← Work.checked_ok () (fun _ => work.failing failure)]
  apply carries_failing hCode _ (plain_ok ()) hRead
  intro _ _
  rfl

/- One that computes from its arguments alone. -/
theorem carries_done
    (value : β → Value)
    {checked : Except IoError γ}
    {f : γ → β}
    (hInputs : ∀ heap, lent heap →
      inputs heap = some checked)
    (hPlain : Plain checked)
    (hRead : ∀ b result heap,
      Reads (.ok (value b)) result heap →
        read result heap = some (.ok b)) :
    @Carries σ _
      (calling
        (entry A inputs
          (fun args => Work.done (.ok (value (f args))))) read)
      lent
      (Work.checked checked
        (fun args => Work.done (.ok (f args)))) := by
  apply carries_checked _ hInputs hPlain _ hRead
  · intro args
    rfl
  · intro args
    exact coded_ok (f args)

/- An exchange over the path a client borrows. -/
theorem carries_exchange
    {pick : Wire.Reply → Option β}
    {request : Wire.Request}
    (hPick : ∀ reply, Shared.expected request reply = true →
      (∃ message, reply = .error message) ∨
        ∃ a, pick reply = some a ∧
          replyResult reply = .ok (value a))
    (hRead : ∀ b result heap,
      Reads (.ok (value b)) result heap →
        read result heap = some (.ok b))
    (client : Client)
    (path : Ref) :
    Carries
      (calling
        (entry A (Inputs.bytes (span path))
          (fun path => exchange core path client.timeoutMs
            request)) read)
      (fun heap => Borrowed heap path client.path)
      (Work.reply pick
        (core.exchange client.path client.timeoutMs
          request)) := by
  apply carries_work
    (fun path => exchange_eq core hPick path client.timeoutMs)
  · intro heap hPath
    rw [hPath.bytes, client.bytesOf_path]
  · intro path
    exact coded_reply core pick path _ _
  · exact hRead

end

/- The inputs of two and of three arguments. -/
theorem inputs_two
    {γ δ : Type}
    {first : Inputs.Input γ}
    {second : Inputs.Input δ}
    {one : Except IoError γ}
    {two : Except IoError δ}
    {heap : Heap Abi.Block}
    (hOne : first heap = some one)
    (hTwo : second heap = some two) :
    (do
      let a ← first
      let b ← second
      return (a, b) : Inputs.Input (γ × δ)) heap =
      some (do
        let a ← one
        let b ← two
        return (a, b)) := by
  cases one with
  | error e => exact Reading.bind_error hOne
  | ok a =>
      rw [Reading.bind_ok hOne]
      cases two with
      | error e => exact Reading.bind_error hTwo
      | ok b =>
          rw [Reading.bind_ok hTwo]
          rfl

theorem inputs_three
    {γ δ ζ : Type}
    {first : Inputs.Input γ}
    {second : Inputs.Input δ}
    {third : Inputs.Input ζ}
    {one : Except IoError γ}
    {two : Except IoError δ}
    {three : Except IoError ζ}
    {heap : Heap Abi.Block}
    (hOne : first heap = some one)
    (hTwo : second heap = some two)
    (hThree : third heap = some three) :
    (do
      let a ← first
      let b ← second
      let c ← third
      return (a, b, c) : Inputs.Input (γ × δ × ζ)) heap =
      some (do
        let a ← one
        let b ← two
        let c ← three
        return (a, b, c)) := by
  cases one with
  | error e => exact Reading.bind_error hOne
  | ok a =>
      rw [Reading.bind_ok hOne]
      cases two with
      | error e => exact Reading.bind_error hTwo
      | ok b =>
          rw [Reading.bind_ok hTwo]
          cases three with
          | error e => exact Reading.bind_error hThree
          | ok c =>
              rw [Reading.bind_ok hThree]
              rfl

theorem plain_two
    {γ δ : Type}
    {one : Except IoError γ}
    {two : Except IoError δ}
    (hOne : Plain one)
    (hTwo : Plain two) :
    Plain (do
      let a ← one
      let b ← two
      return (a, b)) :=
  hOne.bind (fun _ => hTwo.bind (fun _ => plain_ok _))

theorem plain_three
    {γ δ ζ : Type}
    {one : Except IoError γ}
    {two : Except IoError δ}
    {three : Except IoError ζ}
    (hOne : Plain one)
    (hTwo : Plain two)
    (hThree : Plain three) :
    Plain (do
      let a ← one
      let b ← two
      let c ← three
      return (a, b, c)) :=
  hOne.bind (fun _ => hTwo.bind (fun _ =>
    hThree.bind (fun _ => plain_ok _)))

section

variable {heap : Heap Abi.Block}
variable {result : Nat}
variable {missing : Text}

/- What a live result holds is read off it as it is. -/
theorem reads_text
    {value : Option Text}
    (hReads : Reads (.ok (.text value)) result heap) :
    readAs textView Decode.maybeText missing result heap =
      some (.ok value) :=
  readAs_offered
    (fun _ heap (hView : Offers heap _ (.text value)) =>
      hView) hReads

theorem reads_present
    {value : Text}
    (hReads : Reads (.ok (.text (some value))) result heap) :
    readAs textView Decode.text missing result heap =
      some (.ok value) := by
  apply readAs_offered _ hReads
  intro payload heap hView
  rcases hView with ⟨view, hHere, hText⟩
  exact ⟨view, hHere, text_of_maybeText hText⟩

theorem reads_bytes
    {value : Bytes}
    (hReads : Reads (.ok (.bytes value)) result heap) :
    readAs bytesView Decode.bytes missing result heap =
      some (.ok value) :=
  readAs_offered
    (fun _ heap (hView : Offers heap _ (.bytes value)) =>
      hView) hReads

theorem reads_boolean
    {value : Bool}
    (hReads : Reads (.ok (.boolean value)) result heap) :
    readAs booleanView flag missing result heap =
      some (.ok value) :=
  readAs_offered
    (fun _ heap (hView : Offers heap _ (.boolean value)) =>
      hView) hReads

theorem reads_rootList
    {value : Nat × List Wire.Root}
    (hReads : Reads (.ok (.rootList value.1 value.2)) result
      heap) :
    readAs rootListView Decode.rootList missing result heap =
      some (.ok value.2) :=
  readAs_offered
    (fun _ heap
      (hView : Offers heap _ (.rootList value.1 value.2)) =>
        hView) hReads

theorem reads_status
    {value : Wire.Status}
    (hReads : Reads (.ok (.status value)) result heap) :
    readAs statusView Decode.status missing result heap =
      some (.ok value) :=
  readAs_offered
    (fun _ heap (hView : Offers heap _ (.status value)) =>
      hView) hReads

theorem reads_parsed
    {value : Cert.Parsed}
    (hReads : Reads (.ok (.parsed value)) result heap) :
    readAs parsedView Decode.parsed missing result heap =
      some (.ok value) :=
  readAs_offered
    (fun _ heap (hView : Offers heap _ (.parsed value)) =>
      hView) hReads

theorem reads_details
    {value : Cert.Details}
    (hReads : Reads (.ok (.details value)) result heap) :
    readAs detailsView Decode.details missing result heap =
      some (.ok value) :=
  readAs_offered
    (fun _ heap (hView : Offers heap _ (.details value)) =>
      hView) hReads

theorem reads_distrusted
    {value : List ClientCore.Distrusted}
    (hReads : Reads (.ok (.distrustedList value)) result
      heap) :
    readAs distrustedListView Decode.distrustedList missing
      result heap = some (.ok value) :=
  readAs_offered
    (fun _ heap
      (hView : Offers heap _ (.distrustedList value)) =>
        hView) hReads

theorem reads_byteList
    {value : List Bytes}
    (hReads : Reads (.ok (.byteList value)) result heap) :
    readAs byteListView Decode.byteList missing result heap =
      some (.ok value) :=
  readAs_offered
    (fun _ heap (hView : Offers heap _ (.byteList value)) =>
      hView) hReads

end

/- Three arguments of which the second is never refused. -/
theorem inputs_roots
    {heap : Heap Abi.Block}
    {path : Ref}
    {purpose : Option Ref}
    {client : Client}
    {value : Option Text}
    (withDer : Bool)
    (hPath : Borrowed heap path client.path)
    (hPurpose : BorrowedMaybe heap purpose value) :
    (do
      let path ← Inputs.bytes (span path)
      let withDer ← Inputs.boolean withDer.toNat
      let purpose ← Inputs.maybeText (maybeSpan purpose)
      return (path, withDer, purpose) :
        Inputs.Input (Bytes × Bool × Option Text)) heap =
      some ((Inputs.maybeTextOf value).map
        (fun value => (client.path, withDer, value))) := by
  have hPathIs := hPath.bytes
  rw [client.bytesOf_path] at hPathIs
  rw [inputs_three hPathIs
    (Inputs.boolean_toNat withDer heap)
    hPurpose.maybeText]
  rfl

/- The reply of each request that the client sends. -/
theorem status_expected
    (reply : Wire.Reply)
    (hExpected : Shared.expected .status reply = true) :
    (∃ message, reply = .error message) ∨
      ∃ status, statusReply reply = some status ∧
        replyResult reply = .ok (Value.status status) := by
  cases reply with
  | ok => cases hExpected
  | error message => exact Or.inl ⟨message, rfl⟩
  | roots _ _ _ => cases hExpected
  | status status => exact Or.inr ⟨status, rfl, rfl⟩

theorem roots_expected
    {withDer : Bool}
    {purpose : Option Text}
    (reply : Wire.Reply)
    (hExpected :
      Shared.expected (.roots withDer purpose) reply = true) :
    (∃ message, reply = .error message) ∨
      ∃ roots, rootsReply reply = some roots ∧
        replyResult reply =
          .ok (Value.rootList roots.1 roots.2) := by
  cases reply with
  | ok => cases hExpected
  | error message => exact Or.inl ⟨message, rfl⟩
  | roots generation roots _ =>
      exact Or.inr ⟨(generation, roots), rfl, rfl⟩
  | status _ => cases hExpected

theorem reload_expected
    (reply : Wire.Reply)
    (hExpected : Shared.expected .reload reply = true) :
    (∃ message, reply = .error message) ∨
      ∃ nothing, okReply reply = some nothing ∧
        replyResult reply = .ok Value.empty := by
  cases reply with
  | ok => exact Or.inr ⟨(), rfl, rfl⟩
  | error message => exact Or.inl ⟨message, rfl⟩
  | roots _ _ _ => cases hExpected
  | status _ => cases hExpected

/- The roots that are asked for come from one exchange. -/
theorem carries_roots
    (client : Client)
    (path : Ref)
    (withDer : Bool)
    (purpose : Option Ref)
    (value : Option Text) :
    Carries (client.roots A core path withDer purpose)
      (fun heap => Borrowed heap path client.path ∧
        BorrowedMaybe heap purpose value)
      (Work.checked (Inputs.maybeTextOf value)
        (fun value => (Work.reply rootsReply
          (core.exchange client.path client.timeoutMs
            (.roots withDer value))).map Prod.snd)) := by
  have hWork : Work.checked (Inputs.maybeTextOf value)
      (fun value => (Work.reply rootsReply
        (core.exchange client.path client.timeoutMs
          (.roots withDer value))).map Prod.snd) =
      (Work.checked ((Inputs.maybeTextOf value).map
        (fun value => (client.path, withDer, value)))
        (fun args => Work.reply rootsReply
          (core.exchange args.1 client.timeoutMs
            (.roots args.2.1 args.2.2)))).map Prod.snd := by
    rw [Work.checked_comp, Work.checked_map]
  rw [hWork]
  apply carries_calling
  · intro args
    exact exchange_eq core roots_expected args.1 _
  · intro heap hLent
    exact inputs_roots withDer hLent.1 hLent.2
  · apply Coded.checked
    · exact (plain_maybeTextOf value).map _
    · intro args
      exact coded_reply core _ _ _ _
  · intro _ _ _
    exact reads_rootList

/- What is added is lent for the call. -/
theorem carries_add
    (name : Ref)
    (der : Ref)
    (purposes : List Ref)
    (text : Text)
    (value : Bytes)
    (texts : List Text) :
    Carries (add A core name der purposes)
      (fun heap => BorrowedText heap name text ∧
        Borrowed heap der value ∧
        BorrowedTexts heap purposes texts)
      (Work.checked
        (do
          let text ← Inputs.textOf text
          let value ← Inputs.bytesOf value
          let texts ← Inputs.stringsOf texts
          return (text, value, texts))
        (fun args => (core.add args.1 args.2.1
          args.2.2).failing managementError)) := by
  apply carries_lending
  · intro heap heap' hWithin hLent
    exact ⟨hLent.1.within hWithin, hLent.2.1.within hWithin,
      hLent.2.2.within hWithin⟩
  · intro view
    apply carries_failing managementError_code
    · intro _ hLent
      exact inputs_three hLent.1.1.text hLent.1.2.1.bytes
        (hLent.1.2.2.strings hLent.2.1 hLent.2.2)
    · exact plain_three (plain_textOf text)
        (plain_bytesOf value) (plain_stringsOf texts)
    · intro _ _ _
      exact reads_parsed

theorem carries_restore
    (fingerprint : Ref)
    (text : Text) :
    Carries (restore A core fingerprint)
      (fun heap => BorrowedText heap fingerprint text)
      (Work.checked (Inputs.textOf text)
        (fun text =>
          (core.restore text).failing managementError)) := by
  apply carries_failing managementError_code
  · intro _ hLent
    exact hLent.text
  · exact plain_textOf text
  · intro _ _ _
    exact reads_present

/-
  Whatever a function of the client is given, it says what the
  core does with it, and leaves the memory as it was.
-/
theorem client_transparent
    (crates : Cert.Crates)
    (describers : Cert.Describers)
    (descriptor : Bytes) :
    Transparent A core crates describers descriptor where
  status := by
    apply carries_exchange status_expected
    intro _ _ _
    exact reads_status
  roots := carries_roots A core
  reload := by
    apply carries_exchange reload_expected
    intro _ _ _ _
    rfl
  certificate := by
    intro bytes description value text
    apply carries_failing managementError_code
    · intro _ hLent
      exact inputs_two hLent.1.bytes hLent.2.text
    · exact plain_two (plain_bytesOf value) (plain_textOf text)
    · intro _ _ _
      exact reads_bytes
  inspect := by
    intro der value
    apply carries_failing certError_code
    · intro _ hLent
      exact hLent.bytes
    · exact plain_bytesOf value
    · intro _ _ _
      exact reads_details
  vet := by
    intro der value
    apply carries_failing certError_code
    · intro _ hLent
      exact hLent.bytes
    · exact plain_bytesOf value
    · intro _ _ _
      exact reads_parsed
  usableName := by
    intro name text
    apply carries_done Value.boolean
    · intro _ hLent
      exact hLent.text
    · exact plain_textOf text
    · intro _ _ _
      exact reads_boolean
  mayReload := by
    have hEntered : ∀ _ : Unit,
        (fun w => (.ok (.boolean (core.mayReload w).1),
          (core.mayReload w).2) : Work σ Failure Value) =
          Work.map Value.boolean
            (fun w => (.ok (core.mayReload w).1,
              (core.mayReload w).2)) := by
      intro _
      rfl
    apply carries_work hEntered
    · intro _ _
      rfl
    · intro _ _ _ hError
      cases hError
    · intro _ _ _
      exact reads_boolean
  mayChange := by
    apply carries_alone managementError_code
    intro _ _ _ _
    rfl
  maySetCompat := by
    apply carries_alone managementError_code
    intro _ _ _ _
    rfl
  setCompat := by
    intro mode
    apply carries_alone managementError_code
    intro _ _ _ _
    rfl
  add := carries_add A core
  remove := by
    intro name text
    apply carries_failing managementError_code
    · intro _ hLent
      exact hLent.text
    · exact plain_textOf text
    · intro _ _ _ _
      rfl
  distrusted := by
    apply carries_alone managementError_code
    intro _ _ _
    exact reads_distrusted
  distrust := by
    intro fingerprint reason text why
    apply carries_failing managementError_code
    · intro _ hLent
      exact inputs_two hLent.1.text hLent.2.text
    · exact plain_two (plain_textOf text) (plain_textOf why)
    · intro _ _ _
      exact reads_text
  restore := carries_restore A core
  resolve := by
    intro argument text
    apply carries_failing managementError_code
    · intro _ hLent
      exact hLent.text
    · exact plain_textOf text
    · intro _ _ _
      exact reads_present
  fingerprint := by
    intro der value
    apply carries_done (fun text => Value.text (some text))
    · intro _ hLent
      exact hLent.bytes
    · exact plain_bytesOf value
    · intro _ _ _
      exact reads_present
  toPem := by
    intro der value
    apply carries_done (fun text => Value.text (some text))
    · intro _ hLent
      exact hLent.bytes
    · exact plain_bytesOf value
    · intro _ _ _
      exact reads_present
  fromPem := by
    intro ref text
    apply carries_done Value.byteList
    · intro _ hLent
      exact hLent.text
    · exact plain_textOf text
    · intro _ _ _
      exact reads_byteList
  normaliseFingerprint := by
    intro ref text
    apply carries_done (fun text => Value.text (some text))
    · intro _ hLent
      exact hLent.text
    · exact plain_textOf text
    · intro _ _ _
      exact reads_present
  fingerprintIn := by
    intro ref fingerprints text texts
    apply carries_lending
    · intro heap heap' hWithin hLent
      exact ⟨hLent.1.within hWithin, hLent.2.within hWithin⟩
    · intro view
      apply carries_failing managementError_code
      · intro _ hLent
        exact inputs_two hLent.1.1.text
          (hLent.1.2.strings hLent.2.1 hLent.2.2)
      · exact plain_two (plain_textOf text)
          (plain_stringsOf texts)
      · intro _ _ _
        exact reads_present
  defaultControlSecurity := by
    rw [← Work.checked_ok () (fun _ => Work.done _)]
    apply carries_done Value.bytes
    · intro _ _
      rfl
    · exact plain_ok ()
    · intro _ _ _
      exact reads_bytes

end TrustClient

end Trustd
