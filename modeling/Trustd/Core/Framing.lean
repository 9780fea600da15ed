import Trustd.Core.MessagePack
import Trustd.Core.Slots

/-
  MessagePack values are told apart by their first byte, and
  each is read, or skipped, to its own end.

  Key definitions include:
    * `Trustd.Wire.Kind`
    * `Trustd.Wire.Front`
    * `Trustd.Wire.skipHead`

  Key theorems include:
    * `Trustd.Wire.skipValues_front`
    * `Trustd.Wire.skipValues_add`
    * `Trustd.Wire.framing_messagePack`
-/

------------------------------------------------------------
-- Kinds Of Values
------------------------------------------------------------

namespace Trustd

namespace Wire

open General

/- What a first byte opens. -/
inductive Kind where
  | map
  | array
  | nil
  | bool
  | str
  | bin
  | int
  | other
deriving DecidableEq

def kindOf (b : UInt8) : Kind :=
  let n := b.toNat
  if n < 0x80 ∨ 0xe0 ≤ n then .int
  else if n < 0x90 then .map
  else if n < 0xa0 then .array
  else if n < 0xc0 then .str
  else if n = 0xc0 then .nil
  else if n = 0xc2 ∨ n = 0xc3 then .bool
  else if 0xc4 ≤ n ∧ n ≤ 0xc6 then .bin
  else if 0xcc ≤ n ∧ n ≤ 0xd3 then .int
  else if 0xd9 ≤ n ∧ n ≤ 0xdb then .str
  else if n = 0xdc ∨ n = 0xdd then .array
  else if n = 0xde ∨ n = 0xdf then .map
  else .other

/- A read that only takes values of a kind. -/
def Takes {α : Type}
    (kind : Kind)
    (p : Bytes → Except Text α) :
    Prop :=
  ∀ m a, p m = .ok a →
    ∃ b rest, m = b :: rest ∧ kindOf b = kind

/-
  A read that takes what it reads off the front, whatever
  follows.
-/
def Front {α : Type}
    (p : Bytes → Except Text (α × Bytes)) :
    Prop :=
  ∀ m a rest, p m = .ok (a, rest) →
    ∃ v, m = v ++ rest ∧ 1 ≤ v.length ∧
      ∀ rest', p (v ++ rest') = .ok (a, rest')

variable {α β : Type}

theorem Front.map
    {p : Bytes → Except Text (α × Bytes)}
    (hp : Front p)
    (f : α → β) :
    Front (fun m => (p m).map (fun r => (f r.1, r.2))) := by
  intro m b rest hRead
  rcases map_eq_ok_iff.mp hRead with ⟨⟨a, out⟩, hRun, hPair⟩
  cases hPair
  rcases hp m a _ hRun with ⟨v, rfl, hLength, hAlways⟩
  exact ⟨v, rfl, hLength, fun rest' =>
    map_eq_ok_iff.mpr ⟨(a, rest'), hAlways rest', rfl⟩⟩

theorem takeBytes_eq_ok_iff
    {n : Nat}
    {m data rest : Bytes} :
    takeBytes n m = .ok (data, rest) ↔
      m = data ++ rest ∧ data.length = n := by
  unfold takeBytes
  split_ifs with hShort
  · refine iff_of_false (fun hOk => by cases hOk) ?_
    rintro ⟨rfl, hLength⟩
    rw [List.length_append] at hShort
    omega
  · rw [Except.ok.injEq, Prod.mk.injEq]
    constructor
    · rintro ⟨rfl, rfl⟩
      refine ⟨(List.take_append_drop n m).symm, ?_⟩
      rw [List.length_take]
      omega
    · rintro ⟨rfl, rfl⟩
      exact ⟨List.take_left, List.drop_left⟩

/- What a header says, and the bytes that follow as it says. -/
theorem Front.take
    {p : Bytes → Except Text (Nat × Bytes)}
    (hp : Front p) :
    Front (fun m => p m >>= fun r => takeBytes r.1 r.2) := by
  intro m data rest hRead
  rcases bind_eq_ok_iff.mp hRead with
    ⟨⟨n, mid⟩, hHeader, hTake⟩
  rcases hp m n mid hHeader with ⟨v, rfl, hLength, hAlways⟩
  rcases takeBytes_eq_ok_iff.mp hTake with ⟨rfl, hData⟩
  refine ⟨v ++ data, (List.append_assoc v data rest).symm, ?_,
    fun rest' => ?_⟩
  · rw [List.length_append]
    exact Nat.le_add_right_of_le hLength
  · rw [List.append_assoc]
    exact bind_eq_ok_iff.mpr ⟨(n, data ++ rest'),
      hAlways _, takeBytes_eq_ok_iff.mpr ⟨rfl, hData⟩⟩

theorem Takes.bind
    {kind : Kind}
    {p : Bytes → Except Text α}
    (hp : Takes kind p)
    (f : α → Except Text β) :
    Takes kind (fun m => p m >>= f) := by
  intro m b hRead
  rcases bind_eq_ok_iff.mp hRead with ⟨a, hRun, -⟩
  exact hp m a hRun

theorem Takes.map
    {kind : Kind}
    {p : Bytes → Except Text α}
    (hp : Takes kind p)
    (f : α → β) :
    Takes kind (fun m => (p m).map f) := by
  intro m b hRead
  rcases map_eq_ok_iff.mp hRead with ⟨a, hRun, -⟩
  exact hp m a hRun

/- A value of another kind is refused. -/
theorem Takes.refuses
    {kind : Kind}
    {p : Bytes → Except Text α}
    (hp : Takes kind p)
    {b : UInt8}
    (hKind : kindOf b ≠ kind)
    (rest : Bytes) :
    ∃ e, p (b :: rest) = .error e := by
  cases hRun : p (b :: rest) with
  | error e => exact ⟨e, rfl⟩
  | ok a =>
      rcases hp _ a hRun with ⟨b', rest', hSame, hKind'⟩
      cases hSame
      exact absurd hKind' hKind

end Wire

end Trustd

------------------------------------------------------------
-- Readers
------------------------------------------------------------

namespace Trustd

namespace Wire

open General

section

variable {short : Nat → Option Nat}
variable {wide : List (Nat × Nat)}

theorem readHeader_front :
    Front (readHeader short wide) := by
  intro m n rest hRead
  cases m with
  | nil => cases hRead
  | cons b m =>
      rw [readHeader] at hRead
      cases hShort : short b.toNat with
      | some k =>
          rw [hShort] at hRead
          cases hRead
          refine ⟨[b], rfl, Nat.le_refl 1, fun rest' => ?_⟩
          rw [List.singleton_append, readHeader, hShort]
      | none =>
          rw [hShort] at hRead
          cases hWide : wide.find? (fun w =>
              w.1 = b.toNat) with
          | none =>
              rw [hWide] at hRead
              cases hRead
          | some w =>
              rw [hWide] at hRead
              rcases map_eq_ok_iff.mp hRead with
                ⟨⟨data, out⟩, hTake, hPair⟩
              cases hPair
              rcases takeBytes_eq_ok_iff.mp hTake with
                ⟨rfl, hData⟩
              refine ⟨b :: data, rfl,
                Nat.succ_le_succ (Nat.zero_le _),
                fun rest' => ?_⟩
              rw [List.cons_append, readHeader, hShort]
              dsimp only
              rw [hWide]
              exact map_eq_ok_iff.mpr ⟨(data, rest'),
                takeBytes_eq_ok_iff.mpr ⟨rfl, hData⟩, rfl⟩

/- The first bytes that a header is made for. -/
def begins
    (short : Nat → Option Nat)
    (wide : List (Nat × Nat))
    (b : UInt8) :
    Bool :=
  (short b.toNat).isSome ||
    (wide.find? (fun w => w.1 = b.toNat)).isSome

theorem readHeader_begins
    {b : UInt8}
    {m : Bytes}
    {r : Nat × Bytes}
    (hRead : readHeader short wide (b :: m) = .ok r) :
    begins short wide b = true := by
  rw [readHeader] at hRead
  rw [begins, Bool.or_eq_true]
  cases hFirst : short b.toNat with
  | some k => exact Or.inl rfl
  | none =>
      rw [hFirst] at hRead
      cases hFind : wide.find? (fun w => w.1 = b.toNat) with
      | some w => exact Or.inr rfl
      | none =>
          rw [hFind] at hRead
          cases hRead

theorem readHeader_takes
    {kind : Kind}
    (hKind : ∀ b, begins short wide b = true →
      kindOf b = kind) :
    Takes kind (readHeader short wide) := by
  intro m a hRead
  cases m with
  | nil => cases hRead
  | cons b m =>
      exact ⟨b, m, rfl, hKind b (readHeader_begins hRead)⟩

end

/- The values of a signed number's own first bytes. -/
def intWidths : List (Nat × Nat) :=
  [(0xd0, 1), (0xd1, 2), (0xd2, 4), (0xd3, 8)]

/- What a signed number begins with, and no other value. -/
def beginsInt (b : UInt8) : Bool :=
  decide (0xe0 ≤ b.toNat) ||
    (intWidths.find? (fun w => w.1 = b.toNat)).isSome

/- Every header, byte by byte, against the kinds. -/
theorem kindOf_begins :
    ∀ b : UInt8,
      (begins (within 0x80 0x90) [(0xde, 2), (0xdf, 4)] b →
        kindOf b = .map) ∧
      (begins (within 0x90 0xa0) [(0xdc, 2), (0xdd, 4)] b →
        kindOf b = .array) ∧
      (begins (within 0xa0 0xc0)
          [(0xd9, 1), (0xda, 2), (0xdb, 4)] b →
        kindOf b = .str) ∧
      (begins (fun _ => none)
          [(0xc4, 1), (0xc5, 2), (0xc6, 4)] b →
        kindOf b = .bin) ∧
      (begins (within 0 128) [(0xcc, 1), (0xcd, 2), (0xce, 4),
          (0xcf, 8)] b →
        kindOf b = .int ∧ beginsInt b = false) ∧
      (beginsInt b → kindOf b = .int) :=
  forall_byte (by decide +kernel)

theorem readMapHeader_takes :
    Takes .map readMapHeader :=
  readHeader_takes (fun b => (kindOf_begins b).1)

theorem readArrayHeader_takes :
    Takes .array readArrayHeader :=
  readHeader_takes (fun b => (kindOf_begins b).2.1)

theorem readStrBytes_takes :
    Takes .str readStrBytes :=
  (readHeader_takes
    (fun b => (kindOf_begins b).2.2.1)).bind _

theorem readStrBytes_front :
    Front readStrBytes :=
  readHeader_front.take

theorem readBinBytes_takes :
    Takes .bin readBinBytes :=
  (readHeader_takes
    (fun b => (kindOf_begins b).2.2.2.1)).bind _

theorem readBinBytes_front :
    Front readBinBytes :=
  readHeader_front.take

theorem readUintValue_takes :
    Takes .int readUintValue :=
  readHeader_takes (fun b hBegins =>
    ((kindOf_begins b).2.2.2.2.1 hBegins).1)

theorem readStrText_eq_ok_iff
    {m rest : Bytes}
    {text : Text} :
    readStrText m = .ok (text, rest) ↔
      ∃ data, readStrBytes m = .ok (data, rest) ∧
        Text.fromUtf8 data = some text := by
  unfold readStrText
  rw [bind_eq_ok_iff]
  constructor
  · rintro ⟨⟨data, out⟩, hBytes, hText⟩
    dsimp only at hText
    cases hDecoded : Text.fromUtf8 data with
    | none =>
        rw [hDecoded] at hText
        cases hText
    | some t =>
        rw [hDecoded] at hText
        cases hText
        exact ⟨data, hBytes, hDecoded⟩
  · rintro ⟨data, hBytes, hDecoded⟩
    refine ⟨(data, rest), hBytes, ?_⟩
    dsimp only
    rw [hDecoded]
    rfl

theorem readStrText_front :
    Front readStrText := by
  intro m text rest hRead
  rcases readStrText_eq_ok_iff.mp hRead with
    ⟨data, hBytes, hText⟩
  rcases readStrBytes_front m data rest hBytes with
    ⟨v, rfl, hLength, hAlways⟩
  exact ⟨v, rfl, hLength, fun rest' =>
    readStrText_eq_ok_iff.mpr ⟨data, hAlways rest', hText⟩⟩

/- A read of one byte. -/
theorem readBoolValue_eq_ok_iff
    {m rest : Bytes}
    {value : Bool} :
    readBoolValue m = .ok (value, rest) ↔
      m = (if value then 0xc3 else 0xc2) :: rest := by
  unfold readBoolValue
  split
  · cases value <;> simp [eq_comm]
  · cases value <;> simp [eq_comm]
  · rename_i hTrue hFalse
    refine iff_of_false (fun hOk => by cases hOk) ?_
    rintro rfl
    cases value with
    | true => exact hTrue rest rfl
    | false => exact hFalse rest rfl

theorem readBoolValue_takes :
    Takes .bool readBoolValue := by
  rintro m ⟨value, rest⟩ hRead
  refine ⟨_, rest, readBoolValue_eq_ok_iff.mp hRead, ?_⟩
  cases value with
  | true => decide
  | false => decide

theorem readBoolValue_front :
    Front readBoolValue := by
  intro m value rest hRead
  exact ⟨[if value then 0xc3 else 0xc2],
    readBoolValue_eq_ok_iff.mp hRead, Nat.le_refl 1,
    fun rest' => readBoolValue_eq_ok_iff.mpr rfl⟩

theorem readNilValue_eq_ok_iff
    {m rest : Bytes} :
    readNilValue m = .ok rest ↔ m = 0xc0 :: rest := by
  unfold readNilValue
  split
  · simp [eq_comm]
  · rename_i hOther
    refine iff_of_false (fun hOk => by cases hOk) ?_
    rintro rfl
    exact hOther rest rfl

theorem readNilValue_takes :
    Takes .nil readNilValue := by
  intro m rest hRead
  exact ⟨0xc0, rest, readNilValue_eq_ok_iff.mp hRead,
    by decide⟩

/-
  A signed number is one that a byte holds, one that follows
  it, or an unsigned one.
-/
theorem readIntValue_cons
    (b : UInt8)
    (m : Bytes) :
    readIntValue (b :: m) =
      if 0xe0 ≤ b.toNat then .ok (signed 8 b.toNat, m)
      else
        match intWidths.find? (fun w => w.1 = b.toNat) with
        | some (_, width) =>
            (takeBytes width m).map (fun r =>
              (signed (8 * width) (fromBeBytes r.1), r.2))
        | none =>
            (readUintValue (b :: m)).map
              (fun r => ((r.1 : Int), r.2)) := rfl

theorem readIntValue_takes :
    Takes .int readIntValue := by
  intro m a hRead
  cases m with
  | nil => cases hRead
  | cons b m =>
      refine ⟨b, m, rfl, ?_⟩
      have hSigned := (kindOf_begins b).2.2.2.2.2
      rw [readIntValue_cons] at hRead
      split_ifs at hRead with hByte
      · exact hSigned (by simp [beginsInt, hByte])
      · cases hFind : intWidths.find? (fun w =>
            w.1 = b.toNat) with
        | some w =>
            exact hSigned (by simp [beginsInt, hFind])
        | none =>
            rw [hFind] at hRead
            rcases map_eq_ok_iff.mp hRead with ⟨r, hUint, -⟩
            rcases readUintValue_takes _ r hUint with
              ⟨b', m', hSame, hKind⟩
            cases hSame
            exact hKind

theorem readIntValue_front :
    Front readIntValue := by
  intro m a rest hRead
  cases m with
  | nil => cases hRead
  | cons b m =>
      rw [readIntValue_cons] at hRead
      split_ifs at hRead with hByte
      · cases hRead
        refine ⟨[b], rfl, Nat.le_refl 1, fun rest' => ?_⟩
        rw [List.singleton_append, readIntValue_cons,
          if_pos hByte]
      · cases hFind : intWidths.find? (fun w =>
            w.1 = b.toNat) with
        | some w =>
            rw [hFind] at hRead
            rcases map_eq_ok_iff.mp hRead with
              ⟨⟨data, out⟩, hTake, hPair⟩
            cases hPair
            rcases takeBytes_eq_ok_iff.mp hTake with
              ⟨rfl, hData⟩
            refine ⟨b :: data, rfl,
              Nat.succ_le_succ (Nat.zero_le _),
              fun rest' => ?_⟩
            rw [List.cons_append, readIntValue_cons,
              if_neg hByte, hFind]
            exact map_eq_ok_iff.mpr ⟨(data, rest'),
              takeBytes_eq_ok_iff.mpr ⟨rfl, hData⟩, rfl⟩
        | none =>
            rw [hFind] at hRead
            rcases (Front.map readHeader_front
              (fun n : Nat => (n : Int))) (b :: m) a rest hRead
              with ⟨v, hFront, hLength, hAlways⟩
            cases v with
            | nil => cases hLength
            | cons b' v =>
                rw [List.cons_append, List.cons.injEq] at hFront
                rcases hFront with ⟨rfl, rfl⟩
                refine ⟨b :: v, rfl, hLength, fun rest' => ?_⟩
                rw [List.cons_append, readIntValue_cons,
                  if_neg hByte, hFind]
                exact hAlways rest'

/- An unsigned number is read as a signed one, too. -/
theorem readIntValue_of_uint
    {m rest : Bytes}
    {n : Nat}
    (hRead : readUintValue m = .ok (n, rest)) :
    readIntValue m = .ok ((n : Int), rest) := by
  cases m with
  | nil => cases hRead
  | cons b m =>
      have hUnsigned :=
        ((kindOf_begins b).2.2.2.2.1
          (readHeader_begins hRead)).2
      rw [beginsInt, Bool.or_eq_false_iff,
        decide_eq_false_iff_not, Option.isSome_eq_false_iff,
        Option.isNone_iff_eq_none] at hUnsigned
      rw [readIntValue_cons, if_neg hUnsigned.1, hUnsigned.2]
      exact map_eq_ok_iff.mpr ⟨(n, rest), hRead, rfl⟩

end Wire

end Trustd

------------------------------------------------------------
-- Skipping
------------------------------------------------------------

namespace Trustd

namespace Wire

open General

/- Of the reads that scalars have, the first that succeeds. -/
theorem skipScalar_cases
    {m rest : Bytes}
    (hSkip : skipScalar m = .ok rest) :
    readNilValue m = .ok rest ∨
      (∃ a, readBoolValue m = .ok (a, rest)) ∨
      (∃ a, readStrBytes m = .ok (a, rest)) ∨
      (∃ a, readBinBytes m = .ok (a, rest)) ∨
      ∃ a, readIntValue m = .ok (a, rest) := by
  unfold skipScalar at hSkip
  cases hNil : readNilValue m with
  | ok out =>
      rw [hNil] at hSkip
      exact Or.inl hSkip
  | error e =>
      rw [hNil] at hSkip
      right
      cases hBool : readBoolValue m with
      | ok r =>
          rw [hBool] at hSkip
          cases hSkip
          exact Or.inl ⟨r.1, rfl⟩
      | error e =>
          rw [hBool] at hSkip
          right
          cases hStr : readStrBytes m with
          | ok r =>
              rw [hStr] at hSkip
              cases hSkip
              exact Or.inl ⟨r.1, rfl⟩
          | error e =>
              rw [hStr] at hSkip
              right
              cases hBin : readBinBytes m with
              | ok r =>
                  rw [hBin] at hSkip
                  cases hSkip
                  exact Or.inl ⟨r.1, rfl⟩
              | error e =>
                  rw [hBin] at hSkip
                  right
                  rcases map_eq_ok_iff.mp hSkip with
                    ⟨r, hInt, rfl⟩
                  exact ⟨r.1, hInt⟩

theorem skipScalar_of_nil
    {m rest : Bytes}
    (hRead : readNilValue m = .ok rest) :
    skipScalar m = .ok rest := by
  rw [skipScalar, hRead]
  rfl

/- Each kind of scalar is left to the read of its kind. -/
theorem skipScalar_of_bool
    {m rest : Bytes}
    {a : Bool}
    (hRead : readBoolValue m = .ok (a, rest)) :
    skipScalar m = .ok rest := by
  rcases readBoolValue_takes m _ hRead with ⟨b, r, rfl, hKind⟩
  rcases readNilValue_takes.refuses (by rw [hKind]; decide) r
    with ⟨e, hNil⟩
  rw [skipScalar, hNil, hRead]
  rfl

theorem skipScalar_of_str
    {m rest data : Bytes}
    (hRead : readStrBytes m = .ok (data, rest)) :
    skipScalar m = .ok rest := by
  rcases readStrBytes_takes m _ hRead with ⟨b, r, rfl, hKind⟩
  rcases readNilValue_takes.refuses (by rw [hKind]; decide) r
    with ⟨e, hNil⟩
  rcases readBoolValue_takes.refuses (by rw [hKind]; decide) r
    with ⟨e', hBool⟩
  rw [skipScalar, hNil, hBool, hRead]
  rfl

theorem skipScalar_of_bin
    {m rest data : Bytes}
    (hRead : readBinBytes m = .ok (data, rest)) :
    skipScalar m = .ok rest := by
  rcases readBinBytes_takes m _ hRead with ⟨b, r, rfl, hKind⟩
  rcases readNilValue_takes.refuses (by rw [hKind]; decide) r
    with ⟨e, hNil⟩
  rcases readBoolValue_takes.refuses (by rw [hKind]; decide) r
    with ⟨e', hBool⟩
  rcases readStrBytes_takes.refuses (by rw [hKind]; decide) r
    with ⟨c, hStr⟩
  rw [skipScalar, hNil, hBool, hStr, hRead]
  rfl

theorem skipScalar_of_int
    {m rest : Bytes}
    {n : Int}
    (hRead : readIntValue m = .ok (n, rest)) :
    skipScalar m = .ok rest := by
  rcases readIntValue_takes m _ hRead with ⟨b, r, rfl, hKind⟩
  rcases readNilValue_takes.refuses (by rw [hKind]; decide) r
    with ⟨e, hNil⟩
  rcases readBoolValue_takes.refuses (by rw [hKind]; decide) r
    with ⟨e', hBool⟩
  rcases readStrBytes_takes.refuses (by rw [hKind]; decide) r
    with ⟨c, hStr⟩
  rcases readBinBytes_takes.refuses (by rw [hKind]; decide) r
    with ⟨b, hBin⟩
  rw [skipScalar, hNil, hBool, hStr, hBin, hRead]
  rfl

/- A scalar is taken off the front, whatever follows. -/
theorem skipScalar_front
    {m rest : Bytes}
    (hSkip : skipScalar m = .ok rest) :
    ∃ v, m = v ++ rest ∧ 1 ≤ v.length ∧
      ∀ rest', skipScalar (v ++ rest') = .ok rest' := by
  rcases skipScalar_cases hSkip with hNil | ⟨a, hBool⟩ |
    ⟨a, hStr⟩ | ⟨a, hBin⟩ | ⟨a, hInt⟩
  · exact ⟨[0xc0], readNilValue_eq_ok_iff.mp hNil,
      Nat.le_refl 1, fun rest' => skipScalar_of_nil
        (readNilValue_eq_ok_iff.mpr rfl)⟩
  · rcases readBoolValue_front m a rest hBool with
      ⟨v, hFront, hLength, hAlways⟩
    exact ⟨v, hFront, hLength, fun rest' =>
      skipScalar_of_bool (hAlways rest')⟩
  · rcases readStrBytes_front m a rest hStr with
      ⟨v, hFront, hLength, hAlways⟩
    exact ⟨v, hFront, hLength, fun rest' =>
      skipScalar_of_str (hAlways rest')⟩
  · rcases readBinBytes_front m a rest hBin with
      ⟨v, hFront, hLength, hAlways⟩
    exact ⟨v, hFront, hLength, fun rest' =>
      skipScalar_of_bin (hAlways rest')⟩
  · rcases readIntValue_front m a rest hInt with
      ⟨v, hFront, hLength, hAlways⟩
    exact ⟨v, hFront, hLength, fun rest' =>
      skipScalar_of_int (hAlways rest')⟩

theorem skipScalar_takes
    {m rest : Bytes}
    (hSkip : skipScalar m = .ok rest) :
    ∃ b r, m = b :: r ∧ kindOf b ≠ .map ∧
      kindOf b ≠ .array := by
  rcases skipScalar_cases hSkip with hNil | ⟨a, hBool⟩ |
    ⟨a, hStr⟩ | ⟨a, hBin⟩ | ⟨a, hInt⟩
  · rcases readNilValue_takes m _ hNil with ⟨b, r, rfl, hKind⟩
    exact ⟨b, r, rfl, by rw [hKind]; decide⟩
  · rcases readBoolValue_takes m _ hBool with
      ⟨b, r, rfl, hKind⟩
    exact ⟨b, r, rfl, by rw [hKind]; decide⟩
  · rcases readStrBytes_takes m _ hStr with ⟨b, r, rfl, hKind⟩
    exact ⟨b, r, rfl, by rw [hKind]; decide⟩
  · rcases readBinBytes_takes m _ hBin with ⟨b, r, rfl, hKind⟩
    exact ⟨b, r, rfl, by rw [hKind]; decide⟩
  · rcases readIntValue_takes m _ hInt with ⟨b, r, rfl, hKind⟩
    exact ⟨b, r, rfl, by rw [hKind]; decide⟩

/-
  What skipping takes off first: a header, and how many values
  that announces, or a scalar.
-/
def skipHead (m : Bytes) : Except Text (Nat × Bytes) :=
  match readMapHeader m, readArrayHeader m with
  | .ok (count, rest), _ => .ok (2 * count, rest)
  | _, .ok (count, rest) => .ok (count, rest)
  | _, _ => (skipScalar m).map (fun rest => (0, rest))

theorem skipHead_of_map
    {m rest : Bytes}
    {n : Nat}
    (hRead : readMapHeader m = .ok (n, rest)) :
    skipHead m = .ok (2 * n, rest) := by
  rw [skipHead, hRead]

theorem skipHead_of_array
    {m rest : Bytes}
    {n : Nat}
    (hRead : readArrayHeader m = .ok (n, rest)) :
    skipHead m = .ok (n, rest) := by
  rcases readArrayHeader_takes m _ hRead with
    ⟨b, r, rfl, hKind⟩
  rcases readMapHeader_takes.refuses (by rw [hKind]; decide) r
    with ⟨e, hMap⟩
  rw [skipHead, hMap, hRead]

theorem skipHead_of_scalar
    {m rest : Bytes}
    (hSkip : skipScalar m = .ok rest) :
    skipHead m = .ok (0, rest) := by
  rcases skipScalar_takes hSkip with
    ⟨b, r, rfl, hMapKind, hArrayKind⟩
  rcases readMapHeader_takes.refuses hMapKind r with ⟨e, hMap⟩
  rcases readArrayHeader_takes.refuses hArrayKind r with
    ⟨e', hArray⟩
  rw [skipHead, hMap, hArray, hSkip]
  rfl

theorem skipHead_cases
    {m rest : Bytes}
    {k : Nat}
    (hHead : skipHead m = .ok (k, rest)) :
    (∃ n, readMapHeader m = .ok (n, rest) ∧ k = 2 * n) ∨
      readArrayHeader m = .ok (k, rest) ∨
        (skipScalar m = .ok rest ∧ k = 0) := by
  unfold skipHead at hHead
  split at hHead
  · rename_i count out hMap
    cases hHead
    exact Or.inl ⟨count, hMap, rfl⟩
  · rename_i count out hArray _
    cases hHead
    exact Or.inr (Or.inl hArray)
  · rcases map_eq_ok_iff.mp hHead with ⟨out, hSkip, hPair⟩
    cases hPair
    exact Or.inr (Or.inr ⟨hSkip, rfl⟩)

theorem skipHead_front :
    Front skipHead := by
  intro m k rest hHead
  rcases skipHead_cases hHead with ⟨n, hMap, rfl⟩ | hArray |
    ⟨hSkip, rfl⟩
  · rcases readHeader_front m n rest hMap with
      ⟨v, hFront, hLength, hAlways⟩
    exact ⟨v, hFront, hLength, fun rest' =>
      skipHead_of_map (hAlways rest')⟩
  · rcases readHeader_front m k rest hArray with
      ⟨v, hFront, hLength, hAlways⟩
    exact ⟨v, hFront, hLength, fun rest' =>
      skipHead_of_array (hAlways rest')⟩
  · rcases skipScalar_front hSkip with
      ⟨v, hFront, hLength, hAlways⟩
    exact ⟨v, hFront, hLength, fun rest' =>
      skipHead_of_scalar (hAlways rest')⟩

/- One turn of the skipping. -/
theorem skipValues_succ
    {turns n : Nat}
    {m out : Bytes} :
    skipValues (turns + 1) (n + 1) m = .ok out ↔
      ∃ k rest, skipHead m = .ok (k, rest) ∧
        skipValues turns (k + n) rest = .ok out := by
  rw [skipValues]
  constructor
  · intro hSkip
    split at hSkip
    · rename_i count rest hMap
      exact ⟨2 * count, rest, skipHead_of_map hMap, hSkip⟩
    · rename_i count rest hArray _
      exact ⟨count, rest, skipHead_of_array hArray, hSkip⟩
    · cases hScalar : skipScalar m with
      | ok rest =>
          rw [hScalar] at hSkip
          refine ⟨0, rest, skipHead_of_scalar hScalar, ?_⟩
          rw [Nat.zero_add]
          exact hSkip
      | error e =>
          rw [hScalar] at hSkip
          cases hSkip
  · rintro ⟨k, rest, hHead, hSkip⟩
    unfold skipHead at hHead
    cases hMap : readMapHeader m with
    | ok r =>
        rw [hMap] at hHead
        cases hHead
        exact hSkip
    | error e =>
        rw [hMap] at hHead
        cases hArray : readArrayHeader m with
        | ok r =>
            rw [hArray] at hHead
            cases hHead
            exact hSkip
        | error e' =>
            rw [hArray] at hHead
            rcases map_eq_ok_iff.mp hHead with
              ⟨_, hScalar, hPair⟩
            cases hPair
            rw [Nat.zero_add] at hSkip
            rw [hScalar]
            exact hSkip

theorem skipValues_mono
    {turns more n : Nat}
    {m out : Bytes}
    (hMore : turns ≤ more)
    (hSkip : skipValues turns n m = .ok out) :
    skipValues more n m = .ok out := by
  induction turns generalizing more n m with
  | zero =>
      cases n with
      | zero =>
          rw [skipValues] at hSkip ⊢
          exact hSkip
      | succ n => cases hSkip
  | succ turns ih =>
      cases n with
      | zero =>
          rw [skipValues] at hSkip ⊢
          exact hSkip
      | succ n =>
          rcases skipValues_succ.mp hSkip with
            ⟨k, rest, hHead, hRest⟩
          cases more with
          | zero => cases hMore
          | succ more =>
              exact skipValues_succ.mpr ⟨k, rest, hHead,
                ih (Nat.le_of_succ_le_succ hMore) hRest⟩

/- As many turns as there are bytes are enough. -/
theorem skipValues_length
    {turns n : Nat}
    {m out : Bytes}
    (hSkip : skipValues turns n m = .ok out) :
    skipValues m.length n m = .ok out := by
  induction turns generalizing n m with
  | zero => exact skipValues_mono (Nat.zero_le _) hSkip
  | succ turns ih =>
      cases n with
      | zero =>
          rw [skipValues] at hSkip ⊢
          exact hSkip
      | succ n =>
          rcases skipValues_succ.mp hSkip with
            ⟨k, rest, hHead, hRest⟩
          have hTurn : skipValues (rest.length + 1) (n + 1) m =
              .ok out :=
            skipValues_succ.mpr ⟨k, rest, hHead, ih hRest⟩
          refine skipValues_mono ?_ hTurn
          rcases skipHead_front m k rest hHead with
            ⟨v, rfl, hLength, -⟩
          rw [List.length_append]
          omega

/- Skipping some values and then others. -/
theorem skipValues_add
    {turns turns' j n : Nat}
    {m mid out : Bytes}
    (hFirst : skipValues turns j m = .ok mid)
    (hSecond : skipValues turns' n mid = .ok out) :
    skipValues (turns + turns') (j + n) m = .ok out := by
  induction turns generalizing j m with
  | zero =>
      cases j with
      | zero =>
          rw [skipValues] at hFirst
          cases hFirst
          rw [Nat.zero_add, Nat.zero_add]
          exact hSecond
      | succ j => cases hFirst
  | succ turns ih =>
      cases j with
      | zero =>
          rw [skipValues] at hFirst
          cases hFirst
          rw [Nat.zero_add]
          exact skipValues_mono (Nat.le_add_left _ _) hSecond
      | succ j =>
          rcases skipValues_succ.mp hFirst with
            ⟨k, rest, hHead, hRest⟩
          rw [Nat.add_right_comm turns 1, Nat.add_right_comm j 1]
          refine skipValues_succ.mpr ⟨k, rest, hHead, ?_⟩
          rw [← Nat.add_assoc]
          exact ih hRest

/- What is skipped is taken off the front. -/
theorem skipValues_front
    {turns n : Nat}
    {m out : Bytes}
    (hSkip : skipValues turns n m = .ok out) :
    ∃ v, m = v ++ out ∧ n ≤ v.length ∧
      ∀ out', skipValues turns n (v ++ out') = .ok out' := by
  induction turns generalizing n m with
  | zero =>
      cases n with
      | zero =>
          cases hSkip
          exact ⟨[], rfl, Nat.le_refl 0, fun _ => rfl⟩
      | succ n => cases hSkip
  | succ turns ih =>
      cases n with
      | zero =>
          rw [skipValues] at hSkip
          cases hSkip
          exact ⟨[], rfl, Nat.le_refl 0, fun _ => by
            rw [skipValues]; rfl⟩
      | succ n =>
          rcases skipValues_succ.mp hSkip with
            ⟨k, rest, hHead, hRest⟩
          rcases skipHead_front m k rest hHead with
            ⟨v, rfl, hLength, hAlways⟩
          rcases ih hRest with ⟨w, rfl, hLength', hAlways'⟩
          refine ⟨v ++ w, (List.append_assoc v w out).symm, ?_,
            fun out' => ?_⟩
          · rw [List.length_append]
            omega
          · rw [List.append_assoc]
            exact skipValues_succ.mpr
              ⟨k, w ++ out', hAlways _, hAlways' out'⟩

end Wire

end Trustd

------------------------------------------------------------
-- MessagePack
------------------------------------------------------------

namespace Trustd

namespace Wire

open General

theorem skip_eq_ok_iff
    {m out : Bytes} :
    messagePack.skip m = .ok out ↔
      ∃ turns, skipValues turns 1 m = .ok out :=
  ⟨fun hSkip => ⟨m.length, hSkip⟩,
    fun ⟨_, hSkip⟩ => skipValues_length hSkip⟩

/- So many values, one after the other. -/
theorem exists_of_skipMany
    {n : Nat}
    {m out : Bytes}
    (hSkip : skipMany messagePack.skip n m = .ok out) :
    ∃ turns, skipValues turns n m = .ok out := by
  induction n generalizing m with
  | zero => exact ⟨0, hSkip⟩
  | succ n ih =>
      rw [skipMany, bind_eq_ok_iff] at hSkip
      rcases hSkip with ⟨mid, hOne, hRest⟩
      rcases skip_eq_ok_iff.mp hOne with ⟨turns, hFirst⟩
      rcases ih hRest with ⟨turns', hSecond⟩
      refine ⟨turns + turns', ?_⟩
      rw [Nat.add_comm n 1]
      exact skipValues_add hFirst hSecond

theorem skip_of_head
    {n : Nat}
    {m rest out : Bytes}
    (hHead : skipHead m = .ok (n, rest))
    (hSkip : skipMany messagePack.skip n rest = .ok out) :
    messagePack.skip m = .ok out := by
  rcases exists_of_skipMany hSkip with ⟨turns, hTurns⟩
  exact skip_eq_ok_iff.mpr ⟨turns + 1,
    skipValues_succ.mpr ⟨n, rest, hHead, hTurns⟩⟩

/- A scalar that is read is what is skipped. -/
theorem passes_of_scalar {α : Type}
    {p : Bytes → Except Text (α × Bytes)}
    (hFront : Front p)
    (hScalar : ∀ m a rest, p m = .ok (a, rest) →
      skipScalar m = .ok rest) :
    Passes messagePack.skip 1 p := by
  intro m a rest hRead
  rcases hFront m a rest hRead with
    ⟨v, rfl, hLength, hAlways⟩
  refine ⟨?_, v, rfl, hLength, hAlways⟩
  rw [skipMany_one]
  exact skip_of_head
    (skipHead_of_scalar (hScalar _ a rest hRead)) rfl

theorem framing_messagePack : Framing messagePack where
  skip := by
    rintro m a rest hRead
    rcases map_eq_ok_iff.mp hRead with ⟨out, hSkip, hPair⟩
    cases hPair
    rcases skipValues_front hSkip with
      ⟨v, hFront, hLength, hAlways⟩
    refine ⟨?_, v, hFront, hLength, fun rest' => ?_⟩
    · rw [skipMany_one]
      exact hSkip
    · exact map_eq_ok_iff.mpr ⟨rest', skip_eq_ok_iff.mpr
        ⟨m.length, hAlways rest'⟩, rfl⟩
  map := by
    intro m n rest hRead
    exact ⟨fun out hSkip =>
      skip_of_head (skipHead_of_map hRead) hSkip,
      readHeader_front m n rest hRead⟩
  array := by
    intro m n rest hRead
    exact ⟨fun out hSkip =>
      skip_of_head (skipHead_of_array hRead) hSkip,
      readHeader_front m n rest hRead⟩
  str := by
    refine passes_of_scalar readStrText_front ?_
    intro m text rest hRead
    rcases readStrText_eq_ok_iff.mp hRead with
      ⟨data, hBytes, -⟩
    exact skipScalar_of_str hBytes
  bool := passes_of_scalar readBoolValue_front
    (fun _ _ _ hRead => skipScalar_of_bool hRead)
  uint := passes_of_scalar readHeader_front
    (fun _ _ _ hRead => skipScalar_of_int
      (readIntValue_of_uint hRead))
  int := passes_of_scalar readIntValue_front
    (fun _ _ _ hRead => skipScalar_of_int hRead)
  bin := passes_of_scalar readBinBytes_front
    (fun _ _ _ hRead => skipScalar_of_bin hRead)
  nil := by
    refine passes_of_scalar ?_ ?_
    · intro m a rest hRead
      rcases map_eq_ok_iff.mp hRead with ⟨out, hNil, hPair⟩
      cases hPair
      exact ⟨[0xc0], readNilValue_eq_ok_iff.mp hNil,
        Nat.le_refl 1, fun rest' => map_eq_ok_iff.mpr
          ⟨rest', readNilValue_eq_ok_iff.mpr rfl, rfl⟩⟩
    · intro m a rest hRead
      rcases map_eq_ok_iff.mp hRead with ⟨out, hNil, hPair⟩
      cases hPair
      exact skipScalar_of_nil hNil
  peeksNil := fun _ _ _ => rfl

end Wire

end Trustd
