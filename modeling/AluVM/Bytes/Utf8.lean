import AluVM.Bytes

/-! # UTF-8

Text is written as UTF-8. Reading is strict: a byte string that is not the UTF-8 form of a text
is refused with the place and the extent of the first bad sequence. -/

namespace AluVM.Bytes

/-- The UTF-8 form of a text. -/
def ofText (s : String) : Bytes := s.toList.flatMap String.utf8EncodeChar

/-- What is wrong with a sequence of bytes. -/
inductive Utf8Fault where
  /-- No character starts with this byte. -/
  | invalidStart
  /-- The character that starts here goes on with a wrong byte. -/
  | invalidContinuation
  /-- The bytes end within a character. -/
  | unexpectedEnd
  deriving DecidableEq, Repr

/-- The first bad sequence of a byte string: its position, its bytes and what is wrong with it. -/
structure Utf8Error where
  position : Nat
  bytes : Bytes
  fault : Utf8Fault
  deriving DecidableEq, Repr

/-- Whether the byte continues a character. -/
def isContinuation (b : UInt8) : Bool := 0x80 ≤ b && b ≤ 0xbf

/-- Whether `second` may follow the first byte `first` of a character of three or four bytes:
overlong forms, surrogates and code points past the last one are excluded here. -/
def isSecond (first second : UInt8) : Bool :=
  isContinuation second &&
    (if first = 0xe0 then 0xa0 ≤ second
     else if first = 0xed then second < 0xa0
     else if first = 0xf0 then 0x90 ≤ second
     else if first = 0xf4 then second < 0x90
     else true)

/-- The character with the given payload bits: those of the first byte, then six of each other. -/
def ofPayload (first : Nat) (others : List UInt8) : Char :=
  Char.ofNat (others.foldl (fun n b => 64 * n + b.toNat % 64) first)

/-- Reads characters from position `pos` on, after those of `done`, which are in reverse order. -/
def decodeFrom (done : List Char) (pos : Nat) : Bytes → Except Utf8Error (List Char)
  | [] => .ok done.reverse
  | a :: s =>
    if a < 0x80 then decodeFrom (ofPayload a.toNat [] :: done) (pos + 1) s
    else if a < 0xc2 then .error ⟨pos, [a], .invalidStart⟩
    else if a < 0xe0 then
      match s with
      | [] => .error ⟨pos, [a], .unexpectedEnd⟩
      | b :: s =>
        if isContinuation b then decodeFrom (ofPayload (a.toNat % 32) [b] :: done) (pos + 2) s
        else .error ⟨pos, [a], .invalidContinuation⟩
    else if a < 0xf0 then
      match s with
      | [] => .error ⟨pos, [a], .unexpectedEnd⟩
      | b :: s =>
        if !isSecond a b then .error ⟨pos, [a], .invalidContinuation⟩
        else
          match s with
          | [] => .error ⟨pos, [a, b], .unexpectedEnd⟩
          | c :: s =>
            if isContinuation c then
              decodeFrom (ofPayload (a.toNat % 16) [b, c] :: done) (pos + 3) s
            else .error ⟨pos, [a, b], .invalidContinuation⟩
    else if a < 0xf5 then
      match s with
      | [] => .error ⟨pos, [a], .unexpectedEnd⟩
      | b :: s =>
        if !isSecond a b then .error ⟨pos, [a], .invalidContinuation⟩
        else
          match s with
          | [] => .error ⟨pos, [a, b], .unexpectedEnd⟩
          | c :: s =>
            if !isContinuation c then .error ⟨pos, [a, b], .invalidContinuation⟩
            else
              match s with
              | [] => .error ⟨pos, [a, b, c], .unexpectedEnd⟩
              | d :: s =>
                if isContinuation d then
                  decodeFrom (ofPayload (a.toNat % 8) [b, c, d] :: done) (pos + 4) s
                else .error ⟨pos, [a, b, c], .invalidContinuation⟩
    else .error ⟨pos, [a], .invalidStart⟩

/-- The characters whose UTF-8 form is given. -/
def decodeChars (bs : Bytes) : Except Utf8Error (List Char) := decodeFrom [] 0 bs

/-- The text whose UTF-8 form is given. -/
def toText (bs : Bytes) : Except Utf8Error String := (decodeChars bs).map String.ofList

/-- What a bad sequence is called in reports. -/
def Utf8Fault.reason : Utf8Fault → String
  | .invalidStart => "invalid start byte"
  | .invalidContinuation => "invalid continuation byte"
  | .unexpectedEnd => "unexpected end of data"

/-- The report on a bad sequence: the byte itself if it is alone, else the positions it takes. -/
def Utf8Error.message (e : Utf8Error) : String :=
  let place :=
    match e.bytes with
    | [b] => "byte 0x" ++ toHex [b] ++ " in position " ++ toString e.position
    | bs =>
      "bytes in position " ++ toString e.position ++ "-" ++ toString (e.position + bs.length - 1)
  "'utf-8' codec can't decode " ++ place ++ ": " ++ e.fault.reason

end AluVM.Bytes
