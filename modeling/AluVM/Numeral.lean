import AluVM.Integer
import AluVM.Text.Case
import AluVM.Text.Digit

/-! # Numerals

Integers as text: how a report writes them, and how the text of a number is read. Decimal
numerals of more than `maxDigits` digits are neither read nor written. -/

namespace AluVM.Numeral

/-! ### Writing -/

/-- The greatest number of digits of a decimal numeral. -/
def maxDigits : Nat := 4300

/-- The least number with too many digits to be written. -/
def firstOverlong : Nat := Nat.pow 10 maxDigits

/-- Whether the integer has too many digits to be written in decimal. -/
def isOverlong (v : Int) : Bool := firstOverlong ≤ v.natAbs

/-- The text in place of an integer with too many digits to be written. -/
def overlongText : String :=
  "Exceeds the limit (4300 digits) for integer string conversion; " ++
    "use sys.set_int_max_str_digits() to increase the limit"

/-- Decimal text of an integer. -/
def decimal (v : Int) : String := toString v

/-- The last `2 ^ k` hexadecimal digits of a number. The number is halved again and again, so
that long ones are written fast. -/
def hexBlock : (k : Nat) → (n : Nat) → List Char
  | 0, n => [Nat.digitChar (n % 16)]
  | k + 1, n => hexBlock k (n / 16 ^ 2 ^ k) ++ hexBlock k (n % 16 ^ 2 ^ k)

/-- The hexadecimal digits of a number: those of a block that is large enough, without its
leading zeros. -/
def hexDigits (n : Nat) : List Char :=
  match (hexBlock ((n.log2 / 4 + 1).log2 + 1) n).dropWhile (· = '0') with
  | [] => ['0']
  | ds => ds

/-- Hexadecimal text with the mark `0x` after the sign, filled with zeros up to `width`
characters in all. -/
def hexWide (width : Nat) (v : Int) : String :=
  let sign := if v < 0 then ['-'] else []
  let ds := hexDigits v.natAbs
  String.ofList (sign ++ ['0', 'x'] ++
    List.replicate (width - (sign.length + 2 + ds.length)) '0' ++ ds)

/-- Hexadecimal text with the mark `0x` after the sign. -/
def hex (v : Int) : String := hexWide 0 v

/-! ### Reading -/

/-- The number whose digits in `base` are given, most significant first. -/
def ofDigits (base : Nat) (ds : List Nat) : Nat := ds.foldl (fun n d => base * n + d) 0

/-- Joins neighbours among digits, least significant first, to digits in the square of the base. -/
def pairDigits (base : Nat) : List Nat → List Nat
  | low :: high :: ds => (low + base * high) :: pairDigits base ds
  | ds => ds

/-- The number whose digits in `base` are given, least significant first. Neighbours are joined
in every round, so that long numbers are read fast; after the given number of rounds the rest is
added up one by one. -/
def joinDigits : (rounds base : Nat) → List Nat → Nat
  | 0, base, ds => ds.foldr (fun d n => base * n + d) 0
  | rounds + 1, base, ds => joinDigits rounds (base * base) (pairDigits base ds)

theorem foldr_pairDigits (base : Nat) (ds : List Nat) :
    (pairDigits base ds).foldr (fun d n => base * base * n + d) 0 =
      ds.foldr (fun d n => base * n + d) 0 := by
  fun_induction pairDigits base ds with
  | case1 low high ds ih =>
    rw [List.foldr_cons, ih, List.foldr_cons, List.foldr_cons, Nat.mul_add, Nat.mul_assoc]
    omega
  | case2 ds h =>
    match ds, h with
    | [], _ => rfl
    | [d], _ => simp
    | low :: high :: ds, h => exact absurd rfl (h low high ds)

theorem joinDigits_eq_foldr (rounds base : Nat) (ds : List Nat) :
    joinDigits rounds base ds = ds.foldr (fun d n => base * n + d) 0 := by
  induction rounds generalizing base ds with
  | zero => rfl
  | succ rounds ih => rw [joinDigits, ih, foldr_pairDigits]

/-- Joining digits gives the number that they denote. -/
theorem joinDigits_reverse (rounds base : Nat) (ds : List Nat) :
    joinDigits rounds base ds.reverse = ofDigits base ds := by
  rw [joinDigits_eq_foldr, List.foldr_reverse, ofDigits]

/-- The value of a digit of any script, or of a lower-case letter taken as a digit above nine. -/
def digit? (c : Char) : Option Nat :=
  match Text.digitValue? c with
  | some d => some d
  | none => if 'a' ≤ c && c ≤ 'z' then some (c.toNat - 'a'.toNat + 10) else none

/-- Whether underscores stand only between other characters, of which `previous` comes before. -/
def separated (previous : Char) : List Char → Bool
  | [] => previous ≠ '_'
  | c :: cs => !(previous = '_' && c = '_') && separated c cs

/-- The value of a digit in `base`. -/
def digitIn? (base : Nat) (c : Char) : Option Nat := (digit? c).filter (· < base)

/-- The digits of a numeral in `base`: at least one, with single underscores allowed between
them. -/
def digits? (base : Nat) (cs : List Char) : Option (List Nat) :=
  if separated '_' cs then (cs.filter (· ≠ '_')).mapM (digitIn? base) else none

/-- The letter that marks a base after a zero. -/
def markOf (base : Nat) : Option Char :=
  if base = 16 then some 'x' else if base = 8 then some 'o' else if base = 2 then some 'b' else none

/-- Drops the mark of the base, a zero and its letter, and an underscore after it. -/
def dropMark (base : Nat) (cs : List Char) : List Char :=
  match cs with
  | zero :: letter :: rest =>
    if Text.digitValue? zero = some 0 && some letter = markOf base then
      match rest with
      | '_' :: rest => rest
      | _ => rest
    else cs
  | _ => cs

/-- The characters without those of a class at either end. -/
def trim (drop : Char → Bool) (cs : List Char) : List Char :=
  ((cs.dropWhile drop).reverse.dropWhile drop).reverse

/-- Whether a character may surround a numeral: of the ASCII characters only the blanks of the C
locale may. -/
def isMargin (c : Char) : Bool := Text.isAsciiBlank c || (128 ≤ c.toNat && Text.isBlank c)

/-- The integer written in `base`: blanks around, one sign, the mark of the base, then digits. -/
def readIn (base : Nat) (cs : List Char) : Except NumberError Int :=
  let cs := trim isMargin cs
  let (negative, cs) :=
    match cs with
    | '-' :: rest => (true, rest)
    | '+' :: rest => (false, rest)
    | _ => (false, cs)
  match digits? base (dropMark base cs) with
  | none => .error .unreadable
  | some ds =>
    if base = 10 && maxDigits < ds.length then .error .overlong
    else
      let n := joinDigits ds.length.log2 base ds.reverse
      .ok (if negative then -(n : Int) else n)

/-- The base that a numeral announces, and what follows the announcement. -/
def splitBase (cs : List Char) : Nat × List Char :=
  match cs with
  | '0' :: 'x' :: rest => (16, rest)
  | '0' :: 'b' :: rest => (2, rest)
  | '0' :: 'o' :: rest => (8, rest)
  | _ => (10, cs)

/-- The integer that a text denotes: blanks around and letter case do not matter, a leading minus
makes it negative, further signs are dropped, and `0x`, `0b`, `0o` announce the base. -/
def read (text : String) : Except NumberError Int := do
  let cs := Text.lowerChars (Text.stripChars text.toList)
  let (base, rest) := splitBase (cs.dropWhile fun c => c = '+' || c = '-')
  let v ← readIn base rest
  return if cs.head? = some '-' then -v else v

end AluVM.Numeral
