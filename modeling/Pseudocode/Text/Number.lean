import Pseudocode.Text.Basic

/-! # Numbers in text -/

namespace Pseudocode.Text

/-- Value of a nonempty run of decimal digits. -/
def digits? (s : Text) : Option Nat :=
  if s.isEmpty || !s.all Char.isDigit then none
  else some (s.foldl (fun n c => 10 * n + (c.toNat - '0'.toNat)) 0)

/-- The first number beyond the signed words of 64 bits. -/
def signedLimit : Nat := 0x8000000000000000

/-- The first number beyond the unsigned words of 64 bits. -/
def unsignedLimit : Nat := 0x10000000000000000

/-- An integer with an optional sign that fits a signed word of 64 bits. -/
def signed64? (s : Text) : Option Int :=
  match s with
  | '-' :: ds => (digits? ds).bind fun n => if n ≤ signedLimit then some (-(n : Int)) else none
  | '+' :: ds => (digits? ds).bind fun n => if n < signedLimit then some (n : Int) else none
  | ds => (digits? ds).bind fun n => if n < signedLimit then some (n : Int) else none

/-- A natural number with an optional plus sign that fits an unsigned word of 64 bits. -/
def unsigned64? (s : Text) : Option Nat :=
  (digits? ((after? "+" s).getD s)).bind fun n => if n < unsignedLimit then some n else none

def ofNat (n : Nat) : Text := Nat.toDigits 10 n

def ofInt : Int → Text
  | .ofNat n => ofNat n
  | .negSucc n => '-' :: ofNat (n + 1)

/-- The rest of a decimal after its mantissa: nothing, or a signed power of ten. -/
def isExponent (s : Text) : Bool :=
  match s with
  | [] => true
  | e :: '+' :: ds => (e == 'e' || e == 'E') && (digits? ds).isSome
  | e :: '-' :: ds => (e == 'e' || e == 'E') && (digits? ds).isSome
  | e :: ds => (e == 'e' || e == 'E') && (digits? ds).isSome

/-- An unsigned decimal: digits with at most one point among them and at least one digit, then an
optional exponent. -/
def isDecimal (s : Text) : Bool :=
  let whole := s.takeWhile Char.isDigit
  match s.dropWhile Char.isDigit with
  | '.' :: r =>
    (!whole.isEmpty || !(r.takeWhile Char.isDigit).isEmpty) && isExponent (r.dropWhile Char.isDigit)
  | r => !whole.isEmpty && isExponent r

end Pseudocode.Text
