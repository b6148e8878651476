/-!
# Numerals

Unsigned decimal numbers as they stand in line-number attributes, clause arguments and options:
an optional plus sign and at least one of the digits `0` to `9`, denoting a number below a given
limit.
-/

namespace LoopDirectives.Text

/-- The value of a digit in a base up to sixteen, letters in either case. -/
def digit? (base : Nat) (c : Char) : Option Nat :=
  let value? :=
    if '0' ≤ c && c ≤ '9' then some (c.toNat - '0'.toNat)
    else if 'a' ≤ c && c ≤ 'f' then some (c.toNat - 'a'.toNat + 10)
    else if 'A' ≤ c && c ≤ 'F' then some (c.toNat - 'A'.toNat + 10)
    else none
  value?.filter (· < base)

/-- The value of a run of digits; nothing for the empty run or another character. -/
def readDigits? (base : Nat) : List Char → Option Nat
  | [] => none
  | digits => digits.foldlM (fun value c => (digit? base c).map (value * base + ·)) 0

def character? (code : Nat) : Option Char :=
  if h : code.isValidChar then some (Char.ofNatAux code h) else none

/-- One more than the greatest number that a word of so many bits holds. -/
def wordLimit (bits : Nat) : Nat :=
  Nat.pow 2 bits

/-- The number that a decimal numeral below `limit` denotes, a leading plus sign allowed. -/
def readNatural? (limit : Nat) (text : List Char) : Option Nat :=
  let digits :=
    match text with
    | '+' :: rest => rest
    | _ => text
  (readDigits? 10 digits).filter (· < limit)

end LoopDirectives.Text
