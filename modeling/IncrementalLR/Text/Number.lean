namespace IncrementalLR.Text

-- The least numbers that do not fit into 32 and 64 bits.
def bound32 : Nat := 4294967296

def bound64 : Nat := 18446744073709551616

-- The value of decimal digits, the highest first.
def digitsValue (digits : List Char) : Nat :=
  digits.foldl (fun value digit => 10 * value + (digit.toNat - '0'.toNat)) 0

-- A number below a bound, if the text is nothing but its digits.
def readDigits? (bound : Nat) (digits : List Char) : Option Nat :=
  let value := digitsValue digits
  if !digits.isEmpty && digits.all Char.isDigit && value < bound then some value else none

-- Digits with or without a plus sign before them.
def readNumber? (bound : Nat) : List Char → Option Nat
  | '+' :: digits => readDigits? bound digits
  | digits => readDigits? bound digits

end IncrementalLR.Text
