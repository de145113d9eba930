/-! Decimal numerals for 64-bit words: an optional plus sign, then digits. -/
namespace EditHistory
namespace Decimal

/-- The number of 64-bit words. -/
def wordLimit : Nat := 0x10000000000000000

inductive Fault where
  | empty
  | badDigit
  | tooLarge
deriving DecidableEq, Repr

def Fault.message : Fault → String
  | .empty => "cannot parse integer from empty string"
  | .badDigit => "invalid digit found in string"
  | .tooLarge => "number too large to fit in target type"

/-- Reads digits after the value `acc`; the first of a bad digit and an overflow is reported. -/
def readDigits (acc : Nat) : List Char → Except Fault Nat
  | [] => .ok acc
  | c :: rest =>
    if !c.isDigit then .error .badDigit
    else
      let value := acc * 10 + (c.toNat - 48)
      if value < wordLimit then readDigits value rest else .error .tooLarge

def read : List Char → Except Fault Nat
  | [] => .error .empty
  | ['+'] => .error .badDigit
  | '+' :: c :: rest => readDigits 0 (c :: rest)
  | c :: rest => readDigits 0 (c :: rest)

end Decimal
end EditHistory
