/-! Decimal numerals in ASCII digits. Leading zeros are allowed, and so is a plus
sign; a minus sign only where negative numbers exist. -/
namespace DeltaMatch
namespace Numeral

/-- The value of a digit. -/
def digitValue (c : Char) : Nat := c.toNat - '0'.toNat

/-- The value of a run of digits. -/
def valueOf (cs : List Char) : Nat := cs.foldl (fun n c => 10 * n + digitValue c) 0

/-- Reads a non-empty run of digits. -/
def digits? (cs : List Char) : Option Nat :=
  if !cs.isEmpty && cs.all Char.isDigit then some (valueOf cs) else none

/-- Reads a numeral below a bound. -/
def natural? (bound : Nat) (cs : List Char) : Option Nat :=
  let value := match cs with
    | '+' :: rest => digits? rest
    | _ => digits? cs
  value.filter (· < bound)

/-- Reads a signed numeral between two bounds, both included. -/
def integer? (low high : Int) (cs : List Char) : Option Int :=
  let value := match cs with
    | '+' :: rest => (digits? rest).map Int.ofNat
    | '-' :: rest => (digits? rest).map fun n => -Int.ofNat n
    | _ => (digits? cs).map Int.ofNat
  value.filter fun n => low ≤ n ∧ n ≤ high

/-- Reads a 32-bit number without a sign of its own. -/
def word32? (cs : List Char) : Option UInt32 := (natural? UInt32.size cs).map UInt32.ofNat

/-- Reads a 64-bit number without a sign of its own. -/
def word64? (cs : List Char) : Option Nat := natural? UInt64.size cs

/-- Reads a signed 16-bit number. -/
def int16? (cs : List Char) : Option Int16 :=
  (integer? Int16.minValue.toInt Int16.maxValue.toInt cs).map Int16.ofInt

end Numeral
end DeltaMatch
