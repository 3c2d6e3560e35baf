import Avii.Text.Digit
import Avii.Text.Index
import Avii.Value.Fault
import Avii.Value.Show

/-!
# Members

Objects are read by key, arrays and strings by index. A key or index that is not there gives null;
one of the wrong type fails, and so does reading a member of any other value.
-/

namespace Avii

/-- The most digits that an index written as a string may have. -/
def indexDigits : Nat := 4300

namespace Value

/-- The slot that a value names. -/
def objectKey : Value → Except Fault String
  | string s => .ok s
  | number x => .ok x.display
  | v => .error (.of (.badObjectKey v.type))

/-- The index that a value names: a whole number, or a string of digits. A negative number names no
index. -/
def sequenceIndex : Value → Except Fault (Option Nat)
  | number x =>
    if !x.isInteger then .error (.of (.indexNotWhole x.display))
    else if x.isNegative && !x.isZero then .ok none
    else .ok (some x.whole)
  | string s =>
    let ds := s.toList
    if !ds.isEmpty && ds.all Text.isAsciiDigit then
      if indexDigits < ds.length then .error (.domain .indexTooLong)
      else .ok (some (Text.natOfDigits ds))
    else .error (.of (.indexNotNumeric s))
  | v => .error (.of (.badIndex v.type))

/-- A member of a value. -/
def member (target key : Value) : Except Fault Value :=
  match target with
  | object slots => (objectKey key).map fun k => (getSlot? slots k).getD null
  | array items => (sequenceIndex key).map fun i => (i.bind (items[·]?)).getD null
  | string s =>
    (sequenceIndex key).map fun i =>
      ((i.bind (Text.charAt? s)).map fun c => string (String.ofList [c])).getD null
  | v => .error (.of (.noMembers v.type))

/-- How many items an array, slots an object or characters a string has. -/
def length (v : Value) : Except Fault Value :=
  match v with
  | string s => .ok (number (.ofNat s.length))
  | array items => .ok (number (.ofNat items.length))
  | object slots => .ok (number (.ofNat slots.length))
  | v => .error (.of (.noLength v.type))

end Value

end Avii
