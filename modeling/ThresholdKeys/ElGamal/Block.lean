import ThresholdKeys.Cause
import ThresholdKeys.Number.Checked

/-!
# Plaintext blocks

A message is put into a block of a fixed length as `00 01 ff … ff 00` followed by the message. The
first octet keeps the value of a block as long as the order of a group below that order, the second
one keeps it above zero.
-/

namespace ThresholdKeys.Block

/-- The block of `length` octets that holds a message. -/
def pad (message : Bytes) (length : Nat) : Outcome ArithmeticError Bytes :=
  if length < 3 then .error .messageTooLong
  else do
    let room ← Checked.sub length 3
    if room < message.length then throw .messageTooLong
    else
      let filler ← Checked.sub room message.length
      return 0x00 :: 0x01 :: List.replicate filler 0xff ++ 0x00 :: message

/-- What follows the filler and the zero after it. -/
def afterFiller : Bytes → Outcome ArithmeticError Bytes
  | [] => .error .badPadding
  | x :: rest =>
    if x = 0x00 then .ok rest
    else if x = 0xff then afterFiller rest
    else .error .badPadding

/-- The message that a block holds. -/
def unpad : Bytes → Outcome ArithmeticError Bytes
  | x :: y :: rest => if x = 0x00 ∧ y = 0x01 then afterFiller rest else .error .badPadding
  | _ => .error .badPadding

end ThresholdKeys.Block
