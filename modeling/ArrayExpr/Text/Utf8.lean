/-!
UTF-8. `decode` reads a sequence of bytes as text, or names the first defect: the range of bytes
that cannot be read and what is wrong with it.
-/

namespace ArrayExpr.Text.Utf8

/-- What is wrong with a range of bytes. -/
inductive Reason where
  | invalidStart
  | invalidContinuation
  | unexpectedEnd
  deriving DecidableEq, Repr

/-- The first bytes that cannot be read: their positions from `start` up to but not including
`stop`, and the first of them. -/
structure Defect where
  reason : Reason
  start : Nat
  stop : Nat
  byte : Nat
  deriving DecidableEq, Repr

/-- How many bytes follow a first byte, and the bounds of the one right after it. -/
def following? (b : Nat) : Option (Nat × Nat × Nat) :=
  if b < 0x80 then some (0, 0x80, 0xbf)
  else if b < 0xc2 then none
  else if b < 0xe0 then some (1, 0x80, 0xbf)
  else if b == 0xe0 then some (2, 0xa0, 0xbf)
  else if b == 0xed then some (2, 0x80, 0x9f)
  else if b < 0xf0 then some (2, 0x80, 0xbf)
  else if b == 0xf0 then some (3, 0x90, 0xbf)
  else if b == 0xf4 then some (3, 0x80, 0x8f)
  else if b < 0xf4 then some (3, 0x80, 0xbf)
  else none

/-- The bits of a first byte that belong to the character. -/
def leadBits (b follow : Nat) : Nat :=
  match follow with
  | 0 => b
  | 1 => b % 0x20
  | 2 => b % 0x10
  | _ => b % 0x08

/-- Reads the continuation bytes of one character; `low` and `high` bound the next byte and `taken`
counts the bytes read so far. On success the character's number. -/
def continuation (taken : Nat) : (follow low high acc : Nat) → List Nat → Except (Reason × Nat) Nat
  | 0, _, _, acc, _ => .ok acc
  | _ + 1, _, _, _, [] => .error (.unexpectedEnd, taken)
  | follow + 1, low, high, acc, b :: bs =>
    if low ≤ b && b ≤ high then
      continuation (taken + 1) follow 0x80 0xbf (acc * 64 + b % 64) bs
    else .error (.invalidContinuation, taken)

/-- Reads the text of the bytes from position `pos` on; `skip` of them belong to a character that
has been read already. -/
def decodeFrom (pos : Nat) : (skip : Nat) → List Nat → Except Defect (List Char)
  | _, [] => .ok []
  | skip + 1, _ :: bs => decodeFrom (pos + 1) skip bs
  | 0, b :: bs =>
    match following? b with
    | none => .error ⟨.invalidStart, pos, pos + 1, b⟩
    | some (follow, low, high) =>
      match continuation 1 follow low high (leadBits b follow) bs with
      | .error (reason, taken) => .error ⟨reason, pos, pos + taken, b⟩
      | .ok n =>
        match decodeFrom (pos + 1) follow bs with
        | .error d => .error d
        | .ok cs => .ok (Char.ofNat n :: cs)

/-- The text that a sequence of bytes stands for. -/
def decode (bytes : List Nat) : Except Defect (List Char) :=
  decodeFrom 0 0 bytes

end ArrayExpr.Text.Utf8
