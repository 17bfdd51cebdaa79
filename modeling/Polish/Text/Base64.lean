import Polish.Bytes

/-!
# Base64

Bytes written with 64 letters: four letters stand for three bytes. The last group may stand for fewer
and is filled up with equals signs. Line ends between the letters do not count.

* `Base64.decode?`: the bytes that a text stands for.
-/

namespace Polish.Base64

/-- The value of a letter. -/
def letter? (b : UInt8) : Option Nat :=
  if 0x41 ≤ b && b ≤ 0x5A then some (b.toNat - 0x41)
  else if 0x61 ≤ b && b ≤ 0x7A then some (b.toNat - 0x61 + 26)
  else if 0x30 ≤ b && b ≤ 0x39 then some (b.toNat - 0x30 + 52)
  else if b = 0x2B then some 62
  else if b = 0x2F then some 63
  else none

/-- The filling at the end of the last group. -/
def filling : UInt8 := 0x3D

/-- The first `count` of the three bytes that four letters stand for. -/
def group (count : Nat) (a b c d : Nat) : Bytes :=
  let n := ((a * 64 + b) * 64 + c) * 64 + d
  [(n / 65536).toUInt8, (n / 256).toUInt8, n.toUInt8].take count

/-- The bytes of letters without line ends. -/
def decodeGroups? : Bytes → Option Bytes
  | [] => some []
  | a :: b :: c :: d :: rest => do
    let x ← letter? a
    let y ← letter? b
    if c = filling then if d = filling && rest.isEmpty then some (group 1 x y 0 0) else none
    else
      let z ← letter? c
      if d = filling then if rest.isEmpty then some (group 2 x y z 0) else none
      else
        let w ← letter? d
        return group 3 x y z w ++ (← decodeGroups? rest)
  | _ => none

/-- The bytes that a text stands for, if it is Base64. -/
def decode? (text : Bytes) : Option Bytes :=
  decodeGroups? (text.filter fun b => b ≠ 0x0A && b ≠ 0x0D)

end Polish.Base64
