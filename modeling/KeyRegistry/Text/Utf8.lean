/-!
# UTF-8

`encode` writes each character in one to four bytes. `pieces` cuts any bytes
into characters and faults: a fault is a longest start of a character that the
next byte does not continue, or a byte that starts none. A lossy reading shows
each fault as one replacement character, a strict one refuses it.
-/

namespace KeyRegistry.Text.Utf8

def encodeChar (c : Char) : List UInt8 :=
  let n := c.toNat
  if n < 0x80 then [n.toUInt8]
  else if n < 0x800 then [(0xc0 + n / 64).toUInt8, (0x80 + n % 64).toUInt8]
  else if n < 0x10000 then
    [(0xe0 + n / 4096).toUInt8, (0x80 + n / 64 % 64).toUInt8, (0x80 + n % 64).toUInt8]
  else
    [(0xf0 + n / 262144).toUInt8, (0x80 + n / 4096 % 64).toUInt8, (0x80 + n / 64 % 64).toUInt8,
      (0x80 + n % 64).toUInt8]

def encode (s : String) : List UInt8 :=
  s.toList.flatMap encodeChar

/-- What a first byte above ASCII asks for: its share of the code point, the
bounds of the second byte, and the number of bytes after that. -/
structure Lead where
  share : Nat
  low : Nat
  high : Nat
  more : Nat

def lead? (a : Nat) : Option Lead :=
  if 0xc2 ≤ a ∧ a ≤ 0xdf then some ⟨a - 0xc0, 0x80, 0xbf, 0⟩
  else if a = 0xe0 then some ⟨0, 0xa0, 0xbf, 1⟩
  else if a = 0xed then some ⟨0xd, 0x80, 0x9f, 1⟩
  else if 0xe1 ≤ a ∧ a ≤ 0xef then some ⟨a - 0xe0, 0x80, 0xbf, 1⟩
  else if a = 0xf0 then some ⟨0, 0x90, 0xbf, 2⟩
  else if 0xf1 ≤ a ∧ a ≤ 0xf3 then some ⟨a - 0xf0, 0x80, 0xbf, 2⟩
  else if a = 0xf4 then some ⟨4, 0x80, 0x8f, 2⟩
  else none

def isTail (b : UInt8) : Bool := 0x80 ≤ b.toNat && b.toNat ≤ 0xbf

def tailBits (b : UInt8) : Nat := b.toNat - 0x80

/-- The characters of the bytes in order, with `none` for each fault. -/
def pieces : List UInt8 → List (Option Char)
  | [] => []
  | a :: r =>
    if a.toNat < 0x80 then some (Char.ofNat a.toNat) :: pieces r
    else match lead? a.toNat with
      | none => none :: pieces r
      | some l =>
        match r with
        | [] => [none]
        | b :: r1 =>
          if b.toNat < l.low ∨ l.high < b.toNat then none :: pieces (b :: r1)
          else
            let n := l.share * 64 + tailBits b
            if l.more = 0 then some (Char.ofNat n) :: pieces r1
            else match r1 with
              | [] => [none]
              | c :: r2 =>
                if !isTail c then none :: pieces (c :: r2)
                else
                  let n := n * 64 + tailBits c
                  if l.more = 1 then some (Char.ofNat n) :: pieces r2
                  else match r2 with
                    | [] => [none]
                    | d :: r3 =>
                      if !isTail d then none :: pieces (d :: r3)
                      else some (Char.ofNat (n * 64 + tailBits d)) :: pieces r3

def replacement : Char := Char.ofNat 0xfffd

def decodeLossy (bytes : List UInt8) : String :=
  String.ofList ((pieces bytes).map (·.getD replacement))

def decode? (bytes : List UInt8) : Option String :=
  ((pieces bytes).mapM id).map String.ofList

@[simp] theorem pieces_nil : pieces [] = [] := by simp [pieces]

end KeyRegistry.Text.Utf8
