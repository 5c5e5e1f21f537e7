import IosEmu.Endian

/-!
# Lossy UTF-8

`fromUtf8Lossy` decodes a byte string the way `String::from_utf8_lossy` does : well-formed
sequences become their character, and every maximal ill-formed prefix of a sequence
becomes one U+FFFD. `utf8Head` decodes the head of the string and says how many bytes it
took. The second byte of a sequence has a range of its own where the first byte would
otherwise allow an overlong form, a surrogate or a value past U+10FFFF
(`secondByteRange`).
-/

namespace SysLib

/-- The replacement character. -/
def replacementChar : Char :=
  Char.ofNat 0xfffd

/-- A continuation byte. -/
def isContinuation (b : Byte) : Bool :=
  0x80 ≤ b.toNat && b.toNat ≤ 0xbf

/-- The bytes that may follow a first byte of a sequence of three or four bytes. -/
def secondByteRange (b : Byte) : ℕ × ℕ :=
  if b = 0xe0 then (0xa0, 0xbf)
  else if b = 0xed then (0x80, 0x9f)
  else if b = 0xf0 then (0x90, 0xbf)
  else if b = 0xf4 then (0x80, 0x8f)
  else (0x80, 0xbf)

/-- `b` may follow `first`. -/
def isSecondByte (first b : Byte) : Bool :=
  (secondByteRange first).1 ≤ b.toNat && b.toNat ≤ (secondByteRange first).2

/-- The character of the payload bits of a sequence. -/
def joinBits (first : ℕ) (rest : List Byte) : Char :=
  Char.ofNat (rest.foldl (fun acc b => acc * 64 + b.toNat % 64) first)

/-- The character at the head of a byte string, and how many bytes it takes. -/
def utf8Head : List Byte → Option (Char × ℕ)
  | [] => none
  | b :: l =>
    some <|
      if b.toNat < 0x80 then (Char.ofNat b.toNat, 1)
      else if 0xc2 ≤ b.toNat ∧ b.toNat ≤ 0xdf then
        match l with
        | c :: _ =>
          if isContinuation c then (joinBits (b.toNat % 32) [c], 2) else (replacementChar, 1)
        | [] => (replacementChar, 1)
      else if 0xe0 ≤ b.toNat ∧ b.toNat ≤ 0xef then
        match l with
        | c :: l =>
          if isSecondByte b c then
            match l with
            | d :: _ =>
              if isContinuation d then (joinBits (b.toNat % 16) [c, d], 3)
              else (replacementChar, 2)
            | [] => (replacementChar, 2)
          else (replacementChar, 1)
        | [] => (replacementChar, 1)
      else if 0xf0 ≤ b.toNat ∧ b.toNat ≤ 0xf4 then
        match l with
        | c :: l =>
          if isSecondByte b c then
            match l with
            | d :: l =>
              if isContinuation d then
                match l with
                | e :: _ =>
                  if isContinuation e then (joinBits (b.toNat % 8) [c, d, e], 4)
                  else (replacementChar, 3)
                | [] => (replacementChar, 3)
              else (replacementChar, 2)
            | [] => (replacementChar, 2)
          else (replacementChar, 1)
        | [] => (replacementChar, 1)
      else (replacementChar, 1)

/-- Decode at most `fuel` characters. -/
def utf8Chars : ℕ → List Byte → List Char
  | 0, _ => []
  | fuel + 1, l =>
    match utf8Head l with
    | none => []
    | some (c, n) => c :: utf8Chars fuel (l.drop n)

/-- `String::from_utf8_lossy`. A string has no more characters than bytes. -/
def fromUtf8Lossy (l : List Byte) : String :=
  String.ofList (utf8Chars l.length l)

/-- `s.as_bytes()`. -/
def utf8Bytes (s : String) : List Byte :=
  s.toUTF8.data.toList.map UInt8.toBitVec

end SysLib
