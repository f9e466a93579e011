import Visualforce.Text.Basic

/-! # UTF-8

Encoding is exact. Decoding replaces every maximal sequence that begins a character but does not
finish one, and every byte that begins none, by the replacement character.
-/
namespace Visualforce.Text

def encodeChar (c : Char) : List UInt8 :=
  let n := c.toNat
  let tail (k : Nat) : Nat := 0x80 + k % 0x40
  (if n < 0x80 then [n]
    else if n < 0x800 then [0xC0 + n / 0x40, tail n]
    else if n < 0x10000 then [0xE0 + n / 0x1000, tail (n / 0x40), tail n]
    else [0xF0 + n / 0x40000, tail (n / 0x1000), tail (n / 0x40), tail n]).map UInt8.ofNat

def encode (text : Text) : List UInt8 := text.flatMap encodeChar

/-- A character that has begun: the bounds of its next byte, how many bytes are owed and its value
so far. -/
structure Pending where
  low : Nat
  high : Nat
  owed : Nat
  value : Nat

inductive Lead where
  | char (c : Char)
  | pending (pending : Pending)
  | stray

/-- What a first byte begins. -/
def lead (byte : Nat) : Lead :=
  if byte < 0x80 then .char (Char.ofNat byte)
  else if byte < 0xC2 then .stray
  else if byte < 0xE0 then .pending ⟨0x80, 0xBF, 1, byte - 0xC0⟩
  else if byte < 0xF0 then
    .pending ⟨if byte == 0xE0 then 0xA0 else 0x80, if byte == 0xED then 0x9F else 0xBF, 2,
      byte - 0xE0⟩
  else if byte < 0xF5 then
    .pending ⟨if byte == 0xF0 then 0x90 else 0x80, if byte == 0xF4 then 0x8F else 0xBF, 3,
      byte - 0xF0⟩
  else .stray

def replacement : Char := Char.ofNat 0xFFFD

def beginChar (byte : Nat) (done : Text) : Option Pending × Text :=
  match lead byte with
  | .char c => (none, c :: done)
  | .pending pending => (some pending, done)
  | .stray => (none, replacement :: done)

/-- One byte onto the reversed text. -/
def decodeByte : Option Pending × Text → UInt8 → Option Pending × Text
  | (none, done), byte => beginChar byte.toNat done
  | (some pending, done), byte =>
    let n := byte.toNat
    if pending.low ≤ n && n ≤ pending.high then
      let value := pending.value * 0x40 + (n - 0x80)
      if pending.owed == 1 then (none, Char.ofNat value :: done)
      else (some ⟨0x80, 0xBF, pending.owed - 1, value⟩, done)
    else beginChar n (replacement :: done)

def decode (bytes : List UInt8) : Text :=
  let (pending, done) := bytes.foldl decodeByte (none, [])
  (if pending.isSome then replacement :: done else done).reverse

end Visualforce.Text
