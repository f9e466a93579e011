import Visualforce.Data.Value

/-! # Writing values

One printer of structured values serves several styles. A style fixes the separators and how the
characters of a text are escaped.
-/
namespace Visualforce

structure WritingStyle where
  comma : Text
  colon : Text
  escape : Char → Text

def hexDigit (n : Nat) : Char := if n < 10 then Char.ofNat (0x30 + n) else Char.ofNat (0x57 + n)

/-- A code unit of sixteen bits as `\u` and four lower-case digits. -/
def escapeUnit (n : Nat) : Text :=
  ['\\', 'u', hexDigit (n / 0x1000 % 16), hexDigit (n / 0x100 % 16), hexDigit (n / 0x10 % 16),
    hexDigit (n % 16)]

/-- Code points beyond sixteen bits are written as two units. -/
def escapeCode (n : Nat) : Text :=
  if n < 0x10000 then escapeUnit n
  else escapeUnit (0xD800 + (n - 0x10000) / 0x400) ++ escapeUnit (0xDC00 + (n - 0x10000) % 0x400)

def shortEscape? (c : Char) : Option Char :=
  if c == '"' then some '"' else if c == '\\' then some '\\' else if c == '\n' then some 'n'
  else if c == '\r' then some 'r' else if c == '\t' then some 't'
  else if c.toNat == 0x08 then some 'b' else if c.toNat == 0x0C then some 'f' else none

def escapeUnless (isPlain : Nat → Bool) (c : Char) : Text :=
  match shortEscape? c with
  | some letter => ['\\', letter]
  | none => if isPlain c.toNat then [c] else escapeCode c.toNat

namespace WritingStyle

/-- No blanks, and only printable ASCII. -/
def compact : WritingStyle :=
  ⟨[','], [':'], escapeUnless fun n => 0x20 ≤ n && n < 0x7F⟩

/-- Blanks after separators; of all characters only controls are escaped. -/
def spaced : WritingStyle :=
  ⟨", ".toList, ": ".toList, escapeUnless fun n => 0x20 ≤ n⟩

end WritingStyle

def intText (n : Int) : Text := (toString n).toList

namespace Value

def quote (style : WritingStyle) (content : Text) : Text :=
  '"' :: content.flatMap style.escape ++ ['"']

mutual
def write (style : WritingStyle) : Value → Text
  | null => "null".toList
  | bool true => "true".toList
  | bool false => "false".toList
  | int n => intText n
  | text content => quote style content
  | list items => '[' :: Text.joinWith style.comma (writeItems style items) ++ [']']
  | object fields => '{' :: Text.joinWith style.comma (writeFields style fields) ++ ['}']

def writeItems (style : WritingStyle) : List Value → List Text
  | [] => []
  | item :: rest => write style item :: writeItems style rest

def writeFields (style : WritingStyle) : List (Text × Value) → List Text
  | [] => []
  | (name, value) :: rest =>
    (quote style name ++ style.colon ++ write style value) :: writeFields style rest
end

end Value
end Visualforce
