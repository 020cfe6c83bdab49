import ExtensionLowering.Text.Printable
import ExtensionLowering.Text.Utf8
/-!
# Quoted texts

`quote` writes a text as a double quoted literal of the printed language: short escapes for the
usual controls, printable characters as they are, and four-digit escapes of the UTF-16 units for the
rest. `quoteDebug` is the quoting of messages, which has escapes of its own for controls and long
code points.
-/
namespace ExtensionLowering.Text

def hexDigits (width n : Nat) : List Char :=
  let ds := Nat.toDigits 16 n
  List.replicate (width - ds.length) '0' ++ ds

def unitEscape (unit : Nat) : List Char :=
  '\\' :: 'u' :: hexDigits 4 unit

def units16 (c : Char) : List Nat :=
  if c.toNat ≤ 0xffff then [c.toNat]
  else [0xd800 + (c.toNat - 0x10000) / 0x400, 0xdc00 + (c.toNat - 0x10000) % 0x400]

def escapeChar (c : Char) : List Char :=
  match c with
  | '"' => ['\\', '"']
  | '\\' => ['\\', '\\']
  | '\n' => ['\\', 'n']
  | '\r' => ['\\', 'r']
  | '\t' => ['\\', 't']
  | '\x08' => ['\\', 'b']
  | '\x0c' => ['\\', 'f']
  | '\x0b' => ['\\', 'v']
  | c => if isPrintable c then [c] else (units16 c).flatMap unitEscape

def quote (s : String) : String :=
  String.ofList ('"' :: s.toList.flatMap escapeChar ++ ['"'])

def debugEscapeChar (c : Char) : List Char :=
  match c with
  | '"' => ['\\', '"']
  | '\\' => ['\\', '\\']
  | '\x07' => ['\\', 'a']
  | '\x08' => ['\\', 'b']
  | '\x0c' => ['\\', 'f']
  | '\n' => ['\\', 'n']
  | '\r' => ['\\', 'r']
  | '\t' => ['\\', 't']
  | '\x0b' => ['\\', 'v']
  | c =>
    if isPrintable c then [c]
    else if c.toNat < 0x20 || c.toNat = 0x7f then '\\' :: 'x' :: hexDigits 2 c.toNat
    else if c.toNat < 0x10000 then unitEscape c.toNat
    else '\\' :: 'U' :: hexDigits 8 c.toNat

def quoteDebug (s : String) : String :=
  String.ofList ('"' :: s.toList.flatMap debugEscapeChar ++ ['"'])

/-- Bytes in quotes. A stray byte is shown by its value. -/
def quoteDebugBytes (bytes : List Nat) : String :=
  let shown : Except Nat Char → List Char
    | .ok c => debugEscapeChar c
    | .error b => '\\' :: 'x' :: hexDigits 2 b
  String.ofList ('"' :: (charsOrStrays bytes).flatMap shown ++ ['"'])

end ExtensionLowering.Text
