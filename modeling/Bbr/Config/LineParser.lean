import Bbr.Diff.Path

/-!
# Lines of the configuration

The parser of one line, which all readers of the configuration file share. It holds what is left of
the line and how many bytes came before.
-/
namespace Bbr.Config

open Bbr.Diff (ascii)

def maxBytes : Nat := 64 * 1024

def newline : UInt8 := 0x0a
def quote : UInt8 := 0x22
def hash : UInt8 := 0x23
def comma : UInt8 := 0x2c
def equals : UInt8 := 0x3d
def openBracket : UInt8 := 0x5b
def backslash : UInt8 := 0x5c
def closeBracket : UInt8 := 0x5d

inductive LineError where
  | expectedSection | expectedClose | expectedKey | expectedQuote | unsupportedEscape
  | unterminatedString | expectedArray | tooManyItems | expectedComma | expectedUnsigned
  | expectedBoolean
  deriving DecidableEq, Repr

/-- What was not found, and the column the parser stopped at. -/
structure LineFailure where
  error : LineError
  column : Nat
  deriving DecidableEq, Repr

structure LineParser where
  pos : Nat := 0
  text : Bytes
  deriving DecidableEq, Repr

namespace LineParser

def column (self : LineParser) : Nat := self.pos + 1

def fail {α : Type} (self : LineParser) (error : LineError) : Except LineFailure α :=
  .error ⟨error, self.column⟩

def advance (self : LineParser) (n : Nat) : LineParser := ⟨self.pos + n, self.text.drop n⟩

@[simp] theorem advance_text (self : LineParser) (n : Nat) :
    (self.advance n).text = self.text.drop n := rfl

/-- The parser behind the byte that is expected. -/
def take (self : LineParser) (expected : UInt8) : Option LineParser :=
  if self.text.head? = some expected then some (self.advance 1) else none

/-- The bytes as long as they satisfy the predicate, and the parser behind them. -/
def skip (self : LineParser) (p : UInt8 → Bool) : LineParser :=
  self.advance (self.text.takeWhile p).length

def isSpace (c : UInt8) : Bool := c == 0x20 || c == 0x09 || c == 0x0d

def space (self : LineParser) : LineParser := self.skip isSpace

def trailing (self : LineParser) : Bool :=
  match self.text with
  | [] => true
  | c :: _ => c == hash

def section_ (self : LineParser) : Except LineFailure (Bytes × LineParser) :=
  match self.take openBracket with
  | none => self.fail .expectedSection
  | some start =>
    let name := start.text.takeWhile (· != closeBracket)
    let stop := start.skip (· != closeBracket)
    if stop.text = [] ∨ name = [] then stop.fail .expectedClose else .ok (name, stop.advance 1)

def isAlphanumeric (c : UInt8) : Bool :=
  decide (0x41 ≤ c ∧ c ≤ 0x5a) || decide (0x61 ≤ c ∧ c ≤ 0x7a) || decide (0x30 ≤ c ∧ c ≤ 0x39)

def isKeyByte (c : UInt8) : Bool := isAlphanumeric c || c == 0x2d || c == 0x5f

def isDigit (c : UInt8) : Bool := decide (0x30 ≤ c ∧ c ≤ 0x39)

def isPlain (c : UInt8) : Bool := c != quote && c != backslash

def quoted (self : LineParser) : Except LineFailure (Bytes × LineParser) :=
  match self.take quote with
  | none => self.fail .expectedQuote
  | some start =>
    let stop := start.skip isPlain
    match stop.text with
    | [] => stop.fail .unterminatedString
    | c :: _ =>
      if c = backslash then stop.fail .unsupportedEscape
      else .ok (start.text.takeWhile isPlain, stop.advance 1)

/-- A run of bytes of one kind, which is not empty. -/
def run (self : LineParser) (p : UInt8 → Bool) (error : LineError) :
    Except LineFailure (Bytes × LineParser) :=
  let text := self.text.takeWhile p
  if text = [] then self.fail error else .ok (text, self.skip p)

def key (self : LineParser) : Except LineFailure (Bytes × LineParser) :=
  if self.text.head? = some quote then self.quoted else self.run isKeyByte .expectedKey

def unsigned (self : LineParser) : Except LineFailure (Bytes × LineParser) :=
  self.run isDigit .expectedUnsigned

def boolean (self : LineParser) : Except LineFailure (Bytes × LineParser) :=
  if (ascii "true").isPrefixOf self.text then .ok (ascii "true", self.advance 4)
  else if (ascii "false").isPrefixOf self.text then .ok (ascii "false", self.advance 5)
  else self.fail .expectedBoolean

/-- The strings of an array up to its closing bracket, while there is room for more. -/
def strings : Nat → LineParser → Except LineFailure (List Bytes × LineParser)
  | 0, self => self.fail .tooManyItems
  | room + 1, self =>
    match self.quoted with
    | .error e => .error e
    | .ok (item, self) =>
      let self := self.space
      match self.take closeBracket with
      | some self => .ok ([item], self)
      | none => match self.take comma with
        | none => self.fail .expectedComma
        | some self => match strings room self.space with
          | .error e => .error e
          | .ok (items, self) => .ok (item :: items, self)

def maxItems : Nat := 16

def stringArray (self : LineParser) : Except LineFailure (List Bytes × LineParser) :=
  match self.take openBracket with
  | none => self.fail .expectedArray
  | some self =>
    let self := self.space
    match self.take closeBracket with
    | some self => .ok ([], self)
    | none => strings maxItems self

end LineParser

end Bbr.Config
