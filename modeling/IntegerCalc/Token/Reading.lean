import IntegerCalc.Text.Blank
import IntegerCalc.Token

/-! Reading a text as tokens. Digits accumulate into one literal until a symbol
or the end of the text closes it; all other characters are passed over and do
not close it. Reading never fails. Each passed-over character that is not white
space is noted with the bytes it occupies. -/

namespace IntegerCalc

/-- The bytes of a UTF-8 text from `start` up to, but not including, `stop`. -/
structure Span where
  start : Nat
  stop : Nat
  deriving DecidableEq

/-- What a single character is to a reader. -/
inductive Glyph where
  | digit (value : Nat)
  | symbol (token : Token)
  | blank
  | stray

/-- Only the ten ASCII digits are digits. -/
def Glyph.ofChar (c : Char) : Glyph :=
  if c.isDigit then .digit (c.toNat - '0'.toNat)
  else match Token.ofSymbol? c with
    | some token => .symbol token
    | none => if Text.isBlank c then .blank else .stray

/-- A reading under way: the bytes passed so far, the literal not yet closed, and
what has been found, latest first. -/
structure Scan where
  offset : Nat := 0
  literal : Option Nat := none
  tokens : List Token := []
  discarded : List Span := []

namespace Scan

/-- The tokens found, the open literal included. -/
def closed (s : Scan) : List Token :=
  match s.literal with
  | some value => .number value :: s.tokens
  | none => s.tokens

def step (s : Scan) (c : Char) : Scan :=
  let stop := s.offset + c.utf8Size
  match Glyph.ofChar c with
  | .digit value => { s with offset := stop, literal := some (10 * s.literal.getD 0 + value) }
  | .symbol token => { s with offset := stop, literal := none, tokens := token :: s.closed }
  | .blank => { s with offset := stop }
  | .stray => { s with offset := stop, discarded := ⟨s.offset, stop⟩ :: s.discarded }

def run (s : Scan) (text : List Char) : Scan := text.foldl step s

@[simp] theorem run_nil (s : Scan) : s.run [] = s := rfl

@[simp] theorem run_cons (s : Scan) (c : Char) (text : List Char) :
    s.run (c :: text) = (s.step c).run text := rfl

theorem run_append (s : Scan) (a b : List Char) : s.run (a ++ b) = (s.run a).run b :=
  List.foldl_append

@[simp] theorem step_offset (s : Scan) (c : Char) : (s.step c).offset = s.offset + c.utf8Size := by
  unfold step
  split <;> rfl

end Scan

/-- What a text holds, in the order of the text. -/
structure Reading where
  tokens : List Token
  discarded : List Span

def read (text : String) : Reading :=
  let s := Scan.run {} text.toList
  ⟨s.closed.reverse, s.discarded.reverse⟩

def tokenize (text : String) : List Token := (read text).tokens

end IntegerCalc
