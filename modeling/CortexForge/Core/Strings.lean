import CortexForge.Core.Memory

/-!
# Formatted Text

`kvsnprintf`, from `lib/strings/strings.c`. A string is its characters, without the
terminator. The buffer is what was stored into it: the characters in their order, each
with its index.

## Main definitions

* `bufPutc`, `bufPutu`: One character, and the digits of a number.
* `convert`: One conversion and the argument it takes.
* `kvsnprintf`: What is stored for a format, and the result.
-/

namespace CortexForge.Strings

/-- The characters of a literal. -/
def chars (s : String) : List Byte := s.toList.map fun c => BitVec.ofNat 8 c.toNat

/-- The position, which goes on past the end of the buffer, and the stores so far. -/
structure Output where
  pos : Nat := 0
  stores : List (Byte × Nat) := []

/-- A character is stored if the terminator has room behind it. -/
def bufPutc (buflen : Nat) (o : Output) (c : Byte) : Output :=
  ⟨o.pos + 1, if o.pos + 1 < buflen then o.stores ++ [(c, o.pos)] else o.stores⟩

def bufPuts (buflen : Nat) (o : Output) (s : List Byte) : Output := s.foldl (bufPutc buflen) o

def digit (n : Nat) : Byte := (chars "0123456789abcdef").getD n 0#8

/-- The array `tmp`: the digits of a number, from the last one on. -/
def tmpDigits (base : Nat) : Nat → Nat → List Byte
  | 0, _ => []
  | fuel + 1, val =>
      if val > 0 then digit (val % base) :: tmpDigits base fuel (val / base) else []

def bufPutu (buflen : Nat) (o : Output) (val : BitVec 64) (base : Nat) : Output :=
  if val = 0#64 then bufPutc buflen o (digit 0)
  -- A number has no more digits than bits.
  else (tmpDigits base 64 val.toNat).reverse.foldl (bufPutc buflen) o

/-- What `va_arg` takes. -/
inductive Arg
  | str (s : Option (List Byte))
  | int (val : BitVec 32)
  | u64 (val : BitVec 64)

inductive Conversion
  | s | d | u | x | c | percent
  | unknown (spec : Byte)

def percent : Byte := 0x25#8

def minus : Byte := 0x2D#8

def conversion (spec : Byte) : Conversion :=
  if spec = 0x73#8 then .s
  else if spec = 0x64#8 then .d
  else if spec = 0x75#8 then .u
  else if spec = 0x78#8 then .x
  else if spec = 0x63#8 then .c
  else if spec = percent then .percent
  else .unknown spec

/-- One conversion and the arguments left, or `none` if the argument is not of the type
    it takes. -/
def convert (buflen : Nat) (o : Output) : Conversion → List Arg → Option (Output × List Arg)
  | .s, .str s :: args => some (bufPuts buflen o (s.getD (chars "(null)")), args)
  | .d, .int val :: args =>
      -- The negation is that of the unsigned number.
      some (if val.toInt < 0 then
          bufPutu buflen (bufPutc buflen o minus) (0#64 - val.signExtend 64) 10
        else bufPutu buflen o (val.signExtend 64) 10, args)
  | .u, .u64 val :: args => some (bufPutu buflen o val 10, args)
  | .x, .u64 val :: args => some (bufPutu buflen o val 16, args)
  | .c, .int val :: args => some (bufPutc buflen o (val.setWidth 8), args)
  | .percent, args => some (bufPutc buflen o percent, args)
  | .unknown spec, args => some (bufPutc buflen (bufPutc buflen o percent) spec, args)
  | _, _ => none

def formatLoop (buflen : Nat) : List Byte → List Arg → Output → Option Output
  | [], _, o => some o
  | c :: fmt, args, o =>
      if c ≠ percent then formatLoop buflen fmt args (bufPutc buflen o c)
      else
        match fmt with
        -- The format ends with a lone `%`.
        | [] => some o
        | spec :: fmt => (convert buflen o (conversion spec) args).bind fun r =>
            formatLoop buflen fmt r.2 r.1

/-- The stores and the result, if the arguments are those of the format. -/
def kvsnprintf (buflen : Nat) (fmt : List Byte) (args : List Arg) :
    Option (List (Byte × Nat) × Int) :=
  (formatLoop buflen fmt args {}).map fun o =>
    (if buflen > 0 then o.stores ++ [(0#8, if o.pos < buflen then o.pos else buflen - 1)]
      else o.stores, (BitVec.ofNat 32 o.pos).toInt)

end CortexForge.Strings
