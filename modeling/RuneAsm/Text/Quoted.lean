import RuneAsm.Text.Hex
import RuneAsm.Text.Printable

namespace RuneAsm.Text

-- Texts quoted inside messages. The quotes are single ones unless the text holds a single quote and no double one; what
-- would not show, the backslash and the quote in use are written as escapes.

def singleQuote : Char := '\x27'

def doubleQuote : Char := '\x22'

def backslash : Char := '\x5c'

def quoteFor (text : List Char) : Char :=
  if text.contains singleQuote && !text.contains doubleQuote then doubleQuote else singleQuote

-- The shortest of the three numbered escapes that can hold the code point.
def numberedEscape (c : Char) : List Char :=
  let (mark, width) :=
    if c.toNat < 0x100 then ('x', 2) else if c.toNat < 0x10000 then ('u', 4) else ('U', 8)
  backslash :: mark :: zeroFilled width (hexDigits false c.toNat)

def escaped (quote c : Char) : List Char :=
  if c = quote ∨ c = backslash then [backslash, c]
  else if c = '\t' then [backslash, 't']
  else if c = '\n' then [backslash, 'n']
  else if c = '\r' then [backslash, 'r']
  else if isPrintable c then [c]
  else numberedEscape c

def quoted (text : List Char) : String :=
  let quote := quoteFor text
  String.ofList (quote :: text.flatMap (escaped quote) ++ [quote])

end RuneAsm.Text
