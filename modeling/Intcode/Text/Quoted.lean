import Intcode.Text.Hidden

namespace Intcode.Text

def quotationMark : Char := '\x22'

def backslash : Char := '\x5c'

/-- A character as it stands in a quotation. One that would end the quotation, or that could not be
seen in it, takes a backslash form. -/
def quotedChar (c : Char) : List Char :=
  if c = quotationMark ∨ c = backslash then [backslash, c]
  else if c = '\t' then [backslash, 't']
  else if c = '\n' then [backslash, 'n']
  else if c = '\r' then [backslash, 'r']
  else if c = '\x00' then [backslash, '0']
  else if isHidden c then [backslash, 'u', '\x7b'] ++ Nat.toDigits 16 c.toNat ++ ['\x7d']
  else [c]

def quoted (cs : List Char) : List Char :=
  quotationMark :: cs.flatMap quotedChar ++ [quotationMark]

end Intcode.Text
