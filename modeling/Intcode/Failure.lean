import Intcode.Text.Numeral

namespace Intcode

inductive FailureKind
  | decode
  | writeTarget
  | address
  | counter
  | overflow
  | programText
  | input
  | fault
deriving DecidableEq, Repr

def FailureKind.text : FailureKind → String
  | .decode => "DECODE ERROR"
  | .writeTarget => "INVALID WRITE TARGET"
  | .address => "INVALID ADDRESS"
  | .counter => "OUT OF BOUNDS"
  | .overflow => "OVERFLOW"
  | .programText => "SYNTAX ERROR"
  | .input => "INVALID INPUT"
  | .fault => "MACHINE FAULT"

/-- What went wrong, where, and over which word. In a program text the address is the index of the
cell, elsewhere it is that of the instruction. -/
structure Failure where
  kind : FailureKind
  note : String := ""
  value : Option Word := none
  address : Option Nat := none
deriving DecidableEq, Repr

namespace Failure

def unknownOpcode (code : Word) : Failure :=
  { kind := .decode, note := "UNKNOWN OPCODE", value := some code }

def unknownMode (digit : Word) : Failure :=
  { kind := .decode, note := "UNKNOWN MODE", value := some digit }

def truncated (word : Word) : Failure :=
  { kind := .decode, note := "TRUNCATED INSTRUCTION", value := some word }

def immediateTarget (raw : Word) : Failure := { kind := .writeTarget, value := some raw }

def negativeAddress (address : Word) : Failure := { kind := .address, value := some address }

def addressOverflow (raw : Word) : Failure :=
  { kind := .address, note := "ADDRESS OVERFLOW", value := some raw }

/-- A counter past the words is reported as the word that has its low 64 bits. -/
def outOfBounds (counter : Int) : Failure :=
  { kind := .counter, value := some (Int64.ofInt counter) }

def overflow : Failure := { kind := .overflow }

def emptyCell (index : Nat) : Failure :=
  { kind := .programText, note := "EMPTY CELL", address := some index }

def badCell (index : Nat) : Failure :=
  { kind := .programText, note := "NOT AN INTEGER", address := some index }

def endOfInput : Failure := { kind := .input, note := "END OF INPUT" }

def badInput : Failure := { kind := .input, note := "NOT AN INTEGER" }

/-- The failure at `pos`, unless it has a place of its own. -/
def locate (e : Failure) (pos : Nat) : Failure :=
  { e with address := some (e.address.getD pos) }

/-- What a machine that failed with `e` answers from then on. -/
def asFault (e : Failure) : Failure := { e with kind := .fault, note := e.kind.text }

def text (e : Failure) : String :=
  e.kind.text ++ (if e.note = "" then "" else "; " ++ e.note) ++
    (match e.value with
      | some v => " " ++ v.text
      | none => "") ++
    match e.address with
      | some a => " AT " ++ Numeral.text a
      | none => ""

def dump (e : Failure) : String := "Error \x7b " ++ e.text ++ " \x7d"

end Failure

end Intcode
