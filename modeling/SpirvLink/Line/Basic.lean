/-
  SpirvLink.Line.Basic — one line of SPIR-V assembly and what it says.

  A line is kept as it was written and read on demand. An instruction has the form
  `[%id =] Opcode operand*`; a line whose first character after blanks is a semicolon is
  a comment. A line defines an identifier when the text before its first equals sign is,
  without the blanks around it, a percent sign and no blank after it.
-/

import SpirvLink.Text.Basic
import SpirvLink.Text.Ident
import SpirvLink.Opcode

namespace SpirvLink

structure Line where
  text : Text
deriving DecidableEq

namespace Line

def commentMarker : Char := ';'

def isEmpty (l : Line) : Bool :=
  l.text.all isBlank

/-- False for empty lines and comments. -/
def hasCode (l : Line) : Bool :=
  match Text.trimStart l.text with
  | [] => false
  | c :: _ => c != commentMarker

/-! ## Definitions -/

/-- A text that can stand before the equals sign: a percent sign and no blank. -/
def canDefine (s : Text) : Bool :=
  s.head? == some Text.sigil && !Text.hasBlank s

/-- The texts on both sides of the first equals sign, if the line defines an identifier. -/
def halves? (l : Line) : Option (Text × Text) :=
  (Text.cutAt '=' l.text).filter fun (before, _) => canDefine (Text.trim before)

/-- The identifier that the line defines. -/
def defined? (l : Line) : Option Text :=
  l.halves?.map fun (before, _) => Text.trim before

/-- What the line defines its identifier as. -/
def rhs? (l : Line) : Option Text :=
  l.halves?.map fun (_, after) => Text.trim after

/-! ## Instructions -/

/-- The line without the identifier that it defines. -/
def instruction (l : Line) : Text :=
  l.rhs?.getD (Text.trim l.text)

def opcode? (l : Line) : Option Text :=
  if l.hasCode then (Text.words l.instruction).head? else none

def hasOpcode (op : Text) (l : Line) : Bool :=
  l.opcode? == some op

/-- The words after the opcode, identifiers and literals alike. -/
def operands (l : Line) : List Text :=
  if l.hasCode then (Text.words l.instruction).tail else []

def isReturn (l : Line) : Bool :=
  l.opcode?.any Opcode.isReturn

def isDecoration (l : Line) : Bool :=
  l.opcode?.any Opcode.isDecoration

def isTypeOrConstant (l : Line) : Bool :=
  l.opcode?.any Opcode.isTypeOrConstant

def isCall (l : Line) : Bool :=
  l.hasOpcode Opcode.functionCall

/-! ## Identifiers -/

/-- Every identifier on the line, the defined one included. -/
def ids (l : Line) : List Text :=
  Text.identifiers l.text

def rhsIds (l : Line) : List Text :=
  (l.rhs?.map Text.identifiers).getD []

/-- The identifiers that the line uses and does not define. -/
def operandIds (l : Line) : List Text :=
  (l.rhs?.map Text.identifiers).getD l.ids

/-! ## Many lines -/

/-- The total of a number over lines. -/
def total (number : Line → Nat) : List Line → Nat
  | [] => 0
  | l :: ls => number l + total number ls

theorem total_eq_zero_iff {number : Line → Nat} {ls : List Line} : total number ls = 0 ↔ ∀ l ∈ ls, number l = 0 := by
  induction ls with
  | nil => simp [total]
  | cons l ls ih => rw [total, Nat.add_eq_zero_iff, ih, List.forall_mem_cons]

theorem total_map_of_eq {number : Line → Nat} {f : Line → Line} (h : ∀ l, number (f l) = number l) (ls : List Line) :
    total number (ls.map f) = total number ls := by
  induction ls with
  | nil => rfl
  | cons l ls ih => rw [List.map_cons, total, total, h, ih]

/-! ## Printing an instruction -/

/-- The instruction with these parts, one space between them. -/
def ofParts (defined : Option Text) (op : Text) (operands : List Text) : Line :=
  let instruction := Text.unwords (op :: operands)
  match defined with
  | some id => ⟨id ++ " = ".toList ++ instruction⟩
  | none => ⟨instruction⟩

end Line

end SpirvLink
