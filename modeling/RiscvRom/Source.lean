import RiscvRom.Text.Blank
import RiscvRom.Text.Lines

/-! Source lines and the statement on each of them.

A statement is what is left of a line without its comment and the blanks around it: a label before
the first colon, and an instruction after it. Either part may be missing; a line with neither text
is no statement. -/

namespace RiscvRom

structure Line where
  text : Text
  number : Nat
  deriving DecidableEq

structure Statement where
  label : Option Text
  instruction : Option Text
  deriving DecidableEq

namespace Source

def commentMarks : List Text := ["//".toList, "#".toList]

/-- Everything before the first place where a comment marker starts. -/
def withoutComment : Text → Text
  | [] => []
  | c :: r => if commentMarks.any (·.isPrefixOf (c :: r)) then [] else c :: withoutComment r

def code (line : Text) : Text := Text.trim (withoutComment (Text.trim line))

/-- Splits at the first colon and trims both sides; a text without a colon is left as it is. -/
def splitAtColon (line : Text) : Option Text × Text :=
  match line.dropWhile (· != ':') with
  | [] => (none, line)
  | _ :: rest => (Text.nonEmpty? (Text.trim (line.takeWhile (· != ':'))), Text.trim rest)

def statement? (line : Text) : Option Statement :=
  (Text.nonEmpty? (code line)).map fun t =>
    let (label, rest) := splitAtColon t
    ⟨label, Text.nonEmpty? rest⟩

/-- Numbers the lines from one. -/
def lines (source : Text) : List Line :=
  (Text.lines source).zipIdx.map fun (text, i) => ⟨text, i + 1⟩

end Source

namespace Line

def statement? (l : Line) : Option Statement := Source.statement? l.text

/-- The line as it is shown in listings and reports. -/
def trimmed (l : Line) : Text := Text.trim l.text

end Line
end RiscvRom
