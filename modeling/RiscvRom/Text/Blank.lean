import RiscvRom.Text.Basic

/-! White space, and trimming it from the two ends of a text.

A blank is a character of Unicode's `White_Space` property: the ASCII controls from tab to carriage
return, the space, next line, no-break space, and the spaces of the general punctuation blocks. The
zero-width space, the byte order mark and the ASCII separators from 1C to 1F are not blanks. -/

namespace RiscvRom.Text

/-- Closed ranges of the code points that are white space, in increasing order. -/
def blankRanges : List (Nat × Nat) :=
  [(0x09, 0x0D), (0x20, 0x20), (0x85, 0x85), (0xA0, 0xA0), (0x1680, 0x1680), (0x2000, 0x200A),
   (0x2028, 0x2029), (0x202F, 0x202F), (0x205F, 0x205F), (0x3000, 0x3000)]

def isBlank (c : Char) : Bool :=
  blankRanges.any fun (first, last) => first ≤ c.toNat && c.toNat ≤ last

def trimStart (t : Text) : Text := t.dropWhile isBlank

def trimEnd (t : Text) : Text := (t.reverse.dropWhile isBlank).reverse

def trim (t : Text) : Text := trimEnd (trimStart t)

theorem trimStart_sublist (t : Text) : (trimStart t).Sublist t := List.dropWhile_sublist _

theorem trimEnd_sublist (t : Text) : (trimEnd t).Sublist t := by
  have h := (List.dropWhile_sublist isBlank (l := t.reverse)).reverse
  simpa [trimEnd] using h

theorem trim_sublist (t : Text) : (trim t).Sublist t :=
  (trimEnd_sublist _).trans (trimStart_sublist t)

end RiscvRom.Text
