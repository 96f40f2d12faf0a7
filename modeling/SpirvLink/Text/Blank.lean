/-
  SpirvLink.Text.Blank — the characters that separate words.

  A blank is a character with the Unicode property `White_Space`: the five ASCII
  controls from tab to carriage return, the space, and nineteen characters outside
  ASCII. The zero-width space, the byte order mark, the Mongolian vowel separator
  and the four ASCII information separators are not blanks.
-/

namespace SpirvLink

/-- A text is the list of its characters. -/
abbrev Text := List Char

/-- The code point ranges of `White_Space`, ends included. -/
def blankRanges : List (Nat × Nat) :=
  [(0x09, 0x0D), (0x20, 0x20), (0x85, 0x85), (0xA0, 0xA0), (0x1680, 0x1680), (0x2000, 0x200A),
    (0x2028, 0x2029), (0x202F, 0x202F), (0x205F, 0x205F), (0x3000, 0x3000)]

def isBlank (c : Char) : Bool :=
  blankRanges.any fun (lo, hi) => lo ≤ c.toNat && c.toNat ≤ hi

/-- Every character that Lean's own classification calls white space is a blank. -/
theorem isBlank_of_isWhitespace {c : Char} (h : c.isWhitespace = true) : isBlank c = true := by
  simp only [Char.isWhitespace, Bool.or_eq_true, decide_eq_true_eq] at h
  rcases h with ((rfl | rfl) | rfl) | rfl <;> decide

theorem isBlank_space : isBlank ' ' = true := by decide

end SpirvLink
