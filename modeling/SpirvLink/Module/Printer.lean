/-
  SpirvLink.Module.Printer — the text of a module.

  One line of text for each line. With banners, each block but the header is headed by a
  comment with its kind, and the lines with code are indented by a tab.
-/

import SpirvLink.Module.Basic

namespace SpirvLink

/-- The comment that heads a block, with two empty lines before it and one after. -/
def BlockKind.banner (k : BlockKind) : Text :=
  "\n\n; ".toList ++ k.name.toList ++ "\n\n".toList

def Line.toText (banners : Bool) (l : Line) : Text :=
  (if banners && l.hasCode then ['\t'] else []) ++ l.text ++ ['\n']

def Block.toText (banners : Bool) (b : Block) : Text :=
  (if banners && b.kind != .header then b.kind.banner else []) ++ b.lines.flatMap (Line.toText banners)

def Module.toText (banners : Bool) (m : Module) : Text :=
  m.blocks.flatMap (Block.toText banners)

end SpirvLink
