/-
  SpirvLink.Lowering.StorageClass — another storage class wherever one is named.

  A storage class is named as a word after a space, and between underscores in the names
  that a producer generates for pointer types, such as `%_ptr_Function_uint`. On each line
  the words are replaced first and then the names.
-/

import SpirvLink.Module.Basic

namespace SpirvLink

namespace Line

def storageWord (c : Text) : Text :=
  ' ' :: c

def storageInName (c : Text) : Text :=
  '_' :: c ++ ['_']

def moveStorageClass (old new : Text) (l : Line) : Line :=
  (l.replaceLiteral (storageWord old) (storageWord new)).replaceLiteral (storageInName old)
    (storageInName new)

/-- The number of replacements that `moveStorageClass` makes. -/
def countStorageClass (old new : Text) (l : Line) : Nat :=
  l.countLiteral (storageWord old) +
    (l.replaceLiteral (storageWord old) (storageWord new)).countLiteral (storageInName old)

end Line

namespace Module

def moveStorageClass (old new : Text) (m : Module) : Module :=
  m.mapLines (Line.moveStorageClass old new)

def countStorageClass (old new : Text) (m : Module) : Nat :=
  Line.total (Line.countStorageClass old new) m.lines

end Module

end SpirvLink
