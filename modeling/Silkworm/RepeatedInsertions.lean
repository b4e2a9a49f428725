import Silkworm.CanonicalStates
import Silkworm.StateRoots

/-!
# Insertions that return

An insertion returns unless the block is in the canonical chain already. The ancestor of such
a block is the block itself, so that the length of the branch below it wraps around.
-/

namespace Silkworm.Blockchain
open MemoryBuffer Validity

section Loops

variable {ex : Execution}

end Loops

section Insertion

variable {ex : Execution} {start : MemoryBuffer} {genesis : Block} {inserted : List Block}
  {c : Blockchain} {block : Block} {check : Bool}

variable {first : World}

end Insertion

section Runs

variable {ex : Execution} {start : MemoryBuffer} {genesis : Block} {inserted : List Block}
  {c : Blockchain} {block : Block} {check : Bool}

end Runs

section Examples

end Examples

end Silkworm.Blockchain
