import Silkworm.Blocks

/-!
# Accounts and the buffer that holds them

The part of the buffer interface through which the execution of blocks reads and changes the
state. Each buffer is an instance.
-/

namespace Silkworm

abbrev kEmptyHash : Bytes32 :=
  ⟨[0xc5, 0xd2, 0x46, 0x01, 0x86, 0xf7, 0x23, 0x3c, 0x92, 0x7e, 0x7d, 0xb2, 0xdc, 0xc7, 0x03, 0xc0,
    0xe5, 0x00, 0xb6, 0x53, 0xca, 0x82, 0x27, 0x3b, 0x7b, 0xfa, 0xd8, 0x04, 0x5d, 0x85, 0xa4, 0x70],
    rfl⟩

structure Account where
  nonce : Uint64 := 0
  balance : Uint256 := 0
  codeHash : Bytes32 := kEmptyHash
  incarnation : Uint64 := 0
  deriving DecidableEq, Inhabited

class StateBuffer (B : Type) where
  readAccount : B → Address → Option Account
  readCode : B → Bytes32 → Bytes
  readStorage : B → Address → Uint64 → Bytes32 → Bytes32
  /-- The previous non-zero incarnation of an account, 0 if none exists. -/
  previousIncarnation : B → Address → Uint64
  beginBlock : Uint64 → B → B
  updateAccount : Address → Option Account → Option Account → B → B
  updateAccountCode : Address → Uint64 → Bytes32 → Bytes → B → B
  updateStorage : Address → Uint64 → Bytes32 → Bytes32 → Bytes32 → B → B

end Silkworm
