import ContextFS.State.TextRecord

/-!
# Telemetry events

The operations of a telemetry event and their bits, and the event itself.
-/

namespace ContextFS

inductive OpType where
  | read | write | open | close | unlink | rename | truncate | stat | exec | create
deriving DecidableEq

/-- The value of the enumeration. -/
def OpType.code : OpType → UInt32
  | .read => 0
  | .write => 1
  | .open => 2
  | .close => 3
  | .unlink => 4
  | .rename => 5
  | .truncate => 6
  | .stat => 7
  | .exec => 8
  | .create => 9

/-- `op_bit`. -/
def opBit (op : OpType) : UInt32 := 1 <<< op.code

inductive Verdict where
  | allow | softWatch | deny
deriving DecidableEq

/-- What is logged of an operation; texts are any bytes. -/
@[ext]
structure TelemetryEvent where
  timestampNs : UInt64 := 0
  sessionId : UInt64 := 0
  branchId : UInt32 := 0
  policyVersion : UInt32 := 0
  op : OpType := .read
  verdict : Verdict := .allow
  dev : UInt32 := 0
  ino : UInt64 := 0
  iGeneration : UInt32 := 0
  path : Bytes := []
  pid : UInt32 := 0
  uid : UInt32 := 0
  gid : UInt32 := 0
  bytes : UInt64 := 0
  latencyNs : UInt64 := 0
  backend : Bytes := []
  extra : List (Bytes × Bytes) := []
deriving DecidableEq

end ContextFS
