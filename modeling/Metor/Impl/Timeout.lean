import Metor.Impl.Proto

/-!
# Sleeping (`wait_for_io` and `Timeout` in `libs/stellarator/src/uring`)

The timespecs that the executor hands to the kernel: when it has nothing to do
until the next deadline of its timer, and for a timeout operation.
-/

namespace Metor.Impl.Uring

/-- `std::time::Duration` -/
structure Duration where
  secs : Nat
  nanos : Nat
  secs_lt : secs < 2 ^ 64
  nanos_lt : nanos < 1000000000
  deriving DecidableEq

namespace Duration

/-- `as_secs` -/
def asSecs (d : Duration) : Nat := d.secs

/-- `subsec_nanos` -/
def subsecNanos (d : Duration) : Nat := d.nanos

/-- `as_nanos` -/
def asNanos (d : Duration) : Nat := d.secs * 1000000000 + d.nanos

end Duration

/-- `io_uring::types::Timespec` -/
structure Timespec where
  sec : Nat
  nsec : Nat
  deriving DecidableEq, Repr

/-- The timespec that `wait_for_io` submits, if it is given a timeout. -/
def waitForIoTimespec (timeout : Option Duration) : Option Timespec :=
  timeout.map fun d => ⟨d.asSecs, Proto.asU32 d.asNanos⟩

/-- `ops::Timeout` -/
structure Timeout where
  timespec : Timespec
  count : Nat
  deriving DecidableEq, Repr

/-- `Timeout::new` -/
def Timeout.new (duration : Duration) : Timeout := ⟨⟨duration.asSecs, duration.subsecNanos⟩, 0⟩

end Metor.Impl.Uring
