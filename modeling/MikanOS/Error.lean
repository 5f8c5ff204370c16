import Mathlib

/-! The error codes of the kernel (`error.hpp`). The file and line that `MAKE_ERROR` records are
only printed and are left out. -/

namespace MikanOS

/-- `Error::Code`. -/
inductive Error where
  | kSuccess | kFull | kEmpty | kNoEnoughMemory | kIndexOutOfRange | kHostControllerNotHalted
  | kInvalidSlotID | kPortNotConnected | kInvalidEndpointNumber | kTransferRingNotSet
  | kAlreadyAllocated | kNotImplemented | kInvalidDescriptor | kBufferTooSmall | kUnknownDevice
  | kNoCorrespondingSetupStage | kTransferFailed | kInvalidPhase | kUnknownXHCISpeedID
  | kNoWaiter | kNoPCIMSI | kUnknownPixelFormat | kNoSuchTask | kInvalidFormat | kFrameTooSmall
  | kInvalidFile | kIsDirectory | kNoSuchEntry | kFreeTypeError
  deriving DecidableEq, Repr

/-- `WithError<T>`. -/
structure WithError (α : Type) where
  value : α
  error : Error
  deriving DecidableEq, Repr

end MikanOS
