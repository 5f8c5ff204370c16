import Mathlib

/-! The messages between tasks (`message.hpp`): the type tag with the member of the union that
belongs to it. The fields of `kLayer` and the source task are read by the main task's drawing code
only and are left out. -/

namespace MikanOS

/-- `Message::Type` with `Message::arg`. A pipe message carries its array of 16 bytes and the
number of bytes in use. -/
inductive Message where
  | kInterruptXHCI
  | kTimerTimeout (timeout : Nat) (value : Int)
  | kKeyPush (modifier keycode ascii : UInt8) (press : Int)
  | kLayer
  | kLayerFinish
  | kMouseMove (x y dx dy : Int) (buttons : UInt8)
  | kMouseButton (x y press button : Int)
  | kWindowActive (activate : Int)
  | kPipe (data : Nat → UInt8) (len : UInt8)
  | kWindowClose (layerId : Nat)

/-- The message has the type `kPipe`. -/
def Message.isPipe : Message → Bool
  | .kPipe _ _ => true
  | _ => false

end MikanOS
