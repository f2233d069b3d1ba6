import Nachos.Lib.Bytes

/-! How the modelled code can stop short (utility.h, sysdep.cc). An `ASSERT`
that fails aborts the simulator. Undefined behaviour of the host language (a
null or dangling pointer, an index outside an array, signed overflow) is an
outcome of its own: nothing is claimed of what the host does then. -/

namespace Nachos
open Lib

/-- The assertions of the modelled functions. -/
inductive Assertion
  | noffMagic
  | lseek
  | noScheme
  | swapout
  | bitmap
  | deleteCurrent
  | translateTable
  | mainException
  | opCode
  | partialWord
  | diskActive
  | diskSector
  | mailLength
  | mailBox
  | packetSend
  | packetArrived
  | conditionWait
  | allocate
  | deallocate
  | read
  | schedule
  | interruptLevel
  | enableInHandler
  | yieldInHandler
  deriving DecidableEq, Repr

/-- How a kernel operation fails to return. `halted` is `Interrupt::Halt`,
`blocked` an operation modelled as one step that would have to wait, and
`disabled` an event that does not apply in the state at hand. -/
inductive Fault
  | assertion (which : Assertion)
  | undefined
  | halted
  | blocked
  | disabled
  deriving DecidableEq, Repr

/-- The result of a signed operation: undefined unless it is an `int`. -/
def cInt (x : Int) : Except Fault Int := if IsInt x then .ok x else .error .undefined

theorem cInt_of_isInt {x : Int} (h : IsInt x) : cInt x = .ok x := if_pos h

theorem cInt_of_not {x : Int} (h : ¬ IsInt x) : cInt x = .error .undefined := if_neg h

theorem cInt_eq_ok {x y : Int} : cInt x = .ok y ↔ IsInt x ∧ x = y := by
  unfold cInt
  split <;> simp [*]

/-- `OpenFile::ReadAt` on a host file, into memory at index `into`: `Lseek`
asserts that the position is not negative, and a negative count reads nothing. -/
def readAt (file : List UInt8) (mem : Nat → UInt8) (into numBytes position : Int) :
    Except Fault (Nat → UInt8) :=
  if position < 0 then .error (.assertion .lseek)
  else if numBytes < 0 then .ok mem
  else .ok (overlay mem into.toNat (readBytes file position.toNat numBytes.toNat))

/-- A text of the source. -/
def text (s : String) : List UInt8 := s.toList.map fun ch => UInt8.ofNat ch.toNat

/-- The string at `pos`, of which `room` bytes are in the array. -/
def stringAt (m : Nat → UInt8) (pos : Nat) : Nat → Except Fault (List UInt8)
  | 0 => .error .undefined
  | room + 1 =>
    if m pos = 0 then .ok []
    else do
      let rest ← stringAt m (pos + 1) room
      .ok (m pos :: rest)

end Nachos
