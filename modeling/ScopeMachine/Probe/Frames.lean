import ScopeMachine.Machine.Global
import ScopeMachine.Probe.Basic

namespace ScopeMachine

open ScopeMachine.Action Probe

inductive FrameProbe where
  | frames
  | capture
  | state
  | depth
  | watermark
  | debug
  | resetGlobal
  | pool

def FrameProbe.perform {Code : Type} : FrameProbe → Action Code Value
  | .frames => emit do
      let machine ← get
      return .frames (machine.frames.toList.map machine.frameView)
  | .capture => emit do return .text (← get).capture.text
  | .state => emit do
      let machine ← get
      return .state machine.depth machine.watermark
        (machine.frames.top?.map machine.frameView)
  | .depth => do return .ofCount (← get).depth
  | .watermark => do return .ofCount (← get).watermark
  | .debug => emit do return .text (← get).debugText
  | .resetGlobal => unit do
      let scope := (← get).sharedGlobal
      onHeap fun heap => ((), heap.resetGlobal scope)
  | .pool => emit do return .pool (← get).pool.length

end ScopeMachine
