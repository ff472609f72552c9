import ScopeMachine.Probe.Basic
import ScopeMachine.Value.Equality
import ScopeMachine.Value.Inspection

namespace ScopeMachine

open ScopeMachine.Action Probe

inductive ValueProbe where
  | fresh (literal : Literal)
  | frozen
  | has (name : String)
  | equal
  | isInstance
  | extends
  | typeOf
  | typeName
  | toText
  | toBool
  | toExact
  | toInexact
  | push
  | setAt (position : Nat)
  | getAt (position : Nat)
  | arrayInfo
  | sameArray
  | debug
  | emit
  /-- Finds a member and keeps its cell. -/
  | find (name : String) (throwing : Bool) (reference : String)

def ValueProbe.perform {Code : Type} : ValueProbe → List Value → Action Code Value
  | .fresh literal, [] => onHeap literal.build
  | .frozen, values => do return .array (← onHeap (·.newArray values true))
  | .has name, [value] => do return .bool (← onHeap (·.member value name)).isSome
  | .equal, [left, right] => do return .bool (← readHeap (·.equal left right))
  | .isInstance, [value, type] => do return .bool (← readHeap (·.isInstance value type))
  | .extends, [.function id, type] => do return .bool (← readHeap (·.extends? id type))
  | .typeOf, [value] => readHeap (·.classOf value)
  | .typeName, [value] => do return .text (← readHeap (·.typeName value))
  | .toText, [value] => do return .text (← readHeap (·.text value))
  | .toBool, [value] => do return .bool (← cast Heap.toBool value)
  | .toExact, [value] => do return .exact (← cast Heap.toExact value)
  | .toInexact, [value] => do return .inexact (← cast Heap.toInexact value)
  | .push, [.array id, value] => do
      tryHeap (·.pushElement id value)
      return .array id
  | .setAt position, [.array id, value] => do
      tryHeap (·.setElement id position value)
      return .array id
  | .getAt position, [.array id] => do
      return (← readHeap fun heap => (heap.array id).elements[position]?).getD .null
  | .arrayInfo, [.array id] => Probe.emit do
      let array ← readHeap (·.array id)
      return .array array.elements.size array.frozen
  | .sameArray, [.array left, .array right] => return .bool (left == right)
  | .debug, [value] => Probe.emit do return .text (← readHeap (·.debugText value))
  | .emit, [value] => do
      observe (.value (← snapshot value))
      return value
  | .find name throwing reference, [value] => do
      keepFound reference (← insist throwing name (← onHeap (·.member value name)))
  | _, _ => unexpectedOperands

end ScopeMachine
