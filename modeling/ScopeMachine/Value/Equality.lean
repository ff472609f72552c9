import ScopeMachine.Heap.Basic

namespace ScopeMachine.Heap

variable {Code : Type}

def leafEqual : Value → Value → Bool
  | .null, .null => true
  | .bool left, .bool right => left == right
  | .exact left, .exact right => left == right
  | .inexact left, .inexact right => left == right
  | .text left, .text right => left == right
  | .function left, .function right => left == right
  | .object left, .object right => left == right
  | .type left, .type right => left == right
  | .exception left, .exception right => left == right
  | _, _ => false

def equalWithin (heap : Heap Code) : Nat → List (ArrayId × ArrayId) → Value → Value → Bool
  | 0, _, _, _ => true
  | budget + 1, opened, left, right =>
      match left, right with
      | .array a, .array b =>
          a == b || opened.contains (a, b) ||
            ((heap.array a).elements.size == (heap.array b).elements.size &&
              ((heap.elements a).zip (heap.elements b)).all fun (x, y) =>
                heap.equalWithin budget ((a, b) :: opened) x y)
      | left, right => leafEqual left right

def equal (heap : Heap Code) (left right : Value) : Bool :=
  heap.equalWithin (heap.arrays.size * heap.arrays.size + 1) [] left right

def faultEqual (heap : Heap Code) : Fault → Fault → Bool
  | .thrown left, .thrown right => heap.equal left right
  | .illegalArgument left, .illegalArgument right => left == right
  | .arityMismatch name expected variadic got, .arityMismatch name' expected' variadic' got' =>
      name == name' && expected == expected' && variadic == variadic' && got == got'
  | .noSuchMember left, .noSuchMember right => left == right
  | .unsupportedOperation left, .unsupportedOperation right => left == right
  | .constReassignment left, .constReassignment right => left == right
  | .notCallable left, .notCallable right => left == right
  | .stackOverflow left, .stackOverflow right => left == right
  | .arenaExhausted requested available capacity,
      .arenaExhausted requested' available' capacity' =>
      requested == requested' && available == available' && capacity == capacity'
  | .internalInvariant left, .internalInvariant right => left == right
  | .exit left, .exit right => left == right
  | _, _ => false

def failureEqual (heap : Heap Code) (left right : Failure) : Bool :=
  heap.faultEqual left.fault right.fault && left.backtrace == right.backtrace &&
    left.notes == right.notes

end ScopeMachine.Heap
