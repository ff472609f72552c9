import ScopeMachine.Proofs.Placement.Releasing

namespace ScopeMachine

open Arena ScopeMachine.Action

namespace Machine

variable {Code : Type} {machine entered inner : Machine Code} {given : Handle → Prop}
  {held : List Handle} {o : ScopeId → Prop} {id file : String} {scope : ScopeId}

/-- Something was released, and what was in use before is in place. -/
structure Settles (given : Handle → Prop) (held : List Handle) (o : ScopeId → Prop)
    (before inner after : Machine Code) : Prop where
  lets : ∃ keep, Lets given held keep inner after
  size : after.heap.scopes.size = inner.heap.scopes.size
  arranged : after.Arranged .empty
  lasts : Lasts o before after

private theorem Frees.settles {ids : List ScopeId} {after : Machine Code}
    (frees : Frees given held ids inner after) (arranged : machine.Arranged .empty)
    (stays : machine.StaysInFrame after) (idle : ∀ id ∈ ids, ¬ machine.Busy id)
    (function? : ∀ {id function}, machine.heap.function? id = some function →
      inner.heap.function? id = some function)
    (endures : ∀ {id}, machine.Busy id → (machine.heap.scope id).Endures (inner.heap.scope id))
    (pooled : ∀ {id}, (inner.heap.scope id).pooled = true →
      machine.Busy id ∧ (machine.heap.scope id).pooled = true ∨
        id ∈ after.blocks.headD [] ∨ id ∈ ids)
    (blocks : ∀ {id}, id ∈ machine.blocks.headD [] → id ∈ after.blocks.headD []) :
    Settles given held o machine inner after := by
  obtain ⟨keep, lets⟩ := frees.lets
  have pooled : ∀ {other}, (after.heap.scope other).pooled = true →
      machine.Busy other ∧ (machine.heap.scope other).pooled = true ∨
        other ∈ after.blocks.headD [] := by
    intro other inside
    have outside : other ∉ ids := fun listed =>
      absurd ((frees.unpooled listed).symm.trans inside) nofun
    rw [frees.others outside] at inside
    exact (pooled inside).imp_right (·.resolve_right outside)
  have tidy := stays.spares.tidy
  refine ⟨frees.lets, frees.size, ⟨stays.steady.orderly arranged.orderly, tidy, frees.heap,
      fun {other} inside => ?_⟩, ⟨fun {id function} found => ?_, fun {id} => stays.spares.busy id,
      fun {id} busy => ?_, fun inside => (pooled inside).imp_right .inl, blocks⟩⟩
  · rcases pooled inside with ⟨busy, -⟩ | listed
    · exact stays.spares.busy other busy
    · exact tidy.blocks_busy other (mem_flatten_headD.mpr (.inl listed))
  · exact (congrArg (·[id.index]?) lets.functions).trans (function? found)
  · rw [frees.others fun listed => idle id listed busy]
    exact endures busy

theorem Arranged.openFrame (arranged : machine.Arranged .empty)
    (room : machine.depth < machine.limits.maxDepth) (id file : String) (scope : ScopeId) :
    (machine.openFrame id file scope).Arranged .empty ∧
      machine.Extends (fun _ => False) (machine.openFrame id file scope) := by
  obtain ⟨next, sameView⟩ := arranged.heap.marks
    (machine.heap.memory.arena.watermark :: machine.heap.memory.arena.marks)
  refine ⟨⟨openFrame_orderly arranged.orderly room id file scope,
      openFrame_tidy arranged.tidy id file scope, next, arranged.busy⟩,
    fun {handle} _ _ => ?_, fun {handle} present => ?_, fun _ => .refl _, fun _ => rfl,
    fun _ => rfl, fun found => found, rfl⟩
  · cases handle with
    | scope id => exact sameView id
    | _ => first | exact trivial | exact rfl
  · cases handle <;> exact present

theorem Arranged.closeFrame (arranged : machine.Arranged .empty) (held : List Handle)
    (stays : (machine.openFrame id file scope).StaysInFrame inner)
    (arranged' : inner.Arranged .empty)
    (lasts : Lasts (fun _ => False) (machine.openFrame id file scope) inner)
    (supplies : inner.heap.Supplies given) :
    Settles given held o machine inner (inner.closeFrame held) ∧
      machine.Restores (inner.closeFrame held) ∧
      (inner.closeFrame held).capture = ⟨inner.capture.lines.tail⟩ := by
  have restores := closeFrame_restores arranged.orderly stays held
  have shape : inner.frames.marks = machine.watermark :: machine.frames.marks := stays.steady.frames
  obtain ⟨top, outer, popped, mark, -⟩ := FrameStack.pop?_of_marks shape
  have blocks : inner.blocks = top.blocks :: outer.blockLists :=
    FrameStack.blockLists_of_pop? popped
  have head : inner.blocks.headD [] = top.blocks := by rw [blocks]; rfl
  have idle : ∀ other ∈ top.blocks, ¬ machine.Busy other := fun other there =>
    (stays.top other (head ▸ there)).resolve_left List.not_mem_nil
  have used : ∀ other ∈ top.blocks, inner.Busy other := fun other there =>
    arranged'.tidy.blocks_busy other (mem_flatten_headD.mpr (.inl (head ▸ there)))
  have pooled : ∀ {other}, (inner.heap.scope other).pooled = true →
      machine.Busy other ∧ (machine.heap.scope other).pooled = true ∨ other ∈ top.blocks := by
    intro other inside
    rcases lasts.pooled inside with earlier | listed | false
    · exact .inl earlier
    · exact .inr (head ▸ listed)
    · exact false.elim
  have frees : Frees given held top.blocks inner (inner.closeFrame held) := by
    refine closeFrame_frees arranged'.heap supplies popped (fun other there => (used other there).1)
      fun {other position} outside inside spanned => ?_
    obtain ⟨busy, before⟩ := (pooled inside).resolve_right outside
    have fits := arranged.heap.laid.fits (.members other)
    have endures := lasts.endures busy
    rw [Heap.store_pooled before] at fits
    obtain ⟨slice, spans, between⟩ := spanned
    rw [mark]
    exact fits.within ⟨slice, endures.slice? before ▸ spans, between⟩
  refine ⟨frees.settles arranged (restores.staysInFrame arranged.orderly) idle lasts.function?
    lasts.endures (fun inside => (pooled inside).imp_right .inr)
    (fun listed => restores.blocks.symm ▸ listed), restores, ?_⟩
  rw [Machine.closeFrame, popped]
  simp only [Machine.capture, frames_releaseBlocks]
  generalize inner.frames = stack at popped
  obtain ⟨_ | ⟨first, rest⟩, depth, depth_eq⟩ := stack
  · cases popped
  · obtain ⟨rfl, rfl⟩ := Prod.mk.inj (Option.some.inj popped)
    rfl

/-- The scope of a call is released, with nothing else. -/
theorem Arranged.releaseScope {scope : ScopeId} {after : Machine Code}
    (arranged : machine.Arranged .empty) (enters : Enters machine scope entered)
    (stays : entered.StaysInFrame after) (arranged' : after.Arranged .empty)
    (entry : Lasts (· = scope) machine entered) (lasts : Lasts (fun _ => False) entered after)
    (called : (entered.heap.scope scope).variant = .function)
    (supplies : after.heap.Supplies given) :
    Settles given held o machine after (after.releaseScope held scope) := by
  have whole := entry.trans (lasts.mono False.elim)
  have frees : Frees given held [scope] after (after.releaseScope held scope) :=
    releaseScope_frees arranged'.heap supplies (lasts.busy enters.busy).1
      ((lasts.endures enters.busy).variant.trans called)
  have blocks : (after.releaseScope held scope).blocks = after.blocks :=
    congrArg FrameStack.blockLists (frames_releaseScope ..)
  refine frees.settles arranged (StaysInFrame.releaseScope arranged.tidy enters.staysInFrame
    enters.frames
      enters.idle enters.busy stays held)
    (fun id listed => List.mem_singleton.mp listed ▸ enters.idle) whole.function? whole.endures
    (fun inside => (whole.pooled inside).imp_right ?_) fun listed => blocks ▸ whole.blocks listed
  rw [blocks]
  exact .imp_right List.mem_singleton.mpr

end Machine

end ScopeMachine
