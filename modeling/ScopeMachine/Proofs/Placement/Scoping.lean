import ScopeMachine.Proofs.Placement.Building

namespace ScopeMachine

open Arena ScopeMachine.Action

private theorem Action.allocateBlock_room {Code : Type} (machine : Machine Code)
    (held : List Handle) (previous : ScopeId) (index : Index) :
    if (index.captures || machine.frames.isEmpty) = true then
      ∃ id after, allocateBlock previous index held machine = .ok id after ∧
        after.bounds = machine.bounds
    else match machine.heap.memory.arena.allocate index.size with
      | .ok (_, arena) => ∃ id after, allocateBlock previous index held machine = .ok id after ∧
          after.bounds = arena.bounds
      | .error fault =>
          allocateBlock previous index held machine = .error (.failure { fault }) machine := by
  rw [run_allocateBlock]
  split
  next => exact ⟨_, _, rfl, rfl⟩
  next off =>
    have framed : machine.frames.isEmpty = false := by simp_all
    rw [run_allocateTable, if_neg (by rw [framed]; exact Bool.false_ne_true)]
    cases allocated : machine.heap.memory.arena.allocate index.size with
    | error fault => rfl
    | ok slice =>
        obtain ⟨offset, arena⟩ := slice
        simp only [run_ofExcept, andThen_ok, run_pooledScope]
        cases machine.pool <;> exact ⟨_, _, rfl, rfl⟩

namespace Terms

variable {Code α β : Type} {terms : Terms Code} {link : Link} {left right : Machine Code}
  {a b : ScopeId} {kept : Handle → Handle → Prop} {held : List (Handle × Handle)}
  {index index' : Index}

private theorem Mirrors.blocks_together (mirrors : terms.Mirrors link .empty .empty left right)
    (inStep : terms.inStep) (index : Index) (known known' : List Handle) :
    (∃ id after id' after', allocateBlock a index known left = .ok id after ∧
        allocateBlock b index known' right = .ok id' after' ∧ after.bounds = after'.bounds) ∨
      ∃ failure, allocateBlock a index known left = .error (.failure failure) left ∧
        allocateBlock b index known' right = .error (.failure failure) right := by
  have bounds := mirrors.bounds inStep
  have room := Action.allocateBlock_room left known a index
  have room' := Action.allocateBlock_room right known' b index
  rw [← mirrors.framed] at room'
  by_cases off : (index.captures || left.frames.isEmpty) = true
  · rw [if_pos off] at room room'
    obtain ⟨id, after, ran, same⟩ := room
    obtain ⟨id', after', ran', same'⟩ := room'
    exact .inl ⟨id, after, id', after', ran, ran', same.trans (bounds.trans same'.symm)⟩
  · rw [if_neg off] at room room'
    rcases allocate_congr bounds index.size with
      ⟨fault, here, there⟩ | ⟨offset, arena, arena', here, there, filled⟩
    · rw [here] at room
      rw [there] at room'
      exact .inr ⟨_, room, room'⟩
    · rw [here] at room
      rw [there] at room'
      obtain ⟨id, after, ran, same⟩ := room
      obtain ⟨id', after', ran', same'⟩ := room'
      exact .inl ⟨id, after, id', after', ran, ran', same.trans (filled.trans same'.symm)⟩

private theorem Mirrors.block (mirrors : terms.Mirrors link .empty .empty left right)
    (under : link.Under a b) (members : index.members = index'.members)
    {id id' : ScopeId} {left' right' : Machine Code}
    (steps : left.Calm (fun _ => False) .empty left')
    (steps' : right.Calm (fun _ => False) .empty right')
    (blocks : Machine.Blocks a index left id left')
    (blocks' : Machine.Blocks b index' right id' right')
    (bounds : terms.inStep → left'.bounds = right'.bounds) :
    ∃ link', Onward link left right link' left' right' ∧
      terms.Mirrors link' .empty .empty left' right' ∧ link'.pairs (.scope id) (.scope id') ∧
      ∀ {reading}, blockReads (fun reading => link.sure reading a b) reading →
        link'.sure reading id id' := by
  have variant : (left'.heap.scope id).variant = .basic := congrArg ScopeKind.variant blocks.kind
  have newcomers : Newcomers link left'.heap right'.heap a b id id' := by
    refine ⟨blocks.previous, blocks'.previous, under, fun built => ?_, ?_, ?_,
      fun slot => ?_, ?_, ?_⟩
    · cases variant.symm.trans built
    · rw [blocks.index, blocks'.index]
      exact members
    · rw [blocks.kind, blocks'.kind]
      exact .basic
    · rw [blocks.content, blocks'.content]
      exact .blank link
    · rw [blocks.kind]
      rfl
    · rw [blocks'.kind]
      rfl
  exact ⟨_, onward_of_steps steps steps' (link.grows_add ..), mirrors.addScope steps steps'
    blocks.idle blocks'.idle blocks.busy blocks'.busy newcomers bounds, link.pairs_add ..,
    fun allowed => .inr ⟨variant ▸ scopeReads_of_blockReads allowed, rfl, rfl⟩⟩

namespace Matches

theorem allocateBlock (mirrors : terms.Mirrors link .empty .empty left right)
    (under : link.Under a b) (members : index.members = index'.members)
    (same : terms.inStep → index = index') :
    terms.Matches held kept link left right
      (fun link' id left id' right => terms.Mirrors link' .empty .empty left right ∧
        (link'.pairs (.scope id) (.scope id') ∧
          ∀ {reading}, blockReads (fun reading => link.sure reading a b) reading →
            link'.sure reading id id') ∧
        (left.heap.scope id).index = index ∧ (right.heap.scope id').index = index')
      (allocateBlock a index) (Action.allocateBlock b index') := by
  have steps := Machine.allocateBlock_steps mirrors.arranged (o := fun _ => False)
    (held.map Prod.fst) a index
  have steps' := Machine.allocateBlock_steps mirrors.arranged' (o := fun _ => False)
    (held.map Prod.snd) b index'
  unfold Matches
  by_cases inStep : terms.inStep
  · obtain rfl := same inStep
    rcases mirrors.blocks_together (a := a) (b := b) inStep index (held.map Prod.fst)
        (held.map Prod.snd) with ⟨id, after, id', after', ran, ran', bounds⟩ | ⟨failure, ran, ran'⟩
    · rw [ran] at steps ⊢
      rw [ran'] at steps' ⊢
      obtain ⟨link', onward, reached, made⟩ :=
        mirrors.block under members steps.1 steps'.1 steps.2 steps'.2 fun _ => bounds
      exact .ok (onward.weaken fun _ => trivial) ⟨reached, made, steps.2.index, steps'.2.index⟩
    · rw [ran] at steps ⊢
      rw [ran']
      obtain ⟨-, _, _, _, exhausted⟩ := steps
      cases exhausted
      exact .failure (mirrors.stay kept) mirrors ⟨.plain nofun, rfl, rfl⟩
  cases ran : Action.allocateBlock a index (held.map Prod.fst) left with
  | error abort after =>
      rw [ran] at steps
      obtain ⟨-, _, _, _, rfl⟩ := steps
      exact .leftFull inStep ⟨_, _, _, rfl⟩
  | ok id after =>
      cases ran' : Action.allocateBlock b index' (held.map Prod.snd) right with
      | error abort after' =>
          rw [ran'] at steps'
          obtain ⟨-, _, _, _, rfl⟩ := steps'
          exact .rightFull inStep ⟨_, _, _, rfl⟩
      | ok id' after' =>
          rw [ran] at steps
          rw [ran'] at steps'
          obtain ⟨link', onward, reached, made⟩ :=
            mirrors.block under members steps.1 steps'.1 steps.2 steps'.2 fun here =>
              absurd here inStep
          exact .ok (onward.weaken fun _ => trivial) ⟨reached, made, steps.2.index, steps'.2.index⟩

theorem setLine (mirrors : terms.Mirrors link .empty .empty left right) (line : Nat) :
    terms.Matches held kept link left right (terms.Meets Link.Values)
      (do modify (·.modifyTop fun frame => { frame with line }); return .null)
      (do modify (·.modifyTop fun frame => { frame with line }); return .null) := by
  obtain ⟨arranged, extension, lasts, capture⟩ :=
    mirrors.arranged.setLine (o := fun _ => False) line
  obtain ⟨arranged', extension', lasts', capture'⟩ :=
    mirrors.arranged'.setLine (o := fun _ => False) line
  unfold Matches
  simp only [run_bind, run_modify, run_pure, andThen_ok]
  refine .ok (.of_grows (.refl link) lasts lasts') ⟨⟨arranged, arranged', ?_, ?_, mirrors.limits,
    mirrors.bounds⟩, .plain rfl⟩
  · exact mirrors.agree.revise extension extension' False.elim False.elim
      fun _ either => either.elim False.elim False.elim
  · rw [capture, capture', mirrors.capture]

end Matches

end Terms

private theorem Link.Failures.sides {link : Link} {failure failure' : Failure}
    (failures : link.Failures failure failure') :
    ∃ pairs : List (Handle × Handle), pairs.map Prod.fst = failure.handles ∧
      pairs.map Prod.snd = failure'.handles := by
  obtain ⟨fault, backtrace, notes⟩ := failure
  obtain ⟨fault', backtrace', notes'⟩ := failure'
  cases failures.fault with
  | thrown values => exact ⟨_, values.handles.1, values.handles.2.1⟩
  | plain unthrown =>
      refine ⟨[], ?_, ?_⟩
      all_goals
        cases fault with
        | thrown value => exact absurd rfl (unthrown value)
        | _ => rfl

namespace Terms.Matches

variable {Op : Type} {terms : Terms (Expr Op)} {link : Link} {left right : Machine (Expr Op)}
  {a b : ScopeId} {held : List (Handle × Handle)} {licence : Licence}

abbrev Handles (terms : Terms (Expr Op)) (reads : Reading → Prop) (link : Link)
    (left right : Machine (Expr Op)) (held : List (Handle × Handle))
    (handler handler' : ScopeId → Action (Expr Op) Value) : Prop :=
  ∀ {link' : Link} {left' right' : Machine (Expr Op)} {inner inner' : ScopeId}
    {more : List (Handle × Handle)}, link.Passes (Held held) left right link' left' right' →
    terms.Stage ⟨fun _ => True, blockReads reads⟩ link' left' right' inner inner' (more ++ held) →
    terms.Matches (more ++ held) (Held (more ++ held)) link' left' right'
      (terms.Meets Link.Values) (handler inner) (handler' inner')

theorem bindAndHandle (stage : terms.Stage licence link left right a b held) (name : String)
    {failure failure' : Failure}
    (failures : link.Failures failure failure')
    {handler handler' : ScopeId → Action (Expr Op) Value}
    (handles : Handles terms licence.reads link left right held handler handler')
    (more : List (Handle × Handle)) :
    terms.Matches (more ++ held) (Held (more ++ held)) link left right (terms.Meets Link.Values)
      (Expr.catching.bindAndHandle a name handler failure)
      (Expr.catching.bindAndHandle b name handler' failure') := by
  unfold Expr.catching.bindAndHandle
  refine .bindHeap (stage.mirrors.caught failures)
    fun {link₁ left₁ right₁ caught caught'} onward₁ mirrors₁ values => ?_
  refine .bindHeap (mirrors₁.newScope (onward₁.grows.under stage.under) rfl .basic nofun rfl rfl)
    fun {link₂ left₂ right₂ inner inner'} onward₂ mirrors₂ made => ?_
  have unpooled : left₂.Admits (fun _ => True) inner := Machine.admits_unpooled made.unpooled
  have unpooled' : right₂.Admits (fun _ => True) inner' := Machine.admits_unpooled made.unpooled'
  refine .bindHeap (mirrors₂.createMember made.paired name .publicTier
      (fun pooled => unpooled pooled name trivial) fun pooled => unpooled' pooled name trivial)
    fun {link₃ left₃ right₃ cell cell'} onward₃ mirrors₃ places => ?_
  have values := (onward₂.trans onward₃).grows.values
    (Link.Values.getD values (show Value.handles .null = [] from rfl))
  have written := mirrors₃.write places (·.install (caught.getD .null))
    (·.install (caught'.getD .null)) ((mirrors₃.agree.places places).install values)
  have installs : terms.Accords .empty .empty link₃ left₃ right₃ (fun _ _ _ _ _ => True)
      ((), left₃.heap.modifyCell cell (·.install (caught.getD .null)))
      ((), right₃.heap.modifyCell cell' (·.install (caught'.getD .null))) :=
    ⟨link₃, written.1, written.2, trivial⟩
  refine .bindHeap installs
    fun {link₄ left₄ right₄ _ _} onward₄ mirrors₄ _ => ?_
  have busy := mirrors₂.agree.present made.paired
  have onward := onward₃.trans onward₄
  refine .holding [(.scope inner, .scope inner')] ?_
  have suits : Suits ⟨fun _ => True, blockReads licence.reads⟩ link₄ left₄ right₄ inner inner' :=
    .of_paired (onward.grows.pairs made.paired)
      (fun allowed => onward.grows.sure (made.sure (scopeReads_of_blockReads
        (blockReads_mono (fun read => onward₁.grows.sure (stage.sure read)) allowed))))
      (onward.lasts.admits busy.1 unpooled) (onward.lasts'.admits busy.2 unpooled')
  exact .weaken (@handles _ _ _ _ _ ((.scope inner, .scope inner') :: more)
    (((onward₁.trans onward₂).trans onward).weaken fun _ => trivial)
    { suits with mirrors := mirrors₄, listed := .head _ }) (.tail _)

theorem catching (stage : terms.Stage licence link left right a b held)
    (name : String) {body body' : Action (Expr Op) Value}
    {handler handler' : ScopeId → Action (Expr Op) Value}
    (inner : terms.Matches held (Held held) link left right (terms.Meets Link.Values) body body')
    (handles : Handles terms licence.reads link left right held handler handler') :
    terms.Matches held (Held held) link left right (terms.Meets Link.Values)
      (Expr.catching a name body handler) (Expr.catching b name body' handler') := by
  have fatal : ∀ {failure : Failure}, Full failure → failure.isCatchable = false := by
    rintro ⟨fault, _, _⟩ ⟨_, _, _, rfl⟩
    rfl
  unfold Matches at inner ⊢
  unfold Expr.catching
  generalize body (held.map Prod.fst) left = ending at inner ⊢
  generalize body' (held.map Prod.snd) right = ending' at inner ⊢
  cases inner with
  | ok passes met => exact .ok passes met
  | @failure link' failure failure' left' right' passes reached failures =>
      dsimp only
      rw [failures.isCatchable]
      split
      next =>
        obtain ⟨more, here, there⟩ := failures.sides
        rw [← here, ← there]
        have handled := Matches.holding _ (bindAndHandle (stage.after passes reached) name
          failures (fun further => handles (passes.trans further)) more)
        exact .after passes (Alike.weaken handled (List.mem_append_right _))
      next => exact .failure passes reached failures
  | crash passes reached => exact .crash passes reached
  | leftFull apart full =>
      dsimp only
      rw [fatal full]
      exact .leftFull apart full
  | rightFull apart full =>
      dsimp only
      rw [fatal full]
      exact .rightFull apart full

end Terms.Matches

end ScopeMachine
