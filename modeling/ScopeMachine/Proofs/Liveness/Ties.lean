import ScopeMachine.Proofs.Liveness.Evolution

namespace ScopeMachine

open ScopeMachine.Action Relation

namespace Heap

variable {Code : Type} {heap : Heap Code}

/-- Ties of scopes and functions that are made once and for all. -/
inductive Ties (heap : Heap Code) : Handle → Handle → Prop where
  | link {id next : ScopeId} (linked : heap.Links id next) : Ties heap (.scope id) (.scope next)
  | maker {id : ScopeId} {maker : FunctionId}
      (made : (heap.scope id).kind = .constructor maker ∨
        (heap.scope id).kind = .object (some maker)) : Ties heap (.scope id) (.function maker)
  | enclosing {id : FunctionId} {function : Function Code}
      (found : heap.function? id = some function) :
      Ties heap (.function id) (.scope function.enclosing)
  | statics {id : FunctionId} {function : Function Code} {scope : ScopeId}
      (found : heap.function? id = some function) (statics : function.statics = some scope) :
      Ties heap (.function id) (.scope scope)
  | super {id parent : FunctionId} {function : Function Code}
      (found : heap.function? id = some function) (super : function.parent = .function parent) :
      Ties heap (.function id) (.function parent)

abbrev Tied (heap : Heap Code) : Handle → Handle → Prop := ReflTransGen heap.Ties

private theorem Ties.holds {holder target : Handle} (ties : heap.Ties holder target) :
    heap.Holds holder target := by
  cases ties with
  | link linked => exact Machine.Guarded.holds_of_links linked
  | maker made =>
      rw [holds_scope]
      rcases made with kind | kind <;>
        simp [Scope.holds, kind, ScopeKind.holds, Handle.isFunction]
  | enclosing found => exact ⟨_, found, by simp [Function.holds, Handle.isScope]⟩
  | statics found statics =>
      exact ⟨_, found, by simp [Function.holds, statics, Handle.isScope]⟩
  | super found super =>
      exact ⟨_, found, by simp [Function.holds, super, Value.holds]⟩

/-- Ties last while the functions stay and the scope leads on as it did. -/
theorem Ties.carry {heap' : Heap Code} {holder target : Handle} (ties : heap.Ties holder target)
    (functions : ∀ {id function}, heap.function? id = some function →
      heap'.function? id = some function)
    (scopes : ∀ {id}, holder = .scope id → (heap.scope id).Evolves (heap'.scope id)) :
    heap'.Ties holder target := by
  cases ties with
  | link linked =>
      have evolves := scopes rfl
      exact .link (linked.imp evolves.previous.trans evolves.target.trans)
  | @maker id maker made =>
      have evolves := scopes rfl
      have uncalled : (heap.scope id).variant ≠ .function := by
        unfold Scope.variant
        rcases made with kind | kind <;> rw [kind] <;> nofun
      exact .maker (evolves.kind_eq uncalled ▸ made)
  | enclosing found => exact .enclosing (functions found)
  | statics found statics => exact .statics (functions found) statics
  | super found super => exact .super (functions found) super

theorem forkedWithin_leads (budget : Nat) (id : ScopeId) :
    ReflTransGen heap.Links id (heap.forkedWithin budget id) := by
  induction budget generalizing id with
  | zero => exact .refl
  | succ budget induction =>
      unfold forkedWithin
      split
      next object fork => exact .head (.inr (by rw [fork]; rfl)) (induction object)
      next => exact .refl

theorem Tied.leads {handle : Handle} {id next : ScopeId} (tied : heap.Tied handle (.scope id))
    (leads : ReflTransGen heap.Links id next) : heap.Tied handle (.scope next) := by
  induction leads with
  | refl => exact tied
  | tail _ linked induction => exact .tail induction (.link linked)

end Heap

namespace Machine

variable {Code : Type} {machine : Machine Code} {known : List Handle}

/-- What something within reach is tied to is within reach. -/
theorem Live.tied (guarded : machine.Guarded known) {holder target : Handle}
    (live : machine.Live known holder) (tied : machine.heap.Tied holder target) :
    machine.Live known target := by
  induction tied with
  | refl => exact live
  | tail _ ties induction => exact guarded.serves.closed induction ties.holds

private theorem Guarded.shelve (guarded : machine.Guarded known) {id : ScopeId}
    (lost : machine.Lost known (.scope id)) (idle : id ∉ machine.pool) :
    (machine.shelve [id]).Guarded known := by
  refine ⟨?_, fun other listed => ?_, guarded.root_there, guarded.held_there, guarded.grounded⟩
  · refine List.nodup_append.mpr ⟨guarded.pool_nodup, List.nodup_singleton id, ?_⟩
    rintro other pooled _ listed rfl
    exact idle (List.mem_singleton.mp listed ▸ pooled)
  · rcases List.mem_append.mp listed with pooled | shelved
    · exact guarded.pool_lost other pooled
    · exact List.mem_singleton.mp shelved ▸ lost

end Machine

namespace Client

variable {Code : Type} {before after : Client Code}

private theorem Move.lost (move : Move before after) (guarded : before.machine.Guarded before.known)
    {id : ScopeId} (lost : before.machine.Lost before.known (.scope id))
    (idle : id ∉ before.machine.pool) : after.machine.Lost after.known (.scope id) :=
  (move.shelved (guarded.shelve lost idle)).pool_lost id
    (List.mem_append_right _ (List.mem_singleton_self id))

/-- A scope within reach, together with everything that it is tied to. -/
structure Anchored (client : Client Code) (anchor : ScopeId) : Prop where
  lasting : client.machine.Lasting anchor
  live : client.machine.Live client.known (.scope anchor)

theorem Move.anchored_before (move : Move before after) (orderly : before.Orderly)
    {anchor : ScopeId} (lasting : before.machine.Lasting anchor)
    (anchored : after.Anchored anchor) :
    before.Anchored anchor := by
  refine ⟨lasting, fun lost => ?_, fun same => Handle.scope.inj same ▸ lasting.old⟩
  exact anchored.live.found (move.lost orderly.guarded lost lasting.idle)

theorem Anchored.idle {client : Client Code} {anchor : ScopeId} (anchored : client.Anchored anchor)
    (orderly : client.Orderly) {id : ScopeId}
    (tied : client.machine.heap.Tied (.scope anchor) (.scope id)) : id ∉ client.machine.pool :=
  orderly.guarded.not_pooled (anchored.live.tied orderly.guarded tied)

theorem Leads.tied {start later : Client Code} (leads : Leads start later)
    (orderly : start.Orderly) {anchor : ScopeId} (lasting : start.machine.Lasting anchor)
    (anchored : later.Anchored anchor) {target : Handle}
    (tied : start.machine.heap.Tied (.scope anchor) target) :
    later.machine.Live later.known target ∧ ∀ {id}, target = .scope id →
      (start.machine.heap.scope id).Evolves (later.machine.heap.scope id) := by
  induction leads generalizing target with
  | refl =>
      exact ⟨anchored.live.tied orderly.guarded tied, fun _ => .refl _⟩
  | @tail middle later earlier move induction =>
      have orderly' := Leads.orderly earlier orderly
      have orderly'' := move.orderly orderly'
      have lasting' := (Leads.lasting earlier orderly lasting).1
      have anchored' := move.anchored_before orderly' lasting' anchored
      have functions := @Leads.function? _ _ _ (.tail earlier move) orderly
      have evolves := move.evolves orderly'.sound
      -- Along the ties: what is within reach is not pooled, so that its own ties last.
      induction tied with
      | refl =>
          refine ⟨anchored.live, fun same => ?_⟩
          obtain rfl := Handle.scope.inj same
          exact (induction anchored' .refl).2 rfl |>.trans (evolves.scope lasting')
      | @tail holder target tied ties further =>
          have live : later.machine.Live later.known target :=
            orderly''.guarded.serves.closed further.1 (ties.carry functions further.2).holds
          have earlier := induction anchored' (.tail tied ties)
          refine ⟨live, fun {id} same => ?_⟩
          obtain rfl := same
          refine (earlier.2 rfl).trans (evolves.heap.scope (earlier.1.there rfl) ⟨?_, ?_⟩)
          · exact orderly'.guarded.not_pooled earlier.1
          · exact orderly''.guarded.not_pooled live

end Client

end ScopeMachine
