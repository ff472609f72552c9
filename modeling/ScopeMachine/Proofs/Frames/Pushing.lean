import ScopeMachine.Proofs.Calls.Layouts
import ScopeMachine.Proofs.Frames.Deeds

/-!
Adding several values to a table at once, or one after the other. Room made little by little ends
where room made at once does, on either side of the point at which the arena is full.
-/

namespace ScopeMachine

open Arena (Bounds)

def Arena.Bounds.tops (bounds : Bounds) (slice : Slice) : Bool :=
  slice.stop == bounds.watermark && bounds.floor ≤ slice.offset

namespace Table

inductive Site where
  | onHeap (reserved : Option Slice)
  | inArena (slice : Slice)
  deriving DecidableEq

def site : Table → Site
  | .onHeap _ reserved => .onHeap reserved
  | .inArena slice _ => .inArena slice

private theorem isArena_of_site {table other : Table} (same : table.site = other.site) :
    table.isArena = other.isArena := by
  cases table <;> cases other <;> first | rfl | cases same

private theorem slice?_of_site {table other : Table} (same : table.site = other.site) :
    table.slice? = other.slice? := by
  cases table <;> cases other <;> cases same <;> rfl

namespace Site

def withRoom (capacity : Nat) : Site × Bounds → Site × Bounds
  | (.onHeap reserved, bounds) => (.onHeap reserved, bounds)
  | (.inArena slice, bounds) =>
      if capacity ≤ slice.capacity then (.inArena slice, bounds)
      else if bounds.tops slice then
        if capacity - slice.capacity ≤ bounds.capacity - bounds.watermark then
          (.inArena ⟨slice.offset, capacity⟩,
            { bounds with watermark := bounds.watermark + (capacity - slice.capacity) })
        else (.onHeap none, { bounds with watermark := slice.offset })
      else (.onHeap (some slice), bounds)

private theorem withRoom_withRoom {less capacity : Nat} (le : less ≤ capacity)
    (place : Site × Bounds) :
    withRoom capacity (withRoom less place) = withRoom capacity place := by
  obtain ⟨reserved | slice, bounds⟩ := place
  · rfl
  · simp only [withRoom]
    by_cases fits : less ≤ slice.capacity
    · rw [if_pos fits]
    · have outgrown : ¬ capacity ≤ slice.capacity := fun fits' => fits (Nat.le_trans le fits')
      rw [if_neg fits, if_neg outgrown]
      cases top : bounds.tops slice with
      | false => rfl
      | true =>
          simp only [if_true]
          obtain ⟨stop, floor⟩ := (Bool.and_eq_true _ _).mp top
          have stop : slice.offset + slice.capacity = bounds.watermark := eq_of_beq stop
          by_cases grows : less - slice.capacity ≤ bounds.capacity - bounds.watermark
          · rw [if_pos grows]
            have still : Bounds.tops
                { bounds with watermark := bounds.watermark + (less - slice.capacity) }
                ⟨slice.offset, less⟩ = true := by
              refine (Bool.and_eq_true _ _).mpr ⟨beq_iff_eq.mpr ?_, floor⟩
              change slice.offset + less = bounds.watermark + (less - slice.capacity)
              omega
            simp only [still, if_true]
            by_cases same : capacity ≤ less
            · obtain rfl := Nat.le_antisymm le same
              rw [if_pos (Nat.le_refl _), if_pos grows]
            · rw [if_neg same]
              split <;> split <;> first | omega | skip
              · simp only [Prod.mk.injEq, Bounds.mk.injEq, and_true, true_and]
                omega
              · rfl
          · have short : ¬ capacity - slice.capacity ≤ bounds.capacity - bounds.watermark := by
              omega
            rw [if_neg grows, if_neg short]

end Site

variable {table : Table} {memory : Memory}

def place (result : Table × Memory) : Site × Bounds := (result.1.site, result.2.bounds)

private theorem place_copyOut (slice : Slice) (length : Nat) (memory : Memory) :
    place ((inArena slice length).copyOut memory) =
      if memory.bounds.tops slice then
        (.onHeap none, { memory.bounds with watermark := slice.offset })
      else (.onHeap (some slice), memory.bounds) := by
  have taken := Memory.bounds_take memory slice.offset length
  have same : (memory.take slice.offset length).2.arena.isTop slice.offset slice.capacity =
      memory.bounds.tops slice := congrArg (Bounds.tops · slice) taken
  unfold copyOut Arena.popTop?
  dsimp only
  rw [same]
  cases memory.bounds.tops slice with
  | false => exact congrArg (Prod.mk _) taken
  | true =>
      refine congrArg (Prod.mk _) ?_
      change Bounds.mk slice.offset _ _ = _
      rw [← taken]
      rfl

private theorem place_ensureCapacity (table : Table) (capacity : Nat) (memory : Memory) :
    place (table.ensureCapacity capacity memory) =
      Site.withRoom capacity (place (table, memory)) := by
  cases table with
  | onHeap cells reserved => rfl
  | inArena slice length =>
      have copied := place_copyOut slice length memory
      have grow : memory.arena.grow? slice.offset slice.capacity (capacity - slice.capacity) =
          if memory.bounds.tops slice &&
              capacity - slice.capacity ≤ memory.bounds.capacity - memory.bounds.watermark then
            some { memory.arena with
              watermark := memory.arena.watermark + (capacity - slice.capacity) }
          else none := rfl
      change place (ite _ _ _) = ite _ _ _
      by_cases enough : capacity ≤ slice.capacity
      · rw [if_pos enough, if_pos enough]
        rfl
      · rw [if_neg enough, if_neg enough, grow]
        cases top : memory.bounds.tops slice with
        | false =>
            rw [top] at copied
            exact copied
        | true =>
            rw [top] at copied
            by_cases fits :
                capacity - slice.capacity ≤ memory.bounds.capacity - memory.bounds.watermark
            · simp only [Bool.true_and, decide_eq_true fits, if_pos fits, if_true]
              rfl
            · simp only [Bool.true_and, decide_eq_false fits, if_neg fits, if_true]
              exact copied

private theorem site_extendTo (table : Table) (length : Nat) (memory : Memory) :
    (table.extendTo length memory).1.site = table.site := by
  cases table <;> rfl

private theorem place_push (table : Table) (value : Value) (memory : Memory) :
    place (table.push value memory) = Site.withRoom (table.length + 1) (place (table, memory)) := by
  have made := place_ensureCapacity table (table.length + 1) memory
  have extended : place (table.extended table.length memory) =
      place (table.ensureCapacity (table.length + 1) memory) := by
    unfold Table.extended
    rw [if_neg (Nat.lt_irrefl _)]
    exact congrArg₂ Prod.mk (site_extendTo ..) (bounds_extendTo ..)
  have touched : place (table.cellAt table.length memory).2 =
      place (table.extended table.length memory) := by
    rw [cellAt_eq]
    generalize table.extended table.length memory = result
    obtain ⟨cells | slice, after⟩ := result
    · rfl
    · exact congrArg (Prod.mk _) (Memory.bounds_slot ..)
  exact touched.trans (extended.trans made)

private theorem pushEach_cons (table : Table) (value : Value) (values : List Value)
    (memory : Memory) :
    table.pushEach (value :: values) memory =
      (table.push value memory).1.pushEach values (table.push value memory).2 := rfl

private theorem length_pushEach (table : Table) (values : List Value) (memory : Memory) :
    (table.pushEach values memory).1.length = table.length + values.length := by
  induction values generalizing table memory with
  | nil => rfl
  | cons value values induction =>
      rw [pushEach_cons, induction, length_push, List.length_cons]
      omega

private theorem place_pushEach (table : Table) (value : Value) (values : List Value)
    (memory : Memory) :
    place (table.pushEach (value :: values) memory) =
      Site.withRoom (table.length + (values.length + 1)) (place (table, memory)) := by
  induction values generalizing table memory value with
  | nil => exact place_push ..
  | cons next values induction =>
      rw [pushEach_cons, induction, length_push]
      change Site.withRoom _ (place (table.push value memory)) = _
      rw [place_push, Site.withRoom_withRoom (by omega), List.length_cons]
      congr 1
      omega

private theorem place_pushTogether (table : Table) (value : Value) (values : List Value)
    (memory : Memory) :
    place (table.pushTogether (value :: values) memory) =
      Site.withRoom (table.length + (values.length + 1)) (place (table, memory)) := by
  have made := place_ensureCapacity table (table.length + (values.length + 1)) memory
  have same := length_ensureCapacity table (table.length + (values.length + 1)) memory
  change place ((table.ensureCapacity (table.length + (values.length + 1)) memory).1.pushEach
    (value :: values) _) = _
  rw [place_pushEach, same]
  exact (congrArg _ made).trans (Site.withRoom_withRoom (Nat.le_refl _) _)

private theorem values_push (sound : memory.Sound) (aloof : table.Aloof memory) (value : Value) :
    (table.push value memory).1.values (table.push value memory).2 =
      table.values memory ++ [value] := by
  have saves := push_saves table value memory
  rw [values_eq, values_eq, length_push, List.range_succ, List.map_append]
  congr 1
  · refine List.map_congr_left fun slot listed => ?_
    rw [saves.content sound aloof (List.mem_range.mp listed)]
  · exact congrArg (· :: []) (content_push_last sound aloof value)

private theorem pushEach_saves (table : Table) (values : List Value) (memory : Memory) :
    Saves table.length table memory (table.pushEach values memory).1
      (table.pushEach values memory).2 := by
  induction values generalizing table memory with
  | nil => exact .refl ..
  | cons value values induction =>
      have later := induction (table.push value memory).1 (table.push value memory).2
      rw [length_push] at later
      exact (push_saves table value memory).trans (later.mono (Nat.le_succ _))

private theorem values_pushEach (sound : memory.Sound) (aloof : table.Aloof memory)
    (values : List Value) :
    (table.pushEach values memory).1.values (table.pushEach values memory).2 =
      table.values memory ++ values := by
  induction values generalizing table memory with
  | nil => exact (List.append_nil _).symm
  | cons value values induction =>
      have stays := push_staysDetached table memory value
      rw [pushEach_cons, induction ((stays.continues sound).sound sound) (stays.aloof sound aloof),
        values_push sound aloof, List.append_assoc]
      rfl

structure Adds (table : Table) (memory : Memory) (values : List Value) (result : Table × Memory) :
    Prop where
  length : result.1.length = table.length + values.length
  values : result.1.values result.2 = table.values memory ++ values
  kept : ∀ {slot : Nat} {id : CellId}, table.cell? slot memory = some id →
    result.1.cell? slot result.2 = some id
  content : ∀ {slot : Nat}, slot < table.length →
    result.1.content slot result.2 = table.content slot memory

private theorem pushEach_adds (sound : memory.Sound) (aloof : table.Aloof memory)
    (values : List Value) :
    table.Adds memory values (table.pushEach values memory) where
  length := length_pushEach ..
  values := values_pushEach sound aloof values
  kept named := (pushEach_saves ..).cell? sound (lt_length_of_cell? named) named
  content := (pushEach_saves ..).content sound aloof

private theorem pushTogether_adds (sound : memory.Sound) (aloof : table.Aloof memory)
    (values : List Value) : table.Adds memory values (table.pushTogether values memory) := by
  have roomy := ensureCapacity_saves table.length table (table.length + values.length) memory
  have same := length_ensureCapacity table (table.length + values.length) memory
  have added := pushEach_adds ((roomy.continues sound).sound sound) (roomy.aloof sound aloof) values
  refine ⟨added.length.trans (congrArg (· + values.length) same), ?_, fun named => ?_,
    fun below => ?_⟩
  · exact added.values.trans (congrArg (· ++ values) (roomy.values_eq same sound aloof))
  · exact added.kept (roomy.cell? sound (lt_length_of_cell? named) named)
  · exact (added.content (same.symm ▸ below)).trans (roomy.content sound aloof below)

/-- Two ways of adding to a table that nobody can tell apart afterwards. -/
structure Concur (table : Table) (memory : Memory) (left right : Table × Memory) : Prop where
  length : left.1.length = right.1.length
  values : left.1.values left.2 = right.1.values right.2
  /-- Every old slot names its cell still. -/
  kept : ∀ {slot : Nat} {id : CellId}, table.cell? slot memory = some id →
    left.1.cell? slot left.2 = some id ∧ right.1.cell? slot right.2 = some id
  content : ∀ {slot : Nat}, slot < table.length →
    left.1.content slot left.2 = right.1.content slot right.2
  isArena : left.1.isArena = right.1.isArena
  /-- The slice that the table occupies or reserves. -/
  slice : left.1.slice? = right.1.slice?
  watermark : left.2.arena.watermark = right.2.arena.watermark

private theorem Adds.concur {values : List Value} {left right : Table × Memory}
    (first : table.Adds memory values left) (second : table.Adds memory values right)
    (same : place left = place right) : table.Concur memory left right where
  length := first.length.trans second.length.symm
  values := first.values.trans second.values.symm
  kept named := ⟨first.kept named, second.kept named⟩
  content below := (first.content below).trans (second.content below).symm
  isArena := isArena_of_site (congrArg Prod.fst same)
  slice := slice?_of_site (congrArg Prod.fst same)
  watermark := congrArg (fun result => result.2.watermark) same

private theorem pushTogether_concur (sound : memory.Sound) (aloof : table.Aloof memory)
    (value : Value)
    (values : List Value) :
    table.Concur memory (table.pushTogether (value :: values) memory)
      (table.pushEach (value :: values) memory) :=
  (pushTogether_adds sound aloof _).concur (pushEach_adds sound aloof _)
    ((place_pushTogether ..).trans (place_pushEach ..).symm)

end Table

namespace Workspace

variable {Code : Type}

/-- The table is at hand, or holds the members of a scope. -/
def Owns (state : Workspace Code) (table : Table) : Prop :=
  (∃ number, (state.entryAt? number).map Entry.table = some table) ∨
    ∃ id, (state.machine.heap.scope id).members = table

private theorem Detached.aloof {state : Workspace Code} (detached : state.Detached) {table : Table}
    (owned : state.Owns table) : table.Aloof state.memory := by
  rcases owned with ⟨number, held⟩ | ⟨id, rfl⟩
  · obtain ⟨entry, found, rfl⟩ := Option.map_eq_some_iff.mp held
    exact detached.entries found
  · exact detached.machine.aloof id

/-- Values that are added to a table together leave it as values added one by one do. Room for
several is made at once, so the two part ways on a slice that can grow for some of the values only;
they meet again when it is handed back. -/
theorem pushing_together_concurs (limits : Limits) (choice : GlobalChoice)
    (deeds : List (Deed Code)) {table : Table}
    (owned : ((fresh limits choice).after deeds).Owns table) (value : Value)
    (values : List Value) :
    table.Concur ((fresh limits choice).after deeds).memory
      (table.pushTogether (value :: values) ((fresh limits choice).after deeds).memory)
      (table.pushEach (value :: values) ((fresh limits choice).after deeds).memory) := by
  have detached := (fresh_detached limits choice).after deeds
  exact Table.pushTogether_concur detached.machine.sound (detached.aloof owned) value values

/-- Two slots in all, one of them the table's. -/
def crammed : List (Deed Unit) :=
  [.move (.openFrame "f" "f.osc" ⟨0⟩), .move (.allocateTable 1)]

theorem pushing_together_concurs_crammed :
    let state := (fresh { Limits.default with arenaCapacity := 2 } .empty).after crammed
    let table := Table.inArena ⟨0, 1⟩ 0
    state.Owns table ∧ table.growsInPlace 2 state.memory = true ∧
      table.growsInPlace 3 state.memory = false ∧
      (table.pushTogether [.null, .bool true, .null] state.memory).2.arena.watermark = 0 ∧
      (table.pushEach [.null, .bool true, .null] state.memory).2.arena.watermark = 0 := by
  intro state table
  have owned : state.Owns table := .inl ⟨0, by decide +kernel⟩
  have concur : table.Concur state.memory
      (table.pushTogether [.null, .bool true, .null] state.memory)
      (table.pushEach [.null, .bool true, .null] state.memory) :=
    pushing_together_concurs _ _ crammed owned .null [.bool true, .null]
  have handed :
      (table.pushTogether [.null, .bool true, .null] state.memory).2.arena.watermark = 0 := by
    decide +kernel
  exact ⟨owned, by decide +kernel, by decide +kernel, handed, concur.watermark.symm.trans handed⟩

end Workspace

end ScopeMachine
