import ScopeMachine.Proofs.Names.Interning
import ScopeMachine.Shape

/-!
Slots of names. Each view of a shape numbers the names that it admits in the order of their first
declarations, and no insertion takes a slot or a permission from a name.
-/

namespace ScopeMachine

namespace Index

variable {index : Index} {name other : String} {slot : Nat}

theorem slot?_lt (found : index.slot? name = some slot) : slot < index.size := by
  unfold slot? at found
  obtain ⟨below, -⟩ := Array.findIdx?_eq_some_iff_getElem.mp found
  exact below

theorem slot?_unique (found : index.slot? name = some slot)
    (again : index.slot? other = some slot) :
    name = other := by
  unfold slot? at found again
  obtain ⟨below, here, -⟩ := Array.findIdx?_eq_some_iff_getElem.mp found
  obtain ⟨_, there, -⟩ := Array.findIdx?_eq_some_iff_getElem.mp again
  exact (eq_of_beq here).symm.trans (eq_of_beq there)

theorem slot?_insert_self (index : Index) (name : String) (permission : Permission) :
    (index.insert name permission).2.slot? name = some (index.insert name permission).1 := by
  unfold insert
  cases found : index.slot? name with
  | some slot => exact found
  | none =>
      unfold slot? at found ⊢
      simp [Array.findIdx?_push, found, size]

theorem slot?_insert_ne (apart : other ≠ name) (index : Index) (permission : Permission) :
    (index.insert name permission).2.slot? other = index.slot? other := by
  unfold insert
  cases index.slot? name with
  | some slot => rfl
  | none =>
      unfold slot?
      simp [Array.findIdx?_push, apart.symm]

theorem slot?_insert (found : index.slot? name = some slot) (other : String)
    (permission : Permission) : (index.insert other permission).2.slot? name = some slot := by
  unfold insert
  cases index.slot? other with
  | some known => exact found
  | none =>
      unfold slot? at found ⊢
      simp [Array.findIdx?_push, found]

theorem size_insert (index : Index) (name : String) (permission : Permission) :
    index.size ≤ (index.insert name permission).2.size := by
  unfold insert
  cases index.slot? name with
  | some slot => exact Nat.le_refl _
  | none => simp [size]

theorem insert_of_new (new : index.slot? name = none) (permission : Permission) :
    (index.insert name permission).1 = index.size := by
  unfold insert
  rw [new]

def names (index : Index) : List String := index.members.toList.map (·.name)

theorem nameAt?_eq (index : Index) (slot : Nat) : index.nameAt? slot = index.names[slot]? := by
  simp [nameAt?, names]

theorem length_names (index : Index) : index.names.length = index.size := by
  simp [names, size]

private theorem nameAt?_of_slot? (found : index.slot? name = some slot) :
    index.nameAt? slot = some name := by
  unfold slot? at found
  obtain ⟨inside, here, -⟩ := Array.findIdx?_eq_some_iff_getElem.mp found
  rw [nameAt?, Array.getElem?_eq_getElem inside, Option.map_some, eq_of_beq here]

theorem slot?_of_names (nodup : index.names.Nodup) (listed : index.names[slot]? = some name) :
    index.slot? name = some slot := by
  have inside : slot < index.size := by
    rw [← length_names]
    exact (List.getElem?_eq_some_iff.mp listed).1
  have named {other : Nat} (below : other < index.members.size) :
      index.names[other]? = some index.members[other].name := by
    rw [← nameAt?_eq, nameAt?, Array.getElem?_eq_getElem below, Option.map_some]
  unfold slot?
  refine Array.findIdx?_eq_some_iff_getElem.mpr ⟨inside, ?_, fun other earlier same => ?_⟩
  · exact beq_iff_eq.mpr (Option.some.inj ((named inside).symm.trans listed))
  · -- the name would be listed twice
    have again := (named (Nat.lt_trans earlier inside)).trans (congrArg some (eq_of_beq same))
    have length : slot < index.names.length := (List.getElem?_eq_some_iff.mp listed).1
    exact List.nodup_iff_getElem?_ne_getElem?.mp nodup other slot earlier length
      (again.trans listed.symm)

private theorem contains_eq (index : Index) (name : String) :
    index.contains name = index.names.contains name := by
  unfold contains
  cases found : index.slot? name with
  | some slot =>
      have listed := List.mem_of_getElem? (nameAt?_eq index slot ▸ nameAt?_of_slot? found)
      exact (List.contains_iff_mem.mpr listed).symm
  | none =>
      refine (Bool.eq_false_iff.mpr fun listed => ?_).symm
      obtain ⟨declaration, listed, same⟩ := List.mem_map.mp (List.contains_iff_mem.mp listed)
      have other := Array.findIdx?_eq_none_iff.mp found declaration (Array.mem_toList_iff.mp listed)
      exact absurd same (beq_eq_false_iff_ne.mp other)

private theorem members_insert (index : Index) (name : String) (permission : Permission) :
    (index.insert name permission).2.members.toList =
      if index.names.contains name then index.members.toList
      else index.members.toList ++ [⟨name, permission.declared⟩] := by
  rw [← contains_eq]
  unfold insert contains
  cases index.slot? name with
  | some slot => rfl
  | none => exact Array.toList_push

theorem names_insert (index : Index) (name : String) (permission : Permission) :
    (index.insert name permission).2.names =
      if index.names.contains name then index.names else index.names ++ [name] := by
  conv => lhs; unfold names
  rw [members_insert]
  split
  · rfl
  · exact List.map_append

private theorem permissionAt?_eq (index : Index) (slot : Nat) :
    index.permissionAt? slot = index.members.toList[slot]?.map (·.permission) := by
  rw [permissionAt?, Array.getElem?_toList]

private theorem permissionAt?_insert (found : index.slot? name = some slot) (other : String)
    (permission : Permission) :
    (index.insert other permission).2.permissionAt? slot = index.permissionAt? slot := by
  have inside : slot < index.members.toList.length := slot?_lt found
  rw [permissionAt?_eq, permissionAt?_eq, members_insert]
  split
  · rfl
  · rw [List.getElem?_append_left inside]

/-- Inserts declarations one after the other. -/
def insertAll (index : Index) (declarations : List Declaration) : Index :=
  declarations.foldl
    (fun index declaration => (index.insert declaration.name declaration.permission).2) index

private theorem insertAll_append (index : Index) (first second : List Declaration) :
    index.insertAll (first ++ second) = (index.insertAll first).insertAll second :=
  List.foldl_append

theorem names_ofDeclarations (declarations : List Declaration) (captures : Bool) :
    (ofDeclarations declarations captures).names = (declarations.map (·.name)).eraseDups := by
  change (insertAll empty declarations).names = _
  unfold insertAll
  induction declarations using List.reverseRecOn with
  | nil => rfl
  | append_singleton declarations declaration induction =>
      rw [List.foldl_append, List.map_append, List.map_singleton, eraseDups_concat]
      refine (names_insert ..).trans ?_
      rw [induction]

private theorem insertAll_keeps (found : index.slot? name = some slot)
    (declarations : List Declaration) :
    (index.insertAll declarations).slot? name = some slot ∧
      (index.insertAll declarations).permissionAt? slot = index.permissionAt? slot := by
  induction declarations generalizing index with
  | nil => exact ⟨found, rfl⟩
  | cons declaration declarations induction =>
      obtain ⟨still, same⟩ := induction (slot?_insert found declaration.name declaration.permission)
      exact ⟨still, same.trans (permissionAt?_insert found ..)⟩

structure Dense (index : Index) : Prop where
  distinct : index.names.Nodup
  normal : ∀ member ∈ index.members.toList, member.permission.declared = member.permission

namespace Dense

private theorem empty : Index.empty.Dense := ⟨List.nodup_nil, nofun⟩

private theorem insert (dense : index.Dense) (name : String) (permission : Permission) :
    (index.insert name permission).2.Dense := by
  refine ⟨?_, ?_⟩
  · rw [names_insert]
    split
    next => exact dense.distinct
    next new =>
      refine List.nodup_append.mpr ⟨dense.distinct, List.nodup_singleton name, ?_⟩
      rintro other listed _ last rfl
      obtain rfl := List.mem_singleton.mp last
      exact new (List.contains_iff_mem.mpr listed)
  · rw [members_insert]
    split
    next => exact dense.normal
    next =>
      intro member listed
      rcases List.mem_append.mp listed with old | last
      · exact dense.normal member old
      · obtain rfl := List.mem_singleton.mp last
        exact permission.declared_declared

private theorem insertAll (dense : index.Dense) (declarations : List Declaration) :
    (index.insertAll declarations).Dense := by
  induction declarations generalizing index with
  | nil => exact dense
  | cons declaration declarations induction => exact induction (dense.insert ..)

private theorem ofDeclarations (declarations : List Declaration) (captures : Bool) :
    (Index.ofDeclarations declarations captures).Dense :=
  have built := empty.insertAll declarations
  ⟨built.distinct, built.normal⟩

private theorem slot?_eq_some_iff (dense : index.Dense) :
    index.slot? name = some slot ↔ index.nameAt? slot = some name :=
  ⟨nameAt?_of_slot?, fun named => slot?_of_names dense.distinct (nameAt?_eq index slot ▸ named)⟩

private theorem tier_of_permissionAt? (dense : index.Dense) {permission : Permission}
    (found : index.permissionAt? slot = some permission) :
    permission.declared = permission ∧
      permission.tier ∈ [.privateTier, .protectedTier, .publicTier] := by
  rw [permissionAt?_eq] at found
  obtain ⟨member, listed, rfl⟩ := Option.map_eq_some_iff.mp found
  have normal := dense.normal member (List.mem_of_getElem? listed)
  refine ⟨normal, ?_⟩
  rw [← normal, Permission.tier_declared]
  exact Permission.declaredTier_mem _

end Dense

end Index

namespace Shape

def opens (view : View) (earlier : List Declaration) (declaration : Declaration) : Bool :=
  view.admits declaration.permission &&
    !earlier.any fun other => view.admits other.permission && other.name == declaration.name

/-- For every name that a view admits the first declaration of it, in their order. -/
def openings (view : View) (declarations : List Declaration) : List Declaration :=
  (List.range declarations.length).filterMap fun position =>
    declarations[position]?.filter (opens view (declarations.take position))

private theorem openings_concat (view : View) (declarations : List Declaration)
    (declaration : Declaration) :
    openings view (declarations ++ [declaration]) =
      openings view declarations ++ if opens view declarations declaration then [declaration] else
        [] := by
  unfold openings
  rw [List.length_append, List.length_singleton, List.range_succ, List.filterMap_append]
  congr 1
  · refine List.filterMap_congr fun position below => ?_
    have below := List.mem_range.mp below
    rw [List.getElem?_append_left below, List.take_append_of_le_length (Nat.le_of_lt below)]
  · have last : (declarations ++ [declaration])[declarations.length]? = some declaration :=
      List.getElem?_concat_length
    have earlier : (declarations ++ [declaration]).take declarations.length = declarations :=
      List.take_left
    rw [List.filterMap_cons, last, earlier, Option.filter_some, List.filterMap_nil]
    cases opens view declarations declaration <;> rfl

private theorem mem_names_openings {view : View} {declarations : List Declaration} {name : String} :
    name ∈ (openings view declarations).map (·.name) ↔
      ∃ declaration ∈ declarations,
        declaration.name = name ∧ view.admits declaration.permission = true := by
  constructor
  · intro listed
    obtain ⟨opening, listed, named⟩ := List.mem_map.mp listed
    obtain ⟨position, -, found⟩ := List.mem_filterMap.mp listed
    obtain ⟨found, first⟩ := Option.filter_eq_some_iff.mp found
    exact ⟨opening, List.mem_of_getElem? found, named, (Bool.and_eq_true_iff.mp first).1⟩
  · rintro ⟨declaration, listed, rfl, admitted⟩
    induction declarations using List.reverseRecOn generalizing declaration with
    | nil => cases listed
    | append_singleton declarations last induction =>
        rw [openings_concat, List.map_append]
        rcases List.mem_append.mp listed with old | here
        · exact List.mem_append_left _ (induction declaration old admitted)
        · obtain rfl := List.mem_singleton.mp here
          by_cases first : opens view declarations declaration = true
          · rw [if_pos first]
            exact List.mem_append_right _ (List.mem_singleton.mpr rfl)
          · -- an earlier declaration has the name
            unfold opens at first
            rw [admitted, Bool.true_and, Bool.not_eq_true', Bool.not_eq_false] at first
            obtain ⟨other, earlier, same⟩ := List.any_eq_true.mp first
            obtain ⟨admitted, same⟩ := Bool.and_eq_true_iff.mp same
            exact List.mem_append_left _ (eq_of_beq same ▸ induction other earlier admitted)

private theorem opens_eq {view : View} {declaration : Declaration}
    (admitted : view.admits declaration.permission = true) (earlier : List Declaration) :
    opens view earlier declaration =
      !((openings view earlier).map (·.name)).contains declaration.name := by
  unfold opens
  rw [admitted, Bool.true_and]
  refine congrArg not (Bool.eq_iff_iff.mpr ?_)
  rw [List.any_eq_true, List.contains_iff_mem, mem_names_openings]
  refine exists_congr fun other => and_congr_right fun _ => ?_
  rw [Bool.and_eq_true_iff, and_comm, beq_iff_eq]

theorem table_ofDeclarations (view : View) (declarations : List Declaration) (captures : Bool) :
    (ofDeclarations declarations captures).table view =
      .ofDeclarations (declarationsOf view declarations) captures := by
  cases view <;> rfl

def settled (declaration : Declaration) : Declaration :=
  { declaration with permission := declaration.permission.declared }

private theorem members_table (view : View) (declarations : List Declaration) (captures : Bool) :
    ((ofDeclarations declarations captures).table view).members.toList =
      (openings view declarations).map settled := by
  rw [table_ofDeclarations]
  change (Index.insertAll .empty (declarationsOf view declarations)).members.toList = _
  induction declarations using List.reverseRecOn with
  | nil => rfl
  | append_singleton declarations declaration induction =>
      have listed : declarationsOf view (declarations ++ [declaration]) =
          declarationsOf view declarations ++
            if view.admits declaration.permission then [declaration] else [] := by
        unfold declarationsOf
        rw [List.filter_append, List.filter_singleton, View.admits_declared, cond_eq_ite]
      rw [listed, openings_concat, List.map_append, Index.insertAll_append, ← induction]
      have named : (Index.insertAll .empty (declarationsOf view declarations)).names =
          (openings view declarations).map (·.name) := by
        unfold Index.names
        rw [induction, List.map_map]
        rfl
      cases admitted : view.admits declaration.permission with
      | false =>
          have apart : opens view declarations declaration = false := by
            unfold opens
            rw [admitted, Bool.false_and]
          rw [apart]
          exact (List.append_nil _).symm
      | true =>
          refine (Index.members_insert ..).trans ?_
          rw [named, opens_eq admitted]
          cases ((openings view declarations).map (·.name)).contains declaration.name with
          | false => rfl
          | true => exact (List.append_nil _).symm

private theorem names_table (view : View) (declarations : List Declaration) (captures : Bool) :
    ((ofDeclarations declarations captures).table view).names =
      (openings view declarations).map (·.name) := by
  unfold Index.names
  rw [members_table, List.map_map]
  rfl

/-- Each view of a shape numbers the names that it admits by their first declarations, which their
permissions are from, and no name is in the complete view alone. Names and slots stand for each
other one to one, then and after any insertions, which take nothing from a name. -/
theorem views_number_first_declarations (declarations : List Declaration) (captures : Bool)
    (view : View) (inserts : List Declaration) :
    let shape := ofDeclarations declarations captures
    let table := shape.table view
    let later := table.insertAll inserts
    (table.size = (openings view declarations).length ∧
      ∀ slot,
        table.nameAt? slot = (openings view declarations)[slot]?.map (·.name) ∧
        table.permissionAt? slot =
          (openings view declarations)[slot]?.map (·.permission.declared)) ∧
    (∀ name, table.contains name = true ↔
      ∃ declaration ∈ declarations,
        declaration.name = name ∧ view.admits declaration.permission = true) ∧
    (∀ name, shape.all.contains name = true →
      shape.publicProtected.contains name = true ∨ shape.privateOnly.contains name = true) ∧
    (∀ name slot, later.slot? name = some slot ↔ later.nameAt? slot = some name) ∧
    (∀ slot,
      if slot < later.size then
        ∃ name permission, later.nameAt? slot = some name ∧
          later.permissionAt? slot = some permission ∧ permission.declared = permission ∧
          permission.tier ∈ [.privateTier, .protectedTier, .publicTier]
      else later.nameAt? slot = none ∧ later.permissionAt? slot = none) ∧
    (∀ name slot, table.slot? name = some slot →
      later.slot? name = some slot ∧ later.permissionAt? slot = table.permissionAt? slot) ∧
    ∀ name permission,
      let slot := (later.insert name permission).1
      let after := (later.insert name permission).2
      after.slot? name = some slot ∧
      (if later.contains name then after = later
        else slot = later.size ∧ after.permissionAt? slot = some permission.declared) ∧
      ∀ other place, later.slot? other = some place →
        after.slot? other = some place ∧ after.permissionAt? place = later.permissionAt? place := by
  intro shape table later
  have members : table.members.toList = (openings view declarations).map settled :=
    members_table view declarations captures
  have dense : later.Dense := by
    have built : table.Dense := by
      change ((ofDeclarations declarations captures).table view).Dense
      rw [table_ofDeclarations]
      exact .ofDeclarations ..
    exact built.insertAll inserts
  have listed (view : View) (name : String) : (shape.table view).contains name = true ↔
      ∃ declaration ∈ declarations,
        declaration.name = name ∧ view.admits declaration.permission = true := by
    rw [Index.contains_eq, List.contains_iff_mem, names_table, mem_names_openings]
  refine ⟨⟨?_, fun slot => ⟨?_, ?_⟩⟩, listed view, fun name complete => ?_,
    fun name slot => dense.slot?_eq_some_iff, fun slot => ?_,
    fun name slot found => Index.insertAll_keeps found inserts, fun name permission => ⟨?_, ?_, ?_⟩⟩
  · rw [← Index.length_names, names_table, List.length_map]
  · rw [Index.nameAt?_eq, names_table, List.getElem?_map]
  · rw [Index.permissionAt?_eq, members, List.getElem?_map, Option.map_map]
    rfl
  · obtain ⟨declaration, among, named, -⟩ := (listed .all name).mp complete
    cases hidden : declaration.permission.isPrivate with
    | false =>
        exact .inl ((listed .publicProtected name).mpr ⟨declaration, among, named,
          congrArg not hidden⟩)
    | true => exact .inr ((listed .privateOnly name).mpr ⟨declaration, among, named, hidden⟩)
  · split
    next inside =>
      have named : later.nameAt? slot = some later.members[slot].name := by
        rw [Index.nameAt?, Array.getElem?_eq_getElem inside, Option.map_some]
      have found : later.permissionAt? slot = some later.members[slot].permission := by
        rw [Index.permissionAt?, Array.getElem?_eq_getElem inside, Option.map_some]
      exact ⟨_, _, named, found, dense.tier_of_permissionAt? found⟩
    next beyond =>
      have absent : later.members[slot]? = none := Array.getElem?_eq_none (Nat.le_of_not_lt beyond)
      rw [Index.nameAt?, Index.permissionAt?, absent]
      exact ⟨rfl, rfl⟩
  · exact Index.slot?_insert_self ..
  · unfold Index.contains Index.insert
    cases later.slot? name with
    | some slot => exact rfl
    | none => exact ⟨rfl, by simp [Index.permissionAt?, Index.size]⟩
  · exact fun other place found =>
      ⟨Index.slot?_insert found .., Index.permissionAt?_insert found ..⟩

/-- Names declared in several tiers, and permissions that name none or two. -/
def mixed : List Declaration :=
  [⟨"x", .privateTier⟩, ⟨"y", .none⟩, ⟨"x", .publicTier⟩, ⟨"y", .union .publicTier .privateTier⟩]

theorem views_number_first_declarations_mixed :
    let table := (ofDeclarations mixed false).publicProtected
    table.nameAt? 0 = some "y" ∧ table.slot? "x" = some 1 ∧
      (table.insertAll [⟨"z", .const⟩, ⟨"x", .privateTier⟩]).slot? "x" = some 1 := by
  intro table
  obtain ⟨⟨-, numbered⟩, -, -, -, -, keeps, -⟩ :=
    views_number_first_declarations mixed false .publicProtected
      [⟨"z", .const⟩, ⟨"x", .privateTier⟩]
  have second : table.slot? "x" = some 1 := by decide +kernel
  refine ⟨(numbered 0).1.trans ?_, second, (keeps "x" 1 second).1⟩
  decide

end Shape

end ScopeMachine
