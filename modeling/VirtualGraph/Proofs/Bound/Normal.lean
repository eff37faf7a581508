import VirtualGraph.Proofs.Bound.Apart

/-!
# Distribution ends in a normal form

A tree is distributed if no step of distribution applies anywhere in it: every join has several
members, none of them a join or the empty solution, every union has several branches, none of them a
union, and a join keeps a union as a member only if it has more combinations than the limit allows.

Joins of combinations are formed from branches that are distributed already, and may open joins that
kept their unions because they had too many combinations. They have still more of them inside a
larger join, so joining one branch of each member never distributes a second time, and no union
arises inside a union.
-/

namespace VirtualGraph

namespace BoundTree

variable {limit : Nat} {t c : BoundTree} {ts cs flat : List BoundTree}

def isUnit : BoundTree → Bool
  | unit => true
  | _ => false

def isJoin : BoundTree → Bool
  | join _ => true
  | _ => false

/-- A tree with solutions in which no step of distribution applies. -/
inductive Distributed (limit : Nat) : BoundTree → Prop
  | unit : Distributed limit unit
  | triple {c : Candidate} : Distributed limit (triple c)
  | join {ts : List BoundTree} (several : 2 ≤ ts.length) (members : ∀ t ∈ ts, Distributed limit t)
      (opened : ∀ t ∈ ts, t.isUnit = false ∧ t.isJoin = false)
      (exceeds : ts.any isUnion = true → limit < combinationCount ts)
      (agree : compatible ts = true) : Distributed limit (join ts)
  | union {ts : List BoundTree} (several : 2 ≤ ts.length) (branches : ∀ t ∈ ts, Distributed limit t)
      (opened : ∀ t ∈ ts, t.isUnion = false) : Distributed limit (union ts)
  | leftJoin {left right : BoundTree} {condition : Option Expression}
      (first : Distributed limit left) (second : Distributed limit right)
      (agree : compatible [left, right] = true) : Distributed limit (leftJoin left right condition)
  | filter {condition : Expression} {inner : BoundTree} (inside : Distributed limit inner) :
      Distributed limit (filter condition inner)
  | extend {inner : BoundTree} {name : String} {value : Expression}
      (inside : Distributed limit inner) : Distributed limit (extend inner name value)

/-- A tree that is distributed as a whole, or has no solution. -/
def Finished (limit : Nat) (t : BoundTree) : Prop := t = noMatch ∨ Distributed limit t

/-- A distributed tree that may be a branch of a union. -/
def IsBranch (limit : Nat) (t : BoundTree) : Prop := Distributed limit t ∧ t.isUnion = false

theorem Distributed.isNoMatch_eq (h : Distributed limit t) : t.isNoMatch = false := by
  cases h <;> rfl

theorem Finished.distributed (h : Finished limit t) (ht : t.isNoMatch = false) :
    Distributed limit t := by
  refine h.resolve_left ?_
  rintro rfl
  cases ht

/-! ### Numbers of combinations -/

theorem combinationCount_append (l r : List BoundTree) :
    combinationCount (l ++ r) = combinationCount l * combinationCount r := by
  induction l with
  | nil => exact (Nat.one_mul _).symm
  | cons t l ih => rw [List.cons_append, combinationCount, combinationCount, ih, Nat.mul_assoc]

theorem Distributed.choices_ne_nil (h : Distributed limit t) : 0 < t.choices.length := by
  cases h with
  | union several => exact Nat.lt_of_lt_of_le (by decide) several
  | _ => exact Nat.one_pos

theorem combinationCount_pos (h : ∀ t ∈ ts, Distributed limit t) : 0 < combinationCount ts := by
  induction ts with
  | nil => exact Nat.one_pos
  | cons t ts ih =>
    rw [List.forall_mem_cons] at h
    exact Nat.mul_pos h.1.choices_ne_nil (ih h.2)

theorem isBranch_of_mem_choices (h : Distributed limit t) (hc : c ∈ t.choices) :
    IsBranch limit c := by
  cases h with
  | union _ branches opened => exact ⟨branches c hc, opened c hc⟩
  | _ =>
    obtain rfl := List.mem_singleton.mp hc
    exact ⟨by constructor <;> assumption, rfl⟩

theorem isBranch_of_mem_combinations (h : ∀ t ∈ ts, Distributed limit t)
    (hcs : cs ∈ combinations ts) : ∀ c ∈ cs, IsBranch limit c := by
  induction ts generalizing cs with
  | nil =>
    obtain rfl := List.mem_singleton.mp hcs
    exact fun _ hc => absurd hc List.not_mem_nil
  | cons t ts ih =>
    rw [List.forall_mem_cons] at h
    obtain ⟨c, hc, hcs⟩ := List.mem_flatMap.mp hcs
    obtain ⟨rest, hrest, rfl⟩ := List.mem_map.mp hcs
    exact List.forall_mem_cons.mpr ⟨isBranch_of_mem_choices h.1 hc, ih h.2 hrest⟩

/-! ### Opening joins and unions -/

theorem mem_flatten? (h : ∀ t ∈ ts, Finished limit t) (hflat : flatten? ts = some flat) :
    ∀ t ∈ flat, Distributed limit t ∧ t.isUnit = false ∧ t.isJoin = false := by
  induction ts generalizing flat with
  | nil =>
    cases hflat
    exact fun _ ht => absurd ht List.not_mem_nil
  | cons t ts ih =>
    rw [List.forall_mem_cons] at h
    cases t with
    | noMatch => cases hflat
    | unit => exact ih h.2 hflat
    | join nested =>
      obtain ⟨rest, hrest, rfl⟩ := Option.map_eq_some_iff.mp hflat
      have hnested := h.1.distributed rfl
      cases hnested with
      | join _ members opened =>
        exact List.forall_mem_append.mpr ⟨fun t ht => ⟨members t ht, opened t ht⟩, ih h.2 hrest⟩
    | _ =>
      obtain ⟨rest, hrest, rfl⟩ := Option.map_eq_some_iff.mp hflat
      exact List.forall_mem_cons.mpr ⟨⟨h.1.distributed rfl, rfl, rfl⟩, ih h.2 hrest⟩

/-- Branches have unions only as members of joins that kept them, so that with these members there
are too many combinations. -/
theorem exceeds_of_flatten? (h : ∀ t ∈ ts, IsBranch limit t) (hflat : flatten? ts = some flat)
    (hunion : flat.any isUnion = true) : 2 ≤ flat.length ∧ limit < combinationCount flat := by
  induction ts generalizing flat with
  | nil =>
    cases hflat
    cases hunion
  | cons t ts ih =>
    rw [List.forall_mem_cons] at h
    obtain ⟨⟨ht, hbranch⟩, hts⟩ := h
    have hpos : ∀ {rest}, flatten? ts = some rest → 0 < combinationCount rest := fun hrest =>
      combinationCount_pos fun t ht =>
        (mem_flatten? (fun t ht => .inr (hts t ht).1) hrest t ht).1
    cases ht with
    | unit => exact ih hts hflat hunion
    | union => cases hbranch
    | join several members _ exceeds _ =>
      obtain ⟨rest, hrest, rfl⟩ := Option.map_eq_some_iff.mp hflat
      rw [List.length_append, combinationCount_append]
      refine ⟨by omega, ?_⟩
      rw [List.any_append, Bool.or_eq_true] at hunion
      obtain hunion | hunion := hunion
      · exact Nat.lt_of_lt_of_le (exceeds hunion) (Nat.le_mul_of_pos_right _ (hpos hrest))
      · exact Nat.lt_of_lt_of_le (ih hts hrest hunion).2
          (Nat.le_mul_of_pos_left _ (combinationCount_pos members))
    | _ =>
      obtain ⟨rest, hrest, rfl⟩ := Option.map_eq_some_iff.mp hflat
      obtain ⟨hlength, hcount⟩ := ih hts hrest hunion
      exact ⟨Nat.le_succ_of_le hlength, Nat.lt_of_lt_of_eq hcount (Nat.one_mul _).symm⟩

theorem flatten?_eq_self (h : ∀ t ∈ ts, Distributed limit t)
    (hopened : ∀ t ∈ ts, t.isUnit = false ∧ t.isJoin = false) : flatten? ts = some ts := by
  induction ts with
  | nil => rfl
  | cons t ts ih =>
    rw [List.forall_mem_cons] at h hopened
    obtain ⟨⟨hunit, hjoin⟩, hrest⟩ := hopened
    cases t with
    | noMatch => cases h.1
    | unit => cases hunit
    | join => cases hjoin
    | _ => exact congrArg (Option.map (List.cons _)) (ih h.2 hrest)

theorem mem_flattenUnion (h : ∀ t ∈ ts, Finished limit t) :
    ∀ t ∈ flattenUnion ts, IsBranch limit t := by
  induction ts with
  | nil => exact fun _ ht => absurd ht List.not_mem_nil
  | cons t ts ih =>
    rw [List.forall_mem_cons] at h
    cases t with
    | noMatch => exact ih h.2
    | union nested =>
      have hnested := h.1.distributed rfl
      cases hnested with
      | union _ branches opened =>
        exact List.forall_mem_append.mpr ⟨fun t ht => ⟨branches t ht, opened t ht⟩, ih h.2⟩
    | _ => exact List.forall_mem_cons.mpr ⟨⟨h.1.distributed rfl, rfl⟩, ih h.2⟩

theorem flattenUnion_eq_self (h : ∀ t ∈ ts, IsBranch limit t) : flattenUnion ts = ts := by
  induction ts with
  | nil => rfl
  | cons t ts ih =>
    rw [List.forall_mem_cons] at h
    cases t with
    | noMatch => cases h.1.1
    | union => cases h.1.2
    | _ => exact congrArg (List.cons _) (ih h.2)

theorem ofBranches_eq_union (h : 2 ≤ ts.length) : ofBranches ts = union ts := by
  rcases ts with _ | ⟨t, _ | ⟨u, rest⟩⟩
  · cases h
  · exact absurd h (Nat.not_succ_le_self 1)
  · rfl

theorem finished_ofBranches (h : ∀ t ∈ ts, IsBranch limit t) : Finished limit (ofBranches ts) := by
  rcases ts with _ | ⟨t, _ | ⟨u, rest⟩⟩
  · exact .inl rfl
  · exact .inr (h t List.mem_cons_self).1
  · exact .inr (.union (Nat.le_add_left 2 _) (fun t ht => (h t ht).1) fun t ht => (h t ht).2)

/-! ### Joins of members -/

/-- What several members are joined to. -/
theorem joinAll_of_flatten? (limit : Nat) (hflat : flatten? ts = some flat) (h : 2 ≤ flat.length) :
    joinAll limit ts =
      if flat.any isUnion = true ∧ combinationCount flat ≤ limit then
        (ofBranches (((combinations flat).map fun cs => (joinAll limit cs).1).filter
            (!·.isNoMatch)),
          ((combinations flat).map fun cs => (joinAll limit cs).2).foldr (· + ·) 0)
      else if compatible flat then (join flat, 0) else (noMatch, 1) := by
  rw [joinAll]
  split
  · rename_i hnone
    cases hflat.symm.trans hnone
  · rename_i hnil
    cases hflat.symm.trans hnil
    cases h
  · rename_i hone
    cases hflat.symm.trans hone
    exact absurd h (Nat.not_succ_le_self 1)
  · rename_i hsome
    cases hflat.symm.trans hsome
    split
    · dsimp only
      rw [List.map_map, List.map_map]
      exact congrArg₂ (fun trees counts =>
          (ofBranches (trees.filter (!·.isNoMatch)), counts.foldr (· + ·) 0))
        (List.attach_map_val (f := fun cs => (joinAll limit cs).1))
        (List.attach_map_val (f := fun cs => (joinAll limit cs).2))
    · rfl

/-- What members are joined to, by the number of those that are left when joins are opened. -/
theorem joinAll_cases (limit : Nat) (ts : List BoundTree) :
    joinAll limit ts = (noMatch, 0) ∨ joinAll limit ts = (unit, 0) ∨
    (∃ t, flatten? ts = some [t] ∧ joinAll limit ts = (t, 0)) ∨
    ∃ flat, flatten? ts = some flat ∧ 2 ≤ flat.length := by
  cases hflat : flatten? ts with
  | none =>
    refine .inl ?_
    rw [joinAll]
    split <;> simp_all
  | some flat =>
    rcases flat with _ | ⟨t, _ | ⟨u, rest⟩⟩
    · refine .inr (.inl ?_)
      rw [joinAll]
      split <;> simp_all
    · refine .inr (.inr (.inl ⟨t, rfl, ?_⟩))
      rw [joinAll]
      split <;> simp_all
    · exact .inr (.inr (.inr ⟨_, rfl, Nat.le_add_left 2 _⟩))

/-- Members with too many combinations stay joined, unless their bindings cannot agree. -/
theorem isBranch_join (h : ∀ t ∈ flat, Distributed limit t ∧ t.isUnit = false ∧ t.isJoin = false)
    (hlength : 2 ≤ flat.length)
    (hkept : ¬(flat.any isUnion = true ∧ combinationCount flat ≤ limit)) :
    (if compatible flat then (join flat, 0) else (noMatch, 1)).1 = noMatch ∨
      IsBranch limit (if compatible flat then (join flat, 0) else (noMatch, 1)).1 := by
  split
  · rename_i hagree
    refine .inr ⟨.join hlength (fun t ht => (h t ht).1) (fun t ht => (h t ht).2) ?_ hagree, rfl⟩
    exact fun hunion => Nat.lt_of_not_le fun hle => hkept ⟨hunion, hle⟩
  · exact .inl rfl

/-- Joining branches distributes nothing. -/
theorem isBranch_joinAll (h : ∀ t ∈ ts, IsBranch limit t) :
    (joinAll limit ts).1 = noMatch ∨ IsBranch limit (joinAll limit ts).1 := by
  have hfinished : ∀ t ∈ ts, Finished limit t := fun t ht => .inr (h t ht).1
  obtain hnone | hunit | ⟨t, hflat, hone⟩ | ⟨flat, hflat, hlength⟩ := joinAll_cases limit ts
  · exact .inl (congrArg Prod.fst hnone)
  · rw [hunit]
    exact .inr ⟨.unit, rfl⟩
  · rw [hone]
    refine .inr ⟨(mem_flatten? hfinished hflat t List.mem_cons_self).1, ?_⟩
    -- A union can only come out of a join that was opened, and would not stand alone then.
    refine Bool.eq_false_iff.mpr fun hunion => ?_
    have hany : [t].any isUnion = true := by rw [List.any_cons, hunion, Bool.true_or]
    exact Nat.not_succ_le_self 1 (exceeds_of_flatten? h hflat hany).1
  · have hkept : ¬(flat.any isUnion = true ∧ combinationCount flat ≤ limit) := fun hfew =>
      Nat.not_le_of_lt (exceeds_of_flatten? h hflat hfew.1).2 hfew.2
    rw [joinAll_of_flatten? limit hflat hlength, if_neg hkept]
    exact isBranch_join (mem_flatten? hfinished hflat) hlength hkept

theorem finished_joinAll (h : ∀ t ∈ ts, Finished limit t) :
    Finished limit (joinAll limit ts).1 := by
  obtain hnone | hunit | ⟨t, hflat, hone⟩ | ⟨flat, hflat, hlength⟩ := joinAll_cases limit ts
  · exact .inl (congrArg Prod.fst hnone)
  · rw [hunit]
    exact .inr .unit
  · rw [hone]
    exact .inr (mem_flatten? h hflat t List.mem_cons_self).1
  · have hmembers := mem_flatten? h hflat
    rw [joinAll_of_flatten? limit hflat hlength]
    split
    · -- Each combination is joined without distributing again, so no branch is a union.
      refine finished_ofBranches fun t ht => ?_
      obtain ⟨hmem, hmatches⟩ := List.mem_filter.mp ht
      obtain ⟨cs, hcs, rfl⟩ := List.mem_map.mp hmem
      have hbranches := isBranch_of_mem_combinations (fun t ht => (hmembers t ht).1) hcs
      refine (isBranch_joinAll hbranches).resolve_left fun hnone => ?_
      rw [hnone] at hmatches
      cases hmatches
    · rename_i hkept
      exact (isBranch_join hmembers hlength hkept).imp id And.left

/-! ### Whole trees -/

mutual

theorem finished_distribute (limit : Nat) : ∀ t : BoundTree, Finished limit (distribute limit t).1
  | noMatch => .inl rfl
  | unit => .inr .unit
  | triple _ => .inr .triple
  | join members => finished_joinAll (finished_distributeAll limit members)
  | union branches => finished_ofBranches (mem_flattenUnion (finished_distributeAll limit branches))
  | leftJoin left right condition => by
    have hleft := finished_distribute limit left
    have hright := finished_distribute limit right
    simp only [distribute]
    split
    · exact .inl rfl
    · rename_i hsome
      rw [Bool.not_eq_true] at hsome
      split
      · exact hleft
      · rename_i hmeets
        rw [Bool.or_eq_true, not_or, Bool.not_eq_true, Bool.not_eq_true', Bool.not_eq_false]
          at hmeets
        exact .inr (.leftJoin (hleft.distributed hsome) (hright.distributed hmeets.1) hmeets.2)
  | filter condition inner => by
    have hinner := finished_distribute limit inner
    simp only [distribute]
    split
    · exact .inl rfl
    · rename_i hsome
      exact .inr (.filter (hinner.distributed (Bool.not_eq_true _ ▸ hsome)))
  | extend inner name value => by
    have hinner := finished_distribute limit inner
    simp only [distribute]
    split
    · exact .inl rfl
    · rename_i hsome
      exact .inr (.extend (hinner.distributed (Bool.not_eq_true _ ▸ hsome)))

theorem finished_distributeAll (limit : Nat) : ∀ ts : List BoundTree,
    ∀ t ∈ (distributeAll limit ts).1, Finished limit t
  | [] => fun _ ht => absurd ht List.not_mem_nil
  | t :: rest => List.forall_mem_cons.mpr
    ⟨finished_distribute limit t, finished_distributeAll limit rest⟩

end

theorem distributeAll_eq_self (h : ∀ t ∈ ts, distribute limit t = (t, 0)) :
    distributeAll limit ts = (ts, 0) := by
  induction ts with
  | nil => rfl
  | cons t ts ih =>
    rw [List.forall_mem_cons] at h
    rw [distributeAll, h.1, ih h.2]

/-- A distributed tree stays as it is, and no join of it goes away. -/
theorem Distributed.distribute_eq (h : Distributed limit t) : distribute limit t = (t, 0) := by
  induction h with
  | unit => rfl
  | triple => rfl
  | @join ts several members opened exceeds agree ih =>
    have hkept : ¬(ts.any isUnion = true ∧ combinationCount ts ≤ limit) := fun hfew =>
      Nat.not_le_of_lt (exceeds hfew.1) hfew.2
    rw [distribute, distributeAll_eq_self ih]
    dsimp only
    rw [joinAll_of_flatten? limit (flatten?_eq_self members opened) several, if_neg hkept,
      if_pos agree, Nat.add_zero]
  | union several branches opened ih =>
    rw [distribute, distributeAll_eq_self ih]
    dsimp only
    rw [flattenUnion_eq_self fun t ht => ⟨branches t ht, opened t ht⟩, ofBranches_eq_union several]
  | leftJoin first second agree ihleft ihright =>
    rw [distribute, ihleft, ihright]
    dsimp only
    rw [first.isNoMatch_eq, second.isNoMatch_eq, agree]
    rfl
  | filter inside ih =>
    rw [distribute, ih]
    dsimp only
    rw [inside.isNoMatch_eq]
    rfl
  | extend inside ih =>
    rw [distribute, ih]
    dsimp only
    rw [inside.isNoMatch_eq]
    rfl

theorem Distributed.of_mem_nodes (h : Distributed limit t) :
    ∀ s ∈ t.nodes, Distributed limit s := by
  have hmembers : ∀ {ts : List BoundTree}, (∀ t ∈ ts, ∀ s ∈ t.nodes, Distributed limit s) →
      ∀ s ∈ nodesAll ts, Distributed limit s := by
    intro ts hts s hs
    rw [nodesAll_eq_flatMap] at hs
    obtain ⟨t, ht, hs⟩ := List.mem_flatMap.mp hs
    exact hts t ht s hs
  induction h with
  | unit => exact List.forall_mem_singleton.mpr .unit
  | triple => exact List.forall_mem_singleton.mpr .triple
  | join several members opened exceeds agree ih =>
    exact List.forall_mem_cons.mpr ⟨.join several members opened exceeds agree, hmembers ih⟩
  | union several branches opened ih =>
    exact List.forall_mem_cons.mpr ⟨.union several branches opened, hmembers ih⟩
  | leftJoin first second agree ihleft ihright =>
    exact List.forall_mem_cons.mpr
      ⟨.leftJoin first second agree, List.forall_mem_append.mpr ⟨ihleft, ihright⟩⟩
  | filter inside ih => exact List.forall_mem_cons.mpr ⟨.filter inside, ih⟩
  | extend inside ih => exact List.forall_mem_cons.mpr ⟨.extend inside, ih⟩

/-- No step of distribution applies at any node of the tree. -/
structure IsNormal (limit : Nat) (t : BoundTree) : Prop where
  /-- A tree that has solutions is not made of parts without any. -/
  noMatch : noMatch ∈ t.nodes → t = noMatch
  joins : ∀ ts, join ts ∈ t.nodes → 2 ≤ ts.length ∧
    (∀ member ∈ ts, member.isUnit = false ∧ member.isJoin = false) ∧
    (ts.any isUnion = true → limit < combinationCount ts)
  unions : ∀ ts, union ts ∈ t.nodes → 2 ≤ ts.length ∧ ∀ branch ∈ ts, branch.isUnion = false

theorem Finished.isNormal (h : Finished limit t) : IsNormal limit t := by
  obtain rfl | h := h
  · refine ⟨fun _ => rfl, fun ts hts => ?_, fun ts hts => ?_⟩
    · cases List.mem_singleton.mp hts
    · cases List.mem_singleton.mp hts
  · refine ⟨fun hnone => ?_, fun ts hts => ?_, fun ts hts => ?_⟩
    · cases h.of_mem_nodes _ hnone
    · cases h.of_mem_nodes _ hts with
      | join several _ opened exceeds => exact ⟨several, opened, exceeds⟩
    · cases h.of_mem_nodes _ hts with
      | union several _ opened => exact ⟨several, opened⟩

theorem Finished.distribute_eq (h : Finished limit t) : distribute limit t = (t, 0) := by
  obtain rfl | h := h
  · rfl
  · exact h.distribute_eq

/-- Distribution ends with a tree in normal form. To distribute it once more changes nothing, and no
further join goes away. -/
theorem distribute_reaches_normal_form (limit : Nat) (t : BoundTree) :
    IsNormal limit (distribute limit t).1 ∧
      distribute limit (distribute limit t).1 = ((distribute limit t).1, 0) :=
  ⟨(finished_distribute limit t).isNormal, (finished_distribute limit t).distribute_eq⟩

end BoundTree

end VirtualGraph
