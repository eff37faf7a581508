import VirtualGraph.Proofs.Block.Rows
import VirtualGraph.Proofs.Block.WellBuilt

/-!
# The order of joins

The rows of a block come from its cross-joined sources first and its left joins after them, while a
statement joins all sources in the order in which they stand. On a well-built block the two are the
same. The conditions of a left join depend on the sources up to it only, so a source that is
cross-joined later changes neither which rows match nor whether there are any, and the two joins can
be exchanged.
-/

namespace VirtualGraph

variable {α : Type} {D : ValueDomain α} {row row' : Row α}

/-! ### Values depend on the variables that are read -/

mutual

theorem Scalar.eval_congr : ∀ x : Scalar, (∀ v ∈ x.referenced, row v = row' v) →
    x.eval D row = x.eval D row'
  | .column v, h => h v (List.mem_singleton_self v)
  | .constant _ _, _ => rfl
  | .null, _ => rfl
  | .concat items, h => by
    rw [Scalar.eval, Scalar.eval, Scalar.evalAll_congr items h]
  | .coalesce items, h => by
    rw [Scalar.eval, Scalar.eval, Scalar.evalFirst_congr items h]
  | .case branches otherwise, h => by
    obtain ⟨hbranches, hotherwise⟩ := List.forall_mem_append.mp h
    rw [Scalar.eval, Scalar.eval, Scalar.evalBranch_congr branches hbranches,
      Scalar.eval_congr otherwise hotherwise]

theorem Scalar.evalAll_congr : ∀ xs : List Scalar,
    (∀ v ∈ Scalar.referencedAll xs, row v = row' v) →
    Scalar.evalAll D row xs = Scalar.evalAll D row' xs
  | [], _ => rfl
  | x :: rest, h => by
    obtain ⟨hx, hrest⟩ := List.forall_mem_append.mp h
    rw [Scalar.evalAll, Scalar.evalAll, Scalar.eval_congr x hx, Scalar.evalAll_congr rest hrest]

theorem Scalar.evalFirst_congr : ∀ xs : List Scalar,
    (∀ v ∈ Scalar.referencedAll xs, row v = row' v) →
    Scalar.evalFirst D row xs = Scalar.evalFirst D row' xs
  | [], _ => rfl
  | x :: rest, h => by
    obtain ⟨hx, hrest⟩ := List.forall_mem_append.mp h
    rw [Scalar.evalFirst, Scalar.evalFirst, Scalar.eval_congr x hx,
      Scalar.evalFirst_congr rest hrest]

theorem Scalar.evalBranch_congr : ∀ branches : List (Condition × Scalar),
    (∀ v ∈ Scalar.referencedBranches branches, row v = row' v) →
    Scalar.evalBranch D row branches = Scalar.evalBranch D row' branches
  | [], _ => rfl
  | (c, x) :: rest, h => by
    obtain ⟨hc, hrest⟩ := List.forall_mem_append.mp h
    obtain ⟨hx, hrest⟩ := List.forall_mem_append.mp hrest
    rw [Scalar.evalBranch, Scalar.evalBranch, Condition.eval_congr c hc, Scalar.eval_congr x hx,
      Scalar.evalBranch_congr rest hrest]

theorem Condition.eval_congr : ∀ c : Condition, (∀ v ∈ c.referenced, row v = row' v) →
    c.eval D row = c.eval D row'
  | .always, _ => rfl
  | .never, _ => rfl
  | .and items, h => by
    rw [Condition.eval, Condition.eval, Condition.evalEach_congr items h]
  | .or items, h => by
    rw [Condition.eval, Condition.eval, Condition.evalEach_congr items h]
  | .not inner, h => by
    rw [Condition.eval, Condition.eval, Condition.eval_congr inner h]
  | .compare op l r, h => by
    obtain ⟨hl, hr⟩ := List.forall_mem_append.mp h
    rw [Condition.eval, Condition.eval, Scalar.eval_congr l hl, Scalar.eval_congr r hr]
  | .sameVariable v w, h => by
    rw [Condition.eval, Condition.eval, h v (by simp [Condition.referenced]),
      h w (by simp [Condition.referenced])]
  | .sameValue l r, h => by
    obtain ⟨hl, hr⟩ := List.forall_mem_append.mp h
    rw [Condition.eval, Condition.eval, Scalar.eval_congr l hl, Scalar.eval_congr r hr]
  | .isNull v, h => by
    rw [Condition.eval, Condition.eval, h v (List.mem_singleton_self v)]
  | .langMatches x range, h => by
    rw [Condition.eval, Condition.eval, Scalar.eval_congr x h]
  | .like x pattern, h => by
    rw [Condition.eval, Condition.eval, Scalar.eval_congr x h]

theorem Condition.evalEach_congr : ∀ cs : List Condition,
    (∀ v ∈ Condition.referencedAll cs, row v = row' v) →
    Condition.evalEach D row cs = Condition.evalEach D row' cs
  | [], _ => rfl
  | c :: rest, h => by
    obtain ⟨hc, hrest⟩ := List.forall_mem_append.mp h
    rw [Condition.evalEach, Condition.evalEach, Condition.eval_congr c hc,
      Condition.evalEach_congr rest hrest]

end

theorem Condition.allHold_congr {cs : List Condition}
    (h : ∀ v ∈ Condition.referencedAll cs, row v = row' v) :
    Condition.AllHold D row cs ↔ Condition.AllHold D row' cs := by
  refine forall₂_congr fun c hc => ?_
  rw [Condition.eval_congr c fun v hv => h v (Condition.mem_referencedAll.mpr ⟨c, hc, hv⟩)]

namespace Assignment

variable {as : List Assignment} {scope base : List Variable} {v : Variable}

/-- After all assignments, the target of each has the value of what it was assigned. -/
theorem Scoped.run_target (h : Scoped scope as) {a : Assignment} (ha : a ∈ as) :
    run D as row a.target = a.value.eval D (run D as row) := by
  induction as generalizing row scope with
  | nil => exact absurd ha List.not_mem_nil
  | cons b as ih =>
    obtain ⟨hreads, hnew, hrest⟩ := h
    obtain rfl | ha := List.mem_cons.mp ha
    · rw [run, hrest.run_eq List.mem_cons_self, Row.assign_self]
      refine Scalar.eval_congr a.value fun v hv => ?_
      have hv := hreads hv
      have hne : v ≠ a.target := fun heq => hnew (heq ▸ hv)
      rw [hrest.run_eq (List.mem_cons_of_mem _ hv), Row.assign_of_ne hne]
    · exact ih hrest ha

/-- What depends on some variables is the same on rows that have the same values for these. -/
theorem Determined.run_congr (h : Determined as base v) (hs : Scoped scope as)
    (hbase : base ⊆ scope) (hrow : ∀ w ∈ base, row w = row' w) :
    run D as row v = run D as row' v := by
  induction h with
  | bound hv => rw [hs.run_eq (hbase hv), hs.run_eq (hbase hv), hrow _ hv]
  | assigned ha _ ih =>
    rw [hs.run_target ha, hs.run_target ha]
    exact Scalar.eval_congr _ ih

end Assignment

theorem Row.take_comm {vs ws : List Variable} (h : List.Disjoint vs ws) (a b : Row α) :
    (row.take vs a).take ws b = (row.take ws b).take vs a := by
  funext v
  by_cases hv : v ∈ vs
  · rw [Row.take_of_not_mem (h hv), Row.take_of_mem hv, Row.take_of_mem hv]
  · by_cases hw : v ∈ ws
    · rw [Row.take_of_mem hw, Row.take_of_not_mem hv, Row.take_of_mem hw]
    · rw [Row.take_of_not_mem hw, Row.take_of_not_mem hv, Row.take_of_not_mem hv,
        Row.take_of_not_mem hw]

namespace Source

variable {as : List Assignment} {s r : Source × Multiset (Row α)}
variable {sources : List (Source × Multiset (Row α))} {scope before : List Variable}

/-- The extensions of a row by the next source of a statement. -/
def joinNext (D : ValueDomain α) (assignments : List Assignment) (row : Row α)
    (s : Source × Multiset (Row α)) : Multiset (Row α) :=
  match s.1.on? with
  | some _ => outer D assignments row s
  | none => cross row s

/-- Other variables make no difference to the conditions of a left join. -/
def Ignores (D : ValueDomain α) (as : List Assignment) (s : Source) (vs : List Variable) : Prop :=
  ∀ on ∈ s.on?, ∀ row other : Row α,
    Condition.AllHold D (Assignment.run D as (row.take vs other)) on ↔
      Condition.AllHold D (Assignment.run D as row) on

theorem matching_take {on : List Condition} {vs : List Variable} (hon : on ∈ s.1.on?)
    (h : Ignores D as s.1 vs) (hvs : List.Disjoint s.1.produced vs) (other : Row α) :
    matching D as on (row.take vs other) s = (matching D as on row s).map (·.take vs other) := by
  have hcomm : (row.take vs other).take s.1.produced =
      (fun joined => joined.take vs other) ∘ row.take s.1.produced :=
    funext fun r => (Row.take_comm hvs r other).symm
  rw [matching, matching, hcomm, ← Multiset.map_map, Multiset.filter_map]
  exact congrArg _ (Multiset.filter_congr fun joined _ => h on hon joined other)

theorem outer_take {vs : List Variable} (h : Ignores D as s.1 vs)
    (hvs : List.Disjoint s.1.produced vs) (other : Row α) :
    outer D as (row.take vs other) s = (outer D as row s).map (·.take vs other) := by
  unfold outer
  cases hon : s.1.on? with
  | none => rfl
  | some on =>
    dsimp only
    rw [matching_take hon h hvs, Multiset.card_map, ← Row.take_comm hvs]
    split
    · rfl
    · rfl

/-- A left join can be exchanged with a later source that it ignores. -/
theorem cross_bind_outer (h : Ignores D as s.1 r.1.produced)
    (hdisjoint : List.Disjoint s.1.produced r.1.produced) :
    (cross row r).bind (fun joined => outer D as joined s) =
      (outer D as row s).bind fun joined => cross joined r := by
  unfold cross
  cases r.1.on? with
  | some on => rw [Multiset.singleton_bind, Multiset.bind_singleton, Multiset.map_id']
  | none =>
    rw [Multiset.bind_map, Multiset.bind_map_comm]
    exact Multiset.bind_congr fun other _ => outer_take h hdisjoint other

theorem joinAll_cross_bind_outer (h : ∀ r ∈ sources, Ignores D as s.1 r.1.produced)
    (hdisjoint : ∀ r ∈ sources, List.Disjoint s.1.produced r.1.produced) :
    (joinAll cross sources row).bind (fun joined => outer D as joined s) =
      (outer D as row s).bind (joinAll cross sources) := by
  induction sources generalizing row with
  | nil =>
    have hunit : (outer D as row s).bind (joinAll cross []) = outer D as row s :=
      (Multiset.bind_singleton _ id).trans (Multiset.map_id _)
    rw [joinAll, Multiset.singleton_bind, hunit]
  | cons r sources ih =>
    obtain ⟨hr, hrest⟩ := List.forall_mem_cons.mp h
    obtain ⟨hdr, hdrest⟩ := List.forall_mem_cons.mp hdisjoint
    calc (joinAll cross (r :: sources) row).bind (fun joined => outer D as joined s)
        = (cross row r).bind fun joined =>
            (joinAll cross sources joined).bind fun joined => outer D as joined s :=
          Multiset.bind_assoc
      _ = (cross row r).bind fun joined => (outer D as joined s).bind (joinAll cross sources) :=
          Multiset.bind_congr fun joined _ => ih hrest hdrest
      _ = ((cross row r).bind fun joined => outer D as joined s).bind (joinAll cross sources) :=
          Multiset.bind_assoc.symm
      _ = ((outer D as row s).bind fun joined => cross joined r).bind (joinAll cross sources) := by
          rw [cross_bind_outer hr hdr]
      _ = (outer D as row s).bind (joinAll cross (r :: sources)) := Multiset.bind_assoc

/-- The conditions of a left join ignore what neither it nor a source before it binds. -/
theorem ReadBack.ignores {rest : List Source} (h : ReadBack as before (s.1 :: rest))
    (hs : Assignment.Scoped scope as) (hscope : before ++ s.1.produced ⊆ scope)
    {vs : List Variable} (hvs : List.Disjoint (before ++ s.1.produced) vs) :
    Ignores D as s.1 vs := by
  intro on hon row other
  refine Condition.allHold_congr fun v hv => ?_
  refine (h.1 on hon v hv).run_congr hs hscope fun w hw => ?_
  exact Row.take_of_not_mem (hvs hw)

/-- Joining the cross-joined sources before the left joins is joining all in order. -/
theorem joinAll_cross_bind_joinAll_outer (hback : ReadBack as before (sources.map (·.1)))
    (hs : Assignment.Scoped scope as) (hsep : Separate sources)
    (hbefore : ∀ s ∈ sources, List.Disjoint before s.1.produced)
    (hscope : before ++ sources.flatMap (·.1.produced) ⊆ scope) :
    (joinAll cross sources row).bind (joinAll (outer D as) sources) =
      joinAll (joinNext D as) sources row := by
  induction sources generalizing row before with
  | nil => exact Multiset.singleton_bind row _
  | cons s sources ih =>
    obtain ⟨hdisjoint, hsep⟩ := List.pairwise_cons.mp hsep
    obtain ⟨hfirst, hrest⟩ := List.forall_mem_cons.mp hbefore
    rw [List.flatMap_cons, ← List.append_assoc] at hscope
    have hlater : ∀ r ∈ sources, List.Disjoint (before ++ s.1.produced) r.1.produced := fun r hr =>
      List.disjoint_append_left.mpr ⟨hrest r hr, hdisjoint r hr⟩
    have ih : ∀ joined, (joinAll cross sources joined).bind (joinAll (outer D as) sources) =
        joinAll (joinNext D as) sources joined := fun joined =>
      ih hback.2 hsep hlater hscope
    have hignores : ∀ r ∈ sources, Ignores D as s.1 r.1.produced := fun r hr =>
      hback.ignores hs (List.append_subset.mp hscope).1 (hlater r hr)
    -- Of the two passes over the sources, one does nothing at the first source.
    cases hon : s.1.on? with
    | none =>
      have houter : ∀ joined, outer D as joined s = {joined} := fun joined => by rw [outer, hon]
      have hnext : joinNext D as row s = cross row s := by rw [joinNext, hon]
      simp only [joinAll, Multiset.bind_assoc, houter, Multiset.singleton_bind, hnext, ih]
    | some on =>
      have hcross : cross row s = {row} := by rw [cross, hon]
      have hnext : joinNext D as row s = outer D as row s := by rw [joinNext, hon]
      calc (joinAll cross (s :: sources) row).bind (joinAll (outer D as) (s :: sources))
          = (joinAll cross sources row).bind fun joined =>
              (outer D as joined s).bind (joinAll (outer D as) sources) := by
            rw [joinAll, hcross, Multiset.singleton_bind]
            rfl
        _ = ((outer D as row s).bind (joinAll cross sources)).bind
              (joinAll (outer D as) sources) := by
            rw [← joinAll_cross_bind_outer hignores hdisjoint, Multiset.bind_assoc]
        _ = joinAll (joinNext D as) (s :: sources) row := by
            rw [Multiset.bind_assoc, joinAll, hnext]
            exact Multiset.bind_congr fun joined _ => ih joined

end Source

namespace Block

variable {t : VariableTable} {b : Block}

theorem Regular.separate (h : b.Regular t) (db : Database α) :
    Source.Separate (sourceRowsEach D db t b.sources) := by
  have hpairs := (List.nodup_flatMap.mp (List.nodup_append.mp h.once).1).2
  rw [sourceRowsEach_eq_map]
  exact List.pairwise_map.mpr hpairs

/-- The sources of a well-built block may be joined in the order of a statement. -/
theorem WellBuilt.candidateRows_eq_joinNext (h : b.WellBuilt t) (db : Database α) :
    b.candidateRows D db t = (Source.joinAll (Source.joinNext D b.assignments)
      (sourceRowsEach D db t b.sources) Row.null).map (Assignment.run D b.assignments) := by
  obtain ⟨hregular, -⟩ := h.regular
  have hsources : (sourceRowsEach D db t b.sources).map (·.1) = b.sources := by
    rw [sourceRowsEach_eq_map, List.map_map]
    exact List.map_id _
  have hproduced : (sourceRowsEach D db t b.sources).flatMap (·.1.produced) =
      b.sources.flatMap Source.produced := by
    rw [← List.flatMap_map, hsources]
  have hcombine : Source.combine D b.assignments (sourceRowsEach D db t b.sources) =
      Source.joinAll (Source.joinNext D b.assignments) (sourceRowsEach D db t b.sources)
        Row.null := by
    refine Source.joinAll_cross_bind_joinAll_outer (hsources.symm ▸ hregular.readBack)
      h.wellScoped.assignments (hregular.separate db) (fun _ _ => List.disjoint_nil_left _) ?_
    rw [List.nil_append, hproduced]
    exact List.Subset.refl _
  rw [candidateRows, hcombine]

/-- The rows of a well-built block come from joining its sources in the order of a statement. -/
theorem WellBuilt.rows_eq_joinNext (h : b.WellBuilt t) (db : Database α) :
    b.rows D db t = select D b.exposed b.filters
      ((Source.joinAll (Source.joinNext D b.assignments) (sourceRowsEach D db t b.sources)
        Row.null).map (Assignment.run D b.assignments)) := by
  rw [rows_eq_select, h.candidateRows_eq_joinNext]

end Block

end VirtualGraph
