import VirtualGraph.Proofs.Block.Order
import VirtualGraph.Proofs.Draft.Sound

/-!
# Rows of drafts

The rows that a block has while it is being built, and what each step of the construction does to
them. A filter keeps some of the rows, an assignment gives each of them one more value, and a source
extends each of them by its own rows. Tables stand before all other sources however late they are
added, but nothing in the draft reads the columns of a new table, so it might as well come last.
-/

namespace VirtualGraph

variable {α : Type} {D : ValueDomain α} {db : Database α} {t : VariableTable} {row other : Row α}

namespace Row

variable {vs : List Variable} {v : Variable} {value : Option α}

theorem take_assign (h : v ∉ vs) :
    (row.take vs other).assign v value = (row.assign v value).take vs other := by
  funext w
  by_cases hw : w = v
  · subst hw
    rw [assign_self, take_of_not_mem h, assign_self]
  · by_cases hmem : w ∈ vs
    · rw [assign_of_ne hw, take_of_mem hmem, take_of_mem hmem]
    · rw [assign_of_ne hw, take_of_not_mem hmem, take_of_not_mem hmem, assign_of_ne hw]

theorem take_restrict : row.take vs (other.restrict vs) = row.take vs other := by
  funext w
  by_cases hmem : w ∈ vs
  · rw [take_of_mem hmem, take_of_mem hmem, restrict_of_mem hmem]
  · rw [take_of_not_mem hmem, take_of_not_mem hmem]

theorem restrict_take : (row.take vs other).restrict vs = other.restrict vs := by
  funext w
  by_cases hmem : w ∈ vs
  · rw [restrict_of_mem hmem, restrict_of_mem hmem, take_of_mem hmem]
  · exact (take_of_not_mem hmem).trans (take_of_not_mem hmem).symm

@[simp] theorem restrict_of_not_mem (h : v ∉ vs) : row.restrict vs v = none := take_of_not_mem h

theorem restrict_eq_none (h : row v = none) : row.restrict vs v = none := by
  by_cases hmem : v ∈ vs
  · rw [restrict_of_mem hmem, h]
  · exact restrict_of_not_mem hmem

theorem restrict_congr (h : ∀ v ∈ vs, row v = other v) : row.restrict vs = other.restrict vs := by
  funext w
  by_cases hmem : w ∈ vs
  · rw [restrict_of_mem hmem, restrict_of_mem hmem, h w hmem]
  · rw [restrict_of_not_mem hmem, restrict_of_not_mem hmem]

end Row

namespace Assignment

variable {as : List Assignment} {scope vs : List Variable}

theorem run_append (as bs : List Assignment) (row : Row α) :
    run D (as ++ bs) row = run D bs (run D as row) := by
  induction as generalizing row with
  | nil => rfl
  | cons a as ih => exact ih _

/-- What assignments neither read nor bind passes through them. -/
theorem Scoped.run_take (h : Scoped scope as)
    (hvs : ∀ v ∈ vs, v ∉ scope ++ as.map (·.target)) :
    run D as (row.take vs other) = (run D as row).take vs other := by
  induction as generalizing row scope with
  | nil => rfl
  | cons a as ih =>
    obtain ⟨hreads, -, hrest⟩ := h
    have hvalue : a.value.eval D (row.take vs other) = a.value.eval D row := by
      refine Scalar.eval_congr a.value fun v hv => Row.take_of_not_mem fun hmem => ?_
      exact hvs v hmem (List.mem_append_left _ (hreads hv))
    have htarget : a.target ∉ vs := fun hmem => hvs _ hmem (by simp)
    rw [run, run, hvalue, Row.take_assign htarget]
    refine ih hrest fun v hv => ?_
    simpa [or_assoc, or_left_comm] using hvs v hv

end Assignment

namespace Source

variable {as : List Assignment} {s r : Source × Multiset (Row α)}
variable {sources extra : List (Source × Multiset (Row α))}
variable {join join' : Row α → Source × Multiset (Row α) → Multiset (Row α)}

theorem joinAll_append (l r : List (Source × Multiset (Row α))) (row : Row α) :
    joinAll join (l ++ r) row = (joinAll join l row).bind (joinAll join r) := by
  induction l generalizing row with
  | nil => exact (Multiset.singleton_bind row _).symm
  | cons s l ih => simp only [List.cons_append, joinAll, ih, Multiset.bind_assoc]

theorem joinAll_singleton : joinAll join [s] row = join row s :=
  (Multiset.bind_singleton _ id).trans (Multiset.map_id _)

theorem joinAll_eq_joinAll (h : ∀ s ∈ sources, ∀ row, join row s = join' row s) (row : Row α) :
    joinAll join sources row = joinAll join' sources row := by
  induction sources generalizing row with
  | nil => rfl
  | cons s sources ih =>
    rw [List.forall_mem_cons] at h
    rw [joinAll, joinAll, h.1]
    exact Multiset.bind_congr fun joined _ => ih h.2 joined

theorem cross_bind_cross (hdisjoint : List.Disjoint s.1.produced r.1.produced) :
    (cross row r).bind (fun joined => cross joined s) =
      (cross row s).bind fun joined => cross joined r := by
  unfold cross
  cases r.1.on? with
  | some _ => rw [Multiset.singleton_bind, Multiset.bind_singleton, Multiset.map_id']
  | none =>
    cases s.1.on? with
    | some _ => rw [Multiset.singleton_bind, Multiset.bind_singleton, Multiset.map_id']
    | none =>
      rw [Multiset.bind_map, Multiset.bind_map, Multiset.bind_map_comm]
      refine Multiset.bind_congr fun b _ => Multiset.map_congr rfl fun a _ => ?_
      exact (Row.take_comm hdisjoint b a).symm

/-- A cross-joined source can be exchanged with a later one that ignores it. -/
theorem cross_bind_joinNext (h : Ignores D as s.1 r.1.produced)
    (hdisjoint : List.Disjoint s.1.produced r.1.produced) :
    (cross row r).bind (fun joined => joinNext D as joined s) =
      (joinNext D as row s).bind fun joined => cross joined r := by
  unfold joinNext
  cases s.1.on? with
  | some on => exact cross_bind_outer h hdisjoint
  | none => exact cross_bind_cross hdisjoint

theorem cross_bind_joinAll (h : ∀ s ∈ sources, Ignores D as s.1 r.1.produced)
    (hdisjoint : ∀ s ∈ sources, List.Disjoint s.1.produced r.1.produced) :
    (cross row r).bind (joinAll (joinNext D as) sources) =
      (joinAll (joinNext D as) sources row).bind fun joined => cross joined r := by
  induction sources generalizing row with
  | nil =>
    have hunit : (cross row r).bind (joinAll (joinNext D as) []) = cross row r :=
      (Multiset.bind_singleton _ id).trans (Multiset.map_id _)
    rw [hunit, joinAll, Multiset.singleton_bind]
  | cons s sources ih =>
    rw [List.forall_mem_cons] at h hdisjoint
    calc (cross row r).bind (joinAll (joinNext D as) (s :: sources))
        = ((cross row r).bind fun joined => joinNext D as joined s).bind
            (joinAll (joinNext D as) sources) := Multiset.bind_assoc.symm
      _ = (joinNext D as row s).bind fun joined =>
            (cross joined r).bind (joinAll (joinNext D as) sources) := by
          rw [cross_bind_joinNext h.1 hdisjoint.1, Multiset.bind_assoc]
      _ = (joinNext D as row s).bind fun joined =>
            (joinAll (joinNext D as) sources joined).bind fun joined => cross joined r :=
          Multiset.bind_congr fun joined _ => ih h.2 hdisjoint.2
      _ = (joinAll (joinNext D as) (s :: sources) row).bind fun joined => cross joined r :=
          Multiset.bind_assoc.symm

/-- Cross-joined sources may come after others that ignore them. -/
theorem joinAll_cross_bind_joinAll (h : ∀ r ∈ extra, ∀ s ∈ sources, Ignores D as s.1 r.1.produced)
    (hdisjoint : ∀ r ∈ extra, ∀ s ∈ sources, List.Disjoint s.1.produced r.1.produced) :
    (joinAll cross extra row).bind (joinAll (joinNext D as) sources) =
      (joinAll (joinNext D as) sources row).bind (joinAll cross extra) := by
  induction extra generalizing row with
  | nil =>
    have hunit : (joinAll (joinNext D as) sources row).bind (joinAll cross []) =
        joinAll (joinNext D as) sources row :=
      (Multiset.bind_singleton _ id).trans (Multiset.map_id _)
    rw [hunit, joinAll, Multiset.singleton_bind]
  | cons r extra ih =>
    rw [List.forall_mem_cons] at h hdisjoint
    calc (joinAll cross (r :: extra) row).bind (joinAll (joinNext D as) sources)
        = (cross row r).bind fun joined =>
            (joinAll (joinNext D as) sources joined).bind (joinAll cross extra) := by
          rw [joinAll, Multiset.bind_assoc]
          exact Multiset.bind_congr fun joined _ => ih h.2 hdisjoint.2
      _ = ((cross row r).bind (joinAll (joinNext D as) sources)).bind (joinAll cross extra) :=
          Multiset.bind_assoc.symm
      _ = (joinAll (joinNext D as) sources row).bind (joinAll cross (r :: extra)) := by
          rw [cross_bind_joinAll h.1 hdisjoint.1, Multiset.bind_assoc]
          rfl

theorem ReadBack.on_subset {before : List Variable} {ss : List Source} {s : Source}
    {on : List Condition} (h : ReadBack as before ss) (hs : s ∈ ss) (hon : on ∈ s.on?) :
    Condition.referencedAll on ⊆ (before ++ ss.flatMap produced) ++ as.map (·.target) := by
  induction ss generalizing before with
  | nil => exact absurd hs List.not_mem_nil
  | cons r ss ih =>
    intro v hv
    rw [List.flatMap_cons, ← List.append_assoc]
    obtain rfl | hs := List.mem_cons.mp hs
    · have hv := (h.1 on hon v hv).mem
      simp only [List.mem_append] at hv ⊢
      tauto
    · exact ih h.2 hs hv

end Source

namespace Draft

variable {d : Draft} {s : Source} {vs : List Variable} {v : Variable}

/-- The rows of the sources of a draft, joined in order. -/
def joined (D : ValueDomain α) (db : Database α) (t : VariableTable) (d : Draft) :
    Multiset (Row α) :=
  Source.joinAll (Source.joinNext D d.assignments)
    (Block.sourceRowsEach D db t (d.toBlock []).sources) Row.null

/-- The rows of a draft: those of its sources, with the assigned values, that pass its filters. -/
def rows (D : ValueDomain α) (db : Database α) (t : VariableTable) (d : Draft) :
    Multiset (Row α) :=
  ((d.joined D db t).map (Assignment.run D d.assignments)).filter
    fun row => Condition.AllHold D row d.filters

/-- The block of a draft has the rows of the draft. -/
theorem Sound.rows_toBlock (h : d.Sound t) {exposed : List Variable} (hexposed : exposed ⊆ d.vars) :
    (d.toBlock exposed).rows D db t = (d.rows D db t).map (·.restrict exposed) :=
  (h.toBlock hexposed).rows_eq_joinNext db

theorem rows_addFilters (d : Draft) (cs : List Condition) :
    { d with filters := d.filters ++ cs }.rows D db t =
      (d.rows D db t).filter fun row => Condition.AllHold D row cs := by
  rw [rows, rows, Multiset.filter_filter]
  refine Multiset.filter_congr fun row _ => ?_
  rw [and_comm]
  exact List.forall_mem_append

theorem rows_addFilter (d : Draft) (c : Condition) :
    (d.addFilter c).rows D db t = (d.rows D db t).filter fun row => c.eval D row = .yes := by
  refine (rows_addFilters d [c]).trans (Multiset.filter_congr fun row _ => ?_)
  exact List.forall_mem_singleton

/-! ### Fresh variables -/

theorem Sound.on_subset (h : d.Sound t) (hs : s ∈ (d.toBlock []).sources) {on : List Condition}
    (hon : on ∈ s.on?) : Condition.referencedAll on ⊆ d.vars := by
  obtain ⟨hregular, -⟩ := (h.toBlock (List.nil_subset _)).regular
  have hsub := hregular.readBack.on_subset hs hon
  rwa [List.nil_append, flatMap_produced_toBlock] at hsub

theorem Sound.run_take (h : d.Sound t) (hvs : ∀ v ∈ vs, v ∉ d.vars) (row other : Row α) :
    Assignment.run D d.assignments (row.take vs other) =
      (Assignment.run D d.assignments row).take vs other :=
  h.assignments.run_take hvs

theorem allHold_take {cs : List Condition} {ws : List Variable}
    (hcs : Condition.referencedAll cs ⊆ ws) (hvs : ∀ v ∈ vs, v ∉ ws) (row other : Row α) :
    Condition.AllHold D (row.take vs other) cs ↔ Condition.AllHold D row cs :=
  Condition.allHold_congr fun v hv => Row.take_of_not_mem fun hmem => hvs v hmem (hcs hv)

theorem Sound.ignores (h : d.Sound t) (hs : s ∈ (d.toBlock []).sources)
    (hvs : ∀ v ∈ vs, v ∉ d.vars) : Source.Ignores D d.assignments s vs := by
  intro on hon row other
  rw [h.run_take hvs]
  exact allHold_take (h.on_subset hs hon) hvs _ _

/-- A step that extends the joined rows by fresh variables extends the rows of the draft. -/
theorem Sound.rows_of_bind (h : d.Sound t) (hvs : ∀ v ∈ vs, v ∉ d.vars)
    {step step' : Row α → Multiset (Row α)}
    (hrun : ∀ row, (step row).map (Assignment.run D d.assignments) =
      step' (Assignment.run D d.assignments row))
    (htake : ∀ row, ∀ joined ∈ step' row, ∃ other, joined = row.take vs other) :
    ((((d.joined D db t).bind step).map (Assignment.run D d.assignments)).filter
      fun row => Condition.AllHold D row d.filters) = (d.rows D db t).bind step' := by
  rw [Multiset.map_bind, Draft.rows, Multiset.bind_filter, Multiset.bind_map, Multiset.filter_bind]
  refine Multiset.bind_congr fun row _ => ?_
  rw [hrun]
  have hiff : ∀ joined ∈ step' (Assignment.run D d.assignments row),
      Condition.AllHold D joined d.filters ↔
        Condition.AllHold D (Assignment.run D d.assignments row) d.filters := by
    intro joined hjoined
    obtain ⟨other, rfl⟩ := htake _ joined hjoined
    exact allHold_take h.filters hvs _ other
  split
  · rename_i hrow
    exact Multiset.filter_eq_self.mpr fun joined hjoined => (hiff joined hjoined).mpr hrow
  · rename_i hrow
    exact Multiset.filter_eq_nil.mpr fun joined hjoined hall => hrow ((hiff joined hjoined).mp hall)

/-! ### Steps -/

/-- An assignment gives every row one more value. -/
theorem Sound.rows_assign (h : d.Sound t) (hv : v ∉ d.vars) {x : Scalar} :
    (d.assign v x).rows D db t =
      (d.rows D db t).map fun row => row.assign v (x.eval D row) := by
  have hrun : ∀ row : Row α, Assignment.run D (d.assignments ++ [⟨v, x⟩]) row =
      (Assignment.run D d.assignments row).assign v
        (x.eval D (Assignment.run D d.assignments row)) :=
    fun row => Assignment.run_append _ _ row
  have hkeep : ∀ {cs : List Condition} (row : Row α) (value : Option α),
      Condition.referencedAll cs ⊆ d.vars →
      (Condition.AllHold D (row.assign v value) cs ↔ Condition.AllHold D row cs) := by
    intro cs row value hcs
    refine Condition.allHold_congr fun w hw => Row.assign_of_ne ?_
    rintro rfl
    exact hv (hcs hw)
  have hjoined : (d.assign v x).joined D db t = d.joined D db t := by
    refine Source.joinAll_eq_joinAll (fun s hs row => ?_) Row.null
    rw [Block.sourceRowsEach_eq_map] at hs
    obtain ⟨source, hsource, rfl⟩ := List.mem_map.mp hs
    unfold Source.joinNext
    cases hon : source.on? with
    | none => rfl
    | some on =>
      have hmatching : ∀ rows, Source.matching D (d.assign v x).assignments on row (source, rows) =
          Source.matching D d.assignments on row (source, rows) := fun rows => by
        refine Multiset.filter_congr fun joined _ => ?_
        show Condition.AllHold D (Assignment.run D (d.assignments ++ [⟨v, x⟩]) joined) on ↔ _
        rw [hrun]
        exact hkeep _ _ (h.on_subset hsource hon)
      simp only [Source.outer, hon, hmatching]
  rw [Draft.rows, Draft.rows, hjoined, Multiset.filter_map, Multiset.filter_map, Multiset.map_map]
  refine congrArg₂ Multiset.map (funext fun row => hrun row) (Multiset.filter_congr fun row _ => ?_)
  show Condition.AllHold D (Assignment.run D (d.assignments ++ [⟨v, x⟩]) row) d.filters ↔ _
  rw [hrun]
  exact hkeep _ _ h.filters

theorem joined_addSource (d : Draft) (s : Source) :
    (d.addSource s).joined D db t = (d.joined D db t).bind fun row =>
      Source.joinNext D d.assignments row (s, Block.sourceRows D db t s) := by
  have hsources : ((d.addSource s).toBlock []).sources = (d.toBlock []).sources ++ [s] :=
    (List.append_assoc _ _ _).symm
  rw [joined, hsources, Block.sourceRowsEach_eq_map, List.map_append, Source.joinAll_append,
    ← Block.sourceRowsEach_eq_map]
  exact Multiset.bind_congr fun row _ => Source.joinAll_singleton

theorem joinNext_take {as : List Assignment} {row joined : Row α} {s : Source × Multiset (Row α)}
    (h : joined ∈ Source.joinNext D as row s) : ∃ other, joined = row.take s.1.produced other := by
  unfold Source.joinNext at h
  cases hon : s.1.on? with
  | none =>
    rw [hon] at h
    obtain ⟨hsome, -⟩ | ⟨-, r, -, heq⟩ := Source.mem_cross h
    · simp [hon] at hsome
    · exact ⟨r, heq⟩
  | some on =>
    rw [hon] at h
    simp only [Source.outer, hon] at h
    split at h
    · exact ⟨Row.null, Multiset.mem_singleton.mp h⟩
    · obtain ⟨r, -, heq⟩ := Multiset.mem_map.mp (Multiset.mem_filter.mp h).1
      exact ⟨r, heq.symm⟩

/-- Assignments may be computed before a source is joined that they do not depend on. -/
theorem Sound.map_run_joinNext (h : d.Sound t) {s : Source × Multiset (Row α)}
    (hnew : ∀ v ∈ s.1.produced, v ∉ d.vars) (row : Row α) :
    (Source.joinNext D d.assignments row s).map (Assignment.run D d.assignments) =
      Source.joinNext D [] (Assignment.run D d.assignments row) s := by
  have htake : Assignment.run D d.assignments ∘ row.take s.1.produced =
      (Assignment.run D d.assignments row).take s.1.produced :=
    funext fun other => h.run_take hnew row other
  unfold Source.joinNext
  cases hon : s.1.on? with
  | none =>
    simp only [Source.cross, hon, Multiset.map_map]
    rw [htake]
  | some on =>
    have hmatching : (Source.matching D d.assignments on row s).map
        (Assignment.run D d.assignments) =
          Source.matching D [] on (Assignment.run D d.assignments row) s := by
      rw [Source.matching, Source.matching, ← htake, ← Multiset.map_map]
      exact (Multiset.filter_map (Condition.AllHold D · on) _ _).symm
    have hcard : (Source.matching D d.assignments on row s).card =
        (Source.matching D [] on (Assignment.run D d.assignments row) s).card := by
      rw [← hmatching, Multiset.card_map]
    simp only [Source.outer, hon, hcard]
    split
    · rw [Multiset.map_singleton, h.run_take hnew]
    · exact hmatching

/-- A source extends every row by the rows of the source. -/
theorem Sound.rows_addSource (h : d.Sound t) (hnew : ∀ v ∈ s.produced, v ∉ d.vars) :
    (d.addSource s).rows D db t = (d.rows D db t).bind fun row =>
      Source.joinNext D [] row (s, Block.sourceRows D db t s) := by
  rw [Draft.rows, joined_addSource]
  exact h.rows_of_bind hnew (fun row => h.map_run_joinNext hnew row) fun _ _ hr => joinNext_take hr

/-- Tables with the rows that are read from them. -/
def tableInputs (db : Database α) (t : VariableTable) (tables : List DraftTable) :
    List (Source × Multiset (Row α)) :=
  tables.map fun table => (.table table.source table.vars, (db table.source).map t.row)

theorem mem_joinAll_tables {tables : List DraftTable} {row joined : Row α}
    (h : joined ∈ Source.joinAll Source.cross (tableInputs db t tables) row) :
    ∃ other, joined = row.take (tables.flatMap (·.vars)) other := by
  refine ⟨joined, funext fun v => ?_⟩
  by_cases hv : v ∈ tables.flatMap (·.vars)
  · rw [Row.take_of_mem hv]
  · rw [Row.take_of_not_mem hv]
    refine Source.eq_of_mem_cross (fun s hs _ hmem => hv ?_) joined h
    obtain ⟨table, htable, rfl⟩ := List.mem_map.mp hs
    exact List.mem_flatMap.mpr ⟨table, htable, hmem⟩

theorem Sound.map_run_tables (h : d.Sound t) {tables : List DraftTable}
    (hnew : ∀ v ∈ tables.flatMap (·.vars), v ∉ d.vars) (row : Row α) :
    (Source.joinAll Source.cross (tableInputs db t tables) row).map
        (Assignment.run D d.assignments) =
      Source.joinAll Source.cross (tableInputs db t tables)
        (Assignment.run D d.assignments row) := by
  induction tables generalizing row with
  | nil => rfl
  | cons table tables ih =>
    rw [List.flatMap_cons, List.forall_mem_append] at hnew
    rw [tableInputs, List.map_cons, Source.joinAll, Source.joinAll, Multiset.map_bind]
    simp only [Source.cross, Source.on?, Multiset.bind_map]
    refine Multiset.bind_congr fun columns _ => (ih hnew.2 _).trans (congrArg _ ?_)
    exact h.run_take hnew.1 row (t.row columns)

/-- New tables extend every row by the rows of the tables. -/
theorem Sound.rows_withTables (h : d.Sound t) {tables : List DraftTable} (columns : ColumnIndex)
    (hnew : ∀ v ∈ tables.flatMap (·.vars), v ∉ d.vars) :
    { d with tables := d.tables ++ tables, columns }.rows D db t =
      (d.rows D db t).bind (Source.joinAll Source.cross (tableInputs db t tables)) := by
  have hjoined : { d with tables := d.tables ++ tables, columns }.joined D db t =
      (d.joined D db t).bind (Source.joinAll Source.cross (tableInputs db t tables)) := by
    have hnext : ∀ row : Row α, Source.joinAll (Source.joinNext D d.assignments)
        (tableInputs db t tables) row =
          Source.joinAll Source.cross (tableInputs db t tables) row := by
      refine Source.joinAll_eq_joinAll fun s hs row => ?_
      obtain ⟨table, -, rfl⟩ := List.mem_map.mp hs
      rfl
    have hswap : ∀ row : Row α,
        (Source.joinAll Source.cross (tableInputs db t tables) row).bind
          (Source.joinAll (Source.joinNext D d.assignments)
            (Block.sourceRowsEach D db t d.sources)) =
        (Source.joinAll (Source.joinNext D d.assignments)
          (Block.sourceRowsEach D db t d.sources) row).bind
            (Source.joinAll Source.cross (tableInputs db t tables)) := by
      intro row
      rw [Block.sourceRowsEach_eq_map]
      have hpair : ∀ r ∈ tableInputs db t tables,
          ∀ s ∈ d.sources.map (fun s => (s, Block.sourceRows D db t s)),
            Source.Ignores D d.assignments s.1 r.1.produced ∧
              List.Disjoint s.1.produced r.1.produced := by
        intro r hr s hs
        obtain ⟨table, htable, rfl⟩ := List.mem_map.mp hr
        obtain ⟨source, hsource, rfl⟩ := List.mem_map.mp hs
        have hfresh : ∀ v ∈ table.vars, v ∉ d.vars := fun v hv =>
          hnew v (List.mem_flatMap.mpr ⟨table, htable, hv⟩)
        refine ⟨h.ignores (List.mem_append_right _ hsource) hfresh, fun v hv hmem => ?_⟩
        refine hfresh v hmem (List.mem_append_left _ (List.mem_append_right _ ?_))
        exact List.mem_flatMap.mpr ⟨source, hsource, hv⟩
      exact Source.joinAll_cross_bind_joinAll (fun r hr s hs => (hpair r hr s hs).1)
        fun r hr s hs => (hpair r hr s hs).2
    have hsplit : ∀ tables : List DraftTable, Block.sourceRowsEach D db t
        (tables.map (fun table => .table table.source table.vars) ++ d.sources) =
          tableInputs db t tables ++ Block.sourceRowsEach D db t d.sources := by
      intro tables
      rw [Block.sourceRowsEach_eq_map, Block.sourceRowsEach_eq_map, List.map_append, List.map_map]
      rfl
    have happend : tableInputs db t (d.tables ++ tables) =
        tableInputs db t d.tables ++ tableInputs db t tables := List.map_append
    show Source.joinAll _
        (Block.sourceRowsEach D db t ((d.tables ++ tables).map _ ++ d.sources)) _ =
      (Source.joinAll _ (Block.sourceRowsEach D db t (d.tables.map _ ++ d.sources)) _).bind _
    simp only [hsplit, happend, Source.joinAll_append, Multiset.bind_assoc, hnext, hswap]
  rw [Draft.rows, hjoined]
  exact h.rows_of_bind hnew (fun row => h.map_run_tables hnew row)
    fun _ _ hr => mem_joinAll_tables hr

/-- A draft binds no other variables than its own. -/
theorem rows_eq_none {row : Row α} (h : row ∈ d.rows D db t) (hv : v ∉ d.vars) : row v = none := by
  rw [vars, List.mem_append, not_or] at hv
  obtain ⟨joined, hjoined, rfl⟩ := Multiset.mem_map.mp (Multiset.mem_of_mem_filter h)
  rw [Assignment.run_of_not_mem hv.2]
  refine Source.joinAll_invariant (P := fun row => row v = none) ?_ rfl joined hjoined
  intro s hs row hrow joined hjoined
  obtain ⟨other, rfl⟩ := joinNext_take hjoined
  rw [Row.take_of_not_mem, hrow]
  rw [Block.sourceRowsEach_eq_map] at hs
  obtain ⟨source, hsource, rfl⟩ := List.mem_map.mp hs
  intro hmem
  refine hv.1 ?_
  rw [← flatMap_produced_toBlock []]
  exact List.mem_flatMap.mpr ⟨source, hsource, hmem⟩

end Draft

end VirtualGraph
