import VirtualGraph.Proofs.Draft.Exact

/-!
# Matched parts of left joins

The matched part of a plan whose last source is a left join has the pairs of a left row and a right
row that meet the conditions of the left join, without the rows that are padded with nulls: the left
join is made a join, and its conditions become filters. All steps that come after the left join are
the same for the matched part as for the whole.
-/

namespace VirtualGraph

open DraftBuilder

/-- Sources of which the last one, if it is a left join, is joined without padding, and the
conditions that this leaves over. -/
def Source.matchedPart (sources : List Source) : List Source × List Condition :=
  match sources.getLast? with
  | some (.leftJoin block on vs) => (sources.dropLast ++ [.nested block vs], on)
  | _ => (sources, [])

/-- The block with only those rows of its last left join that meet its conditions. -/
def Block.matchedPart (b : Block) : Block :=
  ⟨b.exposed, (Source.matchedPart b.sources).1, b.assignments,
    (Source.matchedPart b.sources).2 ++ b.filters⟩

/-- The plan with only those rows of its last left join that meet its conditions. -/
def Plan.matchedPart (p : Plan) : Plan := { p with block := p.block.matchedPart }

theorem Source.matchedPart_leftJoin (sources : List Source) (block : Block) (on : List Condition)
    (vs : List Variable) : matchedPart (sources ++ [.leftJoin block on vs]) =
      (sources ++ [.nested block vs], on) := by
  rw [matchedPart, List.getLast?_concat, List.dropLast_concat]

theorem Source.matchedPart_cases (sources : List Source) : matchedPart sources = (sources, []) ∨
    ∃ before block on vs, sources = before ++ [.leftJoin block on vs] := by
  unfold matchedPart
  split
  · rename_i block on vs hlast
    obtain ⟨before, hbefore⟩ := List.getLast?_eq_some_iff.mp hlast
    exact .inr ⟨before, block, on, vs, hbefore⟩
  · exact .inl rfl

theorem Source.matchedPart_tables (tables : List DraftTable) (sources : List Source) :
    matchedPart (tables.map (fun t => .table t.source t.vars) ++ sources) =
      (tables.map (fun t => .table t.source t.vars) ++ (matchedPart sources).1,
        (matchedPart sources).2) := by
  obtain rfl | ⟨before, last, rfl⟩ := List.eq_nil_or_concat sources
  · obtain rfl | ⟨before, last, rfl⟩ := List.eq_nil_or_concat tables
    · rfl
    · simp [matchedPart]
  · rw [List.concat_eq_append, ← List.append_assoc]
    cases last <;> simp [matchedPart]

section Rows

variable {α : Type} {D : ValueDomain α} {t : VariableTable}

/-- The rows of the last source are joined last. -/
theorem Source.joinAll_concat (as : List Assignment) (db : Database α) (before : List Source)
    (s : Source) (row : Row α) :
    joinAll (joinNext D as) (Block.sourceRowsEach D db t (before ++ [s])) row =
      (joinAll (joinNext D as) (Block.sourceRowsEach D db t before) row).bind fun row =>
        joinNext D as row (s, Block.sourceRows D db t s) := by
  rw [Block.sourceRowsEach_eq_map, List.map_append, joinAll_append, ← Block.sourceRowsEach_eq_map]
  exact Multiset.bind_congr fun row _ => joinAll_singleton

theorem Source.joinNext_nested (as : List Assignment) (row : Row α) (block : Block)
    (vs : List Variable) (rows : Multiset (Row α)) :
    joinNext D as row (.nested block vs, rows) = rows.map (row.take vs) :=
  rfl

/-- A left join extends a row by its matches, or by nulls if there are none. -/
theorem Source.joinNext_leftJoin (as : List Assignment) (row : Row α) (block : Block)
    (on : List Condition) (vs : List Variable) (rows : Multiset (Row α)) :
    joinNext D as row (.leftJoin block on vs, rows) =
      matching D as on row (.leftJoin block on vs, rows) +
        if (matching D as on row (.leftJoin block on vs, rows)).card = 0
          then {row.take vs Row.null} else 0 := by
  show (if _ then _ else _) = _
  split
  · rename_i hnone
    rw [Multiset.card_eq_zero.mp hnone, Multiset.zero_add]
    rfl
  · rw [Multiset.add_zero]

/-- The matched part of a block has some of its rows. -/
theorem Block.WellBuilt.matchedPart_rows_le {b : Block} (h : b.WellBuilt t)
    (h' : b.matchedPart.WellBuilt t) (db : Database α) :
    b.matchedPart.rows D db t ≤ b.rows D db t := by
  obtain ⟨exposed, sources, as, filters⟩ := b
  obtain hsame | ⟨before, block, on, vs, rfl⟩ := Source.matchedPart_cases sources
  · have hpart : Block.matchedPart ⟨exposed, sources, as, filters⟩ =
        ⟨exposed, sources, as, filters⟩ := by
      rw [Block.matchedPart, hsame]
      rfl
    rw [hpart]
  · have hpart : Block.matchedPart ⟨exposed, before ++ [.leftJoin block on vs], as, filters⟩ =
        ⟨exposed, before ++ [.nested block vs], as, on ++ filters⟩ := by
      rw [Block.matchedPart, Source.matchedPart_leftJoin]
    rw [h.rows_eq_joinNext, h'.rows_eq_joinNext, hpart]
    simp only [Source.joinAll_concat, Source.joinNext_nested, Source.joinNext_leftJoin,
      Multiset.bind_add, Multiset.map_add, select, Multiset.filter_add]
    -- What remains of the block's rows are those that the left join pads.
    refine le_trans (le_of_eq (congrArg _ ?_)) (Multiset.le_add_right _ _)
    simp only [Source.matching]
    rw [← Multiset.filter_bind, Multiset.filter_map, Multiset.filter_map, Multiset.filter_filter]
    refine congrArg _ (Multiset.filter_congr fun joined _ => ?_)
    rw [and_comm]
    exact List.forall_mem_append

end Rows

namespace Draft

/-! ### Steps on matched parts -/

/-- The draft with only those rows of its last left join that meet its conditions. -/
def matchedPart (d : Draft) : Draft :=
  { d with
    sources := (Source.matchedPart d.sources).1
    filters := (Source.matchedPart d.sources).2 ++ d.filters }

section Steps

variable (d : Draft)

theorem matchedPart_toBlock (exposed : List Variable) :
    (d.toBlock exposed).matchedPart = d.matchedPart.toBlock exposed := by
  rw [Block.matchedPart, toBlock, Source.matchedPart_tables]
  rfl

theorem matchedPart_addFilter (c : Condition) :
    (d.addFilter c).matchedPart = d.matchedPart.addFilter c := by
  rw [matchedPart, matchedPart, addFilter, addFilter, List.append_assoc]

theorem merge_matchedPart (existing new : Binding) : d.matchedPart.merge existing new =
    (fun r => (r.1.matchedPart, r.2)) <$> d.merge existing new := by
  unfold merge
  split
  · rfl
  · split
    · rfl
    · simp only [map_bind, map_pure]
      rfl

theorem bind_matchedPart (name : String) (b : Binding) :
    d.matchedPart.bind name b = matchedPart <$> d.bind name b := by
  unfold bind
  rw [show d.matchedPart.bindings = d.bindings from rfl]
  split
  · rfl
  · simp only [map_bind, map_pure]
    refine bind_congr fun c => ?_
    rw [← matchedPart_addFilter, merge_matchedPart, bind_map_left]
    rfl

theorem bindAgreed_matchedPart (names : List String) (name : String) (b : Binding) :
    d.matchedPart.bindAgreed names name b = matchedPart <$> d.bindAgreed names name b := by
  unfold bindAgreed
  rw [show d.matchedPart.bindings = d.bindings from rfl]
  split
  · rw [merge_matchedPart, bind_map_left, map_bind]
    rfl
  · exact bind_matchedPart d name b

theorem bindOptional_matchedPart (names : List String) (bs : Bindings) :
    bindOptional names d.matchedPart bs = matchedPart <$> bindOptional names d bs := by
  induction bs generalizing d with
  | nil => rfl
  | cons e bs ih =>
    rw [bindOptional_cons, bindOptional_cons, bindAgreed_matchedPart, bind_map_left, map_bind]
    exact bind_congr fun d' => ih d'

theorem project_matchedPart (names : List String) : d.matchedPart.project names =
    (fun r => (r.1.matchedPart, r.2)) <$> d.project names := by
  induction names generalizing d with
  | nil => rfl
  | cons name names ih =>
    have hassign : ∀ v x, (d.matchedPart.assign v x).project names =
        (fun r => (r.1.matchedPart, r.2)) <$> (d.assign v x).project names := fun v x =>
      ih (d.assign v x)
    rw [project, project, map_bind]
    refine bind_congr fun t => ?_
    rw [show d.matchedPart.bindings = d.bindings from rfl,
      show d.matchedPart.columns = d.columns from rfl]
    dsimp only
    split <;> simp only [map_bind, map_pure, pure_bind, hassign, bind_map_left]

theorem planOf_matchedPart (build : DraftBuilder Draft) (projection : List String) :
    planOf (matchedPart <$> build) projection = Plan.matchedPart <$> planOf build projection := by
  unfold planOf
  simp only [bind_map_left, project_matchedPart, map_bind, StateT.run_bind, StateT.run_pure,
    bind_assoc, pure_bind, ← matchedPart_toBlock]
  rfl

end Steps

/-! ### Pairs of rows -/

variable {E : Setting} {t T : VariableTable} {d nested : Draft}

/-- The draft with further conditions in front of its filters. -/
def require (cs : List Condition) (d : Draft) : Draft := { d with filters := cs ++ d.filters }

theorem matchedPart_addLeftJoin (d : Draft) (block : Block) (on : List Condition)
    (vs : List Variable) : (d.addSource (.leftJoin block on vs)).matchedPart =
      (d.addSource (.nested block vs)).require on := by
  rw [matchedPart, addSource, Source.matchedPart_leftJoin]
  rfl

theorem vars_require (cs : List Condition) (d : Draft) : (d.require cs).vars = d.vars := rfl

theorem rowsIn_require (cs : List Condition) (d : Draft) : (d.require cs).rowsIn E T =
    (d.rowsIn E T).filter fun row => Condition.AllHold E.domain row cs := by
  rw [rowsIn, rowsIn, rows, rows, Multiset.filter_filter]
  exact Multiset.filter_congr fun row _ => List.forall_mem_append

theorem Tracks.require {cs : List Condition} (h : d.Tracks E t)
    (hcs : Condition.referencedAll cs ⊆ d.vars) : (d.require cs).Tracks E t :=
  { h with
    sound :=
      { h.sound with
        filters := by
          show Condition.referencedAll (cs ++ d.filters) ⊆ d.vars
          rw [Condition.referencedAll_append]
          exact List.append_subset.mpr ⟨hcs, h.sound.filters⟩ }
    faithful := fun T hT row hrow => by
      rw [rowsIn_require] at hrow
      exact h.faithful T hT row (Multiset.mem_of_mem_filter hrow) }

/-- The draft joined with the rows of a nested one that meet conditions. -/
def addMatches (d nested : Draft) (exposed : List Variable) (on : List Condition) : Draft :=
  (d.addSource (.nested (nested.toBlock exposed) exposed)).require on

theorem subset_vars_addMatches (d nested : Draft) (exposed : List Variable) (on : List Condition) :
    exposed ⊆ (d.addMatches nested exposed on).vars := by
  rw [addMatches, vars_require]
  exact fun v hv => mem_vars_addSource.mpr (.inr hv)

namespace Exposes

variable {nested' : Draft} {exposed : List Variable} {bs : Bindings} {f : Row String → Row String}
variable {on : List Condition} {names : List String} {p : Solution → Solution → Prop}
variable (h : nested.Exposes E T nested' exposed bs f) (hd : d.Sound T)
variable (hnew : ∀ v ∈ exposed, v ∉ d.vars) (hmatches : d.Matches E T names p nested exposed f on)
variable (hnested : nested'.Sound T) (hexposed : exposed ⊆ nested'.vars)

include h hd hnew hnested hexposed

/-- The rows of a draft that is joined with a nested one are the pairs of their rows. -/
theorem rows_nested : (d.addSource (.nested (nested'.toBlock exposed) exposed)).rowsIn E T =
    (d.rowsIn E T).bind fun row =>
      (nested.rowsIn E T).map fun row' => row.take exposed (f row') := by
  rw [rowsIn, hd.rows_addSource (s := .nested (nested'.toBlock exposed) exposed) hnew]
  refine Multiset.bind_congr fun row _ => ?_
  show ((nested'.toBlock exposed).rows E.domain E.db T).map (row.take exposed) = _
  rw [hnested.rows_toBlock hexposed, ← rowsIn, h.rows, Multiset.map_map, Multiset.map_map]
  exact Multiset.map_congr rfl fun row' _ => Row.take_restrict

include hmatches

open Classical in
/-- The answers of the matched pairs. -/
theorem answers_matched : (d.addMatches nested' exposed on).answers E T exposed =
    (d.solutions E T).bind fun a =>
      (nested.matched E T names p a).map fun row => (a, (f row).restrict exposed) := by
  rw [answers, addMatches, rowsIn_require, h.rows_nested hd hnew hnested hexposed,
    Multiset.filter_bind, Multiset.map_bind, solutions, Multiset.bind_map]
  refine Multiset.bind_congr fun row hrow => ?_
  rw [Multiset.filter_map, Multiset.map_map]
  have hmatched : (nested.rowsIn E T).filter ((fun joined =>
      Condition.AllHold E.domain joined on) ∘ fun row' => row.take exposed (f row')) =
        nested.matched E T names p (d.solution E row) :=
    Multiset.filter_congr fun row' hrow' => hmatches row hrow row' hrow'
  rw [hmatched]
  refine Multiset.map_congr rfl fun row' _ => Prod.ext ?_ Row.restrict_take
  exact hd.solution_congr fun v hv => Row.take_of_not_mem fun hmem => hnew v hmem hv

/-- The matched pairs are among the answers of the left join. -/
theorem mem_answers_of_matched {x : Solution × Row String}
    (hx : x ∈ (d.addMatches nested' exposed on).answers E T exposed) :
    x ∈ (d.addSource (.leftJoin (nested'.toBlock exposed) on exposed)).answers E T exposed := by
  rw [h.answers_matched hd hnew hmatches hnested hexposed] at hx
  rw [h.answers_eq hd hnew hmatches hnested hexposed]
  obtain ⟨a, ha, hx⟩ := Multiset.mem_bind.mp hx
  refine Multiset.mem_bind.mpr ⟨a, ha, ?_⟩
  rw [if_neg fun hnone => ?_]
  · exact hx
  · rw [Multiset.card_eq_zero.mp hnone] at hx
    exact absurd hx (Multiset.notMem_zero _)

open Classical in
/-- The matched pairs, each with what the bindings of the nested draft come to. -/
theorem bind_matched : ((d.addMatches nested' exposed on).answers E T exposed).bind
    (fun x => (bs.solutions E d.columns x.2).bind x.1.combine) =
      (d.solutions E T).bind fun a =>
        (Solution.matched names p (nested.solutions E T) a).bind a.combine := by
  rw [h.answers_matched hd hnew hmatches hnested hexposed, Multiset.bind_assoc]
  refine Multiset.bind_congr fun a _ => ?_
  rw [← map_matched, Multiset.bind_map, Multiset.bind_map]
  refine Multiset.bind_congr fun row hrow => ?_
  rw [h.solutions_restrict (Multiset.mem_of_mem_filter hrow), Multiset.singleton_bind]

end Exposes

namespace Attaches

variable {t₀ : VariableTable} {names : List String} {condition : Option Expression}
variable {r : Source × Bindings × ExpressionScope} {nested' : Draft} {exposed : List Variable}
variable {shared own : List Condition}
variable (h : d.Attaches E t₀ t names nested condition r nested' exposed shared own)

include h

/-- The left side joined with the right side. -/
theorem sound_addNested (hd : d.Sound t₀) (ht₀ : t₀ <+: t) :
    (d.addSource (.nested (nested'.toBlock exposed) exposed)).Sound t := by
  have hblock := h.sound.toBlock h.covered
  refine (hd.addLater (s := .nested (nested'.toBlock exposed) exposed) ht₀
    ⟨hblock.wellScoped, List.Subset.refl exposed⟩
    (fun v hv => ⟨h.later v hv, h.sound.taken v (h.covered hv)⟩) h.once (fun _ _ => by simp)
    (fun b hb => List.mem_singleton.mp hb ▸ hblock.regular) ?_).1
  rintro _ ⟨⟩

/-- The left side with its matches. -/
theorem tracks_matched (hd : d.Tracks E t₀) (ht₀ : t₀ <+: t) :
    (d.addMatches nested' exposed (shared ++ own)).Tracks E t := by
  refine (hd.addSource ht₀ (h.sound_addNested hd.sound ht₀) (h.fresh hd.sound)).require ?_
  exact fun v hv => mem_vars_addSource.mpr (List.mem_append.mp (h.reads hv))

end Attaches

/-- The matched part of a left join extends each solution by those that are matched with it. -/
theorem addLeftJoin_matched {t₀ : VariableTable} {names : List String}
    {condition : Option Expression} (h : d.Tracks E t₀) (ht₀ : t₀ <+: t)
    (hnested : nested.Tracks E t)
    (hlater : empty.Grows t₀ nested) (hvalued : ∀ name, E.valued name)
    (hsteady : d.SteadyOn E t names nested condition) :
    (matchedPart <$> d.addLeftJoin names nested condition).Builds Fault.Any t fun d' t' =>
      d'.Tracks E t' ∧ ∀ T, t' <+: T → d'.solutions E T = (d.solutions E T).bind fun a =>
        (Solution.matched names (d.Meets E names condition) (nested.solutions E T) a).bind
          a.combine := by
  rw [addLeftJoin_eq, map_bind]
  refine (leftJoinSource_attaches h.sound ht₀ hnested hlater hvalued names condition).bind
    fun r t' ht hr => ?_
  obtain ⟨nested', exposed, shared, own, hattaches⟩ := hr
  have ht₀' := ht₀.trans ht
  have hfresh := hattaches.fresh h.sound
  have hsteady' : d.SteadyOn E t' names nested condition := fun T hT => hsteady T (ht.trans hT)
  rw [← bindOptional_matchedPart, hattaches.source, matchedPart_addLeftJoin]
  refine (hattaches.yields h ht₀' hvalued hsteady' (hattaches.tracks_matched h ht₀') rfl
    (d.subset_vars_addMatches nested' exposed (shared ++ own)) fun T hT x hx => ?_).mono
    fun d' t'' ht' hd' => ⟨hd'.tracks, fun T hT => ?_⟩
  · obtain ⟨f, hf⟩ := hattaches.exposes T hT
    exact hf.mem_answers_of_matched (h.sound.mono (ht₀'.trans hT)) hfresh
      (hattaches.matches h hT ht₀' hf hsteady') (hattaches.sound.mono hT) hattaches.covered hx
  · have hT' := ht'.trans hT
    obtain ⟨f, hf⟩ := hattaches.exposes T hT'
    rw [hd'.solutions hT]
    exact hf.bind_matched (h.sound.mono (ht₀'.trans hT')) hfresh
      (hattaches.matches h hT' ht₀' hf hsteady') (hattaches.sound.mono hT') hattaches.covered

end Draft

end VirtualGraph
