import VirtualGraph.Proofs.Block.Nulls

/-!
# Optimisation keeps the rows of a block

Both steps of optimisation leave the sources of a block alike: they bind the same variables to the
same rows, and the conditions of a left join are true on the same rows as long as these fit the
sources. Alike sources have the same combined rows, and there assignments and filters have not
changed either.
-/

namespace VirtualGraph

variable {α : Type} {D : ValueDomain α} {row : Row α}

namespace Condition

mutual

/-- The truth value of a condition is determined by those of its atoms. -/
theorem eval_eq_truth : ∀ c : Condition, c.eval D row = c.truth (eval D row)
  | always => rfl
  | never => rfl
  | and items => congrArg Truth.all (evalEach_eq_truthEach items)
  | or items => congrArg Truth.any (evalEach_eq_truthEach items)
  | not inner => congrArg Truth.not (eval_eq_truth inner)
  | compare _ _ _ => rfl
  | sameVariable _ _ => rfl
  | sameValue _ _ => rfl
  | isNull _ => rfl
  | langMatches _ _ => rfl
  | like _ _ => rfl

theorem evalEach_eq_truthEach : ∀ cs : List Condition,
    evalEach D row cs = truthEach (eval D row) cs
  | [] => rfl
  | c :: rest => congrArg₂ List.cons (eval_eq_truth c) (evalEach_eq_truthEach rest)

end

/-- The opposite comparison is unknown on the same rows. -/
theorem eval_compare_negate (op : Comparator) (l r : Scalar) :
    (compare op.negate l r).eval D row = ((compare op l r).eval D row).not := by
  rw [eval, eval]
  cases l.eval D row <;> cases r.eval D row <;> simp [Truth.not]

theorem eval_simplify (c : Condition) : c.simplify.eval D row = c.eval D row := by
  rw [eval_eq_truth, truth_simplify eval_compare_negate, ← eval_eq_truth]

theorem allHold_iff_valueOf {cs : List Condition} :
    AllHold D row cs ↔ valueOf .and (eval D row) cs = .yes := by
  rw [allHold_iff, evalEach_eq_truthEach, truthEach_eq_map]
  rfl

theorem allHold_simplifyList {cs : List Condition} :
    AllHold D row (simplifyList cs) ↔ AllHold D row cs := by
  rw [simplifyList, allHold_iff_valueOf, valueOf_simplifyAll eval_compare_negate, valueOf,
    map_truth_simplifyEach eval_compare_negate, ← valueOf, ← allHold_iff_valueOf]

end Condition

namespace Scalar

mutual

theorem eval_simplify : ∀ x : Scalar, x.simplify.eval D row = x.eval D row
  | column _ => rfl
  | constant _ _ => rfl
  | null => rfl
  | concat items => congrArg (Option.map D.concat) (evalAll_simplify items).1
  | coalesce items => (evalAll_simplify items).2
  | case branches otherwise =>
    congrArg₂ Option.getD (evalBranch_simplify branches) (eval_simplify otherwise)

theorem evalAll_simplify : ∀ xs : List Scalar,
    evalAll D row (simplifyEach xs) = evalAll D row xs ∧
      evalFirst D row (simplifyEach xs) = evalFirst D row xs
  | [] => ⟨rfl, rfl⟩
  | x :: rest => by
    have hx := eval_simplify x
    obtain ⟨hall, hfirst⟩ := evalAll_simplify rest
    simp only [simplifyEach, evalAll, evalFirst, hx, hall, hfirst, and_self]

theorem evalBranch_simplify : ∀ branches : List (Condition × Scalar),
    evalBranch D row (simplifyBranches branches) = evalBranch D row branches
  | [] => rfl
  | (c, x) :: rest => by
    simp only [simplifyBranches, evalBranch, Condition.eval_simplify, eval_simplify x,
      evalBranch_simplify rest]

end

end Scalar

theorem Assignment.run_simplify (as : List Assignment) :
    Assignment.run D (as.map Assignment.simplify) row = Assignment.run D as row := by
  induction as generalizing row with
  | nil => rfl
  | cons a as ih =>
    rw [List.map_cons, Assignment.run, Assignment.run, ih]
    exact congrArg (fun x => Assignment.run D as (row.assign a.target x)) (Scalar.eval_simplify _)

namespace Source

variable {as as' : List Assignment} {P : Row α → Prop} {s r : Source × Multiset (Row α)}
  {ss rs : List (Source × Multiset (Row α))}

/-- Sources that bind the same variables to the same rows. If they are left joins, their conditions
agree on the rows to which `P` applies, after the assignments around each of them. -/
structure Alike (D : ValueDomain α) (as as' : List Assignment) (P : Row α → Prop)
    (s r : Source × Multiset (Row α)) : Prop where
  rows : s.2 = r.2
  produced : s.1.produced = r.1.produced
  on : s.1.on? = none ∧ r.1.on? = none ∨ ∃ on on', s.1.on? = some on ∧ r.1.on? = some on' ∧
    ∀ row, P row → Matched row s → (Condition.AllHold D (Assignment.run D as row) on ↔
      Condition.AllHold D (Assignment.run D as' row) on')

theorem Alike.cross_eq (h : Alike D as as' P s r) : cross row s = cross row r := by
  obtain ⟨hs, hr⟩ | ⟨on, on', hs, hr, -⟩ := h.on
  · simp only [cross, hs, hr, h.rows, h.produced]
  · simp only [cross, hs, hr]

theorem Alike.outer_eq (h : Alike D as as' P s r)
    (hP : ∀ other ∈ s.2, P (row.take s.1.produced other)) :
    outer D as row s = outer D as' row r := by
  obtain ⟨hs, hr⟩ | ⟨on, on', hs, hr, hon⟩ := h.on
  · simp only [outer, hs, hr]
  · have hmatching : matching D as on row s = matching D as' on' row r := by
      rw [matching, matching, ← h.rows, ← h.produced]
      refine Multiset.filter_congr fun joined hjoined => ?_
      obtain ⟨other, hother, rfl⟩ := Multiset.mem_map.mp hjoined
      exact hon _ (hP other hother) (matched_take hother)
    simp only [outer, hs, hr, hmatching, h.produced]

theorem joinAll_congr {R : Source × Multiset (Row α) → Source × Multiset (Row α) → Prop}
    {join join' : Row α → Source × Multiset (Row α) → Multiset (Row α)}
    (h : List.Forall₂ R ss rs) (hjoin : ∀ s ∈ ss, ∀ r, R s r → ∀ row, P row →
      join row s = join' row r ∧ ∀ row' ∈ join row s, P row') (hrow : P row) :
    joinAll join ss row = joinAll join' rs row := by
  induction h generalizing row with
  | nil => rfl
  | cons hsr _ ih =>
    obtain ⟨hs, hrest⟩ := List.forall_mem_cons.mp hjoin
    obtain ⟨heq, hP⟩ := hs _ hsr row hrow
    rw [joinAll, joinAll, ← heq]
    exact Multiset.bind_congr fun mid hmid => ih hrest (hP mid hmid)

/-- Alike sources have the same combined rows. -/
theorem combine_congr (hsep : Separate ss)
    (h : List.Forall₂ (Alike D as as' fun row => ∀ s ∈ ss, Fits row s) ss rs) :
    combine D as ss = combine D as' rs := by
  have hcross : joinAll cross ss Row.null = joinAll cross rs Row.null :=
    joinAll_congr (P := fun _ => True) h (fun _ _ _ hsr _ _ => ⟨hsr.cross_eq, fun _ _ => trivial⟩)
      trivial
  rw [combine, combine, ← hcross]
  refine Multiset.bind_congr fun mid hmid => ?_
  refine joinAll_congr (P := fun row => ∀ s ∈ ss, Fits row s) h ?_ (fits_of_mem_cross hsep hmid)
  intro s hs r hsr row hfits
  constructor
  · exact hsr.outer_eq fun other hother => fits_take hsep hfits hs (.inl (matched_take hother))
  · exact fun row' hrow' => fits_of_mem_outer hsep hfits hs hrow'

end Source

namespace Block

variable {db : Database α} {t : VariableTable} {b c : Block}

/-- A row fits all sources of a block. -/
def Fits (D : ValueDomain α) (db : Database α) (t : VariableTable) (b : Block) (row : Row α) :
    Prop :=
  ∀ s ∈ b.sources, Source.Fits row (s, sourceRows D db t s)

/-- Two blocks with the same rows: their sources are alike, and on rows that fit these, assignments
and filters come out the same. -/
theorem rows_congr (hapart : b.Apart) (hexposed : b.exposed = c.exposed)
    (hsources : List.Forall₂ (fun s r => Source.Alike D b.assignments c.assignments
      (b.Fits D db t) (s, sourceRows D db t s) (r, sourceRows D db t r)) b.sources c.sources)
    (hrun : ∀ row, b.Fits D db t row →
      Assignment.run D b.assignments row = Assignment.run D c.assignments row)
    (hfilters : ∀ row, b.Fits D db t row →
      (Condition.AllHold D (Assignment.run D b.assignments row) b.filters ↔
        Condition.AllHold D (Assignment.run D b.assignments row) c.filters)) :
    b.rows D db t = c.rows D db t := by
  have hsep := hapart.separate D db t
  have hcombine : Source.combine D b.assignments (sourceRowsEach D db t b.sources) =
      Source.combine D c.assignments (sourceRowsEach D db t c.sources) := by
    rw [sourceRowsEach_eq_map, sourceRowsEach_eq_map]
    refine Source.combine_congr hsep ?_
    simp only [List.forall₂_map_left_iff, List.forall₂_map_right_iff, List.forall_mem_map]
    exact hsources
  have hcandidates : b.candidateRows D db t = c.candidateRows D db t := by
    rw [candidateRows, candidateRows, ← hcombine]
    refine Multiset.map_congr rfl fun row hrow => hrun row ?_
    rw [sourceRowsEach_eq_map] at hrow
    exact List.forall_mem_map.mp (Source.fits_of_mem_combine hsep hrow)
  rw [rows_eq_select, rows_eq_select, ← hexposed, ← hcandidates, select, select]
  refine congrArg _ (Multiset.filter_congr fun row hrow => ?_)
  obtain ⟨base, rfl, hfits⟩ := fits_of_mem_candidateRows hapart hrow
  exact hfilters base hfits

theorem branchRows_congr {f : Block → Block} {index : Variable} {n : Nat} {bs : List Block}
    (h : ∀ b ∈ bs, (f b).rows D db t = b.rows D db t) :
    branchRows D db t index n (bs.map f) = branchRows D db t index n bs := by
  induction bs generalizing n with
  | nil => rfl
  | cons b bs ih =>
    obtain ⟨hb, hbs⟩ := List.forall_mem_cons.mp h
    rw [List.map_cons, branchRows, branchRows, hb, ih hbs]

theorem simplifyEach_eq_map (bs : List Block) : simplifyEach bs = bs.map simplify := by
  induction bs with
  | nil => rfl
  | cons b bs ih => rw [simplifyEach, ih, List.map_cons]

theorem sourceRows_simplify {s : Source}
    (h : ∀ c ∈ s.blocks, c.simplify.rows D db t = c.rows D db t) :
    sourceRows D db t s.simplify = sourceRows D db t s := by
  cases s with
  | table source vs => rfl
  | nested b vs => exact h b (List.mem_singleton_self b)
  | union index bs vs =>
    rw [Source.simplify, sourceRows, sourceRows, simplifyEach_eq_map]
    exact branchRows_congr h
  | leftJoin b on vs => exact h b (List.mem_singleton_self b)

theorem forall₂_simplify {R : Source → Source → Prop} {ss : List Source}
    (h : ∀ s ∈ ss, R s s.simplify) : List.Forall₂ R ss (Source.simplifyEach ss) := by
  induction ss with
  | nil => exact .nil
  | cons s ss ih =>
    obtain ⟨hs, hss⟩ := List.forall_mem_cons.mp h
    exact .cons hs (ih hss)

theorem alike_simplify {P : Row α → Prop} {as : List Assignment} {s : Source}
    (h : ∀ c ∈ s.blocks, c.simplify.rows D db t = c.rows D db t) :
    Source.Alike D as (as.map Assignment.simplify) P
      (s, sourceRows D db t s) (s.simplify, sourceRows D db t s.simplify) := by
  refine ⟨(sourceRows_simplify h).symm, (simplifySource_narrows s).produced_eq.symm, ?_⟩
  cases s with
  | leftJoin b on vs =>
    refine .inr ⟨on, Condition.simplifyList on, rfl, rfl, fun row _ _ => ?_⟩
    rw [Assignment.run_simplify, Condition.allHold_simplifyList]
  | _ => exact .inl ⟨rfl, rfl⟩

/-- Simplification keeps the rows. -/
theorem rows_simplify (D : ValueDomain α) (b : Block) (hb : b.Proper db t) :
    b.simplify.rows D db t = b.rows D db t := by
  induction b using Block.induction with
  | step b ih =>
    symm
    obtain ⟨exposed, sources, assignments, filters⟩ := b
    refine rows_congr hb.apart rfl (forall₂_simplify fun s hs => ?_) ?_ ?_
    · exact alike_simplify fun c hc => ih s hs c hc (.block (hb.source hs) hc)
    · exact fun row _ => (Assignment.run_simplify assignments).symm
    · exact fun row _ => Condition.allHold_simplifyList.symm

theorem resolveNullsEach_eq_map (t : VariableTable) (bs : List Block) :
    (resolveNullsEach t bs).1 = bs.map fun b => (b.resolveNulls t).1 := by
  induction bs with
  | nil => rfl
  | cons b bs ih => rw [List.map_cons, ← ih, resolveNullsEach]

theorem sourceRows_resolveNulls {f : NullFacts} {s : Source}
    (h : ∀ c ∈ s.blocks, (c.resolveNulls t).1.rows D db t = c.rows D db t) :
    sourceRows D db t (s.resolveNulls t f).1 = sourceRows D db t s := by
  cases s with
  | table source vs => rfl
  | nested b vs => exact h b (List.mem_singleton_self b)
  | union index bs vs =>
    rw [Source.resolveNulls, sourceRows, sourceRows, resolveNullsEach_eq_map]
    exact branchRows_congr h
  | leftJoin b on vs => exact h b (List.mem_singleton_self b)

theorem forall₂_resolveNulls {f : NullFacts} {R : Source → Source → Prop} {ss : List Source}
    (h : ∀ s ∈ ss, R s (s.resolveNulls t f).1) :
    List.Forall₂ R ss (Source.resolveNullsEach t f ss).1 := by
  induction ss with
  | nil => exact .nil
  | cons s ss ih =>
    obtain ⟨hs, hss⟩ := List.forall_mem_cons.mp h
    exact .cons hs (ih hss)

theorem Proper.narrow (hc : c.Proper db t) (h : b.Narrows c) : b.Proper db t :=
  ⟨h.scoped hc.wellScoped, h.apart hc.apart, h.tables_eq ▸ hc.respects⟩

/-- The facts that decide the null checks of a left join hold where its conditions are tested. -/
theorem joinFacts_hold {on : List Condition} {vs : List Variable} (hb : b.Proper db t)
    (hfacts : (b.facts t).Holds (Assignment.run D b.assignments row))
    (hs : Source.leftJoin c on vs ∈ b.sources)
    (hrows : (c.resolveNulls t).1.rows D db t = c.rows D db t)
    (hmatched : Source.Matched row (.leftJoin c on vs, c.rows D db t)) :
    ((b.facts t).and (((c.resolveNulls t).1.exposedFacts t).restrict vs)).Holds
      (Assignment.run D b.assignments row) := by
  refine NullFacts.holds_and.mpr ⟨hfacts, ?_⟩
  obtain ⟨r, hr, hmatch⟩ := hmatched
  have hproper : (c.resolveNulls t).1.Proper db t :=
    (Proper.block (hb.source hs) (List.mem_singleton_self c)).narrow (resolveNulls_narrows t c)
  have hinner := exposedFacts_holds D _ hproper r (hrows ▸ hr)
  refine (hinner.restrict vs).congr NullFacts.about_restrict fun v hv => ?_
  rw [← hmatch v hv]
  obtain ⟨exposed, sources, assignments, filters⟩ := b
  exact hb.wellScoped.2.1.run_eq (List.mem_flatMap.mpr ⟨_, hs, hv⟩)

/-- Deciding null checks keeps the rows. -/
theorem rows_resolveNulls (D : ValueDomain α) (b : Block) (hb : b.Proper db t) :
    (b.resolveNulls t).1.rows D db t = b.rows D db t := by
  induction b using Block.induction with
  | step b ih =>
    have hblocks : ∀ s ∈ b.sources, ∀ c ∈ s.blocks,
        (c.resolveNulls t).1.rows D db t = c.rows D db t :=
      fun s hs c hc => ih s hs c hc (.block (hb.source hs) hc)
    have hfacts : ∀ row, b.Fits D db t row →
        (b.facts t).Holds (Assignment.run D b.assignments row) := by
      refine fun row hfits => facts_holds hb.wellScoped (fun s hs => ?_) hfits
      have hs := hb.source hs
      exact ownFacts_holds hs fun c hc => exposedFacts_holds D c (.block hs hc)
    have hrun : ∀ row, b.Fits D db t row → Assignment.run D b.assignments row =
        Assignment.run D (b.resolveNulls t).1.assignments row := by
      obtain ⟨exposed, sources, assignments, filters⟩ := b
      exact fun row hfits =>
        (Assignment.run_resolveNulls hb.wellScoped.2.1 (hfacts row hfits)).symm
    symm
    obtain ⟨exposed, sources, assignments, filters⟩ := b
    refine rows_congr hb.apart rfl (forall₂_resolveNulls fun s hs => ?_) hrun ?_
    · refine ⟨(sourceRows_resolveNulls (hblocks s hs)).symm,
        (resolveNullsSource_narrows t _ s).produced_eq.symm, ?_⟩
      cases s with
      | leftJoin c on vs =>
        refine .inr ⟨on, _, rfl, rfl, fun row hfits hmatched => ?_⟩
        have hjoin := joinFacts_hold hb (hfacts row hfits) hs
          (hblocks _ hs c (List.mem_singleton_self c)) hmatched
        rw [← hrun row hfits]
        exact (Condition.allHold_resolveNulls hjoin).symm
      | _ => exact .inl ⟨rfl, rfl⟩
    · exact fun row hfits => (Condition.allHold_resolveNulls (hfacts row hfits)).symm

theorem rows_pass (D : ValueDomain α) (eliminate : Bool) (b : Block) (hb : b.Proper db t) :
    (b.pass t eliminate).rows D db t = b.rows D db t := by
  cases eliminate with
  | false => exact rows_simplify D b hb
  | true =>
    have hnarrow := hb.narrow (resolveNulls_narrows t b)
    exact (rows_simplify D _ hnarrow).trans (rows_resolveNulls D b hb)

theorem rows_optimise (D : ValueDomain α) (eliminate : Bool) (passes : Nat) (b : Block)
    (hb : b.Proper db t) : (b.optimise t eliminate passes).rows D db t = b.rows D db t := by
  induction passes generalizing b with
  | zero => rfl
  | succ passes ih =>
    rw [optimise_succ]
    exact (ih _ (hb.narrow (pass_narrows t eliminate b))).trans (rows_pass D eliminate b hb)

/-- Optimisation keeps the meaning of a well-scoped block whose sources bind different variables:
over every database that has a value in each column declared to have one, the block exposes the same
variables with the same rows, each as often. -/
theorem optimise_preserves_rows (D : ValueDomain α) (db : Database α) (t : VariableTable)
    (eliminate : Bool) (passes : Nat) (b : Block) (hvalid : b.validate = .ok ()) (hapart : b.Apart)
    (hdb : db.Respects t b.tables) : (b.optimise t eliminate passes).exposed = b.exposed ∧
      (b.optimise t eliminate passes).rows D db t = b.rows D db t :=
  ⟨(optimise_narrows t eliminate passes b).exposed_eq,
    rows_optimise D eliminate passes b ⟨(validate_eq_ok b).mp hvalid, hapart, hdb⟩⟩

/-- Employees with the managers they have, where each has an id but the boss has no manager: the
checks of ids go away, in the nested block as well, and the one of a manager stays. -/
theorem optimise_preserves_rows_managers :
    let t : VariableTable := [⟨.column "id", .string, false⟩, ⟨.column "manager", .string, true⟩,
      ⟨.column "id", .string, false⟩]
    let managers : Block := ⟨[2], [.table (.table "staff") [2]], [], [.notNull 2]⟩
    let b : Block := ⟨[0, 2], [.table (.table "staff") [0, 1],
      .leftJoin managers [.notNull 1, .sameVariable 1 2] [2]], [], [.notNull 0]⟩
    let optimised : Block := ⟨[0, 2], [.table (.table "staff") [0, 1],
      .leftJoin ⟨[2], [.table (.table "staff") [2]], [], []⟩ [.notNull 1, .sameVariable 1 2] [2]],
      [], []⟩
    let D : ValueDomain String := ⟨fun text _ => text, String.join, compare, (· == ·), (· == ·)⟩
    let db : Database String := fun _ => {fun name => if name = "id" then some "7" else none}
    b.validate = .ok () ∧ b.Apart ∧ db.Respects t b.tables ∧ b.optimise t true 8 = optimised ∧
      optimised.rows D db t = b.rows D db t := by
  intro t managers b optimised D db
  have hapart : b.Apart := by
    simp [b, managers, Apart, ApartSources, ApartSource, Source.produced]
  have hdb : db.Respects t b.tables := by
    intro table htable v hv name type hinfo columns hcolumns
    obtain rfl := Multiset.mem_singleton.mp hcolumns
    obtain rfl | rfl : table = (.table "staff", [0, 1]) ∨ table = (.table "staff", [2]) := by
      simpa [b, managers, tables, tablesOfSources, tablesOfSource] using htable
    · obtain rfl | rfl : v = 0 ∨ v = 1 := by simpa using hv
      · cases hinfo
        simp
      · cases hinfo
    · obtain rfl := List.mem_singleton.mp hv
      cases hinfo
      simp
  have hoptimised : b.optimise t true 8 = optimised := by decide
  exact ⟨rfl, hapart, hdb, hoptimised,
    hoptimised ▸ (optimise_preserves_rows D db t true 8 b rfl hapart hdb).2⟩

end Block

end VirtualGraph
