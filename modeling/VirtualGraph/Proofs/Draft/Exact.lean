import VirtualGraph.Proofs.Bound.Rows
import VirtualGraph.Proofs.Draft.Independent
import VirtualGraph.Proofs.Draft.Optionals
import VirtualGraph.Proofs.Draft.Plan
import VirtualGraph.Proofs.Draft.Triples
import VirtualGraph.Proofs.Draft.Unions

/-!
# Exact plans

Adding a tree to a draft joins the solutions of the draft with those of the tree, if no two members
of a join read the same row, the terms of all candidates are shown by texts that tell them, and the
tree is independent of what the draft binds. The rows of its plan are then the solutions of the
tree, each projected variable with the text that shows its term.
-/

namespace VirtualGraph

open DraftBuilder

namespace Draft

variable {E : Setting} {t t' t'' : VariableTable} {d d' d'' : Draft} {rows rows' : List Nat}
variable {S S' : Multiset Solution} {outer names : List String}

theorem joins_self (h : d.Tracks E t) : d.Joins E t rows {Solution.empty} d t where
  tracks := h
  grows := .refl t d
  rows := fun _ hn => .inl hn
  solutions := fun _ _ => Solution.join_empty_right.symm

theorem Joins.trans (h : d.Joins E t rows S d' t') (ht : t <+: t')
    (h' : d'.Joins E t' rows' S' d'' t'') (ht' : t' <+: t'') :
    d.Joins E t (rows ++ rows') (Solution.join S S') d'' t'' where
  tracks := h'.tracks
  grows := h.grows.trans ht h'.grows
  rows := fun n hn => by
    obtain hn | hn := h'.rows n hn
    · exact (h.rows n hn).imp_right (List.mem_append_left _)
    · exact .inr (List.mem_append_right _ hn)
  solutions := fun T hT => by
    rw [h'.solutions T hT, h.solutions T (ht'.trans hT), Solution.join_assoc]

/-- A draft that was joined with solutions turns into one that is joined with others. -/
theorem Joins.turns {step : Multiset Solution → Multiset Solution}
    (h : d.Joins E t rows S d' t') (ht : t <+: t') (h' : d'.Turns E t' step d'' t'')
    (ht' : t' <+: t'') (hstep : ∀ T, t'' <+: T →
      step (Solution.join (d.solutions E T) S) = Solution.join (d.solutions E T) S') :
    d.Joins E t rows S' d'' t'' where
  tracks := h'.tracks
  grows := h.grows.trans ht h'.grows
  rows := fun n hn => h.rows n (h'.tables ▸ hn)
  solutions := fun T hT => by
    rw [h'.solutions T hT, h.solutions T (ht'.trans hT), hstep T hT]

theorem addFilter_never_joins (h : d.Tracks E t) : d.Joins E t rows 0 (d.addFilter .never) t where
  tracks := h.addFilter (List.nil_subset _)
  grows := grows_addFilter t d .never
  rows := fun _ hn => .inl hn
  solutions := fun T _ => by
    rw [Solution.join_zero_right, solutions, rowsIn, rows_addFilter]
    refine (congrArg (Multiset.map _) ?_).trans (Multiset.map_zero _)
    exact Multiset.filter_eq_nil.mpr fun _ _ hyes => by cases hyes

/-- The solutions of a draft bind given variables only. -/
def BoundIn (E : Setting) (t : VariableTable) (d : Draft) (outer : List String) : Prop :=
  ∀ T, t <+: T → ∀ a ∈ d.solutions E T, a.BoundIn outer

theorem Joins.boundIn (h : d.Joins E t rows S d' t') (ht : t <+: t') (hd : d.BoundIn E t outer)
    (hS : ∀ a ∈ S, a.BoundIn names) : d'.BoundIn E t' (outer ++ names) := by
  intro T hT a ha
  rw [h.solutions T hT] at ha
  obtain ⟨b, hb, c, hc, -, rfl⟩ := Solution.mem_join.mp ha
  exact ((hd T (ht.trans hT) b hb).mono (List.subset_append_left _ _)).merge
    ((hS c hc).mono (List.subset_append_right _ _))

theorem boundIn_empty : empty.BoundIn E t [] := by
  intro T _ a ha
  obtain rfl := Multiset.mem_singleton.mp ha
  exact fun _ hx => absurd rfl hx

end Draft

namespace BoundTree

open Draft

variable {E : Setting} {t T : VariableTable} {d : Draft} {tree left right inner : BoundTree}
variable {trees : List BoundTree} {outer : List String} {e : Expression} {name : String}

/-- Adding the tree to a draft that reads none of its rows and binds given variables only joins the
solutions of the two. -/
def Adds (E : Setting) (outer : List String) (tree : BoundTree) : Prop :=
  ∀ (t : VariableTable) (d : Draft), d.Tracks E t → d.BoundIn E t outer →
    (∀ n ∈ tree.rowNumbers, n ∉ d.tables.map (·.row)) →
      (tree.addTo d).Builds Fault.Any t
        (d.Joins E t tree.rowNumbers (tree.solutions E.meaning E.db))

theorem adds_noMatch : noMatch.Adds E outer := fun _ _ hd _ _ =>
  builds_pure (addFilter_never_joins hd)

theorem adds_unit : unit.Adds E outer := fun _ _ hd _ _ => builds_pure (joins_self hd)

theorem adds_triple {c : Candidate} (h : c.Legible E) : (triple c).Adds E outer := by
  intro t d hd _ hfresh
  have hrows : (triple c).rowNumbers = c.rowNumbers := List.flatMap_singleton _ _
  have hsolutions : (triple c).solutions E.meaning E.db = c.solutions .literal E.db :=
    Candidate.solutions_congr (I := E.meaning) (J := .literal) rfl c
  rw [hrows] at hfresh ⊢
  rw [hsolutions]
  exact (addCandidate_joins hd h hfresh).of_excluded

/-! ### Joins -/

/-- A member of a join that was added has not read the rows of the others. -/
theorem unread_of_joins {d' : Draft} {t' : VariableTable} {S : Multiset Solution}
    (hd' : d.Joins E t tree.rowNumbers S d' t')
    (hfresh : ∀ n ∈ (join trees).rowNumbers, n ∉ d.tables.map (·.row))
    (hapart : ∀ member ∈ trees, tree.rowNumbers.Disjoint member.rowNumbers) :
    ∀ n ∈ (join trees).rowNumbers, n ∉ d'.tables.map (·.row) := by
  intro n hn hread
  obtain hread | hread := hd'.rows n hread
  · exact hfresh n hn hread
  · obtain ⟨member, hmember, hn⟩ := mem_rowNumbers_join.mp hn
    exact hapart member hmember hread hn

theorem adds_join_cons (h : tree.Adds E outer) (hrest : (join trees).Adds E (outer ++ tree.names))
    (hapart : ∀ member ∈ trees, tree.rowNumbers.Disjoint member.rowNumbers) :
    (join (tree :: trees)).Adds E outer := by
  intro t d hd hbound hfresh
  rw [rowNumbers_join_cons] at hfresh ⊢
  refine (h t d hd hbound fun n hn => hfresh n (List.mem_append_left _ hn)).bind
    fun d' t' ht hd' => ?_
  have hfresh' := unread_of_joins hd' (fun n hn => hfresh n (List.mem_append_right _ hn)) hapart
  have hbound' := hd'.boundIn ht hbound (tree.boundIn_names)
  exact (hrest t' d' hd'.tracks hbound' hfresh').mono fun d'' t'' ht' hd'' =>
    hd'.trans ht hd'' ht'

theorem adds_join (h : ∀ tree ∈ trees, ∀ outer, tree.Adds E outer)
    (hapart : trees.Pairwise fun s t => s.rowNumbers.Disjoint t.rowNumbers) :
    (join trees).Adds E outer := by
  induction trees generalizing outer with
  | nil => exact fun t d hd _ _ => builds_pure (joins_self hd)
  | cons tree trees ih =>
    rw [List.forall_mem_cons] at h
    rw [List.pairwise_cons] at hapart
    exact adds_join_cons (h.1 outer) (ih h.2 hapart.2) hapart.1

/-! ### Unions -/

/-- A draft that is built for a tree alone has its solutions. -/
theorem Adds.alone (h : tree.Adds E []) (t : VariableTable) :
    (tree.addTo .empty).Builds Fault.Any t fun d t' =>
      (d.Tracks E t' ∧ empty.Grows t d) ∧
        ∀ T, t' <+: T → d.solutions E T = tree.solutions E.meaning E.db := by
  refine (h t .empty tracks_empty boundIn_empty fun _ _ hmem =>
    absurd hmem List.not_mem_nil).mono fun d t' _ hd => ?_
  refine ⟨⟨hd.tracks, hd.grows⟩, fun T hT => ?_⟩
  rw [hd.solutions T hT, solutions_empty, Solution.join_empty_left]

theorem draftEach_solutions (h : ∀ tree ∈ trees, tree.Adds E []) (t : VariableTable) :
    (draftEach trees).Builds Fault.Any t fun ds t' =>
      (∀ d ∈ ds, d.Tracks E t' ∧ ∀ v ∈ d.vars, t.length ≤ v) ∧
        ∀ T, t' <+: T →
          (ds.map (·.solutions E T)).sum = (union trees).solutions E.meaning E.db := by
  induction trees generalizing t with
  | nil => exact builds_pure ⟨fun _ hd => absurd hd List.not_mem_nil, fun _ _ => rfl⟩
  | cons tree trees ih =>
    rw [List.forall_mem_cons] at h
    rw [draftEach]
    refine (h.1.alone t).bind fun d t' ht hd =>
      (ih h.2 t').bind fun ds t'' ht' hds => builds_pure ?_
    obtain ⟨⟨htracks, hgrows⟩, hsolutions⟩ := hd
    refine ⟨List.forall_mem_cons.mpr ⟨⟨htracks.mono ht', fun v hv => ?_⟩, fun d hd => ?_⟩,
      fun T hT => ?_⟩
    · exact (hgrows.fresh v hv).resolve_left List.not_mem_nil
    · exact ⟨(hds.1 d hd).1, fun v hv => ht.length_le.trans ((hds.1 d hd).2 v hv)⟩
    · rw [List.map_cons, List.sum_cons, hsolutions T (ht'.trans hT), hds.2 T hT]
      rfl

theorem adds_union (hvalued : ∀ name, E.valued name) (h : ∀ tree ∈ trees, tree.Adds E []) :
    (union trees).Adds E outer := by
  intro t d hd _ _
  rw [addTo]
  refine builds_fresh_bind ((draftEach_solutions h _).bind fun ds t' ht hds => ?_)
  have htaken : t.length < t'.length := by
    have := ht.length_le
    rw [List.length_append, List.length_singleton] at this
    omega
  have hlater : ∀ b ∈ ds, b.Tracks E t' ∧ ∀ v ∈ b.vars, t.length < v := by
    intro b hb
    refine ⟨(hds.1 b hb).1, fun v hv => ?_⟩
    have := (hds.1 b hb).2 v hv
    rw [List.length_append, List.length_singleton] at this
    omega
  refine ((addUnion_solutions hd ((List.prefix_append t _).trans ht) htaken hlater hvalued).mono
    fun d' t'' ht' hd' => ?_).of_excluded
  obtain ⟨⟨htracks, hgrows⟩, htables, hsolutions⟩ := hd'
  refine ⟨htracks, hgrows, fun n hn => .inl (htables ▸ hn), fun T hT => ?_⟩
  rw [hsolutions T hT, hds.2 T (ht'.trans hT)]

/-! ### Filters and extensions -/

section Inner

variable (h : inner.Adds E outer) (hinner : ∀ l ∈ inner.solutions E.meaning E.db,
  l.Clear outer inner.names e ∧ e.Steady E.rendering l)

theorem only_variables (a : Solution) (tree : BoundTree) :
    a.only tree.variables = a.only tree.names :=
  Solution.only_congr fun _ => mem_sortNames

include hinner in
/-- An expression over a tree is steady on what it sees of solutions that were joined with
others. -/
theorem steadyIn_of_joins {d' : Draft} {t' : VariableTable} {rows : List Nat}
    (hd' : d.Joins E t rows (inner.solutions E.meaning E.db) d' t') (ht : t <+: t')
    (hbound : d.BoundIn E t outer) : d'.SteadyIn E t' inner.variables e := by
  intro T hT c hc
  rw [hd'.solutions T hT] at hc
  obtain ⟨a, ha, l, hl, hal, rfl⟩ := Solution.mem_join.mp hc
  obtain ⟨hclear, hsteady⟩ := hinner l hl
  rw [only_variables]
  exact hsteady.congr (hclear.sameOn (hbound T (ht.trans hT) a ha) (inner.boundIn_names l hl) hal)

include h hinner

open Classical in
theorem adds_filter : (filter e inner).Adds E outer := by
  intro t d hd hbound hfresh
  rw [addTo]
  refine (h t d hd hbound hfresh).bind fun d' t' ht hd' => ?_
  refine (restrict_turns hd'.tracks (steadyIn_of_joins hinner hd' ht hbound)).mono
    fun d'' t'' ht' hd'' => hd'.turns ht hd'' ht' fun T hT => ?_
  refine (Multiset.filter_congr fun c _ => ?_).trans <| Solution.filter_join
    (hbound T ((ht.trans ht').trans hT)) inner.boundIn_names fun l hl => (hinner l hl).1
  exact iff_of_eq (congrArg (E.meaning.holds e) (only_variables c inner))

theorem adds_extend (hvalued : E.valued name) (hname : name ∉ inner.names)
    (htold : ∀ l ∈ inner.solutions E.meaning E.db, ∀ x, e.termOn E.rendering l = some x →
      E.told name (E.shown x) = x) : (extend inner name e).Adds E outer := by
  intro t d hd hbound hfresh
  rw [addTo]
  refine (h t d hd hbound hfresh).bind fun d' t' ht hd' => ?_
  have htells : d'.TellsIn E t' inner.variables name e := by
    intro T hT c hc x hx
    rw [hd'.solutions T hT] at hc
    obtain ⟨a, ha, l, hl, hal, rfl⟩ := Solution.mem_join.mp hc
    have hsame :=
      (hinner l hl).1.sameOn (hbound T (ht.trans hT) a ha) (inner.boundIn_names l hl) hal
    rw [only_variables, ← Expression.termOn_congr e hsame] at hx
    exact htold l hl x hx
  refine (extend_turns hd'.tracks hvalued (steadyIn_of_joins hinner hd' ht hbound) htells
    fun hmem => hname (mem_sortNames.mp hmem)).mono
      fun d'' t'' ht' hd'' => hd'.turns ht hd'' ht' fun T hT => ?_
  simp only [only_variables]
  exact Solution.bindEach_join (hbound T ((ht.trans ht').trans hT)) inner.boundIn_names
    (fun l hl => (hinner l hl).1) hname

end Inner

/-! ### Left joins -/

section Sides

variable {condition : Option Expression} {a l r : Solution}

/-- The condition of a left join sees the terms of its two sides, though the left side was joined
with other solutions. -/
theorem sameOn_view (ha : a.BoundIn outer) (hl : l.BoundIn left.names) (hr : r.BoundIn right.names)
    (hclear : l.Clear (outer ++ right.names) left.names e) (hal : a.Compatible l)
    (hd : a.merge l ∈ d.solutions E T) :
    Expression.SameOn (l.merge r) (d.view left.variables (a.merge l) r) e.subterms := by
  refine Expression.sameOn_iff.mpr fun x hx => ?_
  have hout : ∀ b : Solution, b.BoundIn (outer ++ right.names) → x ∈ left.names →
      l x ≠ none ∨ b x = none := fun b hb hname => by
    by_cases hbx : b x = none
    · exact .inr hbx
    · exact .inl (hclear x hx hname (hb x hbx))
  have ha' := hout a (ha.mono (List.subset_append_left _ _))
  have hr' := hout r (hr.mono (List.subset_append_right _ _))
  unfold view
  split
  · rename_i hleft
    have hname := mem_sortNames.mp hleft.1
    rw [Solution.merge_eq_right hal (ha' hname)]
    obtain hlx | hrx := hr' hname
    · obtain ⟨y, hy⟩ := Option.ne_none_iff_exists'.mp hlx
      rw [Solution.merge_of_left hy, hy]
    · rw [Solution.merge, hrx, Option.or_none]
  · rename_i hright
    have hlx : l x = none := by
      by_contra hlx
      have hname := hl x hlx
      refine hright ⟨mem_sortNames.mpr hname, ?_⟩
      obtain ⟨row, -, hrow⟩ := Multiset.mem_map.mp hd
      have hterm := congrFun hrow x
      rw [Solution.merge_eq_right hal (.inl hlx)] at hterm
      cases hlookup : d.bindings.lookup x with
      | some b => rfl
      | none =>
        rw [solution, hlookup] at hterm
        exact absurd hterm.symm hlx
    rw [Solution.merge, hlx, Option.none_or]

section Joined

variable {d' nested : Draft} {t' t'' : VariableTable} {rows : List Nat}
variable (hanchored : ∀ l ∈ left.solutions E.meaning E.db,
  (∀ x ∈ left.names, x ∈ right.names → x ∈ outer → l x ≠ none) ∧
  ∀ e ∈ condition, l.Clear (outer ++ right.names) left.names e ∧
    ∀ r ∈ right.solutions E.meaning E.db, l.Compatible r → e.Steady E.rendering (l.merge r))
variable (hbound : d.BoundIn E t outer) (ht : t <+: t')

theorem boundIn_variables (hl : l ∈ left.solutions E.meaning E.db) : l.BoundIn left.variables :=
  (left.boundIn_names l hl).mono fun _ => mem_sortNames.mpr

include hanchored hbound ht

/-- What the left side shares with the right side and leaves unbound was not bound before. -/
theorem bound_or_unbound (hT : t' <+: T) (ha : a ∈ d.solutions E T)
    (hl : l ∈ left.solutions E.meaning E.db) :
    ∀ x ∈ left.variables, x ∈ right.names → l x ≠ none ∨ a x = none := by
  intro x hx hx'
  by_cases hax : a x = none
  · exact .inr hax
  · exact .inl ((hanchored l hl).1 x (mem_sortNames.mp hx) hx'
      (hbound T (ht.trans hT) a ha x hax))

variable (hd' : d.Joins E t rows (left.solutions E.meaning E.db) d' t')

include hd'

theorem sameOn_of_joins (hT : t' <+: T) (ha : a ∈ d.solutions E T)
    (hl : l ∈ left.solutions E.meaning E.db) (hr : r ∈ right.solutions E.meaning E.db)
    (hal : a.Compatible l) (he : e ∈ condition) :
    Expression.SameOn (l.merge r) (d'.view left.variables (a.merge l) r) e.subterms := by
  have hmerged : a.merge l ∈ d'.solutions E T := by
    rw [hd'.solutions T hT]
    exact Solution.mem_join.mpr ⟨a, ha, l, hl, hal, rfl⟩
  exact sameOn_view (hbound T (ht.trans hT) a ha) (left.boundIn_names l hl)
    (right.boundIn_names r hr) ((hanchored l hl).2 e he).1 hal hmerged

/-- The condition of a left join is steady on what it sees of a left side that was joined with other
solutions. -/
theorem steadyOn_of_joins (ht' : t' <+: t'') (hnested : ∀ T, t'' <+: T →
    nested.solutions E T = right.solutions E.meaning E.db) :
    d'.SteadyOn E t'' left.variables nested condition := by
  intro T hT c hc r hr hagree e he
  have hT' := ht'.trans hT
  rw [hd'.solutions T hT'] at hc
  rw [hnested T hT] at hr
  obtain ⟨a, ha, l, hl, hal, rfl⟩ := Solution.mem_join.mp hc
  have hlr := (Solution.agreeOn_merge_iff hal (boundIn_variables hl) (right.boundIn_names r hr)
    (bound_or_unbound hanchored hbound ht hT' ha hl)).mp hagree
  exact (((hanchored l hl).2 e he).2 r hr hlr).congr
    (sameOn_of_joins hanchored hbound ht hd' hT' ha hl hr hal he)

end Joined

theorem adds_leftJoin (hvalued : ∀ name, E.valued name) (hleft : left.Adds E outer)
    (hright : right.Adds E [])
    (hanchored : ∀ l ∈ left.solutions E.meaning E.db,
      (∀ x ∈ left.names, x ∈ right.names → x ∈ outer → l x ≠ none) ∧
      ∀ e ∈ condition, l.Clear (outer ++ right.names) left.names e ∧
        ∀ r ∈ right.solutions E.meaning E.db, l.Compatible r → e.Steady E.rendering (l.merge r)) :
    (leftJoin left right condition).Adds E outer := by
  intro t d hd hbound hfresh
  rw [addTo]
  have hrows : left.rowNumbers ⊆ (leftJoin left right condition).rowNumbers :=
    rowNumbers_mono (List.subset_append_left _ _)
  refine (hleft t d hd hbound fun n hn => hfresh n (hrows hn)).bind fun d' t' ht hd' => ?_
  refine (hright.alone t').bind fun nested t'' ht' hnested => ?_
  obtain ⟨⟨hnested, hlater⟩, hsolutions⟩ := hnested
  have hsteady := steadyOn_of_joins hanchored hbound ht hd' ht' hsolutions
  refine (addLeftJoin_solutions hd'.tracks ht' hnested hlater hvalued hsteady).mono
    fun d'' t₃ ht'' hd'' => ?_
  obtain ⟨⟨htracks, hgrows⟩, htables, hanswers⟩ := hd''
  refine ⟨htracks, hd'.grows.trans ht hgrows, fun n hn => ?_, fun T hT => ?_⟩
  · exact (hd'.rows n (htables ▸ hn)).imp_right fun hn => hrows hn
  · have hT' := ht'.trans (ht''.trans hT)
    rw [hanswers T hT, hsolutions T (ht''.trans hT), hd'.solutions T hT']
    refine Solution.join_bind_optional (fun _ => boundIn_variables) right.boundIn_names
      (fun a ha l hl => bound_or_unbound hanchored hbound ht hT' ha hl)
      fun a ha l hl r hr hal _ => forall₂_congr fun e he => ?_
    have hsame := sameOn_of_joins hanchored hbound ht hd' hT' ha hl hr hal he
    exact iff_of_eq (congrArg (· = Truth.yes) (Expression.truth_congr e hsame).symm)

end Sides

/-! ### Whole trees -/

mutual

/-- An extension of the tree computes a term for a query variable. -/
def Computes (D : ValueDomain String) (S : Rendering) (db : Database String) (name : String)
    (x : RdfTerm) : BoundTree → Prop
  | noMatch => False
  | unit => False
  | triple _ => False
  | join members => ComputesAny D S db name x members
  | union branches => ComputesAny D S db name x branches
  | leftJoin left right _ => Computes D S db name x left ∨ Computes D S db name x right
  | filter _ inner => Computes D S db name x inner
  | extend inner name' value => Computes D S db name x inner ∨
    name' = name ∧ ∃ a ∈ inner.solutions (.shown D S) db, value.termOn S a = some x
termination_by structural t => t

def ComputesAny (D : ValueDomain String) (S : Rendering) (db : Database String) (name : String)
    (x : RdfTerm) : List BoundTree → Prop
  | [] => False
  | t :: rest => Computes D S db name x t ∨ ComputesAny D S db name x rest
termination_by structural ts => ts

end

/-- The terms of a tree can be told by the texts that show them, and no two of its candidates read
the same row. -/
structure Readable (E : Setting) (tree : BoundTree) : Prop where
  legible : ∀ c ∈ tree.candidates, c.Legible E
  told : ∀ name x, tree.Computes E.domain E.rendering E.db name x → E.told name (E.shown x) = x
  apart : tree.candidates.Pairwise fun x y => x.rowNumbers.Disjoint y.rowNumbers

namespace Readable

theorem leftSide {condition : Option Expression} (h : (leftJoin left right condition).Readable E) :
    left.Readable E :=
  ⟨fun c hc => h.legible c (List.mem_append_left _ hc), fun name x hx => h.told name x (.inl hx),
    (List.pairwise_append.mp h.apart).1⟩

theorem rightSide {condition : Option Expression} (h : (leftJoin left right condition).Readable E) :
    right.Readable E :=
  ⟨fun c hc => h.legible c (List.mem_append_right _ hc), fun name x hx => h.told name x (.inr hx),
    (List.pairwise_append.mp h.apart).2.1⟩

theorem head (h : (join (tree :: trees)).Readable E) : tree.Readable E :=
  ⟨fun c hc => h.legible c (List.mem_append_left _ hc), fun name x hx => h.told name x (.inl hx),
    (List.pairwise_append.mp h.apart).1⟩

theorem tail (h : (join (tree :: trees)).Readable E) : (join trees).Readable E :=
  ⟨fun c hc => h.legible c (List.mem_append_right _ hc), fun name x hx => h.told name x (.inr hx),
    (List.pairwise_append.mp h.apart).2.1⟩

/-- Two members of a join may be taken in either order. -/
theorem swap (h : (join [left, right]).Readable E) : (join [right, left]).Readable E where
  legible := fun c hc => h.legible c <| by
    simp only [candidates, candidatesAll, List.append_nil, List.mem_append] at hc ⊢
    exact hc.symm
  told := fun name x hx => h.told name x <| by
    obtain hx | hx | hx := hx
    · exact .inr (.inl hx)
    · exact .inl hx
    · exact hx.elim
  apart := by
    have hapart := h.apart
    simp only [candidates, candidatesAll, List.append_nil] at hapart ⊢
    exact (List.perm_append_comm.pairwise_iff fun hxy => hxy.symm).mp hapart

theorem disjoint_tail (h : (join (tree :: trees)).Readable E) :
    ∀ member ∈ trees, tree.rowNumbers.Disjoint member.rowNumbers :=
  (List.pairwise_cons.mp (pairwise_rowNumbers_of_candidates h.apart).2).1

end Readable

mutual

/-- An independent tree joins its solutions with those of a draft. -/
theorem adds_of_independent (hvalued : ∀ name, E.valued name) :
    ∀ (tree : BoundTree) {outer : List String},
    tree.Independent E.domain E.rendering E.db outer → tree.Readable E → tree.Adds E outer
  | noMatch, _, _, _ => adds_noMatch
  | unit, _, _, _ => adds_unit
  | triple c, _, _, h => adds_triple (h.legible c (List.mem_singleton_self c))
  | join members, _, hindependent, h => adds_of_independentAll hvalued members hindependent h
  | union branches, _, hindependent, h => adds_union hvalued
    (adds_of_independentEach hvalued branches hindependent ⟨h.legible, h.told, h.apart⟩)
  | leftJoin left right _, _, ⟨hleft, hright, hanchored⟩, h => adds_leftJoin hvalued
    (adds_of_independent hvalued left hleft h.leftSide)
    (adds_of_independent hvalued right hright h.rightSide) hanchored
  | filter _ inner, _, ⟨hindependent, hinner⟩, h =>
    adds_filter (adds_of_independent hvalued inner hindependent ⟨h.legible, h.told, h.apart⟩) hinner
  | extend inner name _, _, ⟨hindependent, hname, hinner⟩, h =>
    adds_extend (adds_of_independent hvalued inner hindependent
      ⟨h.legible, fun name x hx => h.told name x (.inl hx), h.apart⟩) hinner (hvalued name) hname
      fun l hl x hx => h.told name x (.inr ⟨rfl, l, hl, hx⟩)

theorem adds_of_independentAll (hvalued : ∀ name, E.valued name) :
    ∀ (trees : List BoundTree) {outer : List String},
    IndependentAll E.domain E.rendering E.db outer trees → (join trees).Readable E →
      (join trees).Adds E outer
  | [], _, _, _ => adds_unit
  | tree :: rest, _, hindependent, h =>
    adds_join_cons (adds_of_independent hvalued tree hindependent.1 h.head)
      (adds_of_independentAll hvalued rest hindependent.2 h.tail) h.disjoint_tail

theorem adds_of_independentEach (hvalued : ∀ name, E.valued name) : ∀ (trees : List BoundTree),
    IndependentEach E.domain E.rendering E.db trees → (join trees).Readable E →
      ∀ tree ∈ trees, tree.Adds E []
  | [], _, _ => fun _ ht => absurd ht List.not_mem_nil
  | tree :: rest, hindependent, h => List.forall_mem_cons.mpr
    ⟨adds_of_independent hvalued tree hindependent.1 h.head,
      adds_of_independentEach hvalued rest hindependent.2 h.tail⟩

end

end BoundTree

/-- Query variables, each with the text of its term. -/
def Solution.project (names : List String) (a : Solution) : List (String × Option String) :=
  names.map fun name => (name, (a name).map (·.text))

/-- Query variables, each with the text that shows its term. -/
def Solution.shown (S : Rendering) (names : List String) (a : Solution) :
    List (String × Option String) :=
  names.map fun name => (name, (a name).map S.text)

/-- What a plan answers over a database: its outputs with their values, row by row. -/
def Plan.answers (D : ValueDomain String) (db : Database String) (p : Plan) :
    Multiset (List (String × Option String)) :=
  (p.block.rows D db p.table).map fun row => p.outputs.map fun o => (o.1, row o.2)

namespace Draft

variable {E : Setting} {t : VariableTable} {d : Draft} {names : List String}

/-- The outputs of a projection hold the texts of the draft. -/
theorem project_carries (h : d.Sound t) :
    (d.project names).Builds Fault.Any t fun r t' => ∀ T, t' <+: T →
      d.Carries E T r.1 fun row row' =>
        r.2.map (fun o => (o.1, row' o.2)) = names.map fun name => (name, d.text E row name) := by
  induction names generalizing d t with
  | nil => exact builds_pure fun T _ => carries_self fun _ _ => rfl
  | cons name names ih =>
    have hstep : ∀ (x : Scalar) (info : VariableInfo), x.referenced ⊆ d.vars →
        (∀ row, x.eval E.domain row = d.text E row name) →
        DraftBuilder.Builds Fault.Any t (fun r t' => ∀ T, t' <+: T →
          d.Carries E T r.1 fun row row' => r.2.map (fun o => (o.1, row' o.2)) =
            (name :: names).map fun name => (name, d.text E row name)) (do
              let v ← freshVariable info
              let r ← project (d.assign v x) names
              return (r.1, (name, v) :: r.2)) := by
      intro x info hx heval
      refine builds_fresh_bind ?_
      have hsound := (h.mono (List.prefix_append t [info])).assign h.fresh (by simp) hx
      have hassign : ∀ T, t ++ [info] <+: T → d.Carries E T (d.assign t.length x)
          fun row row' => row' t.length = x.eval E.domain row := fun T hT =>
        (h.mono ((List.prefix_append t _).trans hT)).carries_assign h.fresh x
      refine (ih hsound).bind fun r t' ht hr => builds_pure fun T hT => ?_
      have hvars : d.vars ⊆ (d.assign t.length x).vars := by
        rw [vars_assign]
        exact List.subset_append_left _ _
      have houtput : t.length ∈ (d.assign t.length x).vars := by
        rw [vars_assign]
        exact List.mem_append_right _ List.mem_cons_self
      refine ((hassign T (ht.trans hT)).trans (hr T hT) hvars).mono fun row _ row'' _ _ hex => ?_
      obtain ⟨row', -, hvalues, hvalues', hvalue, houtputs⟩ := hex
      have hsame : (d.assign t.length x).text E row' = d.text E row := h.text_congr hvalues
      rw [List.map_cons, houtputs, hsame, hvalues' _ houtput, hvalue, heval row]
      rfl
    rw [project]
    refine builds_get_bind ?_
    dsimp only
    split
    · rename_i b hb
      refine builds_lift_bind ((Binding.toScalar_meets h.within (h.bindings _
        (mem_of_lookup hb))).of_excluded.and (b.toScalar_textOn E d.columns)) fun x hx =>
        hstep x _ hx.1 fun row => ?_
      rw [hx.2 row, text, hb, Option.bind_some]
    · rename_i hnone
      refine hstep .null _ (List.nil_subset _) fun row => ?_
      rw [text, hnone]
      rfl

/-- The plan of a draft that projects given query variables. -/
def planOf (build : DraftBuilder Draft) (projection : List String) : Result Plan := do
  let r ← (do
    let d ← build
    let r ← d.project projection
    return (r.1.toBlock (r.2.map (·.2)), r.2) :
      DraftBuilder (Block × List (String × Variable))).run []
  .ok ⟨r.1.1, r.2, r.1.2⟩

theorem planOf_wellBuilt {build : DraftBuilder Draft} {allowed : Fault → Prop}
    (h : build.Builds allowed [] fun d t => d.Sound t) (projection : List String) :
    (planOf build projection).Meets allowed fun p => p.block.WellBuilt p.table := by
  have hbuild : DraftBuilder.Builds allowed [] (fun r t => r.1.WellBuilt t) (do
      let d ← build
      let r ← d.project projection
      return (r.1.toBlock (r.2.map (·.2)), r.2)) := by
    refine h.bind fun d t _ hd =>
      (project_builds hd).of_excluded.bind fun r t' _ hr => builds_pure ?_
    exact hr.1.1.toBlock hr.2
  exact Result.Meets.bind hbuild fun r hr => hr.2

/-- The answers of a plan are the texts of its draft, row by row. -/
theorem planOf_answers {build : DraftBuilder Draft} {allowed : Fault → Prop}
    {post : Draft → VariableTable → Prop}
    (h : build.Builds allowed [] fun d t => d.Sound t ∧ post d t) (projection : List String) :
    (planOf build projection).Meets allowed fun p => ∃ d t, post d t ∧ d.Sound t ∧ t <+: p.table ∧
      p.answers E.domain E.db = (d.rowsIn E p.table).map fun row =>
        projection.map fun name => (name, d.text E row name) := by
  have hbuild : DraftBuilder.Builds allowed []
      (fun r t' => ∃ d t, post d t ∧ d.Sound t ∧ t <+: t' ∧
        (r.1.rows E.domain E.db t').map (fun row => r.2.map fun o => (o.1, row o.2)) =
          (d.rowsIn E t').map fun row => projection.map fun name => (name, d.text E row name)) (do
          let d ← build
          let r ← d.project projection
          return (r.1.toBlock (r.2.map (·.2)), r.2)) := by
    refine h.bind fun d t _ hd => ?_
    refine ((project_builds hd.1).of_excluded.and (project_carries (E := E) hd.1)).bind
      fun r t' ht hr => builds_pure ⟨d, t, hd.2, hd.1, ht, ?_⟩
    obtain ⟨⟨⟨hsound, -⟩, houtputs⟩, hcarries⟩ := hr
    have hread : ∀ row : Row String, (r.2.map fun o => (o.1, row.restrict (r.2.map (·.2)) o.2)) =
        r.2.map fun o => (o.1, row o.2) := fun row =>
      List.map_congr_left fun o ho => by rw [Row.restrict_of_mem (List.mem_map_of_mem ho)]
    show ((r.1.toBlock (r.2.map (·.2))).rows E.domain E.db t').map
      (fun row => r.2.map fun o => (o.1, row o.2)) = _
    rw [hsound.rows_toBlock houtputs, Multiset.map_map]
    refine (hcarries t' (List.prefix_refl t')).map_rows fun row _ row' _ hrow => ?_
    exact (hread row').trans hrow
  exact Result.Meets.bind hbuild fun r hr => hr.2

/-- The answers of the plan of a draft are its solutions, as texts show them. -/
theorem planOf_solutions {build : DraftBuilder Draft} {allowed : Fault → Prop}
    {S : Multiset Solution} (h : build.Builds allowed [] fun d t =>
      d.Tracks E t ∧ ∀ T, t <+: T → d.solutions E T = S) (projection : List String) :
    (planOf build projection).Meets allowed fun p =>
      p.answers E.domain E.db = S.map (·.shown E.rendering projection) := by
  have hdraft := h.mono fun d t _ hd => And.intro hd.1.sound hd
  refine (planOf_answers (E := E) hdraft projection).mono fun p hp => ?_
  obtain ⟨d, t, ⟨htracks, hsolutions⟩, hsound, ht, hanswers⟩ := hp
  rw [hanswers, ← hsolutions p.table ht, solutions, Multiset.map_map]
  refine Multiset.map_congr rfl fun row hrow => List.map_congr_left fun name _ => ?_
  exact congrArg (Prod.mk name) (hsound.text_eq (htracks.faithful p.table ht row hrow) name)

end Draft

namespace BoundTree

variable {E : Setting} {tree : BoundTree}

theorem plan_eq (tree : BoundTree) (projection : List String) :
    tree.plan projection = Draft.planOf (tree.addTo .empty) projection :=
  rfl

theorem plan_answers {allowed : Fault → Prop} {post : Draft → VariableTable → Prop}
    (h : (tree.addTo .empty).Builds allowed [] fun d t => d.Sound t ∧ post d t)
    (projection : List String) :
    (tree.plan projection).Meets allowed fun p => ∃ d t, post d t ∧ d.Sound t ∧ t <+: p.table ∧
      p.answers E.domain E.db = (d.rowsIn E p.table).map fun row =>
        projection.map fun name => (name, d.text E row name) := by
  rw [plan_eq]
  exact Draft.planOf_answers h projection

/-- The answers of the plan of a tree are its solutions, as texts show them. -/
theorem Adds.plan_answers {p : Plan} {projection : List String} (h : tree.Adds E [])
    (hp : tree.plan projection = .ok p) : p.answers E.domain E.db =
      (tree.solutions E.meaning E.db).map (·.shown E.rendering projection) := by
  have hdraft := (h.alone []).mono fun d t _ hd => And.intro hd.1.1 hd.2
  have hanswers := Draft.planOf_solutions hdraft projection
  rw [← plan_eq, hp] at hanswers
  exact hanswers

/-- A tree without expressions has a plan. -/
theorem exists_plan_of_plain (h : tree.Plain) (projection : List String) :
    ∃ p, tree.plan projection = .ok p := by
  have hmeets := tree.plan_meets projection
  cases hp : tree.plan projection with
  | ok p => exact ⟨p, rfl⟩
  | error f =>
    rw [hp] at hmeets
    exact absurd h hmeets.2

end BoundTree

end VirtualGraph
