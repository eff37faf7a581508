import VirtualGraph.Proofs.Draft.Equivalent
import VirtualGraph.Proofs.Draft.Matches
import VirtualGraph.Proofs.Draft.Names

/-!
# Conditions of left joins

The condition of a left join sees the query variables of its left side as the left side has them,
and only the others as the right side has them. A pair of solutions is matched if the two are
compatible and the condition is true on what it sees of them. Where the left side binds the query
variables of the condition that it shares with the right side, this is the merged solution, so the
matched part of the left join answers what the join answers with the condition as a filter. A query
variable that the left side leaves unbound has no term in the condition, whatever the right side
binds it to.

This rests on the conditions under which plans have the solutions of their trees: the declarations
of the mapping describe the database, the texts that show terms tell all terms of a query variable
apart, the two sides are independent, and the condition is steady on what it sees.
-/

namespace VirtualGraph

open DraftBuilder

namespace Solution

variable {a b : Solution} {names names' : List String} {x : String}

/-- Two solutions as the condition of a left join sees them: the query variables of the left side
have the terms that they have there, if any. -/
def first (names : List String) (a b : Solution) : Solution :=
  fun x => if x ∈ names then a x else b x

/-- The condition sees the merged solution, if the left side binds what it shares. -/
theorem first_eq_merge (ha : a.BoundIn names) (hb : b.BoundIn names')
    (hx : x ∈ names → x ∈ names' → a x ≠ none) : a.first names b x = a.merge b x := by
  unfold first
  split
  · rename_i hname
    by_cases hbx : b x = none
    · rw [merge, hbx, Option.or_none]
    · obtain ⟨y, hy⟩ := Option.ne_none_iff_exists'.mp (hx hname (hb x hbx))
      rw [merge_of_left hy, hy]
  · rename_i hname
    have hax : a x = none := by_contra fun hax => hname (ha x hax)
    rw [merge, hax, Option.none_or]

/-- A solution agrees with another on all its variables if the two are compatible. -/
theorem agreeOn_iff (ha : a.BoundIn names) : AgreeOn names a b ↔ Compatible a b := by
  refine ⟨fun h x => ?_, fun h x _ => h x⟩
  by_cases hax : a x = none
  · exact .inl hax
  · exact h x (ha x hax)

end Solution

namespace BoundTree

open Draft

variable {D : ValueDomain String} {S : Rendering} {db : Database String} {E : Setting}
variable {left right : BoundTree} {e : Expression} {m : Mapping}

open Classical in
/-- The merged pairs of compatible solutions on which a condition is true, as it sees them. -/
noncomputable def matchedSolutions (D : ValueDomain String) (S : Rendering) (db : Database String)
    (left right : BoundTree) (e : Expression) : Multiset Solution :=
  (left.solutions (.shown D S) db).bind fun a => (right.solutions (.shown D S) db).bind fun b =>
    if (Interpretation.shown D S).holds e (a.first left.names b) then a.combine b else 0

/-- What the condition of a left join reads of both sides is bound in a triple of the left side, or
in all its solutions. -/
def Exhibits (D : ValueDomain String) (S : Rendering) (db : Database String)
    (left right : BoundTree) (e : Expression) : Prop :=
  ∀ x ∈ e.names, x ∈ left.names → x ∈ right.names →
    x ∈ left.tripleNames ∨ ∀ a ∈ left.solutions (.shown D S) db, a x ≠ none

/-- The condition is steady on what it sees of compatible solutions. -/
def SteadyOnPairs (D : ValueDomain String) (S : Rendering) (db : Database String)
    (left right : BoundTree) (e : Expression) : Prop :=
  ∀ a ∈ left.solutions (.shown D S) db, ∀ b ∈ right.solutions (.shown D S) db, a.Compatible b →
    e.Steady S (a.first left.names b)

section Sides

variable {t T : VariableTable} {d nested : Draft} {a b : Solution}
variable (hbinds : empty.Binds left.tripleNames d)
variable (hleft : d.solutions E T = left.solutions E.meaning E.db)
variable (hshared : left.Exhibits E.domain E.rendering E.db right e)

include hbinds hleft hshared

/-- A draft shows the condition of a left join the terms of the left side first. -/
theorem sameOn_first (ha : a ∈ left.solutions E.meaning E.db)
    (hb : b ∈ right.solutions E.meaning E.db) :
    Expression.SameOn (a.first left.names b) (d.view left.variables a b) e.subterms := by
  refine Expression.sameOn_iff.mpr fun x hx => ?_
  unfold Solution.first view
  by_cases hname : x ∈ left.names
  · rw [if_pos hname]
    split
    · rfl
    · rename_i hview
      have hunbound : ¬(d.bindings.lookup x).isSome = true := fun hsome =>
        hview ⟨mem_sortNames.mpr hname, hsome⟩
      have hax : a x = none := by
        rw [← hleft] at ha
        obtain ⟨row, -, rfl⟩ := Multiset.mem_map.mp ha
        rw [solution, Option.not_isSome_iff_eq_none.mp hunbound]
        rfl
      rw [hax]
      by_contra hbx
      obtain htriple | hbound := hshared x hx hname (right.boundIn_names b hb x fun h => hbx h.symm)
      · exact hunbound (hbinds x (.inl htriple))
      · exact hbound a ha hax
  · rw [if_neg hname, if_neg fun hview => hname (mem_sortNames.mp hview.1)]

variable (hright : nested.solutions E T = right.solutions E.meaning E.db)

include hright

open Classical in
/-- The pairs that a draft matches are those on which the condition is true. -/
theorem bind_matched_eq : (d.solutions E T).bind (fun a =>
    (Solution.matched left.variables (d.Meets E left.variables (some e)) (nested.solutions E T)
      a).bind a.combine) = left.matchedSolutions E.domain E.rendering E.db right e := by
  rw [hleft, hright, matchedSolutions]
  refine Multiset.bind_congr fun a ha => ?_
  rw [Solution.matched, Multiset.bind_filter]
  refine Multiset.bind_congr fun b hb => ?_
  by_cases hcompatible : a.Compatible b
  · have hagree : Solution.AgreeOn left.variables a b := fun x _ => hcompatible x
    have htruth := Expression.truth_congr (S := E.rendering) (D := E.domain) e
      (sameOn_first hbinds hleft hshared ha hb)
    refine if_congr ?_ rfl rfl
    rw [and_iff_right hagree, Draft.Meets, meets]
    simp only [Option.mem_def, Option.some.injEq, forall_eq']
    exact iff_of_eq (congrArg (· = Truth.yes) htruth.symm)
  · -- Such a pair combines to nothing, whatever the condition says about it.
    rw [Solution.combine, if_neg hcompatible, ite_self, ite_self]

end Sides

/-! ### Matched parts -/

section Answers

variable (hshared : left.Exhibits E.domain E.rendering E.db right e)
  (hsteady : left.SteadyOnPairs E.domain E.rendering E.db right e)

include hshared hsteady

/-- The matched part of a left join answers the pairs of solutions on which its condition is
true. -/
theorem matchedPart_answers (hvalued : ∀ name, E.valued name) (hl : left.Adds E [])
    (hr : right.Adds E []) (projection : List String) :
    (Plan.matchedPart <$> (leftJoin left right (some e)).plan projection).Meets Fault.Any fun p =>
      p.block.WellBuilt p.table ∧ p.answers E.domain E.db =
        (left.matchedSolutions E.domain E.rendering E.db right e).map
          (·.shown E.rendering projection) := by
  have hbuild : (matchedPart <$> (leftJoin left right (some e)).addTo .empty).Builds Fault.Any []
      fun d t => d.Tracks E t ∧ ∀ T, t <+: T →
        d.solutions E T = left.matchedSolutions E.domain E.rendering E.db right e := by
    rw [addTo, map_bind]
    refine ((hl.alone []).and (left.addTo_binds .empty [])).bind fun d t _ hd => ?_
    obtain ⟨⟨⟨htracks, -⟩, hleft⟩, hbinds⟩ := hd
    rw [map_bind]
    refine (hr.alone t).bind fun nested t' ht hnested => ?_
    obtain ⟨⟨hnested, hlater⟩, hright⟩ := hnested
    have hview : d.SteadyOn E t' left.variables nested (some e) := by
      rintro T hT a ha b hb hagree e' ⟨⟩
      rw [hleft T (ht.trans hT)] at ha
      rw [hright T hT] at hb
      have hbound := (left.boundIn_names a ha).mono fun _ => mem_sortNames.mpr
      exact (hsteady a ha b hb ((Solution.agreeOn_iff hbound).mp hagree)).congr
        (sameOn_first hbinds (hleft T (ht.trans hT)) hshared ha hb)
    refine (addLeftJoin_matched htracks ht hnested hlater hvalued hview).mono
      fun d' t'' ht' hd' => ⟨hd'.1, fun T hT => ?_⟩
    rw [hd'.2 T hT]
    exact bind_matched_eq hbinds (hleft T (ht.trans (ht'.trans hT))) hshared
      (hright T (ht'.trans hT))
  rw [plan_eq, ← planOf_matchedPart]
  exact (planOf_wellBuilt (hbuild.mono fun d t _ hd => hd.1.sound) projection).and
    (planOf_solutions hbuild projection)

end Answers

section Certain

variable (hcertain : ∀ a ∈ left.solutions (.shown D S) db, ∀ x ∈ e.names, x ∈ left.names →
  x ∈ right.names → a x ≠ none)

include hcertain

theorem sameOn_merge {a b : Solution} (ha : a ∈ left.solutions (.shown D S) db)
    (hb : b ∈ right.solutions (.shown D S) db) :
    Expression.SameOn (a.first left.names b) (a.merge b) e.subterms :=
  Expression.sameOn_iff.mpr fun x hx => Solution.first_eq_merge (left.boundIn_names a ha)
    (right.boundIn_names b hb) (hcertain a ha x hx)

open Classical in
/-- If the left side binds what the condition reads of both, the condition filters the join. -/
theorem matchedSolutions_eq : left.matchedSolutions D S db right e =
    (filter e (join [left, right])).solutions (.shown D S) db := by
  have hpair : (join [left, right]).solutions (.shown D S) db =
      Solution.join (left.solutions (.shown D S) db) (right.solutions (.shown D S) db) := by
    simp only [solutions, solutionsOfJoin, Solution.join_empty_right]
  rw [solutions, hpair, matchedSolutions, Solution.join, Multiset.filter_bind]
  refine Multiset.bind_congr fun a ha => ?_
  rw [Multiset.filter_bind]
  refine Multiset.bind_congr fun b hb => ?_
  by_cases hcompatible : a.Compatible b
  · have htruth := Expression.truth_congr (S := S) (D := D) e (sameOn_merge hcertain ha hb)
    rw [Solution.combine, if_pos hcompatible, Multiset.filter_singleton]
    exact if_congr (iff_of_eq (congrArg (· = Truth.yes) htruth)) rfl rfl
  · rw [Solution.combine, if_neg hcompatible, Multiset.filter_zero, ite_self]

/-- The filter over the join is independent, if the condition is steady as the left join sees it. -/
theorem independent_filter (hleft : left.Independent D S db [])
    (hright : right.Independent D S db left.names)
    (hsteady : left.SteadyOnPairs D S db right e) :
    (filter e (join [left, right])).Independent D S db [] := by
  refine ⟨⟨hleft, hright, trivial⟩, fun l hl =>
    ⟨fun _ _ _ hout => absurd hout List.not_mem_nil, ?_⟩⟩
  obtain ⟨a, ha, b', hb', hcompatible, rfl⟩ := Solution.mem_join.mp hl
  obtain ⟨b, hb, _, hempty, -, rfl⟩ := Solution.mem_join.mp hb'
  obtain rfl := Multiset.mem_singleton.mp hempty
  rw [Solution.merge_empty_right] at hcompatible ⊢
  exact (hsteady a ha b hb hcompatible).congr (sameOn_merge hcertain ha hb)

end Certain

/-- The matched part of a left join has the pairs of compatible solutions on which its condition is
true, where the condition sees the query variables of the left side as the left side has them. It
answers what the join answers with the condition as a filter, if the left side binds the query
variables of the condition that both sides have. -/
theorem answers_matchedPart {ds : List TriplesMapDefinition}
    (hload : Mapping.ofDefinitions ds = .ok m) (hD : D.Textual) (hm : m.Describes db)
    (ps : List GraphPattern) (row : Nat) {L R : BoundTree}
    (hbound : (join [L, R]).candidates ⊆ candidatesAll (bindAll m row ps).1)
    (honce : (join [L, R]).candidates.Nodup) (ht : (join [L, R]).Legible D S db)
    (hL : L.Independent D S db []) (hR : R.Independent D S db L.names)
    (hshared : L.Exhibits D S db R e) (hsteady : L.SteadyOnPairs D S db R e)
    {projection : List String} {p q : Plan}
    (hp : (leftJoin L R (some e)).plan projection = .ok p)
    (hq : (filter e (join [L, R])).plan projection = .ok q) :
    p.matchedPart.answers D db ≤ p.answers D db ∧
      p.matchedPart.answers D db =
        (L.matchedSolutions D S db R e).map (·.shown S projection) ∧
      ((∀ a ∈ L.solutions (.shown D S) db, ∀ x ∈ e.names, x ∈ L.names → x ∈ R.names → a x ≠ none) →
        p.matchedPart.answers D db = q.answers D db) := by
  have hover : ∀ c ∈ (join [L, R]).candidates, c.Over m := fun c hc =>
    over_bindAll (Mapping.numbered_of_load hload) ps row (hbound hc)
  obtain ⟨E, rfl, rfl, rfl, hvalued, hreadable⟩ :=
    ht.exists_readable hD hm hover (pairwise_of_mem_bindAll hbound honce)
  have hl : L.Adds E [] := adds_of_independent hvalued L hL hreadable.head
  have hr : R.Adds E [] := adds_of_independent hvalued R
    (independent_mono R (List.nil_subset _) hR) hreadable.tail.head
  have hmatched := matchedPart_answers hshared hsteady hvalued hl hr projection
  have hbuilt := (leftJoin L R (some e)).plan_meets projection
  rw [hp] at hmatched hbuilt
  refine ⟨Multiset.map_le_map (hbuilt.1.matchedPart_rows_le hmatched.1 E.db), hmatched.2,
    fun hcertain => hmatched.2.trans ?_⟩
  have hfilter : (filter e (join [L, R])).Adds E [] := adds_of_independent hvalued _
    (independent_filter hcertain hL hR hsteady) ⟨hreadable.legible, hreadable.told, hreadable.apart⟩
  rw [hfilter.plan_answers hq, matchedSolutions_eq hcertain]

/-- Other names of the first people are kept if they have a nickname, or if their other name does
not come after their name. -/
theorem answers_matchedPart_nicknames :
    let table : LogicalTable := ⟨.table "p", [⟨"id", .integer, false⟩, ⟨"name", .string, false⟩,
      ⟨"alt", .string, false⟩, ⟨"nick", .string, true⟩]⟩
    let map : TriplesMap := ⟨0, "p", table,
      ⟨.template "http://x/{id}" [.text "http://x/", .column "id"], .iri, none, none⟩,
      [⟨[.ofIri "http://x/name"], [.term ⟨.column "name", .literal, none, none⟩]⟩,
        ⟨[.ofIri "http://x/alt"], [.term ⟨.column "alt", .literal, none, none⟩]⟩,
        ⟨[.ofIri "http://x/nick"], [.term ⟨.column "nick", .literal, none, none⟩]⟩]⟩
    let d : TriplesMapDefinition := ⟨"p", ⟨some "p", none, table.columns⟩,
      ⟨none, none, some "http://x/{id}", none, none, none⟩, [],
      [⟨["http://x/name"], [], [], [.term ⟨none, some "name", none, none, none, none⟩]⟩,
        ⟨["http://x/alt"], [], [], [.term ⟨none, some "alt", none, none, none, none⟩]⟩,
        ⟨["http://x/nick"], [], [], [.term ⟨none, some "nick", none, none, none, none⟩]⟩]⟩
    let m : Mapping := ⟨[map]⟩
    let pattern (name object : String) : TriplePattern :=
      ⟨.var "s", .iri ("http://x/" ++ name), .var object⟩
    let candidate (row : Nat) (name object : String) : BoundTree :=
      triple ⟨pattern name object, map, row, .ofIri ("http://x/" ++ name),
        .term ⟨.column name, .literal, none, none⟩⟩
    let L := leftJoin (candidate 0 "name" "n") (candidate 5 "nick" "k") none
    let R := candidate 7 "alt" "x"
    let e : Expression :=
      .and [.compare .lt (.str (.var "s")) (.constant (.literal ⟨"http://x/3", none, none⟩)),
        .or [.bound "k", .compare .le (.var "x") (.var "n")]]
    let db : Database String := .ofRecords fun _ =>
      [[("id", "1"), ("name", "ann"), ("alt", "anna"), ("nick", "nan")],
        [("id", "2"), ("name", "bob"), ("alt", "bob")],
        [("id", "2"), ("name", "bob"), ("alt", "bobby")],
        [("id", "3"), ("name", "cat"), ("alt", "cat")]]
    Mapping.ofDefinitions [d] = .ok m ∧ m.Describes db ∧ (join [L, R]).Legible .texts .own db ∧
      L.Independent .texts .own db [] ∧ R.Independent .texts .own db L.names ∧
      L.Exhibits .texts .own db R e ∧ L.SteadyOnPairs .texts .own db R e ∧
      ∃ p q, (leftJoin L R (some e)).plan ["n", "k", "x"] = .ok p ∧
        (filter e (join [L, R])).plan ["n", "k", "x"] = .ok q ∧
          p.matchedPart.answers .texts db = q.answers .texts db ∧ p.matchedPart.answers .texts db =
            {[("n", some "ann"), ("k", some "nan"), ("x", some "anna")],
              [("n", some "bob"), ("k", none), ("x", some "bob")],
              [("n", some "bob"), ("k", none), ("x", some "bob")]} := by
  intro table map d m pattern candidate L R e db
  have hload : Mapping.ofDefinitions [d] = .ok m := Result.eq_ok_of_toOption (by decide +kernel)
  have hm : m.Describes db :=
    ⟨List.forall_mem_singleton.mpr (Database.forall_ofRecords (by decide)),
      List.forall_mem_singleton.mpr (LogicalTable.keepsNulls_ofRecords (by decide))⟩
  have ht : (join [L, R]).Legible .texts .own db :=
    .of_made (by decide) (by decide +kernel) (by decide +kernel) fun name x y hx =>
      absurd hx (not_computes_of_plain _ ⟨⟨trivial, trivial, rfl⟩, trivial, trivial⟩)
  have hL : L.Independent .texts .own db [] :=
    ⟨trivial, trivial, fun l _ => ⟨fun _ _ _ hout => absurd hout List.not_mem_nil,
      fun _ he => absurd he (Option.not_mem_none _)⟩⟩
  have hnames : ∀ x ∈ e.names, x ∈ L.names → x ∈ R.names → x ∈ L.boundNames := by decide
  have hcertain : ∀ a ∈ L.solutions (.shown .texts .own) db, ∀ x ∈ e.names, x ∈ L.names →
      x ∈ R.names → a x ≠ none := fun a ha x hx hl hr =>
    ne_none_of_mem_boundNames L a ha x (hnames x hx hl hr)
  have hshared : L.Exhibits .texts .own db R e := fun x hx hl hr =>
    .inr fun a ha => hcertain a ha x hx hl hr
  have hsteady : L.SteadyOnPairs .texts .own db R e := fun _ _ _ _ _ =>
    Expression.steady_of_isModest rfl
  have hmatched : ((leftJoin L R (some e)).plan ["n", "k", "x"]).toOption.map
      (·.matchedPart.answers .texts db) =
        some {[("n", some "ann"), ("k", some "nan"), ("x", some "anna")],
          [("n", some "bob"), ("k", none), ("x", some "bob")],
          [("n", some "bob"), ("k", none), ("x", some "bob")]} := by
    decide +kernel
  have hfiltered : ((filter e (join [L, R])).plan ["n", "k", "x"]).toOption.isSome := by
    decide +kernel
  obtain ⟨p, hp, hanswers⟩ := Option.map_eq_some_iff.mp hmatched
  obtain ⟨q, hq⟩ := Option.isSome_iff_exists.mp hfiltered
  have hp := Result.eq_ok_of_toOption hp
  have hq := Result.eq_ok_of_toOption hq
  let ps : List GraphPattern := [.triple (pattern "name" "n"), .triple (pattern "nick" "k"),
    .triple (pattern "alt" "x")]
  have hbound : (join [L, R]).candidates ⊆ candidatesAll (bindAll m 0 ps).1 := by
    have hname := List.mem_of_getElem? (i := 0) (l := candidatesAll (bindAll m 0 ps).1) rfl
    have hnick := List.mem_of_getElem? (i := 5) (l := candidatesAll (bindAll m 0 ps).1) rfl
    have halt := List.mem_of_getElem? (i := 7) (l := candidatesAll (bindAll m 0 ps).1) rfl
    exact List.cons_subset.mpr ⟨hname, List.cons_subset.mpr ⟨hnick, List.cons_subset.mpr
      ⟨halt, List.nil_subset _⟩⟩⟩
  have honce : (join [L, R]).candidates.Nodup := .of_map (·.row) (by decide)
  obtain ⟨-, -, hsame⟩ := answers_matchedPart hload ValueDomain.textual_texts hm ps 0
    (L := L) (R := R) hbound honce ht hL trivial hshared hsteady hp hq
  exact ⟨hload, hm, ht, hL, trivial, hshared, hsteady, p, q, hp, hq, hsame hcertain, hanswers⟩

/-- A name that is unbound on the left side is unbound in the condition, though the right side binds
it. Two IRIs of one template are compared by text in a left join, slot by slot in a join. And an IRI
is compared with a literal by text in the condition, while a filter knows that they differ. -/
theorem condition_differs_from_filter :
    let matched (L R : BoundTree) (e : Expression) (db : Database String) :=
      ((leftJoin L R (some e)).plan ["x"]).toOption.map (·.matchedPart.answers .texts db)
    let filtered (L R : BoundTree) (e : Expression) (db : Database String) :=
      ((filter e (join [L, R])).plan ["x"]).toOption.map (·.answers .texts db)
    (let table : LogicalTable := ⟨.table "p", [⟨"id", .integer, false⟩, ⟨"name", .string, false⟩,
        ⟨"alt", .string, false⟩, ⟨"nick", .string, true⟩]⟩
      let map : TriplesMap := ⟨0, "p", table,
        ⟨.template "http://x/{id}" [.text "http://x/", .column "id"], .iri, none, none⟩,
        [⟨[.ofIri "http://x/name"], [.term ⟨.column "name", .literal, none, none⟩]⟩,
          ⟨[.ofIri "http://x/alt"], [.term ⟨.column "alt", .literal, none, none⟩]⟩,
          ⟨[.ofIri "http://x/nick"], [.term ⟨.column "nick", .literal, none, none⟩]⟩]⟩
      let pattern (name object : String) : TriplePattern :=
        ⟨.var "s", .iri ("http://x/" ++ name), .var object⟩
      let candidate (row : Nat) (name object : String) : BoundTree := triple ⟨pattern name object,
        map, row, .ofIri ("http://x/" ++ name), .term ⟨.column name, .literal, none, none⟩⟩
      let ps : List GraphPattern := [.triple (pattern "name" "n"), .triple (pattern "nick" "x"),
        .triple (pattern "alt" "x")]
      let L := leftJoin (candidate 0 "name" "n") (candidate 5 "nick" "x") none
      let R := candidate 7 "alt" "x"
      let e : Expression := .compare .eq (.var "x") (.constant (.literal ⟨"a", none, none⟩))
      let db : Database String := .ofRecords fun _ => [[("id", "1"), ("name", "ann"), ("alt", "a")]]
      (join [L, R]).candidates ⊆ candidatesAll (bindAll ⟨[map]⟩ 0 ps).1 ∧
        matched L R e db = some 0 ∧ filtered L R e db = some {[("x", some "a")]}) ∧
    (let iri : TermMap := ⟨.template "http://x/{u}/{v}"
        [.text "http://x/", .column "u", .text "/", .column "v"], .iri, none, none⟩
      let map (id : Nat) (name predicate : String) : TriplesMap := ⟨id, name,
        ⟨.table name, [⟨"u", .string, false⟩, ⟨"v", .string, false⟩]⟩,
        ⟨.constant "http://x/s", .iri, none, none⟩, [⟨[.ofIri predicate], [.term iri]⟩]⟩
      let m : Mapping := ⟨[map 0 "a" "http://x/p", map 1 "b" "http://x/q"]⟩
      let pattern (predicate : String) : TriplePattern := ⟨.var "s", .iri predicate, .var "x"⟩
      let candidate (row id : Nat) (name predicate : String) : BoundTree :=
        triple ⟨pattern predicate, map id name predicate, row, .ofIri predicate, .term iri⟩
      let L := candidate 0 0 "a" "http://x/p"
      let R := candidate 3 1 "b" "http://x/q"
      let db : Database String := .ofRecords fun
        | .table "a" => [[("u", "1/2"), ("v", "3")]]
        | _ => [[("u", "1"), ("v", "2/3")]]
      (join [L, R]).candidates ⊆ candidatesAll
          (bindAll m 0 [.triple (pattern "http://x/p"), .triple (pattern "http://x/q")]).1 ∧
        matched L R (.bound "x") db = some {[("x", some "http://x/1/2/3")]} ∧
        filtered L R (.bound "x") db = some 0) ∧
    (let name : TermMap := ⟨.column "n", .literal, none, none⟩
      let page : TermMap :=
        ⟨.template "http://y/{k}" [.text "http://y/", .column "k"], .iri, none, none⟩
      let map : TriplesMap := ⟨0, "p", ⟨.table "p", [⟨"n", .string, false⟩, ⟨"k", .string, false⟩]⟩,
        ⟨.constant "http://x/s", .iri, none, none⟩,
        [⟨[.ofIri "http://x/name"], [.term name]⟩, ⟨[.ofIri "http://x/page"], [.term page]⟩]⟩
      let pattern (predicate object : String) : TriplePattern :=
        ⟨.var "s", .iri predicate, .var object⟩
      let candidate (row : Nat) (predicate object : String) (term : TermMap) : BoundTree :=
        triple ⟨pattern predicate object, map, row, .ofIri predicate, .term term⟩
      let ps : List GraphPattern :=
        [.triple (pattern "http://x/name" "n"), .triple (pattern "http://x/page" "x")]
      let L := candidate 0 "http://x/name" "n" name
      let R := candidate 3 "http://x/page" "x" page
      let e : Expression := .compare .ne (.var "x") (.var "n")
      let db : Database String := .ofRecords fun _ => [[("n", "http://y/1"), ("k", "1")]]
      (join [L, R]).candidates ⊆ candidatesAll (bindAll ⟨[map]⟩ 0 ps).1 ∧
        matched L R e db = some 0 ∧ filtered L R e db = some {[("x", some "http://y/1")]}) := by
  intro matched filtered
  refine ⟨?_, ?_, ?_⟩
  · intro table map pattern candidate ps L R e db
    refine ⟨?_, by decide +kernel, by decide +kernel⟩
    have hname := List.mem_of_getElem? (i := 0) (l := candidatesAll (bindAll ⟨[map]⟩ 0 ps).1) rfl
    have hnick := List.mem_of_getElem? (i := 5) (l := candidatesAll (bindAll ⟨[map]⟩ 0 ps).1) rfl
    have halt := List.mem_of_getElem? (i := 7) (l := candidatesAll (bindAll ⟨[map]⟩ 0 ps).1) rfl
    exact List.cons_subset.mpr ⟨hname, List.cons_subset.mpr ⟨hnick, List.cons_subset.mpr
      ⟨halt, List.nil_subset _⟩⟩⟩
  · intro iri map m pattern candidate L R db
    refine ⟨?_, by decide +kernel, by decide +kernel⟩
    let ps : List GraphPattern := [.triple (pattern "http://x/p"), .triple (pattern "http://x/q")]
    have hleft := List.mem_of_getElem? (i := 0) (l := candidatesAll (bindAll m 0 ps).1) rfl
    have hright := List.mem_of_getElem? (i := 3) (l := candidatesAll (bindAll m 0 ps).1) rfl
    exact List.cons_subset.mpr ⟨hleft, List.cons_subset.mpr ⟨hright, List.nil_subset _⟩⟩
  · intro name page map pattern candidate ps L R e db
    refine ⟨?_, by decide +kernel, by decide +kernel⟩
    have hleft := List.mem_of_getElem? (i := 0) (l := candidatesAll (bindAll ⟨[map]⟩ 0 ps).1) rfl
    have hright := List.mem_of_getElem? (i := 3) (l := candidatesAll (bindAll ⟨[map]⟩ 0 ps).1) rfl
    exact List.cons_subset.mpr ⟨hleft, List.cons_subset.mpr ⟨hright, List.nil_subset _⟩⟩

end BoundTree

end VirtualGraph
