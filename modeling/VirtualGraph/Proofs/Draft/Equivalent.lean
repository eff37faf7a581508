import VirtualGraph.Proofs.Bound.Apart
import VirtualGraph.Proofs.Draft.Patterns

/-!
# Plans that answer the same

Optimisation keeps a tree without expressions translatable, so its plans for different limits answer
the same. And the plans of a join answer the same in either order, whatever its members are made of.
This rests on three conditions:

* The declarations of the mapping describe the database (`Mapping.Describes`).
* The texts that show terms tell all terms of a query variable apart (`BoundTree.Legible`), since
  values that come out of unions and left joins are compared by text alone. In particular no two
  IRIs of a template with several slots are shown by one text.
* Left joins are anchored (`BoundTree.Anchored`), and in general the members of a join are
  independent of each other (`BoundTree.Independent`), since left joins, filters and extensions are
  made in the block of the members before them.
-/

namespace VirtualGraph

namespace Solution

variable {a b : Solution}

theorem Compatible.symm (h : Compatible a b) : Compatible b a := by
  intro x
  obtain hx | hx | hx := h x
  · exact .inr (.inl hx)
  · exact .inl hx
  · exact .inr (.inr hx.symm)

theorem Compatible.merge_comm (h : Compatible a b) : a.merge b = b.merge a := by
  funext x
  obtain hx | hx | hx := h x
  · rw [merge, merge, hx, Option.none_or, Option.or_none]
  · rw [merge, merge, hx, Option.none_or, Option.or_none]
  · rw [merge, merge, hx]

theorem combine_comm (a b : Solution) : a.combine b = b.combine a := by
  by_cases h : Compatible a b
  · rw [combine, combine, if_pos h, if_pos h.symm, h.merge_comm]
  · rw [combine, combine, if_neg h, if_neg fun hc => h hc.symm]

theorem join_comm (A B : Multiset Solution) : join A B = join B A := by
  rw [join, join, Multiset.bind_bind]
  refine Multiset.bind_congr fun b _ => Multiset.bind_congr fun a _ => ?_
  exact combine_comm a b

end Solution

namespace BoundTree

variable {E : Setting} {t : BoundTree}

/-! ### Trees without expressions -/

/-- Trees without expressions whose left joins are anchored and whose terms can be told. -/
inductive Translatable (E : Setting) : BoundTree → Prop
  | noMatch : Translatable E noMatch
  | unit : Translatable E unit
  | triple {c : Candidate} (legible : c.Legible E) : Translatable E (triple c)
  | join {members : List BoundTree} (all : ∀ t ∈ members, Translatable E t)
      (apart : members.Pairwise fun s t => s.rowNumbers.Disjoint t.rowNumbers) :
      Translatable E (join members)
  | union {branches : List BoundTree} (all : ∀ t ∈ branches, Translatable E t) :
      Translatable E (union branches)
  | leftJoin {left right : BoundTree} (leftSide : Translatable E left)
      (rightSide : Translatable E right) (anchors : Anchors E.meaning E.db left right) :
      Translatable E (leftJoin left right none)

theorem Translatable.adds (hvalued : ∀ name, E.valued name) (h : t.Translatable E)
    (outer : List String) : t.Adds E outer := by
  induction h generalizing outer with
  | noMatch => exact adds_noMatch
  | unit => exact adds_unit
  | triple hc => exact adds_triple hc
  | join _ hapart ih => exact adds_join ih hapart
  | union _ ih => exact adds_union hvalued fun t ht => ih t ht []
  | leftJoin _ _ hanchors hl hr =>
    refine adds_leftJoin hvalued (hl outer) (hr []) fun l hl =>
      ⟨fun x hx hx' _ => ?_, fun _ he => ?_⟩
    · exact hanchors l hl x hx hx'
    · exact absurd he (Option.not_mem_none _)

theorem Translatable.plain (h : t.Translatable E) : t.Plain := by
  induction h with
  | noMatch => trivial
  | unit => trivial
  | triple => trivial
  | join _ _ ih => exact plainAll_iff.mpr ih
  | union _ ih => exact plainAll_iff.mpr ih
  | leftJoin _ _ _ hl hr => exact ⟨hl, hr, rfl⟩

/-- A translatable tree has a plan, whose answers are its solutions as texts show them. -/
theorem Translatable.plan_answers (hvalued : ∀ name, E.valued name) (h : t.Translatable E)
    (projection : List String) : ∃ p, t.plan projection = .ok p ∧
      p.answers E.domain E.db =
        (t.solutions E.meaning E.db).map (·.shown E.rendering projection) := by
  obtain ⟨p, hp⟩ := exists_plan_of_plain h.plain projection
  exact ⟨p, hp, (h.adds hvalued []).plan_answers hp⟩

/-! ### Optimisation keeps trees translatable -/

theorem Translatable.noRebinding (h : t.Translatable E) : t.NoRebinding := by
  induction h with
  | noMatch => trivial
  | unit => trivial
  | triple => trivial
  | join _ _ ih => exact noRebindingAll_iff.mpr ih
  | union _ ih => exact noRebindingAll_iff.mpr ih
  | leftJoin _ _ _ hl hr => exact ⟨hl, hr⟩

theorem hereditary_translatable : Hereditary (Translatable E) where
  noMatch := .noMatch
  unit := .unit
  join := ⟨fun | .join hall hapart => ⟨hall, hapart⟩, fun h => .join h.1 h.2⟩
  union := ⟨fun | .union hall => hall, .union⟩

theorem Translatable.prune (h : t.Translatable E) : t.prune.Translatable E := by
  induction h with
  | noMatch => exact .noMatch
  | unit => exact .unit
  | triple hc =>
    rw [BoundTree.prune]
    split
    · exact .triple hc
    · exact .noMatch
  | join _ hapart ih => exact hereditary_translatable.prune_join ih hapart
  | union _ ih => exact hereditary_translatable.prune_union ih
  | leftJoin hl hr hanchors ihl ihr =>
    exact .leftJoin ihl ihr (hanchors.of_reduces (reduces_prune _ hl.noRebinding)
      (reduces_prune _ hr.noRebinding))

theorem Translatable.distribute (limit : Nat) (h : t.Translatable E) :
    (distribute limit t).1.Translatable E := by
  induction h with
  | noMatch => exact .noMatch
  | unit => exact .unit
  | triple hc => exact .triple hc
  | join _ hapart ih => exact hereditary_translatable.distribute_join ih hapart
  | union _ ih => exact hereditary_translatable.distribute_union ih
  | leftJoin hl hr hanchors ihl ihr =>
    simp only [BoundTree.distribute]
    split
    · exact .noMatch
    · split
      · exact ihl
      · exact .leftJoin ihl ihr
          (hanchors.of_reduces (reduces_distribute limit _ hl.noRebinding)
            (reduces_distribute limit _ hr.noRebinding))

/-- Optimisation keeps a tree translatable, with its solutions. -/
theorem Translatable.optimise (limit : Nat) (h : t.Translatable E) :
    (t.optimise limit).Translatable E ∧
      (t.optimise limit).solutions E.meaning E.db = t.solutions E.meaning E.db := by
  have hprune := h.prune
  refine ⟨hprune.distribute limit, ?_⟩
  exact (reduces_distribute limit t.prune hprune.noRebinding).solutions.trans
    (reduces_prune t h.noRebinding).solutions

mutual

theorem translatable_of_plain : ∀ t : BoundTree, t.Plain → t.Anchored E.meaning E.db →
    t.Readable E → t.Translatable E
  | noMatch, _, _, _ => .noMatch
  | unit, _, _, _ => .unit
  | triple c, _, _, h => .triple (h.legible c (List.mem_singleton_self c))
  | join members, hplain, hanchored, h =>
    .join (translatable_of_plainAll members hplain hanchored h)
      (pairwise_rowNumbers_of_candidates h.apart).2
  | union branches, hplain, hanchored, h =>
    .union (translatable_of_plainAll branches hplain hanchored ⟨h.legible, h.told, h.apart⟩)
  | leftJoin left right _, ⟨hl, hr, rfl⟩, ⟨hl', hr', hanchors⟩, h =>
    .leftJoin (translatable_of_plain left hl hl' h.leftSide)
      (translatable_of_plain right hr hr' h.rightSide) hanchors

theorem translatable_of_plainAll : ∀ ts : List BoundTree, PlainAll ts →
    AnchoredAll E.meaning E.db ts → (join ts).Readable E → ∀ t ∈ ts, t.Translatable E
  | [], _, _, _ => fun _ ht => absurd ht List.not_mem_nil
  | t :: rest, hplain, hanchored, h => List.forall_mem_cons.mpr
    ⟨translatable_of_plain t hplain.1 hanchored.1 h.head,
      translatable_of_plainAll rest hplain.2 hanchored.2 h.tail⟩

end

/-! ### Limits and orders -/

variable {D : ValueDomain String} {S : Rendering} {m : Mapping} {db : Database String}

/-- The limit of distribution does not change the answers of a pattern without expressions. -/
theorem answers_independent_of_limit {ds : List TriplesMapDefinition}
    (hload : Mapping.ofDefinitions ds = .ok m) (hD : D.Textual) (hm : m.Describes db)
    {p : GraphPattern} (hplain : p.Plain) (row : Nat) (ht : (bind m row p).1.Legible D S db)
    (hanchored : (bind m row p).1.Anchored (.shown D S) db) (projection : List String)
    (limit limit' : Nat) :
    ∃ q q', ((bind m row p).1.optimise limit).plan projection = .ok q ∧
      ((bind m row p).1.optimise limit').plan projection = .ok q' ∧
        q.answers D db = q'.answers D db := by
  have hover : ∀ c ∈ (bind m row p).1.candidates, c.Over m := fun c hc =>
    over_bind (Mapping.numbered_of_load hload) p row hc
  obtain ⟨E, rfl, rfl, rfl, hvalued, hreadable⟩ :=
    ht.exists_readable hD hm hover (numbered_bind m p row).apart
  have htranslatable := translatable_of_plain _ (plain_bind m p row hplain) hanchored hreadable
  obtain ⟨hfirst, hsolutions⟩ := htranslatable.optimise limit
  obtain ⟨hsecond, hsolutions'⟩ := htranslatable.optimise limit'
  obtain ⟨q, hq, hanswers⟩ := hfirst.plan_answers hvalued projection
  obtain ⟨q', hq', hanswers'⟩ := hsecond.plan_answers hvalued projection
  refine ⟨q, q', hq, hq', ?_⟩
  rw [hanswers, hanswers', hsolutions, hsolutions']

/-- Names from two tables, each with a nickname if there is one, and with keys that are encoded in
IRIs. -/
theorem answers_independent_of_limit_nicknames :
    let table (name : String) : LogicalTable := ⟨.table name, [⟨"key", .string, false⟩,
      ⟨"name", .string, false⟩, ⟨"nick", .string, true⟩]⟩
    let map (id : Nat) (name : String) : TriplesMap := ⟨id, name, table name,
      ⟨.template "http://x/{key}" [.text "http://x/", .column "key"], .iri, none, none⟩,
      [⟨[.ofIri "http://x/name"], [.term ⟨.column "name", .literal, none, none⟩]⟩,
        ⟨[.ofIri "http://x/nick"], [.term ⟨.column "nick", .literal, none, none⟩]⟩]⟩
    let d (name : String) : TriplesMapDefinition := ⟨name, ⟨some name, none, (table name).columns⟩,
      ⟨none, none, some "http://x/{key}", none, none, none⟩, [],
      [⟨["http://x/name"], [], [], [.term ⟨none, some "name", none, none, none, none⟩]⟩,
        ⟨["http://x/nick"], [], [], [.term ⟨none, some "nick", none, none, none, none⟩]⟩]⟩
    let m : Mapping := ⟨[map 0 "a", map 1 "b"]⟩
    let p : GraphPattern := .join [.triple ⟨.var "t", .iri "http://x/name", .var "n"⟩,
      .leftJoin (.triple ⟨.var "s", .iri "http://x/name", .var "n"⟩)
        (.triple ⟨.var "s", .iri "http://x/nick", .var "k"⟩) none]
    let db : Database String := .ofRecords fun
      | .table "a" => [[("key", "a/1"), ("name", "ann lee"), ("nick", "nan")]]
      | _ => [[("key", "b/1"), ("name", "bob")]]
    Mapping.ofDefinitions [d "a", d "b"] = .ok m ∧ m.Describes db ∧
      (bind m 0 p).1.Legible .texts .decoded db ∧
      (bind m 0 p).1.Anchored (.shown .texts .decoded) db ∧
      ∃ q q', ((bind m 0 p).1.optimise 64).plan ["s", "k"] = .ok q ∧
        ((bind m 0 p).1.optimise 1).plan ["s", "k"] = .ok q' ∧
          q.answers .texts db = q'.answers .texts db ∧ q.answers .texts db =
            {[("s", some "http://x/a/1"), ("k", some "nan")],
              [("s", some "http://x/b/1"), ("k", none)]} := by
  intro table map d m p db
  have hload : Mapping.ofDefinitions [d "a", d "b"] = .ok m :=
    Result.eq_ok_of_toOption (by decide +kernel)
  have hm : m.Describes db :=
    ⟨List.forall_mem_cons.mpr ⟨Database.forall_ofRecords (by decide),
        List.forall_mem_singleton.mpr (Database.forall_ofRecords (by decide))⟩,
      List.forall_mem_cons.mpr ⟨LogicalTable.keepsNulls_ofRecords (by decide),
        List.forall_mem_singleton.mpr (LogicalTable.keepsNulls_ofRecords (by decide))⟩⟩
  have hplain : p.Plain := ⟨trivial, ⟨trivial, trivial, rfl⟩, trivial⟩
  have ht : (bind m 0 p).1.Legible .texts .decoded db :=
    .of_made (by decide) (by decide +kernel) (by decide +kernel) fun _ _ _ hcomputes =>
      absurd hcomputes (not_computes_of_plain _ (plain_bind m p 0 hplain))
  have hanchored : (bind m 0 p).1.Anchored (.shown .texts .decoded) db := by
    have htriples : True ∧ True ∧ True ∧ True ∧ True := by decide
    exact ⟨htriples, ⟨htriples, htriples, anchors_of_boundNames (by decide)⟩, trivial⟩
  obtain ⟨q, q', hq, hq', hsame⟩ := answers_independent_of_limit hload ValueDomain.textual_texts hm
    hplain 0 ht hanchored ["s", "k"] 64 1
  refine ⟨hload, hm, ht, hanchored, q, q', hq, hq', hsame, ?_⟩
  have hcomputed : (((bind m 0 p).1.optimise 64).plan ["s", "k"]).toOption.map
      (·.answers .texts db) = some {[("s", some "http://x/a/1"), ("k", some "nan")],
        [("s", some "http://x/b/1"), ("k", none)]} := by
    decide +kernel
  rw [hq] at hcomputed
  exact Option.some_inj.mp hcomputed

/-- Values of a union are joined by text: without distribution, a number meets a string, and an IRI
another one whose values are divided in another way. -/
theorem answers_depend_on_limit :
    let map (id : Nat) (name predicate : String) (columns : List Column) (object : TermMap) :
        TriplesMap :=
      ⟨id, name, ⟨.table name, columns⟩, ⟨.constant "http://x/s", .iri, none, none⟩,
        [⟨[.ofIri predicate], [.term object]⟩]⟩
    let d (name predicate : String) (columns : List Column) (column template : Option String) :
        TriplesMapDefinition :=
      ⟨name, ⟨some name, none, columns⟩, ⟨some "http://x/s", none, none, none, none, none⟩, [],
        [⟨[predicate], [], [], [.term ⟨none, column, template, none, none, none⟩]⟩]⟩
    let p : GraphPattern := .join [.triple ⟨.var "a", .iri "http://x/p", .var "x"⟩,
      .triple ⟨.var "c", .iri "http://x/q", .var "x"⟩]
    let answers (m : Mapping) (db : Database String) (limit : Nat) :=
      (((bind m 0 p).1.optimise limit).plan ["x"]).toOption.map (·.answers .texts db)
    let value (type : SqlType) : List Column := [⟨"n", type, false⟩]
    let number : TermMap := ⟨.column "n", .literal, none, none⟩
    let values : Mapping := ⟨[map 0 "a" "http://x/p" (value .integer) number,
      map 1 "b" "http://x/p" (value .integer) number,
      map 2 "c" "http://x/q" (value .string) number]⟩
    let numbers : Database String := .ofRecords fun
      | .table "b" => []
      | _ => [[("n", "5")]]
    let pair : List Column := [⟨"u", .string, false⟩, ⟨"v", .string, false⟩]
    let iri : TermMap := ⟨.template "http://x/{u}/{v}"
      [.text "http://x/", .column "u", .text "/", .column "v"], .iri, none, none⟩
    let pairs : Mapping := ⟨[map 0 "a" "http://x/p" pair iri, map 1 "b" "http://x/p" pair iri,
      map 2 "c" "http://x/q" pair iri]⟩
    let paths : Database String := .ofRecords fun
      | .table "a" => [[("u", "1/2"), ("v", "3")]]
      | .table "c" => [[("u", "1"), ("v", "2/3")]]
      | _ => []
    p.Plain ∧
      (Mapping.ofDefinitions [d "a" "http://x/p" (value .integer) (some "n") none,
        d "b" "http://x/p" (value .integer) (some "n") none,
        d "c" "http://x/q" (value .string) (some "n") none] = .ok values ∧
        answers values numbers 64 = some 0 ∧
        answers values numbers 1 = some {[("x", some "5")]}) ∧
      (Mapping.ofDefinitions [d "a" "http://x/p" pair none (some "http://x/{u}/{v}"),
        d "b" "http://x/p" pair none (some "http://x/{u}/{v}"),
        d "c" "http://x/q" pair none (some "http://x/{u}/{v}")] = .ok pairs ∧
        answers pairs paths 64 = some 0 ∧
        answers pairs paths 1 = some {[("x", some "http://x/1/2/3")]}) := by
  intro map d p answers value number values numbers pair iri pairs paths
  exact ⟨⟨trivial, trivial, trivial⟩, ⟨rfl, by decide +kernel, by decide +kernel⟩,
    Result.eq_ok_of_toOption (by decide +kernel), by decide +kernel, by decide +kernel⟩

/-- The order of the members does not change the answers of a join of independent trees. -/
theorem answers_join_comm {ds : List TriplesMapDefinition}
    (hload : Mapping.ofDefinitions ds = .ok m) (hD : D.Textual) (hm : m.Describes db)
    (ps : List GraphPattern) (row : Nat) {A B : BoundTree}
    (hbound : (join [A, B]).candidates ⊆ candidatesAll (bindAll m row ps).1)
    (honce : (join [A, B]).candidates.Nodup) (ht : (join [A, B]).Legible D S db)
    (hA : A.Independent D S db B.names) (hB : B.Independent D S db A.names)
    {projection : List String} {u v : Plan} (hu : (join [A, B]).plan projection = .ok u)
    (hv : (join [B, A]).plan projection = .ok v) : u.answers D db = v.answers D db := by
  have hover : ∀ c ∈ (join [A, B]).candidates, c.Over m := fun c hc =>
    over_bindAll (Mapping.numbered_of_load hload) ps row (hbound hc)
  obtain ⟨E, rfl, rfl, rfl, hvalued, hreadable⟩ :=
    ht.exists_readable hD hm hover (pairwise_of_mem_bindAll hbound honce)
  have hadds : (join [A, B]).Adds E [] := adds_of_independent hvalued _
    ⟨independent_mono A (List.nil_subset _) hA, hB, trivial⟩ hreadable
  have hadds' : (join [B, A]).Adds E [] := adds_of_independent hvalued _
    ⟨independent_mono B (List.nil_subset _) hB, hA, trivial⟩ hreadable.swap
  rw [hadds.plan_answers hu, hadds'.plan_answers hv]
  simp only [solutions, solutionsOfJoin, Solution.join_empty_right]
  rw [Solution.join_comm]

/-- Names, joined with greetings of those whose nickname comes after the name, if they have one, and
before a given text. -/
theorem answers_join_comm_greetings :
    let table : LogicalTable := ⟨.table "p", [⟨"id", .integer, false⟩, ⟨"name", .string, false⟩,
      ⟨"nick", .string, true⟩]⟩
    let map : TriplesMap := ⟨0, "p", table, ⟨.column "id", .iri, none, none⟩,
      [⟨[.ofIri "http://x/name"], [.term ⟨.column "name", .literal, none, none⟩]⟩,
        ⟨[.ofIri "http://x/nick"], [.term ⟨.column "nick", .literal, none, none⟩]⟩]⟩
    let d : TriplesMapDefinition := ⟨"p", ⟨some "p", none, table.columns⟩,
      ⟨none, some "id", none, none, none, none⟩, [],
      [⟨["http://x/name"], [], [], [.term ⟨none, some "name", none, none, none, none⟩]⟩,
        ⟨["http://x/nick"], [], [], [.term ⟨none, some "nick", none, none, none, none⟩]⟩]⟩
    let m : Mapping := ⟨[map]⟩
    let text (s : String) : Expression := .constant (.literal ⟨s, none, none⟩)
    let p : GraphPattern := .triple ⟨.var "s", .iri "http://x/name", .var "n"⟩
    let q : GraphPattern := .extend (.filter
      (.or [.not (.bound "k"), .compare .lt (.var "k") (text "x")])
      (.leftJoin (.triple ⟨.var "s", .iri "http://x/name", .var "x"⟩)
        (.triple ⟨.var "s", .iri "http://x/nick", .var "k"⟩)
        (some (.compare .lt (.var "x") (.var "k"))))) "z" (.concat [.var "x", text "!"])
    let A := (bind m 0 p).1
    let B := (bind m (bind m 0 p).2 q).1
    let db : Database String := .ofRecords fun _ =>
      [[("id", "1"), ("name", "ann"), ("nick", "nan")], [("id", "2"), ("name", "bob")],
        [("id", "3"), ("name", "cat"), ("nick", "cat")],
        [("id", "4"), ("name", "dan"), ("nick", "x")]]
    Mapping.ofDefinitions [d] = .ok m ∧ m.Describes db ∧ (join [A, B]).Legible .texts .own db ∧
      A.Independent .texts .own db B.names ∧ B.Independent .texts .own db A.names ∧
      ∃ u v, (join [A, B]).plan ["n", "k", "z"] = .ok u ∧
        (join [B, A]).plan ["n", "k", "z"] = .ok v ∧ u.answers .texts db = v.answers .texts db ∧
          u.answers .texts db = {[("n", some "ann"), ("k", some "nan"), ("z", some "ann!")],
            [("n", some "bob"), ("k", none), ("z", some "bob!")],
            [("n", some "cat"), ("k", none), ("z", some "cat!")]} := by
  intro table map d m text p q A B db
  have hload : Mapping.ofDefinitions [d] = .ok m := rfl
  have hm : m.Describes db :=
    ⟨List.forall_mem_singleton.mpr (Database.forall_ofRecords (by decide)),
      List.forall_mem_singleton.mpr (LogicalTable.keepsNulls_ofRecords (by decide))⟩
  have hcomputes : ∀ name x, (join [A, B]).Computes .texts .own db name x →
      name = "z" ∧ x.shape = .plainLiteral := by
    rintro name x (hx | (((hx | hx) | ⟨rfl, a, -, hx⟩) | hx))
    · exact absurd hx (not_computes_of_plain _ ⟨trivial, trivial, trivial⟩)
    · exact absurd hx (not_computes_of_plain _ ⟨trivial, trivial, trivial⟩)
    · exact absurd hx (not_computes_of_plain _ ⟨trivial, trivial, trivial⟩)
    · obtain ⟨_, -, rfl⟩ := Option.map_eq_some_iff.mp hx
      exact ⟨rfl, rfl⟩
    · exact hx.elim
  have ht : (join [A, B]).Legible .texts .own db := by
    refine .of_made (by decide) (by decide +kernel) (by decide +kernel)
      fun name x y hx hy htext => ?_
    obtain ⟨rfl, hshape⟩ := hcomputes name x hx
    obtain ⟨c, hc, text, hy⟩ | hy := hy
    · have hmade : ∀ c ∈ (join [A, B]).candidates, ∀ y ∈ c.made db, y.1 ≠ "z" := by decide +kernel
      exact absurd rfl (hmade c hc _ hy)
    · exact congrArg₂ RdfTerm.mk (hshape.trans (hcomputes _ y hy).2.symm) htext
  have hA : A.Independent .texts .own db B.names := ⟨trivial, trivial, trivial⟩
  have hB : B.Independent .texts .own db A.names := by
    refine ⟨⟨⟨hA, hA, fun l hl => ⟨fun x hx hx' _ => ?_, ?_⟩⟩, fun l hl =>
      ⟨clear_of_boundNames (by decide) l hl, Expression.steady_of_isModest rfl⟩⟩, by decide,
      fun l hl => ⟨clear_of_boundNames (by decide) l hl, Expression.steady_of_isModest rfl⟩⟩
    · exact anchors_of_boundNames (by decide) l hl x hx hx'
    · rintro e ⟨⟩
      exact ⟨clear_of_boundNames (by decide) l hl, fun _ _ _ => Expression.steady_of_isModest rfl⟩
  have hplan : ((join [A, B]).plan ["n", "k", "z"]).toOption.map (·.answers .texts db) =
      some {[("n", some "ann"), ("k", some "nan"), ("z", some "ann!")],
        [("n", some "bob"), ("k", none), ("z", some "bob!")],
        [("n", some "cat"), ("k", none), ("z", some "cat!")]} := by
    decide +kernel
  have hplan' : ((join [B, A]).plan ["n", "k", "z"]).toOption.isSome = true := by decide +kernel
  obtain ⟨u, hu, hanswers⟩ := Option.map_eq_some_iff.mp hplan
  obtain ⟨v, hv⟩ := Option.isSome_iff_exists.mp hplan'
  have hu := Result.eq_ok_of_toOption hu
  have hv := Result.eq_ok_of_toOption hv
  have honce : (join [A, B]).candidates.Nodup := (numbered_bindAll m [p, q] 0).nodup
  exact ⟨hload, hm, ht, hA, hB, u, v, hu, hv, answers_join_comm hload ValueDomain.textual_texts hm
    [p, q] 0 (List.Subset.refl _) honce ht hA hB hu hv, hanswers⟩

/-- A filter sees the variables of earlier members: after a member that binds its variable, a test
that the variable is bound is lost. And what comes first decides how an IRI is compared, slot by
slot with another one of its template or by text with a value of a union. -/
theorem answers_depend_on_join_order :
    let answers (t : BoundTree) (name : String) (db : Database String) :=
      (t.plan [name]).toOption.map (·.answers .texts db)
    (let table : LogicalTable := ⟨.table "p", [⟨"id", .integer, false⟩, ⟨"name", .string, false⟩,
        ⟨"kind", .string, false⟩, ⟨"nick", .string, true⟩]⟩
      let map : TriplesMap := ⟨0, "p", table, ⟨.column "id", .iri, none, none⟩,
        [⟨[.ofIri "http://x/name"], [.term ⟨.column "name", .literal, none, none⟩]⟩,
          ⟨[.ofIri "http://x/kind"], [.term ⟨.column "kind", .literal, none, none⟩]⟩,
          ⟨[.ofIri "http://x/nick"], [.term ⟨.column "nick", .literal, none, none⟩]⟩]⟩
      let pattern (name object : String) : TriplePattern :=
        ⟨.var "s", .iri ("http://x/" ++ name), .var object⟩
      let candidate (row : Nat) (name object : String) : BoundTree := triple ⟨pattern name object,
        map, row, .ofIri ("http://x/" ++ name), .term ⟨.column name, .literal, none, none⟩⟩
      let p : GraphPattern := .triple (pattern "name" "x")
      let q : GraphPattern := .filter (.bound "x")
        (.leftJoin (.triple (pattern "kind" "y")) (.triple (pattern "nick" "x")) none)
      let A := candidate 0 "name" "x"
      let B := filter (.bound "x") (leftJoin (candidate 4 "kind" "y") (candidate 8 "nick" "x") none)
      let db : Database String :=
        .ofRecords fun _ => [[("id", "1"), ("name", "ann"), ("kind", "cat")]]
      (join [A, B]).candidates ⊆ candidatesAll (bindAll ⟨[map]⟩ 0 [p, q]).1 ∧
        answers (join [A, B]) "s" db = some {[("s", some "1")]} ∧
        answers (join [B, A]) "s" db = some 0) ∧
    (let iri : TermMap := ⟨.template "http://x/{u}/{v}"
        [.text "http://x/", .column "u", .text "/", .column "v"], .iri, none, none⟩
      let map (id : Nat) (name predicate : String) : TriplesMap := ⟨id, name,
        ⟨.table name, [⟨"u", .string, false⟩, ⟨"v", .string, false⟩]⟩,
        ⟨.constant "http://x/s", .iri, none, none⟩, [⟨[.ofIri predicate], [.term iri]⟩]⟩
      let m : Mapping := ⟨[map 0 "a" "http://x/p", map 1 "b" "http://x/q", map 2 "c" "http://x/q",
        map 3 "d" "http://x/r"]⟩
      let pattern (name predicate : String) : TriplePattern := ⟨.var name, .iri predicate, .var "x"⟩
      let candidate (subject : String) (row id : Nat) (name predicate : String) : BoundTree :=
        triple ⟨pattern subject predicate, map id name predicate, row, .ofIri predicate, .term iri⟩
      let p : GraphPattern := .triple (pattern "s" "http://x/p")
      let q : GraphPattern :=
        .join [.triple (pattern "t" "http://x/q"), .triple (pattern "w" "http://x/r")]
      let A := candidate "s" 0 0 "a" "http://x/p"
      let B := join [union [candidate "t" 5 1 "b" "http://x/q", candidate "t" 6 2 "c" "http://x/q"],
        candidate "w" 11 3 "d" "http://x/r"]
      let db : Database String := .ofRecords fun
        | .table "a" => [[("u", "1/2"), ("v", "3")]]
        | .table "c" => []
        | _ => [[("u", "1"), ("v", "2/3")]]
      (join [A, B]).candidates ⊆ candidatesAll (bindAll m 0 [p, q]).1 ∧
        answers (join [A, B]) "x" db = some 0 ∧
        answers (join [B, A]) "x" db = some {[("x", some "http://x/1/2/3")]}) := by
  intro answers
  constructor
  · intro table map pattern candidate p q A B db
    refine ⟨?_, by decide +kernel, by decide +kernel⟩
    let bound := candidatesAll (bindAll ⟨[map]⟩ 0 [p, q]).1
    have hname := List.mem_of_getElem? (i := 0) (l := bound) rfl
    have hkind := List.mem_of_getElem? (i := 4) (l := bound) rfl
    have hnick := List.mem_of_getElem? (i := 8) (l := bound) rfl
    exact List.cons_subset.mpr ⟨hname, List.cons_subset.mpr ⟨hkind, List.cons_subset.mpr
      ⟨hnick, List.nil_subset _⟩⟩⟩
  · intro iri map m pattern candidate p q A B db
    refine ⟨?_, by decide +kernel, by decide +kernel⟩
    let bound := candidatesAll (bindAll m 0 [p, q]).1
    have hfirst := List.mem_of_getElem? (i := 0) (l := bound) rfl
    have hsecond := List.mem_of_getElem? (i := 5) (l := bound) rfl
    have hthird := List.mem_of_getElem? (i := 6) (l := bound) rfl
    have hfourth := List.mem_of_getElem? (i := 11) (l := bound) rfl
    exact List.cons_subset.mpr ⟨hfirst, List.cons_subset.mpr ⟨hsecond, List.cons_subset.mpr
      ⟨hthird, List.cons_subset.mpr ⟨hfourth, List.nil_subset _⟩⟩⟩⟩

end BoundTree

end VirtualGraph
