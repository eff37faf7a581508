import VirtualGraph.Proofs.Draft.Legible

/-!
# Exact plans of basic graph patterns

A tree of triples and joins over a loaded mapping, each triple bound once, has a plan whose rows are
its solutions. Values have to be canonical texts, and percent-encoding has to leave those alone that
IRI templates take up, since rows show them as they are. A column that is declared not to be null is
read without a guard, so the database has to keep the declaration.
-/

namespace VirtualGraph

/-- The database of given records, each a list of columns with their values. -/
def Database.ofRecords (records : TableSource → List (List (String × String))) : Database String :=
  fun source => (records source).map fun record name => record.lookup name

section Records

variable {records : TableSource → List (List (String × String))} {table : LogicalTable}

theorem Database.forall_ofRecords {source : TableSource} {p : String → String → Prop}
    (h : ∀ record ∈ records source, ∀ e ∈ record, p e.1 e.2) :
    ∀ row ∈ Database.ofRecords records source, ∀ name text, row name = some text → p name text := by
  intro row hrow name text htext
  obtain ⟨record, hrecord, rfl⟩ := List.mem_map.mp (Multiset.mem_coe.mp hrow)
  exact h record hrecord _ (mem_of_lookup htext)

theorem LogicalTable.keepsNulls_ofRecords (h : ∀ column ∈ table.columns, column.nullable = false →
    ∀ record ∈ records table.source, record.lookup column.name ≠ none) :
    table.KeepsNulls (.ofRecords records) := by
  intro row hrow name hnullable
  obtain ⟨record, hrecord, rfl⟩ := List.mem_map.mp (Multiset.mem_coe.mp hrow)
  rw [isNullable] at hnullable
  cases hcolumn : table.column? name with
  | none => simp [hcolumn] at hnullable
  | some column =>
    have hname : column.name = name := by simpa using List.find?_some hcolumn
    rw [hcolumn] at hnullable
    exact hname ▸ h column (List.mem_of_find?_eq_some hcolumn) hnullable record hrecord

end Records

namespace TermMap

/-- The columns that a template has slots for. -/
def slots (m : TermMap) : List String :=
  match m.kind with
  | .template _ parts => parts.filterMap fun
    | .text _ => none
    | .column name => some name
  | _ => []

/-- A term is shown by its own text if encoding leaves the values of its template alone. -/
theorem shownText_eq_rowText {α : Type} {I : Interpretation α} {m : TermMap} {table : LogicalTable}
    {columns : String → Option α} (h : m.termType = .iri → ∀ name ∈ m.slots,
      ∀ ch ∈ (columnText I table columns name).toList, Text.isUnreserved ch = true) :
    m.shownText I table columns = m.rowText I table columns := by
  obtain ⟨kind, termType, datatype, language⟩ := m
  cases kind with
  | constant value => rfl
  | column name => rfl
  | template text parts =>
    refine congrArg String.ofList (List.flatMap_congr fun part hpart => ?_)
    cases part with
    | text t => rfl
    | column name =>
      show (columnText I table columns name).toList = if termType == .iri then _ else _
      split
      · rename_i hiri
        have hslot : name ∈ slots ⟨.template text parts, termType, datatype, language⟩ :=
          List.mem_filterMap.mpr ⟨.column name, hpart, rfl⟩
        rw [Text.percentEncode_eq_self (h (eq_of_beq hiri) name hslot)]
      · rfl

end TermMap

/-- The declarations of a mapping describe the database, and its IRIs are written with unreserved
values and no percent sign, so that encoding leaves them as they are. -/
structure Mapping.Legible (db : Database String) (m : Mapping) : Prop extends m.Describes db where
  unreserved : ∀ map ∈ m.triplesMaps, ∀ s ∈ map.termMaps, s.termType = .iri → ∀ name ∈ s.slots,
    ∀ row ∈ db map.table.source, ∀ text, row name = some text →
      ∀ ch ∈ text.toList, Text.isUnreserved ch = true
  constants : ∀ map ∈ m.triplesMaps, ∀ s ∈ map.termMaps, s.termType = .iri →
    ∀ text ∈ s.constants, '%' ∉ text.toList

namespace Candidate

variable {m : Mapping} {db : Database String} {c : Candidate}

theorem Over.spelled (h : c.Over m) (hm : m.Legible db)
    (hquery : ∀ i ∈ c.pattern.iris, '%' ∉ i.toList) : c.Spelled where
  terms := fun p _ hiri => by
    obtain ⟨map, hmap, hterm, -⟩ := h.made p
    exact hm.constants map hmap _ hterm hiri
  query := hquery

/-- Over a database of legible texts, terms are shown by their own texts. -/
theorem Over.shownText_eq (h : c.Over m) (hm : m.Legible db) {x : String × RdfTerm × String}
    (hx : x ∈ c.made db) : x.2.1.text = x.2.2 := by
  obtain ⟨choice, hchoice, hx⟩ := Multiset.mem_bind.mp hx
  obtain ⟨p, -, hp⟩ := List.mem_filterMap.mp (Multiset.mem_coe.mp hx)
  obtain ⟨name, -, rfl⟩ := Option.map_eq_some_iff.mp hp
  obtain ⟨map, hmap, hterm, htable⟩ := h.made p
  refine (TermMap.shownText_eq_rowText fun hiri name hname ch hch => ?_).symm
  have hrow := RowChoice.mem_all c.nodup_rows (Multiset.mem_filter.mp hchoice).1 (h.sourced p)
  rw [htable] at hrow
  rw [TermMap.columnText] at hch
  cases hvalue : choice (c.source p).2.1 name with
  | none => simp [hvalue] at hch
  | some text =>
    rw [hvalue] at hch
    exact hm.unreserved map hmap _ hterm hiri name hname _ hrow text hvalue ch hch

end Candidate

namespace BoundTree

/-- Trees of triples and joins. -/
inductive Basic : BoundTree → Prop
  | noMatch : Basic noMatch
  | unit : Basic unit
  | triple (c : Candidate) : Basic (triple c)
  | join {members : List BoundTree} (all : ∀ t ∈ members, Basic t) : Basic (join members)

theorem Basic.plain {t : BoundTree} (h : t.Basic) : t.Plain := by
  induction h with
  | noMatch => trivial
  | unit => trivial
  | triple _ => trivial
  | join _ ih => exact plainAll_iff.mpr ih

theorem Basic.adds {E : Setting} {t : BoundTree} (h : t.Basic)
    (hlegible : ∀ c ∈ t.candidates, c.Legible E)
    (hapart : t.candidates.Pairwise fun x y => x.rowNumbers.Disjoint y.rowNumbers)
    (outer : List String) : t.Adds E outer := by
  induction h generalizing outer with
  | noMatch => exact adds_noMatch
  | unit => exact adds_unit
  | triple c => exact adds_triple (hlegible c (List.mem_singleton_self c))
  | join _ ih =>
    obtain ⟨hmembers, hapart⟩ := pairwise_rowNumbers_of_candidates hapart
    refine adds_join (fun t ht => ih t ht (fun c hc => ?_) (hmembers t ht)) hapart
    exact hlegible c (mem_candidatesAll.mpr ⟨t, ht, hc⟩)

/-- The plan of a basic graph pattern is exact: it exists, and its rows are the solutions of the
tree, each projected variable with the text of its term or with null if it is not bound. -/
theorem plan_exact_of_basic {ds : List TriplesMapDefinition} {m : Mapping}
    (hload : Mapping.ofDefinitions ds = .ok m) {D : ValueDomain String} (hD : D.Textual)
    {db : Database String} (hm : m.Legible db) (ps : List GraphPattern) (row : Nat) {t : BoundTree}
    (hbasic : t.Basic) (hbound : t.candidates ⊆ candidatesAll (bindAll m row ps).1)
    (honce : t.candidates.Nodup)
    (hquery : ∀ c ∈ t.candidates, ∀ i ∈ c.pattern.iris, '%' ∉ i.toList)
    (projection : List String) :
    ∃ p, t.plan projection = .ok p ∧
      p.answers D db = (t.solutions .literal db).map (·.project projection) := by
  -- No query variable of a basic pattern is bound to a value whose term has to be told.
  let E : Setting := ⟨D, hD, db, .own, fun _ => False, fun _ text => ⟨.iri, text⟩, fun _ _ _ => rfl⟩
  have hlegible : ∀ c ∈ t.candidates, c.Legible E := by
    intro c hc
    have hover := over_bindAll (Mapping.numbered_of_load hload) ps row (hbound hc)
    exact hover.legible (E := E) hm.toDescribes (hover.spelled hm (hquery c hc)) fun x hx =>
      ⟨hover.shownText_eq hm hx, False.elim⟩
  have hadds : t.Adds E [] := hbasic.adds hlegible (pairwise_of_mem_bindAll hbound honce) []
  obtain ⟨p, hp⟩ := exists_plan_of_plain hbasic.plain projection
  refine ⟨p, hp, (hadds.plan_answers hp).trans ?_⟩
  exact congrArg (Multiset.map _) (solutions_of_plain (I := E.meaning) (J := .literal) rfl t
    hbasic.plain)

/-- The name and the boss of everyone who has a boss. The boss is another row of the same table. -/
theorem plan_exact_of_basic_bosses :
    let people : LogicalTable :=
      ⟨.table "people", [⟨"id", .integer, false⟩, ⟨"name", .string, true⟩,
      ⟨"boss", .integer, true⟩]⟩
    let map : TriplesMap := ⟨0, "people", people,
      ⟨.template "http://x/{id}" [.text "http://x/", .column "id"], .iri, none, none⟩,
      [⟨[.ofIri "http://x/name"], [.term ⟨.column "name", .literal, none, none⟩]⟩,
        ⟨[.ofIri "http://x/boss"], [.reference 0 [⟨"boss", "id"⟩]]⟩]⟩
    let ds : List TriplesMapDefinition := [⟨"people", ⟨some "people", none, people.columns⟩,
      ⟨none, none, some "http://x/{id}", none, none, none⟩, [],
      [⟨["http://x/name"], [], [], [.term ⟨none, some "name", none, none, none, none⟩]⟩,
        ⟨["http://x/boss"], [], [], [.reference "people" [⟨"boss", "id"⟩]]⟩]⟩]
    let names : TriplePattern := ⟨.var "s", .iri "http://x/name", .var "n"⟩
    let bosses : TriplePattern := ⟨.var "s", .iri "http://x/boss", .var "b"⟩
    let t := join [triple ⟨names, map, 0, .ofIri "http://x/name",
        .term ⟨.column "name", .literal, none, none⟩⟩,
      triple ⟨bosses, map, 4, .ofIri "http://x/boss", .parent map 5 [⟨"boss", "id"⟩]⟩]
    let db : Database String := .ofRecords fun _ => [[("id", "1"), ("name", "ann")],
      [("id", "2"), ("name", "bob"), ("boss", "1")]]
    Mapping.ofDefinitions ds = .ok ⟨[map]⟩ ∧ Mapping.Legible db ⟨[map]⟩ ∧
      t.candidates ⊆ candidatesAll (bindAll ⟨[map]⟩ 0 [.triple names, .triple bosses]).1 ∧
      (t.solutions .literal db).map (·.project ["n", "b"]) =
        {[("n", some "bob"), ("b", some "http://x/1")]} := by
  intro people map ds names bosses t db
  have hload : Mapping.ofDefinitions ds = .ok ⟨[map]⟩ :=
    Result.eq_ok_of_toOption (by decide +kernel)
  have hslots : ∀ s ∈ map.termMaps, s.termType = .iri → ∀ name ∈ s.slots,
      ∀ row ∈ db map.table.source, ∀ text ∈ row name,
        text.toList.all Text.isUnreserved = true := by
    decide
  have hlegible : Mapping.Legible db ⟨[map]⟩ :=
    ⟨⟨List.forall_mem_singleton.mpr (Database.forall_ofRecords (by decide)),
      List.forall_mem_singleton.mpr (LogicalTable.keepsNulls_ofRecords (by decide))⟩,
      List.forall_mem_singleton.mpr fun s hs hiri name hname row hrow text htext =>
        List.all_eq_true.mp (hslots s hs hiri name hname row hrow text htext), by decide⟩
  have hbound : t.candidates ⊆
      candidatesAll (bindAll ⟨[map]⟩ 0 [.triple names, .triple bosses]).1 := by
    intro c hc
    obtain rfl | hc := List.mem_cons.mp hc
    · exact List.mem_cons_self
    · obtain rfl := List.mem_singleton.mp hc
      exact List.mem_of_mem_getLast? rfl
  have honce : t.candidates.Nodup := by
    refine List.nodup_cons.mpr ⟨fun hmem => ?_, List.nodup_singleton _⟩
    exact absurd (congrArg Candidate.row (List.mem_singleton.mp hmem)) (by decide)
  obtain ⟨p, hp, hanswers⟩ := plan_exact_of_basic hload ValueDomain.textual_texts hlegible
    [.triple names, .triple bosses] 0 (t := t)
    (.join (List.forall_mem_cons.mpr ⟨.triple _, List.forall_mem_singleton.mpr (.triple _)⟩)) hbound
    honce (List.forall_mem_cons.mpr ⟨by decide, List.forall_mem_singleton.mpr (by decide)⟩)
      ["n", "b"]
  refine ⟨hload, hlegible, hbound, ?_⟩
  have hcomputed : ((t.plan ["n", "b"]).toOption.map (·.answers .texts db)) =
      some {[("n", some "bob"), ("b", some "http://x/1")]} := by
    decide +kernel
  rw [hp] at hcomputed
  rw [← hanswers]
  exact Option.some_inj.mp hcomputed

/-- A null in a column that is declared not to be null is not noticed: the row makes no triple, but
the plan has it. -/
theorem plan_inexact_of_undeclared_null :
    let table : LogicalTable := ⟨.table "p", [⟨"id", .integer, false⟩, ⟨"n", .string, false⟩]⟩
    let map : TriplesMap := ⟨0, "P", table,
      ⟨.template "http://x/p/{id}" [.text "http://x/p/", .column "id"], .iri, none, none⟩,
      [⟨[.ofIri "http://x/name"], [.term ⟨.column "n", .literal, none, none⟩]⟩]⟩
    let ds : List TriplesMapDefinition := [⟨"P", ⟨some "p", none, table.columns⟩,
      ⟨none, none, some "http://x/p/{id}", none, none, none⟩, [],
      [⟨["http://x/name"], [], [], [.term ⟨none, some "n", none, none, none, none⟩]⟩]⟩]
    let pattern : TriplePattern := ⟨.var "s", .iri "http://x/name", .var "o"⟩
    let c : Candidate := ⟨pattern, map, 0, .ofIri "http://x/name",
      .term ⟨.column "n", .literal, none, none⟩⟩
    let db : Database String := .ofRecords fun _ => [[("id", "1")]]
    Mapping.ofDefinitions ds = .ok ⟨[map]⟩ ∧ table.Canonical db ∧
      (∀ row ∈ db table.source, ∀ name text, row name = some text →
        text.toList.all Text.isUnreserved = true) ∧
      (∀ s ∈ map.termMaps, ∀ text ∈ s.constants, '%' ∉ text.toList) ∧
      (bind ⟨[map]⟩ 0 (.triple pattern)).1 = triple c ∧
      (∃ p, (triple c).plan ["s"] = .ok p ∧ p.answers .texts db = {[("s", some "http://x/p/1")]}) ∧
      (triple c).solutions .literal db = 0 := by
  intro table map ds pattern c db
  have hanswers : ((triple c).plan ["s"]).toOption.map (·.answers .texts db) =
      some {[("s", some "http://x/p/1")]} := by
    decide +kernel
  obtain ⟨p, hp, hanswers⟩ := Option.map_eq_some_iff.mp hanswers
  refine ⟨Result.eq_ok_of_toOption (by decide +kernel), Database.forall_ofRecords (by decide),
    Database.forall_ofRecords (p := fun _ text => text.toList.all Text.isUnreserved = true)
      (by decide), by decide, rfl, ⟨p, Result.eq_ok_of_toOption hp, hanswers⟩,
    Multiset.eq_zero_of_forall_notMem fun a ha => ?_⟩
  rw [solutions, Candidate.solutions_eq_bind] at ha
  obtain ⟨choice, hchoice, ha⟩ := Multiset.mem_bind.mp ha
  have hrow : choice 0 ∈ db table.source :=
    RowChoice.mem_all c.nodup_rows hchoice List.mem_cons_self
  have hnull : choice 0 "n" = none := by
    rw [Multiset.mem_singleton.mp hrow]
    rfl
  have hrefused : ¬c.Admits .literal choice := fun hadmits =>
    hadmits.columns (0, "n") (by decide) hnull
  rw [Solution.keep_of_not hrefused] at ha
  exact Multiset.notMem_zero _ ha

end BoundTree

end VirtualGraph
