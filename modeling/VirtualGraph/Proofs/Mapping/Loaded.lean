import VirtualGraph.Proofs.Bound.Loaded

/-!
# Loaded mappings are well formed

What a mapping promises once it is loaded: terms are of a kind that their position admits, columns
are declared where they are used, and references lead to a triples map. Each function of the loader
is described by what its result promises, and the promises of the parts add up to those of the
mapping.

A reference is checked against the names and tables of the definitions, before any triples map is
there. So references are described over any way to find the table of a triples map by number, and at
the end the two ways are shown to be the same.
-/

namespace VirtualGraph

/-- A column that may be used: it is declared, or none is. -/
def LogicalTable.Declares (t : LogicalTable) (name : String) : Prop :=
  t.columns = [] ∨ ∃ column ∈ t.columns, column.name = name

theorem LogicalTable.hasColumn_iff {t : LogicalTable} {name : String} :
    t.hasColumn name = true ↔ t.Declares name := by
  simp [hasColumn, column?, Declares]

/-- The kinds of term that may stand at a position. -/
def Position.Admits : Position → TermType → Prop
  | .subject, type => type ≠ .literal
  | .predicate, type => type = .iri
  | .object, _ => True

theorem Position.admits_of_isAllowed {position : Position} {type : TermType}
    (h : TermMapDefinition.isAllowed position type = true) : position.Admits type := by
  cases position <;> cases type <;> simp_all [TermMapDefinition.isAllowed, Admits]

/-- A datatype or language is of a literal, not both are there, and the parts of a template are what
its text is read as. -/
structure TermMap.Valid (m : TermMap) : Prop where
  literal : m.datatype ≠ none ∨ m.language ≠ none → m.termType = .literal
  exclusive : m.datatype = none ∨ m.language = none
  parsed : ∀ text parts, m.kind = .template text parts → Template.parse text = .ok parts

/-- A term map that may stand at a position of a triples map over a table. -/
structure TermMap.FitsAt (position : Position) (table : LogicalTable) (m : TermMap) : Prop where
  valid : m.Valid
  admitted : position.Admits m.termType
  declared : ∀ name ∈ m.columns, table.Declares name

/-- A reference is to a parent that shares the source or the columns it is joined on. -/
def ObjectMap.FitsIn (tableOf : Nat → Option LogicalTable) (table : LogicalTable) : ObjectMap → Prop
  | term map => map.FitsAt .object table
  | reference parent joins => ∃ parentTable, tableOf parent = some parentTable ∧
    (joins = [] → parentTable.source = table.source) ∧
    ∀ j ∈ joins, table.Declares j.child ∧ parentTable.Declares j.parent

structure PredicateObjectMap.FitsIn (tableOf : Nat → Option LogicalTable) (table : LogicalTable)
    (m : PredicateObjectMap) : Prop where
  predicates_ne_nil : m.predicates ≠ []
  objects_ne_nil : m.objects ≠ []
  predicates : ∀ map ∈ m.predicates, map.FitsAt .predicate table
  objects : ∀ object ∈ m.objects, object.FitsIn tableOf table

structure TriplesMap.FitsIn (tableOf : Nat → Option LogicalTable) (m : TriplesMap) : Prop where
  subject : m.subject.FitsAt .subject m.table
  predicateObjectMaps : ∀ pom ∈ m.predicateObjectMaps, pom.FitsIn tableOf m.table

/-- The table of a triples map by its number. -/
def Mapping.tableOf? (m : Mapping) (id : Nat) :
    Option LogicalTable := (m.triplesMap? id).map (·.table)

structure Mapping.WellFormed (m : Mapping) : Prop where
  numbered : m.Numbered
  names : (m.triplesMaps.map (·.name)).Nodup
  fits : ∀ map ∈ m.triplesMaps, map.FitsIn m.tableOf?

/-! ### What each part of the loader promises -/

theorem loadAll_meets {α β : Type} {load : α → Result β} {post : β → Prop}
    (h : ∀ a, (load a).Meets Fault.Any post) (as : List α) :
    (loadAll load as).Meets Fault.Any fun bs => ∀ b ∈ bs, post b := by
  induction as with
  | nil => exact fun _ hb => absurd hb List.not_mem_nil
  | cons a as ih =>
    exact (h a).bind fun b hb => ih.bind fun bs hbs => List.forall_mem_cons.mpr ⟨hb, hbs⟩

theorem loadAll_length {α β : Type} (load : α → Result β) (as : List α) :
    (loadAll load as).Meets Fault.Any fun bs => bs.length = as.length := by
  induction as with
  | nil => rfl
  | cons a as ih =>
    exact (Result.meets_any _).bind fun b _ => ih.bind fun bs hbs => congrArg (· + 1) hbs

variable {tableOf : Nat → Option LogicalTable} {index : TableIndex} {table : LogicalTable}
variable {owner : String} {position : Position}

theorem TermMap.fitsAt_ofIri (value : String) (h : position.Admits .iri) :
    (TermMap.ofIri value).FitsAt position table :=
  ⟨⟨by simp [ofIri], .inl rfl, by simp [ofIri]⟩, h, by simp [ofIri, columns]⟩

namespace TermMapDefinition

/-- The kind of a term map is a template only if its text could be read. -/
theorem kind_meets (d : TermMapDefinition) : (d.kind owner).Meets Fault.Any fun kind =>
    ∀ text parts, kind = .template text parts → Template.parse text = .ok parts := by
  unfold kind
  split
  · rintro _ _ ⟨⟩
  · rintro _ _ ⟨⟩
  · split
    · rename_i hparse
      rintro _ _ ⟨⟩
      exact hparse
    · trivial
  · trivial

theorem load_meets (d : TermMapDefinition) :
    (d.load owner position table).Meets Fault.Any (TermMap.FitsAt position table) := by
  refine (kind_meets d).bind fun kind hkind => ?_
  dsimp only
  split
  · trivial
  rename_i hboth
  split
  · trivial
  rename_i hallowed
  split
  · trivial
  rename_i hliteral
  split
  · trivial
  rename_i hcolumns
  refine ⟨⟨fun h => ?_, ?_, hkind⟩, Position.admits_of_isAllowed (by simpa using hallowed),
    fun name hname => ?_⟩
  · by_contra htype
    exact hliteral ⟨htype, by simpa [Option.isSome_iff_ne_none] using h⟩
  · by_contra h
    rw [not_or] at h
    exact hboth (by simpa [Option.isSome_iff_ne_none] using h)
  · have hdeclared := List.find?_eq_none.mp hcolumns name hname
    exact LogicalTable.hasColumn_iff.mp (by simpa using hdeclared)

end TermMapDefinition

namespace ObjectMapDefinition

/-- The two searches of an index for a name stop at the same place. -/
theorem getElem?_of_lookup {parent : String} {id : Nat} {parentTable : LogicalTable}
    (hid : index.findIdx? (·.1 = parent) = some id)
    (htable : index.lookup parent = some parentTable) :
    index[id]?.map (·.2) = some parentTable := by
  induction index generalizing id with
  | nil => cases htable
  | cons entry index ih =>
    rw [List.lookup_cons] at htable
    rw [List.findIdx?_cons] at hid
    by_cases hname : parent = entry.1
    · rw [if_pos (by simp [hname])] at hid
      simp only [hname, BEq.rfl] at htable
      cases hid
      exact htable
    · have hne : ¬entry.1 = parent := fun h => hname h.symm
      rw [if_neg (by simp [hne])] at hid
      simp only [beq_eq_false_iff_ne.mpr hname] at htable
      obtain ⟨id', hid', rfl⟩ := Option.map_eq_some_iff.mp hid
      exact ih hid' htable

theorem joinProblem?_eq_none {child parent : LogicalTable} {joins : List JoinCondition}
    (h : joinProblem? child parent joins = none) :
    ∀ j ∈ joins, child.Declares j.child ∧ parent.Declares j.parent := by
  induction joins with
  | nil => exact fun _ hj => absurd hj List.not_mem_nil
  | cons j joins ih =>
    rw [joinProblem?] at h
    split at h
    · cases h
    rename_i hchild
    split at h
    · cases h
    rename_i hparent
    refine List.forall_mem_cons.mpr ⟨⟨?_, ?_⟩, ih h⟩
    · exact LogicalTable.hasColumn_iff.mp (by simpa using hchild)
    · exact LogicalTable.hasColumn_iff.mp (by simpa using hparent)

theorem load_meets (o : ObjectMapDefinition) : (o.load owner index table).Meets Fault.Any
    (ObjectMap.FitsIn (fun id => index[id]?.map (·.2)) table) := by
  cases o with
  | term map => exact (TermMapDefinition.load_meets map).map fun _ h => h
  | reference parent joins =>
    change (loadReference owner index table parent joins).Meets _ _
    unfold loadReference
    split
    · rename_i id parentTable hid htable
      split
      · trivial
      rename_i hsource
      split
      · trivial
      rename_i hjoins
      refine ⟨parentTable, getElem?_of_lookup hid htable, fun hnil => ?_,
        joinProblem?_eq_none hjoins⟩
      by_contra hne
      exact hsource (by simp [hnil, hne])
    · trivial

end ObjectMapDefinition

theorem PredicateObjectMapDefinition.load_meets (d : PredicateObjectMapDefinition) :
    (d.load owner index table).Meets Fault.Any
      (PredicateObjectMap.FitsIn (fun id => index[id]?.map (·.2)) table) := by
  refine (loadAll_meets (fun p => TermMapDefinition.load_meets p) _).bind
    fun predicates hpredicates =>
    (loadAll_meets (fun o => ObjectMapDefinition.load_meets o) _).bind fun objects hobjects => ?_
  dsimp only
  split
  · trivial
  rename_i hne
  simp only [Bool.or_eq_true, List.isEmpty_iff, not_or] at hne
  refine ⟨hne.1, hne.2, List.forall_mem_append.mpr ⟨?_, hpredicates⟩,
    List.forall_mem_append.mpr ⟨?_, hobjects⟩⟩
  · exact List.forall_mem_map.mpr fun iri _ => TermMap.fitsAt_ofIri iri rfl
  · exact List.forall_mem_map.mpr fun iri _ => TermMap.fitsAt_ofIri iri trivial

theorem fitsIn_of_mem_classMaps {classes : List String} {pom : PredicateObjectMap}
    (h : pom ∈ classMaps classes) : pom.FitsIn tableOf table := by
  unfold classMaps at h
  split at h
  · cases h
  · rename_i hne
    obtain rfl := List.mem_singleton.mp h
    refine ⟨List.cons_ne_nil _ _, by simpa using hne, ?_, ?_⟩
    · exact List.forall_mem_singleton.mpr (TermMap.fitsAt_ofIri rdfType rfl)
    · exact List.forall_mem_map.mpr fun iri _ => TermMap.fitsAt_ofIri iri trivial

/-- A triples map is made from the table and the name that it is given. -/
theorem TriplesMapDefinition.load_meets (id : Nat) (d : TriplesMapDefinition) :
    (d.load index id table).Meets Fault.Any fun map =>
      map.table = table ∧ map.name = d.name ∧ map.FitsIn fun id => index[id]?.map (·.2) := by
  refine (TermMapDefinition.load_meets d.subject).bind fun subject hsubject =>
    (loadAll_meets (fun p => PredicateObjectMapDefinition.load_meets p) _).bind fun poms hpoms => ?_
  refine ⟨rfl, rfl, hsubject, List.forall_mem_append.mpr ⟨fun pom hpom => ?_, hpoms⟩⟩
  exact fitsIn_of_mem_classMaps hpom

/-! ### The whole mapping -/

namespace Mapping

/-- The triples maps stand in the order of their definitions. -/
theorem loadTriplesMaps_fits (id : Nat) (l : List (LogicalTable × TriplesMapDefinition)) :
    (loadTriplesMaps index id l).Meets Fault.Any fun maps =>
      maps.map (·.table) = l.map (·.1) ∧ maps.map (·.name) = l.map (·.2.name) ∧
        ∀ map ∈ maps, map.FitsIn fun id => index[id]?.map (·.2) := by
  induction l generalizing id with
  | nil => exact ⟨rfl, rfl, fun _ h => absurd h List.not_mem_nil⟩
  | cons entry l ih =>
    refine (TriplesMapDefinition.load_meets id entry.2).bind fun map hmap =>
      (ih (id + 1)).bind fun maps hmaps => ?_
    obtain ⟨htable, hname, hfits⟩ := hmap
    obtain ⟨htables, hnames, hall⟩ := hmaps
    exact ⟨by simp [htable, htables], by simp [hname, hnames],
      List.forall_mem_cons.mpr ⟨hfits, hall⟩⟩

theorem duplicate?_eq_none {seen names : List String} (h : duplicate? seen names = none) :
    names.Nodup ∧ ∀ name ∈ names, name ∉ seen := by
  induction names generalizing seen with
  | nil => exact ⟨List.nodup_nil, fun _ h => absurd h List.not_mem_nil⟩
  | cons name names ih =>
    rw [duplicate?] at h
    split at h
    · cases h
    rename_i hname
    obtain ⟨hnodup, hunseen⟩ := ih h
    refine ⟨List.nodup_cons.mpr ⟨fun hmem => hunseen name hmem List.mem_cons_self, hnodup⟩, ?_⟩
    refine List.forall_mem_cons.mpr ⟨by simpa using hname, fun other hother hseen => ?_⟩
    exact hunseen other hother (List.mem_cons_of_mem _ hseen)

theorem wellFormed_of_load {ds : List TriplesMapDefinition} {m : Mapping}
    (h : ofDefinitions ds = .ok m) : m.WellFormed := by
  have hnumbered := numbered_of_load h
  unfold ofDefinitions at h
  split at h
  · cases h
  rename_i hnames
  obtain ⟨tables, htables, h⟩ := Result.bind_eq_ok.mp h
  obtain ⟨maps, hmaps, heq⟩ := Result.bind_eq_ok.mp h
  cases heq
  have hlength : tables.length = ds.length := by
    have hload := loadAll_length (fun d : TriplesMapDefinition => d.table.load d.name) ds
    rw [htables] at hload
    exact hload
  have hload := @loadTriplesMaps_fits ((ds.map (·.name)).zip tables) 0 (tables.zip ds)
  rw [hmaps] at hload
  obtain ⟨htable, hname, hfits⟩ := hload
  -- the index that references are checked against finds the tables of the triples maps
  have hindex : (fun id => ((ds.map (·.name)).zip tables)[id]?.map (·.2)) = tableOf? ⟨maps⟩ := by
    funext id
    have hfst : (tables.zip ds).map (·.1) = tables := List.map_fst_zip hlength.le
    have hsnd : ((ds.map (·.name)).zip tables).map (·.2) = tables :=
      List.map_snd_zip (by simp [hlength])
    rw [tableOf?, triplesMap?, ← List.getElem?_map, ← List.getElem?_map, htable, hfst, hsnd]
  refine ⟨hnumbered, ?_, fun map hmap => hindex ▸ hfits map hmap⟩
  have hnames' : maps.map (·.name) = ds.map (·.name) :=
    calc maps.map (·.name)
        = ((tables.zip ds).map (·.2)).map (·.name) := by rw [hname, List.map_map]; rfl
      _ = ds.map (·.name) := by rw [List.map_snd_zip hlength.ge]
  exact hnames' ▸ (duplicate?_eq_none hnames).1

end Mapping

end VirtualGraph
