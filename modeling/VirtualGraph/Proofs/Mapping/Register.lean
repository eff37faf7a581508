import VirtualGraph.Mapping.Register
import VirtualGraph.Proofs.Mapping.Loaded

/-!
# The register of a loaded mapping

Registering only adds to the list of term maps, so a number that was given out keeps its term map.
From this the register holds the mapping it was made from, and what a loaded mapping promises is
true of the numbers in the register: no look-up fails.
-/

namespace VirtualGraph

/-! ### The register holds the mapping -/

namespace Registering

/-- Every term map stands at the place of its number, and has a property. -/
def Keeps (good : TermMap → Prop) (entries : List TermEntry) : Prop :=
  ∀ (id : Nat) (e : TermEntry), entries[id]? = some e → e.id = id ∧ good e.map

/-- A computation that only adds term maps, and whose result is right about any list that continues
the one it leaves. -/
def Registers {α : Type} (good : TermMap → Prop) (post : List TermEntry → α → Prop)
    (x : Registering α) : Prop :=
  ∀ entries, Keeps good entries → Keeps good (x entries).2 ∧
    entries <+: (x entries).2 ∧ ∀ later, (x entries).2 <+: later → post later (x entries).1

variable {α β : Type} {good : TermMap → Prop} {post : List TermEntry → α → Prop}
variable {post' : List TermEntry → β → Prop}

theorem registers_pure {a : α} (h : ∀ later, post later a) : Registers good post (pure a) :=
  fun _ hkeeps => ⟨hkeeps, List.prefix_rfl, fun later _ => h later⟩

theorem Registers.bind {x : Registering α} {f : α → Registering β} (hx : Registers good post x)
    (hf : ∀ a, Registers good (fun later b => post later a → post' later b) (f a)) :
    Registers good post' (x >>= f) := by
  intro entries hkeeps
  obtain ⟨hkeeps, hmore, hpost⟩ := hx entries hkeeps
  obtain ⟨hkeeps, hmore', hpost'⟩ := hf (x entries).1 (x entries).2 hkeeps
  exact ⟨hkeeps, hmore.trans hmore',
    fun later hlater => hpost' later hlater (hpost later (hmore'.trans hlater))⟩

theorem registers_mapM {f : α → Registering β} {rel : List TermEntry → α → β → Prop} (l : List α)
    (h : ∀ a ∈ l, Registers good (fun later b => rel later a b) (f a)) :
    Registers good (fun later bs => List.Forall₂ (rel later) l bs) (l.mapM f) := by
  induction l with
  | nil => exact registers_pure fun _ => .nil
  | cons a l ih =>
    rw [List.mapM_cons]
    obtain ⟨ha, hl⟩ := List.forall_mem_cons.mp h
    refine ha.bind fun b entries hkeeps => ?_
    obtain ⟨hkeeps, hmore, hrel⟩ := ih hl entries hkeeps
    exact ⟨hkeeps, hmore, fun later hlater hb => .cons hb (hrel later hlater)⟩

theorem registers_register {map : TermMap} (h : good map) :
    Registers good (fun later id => later[id]? = some ⟨id, map⟩) map.register := by
  intro entries hkeeps
  refine ⟨fun id e hid => ?_, List.prefix_append _ _, fun later hlater => ?_⟩
  · change (entries ++ [⟨entries.length, map⟩])[id]? = some e at hid
    by_cases hlt : id < entries.length
    · rw [List.getElem?_append_left hlt] at hid
      exact hkeeps id e hid
    · rw [List.getElem?_append_right (Nat.le_of_not_lt hlt), List.getElem?_singleton] at hid
      split at hid
      · cases hid
        have hid : entries.length = id := by omega
        exact ⟨hid, h⟩
      · cases hid
  · obtain ⟨rest, rfl⟩ := hlater
    change (entries ++ [⟨entries.length, map⟩] ++ rest)[entries.length]? =
      some ⟨entries.length, map⟩
    simp

end Registering

/-- A registered object map. -/
inductive ObjectEntry.Stands (entries : List TermEntry) : ObjectMap → ObjectEntry → Prop
  | term {map : TermMap} {id : Nat} (h : entries[id]? = some ⟨id, map⟩) :
    Stands entries (.term map) (.term id)
  | reference {parent : Nat} {joins : List JoinCondition} :
    Stands entries (.reference parent joins) (.reference parent joins)

/-- A registered predicate-object map: the numbers lead to its maps, in order. -/
structure PredicateObjectEntry.Stands (entries : List TermEntry) (m : PredicateObjectMap)
    (e : PredicateObjectEntry) : Prop where
  predicates : List.Forall₂ (fun map id => entries[id]? = some ⟨id, map⟩) m.predicates e.predicates
  objects : List.Forall₂ (ObjectEntry.Stands entries) m.objects e.objects

/-- A registered triples map. -/
structure TriplesEntry.Stands (entries : List TermEntry) (m : TriplesMap) (e : TriplesEntry) :
    Prop where
  id : e.id = m.id
  name : e.name = m.name
  table : e.table = m.table
  subject : entries[e.subject]? = some ⟨e.subject, m.subject⟩
  predicateObjectMaps :
    List.Forall₂ (PredicateObjectEntry.Stands entries) m.predicateObjectMaps e.predicateObjectMaps

/-- A register that leads to the maps of a mapping. -/
def Register.Describes (r : Register) (m : Mapping) : Prop :=
  List.Forall₂ (TriplesEntry.Stands r.termMaps) m.triplesMaps r.triplesMaps

namespace Registering

variable {tableOf : Nat → Option LogicalTable} {table : LogicalTable}

theorem registers_object {object : ObjectMap} (h : object.FitsIn tableOf table) :
    Registers TermMap.Valid (fun later e => e.Stands later object) object.register := by
  cases object with
  | term map =>
    have hvalid : map.Valid := TermMap.FitsAt.valid h
    exact (registers_register hvalid).bind fun id => registers_pure fun later hid => .term hid
  | reference parent joins => exact registers_pure fun later => .reference

theorem registers_predicateObject {m : PredicateObjectMap} (h : m.FitsIn tableOf table) :
    Registers TermMap.Valid (fun later e => e.Stands later m) m.register := by
  have hpredicates : ∀ map ∈ m.predicates, Registers TermMap.Valid
      (fun later id => later[id]? = some ⟨id, map⟩) map.register :=
    fun map hmap => registers_register (h.predicates map hmap).valid
  have hobjects : ∀ object ∈ m.objects, Registers TermMap.Valid
      (fun later e => e.Stands later object) object.register :=
    fun object hobject => registers_object (h.objects object hobject)
  refine (registers_mapM _ hpredicates).bind fun predicates entries hkeeps => ?_
  obtain ⟨hkeeps, hmore, hstands⟩ := registers_mapM _ hobjects entries hkeeps
  exact ⟨hkeeps, hmore, fun later hlater hp => ⟨hp, hstands later hlater⟩⟩

theorem registers_triplesMap {m : TriplesMap} (h : m.FitsIn tableOf) :
    Registers TermMap.Valid (fun later e => e.Stands later m) m.register := by
  have hpoms : ∀ pom ∈ m.predicateObjectMaps, Registers TermMap.Valid
      (fun later e => e.Stands later pom) pom.register :=
    fun pom hpom => registers_predicateObject (h.predicateObjectMaps pom hpom)
  refine (registers_register h.subject.valid).bind fun subject entries hkeeps => ?_
  obtain ⟨hkeeps, hmore, hstands⟩ := registers_mapM _ hpoms entries hkeeps
  exact ⟨hkeeps, hmore, fun later hlater hs => ⟨rfl, rfl, rfl, hs, hstands later hlater⟩⟩

end Registering

theorem Mapping.WellFormed.register {m : Mapping} (h : m.WellFormed) :
    m.register.Describes m ∧ Registering.Keeps TermMap.Valid m.register.termMaps := by
  have hmaps : ∀ map ∈ m.triplesMaps, Registering.Registers TermMap.Valid
      (fun later e => e.Stands later map) map.register :=
    fun map hmap => Registering.registers_triplesMap (h.fits map hmap)
  obtain ⟨hkeeps, -, hstands⟩ := Registering.registers_mapM _ hmaps [] fun id e hid => by cases hid
  exact ⟨hstands _ List.prefix_rfl, hkeeps⟩

/-! ### Promises of a register -/

namespace Register

/-- A term map is found under its number and may stand at a position. -/
def HasTerm (r : Register) (position : Position) (table : LogicalTable) (id : Nat) : Prop :=
  ∃ map : TermMap, r.termMap? id = some ⟨id, map⟩ ∧ map.FitsAt position table

/-- The maps of an object are found under their numbers. A parent shares the source or the columns
it is joined on. -/
def HasObject (r : Register) (table : LogicalTable) : ObjectEntry → Prop
  | .term id => r.HasTerm .object table id
  | .reference parent joins => ∃ e, r.triplesMap? parent = some e ∧
    (joins = [] → e.table.source = table.source) ∧
    ∀ j ∈ joins, table.Declares j.child ∧ e.table.Declares j.parent

structure WellFormed (r : Register) : Prop where
  triplesMap_id : ∀ i e, r.triplesMap? i = some e → e.id = i
  termMap_id : ∀ i e, r.termMap? i = some e → e.id = i
  names : (r.triplesMaps.map (·.name)).Nodup
  valid : ∀ e ∈ r.termMaps, e.map.Valid
  subject : ∀ e ∈ r.triplesMaps, r.HasTerm .subject e.table e.subject
  predicates : ∀ e ∈ r.triplesMaps, ∀ pom ∈ e.predicateObjectMaps, pom.predicates ≠ [] ∧
    ∀ id ∈ pom.predicates, r.HasTerm .predicate e.table id
  objects : ∀ e ∈ r.triplesMaps, ∀ pom ∈ e.predicateObjectMaps, pom.objects ≠ [] ∧
    ∀ object ∈ pom.objects, r.HasObject e.table object

/-- The numbers of term maps that a register holds. -/
def termIds (r : Register) : List Nat :=
  r.termMaps.map (·.id) ++ r.triplesMaps.flatMap fun e =>
    e.subject :: e.predicateObjectMaps.flatMap fun pom =>
      pom.predicates ++ pom.objects.filterMap fun
        | .term id => some id
        | .reference _ _ => none

/-- The numbers of triples maps that a register holds. -/
def triplesIds (r : Register) : List Nat :=
  r.triplesMaps.flatMap fun e =>
    e.id :: e.predicateObjectMaps.flatMap fun pom => pom.objects.filterMap fun
      | .term _ => none
      | .reference parent _ => some parent

variable {r : Register}

theorem WellFormed.termMap?_isSome (h : r.WellFormed) {id : Nat} (hid : id ∈ r.termIds) :
    (r.termMap? id).isSome = true := by
  have hterm : ∀ {position table id}, r.HasTerm position table id → (r.termMap? id).isSome = true :=
    fun ⟨map, hmap, _⟩ => Option.isSome_of_eq_some hmap
  rcases List.mem_append.mp hid with hid | hid
  · obtain ⟨e, he, rfl⟩ := List.mem_map.mp hid
    obtain ⟨i, hi⟩ := List.mem_iff_getElem?.mp he
    rw [h.termMap_id i e hi]
    exact Option.isSome_of_eq_some hi
  obtain ⟨e, he, hid⟩ := List.mem_flatMap.mp hid
  rcases List.mem_cons.mp hid with rfl | hid
  · exact hterm (h.subject e he)
  obtain ⟨pom, hpom, hid⟩ := List.mem_flatMap.mp hid
  rcases List.mem_append.mp hid with hid | hid
  · exact hterm ((h.predicates e he pom hpom).2 id hid)
  · obtain ⟨object, hobject, hid⟩ := List.mem_filterMap.mp hid
    have hfound := (h.objects e he pom hpom).2 object hobject
    cases object with
    | term id' =>
      cases hid
      exact hterm hfound
    | reference parent joins => cases hid

/-- A triples map that is there has its subject there. -/
theorem WellFormed.subjectOf?_isSome (h : r.WellFormed) {id : Nat} {e : TriplesEntry}
    (he : r.triplesMap? id = some e) : (r.subjectOf? id).isSome = true := by
  obtain ⟨map, hmap, -⟩ := h.subject e (List.mem_of_getElem? he)
  rw [subjectOf?, he]
  exact Option.isSome_of_eq_some hmap

theorem WellFormed.triplesMap?_isSome (h : r.WellFormed) {id : Nat} (hid : id ∈ r.triplesIds) :
    (r.triplesMap? id).isSome = true ∧ (r.subjectOf? id).isSome = true := by
  have hfound : ∃ e, r.triplesMap? id = some e := by
    obtain ⟨e, he, hid⟩ := List.mem_flatMap.mp hid
    rcases List.mem_cons.mp hid with rfl | hid
    · obtain ⟨i, hi⟩ := List.mem_iff_getElem?.mp he
      exact ⟨e, by rw [h.triplesMap_id i e hi]; exact hi⟩
    obtain ⟨pom, hpom, hid⟩ := List.mem_flatMap.mp hid
    obtain ⟨object, hobject, hid⟩ := List.mem_filterMap.mp hid
    have hfound := (h.objects e he pom hpom).2 object hobject
    cases object with
    | term id' => cases hid
    | reference parent joins =>
      cases hid
      obtain ⟨e', he', -⟩ := hfound
      exact ⟨e', he'⟩
  obtain ⟨e, he⟩ := hfound
  exact ⟨Option.isSome_of_eq_some he, h.subjectOf?_isSome he⟩

end Register

/-! ### A register keeps the promises of its mapping -/

theorem exists_of_forall₂ {α β : Type} {rel : α → β → Prop} {as : List α} {bs : List β}
    (h : List.Forall₂ rel as bs) {b : β} (hb : b ∈ bs) : ∃ a ∈ as, rel a b := by
  induction h with
  | nil => cases hb
  | cons hrel _ ih =>
    rcases List.mem_cons.mp hb with rfl | hb
    · exact ⟨_, List.mem_cons_self, hrel⟩
    · obtain ⟨a, ha, hrel⟩ := ih hb
      exact ⟨a, List.mem_cons_of_mem _ ha, hrel⟩

namespace Register

variable {r : Register} {m : Mapping}

theorem Describes.map_eq {β : Type} {f : TriplesMap → β} {g : TriplesEntry → β} (h : r.Describes m)
    (hfg : ∀ map e, TriplesEntry.Stands r.termMaps map e → f map = g e) :
    m.triplesMaps.map f = r.triplesMaps.map g := by
  rw [← List.forall₂_eq_eq_eq, List.forall₂_map_left_iff, List.forall₂_map_right_iff]
  exact List.Forall₂.imp hfg h

theorem Describes.hasObject (h : r.Describes m) {table : LogicalTable} {object : ObjectMap}
    {e : ObjectEntry} (he : e.Stands r.termMaps object) (hfits : object.FitsIn m.tableOf? table) :
    r.HasObject table e := by
  cases he with
  | term hid => exact ⟨_, hid, hfits⟩
  | @reference parent joins =>
    obtain ⟨parentTable, htable, hsource, hjoins⟩ := hfits
    have htables : (r.triplesMap? parent).map (·.table) = m.tableOf? parent := by
      rw [triplesMap?, Mapping.tableOf?, Mapping.triplesMap?, ← List.getElem?_map,
        ← List.getElem?_map, h.map_eq fun _ _ hstands => hstands.table.symm]
    rw [htable] at htables
    obtain ⟨e, he, rfl⟩ := Option.map_eq_some_iff.mp htables
    exact ⟨e, he, hsource, hjoins⟩

theorem Describes.wellFormed (h : r.Describes m) (hm : m.WellFormed)
    (hkeeps : Registering.Keeps TermMap.Valid r.termMaps) : r.WellFormed := by
  have hids : m.triplesMaps.map (·.id) = r.triplesMaps.map (·.id) :=
    h.map_eq fun _ _ hstands => hstands.id.symm
  refine ⟨fun i e hi => ?_, fun i e hi => (hkeeps i e hi).1, ?_, fun e he => ?_, fun e he => ?_,
    fun e he pom hpom => ?_, fun e he pom hpom => ?_⟩
  · have hid : (r.triplesMaps.map (·.id))[i]? = some e.id := by
      rw [List.getElem?_map]
      exact congrArg (Option.map _) hi
    rw [← hids, List.getElem?_map] at hid
    obtain ⟨map, hmap, hid⟩ := Option.map_eq_some_iff.mp hid
    exact hid.symm.trans (hm.numbered i map hmap)
  · rw [← h.map_eq fun _ _ hstands => hstands.name.symm]
    exact hm.names
  · obtain ⟨i, hi⟩ := List.mem_iff_getElem?.mp he
    exact (hkeeps i e hi).2
  · obtain ⟨map, hmap, hstands⟩ := exists_of_forall₂ h he
    exact ⟨map.subject, hstands.subject, hstands.table ▸ (hm.fits map hmap).subject⟩
  · obtain ⟨map, hmap, hstands⟩ := exists_of_forall₂ h he
    obtain ⟨m', hm', hpom⟩ := exists_of_forall₂ hstands.predicateObjectMaps hpom
    have hfits := (hm.fits map hmap).predicateObjectMaps m' hm'
    refine ⟨fun hnil => hfits.predicates_ne_nil ?_, fun id hid => ?_⟩
    · exact List.forall₂_nil_right_iff.mp (hnil ▸ hpom.predicates)
    · obtain ⟨p, hp, hid⟩ := exists_of_forall₂ hpom.predicates hid
      exact ⟨p, hid, hstands.table ▸ hfits.predicates p hp⟩
  · obtain ⟨map, hmap, hstands⟩ := exists_of_forall₂ h he
    obtain ⟨m', hm', hpom⟩ := exists_of_forall₂ hstands.predicateObjectMaps hpom
    have hfits := (hm.fits map hmap).predicateObjectMaps m' hm'
    refine ⟨fun hnil => hfits.objects_ne_nil ?_, fun object hobject => ?_⟩
    · exact List.forall₂_nil_right_iff.mp (hnil ▸ hpom.objects)
    · obtain ⟨o, ho, hobject⟩ := exists_of_forall₂ hpom.objects hobject
      exact h.hasObject hobject (hstands.table ▸ hfits.objects o ho)

end Register

/-- Every loaded mapping is well formed, and its register with it. No number that the register
holds is out of range. -/
theorem Mapping.register_wellFormed {ds : List TriplesMapDefinition} {m : Mapping}
    (h : ofDefinitions ds = .ok m) :
    m.register.Describes m ∧ m.register.WellFormed ∧
      (∀ id ∈ m.register.termIds, (m.register.termMap? id).isSome = true) ∧
      ∀ id ∈ m.register.triplesIds,
        (m.register.triplesMap? id).isSome = true ∧ (m.register.subjectOf? id).isSome = true := by
  have hm := wellFormed_of_load h
  obtain ⟨hdescribes, hkeeps⟩ := hm.register
  have hregister := hdescribes.wellFormed hm hkeeps
  exact ⟨hdescribes, hregister, fun _ hid => hregister.termMap?_isSome hid,
    fun _ hid => hregister.triplesMap?_isSome hid⟩

/-- People with a class, a name in a language, and a boss among them. -/
theorem Mapping.register_wellFormed_people :
    let columns : List Column :=
      [⟨"id", .integer, false⟩, ⟨"name", .string, true⟩, ⟨"boss", .integer, true⟩]
    let ds : List TriplesMapDefinition := [⟨"people", ⟨some "people", none, columns⟩,
      ⟨none, none, some "http://x/{id}", none, none, none⟩, ["http://x/Person"],
      [⟨["http://x/name"], [], [], [.term ⟨none, some "name", none, none, none, some "en"⟩]⟩,
        ⟨["http://x/boss"], [], [], [.reference "people" [⟨"boss", "id"⟩]]⟩]⟩]
    ∃ m, ofDefinitions ds = .ok m ∧ m.register.termIds = [0, 1, 2, 3, 4, 5, 0, 1, 2, 3, 4, 5] ∧
      m.register.triplesIds = [0, 0] ∧ m.register.WellFormed ∧
      (∀ id ∈ m.register.termIds, (m.register.termMap? id).isSome = true) ∧
      ∀ id ∈ m.register.triplesIds, (m.register.subjectOf? id).isSome = true := by
  intro columns ds
  let m : Mapping := ⟨[⟨0, "people", ⟨.table "people", columns⟩,
    ⟨.template "http://x/{id}" [.text "http://x/", .column "id"], .iri, none, none⟩,
    [⟨[.ofIri rdfType], [.term (.ofIri "http://x/Person")]⟩,
      ⟨[.ofIri "http://x/name"], [.term ⟨.column "name", .literal, none, some "en"⟩]⟩,
      ⟨[.ofIri "http://x/boss"], [.reference 0 [⟨"boss", "id"⟩]]⟩]⟩]⟩
  have hload : ofDefinitions ds = .ok m := Result.eq_ok_of_toOption (by decide +kernel)
  obtain ⟨-, hregister, hterms, htriples⟩ := register_wellFormed hload
  exact ⟨m, hload, by decide +kernel, by decide +kernel, hregister, hterms,
    fun id hid => (htriples id hid).2⟩

end VirtualGraph
