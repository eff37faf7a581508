import Mathlib.Data.Set.Function
import VirtualGraph.Proofs.Bound.Loaded
import VirtualGraph.Proofs.Draft.Exact

/-!
# Terms that are told by the texts that show them

Values that come out of unions, left joins and extensions are texts, and they are compared by text
alone. So all terms of a query variable, whether candidates make them or extensions compute them,
have to be told apart by the texts that show them. An IRI is shown with the values of its template
as they are, though they are percent-encoded in the IRI itself. Two IRIs of one template with
several slots may be shown by one text.
-/

namespace VirtualGraph

/-- The columns of all mapped tables hold what they are declared to hold: canonical texts of their
types, and nulls only where they are nullable. -/
structure Mapping.Describes (db : Database String) (m : Mapping) : Prop where
  canonical : ∀ map ∈ m.triplesMaps, map.table.Canonical db
  nulls : ∀ map ∈ m.triplesMaps, map.table.KeepsNulls db

namespace Candidate

variable {db : Database String} {m : Mapping} {E : Setting} {c : Candidate}

/-- The terms that rows of a database make for query variables, each with the text that shows it. -/
def made (db : Database String) (c : Candidate) : Multiset (String × RdfTerm × String) :=
  ((RowChoice.all db c.rows).filter fun choice =>
    ∀ column ∈ c.columns, choice column.1 column.2 ≠ none).bind fun choice =>
      ↑(Position.all.filterMap fun p => (c.queryTerm p).varName?.map fun name =>
        (name, c.rowTerm .literal choice p, c.shownText choice p))

theorem mem_made {choice : RowChoice String} (hchoice : choice ∈ RowChoice.all db c.rows)
    (hcolumns : ∀ column ∈ c.columns, choice column.1 column.2 ≠ none) {p : Position}
    {name : String} (hp : c.queryTerm p = .var name) :
    (name, c.rowTerm .literal choice p, c.shownText choice p) ∈ c.made db := by
  refine Multiset.mem_bind.mpr ⟨choice, Multiset.mem_filter.mpr ⟨hchoice, hcolumns⟩, ?_⟩
  refine Multiset.mem_coe.mpr (List.mem_filterMap.mpr ⟨p, mem_all p, ?_⟩)
  rw [hp]
  rfl

/-- The terms of a candidate can be told if they are told from the texts that show them. -/
theorem Over.legible (h : c.Over m) (hm : m.Describes E.db) (hspelled : c.Spelled)
    (hmade : ∀ x ∈ c.made E.db, E.shown x.2.1 = x.2.2 ∧ (E.valued x.1 → E.told x.1 x.2.2 = x.2.1)) :
    c.Legible E where
  sourced := h.sourced
  tables := fun r hr => by
    obtain ⟨map, hmap, heq⟩ := h.tables r hr
    exact heq ▸ hm.canonical map hmap
  nulls := fun r hr => by
    obtain ⟨map, hmap, heq⟩ := h.tables r hr
    exact heq ▸ hm.nulls map hmap
  spelled := hspelled
  shown := fun _ hchoice hcolumns _ _ hp => hmade _ (mem_made hchoice hcolumns hp)

end Candidate

namespace BoundTree

variable {D : ValueDomain String} {S : Rendering} {db : Database String} {m : Mapping}
variable {t : BoundTree}

/-- The tree has a term for a query variable, which a candidate makes or an extension computes. -/
def Gives (D : ValueDomain String) (S : Rendering) (db : Database String) (t : BoundTree)
    (name : String) (x : RdfTerm) : Prop :=
  (∃ c ∈ t.candidates, ∃ text, (name, x, text) ∈ c.made db) ∨ t.Computes D S db name x

/-- The terms that candidates make are shown by given texts, and these tell all terms of a query
variable apart. -/
structure Legible (D : ValueDomain String) (S : Rendering) (db : Database String) (t : BoundTree) :
    Prop where
  spelled : ∀ c ∈ t.candidates, c.Spelled
  shown : ∀ c ∈ t.candidates, ∀ x ∈ c.made db, S.text x.2.1 = x.2.2
  told : ∀ name, Set.InjOn S.text {x | t.Gives D S db name x}

mutual

/-- Only extensions compute terms. -/
theorem not_computes_of_plain {name : String} {x : RdfTerm} : ∀ t : BoundTree, t.Plain →
    ¬t.Computes D S db name x
  | noMatch, _ => not_false
  | unit, _ => not_false
  | triple _, _ => not_false
  | join members, h => not_computesAny_of_plainAll members h
  | union branches, h => not_computesAny_of_plainAll branches h
  | leftJoin left right _, h => not_or.mpr
    ⟨not_computes_of_plain left h.1, not_computes_of_plain right h.2.1⟩

theorem not_computesAny_of_plainAll {name : String} {x : RdfTerm} : ∀ ts : List BoundTree,
    PlainAll ts → ¬ComputesAny D S db name x ts
  | [], _ => not_false
  | t :: rest, h => not_or.mpr
    ⟨not_computes_of_plain t h.1, not_computesAny_of_plainAll rest h.2⟩

end

/-- A tree is legible if the texts that show them tell the terms apart that its candidates make, and
those that its extensions compute from all others. -/
theorem Legible.of_made (hspelled : ∀ c ∈ t.candidates, c.Spelled)
    (hshown : ∀ c ∈ t.candidates, ∀ x ∈ c.made db, S.text x.2.1 = x.2.2)
    (hmade : ∀ c ∈ t.candidates, ∀ c' ∈ t.candidates, ∀ x ∈ c.made db, ∀ y ∈ c'.made db,
      x.1 = y.1 → x.2.2 = y.2.2 → x.2.1 = y.2.1)
    (hcomputes : ∀ name x y, t.Computes D S db name x → t.Gives D S db name y →
      S.text x = S.text y → x = y) : t.Legible D S db := by
  refine ⟨hspelled, hshown, fun name x hx y hy htext => ?_⟩
  obtain ⟨c, hc, text, hx⟩ | hx := hx
  · obtain ⟨c', hc', text', hy⟩ | hy := hy
    · refine hmade c hc c' hc' _ hx _ hy rfl ?_
      exact (hshown c hc _ hx).symm.trans (htext.trans (hshown c' hc' _ hy))
    · exact (hcomputes name y x hy (.inl ⟨c, hc, text, hx⟩) htext.symm).symm
  · exact hcomputes name x y hx hy htext

/-- The terms of a legible tree can be read off the texts that show them. -/
theorem Legible.exists_readable (h : t.Legible D S db) (hD : D.Textual) (hm : m.Describes db)
    (hover : ∀ c ∈ t.candidates, c.Over m)
    (hapart : t.candidates.Pairwise fun x y => x.rowNumbers.Disjoint y.rowNumbers) :
    ∃ E : Setting, E.domain = D ∧ E.db = db ∧ E.rendering = S ∧ (∀ name, E.valued name) ∧
      t.Readable E := by
  have : Nonempty RdfTerm := ⟨⟨.iri, ""⟩⟩
  let told (name : String) : String → RdfTerm :=
    Function.invFunOn S.text {x | t.Gives D S db name x}
  have htold : ∀ name x, t.Gives D S db name x → told name (S.text x) = x := fun name _ hx =>
    (h.told name).leftInvOn_invFunOn hx
  let E : Setting := ⟨D, hD, db, S, fun _ => True, told, fun _ hvalued => absurd trivial hvalued⟩
  refine ⟨E, rfl, rfl, rfl, fun _ => trivial, fun c hc => ?_, fun name x hx => ?_, hapart⟩
  · refine (hover c hc).legible (E := E) hm (h.spelled c hc) fun x hx =>
      ⟨h.shown c hc x hx, fun _ => ?_⟩
    rw [← h.shown c hc x hx]
    exact htold x.1 x.2.1 (.inl ⟨c, hc, x.2.2, hx⟩)
  · exact htold name x (.inr hx)

end BoundTree

end VirtualGraph
