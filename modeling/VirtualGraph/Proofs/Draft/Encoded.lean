import VirtualGraph.Proofs.Bound.Loaded
import VirtualGraph.Proofs.Draft.Triples

/-!
# Constants and encoded values

In the template of an IRI the values of columns stand percent-encoded. The condition for a constant
compares them as they are, with pieces of the constant that are decoded. Decoding undoes encoding,
so the condition holds wherever the template makes the constant; but different texts may be decoded
alike, so it may hold elsewhere too. It is exact if the pieces are written as encoding writes them,
and if one of them is not, no row makes the constant.

The text between the columns of a template is decoded as well and has to be written in this way.
A template without a percent sign always is, since its comparison with a constant cuts both at their
reserved characters.
-/

namespace VirtualGraph

/-- The values of the columns of one of the rows that a block combines. -/
def ColumnIndex.record (columns : ColumnIndex) (row : Row String) (n : Nat) :
    String → Option String :=
  fun name => (columns.lookup (n, name)).bind row

namespace Pattern

variable {l r p : Pattern} {ρ : Slots} {constant : String} {pairs : List (Pattern × Pattern)}
variable {pair : Pattern × Pattern} {c : Char}

theorem isEncoded_iff_of_isConstant (h : p.isConstant = true) :
    p.IsEncoded ↔ Text.IsEncoded (String.ofList p.chars) := by
  rw [IsEncoded, items_of_isConstant h]
  split
  · rename_i hnil
    rw [hnil]
    exact iff_of_true (fun _ hi => absurd hi List.not_mem_nil) (by decide)
  · exact List.forall_mem_singleton

/-- A constant is a pattern with encoded values exactly if the condition for the two holds and the
constant is written as encoding writes it. -/
theorem render_eq_iff_matches (hl : l.isConstant = true)
    (hescaped : (l.escaped && r.escaped) = true) (hr : r.IsEncoded) (hfilled : r.Filled ρ)
    (htype : ∀ s, .slot s ∈ r.symbols → s.type = .string) :
    l.render ρ.encode = r.render ρ.encode ↔ l.Matches ρ r ∧ l.IsEncoded := by
  have hconstant : l.constant? = some (String.ofList l.chars) := if_pos hl
  obtain ⟨text, htext, hrender⟩ := exists_text?_of_isEncoded hr hfilled
  have hmatches : l.Matches ρ r ↔ Text.percentDecode (String.ofList l.chars) = text := by
    constructor
    · intro h
      obtain ⟨found, hleft, hright⟩ := h.texts
      rw [hescaped, htext] at hright
      rw [hescaped, text?_of_constant? hconstant] at hleft
      exact Option.some_inj.mp (hleft.trans hright.symm)
    · intro h
      refine ⟨⟨text, ?_, hescaped ▸ htext⟩, fun s _ hs _ => ?_, fun s _ hs _ => ?_⟩
      · rw [hescaped, text?_of_constant? hconstant, ← h]
        rfl
      · rw [constant?_eq_none hs] at hconstant
        cases hconstant
      · rw [htype s (slot_mem_items (hs ▸ List.mem_cons_self))]
        rfl
  rw [render_of_constant? hconstant, hrender, Text.eq_percentEncode_iff, hmatches,
    isEncoded_iff_of_isConstant hl]

theorem compare_ofText (constant : String) (p : Pattern) : (ofText constant true).compare p =
    .ofPairs (reduce true p.escaped (ofText constant true).symbols p.symbols) :=
  compare_eq_ofPairs _ p

/-- An escaped pattern makes a constant with encoded values exactly if the condition for the two
holds and all that is left over of the constant is written as encoding writes it. -/
theorem render_encode_eq_iff (hp : p.escaped = true) (hfilled : p.Filled ρ)
    (htype : ∀ s, .slot s ∈ p.symbols → s.type = .string)
    (hencoded : ∀ pair ∈ ((ofText constant true).compare p).residuals, pair.2.IsEncoded) :
    p.render ρ.encode = constant ↔ (ofText constant true).Equates ρ p ∧
      ∀ pair ∈ ((ofText constant true).compare p).residuals, pair.1.IsEncoded := by
  have hsame : p.render ρ.encode = constant ↔
      textOf ρ.encode (ofText constant true).symbols = textOf ρ.encode p.symbols := by
    rw [← render_eq_iff, render_ofText, eq_comm]
  have hσ := ρ.isEncoded_encode
  rw [compare_ofText] at hencoded ⊢
  rw [hsame]
  cases hpairs : reduce true p.escaped (ofText constant true).symbols p.symbols with
  | none =>
    refine iff_of_false (fun heq => ?_) fun h => ?_
    · obtain ⟨pairs, hsome, -⟩ := reduce_of_textOf_eq true p.escaped _ _ (fun _ _ => ⟨hσ, hσ⟩) heq
      cases hpairs.symm.trans hsome
    · obtain ⟨⟨pairs, hsome, -⟩, -⟩ := h
      cases hpairs.symm.trans hsome
  | some pairs =>
    rw [hpairs] at hencoded
    rw [agree_iff_of_reduce (fun _ _ => hσ) hpairs, equates_iff_of_reduce hpairs]
    -- The comparison is exact for encoded values, so each pair can be looked at by itself.
    refine (forall₂_congr fun pair hpair => ?_).trans forall₂_and
    obtain ⟨⟨hl, hr⟩, -⟩ := of_mem_reduce hpairs hpair
    have hescaped : (pair.1.escaped && pair.2.escaped) = true := by
      rw [hl, hr, hp]
      rfl
    have hsymbols := (subset_of_reduce hpairs hpair).2
    exact render_eq_iff_matches (isConstant_of_reduce hpairs hpair) hescaped (hencoded pair hpair)
      (fun s hs => hfilled s (hsymbols hs)) fun s hs => htype s (hsymbols hs)

/-! ### Templates without percent signs -/

/-- What is left over of an escaped pattern without percent signs is written as encoding writes
it. -/
theorem isEncoded_residuals (hp : p.escaped = true) (hpercent : .char '%' ∉ p.symbols)
    (constant : String) :
    ∀ pair ∈ ((ofText constant true).compare p).residuals, pair.2.IsEncoded := by
  rw [compare_ofText, hp]
  cases hpairs : reduce true true (ofText constant true).symbols p.symbols with
  | none => exact fun _ hpair => absurd hpair List.not_mem_nil
  | some pairs =>
    intro pair hpair
    refine isEncoded_of_isRunChar fun c hc => ⟨isRunChar_right_of_reduce hpairs hpair hc, ?_⟩
    rintro rfl
    exact hpercent ((subset_of_reduce hpairs hpair).2 hc)

end Pattern

namespace TermMap

variable {D : ValueDomain String} {m : TermMap} {table : LogicalTable} {columns : ColumnIndex}
variable {row : Row String} {n : Nat}

/-- A row makes the pattern with its encoded values. -/
theorem rowText_eq_render_encode (hescaped : (m.toPattern n table).escaped = true) :
    m.rowText .literal table (columns.record row n) =
      (m.toPattern n table).render (columns.slots row).encode := by
  rw [rowText_eq_render m n, hescaped]
  refine Pattern.render_congr fun s hs => ?_
  obtain ⟨rfl, -, -⟩ := Candidate.slot_mem_toPattern hs
  show Text.percentEncode ((Option.map id _).getD "") = _
  rw [Option.map_id]
  rfl

/-- The condition for an IRI and a template of IRIs over columns with texts. A row without nulls
makes the IRI exactly if the condition holds on it and all that the comparison leaves over of the
IRI is written as encoding writes it. So the condition misses no row; it holds on no other row if
the IRI is written in this way, and if it is not, no row makes it. -/
theorem equality_template_selects (hD : D.Textual) (m : TermMap) {text : String}
    {parts : List TemplatePart} (hkind : m.kind = .template text parts) (hiri : m.termType = .iri)
    (n : Nat) (table : LogicalTable) (columns : ColumnIndex)
    (hstring : ∀ name ∈ m.columns, table.columnType name = .string)
    (hcolumns : ∀ name ∈ m.columns, (columns.lookup (n, name)).isSome) (constant : String)
    (hencoded : ∀ pair ∈ ((Pattern.ofText constant true).compare (m.toPattern n table)).residuals,
      pair.2.IsEncoded) :
    ∃ c, (Pattern.ofText constant true).equality columns (m.toPattern n table) = .ok c ∧
      ∀ row : Row String, (∀ name ∈ m.columns, columns.record row n name ≠ none) →
        (m.rowText .literal table (columns.record row n) = constant ↔
          c.eval D row = .yes ∧
            ∀ pair ∈ ((Pattern.ofText constant true).compare (m.toPattern n table)).residuals,
              pair.1.IsEncoded) := by
  have hescaped : (m.toPattern n table).escaped = true := by
    rw [toPattern, hkind, hiri]
    rfl
  have hcovers : columns.Covers (m.toPattern n table) := by
    intro s hs
    obtain ⟨hrow, hcolumn, -⟩ := Candidate.slot_mem_toPattern hs
    rw [hrow]
    exact hcolumns _ hcolumn
  have hwithin : columns.Within (columns.map Prod.snd) := fun _ he => List.mem_map_of_mem he
  obtain ⟨c, hc, -, heval⟩ := ((Pattern.equality_meets hwithin
    (ColumnIndex.covers_ofText constant true) hcovers).and
    (Pattern.equality_holds hD _ _)).exists_ok
  refine ⟨c, hc, fun row hrow => ?_⟩
  rw [rowText_eq_render_encode hescaped, heval row]
  refine Pattern.render_encode_eq_iff hescaped (fun s hs => ?_) (fun s hs => ?_) hencoded
  · obtain ⟨rfl, hcolumn, -⟩ := Candidate.slot_mem_toPattern hs
    exact hrow _ hcolumn
  · obtain ⟨-, hcolumn, htype⟩ := Candidate.slot_mem_toPattern hs
    rw [htype, hstring _ hcolumn]

/-- Values with reserved characters, in a template whose text stands between two columns. -/
theorem equality_template_selects_reserved :
    let table : LogicalTable :=
      ⟨.table "p", [⟨"a", .string, false⟩, ⟨"b", .string, false⟩, ⟨"c", .string, false⟩]⟩
    let m : TermMap := ⟨.template "http://x/{a}-{b}/{c}" [.text "http://x/", .column "a", .text "-",
      .column "b", .text "/", .column "c"], .iri, none, none⟩
    let columns : ColumnIndex := [((0, "a"), 0), ((0, "b"), 1), ((0, "c"), 2)]
    let row (values : List String) : Row String := fun v => values[v]?
    let constant := "http://x/1%2F2-é/x%20y"
    ∃ c, (Pattern.ofText constant true).equality columns (m.toPattern 0 table) = .ok c ∧
      (∀ row : Row String, (∀ name ∈ m.columns, columns.record row 0 name ≠ none) →
        (c.eval .texts row = .yes ↔ m.rowText .literal table (columns.record row 0) = constant)) ∧
      c.eval .texts (row ["1/2", "é", "x y"]) = .yes ∧
      c.eval .texts (row ["1", "2-é", "x y"]) ≠ .yes := by
  intro table m columns row constant
  have hleft : ∀ pair ∈ ((Pattern.ofText constant true).compare (m.toPattern 0 table)).residuals,
      pair.1.IsEncoded := by
    decide +kernel
  obtain ⟨c, hc, hexact⟩ := equality_template_selects ValueDomain.textual_texts m rfl rfl 0 table
    columns (by decide) (by decide) constant (Pattern.isEncoded_residuals rfl (by decide) constant)
  have hiff : ∀ row : Row String, (∀ name ∈ m.columns, columns.record row 0 name ≠ none) →
      (c.eval .texts row = .yes ↔ m.rowText .literal table (columns.record row 0) = constant) :=
    fun row hrow => ((hexact row hrow).trans (and_iff_left hleft)).symm
  refine ⟨c, hc, hiff, (hiff _ (by decide)).mpr (by decide +kernel), fun hyes => ?_⟩
  exact absurd ((hiff _ (by decide)).mp hyes) (by decide +kernel)

/-- Three ways in which the condition and the template differ. An escape of a character that
encoding leaves alone is decoded, and the condition holds where the character is written. If the
template ends with the last digit of an escape, the rest of the escape is compared with values as it
is. And a percent sign between two columns is decoded apart from the digits that a value adds to it,
so that a row is missed. -/
theorem equality_template_selects_other_rows :
    let table : LogicalTable := ⟨.table "p", [⟨"a", .string, false⟩, ⟨"b", .string, false⟩]⟩
    let m (text : String) (parts : List TemplatePart) : TermMap :=
      ⟨.template text parts, .iri, none, none⟩
    let columns : ColumnIndex := [((0, "a"), 0), ((0, "b"), 1)]
    let row (values : List String) : Row String := fun v => values[v]?
    let result (m : TermMap) (constant : String) (values : List String) : Option Truth × String :=
      (((Pattern.ofText constant true).equality columns (m.toPattern 0 table)).toOption.map
          (·.eval .texts (row values)),
        m.rowText .literal table (columns.record (row values) 0))
    result (m "http://x/{a}" [.text "http://x/", .column "a"]) "http://x/%41" ["A"] =
        (some .yes, "http://x/A") ∧
      result (m "http://x/{a}0" [.text "http://x/", .column "a", .text "0"]) "http://x/%20" ["%2"] =
        (some .yes, "http://x/%2520") ∧
      result (m "http://x/{a}%{b}" [.text "http://x/", .column "a", .text "%", .column "b"])
        "http://x/1%41" ["1", "41"] = (some .no, "http://x/1%41") := by
  decide +kernel

end TermMap

end VirtualGraph
