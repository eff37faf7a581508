import VirtualGraph.Proofs.Bound.Solutions

/-!
# Terms that candidates make

The term that a row makes at a position is one of those that the candidate is said to make there: it
has the shape that was announced, and its text is the pattern with the slots filled by values, which
are percent-encoded if the pattern is escaped. A term that two descriptions share is no evidence
against their being equal, so whatever is reported as never equal has no term in common, and a
candidate that cannot match has no solution.
-/

namespace VirtualGraph

variable {α : Type} {I : Interpretation α} {db : Database α}

namespace Text

theorem isRunChar_hexDigit {n : Nat} (h : n < 16) : Pattern.isRunChar (hexDigit n) = true :=
  (by decide : ∀ n < 16, Pattern.isRunChar (hexDigit n) = true) n h

theorem isRunChar_of_isUnreserved {c : Char} (h : isUnreserved c = true) :
    Pattern.isRunChar c = true := by
  simp only [isUnreserved, Pattern.isRunChar, Bool.or_eq_true] at h ⊢
  tauto

theorem toNat_lt_of_reserved {c : Char} (h : isUnreserved c = false) : c.toNat < 0x80 := by
  simp only [isUnreserved, Bool.or_eq_false_iff, decide_eq_false_iff_not] at h
  omega

theorem isRunChar_of_mem_percentEscape {c d : Char} (h : isUnreserved c = false)
    (hd : d ∈ percentEscape c) : Pattern.isRunChar d = true := by
  have hlt := toNat_lt_of_reserved h
  have hbytes : utf8Bytes c = [c.toNat] := by simp [utf8Bytes, hlt]
  rw [percentEscape, hbytes, List.flatMap_singleton] at hd
  simp only [List.mem_cons, List.not_mem_nil, or_false] at hd
  obtain rfl | rfl | rfl := hd
  · decide
  · exact isRunChar_hexDigit (by omega)
  · exact isRunChar_hexDigit (by omega)

/-- A percent-encoded text holds no reserved character. -/
theorem isRunChar_of_mem_percentEncode {s : String} {c : Char} (h : c ∈ (percentEncode s).toList) :
    Pattern.isRunChar c = true := by
  rw [percentEncode, String.toList_ofList, List.mem_flatMap] at h
  obtain ⟨d, -, hc⟩ := h
  cases hd : isUnreserved d with
  | true =>
    rw [hd, if_pos rfl, List.mem_singleton] at hc
    exact hc ▸ isRunChar_of_isUnreserved hd
  | false =>
    rw [hd, if_neg Bool.false_ne_true] at hc
    exact isRunChar_of_mem_percentEscape hd hc

end Text

@[simp] theorem Pattern.render_ofText {text : String} {escaped : Bool} {σ : Valuation} :
    (Pattern.ofText text escaped).render σ = text := by
  rw [Pattern.render, Pattern.ofText, Pattern.textOf_chars, String.ofList_toList]

namespace BoundTerm

variable {a b : BoundTerm} {t : Term} {x : RdfTerm}

/-- A term has the shape of a bound term and a text of its pattern. -/
def Realises (b : BoundTerm) (x : RdfTerm) : Prop :=
  x.shape = b.shape ∧
    ∃ σ : Valuation, (b.pattern.escaped = true → σ.IsEncoded) ∧ x.text = b.pattern.render σ

/-- Bound terms that share a term may be equal. -/
theorem Realises.canEqual (ha : a.Realises x) (hb : b.Realises x) : a.canEqual b = true := by
  obtain ⟨hshape, σ, hσ, htext⟩ := ha
  obtain ⟨hshape', τ, hτ, htext'⟩ := hb
  have hmatch : (a.pattern.compare b.pattern).neverMatch ≠ true := fun h =>
    Pattern.render_ne_of_neverMatch (fun ha hb => ⟨hσ ha, hτ hb⟩) h (htext.symm.trans htext')
  simp [BoundTerm.canEqual, ← hshape, ← hshape', hmatch]

theorem exists_constant (h : ofTerm? t = some a) :
    ∃ x, RdfTerm.ofConstant? t = some x ∧ a.Realises x := by
  have hencoded : Valuation.IsEncoded fun _ => "" := fun _ _ hc => by simp at hc
  cases t with
  | var name => cases h
  | iri i =>
    cases h
    exact ⟨_, rfl, rfl, fun _ => "", fun _ => hencoded, Pattern.render_ofText.symm⟩
  | literal l =>
    cases h
    exact ⟨_, rfl, rfl, fun _ => "", fun _ => hencoded, Pattern.render_ofText.symm⟩

end BoundTerm

namespace TermMap

/-- How a row fills the slots of a pattern. -/
def fill (I : Interpretation α) (escaped : Bool) (columns : String → Option α) : Valuation :=
  fun s =>
    let text := ((columns s.column).map (I.text s.type)).getD ""
    if escaped then Text.percentEncode text else text

theorem fill_isEncoded (columns : String → Option α) : (fill I true columns).IsEncoded :=
  fun _ _ hc => Text.isRunChar_of_mem_percentEncode hc

theorem render_template (parts : List TemplatePart) (row : Nat) (table : LogicalTable)
    (columns : String → Option α) (iri : Bool) :
    Pattern.textOf (fill I iri columns)
        (Pattern.ofTemplate parts row iri table.columnType).symbols =
      parts.flatMap fun
        | .text t => t.toList
        | .column name =>
          if iri then (Text.percentEncode (columnText I table columns name)).toList
          else (columnText I table columns name).toList := by
  induction parts with
  | nil => rfl
  | cons part parts ih =>
    rw [List.flatMap_cons, ← ih]
    cases part with
    | text t =>
      refine (Pattern.textOf_append _ _).trans (congrArg₂ (· ++ ·) ?_ rfl)
      exact Pattern.textOf_chars t.toList
    | column name => cases iri <;> rfl

/-- The text that a row makes is the pattern filled from the row. -/
theorem rowText_eq_render (m : TermMap) (row : Nat) (table : LogicalTable)
    (columns : String → Option α) : m.rowText I table columns =
      (m.toPattern row table).render (fill I (m.toPattern row table).escaped columns) := by
  obtain ⟨kind, termType, datatype, language⟩ := m
  cases kind with
  | constant value => exact Pattern.render_ofText.symm
  | column name =>
    show columnText I table columns name = String.ofList (_ ++ [])
    rw [List.append_nil]
    exact String.ofList_toList.symm
  | template text parts =>
    exact congrArg String.ofList (render_template parts row table columns (termType == .iri)).symm

/-- The text that shows the term of a row, with the values of columns as they are. -/
def shownText (I : Interpretation α) (table : LogicalTable) (columns : String → Option α)
    (m : TermMap) : String :=
  rowText I table columns { m with termType := .literal }

theorem shownText_eq_render (m : TermMap) (row : Nat) (table : LogicalTable)
    (columns : String → Option α) : m.shownText I table columns =
      (m.toPattern row table).render (fill I false columns) := by
  obtain ⟨kind, termType, datatype, language⟩ := m
  rw [shownText, rowText_eq_render _ row]
  cases kind <;> rfl

/-- The texts that a term map has for itself, and not from a row. -/
def constants (m : TermMap) : List String :=
  match m.kind with
  | .constant value => [value]
  | .column _ => []
  | .template _ parts => parts.filterMap fun
    | .text text => some text
    | .column _ => none

theorem mem_constants_of_char {m : TermMap} {row : Nat} {table : LogicalTable} {c : Char}
    (h : .char c ∈ (m.toPattern row table).symbols) : ∃ s ∈ m.constants, c ∈ s.toList := by
  obtain ⟨kind, type, datatype, language⟩ := m
  cases kind with
  | constant value =>
    obtain ⟨c', hc, heq⟩ := List.mem_map.mp h
    cases heq
    exact ⟨value, List.mem_singleton_self value, hc⟩
  | column name => cases List.mem_singleton.mp h
  | template text parts =>
    obtain ⟨item, hitem, hc⟩ := List.mem_flatMap.mp h
    obtain ⟨part, hpart, rfl⟩ := List.mem_map.mp hitem
    cases part with
    | text t =>
      obtain ⟨c', hc, heq⟩ := List.mem_map.mp hc
      cases heq
      exact ⟨t, List.mem_filterMap.mpr ⟨.text t, hpart, rfl⟩, hc⟩
    | column name => cases List.mem_singleton.mp hc

/-- Only the values in an IRI are encoded. -/
theorem termType_of_escaped {m : TermMap} {row : Nat} {table : LogicalTable}
    (h : (m.toPattern row table).escaped = true) : m.termType = .iri := by
  obtain ⟨kind, termType, datatype, language⟩ := m
  cases kind with
  | constant value => exact eq_of_beq h
  | column name => cases h
  | template text parts => exact eq_of_beq h

/-- The term that a row makes is one of those announced. -/
theorem realises_rowTerm (m : TermMap) (row : Nat) (table : LogicalTable)
    (columns : String → Option α) :
    BoundTerm.Realises ⟨m.toPattern row table, .ofTermMap m table⟩ (m.rowTerm I table columns) :=
  ⟨rfl, fill I (m.toPattern row table).escaped columns, fun h => h ▸ fill_isEncoded columns,
    rowText_eq_render m row table columns⟩

end TermMap

namespace Solution

/-- A solution binds a name to a term of a bound term. -/
def Realises (a : Solution) (binding : String × BoundTerm) : Prop :=
  ∃ x, a binding.1 = some x ∧ binding.2.Realises x

variable {a : Solution} {bindings firsts : List (String × BoundTerm)}

theorem agreeFrom_of_realises (hfirsts : ∀ b ∈ firsts, a.Realises b)
    (h : ∀ b ∈ bindings, a.Realises b) : BoundTerm.agreeFrom firsts bindings = true := by
  induction bindings generalizing firsts with
  | nil => rfl
  | cons b bindings ih =>
    obtain ⟨name, term⟩ := b
    obtain ⟨hb, hrest⟩ := List.forall_mem_cons.mp h
    rw [BoundTerm.agreeFrom]
    cases hlookup : firsts.lookup name with
    | none => exact ih (List.forall_mem_cons.mpr ⟨hb, hfirsts⟩) hrest
    | some first =>
      obtain ⟨x, hx, hterm⟩ := hb
      have hmem : (name, first) ∈ firsts := by
        obtain ⟨before, after, rfl, -⟩ := List.lookup_eq_some_iff.mp hlookup
        exact List.mem_append_right _ List.mem_cons_self
      obtain ⟨y, hy, hfirst⟩ := hfirsts _ hmem
      obtain rfl : x = y := Option.some_inj.mp (hx.symm.trans hy)
      rw [Bool.and_eq_true]
      exact ⟨hfirst.canEqual hterm, ih hfirsts hrest⟩

/-- Bindings that one solution realises may agree. -/
theorem agree_of_realises (h : ∀ b ∈ bindings, a.Realises b) : BoundTerm.agree bindings = true :=
  agreeFrom_of_realises (fun _ hb => absurd hb List.not_mem_nil) h

end Solution

namespace Candidate

variable {c : Candidate} {rows : RowChoice α} {p : Position} {name : String}

theorem mem_all (p : Position) : p ∈ Position.all := by
  cases p <;> decide

theorem realises_rowTerm (c : Candidate) (rows : RowChoice α) (p : Position) :
    (c.term p).Realises (c.rowTerm I rows p) :=
  TermMap.realises_rowTerm _ _ _ _

/-- All positions of a variable have the term that it is bound to. -/
theorem Admits.solution_eq (h : c.Admits I rows) (hp : c.queryTerm p = .var name) :
    c.solution I rows name = some (c.rowTerm I rows p) := by
  rw [solution]
  cases hfind : Position.all.find? (c.queryTerm · = .var name) with
  | none =>
    have := List.find?_eq_none.mp hfind p (mem_all p)
    simp [hp] at this
  | some q =>
    have hq : c.queryTerm q = .var name := by simpa using List.find?_some hfind
    rw [Option.map_some, h.repeated q p name hq hp]

theorem mem_bindings {b : String × BoundTerm} (h : b ∈ c.bindings) :
    ∃ p, c.queryTerm p = .var b.1 ∧ b.2 = c.term p := by
  obtain ⟨p, -, hp⟩ := List.mem_filterMap.mp h
  obtain ⟨name, hname, rfl⟩ := Option.map_eq_some_iff.mp hp
  refine ⟨p, ?_, rfl⟩
  cases hterm : c.queryTerm p with
  | var n =>
    rw [hterm] at hname
    cases hname
    rfl
  | _ =>
    rw [hterm] at hname
    cases hname

theorem Admits.realises_bindings (h : c.Admits I rows) :
    ∀ b ∈ c.bindings, (c.solution I rows).Realises b := by
  intro b hb
  obtain ⟨p, hp, hterm⟩ := mem_bindings hb
  exact ⟨_, h.solution_eq hp, hterm ▸ realises_rowTerm c rows p⟩

theorem Admits.canMatch (h : c.Admits I rows) : c.canMatch = true := by
  rw [Candidate.canMatch, Bool.and_eq_true, List.all_eq_true]
  refine ⟨fun p _ => ?_, Solution.agree_of_realises h.realises_bindings⟩
  rw [BoundTerm.canMatch]
  cases hterm : BoundTerm.ofTerm? (c.queryTerm p) with
  | none => rfl
  | some a =>
    obtain ⟨x, hx, ha⟩ := BoundTerm.exists_constant hterm
    exact ha.canEqual (h.constants p x hx ▸ realises_rowTerm c rows p)

open Classical in
theorem mem_solutions {a : Solution} (h : a ∈ c.solutions I db) :
    ∃ rows : RowChoice α, c.Admits I rows ∧ a = c.solution I rows := by
  obtain ⟨rows, hrows, rfl⟩ := Multiset.mem_map.mp h
  exact ⟨rows, (Multiset.mem_filter.mp hrows).2, rfl⟩

/-- A candidate that cannot match has no solution. -/
theorem solutions_eq_zero (h : c.canMatch = false) : c.solutions I db = 0 := by
  refine Multiset.eq_zero_of_forall_notMem fun a ha => ?_
  obtain ⟨rows, hadmits, -⟩ := mem_solutions ha
  simp [hadmits.canMatch] at h

theorem mem_variables_of_mem_bindings {b : String × BoundTerm} (h : b ∈ c.bindings) :
    b.1 ∈ c.pattern.variables := by
  obtain ⟨p, hp, -⟩ := mem_bindings h
  refine List.mem_filterMap.mpr ⟨c.queryTerm p, ?_, by rw [hp]; rfl⟩
  cases p <;> simp [queryTerm, TriplePattern.terms]

end Candidate

end VirtualGraph
