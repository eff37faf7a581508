import VirtualGraph.Compiler
import VirtualGraph.Proofs.Block.Statement
import VirtualGraph.Proofs.Draft.Plan

/-!
# Compilation keeps its rules

A query is compiled, or refused for a projected variable that its pattern does not have, or for an
expression that cannot be compiled. There is no other outcome: the plan of a query is well built, it
stays so under optimisation, and a well-built block passes the check and has a statement.
-/

namespace VirtualGraph

/-- A plan that never breaks a rule further on: its block is well built before and after
optimisation, and holds the outputs. -/
structure Plan.Sound (s : CompilerSettings) (p : Plan) : Prop where
  planned : p.block.WellBuilt p.table
  optimised : (s.optimise p.table p.block).WellBuilt p.table
  outputs : p.outputs.map (·.2) ⊆ p.block.exposed
  outputsOptimised : p.outputs.map (·.2) ⊆ (s.optimise p.table p.block).exposed

namespace Query

variable (q : Query) (m : Mapping) (s : CompilerSettings)

/-- The optimised tree of a query, from which its plan is made. -/
def tree : BoundTree := ((BoundTree.bind m 0 q.pattern).1).optimise s.maxUnionBranches

theorem plan_tree_meets : ((q.tree m s).plan q.projected).Meets
    (BoundTree.Refused q.pattern.Plain) (Plan.Sound s) := by
  have hplain : q.pattern.Plain → (q.tree m s).Plain := fun h =>
    BoundTree.plain_optimise _ (BoundTree.plain_bind m q.pattern 0 h)
  refine ((BoundTree.plan_meets (q.tree m s) q.projected).allow
    (BoundTree.Refused.mono hplain)).mono fun p hp => ?_
  have hexposed : (s.optimise p.table p.block).exposed = p.block.exposed :=
    (Block.optimise_narrows p.table s.eliminateNullChecks s.maxPasses p.block).exposed_eq
  exact ⟨hp.1, hp.1.optimise s.eliminateNullChecks s.maxPasses, hp.2, hexposed ▸ hp.2⟩

/-- The reasons for which a query is refused. -/
def Refused (f : Fault) : Prop :=
  (∃ name ∈ q.projected, name ∉ q.pattern.variables ∧ f = .unknownVariable name) ∨
    BoundTree.Refused q.pattern.Plain f

/-- A query is refused, or compiled from a sound plan. -/
theorem compile_meets : (q.compile m s).Meets q.Refused fun c =>
    ∃ p, (q.tree m s).plan q.projected = .ok p ∧ c.table = p.table ∧
      c.block = s.optimise p.table p.block := by
  unfold compile
  dsimp only
  split
  · rename_i name hname
    have hunknown : name ∉ q.pattern.variables := by simpa using List.find?_some hname
    exact .inl ⟨name, List.mem_of_find?_eq_some hname, hunknown, rfl⟩
  · refine ((q.plan_tree_meets m s).and_eq_ok.allow fun _ => .inr).bind fun p hp => ?_
    obtain ⟨hplan, hsound⟩ := hp
    rw [(Block.validate_eq_ok _).mpr hsound.optimised.wellScoped]
    have hsql := hsound.optimised.sql s.dialect q.modifiers 0 hsound.outputsOptimised
    exact hsql.of_excluded.bind fun _ _ => ⟨p, hplan, rfl, rfl⟩

/-- Compilation never breaks its own rules. A query is compiled from its plan, or refused for a
projected variable that its pattern does not have, or for an expression; planning fails for an
expression only. The planned block and the optimised one pass the check, keep the rules of one level
on every level, and have a statement in each dialect. -/
theorem compile_keeps_rules (q : Query) (m : Mapping) (s : CompilerSettings) :
    ((∃ c p, q.compile m s = .ok c ∧ (q.tree m s).plan q.projected = .ok p ∧ c.table = p.table ∧
        c.block = s.optimise p.table p.block) ∨
      (∃ name ∈ q.projected, name ∉ q.pattern.variables ∧
        q.compile m s = .error (.unknownVariable name)) ∨
      (¬q.pattern.Plain ∧ ∃ use, q.compile m s = .error (.unsupported use))) ∧
    ((∃ p, (q.tree m s).plan q.projected = .ok p) ∨
      (¬q.pattern.Plain ∧ ∃ use, (q.tree m s).plan q.projected = .error (.unsupported use))) ∧
    ∀ p, (q.tree m s).plan q.projected = .ok p →
      ∀ b, b = p.block ∨ b = s.optimise p.table p.block →
        b.validate = .ok () ∧ b.Everywhere (Block.Regular p.table) ∧
          ∀ d modifiers next, ∃ text, (b.sql d p.table p.outputs modifiers next).1 = .ok text := by
  have hcompile := q.compile_meets m s
  have hplan := q.plan_tree_meets m s
  refine ⟨?_, ?_, ?_⟩
  · cases hc : q.compile m s with
    | ok c =>
      rw [hc] at hcompile
      obtain ⟨p, hp, htable, hblock⟩ := hcompile
      exact .inl ⟨c, p, rfl, hp, htable, hblock⟩
    | error f =>
      rw [hc] at hcompile
      obtain ⟨name, hname, hunknown, rfl⟩ | hf := hcompile
      · exact .inr (.inl ⟨name, hname, hunknown, rfl⟩)
      · obtain ⟨use, rfl⟩ := hf.exists_use
        exact .inr (.inr ⟨hf.2, use, rfl⟩)
  · cases hp : (q.tree m s).plan q.projected with
    | ok p => exact .inl ⟨p, rfl⟩
    | error f =>
      rw [hp] at hplan
      obtain ⟨use, rfl⟩ := BoundTree.Refused.exists_use hplan
      exact .inr ⟨hplan.2, use, rfl⟩
  · intro p hp b hb
    rw [hp] at hplan
    have hwellBuilt : b.WellBuilt p.table := by
      obtain rfl | rfl := hb
      · exact hplan.planned
      · exact hplan.optimised
    have houtputs : p.outputs.map (·.2) ⊆ b.exposed := by
      obtain rfl | rfl := hb
      · exact hplan.outputs
      · exact hplan.outputsOptimised
    refine ⟨(Block.validate_eq_ok b).mpr hwellBuilt.wellScoped, hwellBuilt.regular, ?_⟩
    intro d modifiers next
    obtain ⟨text, htext, -⟩ := (hwellBuilt.sql d modifiers next houtputs).exists_ok
    exact ⟨text, htext⟩

/-- The names of people with their nicknames, in either of two languages, where they have any: the
language of a nickname depends on the branch that it comes from. -/
theorem compile_keeps_rules_nicknames :
    let table : LogicalTable :=
      ⟨.table "people", [⟨"id", .integer, false⟩, ⟨"nick", .string, true⟩]⟩
    let property (name : String) (language : Option String) : PredicateObjectMap :=
      ⟨[.ofIri name], [.term ⟨.column name, .literal, none, language⟩]⟩
    let subject : TermMap := ⟨.template "p/\x7bid\x7d" [.text "p/", .column "id"], .iri, none, none⟩
    let m : Mapping := ⟨[⟨0, "people", table, subject,
      [property "name" none, property "nick" (some "en"), property "surnom" (some "fr")]⟩]⟩
    let triple (name object : String) : GraphPattern := .triple ⟨.var "s", .iri name, .var object⟩
    let q : Query := .ofPattern (.leftJoin (triple "name" "n")
      (.union [triple "nick" "k", triple "surnom" "k"]) none)
    q.pattern.Plain ∧ ∃ c, q.compile m {} = .ok c ∧ c.block.validate = .ok () ∧
      c.block.Everywhere (Block.Regular c.table) := by
  intro table property subject m triple q
  have hplain : q.pattern.Plain := ⟨trivial, ⟨trivial, trivial, trivial⟩, rfl⟩
  obtain ⟨houtcome, -, hrules⟩ := compile_keeps_rules q m {}
  obtain ⟨c, p, hc, hp, htable, hblock⟩ | ⟨name, hname, hunknown, -⟩ | ⟨hnot, -⟩ := houtcome
  · obtain ⟨hvalid, hregular, -⟩ := hrules p hp c.block (.inr hblock)
    exact ⟨hplain, c, hc, hvalid, htable ▸ hregular⟩
  · exact absurd hname hunknown
  · exact absurd hplain hnot

end Query

end VirtualGraph
