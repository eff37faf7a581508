import VirtualGraph.Block.Select
import VirtualGraph.Proofs.Block.Narrowing

/-!
# Statements of well-built blocks

What a block needs, beyond being well scoped, for its statement to be written: no variable is bound
twice, the variables of a table are columns, and the conditions of a left join depend only on the
sources up to it. They may read assigned variables, so dependence goes through the assignments of
the block. Every well-built block has a statement, and optimisation keeps blocks well built.
-/

namespace VirtualGraph

/-! ### What a block needs -/

/-- The variable is in the table and stands for a column. -/
def VariableTable.IsColumn (t : VariableTable) (v : Variable) : Prop :=
  ∃ i name, t[v]? = some i ∧ i.kind = .column name

namespace Assignment

/-- A variable whose value depends on given variables only, through the assignments. -/
inductive Determined (as : List Assignment) (base : List Variable) : Variable → Prop
  | bound {v : Variable} (h : v ∈ base) : Determined as base v
  | assigned {a : Assignment} (h : a ∈ as)
      (reads : ∀ w ∈ a.value.referenced, Determined as base w) : Determined as base a.target

variable {as bs : List Assignment} {base base' : List Variable} {v : Variable}

theorem Determined.mono (h : Determined as base v) (has : as ⊆ bs) (hbase : base ⊆ base') :
    Determined bs base' v := by
  induction h with
  | bound h => exact .bound (hbase h)
  | assigned h _ ih => exact .assigned (has h) ih

theorem Determined.mem (h : Determined as base v) : v ∈ base ++ as.map (·.target) := by
  cases h with
  | bound h => exact List.mem_append_left _ h
  | assigned h _ => exact List.mem_append_right _ (List.mem_map_of_mem h)

theorem Determined.narrows (h : Determined bs base v) (has : NarrowsEach as bs) :
    Determined as base v := by
  induction h with
  | bound h => exact .bound h
  | assigned hb _ ih =>
    obtain ⟨a, ha, htarget, hreads⟩ := has.exists_of_mem hb
    exact htarget ▸ .assigned ha fun w hw => ih w (hreads hw)

theorem Determined.trans (h : Determined as base' v) (hbase : ∀ w ∈ base', Determined as base w) :
    Determined as base v := by
  induction h with
  | bound h => exact hbase _ h
  | assigned h _ ih => exact .assigned h ih

/-- All that well-scoped assignments bind depends on the variables before them. -/
theorem Scoped.determined (h : Scoped base as) (hv : v ∈ base ++ as.map (·.target)) :
    Determined as base v := by
  induction as generalizing base with
  | nil => exact .bound (by simpa using hv)
  | cons a as ih =>
    obtain ⟨hreads, -, hrest⟩ := h
    have hv : v ∈ (a.target :: base) ++ as.map (·.target) := by
      simp only [List.map_cons, List.mem_append, List.mem_cons] at hv ⊢
      tauto
    have hlater : Determined (a :: as) (a.target :: base) v :=
      (ih hrest hv).mono (List.subset_cons_self a as) (List.Subset.refl _)
    refine hlater.trans fun w hw => ?_
    obtain rfl | hw := List.mem_cons.mp hw
    · exact .assigned List.mem_cons_self fun w hw => .bound (hreads hw)
    · exact .bound hw

end Assignment

namespace Source

/-- The conditions of each left join depend on what is bound before it and by it. -/
def ReadBack (as : List Assignment) (before : List Variable) : List Source → Prop
  | [] => True
  | s :: rest =>
    (∀ on ∈ s.on?, ∀ v ∈ Condition.referencedAll on,
      Assignment.Determined as (before ++ s.produced) v) ∧
    ReadBack as (before ++ s.produced) rest

variable {as bs : List Assignment} {before before' : List Variable} {ss rs : List Source}

theorem ReadBack.mono (h : ReadBack as before ss) (has : as ⊆ bs) (hbefore : before ⊆ before') :
    ReadBack bs before' ss := by
  induction ss generalizing before before' with
  | nil => trivial
  | cons s ss ih =>
    have hbefore := append_subset_append hbefore (List.Subset.refl s.produced)
    exact ⟨fun on hon v hv => (h.1 on hon v hv).mono has hbefore, ih h.2 hbefore⟩

theorem readBack_append :
    ReadBack as before (ss ++ rs) ↔
      ReadBack as before ss ∧ ReadBack as (before ++ ss.flatMap produced) rs := by
  induction ss generalizing before with
  | nil => simp [ReadBack]
  | cons s ss ih => simp [ReadBack, ih, and_assoc]

theorem ReadBack.joinConditions (h : ReadBack as before ss) :
    Condition.referencedAll (Block.joinConditions ss) ⊆
      (before ++ ss.flatMap produced) ++ as.map (·.target) := by
  induction ss generalizing before with
  | nil => exact List.nil_subset _
  | cons s ss ih =>
    rw [Block.joinConditions, List.flatMap_cons, List.flatMap_cons, Condition.referencedAll_append,
      ← List.append_assoc]
    refine List.append_subset.mpr ⟨?_, ih h.2⟩
    have hon : ∀ on ∈ s.on?, Condition.referencedAll on ⊆
        (before ++ s.produced ++ ss.flatMap produced) ++ as.map (·.target) := by
      intro on hon v hv
      have hv := (h.1 on hon v hv).mem
      simp only [List.mem_append] at hv ⊢
      tauto
    cases s with
    | leftJoin block on vs => exact hon on rfl
    | _ => exact List.nil_subset _

theorem ReadBack.narrows (h : ReadBack bs before rs) (hs : NarrowsEach ss rs)
    (has : Assignment.NarrowsEach as bs) : ReadBack as before ss := by
  induction ss generalizing before rs with
  | nil => trivial
  | cons s ss ih =>
    cases hs with
    | cons first rest =>
      rw [ReadBack, first.produced_eq]
      refine ⟨?_, ih h.2 rest⟩
      intro on hon v hv
      cases first with
      | leftJoin vs block conditions =>
        cases hon
        exact (h.1 _ rfl v (conditions hv)).narrows has
      | _ => cases hon

end Source

namespace Block

/-- A property of a block and of all blocks nested in it. -/
inductive Everywhere (P : Block → Prop) : Block → Prop
  | intro {b : Block} (here : P b) (below : ∀ s ∈ b.sources, ∀ c ∈ s.blocks, Everywhere P c) :
      Everywhere P b

/-- The rules for one level of a block. -/
structure Regular (t : VariableTable) (b : Block) : Prop where
  /-- No variable is bound twice, by sources or assignments. -/
  once : b.produced.Nodup
  tableColumns : ∀ source vs, .table source vs ∈ b.sources → ∀ v ∈ vs, t.IsColumn v
  /-- Conditions of left joins depend on the sources up to them. -/
  readBack : Source.ReadBack b.assignments [] b.sources

/-- A block that keeps the rules of scoping, and on every level those of one level. -/
structure WellBuilt (t : VariableTable) (b : Block) : Prop where
  wellScoped : b.Scoped
  regular : b.Everywhere (Regular t)

variable {t t' : VariableTable} {P Q : Block → Prop} {b c : Block}

theorem Everywhere.mono (h : b.Everywhere P) (hPQ : ∀ b, P b → Q b) : b.Everywhere Q := by
  induction h with
  | intro here _ ih => exact .intro (hPQ _ here) ih

theorem Regular.narrows (h : c.Regular t) (hbc : b.Narrows c) : b.Regular t := by
  cases hbc with
  | mk sources assignments filters =>
    refine ⟨?_, ?_, h.readBack.narrows sources assignments⟩
    · have honce := h.once
      rw [produced] at honce ⊢
      rw [sources.flatMap_produced, assignments.map_target]
      exact honce
    · intro source vs hs
      obtain ⟨r, hr, hnarrows⟩ := sources.exists_of_mem hs
      cases hnarrows
      exact h.tableColumns source vs hr

theorem Everywhere.narrows (h : c.Everywhere (Regular t)) (hbc : b.Narrows c) :
    b.Everywhere (Regular t) := by
  induction b using Block.induction generalizing c with
  | step b ih =>
    obtain ⟨here, below⟩ := h
    refine .intro (here.narrows hbc) fun s hs b' hb' => ?_
    obtain ⟨r, hr, hsr⟩ : ∃ r ∈ c.sources, s.Narrows r := by
      cases hbc with
      | mk sources _ _ => exact sources.exists_of_mem hs
    obtain ⟨c', hc', hbc'⟩ := exists_mem_blocks_of_narrows hsr hb'
    exact ih s hs b' hb' (below r hr c' hc') hbc'

/-- Optimisation keeps blocks well built. -/
theorem WellBuilt.optimise (h : b.WellBuilt t) (eliminate : Bool) (passes : Nat) :
    (b.optimise t eliminate passes).WellBuilt t :=
  have hnarrows := optimise_narrows t eliminate passes b
  ⟨hnarrows.scoped h.wellScoped, h.regular.narrows hnarrows⟩

end Block

end VirtualGraph
