import Mathlib.Data.List.Basic
import VirtualGraph.Block.Scope
import VirtualGraph.Proofs.Result

/-!
# Well-scoped blocks

The rules that the check of a block enforces, stated of the block as a whole: assignments read what
is bound before them and bind something new, conditions read and blocks expose what is bound, a
union binds all that its branches expose and its index besides. Beside them stand the tables that a
block reads, and the rule, not part of the check, that the sources of each block bind different
variables.
-/

namespace VirtualGraph

theorem append_subset_append {α : Type} {l l' r r' : List α} (hl : l ⊆ l') (hr : r ⊆ r') :
    l ++ r ⊆ l' ++ r' :=
  List.append_subset.mpr
    ⟨fun _ h => List.mem_append_left _ (hl h), fun _ h => List.mem_append_right _ (hr h)⟩

theorem mem_of_lookup {α β : Type} [BEq α] [LawfulBEq α] {k : α} {b : β} {l : List (α × β)}
    (h : l.lookup k = some b) : (k, b) ∈ l := by
  obtain ⟨before, after, hl, -⟩ := List.lookup_eq_some_iff.mp h
  exact hl ▸ List.mem_append_right before List.mem_cons_self

/-- Different numbers are written differently. -/
theorem toString_injective : Function.Injective (toString : Nat → String) := by
  intro n m h
  have hdigits : Nat.toDigits 10 n = Nat.toDigits 10 m := by
    simpa using congrArg String.toList h
  have hvalue (k : Nat) : Nat.ofDigitChars 10 (Nat.toDigits 10 k) 0 = k :=
    Nat.ofDigitChars_toDigits (by decide) (by decide)
  rw [← hvalue n, hdigits, hvalue]

namespace Condition

variable {cs : List Condition} {v : Variable}

theorem mem_referencedAll : v ∈ referencedAll cs ↔ ∃ c ∈ cs, v ∈ c.referenced := by
  induction cs with
  | nil => simp [referencedAll]
  | cons c cs ih => simp [referencedAll, ih]

theorem referencedAll_append (cs ds : List Condition) :
    referencedAll (cs ++ ds) = referencedAll cs ++ referencedAll ds := by
  induction cs with
  | nil => rfl
  | cons c cs ih => simp [referencedAll, ih]

theorem referencedAll_subset {vs : List Variable} :
    referencedAll cs ⊆ vs ↔ ∀ c ∈ cs, c.referenced ⊆ vs := by
  constructor
  · intro h c hc v hv
    exact h (mem_referencedAll.mpr ⟨c, hc, hv⟩)
  · intro h v hv
    obtain ⟨c, hc, hv⟩ := mem_referencedAll.mp hv
    exact h c hc hv

end Condition

namespace Source

/-- The conditions of a left join. -/
def on? : Source → Option (List Condition)
  | leftJoin _ on _ => some on
  | _ => none

/-- The blocks nested in a source. -/
def blocks : Source → List Block
  | table _ _ => []
  | nested block _ => [block]
  | union _ branches _ => branches
  | leftJoin block _ _ => [block]

end Source

/-- A property of blocks holds of all if it passes from the blocks nested in a block to the
block. -/
theorem Block.induction {P : Block → Prop}
    (step : ∀ b : Block, (∀ s ∈ b.sources, ∀ c ∈ s.blocks, P c) → P b) (b : Block) : P b :=
  @Block.rec P (fun s => ∀ c ∈ s.blocks, P c) (fun ss => ∀ s ∈ ss, ∀ c ∈ s.blocks, P c)
    (fun bs => ∀ b ∈ bs, P b)
    (fun _ _ _ _ hs => step _ hs) (fun _ _ _ hc => absurd hc List.not_mem_nil)
    (fun _ _ hb => List.forall_mem_singleton.mpr hb) (fun _ _ _ hbs => hbs)
    (fun _ _ _ hb => List.forall_mem_singleton.mpr hb)
    (fun _ h => absurd h List.not_mem_nil) (fun _ _ hs hss => List.forall_mem_cons.mpr ⟨hs, hss⟩)
    (fun _ h => absurd h List.not_mem_nil) (fun _ _ hb hbs => List.forall_mem_cons.mpr ⟨hb, hbs⟩) b

namespace Assignment

/-- Each assignment reads what is in scope before it and binds a variable that is not. -/
def Scoped : List Variable → List Assignment → Prop
  | _, [] => True
  | scope, a :: rest =>
    a.value.referenced ⊆ scope ∧ a.target ∉ scope ∧ Scoped (a.target :: scope) rest

variable {as bs : List Assignment} {scope scope' : List Variable} {v : Variable}

theorem scoped_append :
    Scoped scope (as ++ bs) ↔
      Scoped scope as ∧ Scoped ((as.map (·.target)).reverse ++ scope) bs := by
  induction as generalizing scope with
  | nil => simp [Scoped]
  | cons a as ih => simp [Scoped, ih, and_assoc]

theorem Scoped.not_mem_targets (h : Scoped scope as) (hv : v ∈ scope) :
    v ∉ as.map (·.target) := by
  induction as generalizing scope with
  | nil => exact List.not_mem_nil
  | cons a as ih =>
    obtain ⟨-, hnew, hrest⟩ := h
    rw [List.map_cons, List.mem_cons, not_or]
    exact ⟨fun heq => hnew (heq ▸ hv), ih hrest (List.mem_cons_of_mem _ hv)⟩

theorem Scoped.target_not_mem (h : Scoped scope as) {a : Assignment} (ha : a ∈ as) :
    a.target ∉ scope :=
  fun hmem => h.not_mem_targets hmem (List.mem_map_of_mem ha)

/-- An assignment reads what is in scope before it. -/
theorem Scoped.reads {a : Assignment} (h : Scoped scope (as ++ a :: bs)) :
    a.value.referenced ⊆ scope ++ as.map (·.target) := by
  intro v hv
  have hv := (scoped_append.mp h).2.1 hv
  simpa [or_comm] using hv

/-- Further variables may come before assignments that do not bind them. -/
theorem Scoped.mono (h : Scoped scope as) (hscope : scope ⊆ scope')
    (hnew : ∀ a ∈ as, a.target ∉ scope') : Scoped scope' as := by
  induction as generalizing scope scope' with
  | nil => trivial
  | cons a as ih =>
    rw [List.forall_mem_cons] at hnew
    refine ⟨List.Subset.trans h.1 hscope, hnew.1, ?_⟩
    refine ih h.2.2 (List.cons_subset_cons _ hscope) fun b hb => ?_
    have hne := h.2.2.target_not_mem hb
    rw [List.mem_cons, not_or] at hne ⊢
    exact ⟨hne.1, hnew.2 b hb⟩

end Assignment

mutual

/-- Every variable of a block is bound where it is read. -/
def Block.Scoped : Block → Prop
  | ⟨exposed, sources, assignments, filters⟩ =>
    Source.ScopedEach sources ∧
    Assignment.Scoped (sources.flatMap Source.produced) assignments ∧
    Condition.referencedAll (Block.joinConditions sources) ⊆
      sources.flatMap Source.produced ++ assignments.map (·.target) ∧
    Condition.referencedAll filters ⊆
      sources.flatMap Source.produced ++ assignments.map (·.target) ∧
    exposed ⊆ sources.flatMap Source.produced ++ assignments.map (·.target)
termination_by structural x => x

def Block.ScopedBranches (vs : List Variable) : List Block → Prop
  | [] => True
  | b :: rest => Block.Scoped b ∧ b.exposed ⊆ vs ∧ Block.ScopedBranches vs rest
termination_by structural x => x

def Source.Scoped : Source → Prop
  | .table _ _ => True
  | .nested block vs => Block.Scoped block ∧ vs ⊆ block.exposed
  | .union index branches vs =>
    index ∉ vs ∧ Block.ScopedBranches vs branches
  | .leftJoin block _ vs => Block.Scoped block ∧ vs ⊆ block.exposed
termination_by structural x => x

def Source.ScopedEach : List Source → Prop
  | [] => True
  | s :: rest => Source.Scoped s ∧ Source.ScopedEach rest
termination_by structural x => x

end

theorem Source.scopedEach_iff {ss : List Source} : ScopedEach ss ↔ ∀ s ∈ ss, s.Scoped := by
  induction ss with
  | nil => simp [ScopedEach]
  | cons s ss ih => simp [ScopedEach, ih]

theorem Block.scopedBranches_iff {vs : List Variable} {bs : List Block} :
    ScopedBranches vs bs ↔ ∀ b ∈ bs, b.Scoped ∧ b.exposed ⊆ vs := by
  induction bs with
  | nil => simp [ScopedBranches]
  | cons b bs ih => simp [ScopedBranches, ih, and_assoc]

theorem Source.Scoped.block {s : Source} {c : Block} (h : s.Scoped) (hc : c ∈ s.blocks) :
    c.Scoped := by
  cases s with
  | table source vs => exact absurd hc List.not_mem_nil
  | nested b vs => exact List.mem_singleton.mp hc ▸ h.1
  | union index branches vs => exact (Block.scopedBranches_iff.mp h.2 c hc).1
  | leftJoin b on vs => exact List.mem_singleton.mp hc ▸ h.1

namespace Block

variable {b c : Block} {s : Source}

theorem Scoped.source (h : b.Scoped) (hs : s ∈ b.sources) : s.Scoped := by
  obtain ⟨exposed, sources, assignments, filters⟩ := b
  exact Source.scopedEach_iff.mp h.1 s hs

theorem Scoped.assignments (h : b.Scoped) :
    Assignment.Scoped (b.sources.flatMap Source.produced) b.assignments := by
  obtain ⟨exposed, sources, assignments, filters⟩ := b
  exact h.2.1

theorem Scoped.filters (h : b.Scoped) : Condition.referencedAll b.filters ⊆ b.produced := by
  obtain ⟨exposed, sources, assignments, filters⟩ := b
  exact h.2.2.2.1

theorem Scoped.exposed (h : b.Scoped) : b.exposed ⊆ b.produced := by
  obtain ⟨exposed, sources, assignments, filters⟩ := b
  exact h.2.2.2.2

section Check

variable {scope scope' read : List Variable} {problem : Variable → ScopeProblem}

theorem find?_not_contains_eq_none :
    read.find? (!scope.contains ·) = none ↔ read ⊆ scope := by
  simp [List.subset_def]

theorem checkRead_eq_ok : checkRead scope problem read = .ok () ↔ read ⊆ scope := by
  rw [← find?_not_contains_eq_none, checkRead]
  cases read.find? (!scope.contains ·) <;> simp

theorem checkExposes_eq_ok {exposed vs : List Variable} :
    checkExposes exposed vs = .ok () ↔ vs ⊆ exposed := by
  rw [← find?_not_contains_eq_none, checkExposes]
  cases vs.find? (!exposed.contains ·) <;> simp

theorem checkConditions_eq_ok {cs : List Condition} :
    checkConditions scope problem cs = .ok () ↔ Condition.referencedAll cs ⊆ scope := by
  induction cs with
  | nil => simp [checkConditions, Condition.referencedAll]
  | cons c cs ih =>
    simp [checkConditions, Condition.referencedAll, Result.seq_eq_ok, checkRead_eq_ok, ih]

theorem checkAssignments_eq_ok {as : List Assignment} :
    checkAssignments scope as = .ok scope' ↔
      Assignment.Scoped scope as ∧ scope' = (as.map (·.target)).reverse ++ scope := by
  induction as generalizing scope with
  | nil => simp [checkAssignments, Assignment.Scoped, eq_comm]
  | cons a as ih =>
    by_cases ht : a.target ∈ scope
    · simp [checkAssignments, Assignment.Scoped, Result.seq_eq_ok, ht]
    · simp [checkAssignments, Assignment.Scoped, Result.seq_eq_ok, checkRead_eq_ok, ht, ih,
        and_assoc]

end Check

mutual

/-- The check accepts exactly the well-scoped blocks. -/
theorem validate_eq_ok : ∀ b : Block, validate b = .ok () ↔ b.Scoped
  | ⟨exposed, sources, assignments, filters⟩ => by
    have hsub : ∀ vs : List Variable,
        vs ⊆ (assignments.map (·.target)).reverse ++ sources.flatMap Source.produced ↔
          vs ⊆ sources.flatMap Source.produced ++ assignments.map (·.target) := by
      intro vs
      simp only [List.subset_def, List.mem_append, List.mem_reverse, or_comm]
    have hexposed : ∀ scope : List Variable,
        (match exposed.find? (!scope.contains ·) with
          | some v => .error (scopeFault (.exposesUnproduced v))
          | none => .ok () : Result Unit) = .ok () ↔ exposed ⊆ scope := by
      intro scope
      rw [← find?_not_contains_eq_none]
      cases exposed.find? (!scope.contains ·) <;> simp
    rw [validate, Scoped, ← validateSources_eq_ok sources, Result.seq_eq_ok, Result.bind_eq_ok]
    simp only [Result.seq_eq_ok, checkAssignments_eq_ok, checkConditions_eq_ok]
    constructor
    · rintro ⟨hs, _, ⟨ha, rfl⟩, hon, hf, he⟩
      exact ⟨hs, ha, (hsub _).mp hon, (hsub _).mp hf, (hsub _).mp ((hexposed _).mp he)⟩
    · rintro ⟨hs, ha, hon, hf, he⟩
      exact ⟨hs, _, ⟨ha, rfl⟩, (hsub _).mpr hon, (hsub _).mpr hf,
        (hexposed _).mpr ((hsub _).mpr he)⟩

theorem validateSources_eq_ok :
    ∀ sources : List Source, validateSources sources = .ok () ↔ Source.ScopedEach sources
  | [] => by simp [validateSources, Source.ScopedEach]
  | s :: rest => by
    simp [validateSources, Source.ScopedEach, Result.seq_eq_ok, validateSource_eq_ok s,
      validateSources_eq_ok rest]

theorem validateSource_eq_ok : ∀ s : Source, validateSource s = .ok () ↔ s.Scoped
  | .table _ _ => by simp [validateSource, Source.Scoped]
  | .nested block vs => by
    simp [validateSource, Source.Scoped, Result.seq_eq_ok, validate_eq_ok block,
      checkExposes_eq_ok]
  | .union index branches vs => by
    rw [validateSource, Source.Scoped, ← validateBranches_eq_ok vs branches]
    by_cases h : index ∈ vs <;> simp [h]
  | .leftJoin block on vs => by
    simp [validateSource, Source.Scoped, Result.seq_eq_ok, validate_eq_ok block,
      checkExposes_eq_ok]

theorem validateBranches_eq_ok (vs : List Variable) : ∀ branches : List Block,
    validateBranches vs branches = .ok () ↔ ScopedBranches vs branches
  | [] => by simp [validateBranches, ScopedBranches]
  | b :: rest => by
    rw [validateBranches, ScopedBranches, ← validate_eq_ok b,
      ← validateBranches_eq_ok vs rest, ← find?_not_contains_eq_none]
    cases b.exposed.find? (!vs.contains ·) <;> simp [Result.seq_eq_ok]

end

mutual

/-- No block binds a variable in two sources. -/
def Apart : Block → Prop
  | ⟨_, sources, _, _⟩ =>
    (sources.map Source.produced).Pairwise List.Disjoint ∧ ApartSources sources
termination_by structural x => x

def ApartBranches : List Block → Prop
  | [] => True
  | b :: rest => Apart b ∧ ApartBranches rest
termination_by structural x => x

def ApartSource : Source → Prop
  | .table _ _ => True
  | .nested block _ => Apart block
  | .union _ branches _ => ApartBranches branches
  | .leftJoin block _ _ => Apart block
termination_by structural x => x

def ApartSources : List Source → Prop
  | [] => True
  | s :: rest => ApartSource s ∧ ApartSources rest
termination_by structural x => x

end

mutual

/-- The tables that a block reads, with the variables of their columns. -/
def tables : Block → List (TableSource × List Variable)
  | ⟨_, sources, _, _⟩ => tablesOfSources sources
termination_by structural x => x

def tablesOfBranches : List Block → List (TableSource × List Variable)
  | [] => []
  | b :: rest => tables b ++ tablesOfBranches rest
termination_by structural x => x

def tablesOfSource : Source → List (TableSource × List Variable)
  | .table source vs => [(source, vs)]
  | .nested block _ => tables block
  | .union _ branches _ => tablesOfBranches branches
  | .leftJoin block _ _ => tables block
termination_by structural x => x

def tablesOfSources : List Source → List (TableSource × List Variable)
  | [] => []
  | s :: rest => tablesOfSource s ++ tablesOfSources rest
termination_by structural x => x

end

theorem apartSources_iff {ss : List Source} : ApartSources ss ↔ ∀ s ∈ ss, ApartSource s := by
  induction ss with
  | nil => simp [ApartSources]
  | cons s ss ih => simp [ApartSources, ih]

theorem apartBranches_iff {bs : List Block} : ApartBranches bs ↔ ∀ b ∈ bs, b.Apart := by
  induction bs with
  | nil => simp [ApartBranches]
  | cons b bs ih => simp [ApartBranches, ih]

theorem tablesOfSources_eq (ss : List Source) : tablesOfSources ss = ss.flatMap tablesOfSource := by
  induction ss with
  | nil => rfl
  | cons s ss ih => rw [tablesOfSources, ih, List.flatMap_cons]

theorem tablesOfBranches_eq (bs : List Block) : tablesOfBranches bs = bs.flatMap tables := by
  induction bs with
  | nil => rfl
  | cons b bs ih => rw [tablesOfBranches, ih, List.flatMap_cons]

theorem Apart.source (h : b.Apart) (hs : s ∈ b.sources) : ApartSource s := by
  obtain ⟨exposed, sources, assignments, filters⟩ := b
  exact apartSources_iff.mp h.2 s hs

theorem ApartSource.block (h : ApartSource s) (hc : c ∈ s.blocks) : c.Apart := by
  cases s with
  | table source vs => exact absurd hc List.not_mem_nil
  | nested b vs => exact List.mem_singleton.mp hc ▸ h
  | union index branches vs => exact apartBranches_iff.mp h c hc
  | leftJoin b on vs => exact List.mem_singleton.mp hc ▸ h

theorem tablesOfSource_subset (hs : s ∈ b.sources) : tablesOfSource s ⊆ b.tables := by
  obtain ⟨exposed, sources, assignments, filters⟩ := b
  rw [tables, tablesOfSources_eq]
  exact fun table htable => List.mem_flatMap.mpr ⟨s, hs, htable⟩

theorem tables_subset (hc : c ∈ s.blocks) : c.tables ⊆ tablesOfSource s := by
  cases s with
  | table source vs => exact absurd hc List.not_mem_nil
  | nested b vs => exact List.mem_singleton.mp hc ▸ List.Subset.refl _
  | union index branches vs =>
    rw [tablesOfSource, tablesOfBranches_eq]
    exact fun table htable => List.mem_flatMap.mpr ⟨c, hc, htable⟩
  | leftJoin b on vs => exact List.mem_singleton.mp hc ▸ List.Subset.refl _

end Block

end VirtualGraph
