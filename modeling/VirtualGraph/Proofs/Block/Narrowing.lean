import Mathlib.Data.List.Forall2
import VirtualGraph.Proofs.Block.Revision
import VirtualGraph.Proofs.Block.Scope

/-!
# Narrowing of blocks

What the steps of optimisation do to the outline of a block. They change conditions and the values
of assignments only, and what they put there reads no variable that was not read in the same place
before. Whatever depends on the outline and on an upper bound of what is read is therefore kept,
the rules of scoping among it.
-/

namespace VirtualGraph

namespace Condition

variable {k : Connective} {c : Condition} {cs items : List Condition} {vs : List Variable}

@[simp] theorem referenced_apply : (k.apply items).referenced = referencedAll items := by
  cases k <;> rfl

@[simp] theorem referenced_absorbing : k.absorbing.referenced = [] := by
  cases k <;> rfl

@[simp] theorem referenced_neutral : k.neutral.referenced = [] := by
  cases k <;> rfl

theorem referencedAll_opened (h : referencedAll items ⊆ vs) :
    referencedAll (opened k items) ⊆ vs := by
  rw [referencedAll_subset] at h ⊢
  intro d hd
  obtain ⟨c, hc, hd⟩ := List.mem_flatMap.mp hd
  cases hm : k.members? c with
  | none =>
    rw [hm, Option.getD_none, List.mem_singleton] at hd
    exact hd ▸ h c hc
  | some ms =>
    rw [hm, Option.getD_some] at hd
    have hc := h c hc
    rw [eq_apply_of_members? hm, referenced_apply, referencedAll_subset] at hc
    exact hc d hd

theorem referenced_connect (h : referencedAll items ⊆ vs) : (connect k items).referenced ⊆ vs := by
  have hkept : ∀ c ∈ kept k items, c.referenced ⊆ vs := fun c hc =>
    referencedAll_subset.mp (referencedAll_opened h) c (mem_opened_of_mem_kept hc)
  obtain ⟨-, heq⟩ | ⟨-, heq⟩ | ⟨c, -, hsingle, heq⟩ | ⟨-, -, heq⟩ := connect_cases k items
  · rw [heq, referenced_absorbing]
    exact List.nil_subset vs
  · rw [heq, referenced_neutral]
    exact List.nil_subset vs
  · rw [heq]
    exact hkept c (hsingle ▸ List.mem_singleton_self c)
  · rw [heq, referenced_apply]
    exact referencedAll_subset.mpr hkept

theorem referenced_negate (c : Condition) : c.negate.referenced = c.referenced := by
  cases c <;> rfl

mutual

theorem referenced_simplify : ∀ c : Condition, c.simplify.referenced ⊆ c.referenced
  | and items => referenced_connect (referenced_simplifyEach items)
  | or items => referenced_connect (referenced_simplifyEach items)
  | not inner => by
    rw [simplify, referenced_negate]
    exact referenced_simplify inner
  | always => List.Subset.refl _
  | never => List.Subset.refl _
  | compare _ _ _ => List.Subset.refl _
  | sameVariable _ _ => List.Subset.refl _
  | sameValue _ _ => List.Subset.refl _
  | isNull _ => List.Subset.refl _
  | langMatches _ _ => List.Subset.refl _
  | like _ _ => List.Subset.refl _

theorem referenced_simplifyEach : ∀ cs : List Condition,
    referencedAll (simplifyEach cs) ⊆ referencedAll cs
  | [] => List.Subset.refl _
  | c :: rest => append_subset_append (referenced_simplify c) (referenced_simplifyEach rest)

end

theorem referenced_conjuncts (c : Condition) : referencedAll c.conjuncts ⊆ c.referenced := by
  cases c <;> simp [conjuncts, referencedAll, referenced]

theorem referenced_simplifyAll (cs : List Condition) :
    referencedAll (simplifyAll cs) ⊆ referencedAll cs := by
  have heach := referenced_simplifyEach cs
  show referencedAll (if (simplifyEach cs).contains never then [never]
    else addNew [] ((simplifyEach cs).flatMap conjuncts)) ⊆ _
  split
  · simp [referencedAll, referenced]
  · rw [referencedAll_subset]
    intro d hd
    rw [mem_addNew, List.mem_flatMap] at hd
    obtain hd | ⟨c, hc, hd⟩ := hd
    · exact absurd hd List.not_mem_nil
    · intro v hv
      have hv : v ∈ c.referenced := referenced_conjuncts c (mem_referencedAll.mpr ⟨d, hd, hv⟩)
      exact heach (mem_referencedAll.mpr ⟨c, hc, hv⟩)

theorem referenced_simplifyList (cs : List Condition) :
    referencedAll (simplifyList cs) ⊆ referencedAll cs :=
  fun _ hv => referenced_simplifyEach cs (referenced_simplifyAll _ hv)

mutual

theorem referenced_resolveNulls (f : NullFacts) : ∀ c : Condition,
    (c.resolveNulls f).1.referenced ⊆ c.referenced
  | and items => referenced_resolveNullsEach f items
  | or items => referenced_resolveNullsEach f items
  | not inner => referenced_resolveNulls f inner
  | isNull v => by
    rw [resolveNulls]
    split
    · simp [referenced]
    · split <;> simp [referenced]
  | always => List.Subset.refl _
  | never => List.Subset.refl _
  | compare _ _ _ => List.Subset.refl _
  | sameVariable _ _ => List.Subset.refl _
  | sameValue _ _ => List.Subset.refl _
  | langMatches _ _ => List.Subset.refl _
  | like _ _ => List.Subset.refl _

theorem referenced_resolveNullsEach (f : NullFacts) : ∀ cs : List Condition,
    referencedAll (resolveNullsEach f cs).1 ⊆ referencedAll cs
  | [] => List.Subset.refl _
  | c :: rest =>
    append_subset_append (referenced_resolveNulls f c) (referenced_resolveNullsEach f rest)

end

end Condition

namespace Scalar

mutual

theorem referenced_simplify : ∀ x : Scalar, x.simplify.referenced ⊆ x.referenced
  | column _ => List.Subset.refl _
  | constant _ _ => List.Subset.refl _
  | null => List.Subset.refl _
  | concat items => referenced_simplifyEach items
  | coalesce items => referenced_simplifyEach items
  | case branches otherwise =>
    append_subset_append (referenced_simplifyBranches branches) (referenced_simplify otherwise)

theorem referenced_simplifyEach : ∀ xs : List Scalar,
    referencedAll (simplifyEach xs) ⊆ referencedAll xs
  | [] => List.Subset.refl _
  | x :: rest => append_subset_append (referenced_simplify x) (referenced_simplifyEach rest)

theorem referenced_simplifyBranches : ∀ branches : List (Condition × Scalar),
    referencedBranches (simplifyBranches branches) ⊆ referencedBranches branches
  | [] => List.Subset.refl _
  | (c, x) :: rest =>
    append_subset_append (Condition.referenced_simplify c)
      (append_subset_append (referenced_simplify x) (referenced_simplifyBranches rest))

end

mutual

theorem referenced_resolveNulls (f : NullFacts) : ∀ x : Scalar,
    (x.resolveNulls f).1.referenced ⊆ x.referenced
  | column _ => List.Subset.refl _
  | constant _ _ => List.Subset.refl _
  | null => List.Subset.refl _
  | concat items => referenced_resolveNullsEach f items
  | coalesce items => referenced_resolveNullsEach f items
  | case branches otherwise =>
    append_subset_append (referenced_resolveNullsBranches f branches)
      (referenced_resolveNulls f otherwise)

theorem referenced_resolveNullsEach (f : NullFacts) : ∀ xs : List Scalar,
    referencedAll (resolveNullsEach f xs).1 ⊆ referencedAll xs
  | [] => List.Subset.refl _
  | x :: rest =>
    append_subset_append (referenced_resolveNulls f x) (referenced_resolveNullsEach f rest)

theorem referenced_resolveNullsBranches (f : NullFacts) : ∀ branches : List (Condition × Scalar),
    referencedBranches (resolveNullsBranches f branches).1 ⊆ referencedBranches branches
  | [] => List.Subset.refl _
  | (c, x) :: rest =>
    append_subset_append (Condition.referenced_resolveNulls f c)
      (append_subset_append (referenced_resolveNulls f x) (referenced_resolveNullsBranches f rest))

end

end Scalar

/-- Assignments to the same targets whose values read no more. -/
def Assignment.NarrowsEach : List Assignment → List Assignment → Prop :=
  List.Forall₂ fun a b => a.target = b.target ∧ a.value.referenced ⊆ b.value.referenced

mutual

/-- A block with the outline of another whose conditions and assignments read no more. -/
inductive Block.Narrows : Block → Block → Prop
  | mk {exposed : List Variable} {ss ss' : List Source} {as as' : List Assignment}
      {fs fs' : List Condition} (sources : Source.NarrowsEach ss ss')
      (assignments : Assignment.NarrowsEach as as')
      (filters : Condition.referencedAll fs ⊆ Condition.referencedAll fs') :
      Block.Narrows ⟨exposed, ss, as, fs⟩ ⟨exposed, ss', as', fs'⟩

inductive Block.NarrowsEach : List Block → List Block → Prop
  | nil : Block.NarrowsEach [] []
  | cons {b c : Block} {bs cs : List Block} (first : Block.Narrows b c)
      (rest : Block.NarrowsEach bs cs) : Block.NarrowsEach (b :: bs) (c :: cs)

inductive Source.Narrows : Source → Source → Prop
  | table (source : TableSource) (vs : List Variable) :
      Source.Narrows (.table source vs) (.table source vs)
  | nested {b c : Block} (vs : List Variable) (block : Block.Narrows b c) :
      Source.Narrows (.nested b vs) (.nested c vs)
  | union {bs cs : List Block} (index : Variable) (vs : List Variable)
      (branches : Block.NarrowsEach bs cs) :
      Source.Narrows (.union index bs vs) (.union index cs vs)
  | leftJoin {b c : Block} {on on' : List Condition} (vs : List Variable)
      (block : Block.Narrows b c)
      (conditions : Condition.referencedAll on ⊆ Condition.referencedAll on') :
      Source.Narrows (.leftJoin b on vs) (.leftJoin c on' vs)

inductive Source.NarrowsEach : List Source → List Source → Prop
  | nil : Source.NarrowsEach [] []
  | cons {s r : Source} {ss rs : List Source} (first : Source.Narrows s r)
      (rest : Source.NarrowsEach ss rs) : Source.NarrowsEach (s :: ss) (r :: rs)

end

namespace Assignment

variable {as bs cs : List Assignment}

theorem NarrowsEach.refl (as : List Assignment) : NarrowsEach as as :=
  List.forall₂_same.mpr fun _ _ => ⟨rfl, List.Subset.refl _⟩

theorem NarrowsEach.trans (h : NarrowsEach as bs) (h' : NarrowsEach bs cs) :
    NarrowsEach as cs := by
  induction h generalizing cs with
  | nil => exact h'
  | cons hab _ ih =>
    cases h' with
    | cons hbc hrest =>
      exact .cons ⟨hab.1.trans hbc.1, List.Subset.trans hab.2 hbc.2⟩ (ih hrest)

theorem NarrowsEach.map_target (h : NarrowsEach as bs) :
    as.map (·.target) = bs.map (·.target) := by
  induction h with
  | nil => rfl
  | cons hab _ ih => rw [List.map_cons, List.map_cons, hab.1, ih]

theorem NarrowsEach.scoped {scope : List Variable} (h : NarrowsEach as bs) (hb : Scoped scope bs) :
    Scoped scope as := by
  induction h generalizing scope with
  | nil => exact hb
  | cons hab _ ih =>
    obtain ⟨hread, hnew, hrest⟩ := hb
    exact ⟨List.Subset.trans hab.2 hread, hab.1 ▸ hnew, ih (hab.1 ▸ hrest)⟩

theorem NarrowsEach.exists_of_mem {b : Assignment} (h : NarrowsEach as bs) (hb : b ∈ bs) :
    ∃ a ∈ as, a.target = b.target ∧ a.value.referenced ⊆ b.value.referenced := by
  induction h with
  | nil => exact absurd hb List.not_mem_nil
  | cons hab _ ih =>
    obtain rfl | hb := List.mem_cons.mp hb
    · exact ⟨_, List.mem_cons_self, hab⟩
    · obtain ⟨a, ha, hab⟩ := ih hb
      exact ⟨a, List.mem_cons_of_mem _ ha, hab⟩

theorem narrowsEach_simplify (as : List Assignment) :
    NarrowsEach (as.map Assignment.simplify) as := by
  induction as with
  | nil => exact .nil
  | cons a as ih => exact .cons ⟨rfl, Scalar.referenced_simplify a.value⟩ ih

theorem narrowsEach_resolveNulls (f : NullFacts) (as : List Assignment) :
    NarrowsEach (resolveNullsEach f as).1 as := by
  induction as with
  | nil => exact .nil
  | cons a as ih => exact .cons ⟨rfl, Scalar.referenced_resolveNulls f a.value⟩ ih

end Assignment

namespace Source

variable {s r : Source} {ss rs : List Source}

theorem Narrows.produced_eq (h : s.Narrows r) : s.produced = r.produced := by
  cases h <;> rfl

theorem NarrowsEach.map_produced (h : NarrowsEach ss rs) :
    ss.map produced = rs.map produced := by
  induction ss generalizing rs with
  | nil =>
    cases h
    rfl
  | cons s ss ih =>
    cases h with
    | cons first rest => rw [List.map_cons, List.map_cons, first.produced_eq, ih rest]

theorem NarrowsEach.flatMap_produced (h : NarrowsEach ss rs) :
    ss.flatMap produced = rs.flatMap produced := by
  rw [List.flatMap_def, List.flatMap_def, h.map_produced]

theorem NarrowsEach.exists_of_mem (h : NarrowsEach ss rs) (hs : s ∈ ss) :
    ∃ r ∈ rs, s.Narrows r := by
  induction ss generalizing rs with
  | nil => exact absurd hs List.not_mem_nil
  | cons s' ss ih =>
    cases h with
    | cons first rest =>
      obtain rfl | hs := List.mem_cons.mp hs
      · exact ⟨_, List.mem_cons_self, first⟩
      · obtain ⟨r, hr, hsr⟩ := ih rest hs
        exact ⟨r, List.mem_cons_of_mem _ hr, hsr⟩

theorem NarrowsEach.joinConditions (h : NarrowsEach ss rs) :
    Condition.referencedAll (Block.joinConditions ss) ⊆
      Condition.referencedAll (Block.joinConditions rs) := by
  induction ss generalizing rs with
  | nil =>
    cases h
    exact List.Subset.refl _
  | cons s ss ih =>
    cases h with
    | cons first rest =>
      simp only [Block.joinConditions, List.flatMap_cons, Condition.referencedAll_append]
      refine append_subset_append ?_ (ih rest)
      cases first with
      | leftJoin _ _ conditions => exact conditions
      | _ => exact List.Subset.refl _

end Source

namespace Block

theorem NarrowsEach.exists_of_mem {b : Block} {bs cs : List Block} (h : NarrowsEach bs cs)
    (hb : b ∈ bs) : ∃ c ∈ cs, b.Narrows c := by
  induction bs generalizing cs with
  | nil => exact absurd hb List.not_mem_nil
  | cons d bs ih =>
    cases h with
    | cons first rest =>
      obtain rfl | hb := List.mem_cons.mp hb
      · exact ⟨_, List.mem_cons_self, first⟩
      · obtain ⟨c, hc, hbc⟩ := ih rest hb
        exact ⟨c, List.mem_cons_of_mem _ hc, hbc⟩

theorem exists_mem_blocks_of_narrows {b : Block} {s r : Source} (h : s.Narrows r)
    (hb : b ∈ s.blocks) : ∃ c ∈ r.blocks, b.Narrows c := by
  cases h with
  | table => exact absurd hb List.not_mem_nil
  | nested vs block => exact ⟨_, List.mem_singleton_self _, List.mem_singleton.mp hb ▸ block⟩
  | union index vs branches => exact branches.exists_of_mem hb
  | leftJoin vs block _ => exact ⟨_, List.mem_singleton_self _, List.mem_singleton.mp hb ▸ block⟩

mutual

theorem Narrows.refl : ∀ b : Block, b.Narrows b
  | ⟨_, sources, assignments, _⟩ =>
    .mk (narrowsSources_refl sources) (.refl assignments) (List.Subset.refl _)

theorem narrowsBranches_refl : ∀ bs : List Block, NarrowsEach bs bs
  | [] => .nil
  | b :: rest => .cons (.refl b) (narrowsBranches_refl rest)

theorem narrowsSource_refl : ∀ s : Source, s.Narrows s
  | .table source vs => .table source vs
  | .nested block vs => .nested vs (.refl block)
  | .union index branches vs => .union index vs (narrowsBranches_refl branches)
  | .leftJoin block _ vs => .leftJoin vs (.refl block) (List.Subset.refl _)

theorem narrowsSources_refl : ∀ ss : List Source, Source.NarrowsEach ss ss
  | [] => .nil
  | s :: rest => .cons (narrowsSource_refl s) (narrowsSources_refl rest)

end

mutual

theorem Narrows.trans : ∀ {a b c : Block}, a.Narrows b → b.Narrows c → a.Narrows c
  | _, _, _, .mk hs ha hf, .mk hs' ha' hf' =>
    .mk (narrowsSources_trans hs hs') (ha.trans ha') (List.Subset.trans hf hf')

theorem narrowsBranches_trans : ∀ {as bs cs : List Block},
    NarrowsEach as bs → NarrowsEach bs cs → NarrowsEach as cs
  | _, _, _, .nil, .nil => .nil
  | _, _, _, .cons h hs, .cons h' hs' => .cons (h.trans h') (narrowsBranches_trans hs hs')

theorem narrowsSource_trans : ∀ {s r q : Source}, s.Narrows r → r.Narrows q → s.Narrows q
  | _, _, _, .table source vs, .table _ _ => .table source vs
  | _, _, _, .nested vs h, .nested _ h' => .nested vs (h.trans h')
  | _, _, _, .union index vs h, .union _ _ h' => .union index vs (narrowsBranches_trans h h')
  | _, _, _, .leftJoin vs h hon, .leftJoin _ h' hon' =>
    .leftJoin vs (h.trans h') (List.Subset.trans hon hon')

theorem narrowsSources_trans : ∀ {ss rs qs : List Source},
    Source.NarrowsEach ss rs → Source.NarrowsEach rs qs → Source.NarrowsEach ss qs
  | _, _, _, .nil, .nil => .nil
  | _, _, _, .cons h hs, .cons h' hs' =>
    .cons (narrowsSource_trans h h') (narrowsSources_trans hs hs')

end

mutual

theorem simplify_narrows : ∀ b : Block, b.simplify.Narrows b
  | ⟨_, sources, assignments, filters⟩ =>
    .mk (simplifySources_narrows sources) (Assignment.narrowsEach_simplify assignments)
      (Condition.referenced_simplifyList filters)

theorem simplifyBranches_narrows : ∀ bs : List Block, NarrowsEach (simplifyEach bs) bs
  | [] => .nil
  | b :: rest => .cons (simplify_narrows b) (simplifyBranches_narrows rest)

theorem simplifySource_narrows : ∀ s : Source, s.simplify.Narrows s
  | .table source vs => .table source vs
  | .nested block vs => .nested vs (simplify_narrows block)
  | .union index branches vs => .union index vs (simplifyBranches_narrows branches)
  | .leftJoin block on vs =>
    .leftJoin vs (simplify_narrows block) (Condition.referenced_simplifyList on)

theorem simplifySources_narrows : ∀ ss : List Source, Source.NarrowsEach (Source.simplifyEach ss) ss
  | [] => .nil
  | s :: rest => .cons (simplifySource_narrows s) (simplifySources_narrows rest)

end

variable (t : VariableTable)

mutual

theorem resolveNulls_narrows : ∀ b : Block, (b.resolveNulls t).1.Narrows b
  | ⟨_, sources, assignments, filters⟩ =>
    .mk (resolveNullsSources_narrows _ sources) (Assignment.narrowsEach_resolveNulls _ assignments)
      (Condition.referenced_resolveNullsEach _ filters)

theorem resolveNullsBranches_narrows : ∀ bs : List Block, NarrowsEach (resolveNullsEach t bs).1 bs
  | [] => .nil
  | b :: rest => .cons (resolveNulls_narrows b) (resolveNullsBranches_narrows rest)

theorem resolveNullsSource_narrows (outer : NullFacts) :
    ∀ s : Source, (s.resolveNulls t outer).1.Narrows s
  | .table source vs => .table source vs
  | .nested block vs => .nested vs (resolveNulls_narrows block)
  | .union index branches vs => .union index vs (resolveNullsBranches_narrows branches)
  | .leftJoin block on vs =>
    .leftJoin vs (resolveNulls_narrows block) (Condition.referenced_resolveNullsEach _ on)

theorem resolveNullsSources_narrows (outer : NullFacts) :
    ∀ ss : List Source, Source.NarrowsEach (Source.resolveNullsEach t outer ss).1 ss
  | [] => .nil
  | s :: rest =>
    .cons (resolveNullsSource_narrows outer s) (resolveNullsSources_narrows outer rest)

end

theorem pass_narrows (eliminate : Bool) (b : Block) : (b.pass t eliminate).Narrows b := by
  cases eliminate with
  | false => exact simplify_narrows b
  | true => exact (simplify_narrows _).trans (resolveNulls_narrows t b)

/-- Optimisation keeps the outline of a block and reads no more. -/
theorem optimise_narrows (eliminate : Bool) (passes : Nat) (b : Block) :
    (b.optimise t eliminate passes).Narrows b := by
  induction passes generalizing b with
  | zero => exact .refl b
  | succ passes ih =>
    rw [optimise_succ]
    exact (ih _).trans (pass_narrows t eliminate b)

variable {t}

theorem Narrows.exposed_eq {b c : Block} (h : b.Narrows c) : b.exposed = c.exposed := by
  cases h
  rfl

mutual

/-- A block that reads no more than a well-scoped one of its outline is well scoped. -/
theorem Narrows.scoped : ∀ {b c : Block}, b.Narrows c → c.Scoped → b.Scoped
  | _, _, .mk hs ha hf, ⟨hss, has, hon, hfs, hexp⟩ => by
    refine ⟨scopedSources_of_narrows hs hss, ?_, ?_, ?_, ?_⟩ <;> rw [hs.flatMap_produced]
    · exact ha.scoped has
    all_goals rw [ha.map_target]
    · exact List.Subset.trans hs.joinConditions hon
    · exact List.Subset.trans hf hfs
    · exact hexp

theorem scopedBranches_of_narrows {vs : List Variable} : ∀ {bs cs : List Block},
    NarrowsEach bs cs → ScopedBranches vs cs → ScopedBranches vs bs
  | _, _, .nil, h => h
  | _, _, .cons first rest, ⟨hb, hexp, hrest⟩ =>
    ⟨first.scoped hb, first.exposed_eq ▸ hexp, scopedBranches_of_narrows rest hrest⟩

theorem scopedSource_of_narrows : ∀ {s r : Source}, s.Narrows r → r.Scoped → s.Scoped
  | _, _, .table _ _, h => h
  | _, _, .nested _ block, ⟨hb, hvs⟩ => ⟨block.scoped hb, block.exposed_eq ▸ hvs⟩
  | _, _, .union _ _ branches, ⟨hindex, hbs⟩ => ⟨hindex, scopedBranches_of_narrows branches hbs⟩
  | _, _, .leftJoin _ block _, ⟨hb, hvs⟩ => ⟨block.scoped hb, block.exposed_eq ▸ hvs⟩

theorem scopedSources_of_narrows : ∀ {ss rs : List Source},
    Source.NarrowsEach ss rs → Source.ScopedEach rs → Source.ScopedEach ss
  | _, _, .nil, h => h
  | _, _, .cons first rest, ⟨hs, hrest⟩ =>
    ⟨scopedSource_of_narrows first hs, scopedSources_of_narrows rest hrest⟩

end

mutual

theorem Narrows.apart : ∀ {b c : Block}, b.Narrows c → c.Apart → b.Apart
  | _, _, .mk hs _ _, ⟨hdisjoint, hss⟩ =>
    ⟨hs.map_produced ▸ hdisjoint, apartSources_of_narrows hs hss⟩

theorem apartBranches_of_narrows : ∀ {bs cs : List Block},
    NarrowsEach bs cs → ApartBranches cs → ApartBranches bs
  | _, _, .nil, h => h
  | _, _, .cons first rest, ⟨hb, hrest⟩ => ⟨first.apart hb, apartBranches_of_narrows rest hrest⟩

theorem apartSource_of_narrows : ∀ {s r : Source}, s.Narrows r → ApartSource r → ApartSource s
  | _, _, .table _ _, h => h
  | _, _, .nested _ block, h => block.apart h
  | _, _, .union _ _ branches, h => apartBranches_of_narrows branches h
  | _, _, .leftJoin _ block _, h => block.apart h

theorem apartSources_of_narrows : ∀ {ss rs : List Source},
    Source.NarrowsEach ss rs → ApartSources rs → ApartSources ss
  | _, _, .nil, h => h
  | _, _, .cons first rest, ⟨hs, hrest⟩ =>
    ⟨apartSource_of_narrows first hs, apartSources_of_narrows rest hrest⟩

end

mutual

theorem Narrows.tables_eq : ∀ {b c : Block}, b.Narrows c → b.tables = c.tables
  | _, _, .mk hs _ _ => tablesOfSources_of_narrows hs

theorem tablesOfBranches_of_narrows : ∀ {bs cs : List Block},
    NarrowsEach bs cs → tablesOfBranches bs = tablesOfBranches cs
  | _, _, .nil => rfl
  | _, _, .cons first rest =>
    congrArg₂ (· ++ ·) first.tables_eq (tablesOfBranches_of_narrows rest)

theorem tablesOfSource_of_narrows : ∀ {s r : Source},
    s.Narrows r → tablesOfSource s = tablesOfSource r
  | _, _, .table _ _ => rfl
  | _, _, .nested _ block => block.tables_eq
  | _, _, .union _ _ branches => tablesOfBranches_of_narrows branches
  | _, _, .leftJoin _ block _ => block.tables_eq

theorem tablesOfSources_of_narrows : ∀ {ss rs : List Source},
    Source.NarrowsEach ss rs → tablesOfSources ss = tablesOfSources rs
  | _, _, .nil => rfl
  | _, _, .cons first rest =>
    congrArg₂ (· ++ ·) (tablesOfSource_of_narrows first) (tablesOfSources_of_narrows rest)

end

end Block

end VirtualGraph
