import Mathlib.Data.List.Induction
import Mathlib.Data.List.Nodup
import VirtualGraph.Proofs.Block.WellBuilt

/-!
# Which blocks have a statement

A variable is resolved by its column, or by following the assignments that its value depends on;
since each assignment reads only what was bound before it, no chain of them is longer than their
number. The sources of a statement are bound one after the other, so the conditions of a left join
see those up to it. The check of a block knows no such order.

A well-scoped block whose tables bind columns has a statement exactly if, on every level, the
conditions of its left joins depend on the sources up to them; the only fault otherwise is a
variable that is not in scope. In particular every well-built block has a statement.
-/

namespace VirtualGraph

/-- The fault of a variable that has no value. -/
def Fault.IsNotInScope (f : Fault) : Prop := ∃ v, f = .scope (.notInScope v)

namespace Result

variable {α β : Type} {Q Q' : Prop} {post : α → Prop} {post' : β → Prop} {x : Result α}

/-- There is a value exactly if a proposition holds; otherwise a variable is not in scope. -/
def Decides (Q : Prop) (post : α → Prop) (x : Result α) : Prop :=
  x.Meets (fun f => ¬Q ∧ f.IsNotInScope) fun a => Q ∧ post a

theorem Decides.congr (h : x.Decides Q post) (hQ : Q ↔ Q') : x.Decides Q' post :=
  propext hQ ▸ h

theorem decides_ok {a : α} (hQ : Q) (ha : post a) : Decides Q post (.ok a) := ⟨hQ, ha⟩

theorem Decides.bind {f : α → Result β} (h : x.Decides Q post)
    (hf : ∀ a, post a → (f a).Decides Q' post') : (x >>= f).Decides (Q ∧ Q') post' := by
  cases x with
  | error e => exact ⟨fun hboth => h.1 hboth.1, h.2⟩
  | ok a => exact (hf a h.2).congr (and_iff_right h.1).symm

theorem Decides.bind_ok {g : α → β} (h : x.Decides Q post) (hg : ∀ a, post a → post' (g a)) :
    Decides Q post' (x >>= fun a => .ok (g a)) :=
  (h.bind fun a ha => decides_ok trivial (hg a ha)).congr (and_iff_left trivial)

theorem Decides.map {g : α → β} (h : x.Decides Q post) (hg : ∀ a, post a → post' (g a)) :
    Decides Q post' (x.map g) := by
  cases x with
  | error e => exact h
  | ok a => exact ⟨h.1, hg a h.2⟩

theorem Decides.succeeds_iff (h : x.Decides Q post) : x.Succeeds ↔ Q := by
  cases x with
  | error e => exact iff_of_false id h.1
  | ok a => exact iff_of_true trivial h.1

theorem Meets.decides_succeeds (h : x.Meets Fault.IsNotInScope post) :
    x.Decides x.Succeeds fun _ => True := by
  cases x with
  | error e => exact ⟨id, h⟩
  | ok a => exact ⟨trivial, trivial⟩

theorem Meets.of_succeeds {allowed : Fault → Prop} (h : x.Meets allowed fun _ => Q)
    (hx : x.Succeeds) : Q := by
  cases x with
  | error e => exact hx.elim
  | ok a => exact h

theorem Meets.decides (h : x.Meets Fault.IsNotInScope fun _ => Q) (hQ : Q → x.Succeeds) :
    x.Decides Q fun _ => True := by
  cases x with
  | error e => exact ⟨hQ, h⟩
  | ok a => exact ⟨h, trivial⟩

end Result

section Conversion

variable {t : VariableTable} {resolve : Variable → Result SqlValue} {P : Variable → Prop}

mutual

/-- Where variables have values exactly if they have a property, a scalar has one exactly if all
that it reads has the property. -/
theorem Scalar.toSql_decides (h : ∀ v, (resolve v).Decides (P v) fun _ => True) : ∀ x : Scalar,
    (x.toSql t resolve).Decides (∀ v ∈ x.referenced, P v) fun _ => True
  | .column v => (h v).congr List.forall_mem_singleton.symm
  | .constant _ _ => ⟨List.forall_mem_nil P, trivial⟩
  | .null => ⟨List.forall_mem_nil P, trivial⟩
  | .concat [] => ⟨List.forall_mem_nil P, trivial⟩
  | .concat (x :: rest) =>
    ((Scalar.toSql_decides h x).bind fun _ _ =>
      (Scalar.toSqlEach_decides h .string rest).bind_ok fun _ _ => trivial).congr
        List.forall_mem_append.symm
  | .coalesce items => (Scalar.toSqlEach_decides h _ items).bind_ok fun _ _ => trivial
  | .case branches otherwise =>
    ((Scalar.toSqlBranches_decides h branches).bind fun _ _ =>
      (Scalar.toSql_decides h otherwise).bind_ok fun _ _ => trivial).congr
        List.forall_mem_append.symm

theorem Scalar.toSqlEach_decides (h : ∀ v, (resolve v).Decides (P v) fun _ => True)
    (target : SqlType) : ∀ xs : List Scalar,
    (Scalar.toSqlEach t resolve target xs).Decides (∀ v ∈ Scalar.referencedAll xs, P v)
      fun _ => True
  | [] => ⟨List.forall_mem_nil P, trivial⟩
  | x :: rest =>
    ((Scalar.toSql_decides h x).bind fun _ _ =>
      (Scalar.toSqlEach_decides h target rest).bind_ok fun _ _ => trivial).congr
        List.forall_mem_append.symm

theorem Scalar.toSqlBranches_decides (h : ∀ v, (resolve v).Decides (P v) fun _ => True) :
    ∀ branches : List (Condition × Scalar),
    (Scalar.toSqlBranches t resolve branches).Decides
      (∀ v ∈ Scalar.referencedBranches branches, P v) fun _ => True
  | [] => ⟨List.forall_mem_nil P, trivial⟩
  | (c, x) :: rest =>
    ((Condition.toSql_decides h c).bind fun _ _ =>
      (((Scalar.toSql_decides h x).bind fun _ _ =>
        (Scalar.toSqlBranches_decides h rest).bind_ok fun _ _ => trivial).congr
          List.forall_mem_append.symm)).congr List.forall_mem_append.symm

theorem Condition.toSql_decides (h : ∀ v, (resolve v).Decides (P v) fun _ => True) :
    ∀ c : Condition, (c.toSql t resolve).Decides (∀ v ∈ c.referenced, P v) fun _ => True
  | .always => ⟨List.forall_mem_nil P, trivial⟩
  | .never => ⟨List.forall_mem_nil P, trivial⟩
  | .and items => (Condition.toSqlEach_decides h items).bind_ok fun _ _ => trivial
  | .or items => (Condition.toSqlEach_decides h items).bind_ok fun _ _ => trivial
  | .not inner => by
    have hinner := Condition.toSql_decides h inner
    -- The negation of a null check has a form of its own.
    cases inner with
    | isNull v => exact ((h v).bind_ok fun _ _ => trivial).congr List.forall_mem_singleton.symm
    | _ => exact hinner.bind_ok fun _ _ => trivial
  | .compare _ l r =>
    ((Scalar.toSql_decides h l).bind fun _ _ =>
      (Scalar.toSql_decides h r).bind_ok fun _ _ => trivial).congr List.forall_mem_append.symm
  | .sameVariable a b =>
    ((h a).bind fun _ _ => (h b).bind_ok fun _ _ => trivial).congr
      (List.forall_mem_cons.trans (and_congr Iff.rfl List.forall_mem_singleton)).symm
  | .sameValue l r =>
    ((Scalar.toSql_decides h l).bind fun _ _ =>
      (Scalar.toSql_decides h r).bind_ok fun _ _ => trivial).congr List.forall_mem_append.symm
  | .isNull v => ((h v).bind_ok fun _ _ => trivial).congr List.forall_mem_singleton.symm
  | .langMatches x _ => (Scalar.toSql_decides h x).bind_ok fun _ _ => trivial
  | .like x _ => (Scalar.toSql_decides h x).bind_ok fun _ _ => trivial

theorem Condition.toSqlEach_decides (h : ∀ v, (resolve v).Decides (P v) fun _ => True) :
    ∀ cs : List Condition,
    (Condition.toSqlEach t resolve cs).Decides (∀ v ∈ Condition.referencedAll cs, P v)
      fun _ => True
  | [] => ⟨List.forall_mem_nil P, trivial⟩
  | c :: rest =>
    ((Condition.toSql_decides h c).bind fun _ _ =>
      (Condition.toSqlEach_decides h rest).bind_ok fun _ _ => trivial).congr
        List.forall_mem_append.symm

end

end Conversion

/-- No variable is assigned twice. -/
theorem Assignment.Scoped.nodup_targets {scope : List Variable} {as : List Assignment}
    (h : Assignment.Scoped scope as) : (as.map (·.target)).Nodup := by
  induction as generalizing scope with
  | nil => exact List.nodup_nil
  | cons a as ih =>
    obtain ⟨-, -, hrest⟩ := h
    exact List.nodup_cons.mpr ⟨hrest.not_mem_targets List.mem_cons_self, ih hrest⟩

namespace SelectScope

/-- The scope has columns for exactly the given variables, and the assignments of its block. -/
structure Binds (s : SelectScope) (as : List Assignment) (vs : List Variable) : Prop where
  assignments : s.assignments = as
  columns : ∀ v, (s.columns.lookup v).isSome ↔ v ∈ vs

variable {s : SelectScope} {t : VariableTable} {as : List Assignment}
variable {bound all : List Variable} {v : Variable}

theorem resolveIn_of_column {depth : Nat} {column : SqlValue}
    (hc : s.columns.lookup v = some column) : s.resolveIn t depth v = .ok column := by
  unfold resolveIn
  simp only [hc]

theorem resolveIn_of_assigned {depth : Nat} {x : Scalar} (hc : s.columns.lookup v = none)
    (hx : s.assigned? v = some x) : s.resolveIn t (depth + 1) v =
      x.toSql t (s.resolveIn t depth) >>= fun x' => .ok (x'.castFrom (x.type? t) (t.type v)) := by
  conv_lhs => unfold resolveIn
  simp only [hc, hx]

theorem resolveIn_of_missing {depth : Nat} (hc : s.columns.lookup v = none)
    (hx : depth = 0 ∨ s.assigned? v = none) :
    s.resolveIn t depth v = .error (.scope (.notInScope v)) := by
  unfold resolveIn
  cases depth with
  | zero => simp only [hc]
  | succ depth => simp only [hc, hx.resolve_left (Nat.succ_ne_zero depth)]

theorem exists_of_assigned? {x : Scalar} (hx : s.assigned? v = some x) :
    ∃ a ∈ s.assignments, a.target = v ∧ a.value = x := by
  obtain ⟨a, ha, hvalue⟩ := Option.map_eq_some_iff.mp hx
  refine ⟨a, List.mem_reverse.mp (List.mem_of_find?_eq_some ha), ?_, hvalue⟩
  simpa using List.find?_some ha

/-- The value of a variable that is assigned once. -/
theorem assigned?_eq {a : Assignment} (honce : (s.assignments.map (·.target)).Nodup)
    (ha : a ∈ s.assignments) : s.assigned? a.target = some a.value := by
  have hfound : s.assigned? a.target ≠ none := by
    simpa [assigned?] using ⟨a, ha, rfl⟩
  obtain ⟨x, hx⟩ := Option.ne_none_iff_exists'.mp hfound
  obtain ⟨b, hb, htarget, rfl⟩ := exists_of_assigned? hx
  rw [hx, List.inj_on_of_nodup_map honce hb ha htarget]

/-- What is resolved depends on bound variables only. The induction is on the number of steps. -/
theorem Binds.resolveIn_meets (hs : s.Binds as bound) (t : VariableTable) (depth : Nat)
    (v : Variable) :
    (s.resolveIn t depth v).Meets Fault.IsNotInScope fun _ => Assignment.Determined as bound v := by
  have hcolumn (depth : Nat) {v : Variable} {column : SqlValue}
      (hc : s.columns.lookup v = some column) : (s.resolveIn t depth v).Meets Fault.IsNotInScope
        fun _ => Assignment.Determined as bound v := by
    rw [resolveIn_of_column hc]
    exact .bound ((hs.columns v).mp (Option.isSome_of_eq_some hc))
  induction depth generalizing v with
  | zero =>
    cases hc : s.columns.lookup v with
    | some column => exact hcolumn 0 hc
    | none =>
      rw [resolveIn_of_missing hc (.inl rfl)]
      exact ⟨v, rfl⟩
  | succ depth ih =>
    cases hc : s.columns.lookup v with
    | some column => exact hcolumn (depth + 1) hc
    | none =>
      cases hx : s.assigned? v with
      | none =>
        rw [resolveIn_of_missing hc (.inr hx)]
        exact ⟨v, rfl⟩
      | some x =>
        rw [resolveIn_of_assigned hc hx]
        have hvalue := Scalar.toSql_decides (t := t) (fun w => (ih w).decides_succeeds) x
        refine Result.Meets.bind (hvalue.allow fun _ h => h.2) fun x' h => ?_
        obtain ⟨a, ha, rfl, rfl⟩ := exists_of_assigned? hx
        exact .assigned (hs.assignments ▸ ha) fun w hw => (ih w).of_succeeds (h.1 w hw)

/-- What depends on bound variables only is resolved in as many steps as there are assignments up to
it. The induction is on these assignments, `done`; what they read is bound or assigned before. -/
theorem Binds.resolveIn_of_determined (hs : s.Binds as bound) (hbound : bound ⊆ all)
    (hscoped : Assignment.Scoped all as) {done rest : List Assignment} (has : as = done ++ rest)
    (hv : v ∈ bound ∨ v ∈ done.map (·.target)) (hdet : Assignment.Determined as bound v)
    {depth : Nat} (hdepth : done.length ≤ depth) : (s.resolveIn t depth v).Succeeds := by
  induction done using List.reverseRecOn generalizing v rest depth with
  | nil =>
    obtain hv | hv := hv
    · obtain ⟨column, hc⟩ := Option.isSome_iff_exists.mp ((hs.columns v).mpr hv)
      rw [resolveIn_of_column hc]
      trivial
    · exact absurd hv List.not_mem_nil
  | append_singleton done a ih =>
    have has' : as = done ++ a :: rest := by rw [has, List.append_assoc]; rfl
    rw [List.length_append, List.length_singleton] at hdepth
    rw [List.map_append, List.mem_append, List.map_singleton, List.mem_singleton, ← or_assoc] at hv
    obtain hv | rfl := hv
    · exact ih has' hv hdet (by omega)
    obtain ⟨depth, rfl⟩ : ∃ n, depth = n + 1 := ⟨depth - 1, by omega⟩
    have ha : a ∈ as := by rw [has']; simp
    have hassigned : s.assigned? a.target = some a.value :=
      assigned?_eq (hs.assignments ▸ hscoped.nodup_targets) (hs.assignments ▸ ha)
    have hreads : ∀ w ∈ a.value.referenced, Assignment.Determined as bound w := by
      generalize htarget : a.target = v at hdet
      cases hdet with
      | bound h => exact absurd (hbound (htarget ▸ h)) (hscoped.target_not_mem ha)
      | assigned hb reads =>
        exact List.inj_on_of_nodup_map hscoped.nodup_targets ha hb htarget ▸ reads
    have hresolves : ∀ w ∈ a.value.referenced, (s.resolveIn t depth w).Succeeds := by
      intro w hw
      refine ih has' ?_ (hreads w hw) (by omega)
      obtain hall | hdone := List.mem_append.mp ((has' ▸ hscoped).reads hw)
      · cases hreads w hw with
        | bound h => exact .inl h
        | assigned hb _ => exact absurd hall (hscoped.target_not_mem hb)
      · exact .inr hdone
    cases hc : s.columns.lookup a.target with
    | some column =>
      rw [resolveIn_of_column hc]
      trivial
    | none =>
      have hvalue := Scalar.toSql_decides (t := t)
        (fun w => (hs.resolveIn_meets t depth w).decides_succeeds) a.value
      rw [resolveIn_of_assigned hc hassigned]
      exact (hvalue.succeeds_iff.mpr hresolves).bind fun _ _ => trivial

/-- A variable resolves exactly if it depends on bound variables only. -/
theorem Binds.resolve_decides (hs : s.Binds as bound) (t : VariableTable) (hbound : bound ⊆ all)
    (hscoped : Assignment.Scoped all as) (v : Variable) :
    (s.resolve t v).Decides (Assignment.Determined as bound v) fun _ => True := by
  refine (hs.resolveIn_meets t _ v).decides fun hdet => ?_
  have has : as = as ++ [] := (List.append_nil as).symm
  refine hs.resolveIn_of_determined hbound hscoped has ?_ hdet (hs.assignments ▸ Nat.le_refl _)
  cases hdet with
  | bound h => exact .inl h
  | assigned h _ => exact .inr (List.mem_map_of_mem h)

theorem Binds.bindNested (hs : s.Binds as bound) (n : Nat) (vs : List Variable) :
    (s.bindNested n vs).Binds as (bound ++ vs) := by
  refine ⟨hs.assignments, fun v => ?_⟩
  rw [SelectScope.bindNested, List.lookup_append, Option.isSome_or, Bool.or_eq_true, hs.columns,
    List.mem_append, or_comm]
  simp [List.lookup_isSome_iff]

theorem Binds.bindTable (hs : s.Binds as bound) (n : Nat) {vs : List Variable}
    (hvs : ∀ v ∈ vs, t.IsColumn v) :
    (s.bindTable t n vs).Decides True fun s' => s'.Binds as (bound ++ vs) := by
  induction vs generalizing s bound with
  | nil => exact ⟨trivial, (List.append_nil bound).symm ▸ hs⟩
  | cons v vs ih =>
    obtain ⟨i, name, hi, hkind⟩ := hvs v List.mem_cons_self
    have hinfo : (t.info v).kind = .column name := by rw [VariableTable.info, hi]; exact hkind
    have hbinds : SelectScope.Binds ⟨(v, .tableColumn n name) :: s.columns, s.assignments⟩ as
        (bound ++ [v]) := by
      refine ⟨hs.assignments, fun w => ?_⟩
      rw [List.mem_append, ← hs.columns, List.mem_singleton, List.lookup_isSome_iff,
        List.lookup_isSome_iff]
      simp [or_comm]
    have hrest := ih hbinds fun w hw => hvs w (List.mem_cons_of_mem _ hw)
    rw [List.append_assoc, List.singleton_append] at hrest
    rw [SelectScope.bindTable, hinfo]
    exact hrest

end SelectScope

namespace SelectBuilder

variable {α β : Type} {Q Q' : Prop} {post : α → Prop} {post' : β → Prop} {x : SelectBuilder α}

/-- Whatever source number comes next, there is a value exactly if a proposition holds; otherwise a
variable is not in scope. -/
def Decides (Q : Prop) (post : α → Prop) (x : SelectBuilder α) : Prop :=
  ∀ n, Result.Decides Q post (x.run.run n).1

theorem Decides.congr (h : x.Decides Q post) (hQ : Q ↔ Q') : x.Decides Q' post :=
  fun n => (h n).congr hQ

theorem Decides.bind {f : α → SelectBuilder β} (h : x.Decides Q post)
    (hf : ∀ a, post a → (f a).Decides Q' post') : (x >>= f).Decides (Q ∧ Q') post' := by
  intro n
  have hx := h n
  rcases hrun : x.run.run n with ⟨r, m⟩
  rw [hrun] at hx
  rw [ExceptT.run_bind, StateT.run_bind, hrun]
  cases r with
  | error e => exact ⟨fun hboth => hx.1 hboth.1, hx.2⟩
  | ok a => exact (hf a hx.2 m).congr (and_iff_right hx.1).symm

theorem decides_pure {a : α} (h : post a) : (pure a : SelectBuilder α).Decides True post :=
  fun _ => ⟨trivial, h⟩

/-- A last step that only puts the result together. -/
theorem Decides.bind_pure {g : α → β} (h : x.Decides Q post) (hg : ∀ a, post a → post' (g a)) :
    Decides Q post' (x >>= fun a => pure (g a)) :=
  (h.bind fun a ha => decides_pure (hg a ha)).congr (and_iff_left trivial)

theorem decides_lift {x : Result α} (h : x.Decides Q post) :
    (liftM x : SelectBuilder α).Decides Q post := by
  intro n
  cases x with
  | error e => exact h
  | ok a => exact h

/-- Taking a source number never fails. -/
theorem decides_freshSource_bind {f : Nat → SelectBuilder β} (hf : ∀ n, (f n).Decides Q post') :
    (freshSource >>= f).Decides Q post' := by
  have hfresh : freshSource.Decides True fun _ => True := fun _ => ⟨trivial, trivial⟩
  exact (hfresh.bind fun n _ => hf n).congr (and_iff_right trivial)

end SelectBuilder

namespace Block

/-- On every level, the conditions of left joins depend on the sources up to them. -/
def ReadsBack (b : Block) : Prop :=
  b.Everywhere fun c => Source.ReadBack c.assignments [] c.sources

theorem readsBack_iff {b : Block} : b.ReadsBack ↔
    Source.ReadBack b.assignments [] b.sources ∧ ∀ s ∈ b.sources, ∀ c ∈ s.blocks, c.ReadsBack := by
  constructor
  · rintro ⟨here, below⟩
    exact ⟨here, below⟩
  · rintro ⟨here, below⟩
    exact .intro here below

/-- The variables of the tables of a block are columns. -/
def TableColumns (t : VariableTable) (b : Block) : Prop :=
  ∀ source vs, .table source vs ∈ b.sources → ∀ v ∈ vs, t.IsColumn v

theorem everywhere_tableColumns {t : VariableTable} {b : Block}
    (h : ∀ table ∈ b.tables, ∀ v ∈ table.2, t.IsColumn v) : b.Everywhere (TableColumns t) := by
  induction b using Block.induction with
  | step b ih =>
    refine .intro (fun source vs hs => ?_) fun s hs c hc => ih s hs c hc fun table htable => ?_
    · exact h (source, vs) (tablesOfSource_subset hs List.mem_cons_self)
    · exact h table (tablesOfSource_subset hs (tables_subset hc htable))

/-- The statement of a block, whatever of its variables it selects, can be written exactly if the
block reads back. -/
def Writes (t : VariableTable) (b : Block) : Prop :=
  ∀ (distinct : Bool) (columns : List (Selected × SqlName)),
    (∀ v name, (.var v, name) ∈ columns → v ∈ b.produced) →
      (b.toSelect t distinct columns).Decides b.ReadsBack fun _ => True

end Block

section Writing

open SelectBuilder

variable {t : VariableTable} {scope : SelectScope} {as : List Assignment}
variable {bound all : List Variable}

theorem SelectScope.select_decides {columns : List (Selected × SqlName)} {P : Variable → Prop}
    (hresolve : ∀ v, (scope.resolve t v).Decides (P v) fun _ => True)
    (h : ∀ v name, (.var v, name) ∈ columns → P v) :
    (scope.select t columns).Decides True fun _ => True := by
  induction columns with
  | nil => exact ⟨trivial, trivial⟩
  | cons column columns ih =>
    obtain ⟨what, name⟩ := column
    have hwhat : (scope.selected t what).Decides True fun _ => True := by
      cases what with
      | var v => exact (hresolve v).congr (iff_true_intro (h v name List.mem_cons_self))
      | index n => exact ⟨trivial, trivial⟩
      | missing type => exact ⟨trivial, trivial⟩
    have hrest := ih fun v name hmem => h v name (List.mem_cons_of_mem _ hmem)
    exact (hwhat.bind fun _ _ => hrest.bind_ok fun _ _ => trivial).congr (and_iff_left trivial)

theorem Block.toBranches_decides (index : Variable) (vs : List Variable) (n : Nat)
    {bs : List Block} (hscoped : ∀ b ∈ bs, b.Scoped) (h : ∀ b ∈ bs, b.Writes t) :
    (Block.toBranches t index vs n bs).Decides (∀ b ∈ bs, b.ReadsBack) fun _ => True := by
  induction bs generalizing n with
  | nil => exact (decides_pure trivial).congr (iff_of_true trivial (List.forall_mem_nil _))
  | cons b bs ih =>
    rw [List.forall_mem_cons] at hscoped h
    have hselect : ∀ v name, (.var v, name) ∈ Selected.ofBranch t index vs n b.exposed →
        v ∈ b.produced := by
      intro v name hv
      simp only [Selected.ofBranch, List.mem_cons, List.mem_map, Prod.mk.injEq, reduceCtorEq,
        false_and, false_or] at hv
      obtain ⟨w, -, hw, -⟩ := hv
      split at hw
      · cases hw
        exact hscoped.1.exposed (List.contains_iff_mem.mp (by assumption))
      · cases hw
    rw [Block.toBranches]
    exact ((h.1 false _ hselect).bind fun _ _ =>
      (ih (n + 1) hscoped.2 h.2).bind_pure fun _ _ => trivial).congr List.forall_mem_cons.symm

theorem Block.Writes.nested {b : Block} (h : b.Writes t) (hscoped : b.Scoped) {vs : List Variable}
    (hvs : vs ⊆ b.exposed) :
    (b.toSelect t false (Selected.ofVariables vs)).Decides b.ReadsBack fun _ => True := by
  refine h false _ fun v name hv => hscoped.exposed (hvs ?_)
  obtain ⟨w, hw, heq⟩ := List.mem_map.mp hv
  cases heq
  exact hw

theorem Source.toSql_decides (has : Assignment.Scoped all as) {s : Source} (first : Bool)
    (hscope : scope.Binds as bound) (hall : bound ++ s.produced ⊆ all) (hscoped : s.Scoped)
    (hcolumns : ∀ source vs, s = .table source vs → ∀ v ∈ vs, t.IsColumn v)
    (hblocks : ∀ b ∈ s.blocks, b.Writes t) :
    (Source.toSql t scope first s).Decides
      ((∀ on ∈ s.on?, ∀ v ∈ Condition.referencedAll on,
        Assignment.Determined as (bound ++ s.produced) v) ∧ ∀ b ∈ s.blocks, b.ReadsBack)
      fun r => r.1.Binds as (bound ++ s.produced) := by
  cases s with
  | table source vs =>
    rw [Source.toSql]
    refine (decides_freshSource_bind fun n =>
      (decides_lift (hscope.bindTable n (hcolumns source vs rfl))).bind_pure fun _ h => h).congr ?_
    simp [on?, blocks]
  | nested block vs =>
    rw [Source.toSql]
    have hblock := (hblocks block List.mem_cons_self).nested hscoped.1 hscoped.2
    refine (hblock.bind fun _ _ => decides_freshSource_bind fun n =>
      decides_pure (hscope.bindNested n vs)).congr ?_
    simp [on?, blocks]
  | union index branches vs =>
    rw [Source.toSql]
    have hbranches := Block.scopedBranches_iff.mp hscoped.2
    have hblocks := Block.toBranches_decides index vs 0 (fun b hb => (hbranches b hb).1) hblocks
    refine (hblocks.bind fun _ _ => decides_freshSource_bind fun n =>
      decides_pure (hscope.bindNested n _)).congr ?_
    simp [on?, blocks]
  | leftJoin block on vs =>
    rw [Source.toSql]
    have hblock := (hblocks block List.mem_cons_self).nested hscoped.1 hscoped.2
    refine Decides.congr (Q := block.ReadsBack ∧ ∀ v ∈ Condition.referencedAll on,
      Assignment.Determined as (bound ++ vs) v) ?_ (by simp [on?, blocks, produced, and_comm])
    refine hblock.bind fun _ _ => decides_freshSource_bind fun n => ?_
    have hscope := hscope.bindNested n vs
    have hon := decides_lift
      (Condition.toSqlEach_decides (t := t) (hscope.resolve_decides t hall has) on)
    cases first with
    | false => exact hon.bind_pure fun _ _ => hscope
    | true => exact decides_freshSource_bind fun _ => hon.bind_pure fun _ _ => hscope

/-- The sources of a block, each of which sees those before it. -/
theorem Source.toSqlEach_decides (has : Assignment.Scoped all as) {ss : List Source} (first : Bool)
    (hscope : scope.Binds as bound) (hall : bound ++ ss.flatMap produced ⊆ all)
    (hscoped : ∀ s ∈ ss, s.Scoped)
    (hcolumns : ∀ source vs, .table source vs ∈ ss → ∀ v ∈ vs, t.IsColumn v)
    (hblocks : ∀ s ∈ ss, ∀ b ∈ s.blocks, b.Writes t) :
    (Source.toSqlEach t scope first ss).Decides
      (ReadBack as bound ss ∧ ∀ s ∈ ss, ∀ b ∈ s.blocks, b.ReadsBack)
      fun r => r.1.Binds as (bound ++ ss.flatMap produced) := by
  induction ss generalizing scope bound first with
  | nil =>
    rw [Source.toSqlEach, List.flatMap_nil, List.append_nil]
    exact (decides_pure hscope).congr (by simp [ReadBack])
  | cons s ss ih =>
    rw [List.flatMap_cons, ← List.append_assoc] at hall ⊢
    rw [List.forall_mem_cons] at hscoped hblocks
    have hfirst := List.Subset.trans (List.subset_append_left _ _) hall
    have hs := Source.toSql_decides has first hscope hfirst hscoped.1
      (fun source vs heq => hcolumns source vs (heq ▸ List.mem_cons_self)) hblocks.1
    rw [Source.toSqlEach]
    refine (hs.bind fun r hr => ?_).congr
      (by rw [ReadBack, List.forall_mem_cons, and_and_and_comm])
    have hrest := ih false hr hall hscoped.2
      (fun source vs hs => hcolumns source vs (List.mem_cons_of_mem _ hs)) hblocks.2
    exact hrest.bind_pure fun _ h => h

/-- A well-scoped block whose tables bind columns can be written exactly if it reads back. -/
theorem Block.Scoped.writes {b : Block} (hscoped : b.Scoped)
    (hcolumns : b.Everywhere (TableColumns t)) : b.Writes t := by
  induction b using Block.induction with
  | step b ih =>
    obtain ⟨here, below⟩ := hcolumns
    have hblocks : ∀ s ∈ b.sources, ∀ c ∈ s.blocks, c.Writes t := fun s hs c hc =>
      ih s hs c hc ((hscoped.source hs).block hc) (below s hs c hc)
    have hempty : SelectScope.Binds ⟨[], b.assignments⟩ b.assignments [] :=
      ⟨rfl, fun v => by simp⟩
    have hsources := Source.toSqlEach_decides hscoped.assignments true hempty
      (List.Subset.refl _) (fun s hs => hscoped.source hs) here hblocks
    intro distinct columns hselect
    refine Decides.congr ?_ readsBack_iff.symm
    obtain ⟨exposed, sources, assignments, filters⟩ := b
    rw [Block.toSelect]
    refine (hsources.bind fun r hr => ?_).congr (and_iff_left trivial)
    -- All sources are bound here, so everything that the block binds resolves.
    have hresolve := hr.resolve_decides t (List.Subset.refl _) hscoped.assignments
    have hproduced : ∀ v ∈ produced _, Assignment.Determined _ _ v := fun v hv =>
      hscoped.assignments.determined hv
    have hcolumns := SelectScope.select_decides hresolve fun v name hv =>
      hproduced v (hselect v name hv)
    have hfilters := (Condition.toSqlEach_decides (t := t) hresolve filters).congr
      (iff_true_intro fun v hv => hproduced v (hscoped.filters hv))
    refine ((decides_lift hcolumns).bind fun _ _ => ?_).congr (and_iff_left trivial)
    exact (decides_lift hfilters).bind_pure fun _ _ => trivial

/-- The text of a block that selects exposed variables. -/
theorem Block.Writes.sql {b : Block} (h : b.Writes t) (hscoped : b.Scoped) (d : Dialect)
    {outputs : List (String × Variable)} (m : Modifiers) (next : Nat)
    (houtputs : outputs.map (·.2) ⊆ b.exposed) :
    (b.sql d t outputs m next).1.Decides b.ReadsBack fun _ => True := by
  refine Result.Decides.map (h m.distinct _ ?_ next) fun _ _ => trivial
  intro v name hv
  obtain ⟨output, houtput, heq⟩ := List.mem_map.mp hv
  cases heq
  exact hscoped.exposed (houtputs (List.mem_map_of_mem houtput))

/-- Every well-built block has a text. -/
theorem Block.WellBuilt.sql {b : Block} (h : b.WellBuilt t) (d : Dialect)
    {outputs : List (String × Variable)} (m : Modifiers) (next : Nat)
    (houtputs : outputs.map (·.2) ⊆ b.exposed) : (b.sql d t outputs m next).1.Succeeds := by
  have hwrites := h.wellScoped.writes (h.regular.mono fun _ hb => hb.tableColumns)
  rw [(hwrites.sql h.wellScoped d m next houtputs).succeeds_iff]
  exact h.regular.mono fun _ hb => hb.readBack

end Writing

namespace Block

/-- Of the blocks that pass the check, those have a text whose left joins read back, on every level.
For the others the check and the statement disagree on what a condition may read. -/
theorem sql_iff_readsBack {t : VariableTable} {b : Block} (hvalid : b.validate = .ok ())
    (hcolumns : ∀ table ∈ b.tables, ∀ v ∈ table.2, t.IsColumn v)
    {outputs : List (String × Variable)} (houtputs : outputs.map (·.2) ⊆ b.exposed) (d : Dialect)
    (m : Modifiers) (next : Nat) :
    ((∃ text, (b.sql d t outputs m next).1 = .ok text) ↔ b.ReadsBack) ∧
      (¬b.ReadsBack → ∃ v, (b.sql d t outputs m next).1 = .error (.scope (.notInScope v))) := by
  have hscoped := (validate_eq_ok b).mp hvalid
  have hsql := (hscoped.writes (everywhere_tableColumns hcolumns)).sql hscoped d m next houtputs
  generalize (b.sql d t outputs m next).1 = r at hsql ⊢
  cases r with
  | ok text => exact ⟨iff_of_true ⟨text, rfl⟩ hsql.1, fun hnot => absurd hsql.1 hnot⟩
  | error f =>
    refine ⟨iff_of_false (by rintro ⟨_, h⟩; cases h) hsql.1, fun _ => ?_⟩
    obtain ⟨v, rfl⟩ := hsql.2
    exact ⟨v, rfl⟩

/-- A left join whose condition reads an assigned variable, which depends on the source before
it. -/
theorem sql_iff_readsBack_assigned :
    let t : VariableTable :=
      [⟨.column "a", .integer, false⟩, ⟨.column "b", .integer, false⟩, ⟨.derived, .integer, false⟩]
    let inner : Block := ⟨[1], [.table (.table "q") [1]], [], []⟩
    let b : Block := ⟨[0, 1, 2],
      [.table (.table "p") [0], .leftJoin inner [.sameVariable 1 2] [1]], [⟨2, .column 0⟩], []⟩
    b.validate = .ok () ∧ (∀ table ∈ b.tables, ∀ v ∈ table.2, t.IsColumn v) ∧ b.ReadsBack ∧
      ∃ text, (b.sql .postgres t [("a", 0), ("c", 2)] ⟨false, none, none⟩ 0).1 = .ok text := by
  intro t inner b
  have hvalid : b.validate = .ok () := rfl
  have hcolumns : ∀ table ∈ b.tables, ∀ v ∈ table.2, t.IsColumn v := by
    refine List.forall_mem_cons.mpr ⟨?_, List.forall_mem_singleton.mpr ?_⟩
    · exact List.forall_mem_singleton.mpr ⟨_, "a", rfl, rfl⟩
    · exact List.forall_mem_singleton.mpr ⟨_, "b", rfl, rfl⟩
  have hassigned : Assignment.Determined [⟨2, .column 0⟩] [0, 1] 2 := by
    refine .assigned (a := ⟨2, .column 0⟩) List.mem_cons_self ?_
    exact List.forall_mem_singleton.mpr (.bound (by decide))
  have hon : ∀ v ∈ [1, 2], Assignment.Determined [⟨2, .column 0⟩] [0, 1] v :=
    List.forall_mem_cons.mpr ⟨.bound (by decide), List.forall_mem_singleton.mpr hassigned⟩
  have hinner : inner.ReadsBack := by
    refine readsBack_iff.mpr ⟨⟨?_, trivial⟩, List.forall_mem_singleton.mpr (List.forall_mem_nil _)⟩
    intro on hon
    cases hon
  have hreads : b.ReadsBack := by
    refine readsBack_iff.mpr
      ⟨⟨?_, ?_, trivial⟩, List.forall_mem_cons.mpr ⟨List.forall_mem_nil _, ?_⟩⟩
    · intro on hon
      cases hon
    · rintro _ ⟨⟩
      exact hon
    · exact List.forall_mem_singleton.mpr (List.forall_mem_singleton.mpr hinner)
  refine ⟨hvalid, hcolumns, hreads, ?_⟩
  exact (sql_iff_readsBack hvalid hcolumns (by decide) .postgres _ 0).1.mpr hreads

/-- A left join whose condition reads a later source passes the check, but has no text. -/
theorem sql_fails_reading_ahead :
    let t : VariableTable := [⟨.column "a", .integer, false⟩, ⟨.column "b", .integer, false⟩,
      ⟨.column "c", .integer, false⟩]
    let inner : Block := ⟨[1], [.table (.table "q") [1]], [], []⟩
    let b : Block := ⟨[0, 1, 2], [.table (.table "p") [0],
      .leftJoin inner [.sameVariable 1 2] [1], .table (.table "r") [2]], [], []⟩
    b.validate = .ok () ∧ (∀ table ∈ b.tables, ∀ v ∈ table.2, t.IsColumn v) ∧
      (b.sql .postgres t [("a", 0), ("b", 1), ("c", 2)] ⟨false, none, none⟩ 0).1 =
        .error (.scope (.notInScope 2)) := by
  intro t inner b
  refine ⟨rfl, List.forall_mem_cons.mpr ⟨?_, List.forall_mem_cons.mpr ⟨?_, ?_⟩⟩, rfl⟩
  · exact List.forall_mem_singleton.mpr ⟨_, "a", rfl, rfl⟩
  · exact List.forall_mem_singleton.mpr ⟨_, "b", rfl, rfl⟩
  · exact List.forall_mem_singleton.mpr
      (List.forall_mem_singleton.mpr ⟨_, "c", rfl, rfl⟩)

end Block

end VirtualGraph
