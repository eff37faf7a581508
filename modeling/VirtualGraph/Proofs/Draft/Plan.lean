import VirtualGraph.Proofs.Bound.Plain
import VirtualGraph.Proofs.Draft.Nested

/-!
# Plans of bound trees

Every bound tree has a plan whose block is well built, unless one of its expressions cannot be
compiled. A tree without expressions always has one.
-/

namespace VirtualGraph

namespace BoundTree

/-- The fault of an expression, which a plain tree does not have. -/
def Refused (plain : Prop) (f : Fault) : Prop := f.IsUnsupported ∧ ¬plain

theorem Refused.mono {plain plain' : Prop} (h : plain' → plain) (f : Fault)
    (hf : Refused plain f) : Refused plain' f :=
  ⟨hf.1, fun hplain => hf.2 (h hplain)⟩

theorem Refused.exists_use {plain : Prop} {f : Fault} (h : Refused plain f) :
    ∃ use, f = .unsupported use := by
  cases f with
  | unsupported use => exact ⟨use, rfl⟩
  | _ => exact h.1.elim

open DraftBuilder Draft

mutual

/-- Adding a tree to a draft keeps it sound. -/
theorem addTo_evolves : ∀ (tree : BoundTree) {t : VariableTable} {d : Draft}, d.Sound t →
    d.Evolves (Refused tree.Plain) t (tree.addTo d)
  | noMatch, t, d, h =>
    evolves_pure (h.addFilter (List.nil_subset _)) (grows_addFilter t d .never)
  | unit, t, d, h => evolves_pure h (.refl t d)
  | triple c, _, _, h => (addCandidate_evolves h c).of_excluded
  | join members, _, _, h => addAllTo_evolves members h
  | union branches, t, d, h => by
    rw [addTo]
    refine builds_fresh_bind ((draftEach_builds branches _).bind fun ds t' ht hds => ?_)
    have htaken : t.length < t'.length := by
      have := ht.length_le
      rw [List.length_append, List.length_singleton] at this
      exact this
    refine (addUnion_builds h ((List.prefix_append t _).trans ht) htaken fun b hb => ?_).of_excluded
    refine ⟨(hds b hb).1, fun v hv => ?_⟩
    have := (hds b hb).2 v hv
    rw [List.length_append, List.length_singleton] at this
    exact this
  | leftJoin left right condition, t, d, h => by
    rw [addTo]
    refine ((addTo_evolves left h).allow (Refused.mono And.left)).bind fun d' t' ht hd' => ?_
    refine ((addTo_evolves right sound_empty).allow (Refused.mono fun h => h.2.1)).bind
      fun nested t'' ht' hnested => ?_
    refine (addLeftJoin_builds hd'.1 ht' hnested.1 hnested.2 left.variables condition ?_).mono
      fun _ _ _ hd => ⟨hd.1, hd'.2.trans ht hd.2⟩
    intro hsome f hf
    exact ⟨hf, fun hplain => by simp [hplain.2.2] at hsome⟩
  | filter condition inner, _, _, h =>
    Evolves.bind ((addTo_evolves inner h).allow fun _ hf => ⟨hf.1, id⟩) fun _ _ _ hsound _ =>
      (restrict_evolves hsound inner.variables condition).allow fun _ hf => ⟨hf, id⟩
  | extend inner name value, _, _, h =>
    Evolves.bind ((addTo_evolves inner h).allow fun _ hf => ⟨hf.1, id⟩) fun _ _ _ hsound _ =>
      (extend_evolves hsound inner.variables name value).allow fun _ hf => ⟨hf, id⟩

theorem addAllTo_evolves : ∀ (trees : List BoundTree) {t : VariableTable} {d : Draft}, d.Sound t →
    d.Evolves (Refused (PlainAll trees)) t (addAllTo d trees)
  | [], t, d, h => evolves_pure h (.refl t d)
  | tree :: rest, _, _, h =>
    Evolves.bind ((addTo_evolves tree h).allow (Refused.mono And.left)) fun _ _ _ hsound _ =>
      (addAllTo_evolves rest hsound).allow (Refused.mono And.right)

theorem draftEach_builds : ∀ (trees : List BoundTree) (t : VariableTable),
    (draftEach trees).Builds (Refused (PlainAll trees)) t fun ds t' =>
      ∀ d ∈ ds, d.Sound t' ∧ ∀ v ∈ d.vars, t.length ≤ v
  | [], _ => builds_pure fun _ hd => absurd hd List.not_mem_nil
  | tree :: rest, t => by
    rw [draftEach]
    refine ((addTo_evolves tree sound_empty).allow (Refused.mono And.left)).bind
      fun d t' ht hd => ?_
    refine ((draftEach_builds rest t').allow (Refused.mono And.right)).bind
      fun ds t'' ht' hds => builds_pure (List.forall_mem_cons.mpr ⟨⟨hd.1.mono ht', ?_⟩, ?_⟩)
    · exact fun v hv => (hd.2.fresh v hv).resolve_left List.not_mem_nil
    · exact fun d hd => ⟨(hds d hd).1, fun v hv =>
        Nat.le_trans ht.length_le ((hds d hd).2 v hv)⟩

end

/-- A tree without expressions has a draft. -/
theorem addTo_evolves_of_plain {tree : BoundTree} (h : tree.Plain) (t : VariableTable) :
    Draft.empty.Evolves Fault.Excluded t (tree.addTo .empty) :=
  (addTo_evolves tree sound_empty).allow fun _ hf => hf.2 h

end BoundTree

namespace Draft

open DraftBuilder

/-- Projected query variables are assigned to output variables. -/
theorem project_builds {names : List String} {t : VariableTable} {d : Draft} (h : d.Sound t) :
    (d.project names).Builds Fault.Excluded t fun r t' =>
      (r.1.Sound t' ∧ d.Grows t r.1) ∧ r.2.map (·.2) ⊆ r.1.vars := by
  induction names generalizing d t with
  | nil => exact builds_pure ⟨⟨h, .refl t d⟩, List.nil_subset _⟩
  | cons name names ih =>
    have hstep : ∀ (x : Scalar) (info : VariableInfo), x.referenced ⊆ d.vars →
        DraftBuilder.Builds Fault.Excluded t (fun r t' =>
          (r.1.Sound t' ∧ d.Grows t r.1) ∧ r.2.map (·.2) ⊆ r.1.vars) (do
            let v ← freshVariable info
            let r ← project (d.assign v x) names
            return (r.1, (name, v) :: r.2)) := by
      intro x info hx
      refine builds_fresh_bind ?_
      have hgrows : d.Grows t (d.assign t.length x) := grows_assign d x (Nat.le_refl _)
      have hsound := (h.mono (List.prefix_append t [info])).assign h.fresh (by simp) hx
      refine (ih hsound).bind fun r t' ht hr => builds_pure ?_
      obtain ⟨⟨hsound', hgrows'⟩, houtputs⟩ := hr
      refine ⟨⟨hsound', hgrows.trans (List.prefix_append t _) hgrows'⟩, ?_⟩
      refine List.cons_subset.mpr ⟨hgrows'.vars ?_, houtputs⟩
      rw [vars_assign]
      exact List.mem_append_right _ List.mem_cons_self
    rw [project]
    refine builds_get_bind ?_
    dsimp only
    split
    · rename_i b hb
      refine builds_lift_bind (Binding.toScalar_meets h.within (h.bindings _ (mem_of_lookup hb))) ?_
      exact fun x hx => hstep x _ hx
    · exact hstep .null _ (List.nil_subset _)

end Draft

namespace BoundTree

open DraftBuilder

/-- The plan of a tree is well built and exposes its outputs. -/
theorem plan_meets (tree : BoundTree) (projection : List String) :
    (tree.plan projection).Meets (Refused tree.Plain) fun p =>
      p.block.WellBuilt p.table ∧ p.outputs.map (·.2) ⊆ p.block.exposed := by
  have hbuild : DraftBuilder.Builds (Refused tree.Plain) []
      (fun r t => r.1.WellBuilt t ∧ r.2.map (·.2) ⊆ r.1.exposed) (do
        let d ← tree.addTo .empty
        let r ← d.project projection
        return (r.1.toBlock (r.2.map (·.2)), r.2)) := by
    refine Builds.bind (tree.addTo_evolves Draft.sound_empty) fun d t _ hd => ?_
    refine (Draft.project_builds hd.1).of_excluded.bind fun r t' _ hr => builds_pure ?_
    exact ⟨hr.1.1.toBlock hr.2, List.Subset.refl _⟩
  exact Result.Meets.bind hbuild fun r hr => hr.2

end BoundTree

end VirtualGraph
