import VirtualGraph.Proofs.Draft.Extensions

/-!
# Trees that are independent of other solutions

The members of a join are added to one draft, one after the other. A filter, an extension or a left
join inside a member is made on solutions that are joined already with those of the members before
it. It has the variables of its own pattern only, but where the pattern leaves one of them unbound,
it has the term that an earlier member has bound it to.

A tree is independent of given variables if this makes no difference: what is read of them is bound
in the pattern itself. Its solutions may then be filtered, extended and left-joined after they are
joined with others. A tree without expressions whose left joins are anchored is independent of all
variables.
-/

namespace VirtualGraph

namespace Solution

variable {a l r : Solution} {A L : Multiset Solution} {outer names : List String} {e : Expression}
variable {D : ValueDomain String} {S : Rendering}

theorem only_congr {names' : List String} (h : ∀ x, x ∈ names ↔ x ∈ names') :
    a.only names = a.only names' :=
  funext fun x => if_congr (h x) rfl rfl

/-- Of the given variables, an expression reads none that others may bind and the solution does
not. -/
def Clear (outer names : List String) (e : Expression) (l : Solution) : Prop :=
  ∀ x ∈ e.names, x ∈ names → x ∈ outer → l x ≠ none

theorem Clear.mono {outer' : List String} (h : l.Clear outer names e) (houter : outer' ⊆ outer) :
    l.Clear outer' names e :=
  fun x hx hmem hx' => h x hx hmem (houter hx')

/-- An expression sees a solution as it is, though it is merged with another one. -/
theorem Clear.sameOn (h : l.Clear outer names e) (ha : a.BoundIn outer) (hl : l.BoundIn names)
    (hal : Compatible a l) : Expression.SameOn l ((a.merge l).only names) e.subterms := by
  refine Expression.sameOn_iff.mpr fun x hx => ?_
  unfold only
  split
  · rename_i hname
    refine (merge_eq_right hal ?_).symm
    by_cases hout : x ∈ outer
    · exact .inl (h x hx hname hout)
    · exact .inr (by_contra fun hbound => hout (ha x hbound))
  · rename_i hname
    exact by_contra fun hbound => hname (hl x hbound)

section Later

variable (hA : ∀ a ∈ A, a.BoundIn outer) (hL : ∀ l ∈ L, l.BoundIn names)
  (hclear : ∀ l ∈ L, l.Clear outer names e)

include hA hL hclear

open Classical in
/-- A filter may be made after its pattern is joined with other solutions. -/
theorem filter_join :
    (join A L).filter (fun c => (Interpretation.shown D S).holds e (c.only names)) =
      join A (L.filter ((Interpretation.shown D S).holds e)) := by
  rw [join, join, Multiset.filter_bind]
  refine Multiset.bind_congr fun a ha => ?_
  rw [Multiset.filter_bind, Multiset.bind_filter]
  refine Multiset.bind_congr fun l hl => ?_
  by_cases hal : Compatible a l
  · have htruth := Expression.truth_congr (S := S) (D := D) e
      ((hclear l hl).sameOn (hA a ha) (hL l hl) hal)
    have hsame : (Interpretation.shown D S).holds e ((a.merge l).only names) ↔
        (Interpretation.shown D S).holds e l :=
      iff_of_eq (congrArg (· = Truth.yes) htruth.symm)
    rw [combine, if_pos hal, Multiset.filter_singleton, if_congr hsame rfl rfl]
    rfl
  · rw [combine, if_neg hal, Multiset.filter_zero, ite_self]

/-- An extension may be made after its pattern is joined with other solutions. -/
theorem bindEach_join {name : String} (hname : name ∉ names) :
    bindEach name (fun c => e.termOn S (c.only names)) (join A L) =
      join A (L.map fun l => l.bind name (e.termOn S l)) := by
  rw [bindEach, join, join, Multiset.bind_assoc]
  refine Multiset.bind_congr fun a ha => ?_
  rw [Multiset.bind_assoc, Multiset.bind_map]
  refine Multiset.bind_congr fun l hl => ?_
  have hunbound : l name = none := by_contra fun hbound => hname (hL l hl name hbound)
  have hmerge : l.bind name (e.termOn S l) = l.merge (single name (e.termOn S l)) := by
    funext x
    rw [bind, merge, single]
    split
    · rename_i hx
      rw [hx, hunbound, Option.none_or, Option.or_none]
    · rw [Option.or_none]
  rw [hmerge]
  by_cases hal : Compatible a l
  · have hsame := Expression.termOn_congr (S := S) e
      ((hclear l hl).sameOn (hA a ha) (hL l hl) hal)
    have hleft : a.combine l = {a.merge l} := if_pos hal
    have hright : l.combine (single name (e.termOn S l)) =
        {l.merge (single name (e.termOn S l))} :=
      if_pos (compatible_single.mpr (.inl hunbound))
    have hassoc := combine_assoc (a := a) (b := l) (c := single name (e.termOn S l))
    rw [hleft, hright, Multiset.singleton_bind, Multiset.singleton_bind] at hassoc
    rw [hleft, Multiset.singleton_bind, ← hsame, hassoc]
  · have hnone : a.combine l = 0 := if_neg hal
    rw [hnone, Multiset.zero_bind, combine_merge_of_not_compatible hal]

end Later

end Solution

namespace BoundTree

variable {D : ValueDomain String} {S : Rendering} {db : Database String}
  {outer outer' : List String}

/-- An expression reads no variable of others if the tree is sure to bind the variables that it
shares with them. -/
theorem clear_of_boundNames {I : Interpretation String} {t : BoundTree} {e : Expression}
    (h : ∀ x ∈ e.names, x ∈ t.names → x ∈ outer → x ∈ t.boundNames) :
    ∀ l ∈ t.solutions I db, l.Clear outer t.names e :=
  fun l hl x hx hname hout => ne_none_of_mem_boundNames t l hl x (h x hx hname hout)

mutual

/-- What the tree reads of given variables is bound where it is read, and its expressions mean the
same wherever they are computed. -/
def Independent (D : ValueDomain String) (S : Rendering) (db : Database String)
    (outer : List String) : BoundTree → Prop
  | noMatch => True
  | unit => True
  | triple _ => True
  | join members => IndependentAll D S db outer members
  | union branches => IndependentEach D S db branches
  | leftJoin left right condition =>
    Independent D S db outer left ∧ Independent D S db [] right ∧
      ∀ l ∈ left.solutions (.shown D S) db,
        (∀ x ∈ left.names, x ∈ right.names → x ∈ outer → l x ≠ none) ∧
        ∀ e ∈ condition, l.Clear (outer ++ right.names) left.names e ∧
          ∀ r ∈ right.solutions (.shown D S) db, l.Compatible r → e.Steady S (l.merge r)
  | filter e inner => Independent D S db outer inner ∧
    ∀ l ∈ inner.solutions (.shown D S) db, l.Clear outer inner.names e ∧ e.Steady S l
  | extend inner name value => Independent D S db outer inner ∧ name ∉ inner.names ∧
    ∀ l ∈ inner.solutions (.shown D S) db, l.Clear outer inner.names value ∧ value.Steady S l
termination_by structural t => t

/-- The members of a join, each independent also of those before it. -/
def IndependentAll (D : ValueDomain String) (S : Rendering) (db : Database String)
    (outer : List String) : List BoundTree → Prop
  | [] => True
  | t :: rest => Independent D S db outer t ∧ IndependentAll D S db (outer ++ t.names) rest
termination_by structural ts => ts

/-- The branches of a union, which are not joined with other solutions. -/
def IndependentEach (D : ValueDomain String) (S : Rendering) (db : Database String) :
    List BoundTree → Prop
  | [] => True
  | t :: rest => Independent D S db [] t ∧ IndependentEach D S db rest
termination_by structural ts => ts

end

mutual

/-- A tree that is independent of some variables is independent of fewer. -/
theorem independent_mono : ∀ (t : BoundTree) {outer outer' : List String}, outer' ⊆ outer →
    t.Independent D S db outer → t.Independent D S db outer'
  | noMatch, _, _, _, _ => trivial
  | unit, _, _, _, _ => trivial
  | triple _, _, _, _, _ => trivial
  | join members, _, _, houter, h => independentAll_mono members houter h
  | union _, _, _, _, h => h
  | leftJoin left _ _, _, _, houter, h => by
    refine ⟨independent_mono left houter h.1, h.2.1, fun l hl => ?_⟩
    obtain ⟨hanchored, hcondition⟩ := h.2.2 l hl
    refine ⟨fun x hx hx' hout => hanchored x hx hx' (houter hout), fun e he => ?_⟩
    exact ⟨(hcondition e he).1.mono (append_subset_append houter (List.Subset.refl _)),
      (hcondition e he).2⟩
  | filter _ inner, _, _, houter, h =>
    ⟨independent_mono inner houter h.1, fun l hl => ⟨(h.2 l hl).1.mono houter, (h.2 l hl).2⟩⟩
  | extend inner _ _, _, _, houter, h =>
    ⟨independent_mono inner houter h.1, h.2.1, fun l hl =>
      ⟨(h.2.2 l hl).1.mono houter, (h.2.2 l hl).2⟩⟩

theorem independentAll_mono : ∀ (ts : List BoundTree) {outer outer' : List String},
    outer' ⊆ outer → IndependentAll D S db outer ts → IndependentAll D S db outer' ts
  | [], _, _, _, _ => trivial
  | t :: rest, _, _, houter, h =>
    ⟨independent_mono t houter h.1,
      independentAll_mono rest (append_subset_append houter (List.Subset.refl _)) h.2⟩

end

end BoundTree

end VirtualGraph
