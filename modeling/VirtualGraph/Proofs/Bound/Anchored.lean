import VirtualGraph.Proofs.Bound.Distribution
import VirtualGraph.Proofs.Bound.Plain

/-!
# Optional parts in a join

A left join can be made after its left side is joined with other solutions: each of them is extended
by the solutions of the right side that agree with it on the variables of the left side. This comes
to the same if the left side binds every variable that it shares with the right side. Otherwise the
other solutions may bind one in its place, and the right side is held against their term.
-/

namespace VirtualGraph

variable {α : Type} {I : Interpretation α} {db : Database α}

namespace Solution

/-- Two terms of one variable are the same, or there is at most one of them. -/
def Agree (x y : Option RdfTerm) : Prop := x = none ∨ y = none ∨ x = y

/-- Two solutions agree on given variables. -/
def AgreeOn (names : List String) (a b : Solution) : Prop := ∀ x ∈ names, Agree (a x) (b x)

open Classical in
/-- The solutions that agree with a given one on given variables, and meet a condition with it. -/
noncomputable def matched (names : List String) (p : Solution → Solution → Prop)
    (S : Multiset Solution) (a : Solution) : Multiset Solution :=
  S.filter fun b => AgreeOn names a b ∧ p a b

/-- A solution extended by those that are matched with it, or by itself if there are none. -/
noncomputable def optional (names : List String) (p : Solution → Solution → Prop)
    (S : Multiset Solution) (a : Solution) : Multiset Solution :=
  if (matched names p S a).card = 0 then {a} else (matched names p S a).bind a.combine

/-- All variables that a solution binds are among given ones. -/
def BoundIn (names : List String) (a : Solution) : Prop := ∀ x, a x ≠ none → x ∈ names

variable {a l r : Solution} {A L R : Multiset Solution} {names names' : List String}

theorem BoundIn.mono (h : a.BoundIn names) (hnames : names ⊆ names') : a.BoundIn names' :=
  fun x hx => hnames (h x hx)

theorem BoundIn.merge (ha : a.BoundIn names) (hl : l.BoundIn names) :
    (a.merge l).BoundIn names := by
  intro x hx
  cases hax : a x with
  | some y => exact ha x (hax ▸ Option.some_ne_none y)
  | none =>
    rw [Solution.merge, hax, Option.none_or] at hx
    exact hl x hx

theorem BoundIn.bind {name : String} {term : Option RdfTerm} (ha : a.BoundIn names) :
    (a.bind name term).BoundIn (names ++ [name]) := by
  intro x hx
  by_cases hname : x = name
  · exact List.mem_append_right _ (List.mem_singleton.mpr hname)
  · rw [Solution.bind, if_neg hname] at hx
    exact List.mem_append_left _ (ha x hx)

open Classical in
theorem bind_combine_eq_map (l : Solution) (R : Multiset Solution) :
    R.bind l.combine = (R.filter (Compatible l)).map l.merge := by
  rw [← Multiset.bind_singleton, Multiset.bind_filter]
  exact Multiset.bind_congr fun r _ => rfl

/-- A solution that is not compatible with the left side of a left join is not compatible with what
the left join makes of it. -/
theorem combine_merge_of_not_compatible (h : ¬Compatible a l) : a.combine (l.merge r) = 0 := by
  refine if_neg fun hc => h fun x => ?_
  obtain hx | hx | hx := hc x
  · exact .inl hx
  · exact .inr (.inl (Option.or_eq_none_iff.mp hx).1)
  · cases hl : l x with
    | none => exact .inr (.inl rfl)
    | some y => exact .inr (.inr (hx.trans (merge_of_left hl)))

/-- A merged solution has the terms of its right side, where only the right side may bind. -/
theorem merge_eq_right (hal : Compatible a l) {x : String} (hx : l x ≠ none ∨ a x = none) :
    a.merge l x = l x := by
  obtain hx | hx := hx
  · obtain ⟨y, hy⟩ := Option.ne_none_iff_exists'.mp hx
    rw [hy]
    exact merge_of_right hal hy
  · rw [merge, hx, Option.none_or]

/-- If no other solution binds a shared variable in place of the left side, agreement on the
variables of the left side is compatibility with it. -/
theorem agreeOn_merge_iff (hal : Compatible a l) (hl : l.BoundIn names) (hr : r.BoundIn names')
    (hanchored : ∀ x ∈ names, x ∈ names' → l x ≠ none ∨ a x = none) :
    AgreeOn names (a.merge l) r ↔ Compatible l r := by
  constructor
  · intro h x
    by_cases hlx : l x = none
    · exact .inl hlx
    · have hagree := h x (hl x hlx)
      rwa [merge_eq_right hal (.inl hlx)] at hagree
  · intro h x hx
    by_cases hrx : r x = none
    · exact .inr (.inl hrx)
    · rw [merge_eq_right hal (hanchored x hx (hr x hrx))]
      exact h x

open Classical in
theorem filter_bind_combine (p : Solution → Prop) (l : Solution) (R : Multiset Solution) :
    (R.bind l.combine).filter p =
      (R.filter fun r => Compatible l r ∧ p (l.merge r)).map l.merge := by
  rw [bind_combine_eq_map, Multiset.filter_map, Multiset.filter_filter]
  exact congrArg _ (Multiset.filter_congr fun r _ => and_comm)

section

variable {p : Solution → Prop} {q : Solution → Solution → Prop}

open Classical in
theorem combine_bind_optional (hl : l.BoundIn names) (hR : ∀ r ∈ R, r.BoundIn names')
    (hanchored : ∀ x ∈ names, x ∈ names' → l x ≠ none ∨ a x = none)
    (hp : ∀ r ∈ R, Compatible a l → Compatible l r → (q (a.merge l) r ↔ p (l.merge r))) :
    (a.combine l).bind (optional names q R) =
      (if ((R.bind l.combine).filter p).card = 0 then {l}
        else (R.bind l.combine).filter p).bind a.combine := by
  rw [filter_bind_combine, Multiset.card_map]
  by_cases hal : Compatible a l
  · have hmatched : matched names q R (a.merge l) =
        R.filter fun r => Compatible l r ∧ p (l.merge r) :=
      Multiset.filter_congr fun r hr => by
        rw [agreeOn_merge_iff hal hl (hR r hr) hanchored]
        exact and_congr_right fun hlr => hp r hr hal hlr
    rw [combine, if_pos hal, Multiset.singleton_bind, optional, hmatched]
    split
    · rw [Multiset.singleton_bind, combine, if_pos hal]
    · rw [Multiset.bind_map]
      refine Multiset.bind_congr fun r hr => ?_
      have hleft : a.combine l = {a.merge l} := if_pos hal
      have hright : l.combine r = {l.merge r} := if_pos (Multiset.mem_filter.mp hr).2.1
      have hassoc := combine_assoc (a := a) (b := l) (c := r)
      rwa [hleft, hright, Multiset.singleton_bind, Multiset.singleton_bind] at hassoc
  · have hnone : a.combine l = 0 := if_neg hal
    rw [hnone, Multiset.zero_bind]
    split
    · rw [Multiset.singleton_bind, hnone]
    · rw [Multiset.bind_map]
      exact ((Multiset.bind_congr fun r _ => combine_merge_of_not_compatible hal).trans
        (Multiset.bind_zero _)).symm

/-- A left join may be made after its left side is joined with other solutions. -/
theorem join_bind_optional (hL : ∀ l ∈ L, l.BoundIn names) (hR : ∀ r ∈ R, r.BoundIn names')
    (hanchored : ∀ a ∈ A, ∀ l ∈ L, ∀ x ∈ names, x ∈ names' → l x ≠ none ∨ a x = none)
    (hp : ∀ a ∈ A, ∀ l ∈ L, ∀ r ∈ R, Compatible a l → Compatible l r →
      (q (a.merge l) r ↔ p (l.merge r))) :
    (join A L).bind (optional names q R) = join A (leftJoin p L R) := by
  rw [join, join, leftJoin, Multiset.bind_assoc]
  refine Multiset.bind_congr fun a ha => ?_
  rw [Multiset.bind_assoc, Multiset.bind_assoc]
  exact Multiset.bind_congr fun l hl =>
    combine_bind_optional (hL l hl) hR (hanchored a ha l hl) (hp a ha l hl)

end

end Solution

namespace Candidate

variable {I J : Interpretation α} {c : Candidate} {rows : RowChoice α}

theorem rowTerm_congr (htext : I.text = J.text) : rowTerm I rows c = rowTerm J rows c := by
  funext p
  simp only [rowTerm, TermMap.rowTerm, TermMap.rowText, TermMap.columnText, htext]

theorem Admits.congr (h : c.Admits I rows) (htext : I.text = J.text) : c.Admits J rows :=
  ⟨h.columns, h.joins, rowTerm_congr htext ▸ h.constants, rowTerm_congr htext ▸ h.repeated⟩

/-- The solutions of a candidate depend only on how values are written. -/
theorem solutions_congr (htext : I.text = J.text) (c : Candidate) :
    c.solutions I db = c.solutions J db := by
  have hadmits : c.Admits I = c.Admits J := funext fun rows =>
    propext ⟨fun h => h.congr htext, fun h => h.congr htext.symm⟩
  have hsolution : c.solution I = c.solution J := by
    funext rows name
    rw [solution, solution, rowTerm_congr htext]
  rw [solutions, solutions, hadmits, hsolution]

end Candidate

namespace BoundTree

theorem mem_variables_iff {c : Candidate} {x : String} :
    x ∈ c.pattern.variables ↔ ∃ p, c.queryTerm p = .var x := by
  constructor
  · intro hx
    obtain ⟨term, hterm, hvar⟩ := List.mem_filterMap.mp hx
    have hname : term = .var x := by
      cases term <;> simp_all [Term.varName?]
    simp only [TriplePattern.terms, List.mem_cons, List.not_mem_nil, or_false] at hterm
    obtain hterm | hterm | hterm := hterm
    · exact ⟨.subject, hterm.symm.trans hname⟩
    · exact ⟨.predicate, hterm.symm.trans hname⟩
    · exact ⟨.object, hterm.symm.trans hname⟩
  · rintro ⟨p, hp⟩
    refine List.mem_filterMap.mpr ⟨c.queryTerm p, ?_, by rw [hp]; rfl⟩
    cases p <;> simp [Candidate.queryTerm, TriplePattern.terms]

theorem boundIn_candidate {c : Candidate} {rows : RowChoice α} :
    (c.solution I rows).BoundIn c.pattern.variables := by
  intro x hx
  rw [Candidate.solution, ne_eq, Option.map_eq_none_iff] at hx
  obtain ⟨p, hp⟩ := Option.ne_none_iff_exists'.mp hx
  exact mem_variables_iff.mpr ⟨p, by simpa using List.find?_some hp⟩

open Classical in
mutual

/-- Solutions bind variables of the tree only. -/
theorem boundIn_names : ∀ t : BoundTree, ∀ a ∈ t.solutions I db, a.BoundIn t.names
  | noMatch, _, ha => absurd ha (Multiset.notMem_zero _)
  | unit, _, ha => by
    obtain rfl := Multiset.mem_singleton.mp ha
    exact fun _ hx => absurd rfl hx
  | triple c, _, ha => by
    obtain ⟨rows, -, rfl⟩ := Candidate.mem_solutions ha
    exact boundIn_candidate
  | join members, a, ha => boundIn_names_join members a ha
  | union branches, a, ha => boundIn_names_union branches a ha
  | leftJoin left right _, a, ha => by
    obtain ⟨l, hl, rfl | ⟨r, hr, -, rfl⟩⟩ := Solution.mem_leftJoin ha
    · exact (boundIn_names left a hl).mono (List.subset_append_left _ _)
    · exact ((boundIn_names left l hl).mono (List.subset_append_left _ _)).merge
        ((boundIn_names right r hr).mono (List.subset_append_right _ _))
  | filter _ inner, a, ha => boundIn_names inner a (Multiset.mem_of_mem_filter ha)
  | extend inner _ _, a, ha => by
    obtain ⟨l, hl, rfl⟩ := Multiset.mem_map.mp ha
    exact (boundIn_names inner l hl).bind

theorem boundIn_names_join : ∀ ts : List BoundTree,
    ∀ a ∈ solutionsOfJoin I db ts, a.BoundIn (namesAll ts)
  | [], _, ha => by
    obtain rfl := Multiset.mem_singleton.mp ha
    exact fun _ hx => absurd rfl hx
  | t :: rest, a, ha => by
    obtain ⟨l, hl, r, hr, -, rfl⟩ := Solution.mem_join.mp ha
    exact ((boundIn_names t l hl).mono (List.subset_append_left _ _)).merge
      ((boundIn_names_join rest r hr).mono (List.subset_append_right _ _))

theorem boundIn_names_union : ∀ ts : List BoundTree,
    ∀ a ∈ solutionsOfUnion I db ts, a.BoundIn (namesAll ts)
  | [], _, ha => absurd ha (Multiset.notMem_zero _)
  | t :: rest, a, ha => by
    obtain ha | ha := Multiset.mem_add.mp ha
    · exact (boundIn_names t a ha).mono (List.subset_append_left _ _)
    · exact (boundIn_names_union rest a ha).mono (List.subset_append_right _ _)

end

mutual

/-- Variables that every solution of the tree binds. -/
def boundNames : BoundTree → List String
  | noMatch => []
  | unit => []
  | triple c => c.pattern.variables
  | join members => boundNamesOfJoin members
  | union branches => boundNamesOfUnion branches
  | leftJoin left _ _ => boundNames left
  | filter _ inner => boundNames inner
  | extend inner _ _ => boundNames inner

def boundNamesOfJoin : List BoundTree → List String
  | [] => []
  | t :: rest => boundNames t ++ boundNamesOfJoin rest

def boundNamesOfUnion : List BoundTree → List String
  | [] => []
  | [t] => boundNames t
  | t :: rest => (boundNames t).filter (· ∈ boundNamesOfUnion rest)

end

theorem ne_none_of_mem_variables {c : Candidate} {a : Solution} (ha : a ∈ c.solutions I db)
    {x : String} (hx : x ∈ c.pattern.variables) : a x ≠ none := by
  obtain ⟨rows, hadmits, rfl⟩ := Candidate.mem_solutions ha
  obtain ⟨p, hp⟩ := mem_variables_iff.mp hx
  rw [hadmits.solution_eq hp]
  exact Option.some_ne_none _

open Classical in
mutual

theorem ne_none_of_mem_boundNames : ∀ t : BoundTree, ∀ a ∈ t.solutions I db,
    ∀ x ∈ t.boundNames, a x ≠ none
  | noMatch, _, _, _, hx => absurd hx List.not_mem_nil
  | unit, _, _, _, hx => absurd hx List.not_mem_nil
  | triple _, _, ha, _, hx => ne_none_of_mem_variables ha hx
  | join members, a, ha, x, hx => ne_none_of_mem_boundNamesOfJoin members a ha x hx
  | union branches, a, ha, x, hx => ne_none_of_mem_boundNamesOfUnion branches a ha x hx
  | leftJoin left _ _, a, ha, x, hx => by
    obtain ⟨l, hl, rfl | ⟨r, -, -, rfl⟩⟩ := Solution.mem_leftJoin ha
    · exact ne_none_of_mem_boundNames left a hl x hx
    · obtain ⟨y, hy⟩ := Option.ne_none_iff_exists'.mp (ne_none_of_mem_boundNames left l hl x hx)
      rw [Solution.merge_of_left hy]
      exact Option.some_ne_none y
  | filter _ inner, a, ha, x, hx =>
    ne_none_of_mem_boundNames inner a (Multiset.mem_of_mem_filter ha) x hx
  | extend inner name value, a, ha, x, hx => by
    obtain ⟨l, hl, rfl⟩ := Multiset.mem_map.mp ha
    have hbound := ne_none_of_mem_boundNames inner l hl x hx
    rw [Solution.bind]
    split
    · exact fun hnone => hbound (Option.or_eq_none_iff.mp hnone).2
    · exact hbound

theorem ne_none_of_mem_boundNamesOfJoin : ∀ ts : List BoundTree,
    ∀ a ∈ solutionsOfJoin I db ts, ∀ x ∈ boundNamesOfJoin ts, a x ≠ none
  | [], _, _, _, hx => absurd hx List.not_mem_nil
  | t :: rest, a, ha, x, hx => by
    obtain ⟨l, hl, r, hr, hc, rfl⟩ := Solution.mem_join.mp ha
    obtain hx | hx := List.mem_append.mp hx
    · obtain ⟨y, hy⟩ := Option.ne_none_iff_exists'.mp (ne_none_of_mem_boundNames t l hl x hx)
      rw [Solution.merge_of_left hy]
      exact Option.some_ne_none y
    · obtain ⟨y, hy⟩ :=
        Option.ne_none_iff_exists'.mp (ne_none_of_mem_boundNamesOfJoin rest r hr x hx)
      rw [Solution.merge_of_right hc hy]
      exact Option.some_ne_none y

theorem ne_none_of_mem_boundNamesOfUnion : ∀ ts : List BoundTree,
    ∀ a ∈ solutionsOfUnion I db ts, ∀ x ∈ boundNamesOfUnion ts, a x ≠ none
  | [], _, _, _, hx => absurd hx List.not_mem_nil
  | [t], a, ha, x, hx => by
    obtain ha | ha := Multiset.mem_add.mp ha
    · exact ne_none_of_mem_boundNames t a ha x hx
    · exact absurd ha (Multiset.notMem_zero _)
  | t :: u :: rest, a, ha, x, hx => by
    obtain ⟨hx, hx'⟩ := List.mem_filter.mp hx
    obtain ha | ha := Multiset.mem_add.mp ha
    · exact ne_none_of_mem_boundNames t a ha x hx
    · exact ne_none_of_mem_boundNamesOfUnion (u :: rest) a ha x (of_decide_eq_true hx')

end

open Classical in
mutual

/-- The solutions of a tree without expressions do not depend on what expressions mean. -/
theorem solutions_of_plain {I J : Interpretation α} (htext : I.text = J.text) :
    ∀ t : BoundTree, t.Plain → t.solutions I db = t.solutions J db
  | noMatch, _ => rfl
  | unit, _ => rfl
  | triple c, _ => c.solutions_congr htext
  | join members, h => (solutionsOf_plainAll htext members h).1
  | union branches, h => (solutionsOf_plainAll htext branches h).2
  | leftJoin left right _, ⟨hl, hr, rfl⟩ => by
    have hmeets : meets I none = meets J none := funext fun a => propext
      ⟨fun _ _ he => absurd he (Option.not_mem_none _),
        fun _ _ he => absurd he (Option.not_mem_none _)⟩
    rw [solutions, solutions, solutions_of_plain htext left hl, solutions_of_plain htext right hr,
      hmeets]

theorem solutionsOf_plainAll {I J : Interpretation α} (htext : I.text = J.text) :
    ∀ ts : List BoundTree, PlainAll ts → solutionsOfJoin I db ts = solutionsOfJoin J db ts ∧
      solutionsOfUnion I db ts = solutionsOfUnion J db ts
  | [], _ => ⟨rfl, rfl⟩
  | t :: rest, h => by
    obtain ⟨hjoin, hunion⟩ := solutionsOf_plainAll htext rest h.2
    simp only [solutionsOfJoin, solutionsOfUnion, solutions_of_plain htext t h.1, hjoin, hunion,
      and_self]

end

/-- The solutions of one tree bind all variables that it shares with another. -/
def Anchors (I : Interpretation α) (db : Database α) (left right : BoundTree) : Prop :=
  ∀ a ∈ left.solutions I db, ∀ x ∈ left.names, x ∈ right.names → a x ≠ none

theorem anchors_of_boundNames {left right : BoundTree}
    (h : ∀ x ∈ left.names, x ∈ right.names → x ∈ left.boundNames) : Anchors I db left right :=
  fun a ha x hx hx' => ne_none_of_mem_boundNames left a ha x (h x hx hx')

theorem Anchors.of_reduces {left left' right right' : BoundTree} (h : Anchors I db left right)
    (hl : Reduces I db left' left) (hr : Reduces I db right' right) : Anchors I db left' right' :=
  fun a ha x hx hx' => h a (hl.solutions ▸ ha) x (hl.names hx) (hr.names hx')

mutual

/-- The left side of every left join binds all variables that it shares with the right side. -/
def Anchored (I : Interpretation α) (db : Database α) : BoundTree → Prop
  | noMatch => True
  | unit => True
  | triple _ => True
  | join members => AnchoredAll I db members
  | union branches => AnchoredAll I db branches
  | leftJoin left right _ => Anchored I db left ∧ Anchored I db right ∧ Anchors I db left right
  | filter _ inner => Anchored I db inner
  | extend inner _ _ => Anchored I db inner
termination_by structural t => t

def AnchoredAll (I : Interpretation α) (db : Database α) : List BoundTree → Prop
  | [] => True
  | t :: rest => Anchored I db t ∧ AnchoredAll I db rest
termination_by structural ts => ts

end

end BoundTree

end VirtualGraph
