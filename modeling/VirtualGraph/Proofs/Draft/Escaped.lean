import VirtualGraph.Proofs.Draft.Values
import VirtualGraph.Proofs.Pattern.Residuals

/-!
# Escaped patterns

In the pattern of an IRI the values of columns stand percent-encoded. The condition for two patterns
reads the values as they are. If both are patterns of IRIs, the constants that are left over are
decoded instead, and where these are written as encoding writes them, the condition holds exactly if
the encoded texts are the same. Without percent signs they always are, since the comparison cuts
both patterns at their reserved characters. Any other two patterns are compared by their plain
texts.

For this each value that a pattern reads has to be there, written as its type prescribes.
-/

namespace VirtualGraph

/-- How encoded values fill the slots of patterns. -/
def Slots.encode (ρ : Slots) : Valuation := fun s => Text.percentEncode (ρ.fill s)

theorem Slots.isEncoded_encode (ρ : Slots) : ρ.encode.IsEncoded :=
  fun _ _ hc => Text.isRunChar_of_mem_percentEncode hc

namespace PatternItem

/-- The text is written as encoding writes it. -/
def IsEncoded : PatternItem → Prop
  | text t => Text.IsEncoded t
  | slot _ => True

instance : DecidablePred IsEncoded
  | text t => inferInstanceAs (Decidable (Text.IsEncoded t))
  | slot _ => inferInstanceAs (Decidable True)

/-- The value of a slot, or a text that is decoded. -/
def decoded (ρ : Slots) : PatternItem → String
  | text t => Text.percentDecode t
  | slot s => ρ.fill s

end PatternItem

namespace Pattern

variable {p q l r : Pattern} {ρ : Slots} {pairs : List (Pattern × Pattern)}
variable {pair : Pattern × Pattern} {c : Char}

/-- The texts between the slots are written as encoding writes them. -/
def IsEncoded (p : Pattern) : Prop := ∀ i ∈ p.items, i.IsEncoded

instance : DecidablePred IsEncoded := fun p => List.decidableBAll _ p.items

/-- The text with encoded values is the encoding of the text that is compared. -/
theorem exists_text?_of_isEncoded (hp : p.IsEncoded) (hfilled : p.Filled ρ) :
    ∃ text, p.text? true ρ = some text ∧ p.render ρ.encode = Text.percentEncode text := by
  have hitems : ∀ i ∈ p.items, i.text? true ρ = some (i.decoded ρ) := by
    intro i hi
    cases i with
    | text t => rfl
    | slot s =>
      obtain ⟨text, htext⟩ := Option.ne_none_iff_exists'.mp (hfilled s (slot_mem_items hi))
      rw [PatternItem.text?, htext, PatternItem.decoded, Slots.fill, htext, Option.getD_some]
  refine ⟨String.join (p.items.map (·.decoded ρ)), ?_, ?_⟩
  · rw [text?, PatternItem.texts?_eq_some hitems, Option.map_some]
  · rw [Text.percentEncode_join, List.map_map, ← join_render_items]
    refine congrArg String.join (List.map_congr_left fun i hi => ?_)
    cases i with
    | text t => exact (hp _ hi).symm
    | slot s => rfl

theorem equates_iff_of_reduce (h : reduce l.escaped r.escaped l.symbols r.symbols = some pairs) :
    l.Equates ρ r ↔ ∀ pair ∈ pairs, pair.1.Matches ρ pair.2 := by
  constructor
  · rintro ⟨found, hfound, hmatches⟩
    cases h.symm.trans hfound
    exact hmatches
  · intro hmatches
    exact ⟨pairs, h, hmatches⟩

theorem agree_iff_of_reduce {σ : Valuation} {escapedL escapedR : Bool} {l r : List Symbol}
    (hσ : escapedL = true → escapedR = true → σ.IsEncoded)
    (h : reduce escapedL escapedR l r = some pairs) :
    textOf σ l = textOf σ r ↔ Agree σ σ pairs := by
  refine ⟨fun heq => ?_, textOf_eq_of_reduce escapedL escapedR l r h⟩
  obtain ⟨found, hfound, hagree⟩ :=
    reduce_of_textOf_eq escapedL escapedR l r (fun hl hr => ⟨hσ hl hr, hσ hl hr⟩) heq
  cases h.symm.trans hfound
  exact hagree

/-- Two patterns equate exactly if they have the same text, provided that this is what the pairs say
that their comparison leaves over. -/
theorem equates_iff_render_eq {σ : Valuation}
    (hσ : p.escaped = true → q.escaped = true → σ.IsEncoded)
    (hpair : ∀ pairs, reduce p.escaped q.escaped p.symbols q.symbols = some pairs →
      ∀ pair ∈ pairs, pair.1.Matches ρ pair.2 ↔ pair.1.render σ = pair.2.render σ) :
    p.Equates ρ q ↔ p.render σ = q.render σ := by
  rw [render_eq_iff]
  cases hpairs : reduce p.escaped q.escaped p.symbols q.symbols with
  | none =>
    refine iff_of_false (fun h => ?_) fun heq => ?_
    · obtain ⟨pairs, hsome, -⟩ := h
      cases hpairs.symm.trans hsome
    · obtain ⟨pairs, hsome, -⟩ := reduce_of_textOf_eq p.escaped q.escaped _ _
        (fun hp hq => ⟨hσ hp hq, hσ hp hq⟩) heq
      cases hpairs.symm.trans hsome
  | some pairs =>
    rw [equates_iff_of_reduce hpairs, agree_iff_of_reduce hσ hpairs]
    exact forall₂_congr fun pair hmem => hpair pairs hpairs pair hmem

/-! ### Runs -/

/-- Where nothing more can be cancelled, the two sides do not begin with the same character. -/
theorem not_cons_of_cancelBoth {l r l' r' : List Symbol} (h : cancelBoth l r = some (l', r'))
    (hlength : ¬l'.length + r'.length < l.length + r.length) :
    ¬∃ c x y, l' = .char c :: x ∧ r' = .char c :: y := by
  rintro ⟨c, x, y, rfl, rfl⟩
  obtain ⟨hl, hr⟩ : (.char c :: x).Sublist l ∧ (.char c :: y).Sublist r := by
    obtain ⟨pre, post, hl, hr⟩ := exists_of_cancelBoth h
    exact ⟨hl ▸ (List.infix_append _ _ _).sublist, hr ▸ (List.infix_append _ _ _).sublist⟩
  have hleft := hl.length_le
  have hright := hr.length_le
  obtain rfl : .char c :: x = l := hl.eq_of_length (by omega)
  obtain rfl : .char c :: y = r := hr.eq_of_length (by omega)
  have hshorter : cancelBoth x y = some (.char c :: x, .char c :: y) := by
    rw [← h, cancelBoth, cancelBoth, cancel, if_pos rfl]
  obtain ⟨pre, post, hx, -⟩ := exists_of_cancelBoth hshorter
  have hlengths := congrArg List.length hx
  simp only [List.length_append, List.length_cons, List.length_map] at hlengths
  omega

/-- Between escaped patterns only runs are left over. -/
theorem isRunChar_right_of_reduce {l r : List Symbol} (h : reduce true true l r = some pairs)
    (hpair : pair ∈ pairs) (hc : .char c ∈ pair.2.symbols) : isRunChar c = true := by
  fun_induction reduce true true l r generalizing pairs with
  | case1 => cases h
  | case2 =>
    cases h
    exact absurd hpair List.not_mem_nil
  | case3 => cases h
  | case4 _ _ _ _ _ _ _ _ ih => exact ih h hpair
  | case5 _ _ _ _ _ _ _ _ hescaped => exact absurd ⟨rfl, rfl⟩ hescaped
  | case6 => cases h
  | case7 l r l' r' hcancel hnil _ hlt _ hhead hrun =>
    have hafter : ∀ {l : List Symbol}, run l = [] → afterRun l = l := by
      intro l hl
      have happend := run_append_afterRun l
      rwa [hl, List.nil_append] at happend
    rw [Decidable.not_not, hafter hrun.1, hafter hrun.2] at hhead
    refine absurd ?_ (not_cons_of_cancelBoth hcancel hlt)
    cases l' with
    | nil => exact absurd ⟨rfl, List.head?_eq_none_iff.mp hhead.symm⟩ hnil
    | cons x l' =>
      obtain ⟨r', rfl⟩ := List.head?_eq_some_iff.mp hhead.symm
      cases x with
      | char c => exact ⟨c, l', r', rfl, rfl⟩
      | slot s => cases hrun.1
  | case8 l r l' r' _ _ _ _ _ _ _ ih =>
    obtain ⟨first, hfirst, h⟩ := Option.bind_eq_some_iff.mp h
    obtain ⟨rest, hrest, rfl⟩ := Option.map_eq_some_iff.mp h
    obtain hpair | hpair := List.mem_append.mp hpair
    · rw [mem_settle hfirst hpair] at hc
      exact List.mem_takeWhile_imp (p := isRunSymbol) hc
    · exact ih hrest hpair

theorem isRunChar_left_of_reduce {l r : List Symbol} (h : reduce true true l r = some pairs)
    (hpair : pair ∈ pairs) (hc : .char c ∈ pair.1.symbols) : isRunChar c = true := by
  have hswap : reduce true true r l = some (pairs.map Prod.swap) := by
    rw [reduce_comm, h, Option.map_some]
  exact isRunChar_right_of_reduce hswap (List.mem_map_of_mem hpair) hc

theorem isEncoded_of_isRunChar (h : ∀ c, .char c ∈ p.symbols → isRunChar c = true ∧ c ≠ '%') :
    p.IsEncoded := by
  intro i hi
  cases i with
  | slot s => trivial
  | text t =>
    refine Text.isEncoded_of_isUnreserved fun c hc => ?_
    obtain ⟨hrun, hpercent⟩ := h c (char_mem_items hi hc)
    exact Text.isUnreserved_of_isRunChar hrun hpercent

end Pattern

/-! ### Legible patterns -/

/-- A slot holds a value, which is written as its type prescribes. -/
def Slot.Legible (ρ : Slots) (s : Slot) : Prop :=
  ∃ text, ρ s = some text ∧ s.type.isLexical text = true

/-- A pattern with legible slots, and without a percent sign if it is escaped. -/
structure Pattern.Legible (ρ : Slots) (p : Pattern) : Prop where
  slots : ∀ s, .slot s ∈ p.symbols → s.Legible ρ
  noPercent : p.escaped = true → .char '%' ∉ p.symbols

namespace Pattern

variable {p q : Pattern} {ρ : Slots}

theorem Legible.of_subset (h : p.Legible ρ) (hescaped : q.escaped = p.escaped)
    (hpq : q.symbols ⊆ p.symbols) : q.Legible ρ :=
  ⟨fun s hs => h.slots s (hpq hs), fun he hc => h.noPercent (hescaped ▸ he) (hpq hc)⟩

theorem legible_ofText {text : String} {escaped : Bool}
    (h : escaped = true → '%' ∉ text.toList) : (ofText text escaped).Legible ρ where
  slots := fun s hs => by simp [ofText] at hs
  noPercent := fun hescaped hc => h hescaped (by simpa [ofText] using hc)

theorem Legible.filled (h : p.Legible ρ) : p.Filled ρ := by
  intro s hs
  obtain ⟨text, htext, -⟩ := h.slots s hs
  rw [htext]
  exact Option.some_ne_none text

theorem Legible.text?_eq (h : p.Legible ρ) : p.text? false ρ = some (p.render ρ.fill) :=
  text?_eq_some h.filled nofun

/-- A constant with the text of a legible slot is written as the type of the slot prescribes. -/
theorem Legible.allowed (h : p.Legible ρ) {decode : Bool} {text : String}
    (hp : p.text? decode ρ = some text) (hq : q.text? decode ρ = some text) :
    Allowed decode p q := by
  intro s constant hs hconstant
  obtain ⟨value, hvalue, hlexical⟩ := h.slots s (slot_mem_items (hs ▸ List.mem_cons_self))
  rw [text?_of_items_eq_slot hs, hvalue] at hp
  rw [text?_of_constant? hconstant, ← hp] at hq
  rwa [Option.some_inj.mp hq]

/-- A pair of legible patterns says that they have the same text. -/
theorem Legible.matches_iff (hp : p.Legible ρ) (hq : q.Legible ρ) : p.Matches ρ q ↔
    ∃ text, p.text? (p.escaped && q.escaped) ρ = some text ∧
      q.text? (p.escaped && q.escaped) ρ = some text := by
  constructor
  · exact fun h => h.texts
  · rintro ⟨text, hptext, hqtext⟩
    exact ⟨⟨text, hptext, hqtext⟩, hp.allowed hptext hqtext, hq.allowed hqtext hptext⟩

/-- Legible patterns that are not both escaped equate exactly if they have the same plain text. -/
theorem Legible.equates_iff_of_plain (hp : p.Legible ρ) (hq : q.Legible ρ)
    (hplain : (p.escaped && q.escaped) = false) :
    p.Equates ρ q ↔ p.render ρ.fill = q.render ρ.fill := by
  refine equates_iff_render_eq (fun hl hr => ?_) fun pairs hpairs pair hpair => ?_
  · simp [hl, hr] at hplain
  · obtain ⟨⟨hl, hr⟩, -⟩ := of_mem_reduce hpairs hpair
    obtain ⟨hsub, hsub'⟩ := subset_of_reduce hpairs hpair
    have hleft := hp.of_subset hl hsub
    have hright := hq.of_subset hr hsub'
    rw [hleft.matches_iff hright, hl, hr, hplain, hleft.text?_eq, hright.text?_eq]
    simp [eq_comm]

/-- Legible patterns that are both escaped equate exactly if they have the same text with encoded
values. -/
theorem Legible.equates_iff_of_escaped (hp : p.Legible ρ) (hq : q.Legible ρ)
    (hl : p.escaped = true) (hr : q.escaped = true) :
    p.Equates ρ q ↔ p.render ρ.encode = q.render ρ.encode := by
  refine equates_iff_render_eq (fun _ _ => ρ.isEncoded_encode) fun pairs hpairs pair hpair => ?_
  obtain ⟨⟨hescaped, hescaped'⟩, -⟩ := of_mem_reduce hpairs hpair
  obtain ⟨hsub, hsub'⟩ := subset_of_reduce hpairs hpair
  have hleft := hp.of_subset hescaped hsub
  have hright := hq.of_subset hescaped' hsub'
  rw [hl, hr] at hpairs
  -- Both sides of the pair are runs without percent signs, so that decoding leaves them as they
  -- are.
  have hencoded : pair.1.IsEncoded := isEncoded_of_isRunChar fun c hc =>
    ⟨isRunChar_left_of_reduce hpairs hpair hc, fun heq =>
      hleft.noPercent (hescaped.trans hl) (heq ▸ hc)⟩
  have hencoded' : pair.2.IsEncoded := isEncoded_of_isRunChar fun c hc =>
    ⟨isRunChar_right_of_reduce hpairs hpair hc, fun heq =>
      hright.noPercent (hescaped'.trans hr) (heq ▸ hc)⟩
  obtain ⟨text, htext, hrender⟩ := exists_text?_of_isEncoded hencoded hleft.filled
  obtain ⟨text', htext', hrender'⟩ := exists_text?_of_isEncoded hencoded' hright.filled
  rw [hleft.matches_iff hright, hescaped, hescaped', hl, hr, Bool.and_self, htext, htext', hrender,
    hrender', Text.percentEncode_injective.eq_iff]
  simp [eq_comm]

end Pattern

end VirtualGraph
