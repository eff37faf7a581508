import Mathlib.Data.List.TakeWhile
import VirtualGraph.Algebra.Reader
import VirtualGraph.Proofs.Text.Letters

/-!
# Reading what is written

Expressions and triple patterns have a written form, and reading it gives them back. Names, IRIs and
language tags have to be such that the text shows where they end; the text of a literal may be
anything.

A written form is read in the middle of other text, so each lemma quantifies over the lists that are
still open and over the text that follows. All that is asked of that text is that it does not
continue a word: what follows a written form is a blank or a closing parenthesis.
-/

namespace VirtualGraph

/-! ### What can be written -/

namespace Token

/-- Not empty, and made of symbol characters. -/
def IsName (name : String) : Prop := name ≠ "" ∧ ∀ c ∈ name.toList, isSymbolChar c = true

/-- Not empty, and without a blank or a closing bracket. -/
def IsIri (iri : String) : Prop := iri ≠ "" ∧ ∀ c ∈ iri.toList, (c != '>' && !Text.isBlank c) = true

/-- Not empty, and made of lower-case letters, digits and hyphens. -/
def IsTag (tag : String) : Prop :=
  tag ≠ "" ∧ ∀ c ∈ tag.toList, (c.isLower || c.isDigit || c == '-') = true

end Token

/-- At most one of datatype and language, of a form that can be read. -/
def Literal.Writable (l : Literal) : Prop :=
  match l.datatype, l.language with
  | none, none => True
  | some datatype, none => Token.IsIri datatype
  | none, some language => Token.IsTag language
  | some _, some _ => False

def Term.Writable : Term → Prop
  | var name => Token.IsName name
  | iri i => Token.IsIri i
  | literal l => l.Writable

/-- A term without variables. -/
def Term.IsGround : Term → Prop
  | var _ => False
  | _ => True

namespace Expression

mutual

/-- All names can be written, and all constants are ground terms that can be. -/
def Writable : Expression → Prop
  | var name => Token.IsName name
  | constant term => term.IsGround ∧ term.Writable
  | compare _ l r => Writable l ∧ Writable r
  | and items => WritableAll items
  | or items => WritableAll items
  | not inner => Writable inner
  | bound name => Token.IsName name
  | lang inner => Writable inner
  | str inner => Writable inner
  | langMatches l r => Writable l ∧ Writable r
  | strStarts l r => Writable l ∧ Writable r
  | strEnds l r => Writable l ∧ Writable r
  | contains l r => Writable l ∧ Writable r
  | concat items => WritableAll items
  | coalesce items => WritableAll items

def WritableAll : List Expression → Prop
  | [] => True
  | e :: rest => Writable e ∧ WritableAll rest

end

end Expression

/-! ### Tokens -/

namespace Token

variable {p : Char → Bool} {w rest : List Char} {name iri tag : String} {c : Char}

theorem endsWord_iff : endsWord rest = true ↔ ∀ c ∈ rest.head?, isSymbolChar c = false := by
  cases rest <;> simp [endsWord]

theorem word?_append (hne : w ≠ []) (hw : ∀ c ∈ w, p c = true)
    (hrest : ∀ c ∈ rest.head?, p c = false) : word? p (w ++ rest) = some (w, rest) := by
  have htake : (w ++ rest).takeWhile p = w := by
    rw [List.takeWhile_append_of_pos hw]
    cases rest with
    | nil => simp
    | cons c rest => rw [List.takeWhile_cons_of_neg (by simp [hrest c rfl]), List.append_nil]
  have hdrop : (w ++ rest).dropWhile p = rest := by
    rw [List.dropWhile_append_of_pos hw]
    cases rest with
    | nil => rfl
    | cons c rest => exact List.dropWhile_cons_of_neg (by simp [hrest c rfl])
  obtain ⟨c, w, rfl⟩ := List.exists_cons_of_ne_nil hne
  rw [word?, htake, hdrop]

theorem toList_ne_nil {s : String} (h : s ≠ "") : s.toList ≠ [] :=
  fun hnil => h (String.toList_eq_nil_iff.mp hnil)

theorem next?_var (h : IsName name) (hrest : endsWord rest = true) :
    next? ('?' :: name.toList ++ rest) = some (.var name, rest) := by
  have hword := word?_append (toList_ne_nil h.1) h.2 (endsWord_iff.mp hrest)
  simp [next?, varName?, hword]

theorem iri?_append (h : IsIri iri) (rest : List Char) :
    iri? ('<' :: iri.toList ++ '>' :: rest) = some (iri, rest) := by
  have hword : word? (fun c => c != '>' && !Text.isBlank c) (iri.toList ++ '>' :: rest) =
      some (iri.toList, '>' :: rest) :=
    word?_append (toList_ne_nil h.1) h.2 (by simp)
  simp [iri?, hword]

theorem next?_iri (h : IsIri iri) (rest : List Char) :
    next? ('<' :: iri.toList ++ '>' :: rest) = some (.term (.iri iri), rest) := by
  have hiri := iri?_append h rest
  simp only [List.cons_append] at hiri
  simp [next?, varName?, hiri]

/-! A tag is over as soon as a word is, and reading it in lower case changes nothing. -/

theorem isTagChar_iff : isTagChar c = true ↔
    ((c.isUpper = true ∨ c.isLower = true) ∨ c.isDigit = true) ∨ c = '-' := by
  change (((c.isUpper || c.isLower) || c.isDigit) || c == '-') = true ↔ _
  simp only [Bool.or_eq_true, beq_iff_eq]

theorem toNat_of_isTagChar (h : isTagChar c = true) :
    (48 ≤ c.toNat ∧ c.toNat ≤ 57) ∨ (65 ≤ c.toNat ∧ c.toNat ≤ 90) ∨
      (97 ≤ c.toNat ∧ c.toNat ≤ 122) ∨ c.toNat = 45 := by
  rw [isTagChar_iff, Text.isUpper_iff, Text.isLower_iff, Text.isDigit_iff] at h
  rcases h with ((h | h) | h) | rfl
  · exact .inr (.inl h)
  · exact .inr (.inr (.inl h))
  · exact .inl h
  · decide

theorem isSymbolChar_of_isTagChar (h : isTagChar c = true) : isSymbolChar c = true := by
  have hrange := toNat_of_isTagChar h
  have hblank : Text.isBlank c = false := by
    simp only [Text.isBlank, Bool.or_eq_false_iff, Bool.and_eq_false_iff, decide_eq_false_iff_not,
      beq_eq_false_iff_ne]
    omega
  have hne : ∀ d : Char, d.toNat < 45 → c ≠ d := by
    rintro d hd rfl
    omega
  simp [isSymbolChar, hblank, hne '(' (by decide), hne ')' (by decide), hne '"' (by decide)]

theorem toLower_of_isLower (h : (c.isLower || c.isDigit || c == '-') = true) : c.toLower = c := by
  apply Text.toLower_of_not_isUpper
  simp only [Bool.or_eq_true, beq_iff_eq, Text.isLower_iff, Text.isDigit_iff] at h
  rw [Text.isUpper_iff]
  rcases h with (h | h) | rfl
  · omega
  · omega
  · decide

theorem tag?_append (h : IsTag tag) (hrest : endsWord rest = true) :
    tag? ('@' :: tag.toList ++ rest) = some (tag, rest) := by
  have hchars : ∀ c ∈ tag.toList, isTagChar c = true := by
    intro c hc
    have := h.2 c hc
    simp only [Bool.or_eq_true, beq_iff_eq] at this
    exact isTagChar_iff.mpr (this.imp_left (Or.imp_left .inr))
  have hend : ∀ c ∈ rest.head?, isTagChar c = false := by
    intro c hc
    have hsymbol := endsWord_iff.mp hrest c hc
    rw [← Bool.not_eq_true] at hsymbol ⊢
    exact fun htag => hsymbol (isSymbolChar_of_isTagChar htag)
  have hlower : Text.lower tag = tag := by
    rw [Text.lower, List.map_congr_left fun c hc => toLower_of_isLower (h.2 c hc), List.map_id',
      String.ofList_toList]
  simp [tag?, word?_append (toList_ne_nil h.1) hchars hend, hlower]

/-- The text of a literal is read up to the first quote that is not escaped. -/
theorem literalText?_escape (value : String) (rest : List Char) :
    literalText? (Literal.escape value ++ '"' :: rest) = some (value.toList, rest) := by
  unfold Literal.escape
  induction value.toList with
  | nil => rfl
  | cons c cs ih =>
    rw [List.flatMap_cons]
    split
    · rename_i hc
      obtain rfl | rfl := hc <;> simp [literalText?, unescape?, ih]
    · rename_i hc
      rw [not_or] at hc
      rw [List.append_assoc, List.singleton_append, literalText?]
      · simp [hc.1, ih]
      · exact hc.2
      · exact fun _ _ h _ => hc.1 h

/-- A word is over in front of the text, so it starts with neither a tag nor a datatype. -/
theorem literal?_plain (value : String) (hrest : endsWord rest = true) :
    literal? ('"' :: Literal.escape value ++ '"' :: rest) = some (.plain value, rest) := by
  have hnone : tag? rest = none ∧ datatype? rest = none := by
    cases rest with
    | nil => exact ⟨rfl, rfl⟩
    | cons c rest =>
      have hc := endsWord_iff.mp hrest c rfl
      have hne : ∀ d, isSymbolChar d = true → c ≠ d := by
        rintro d hd rfl
        rw [hd] at hc
        cases hc
      have hat := hne '@' (by decide)
      have hcaret := hne '^' (by decide)
      exact ⟨by simp [tag?, hat], by simp [datatype?, hcaret]⟩
  simp [literal?, literalText?_escape, hnone, String.ofList_toList]

theorem next?_literal {l : Literal} (h : l.Writable) (hrest : endsWord rest = true) :
    next? (l.display.toList ++ rest) = some (.term (.literal l), rest) := by
  have hliteral : ∃ cs, l.display.toList ++ rest = '"' :: cs ∧
      literal? ('"' :: cs) = some (l, rest) := by
    obtain ⟨value, datatype, language⟩ := l
    cases language with
    | none =>
      cases datatype with
      | none =>
        refine ⟨Literal.escape value ++ '"' :: rest, ?_, literal?_plain value hrest⟩
        simp [Literal.display]
      | some datatype =>
        refine ⟨Literal.escape value ++ '"' :: '^' :: '^' :: '<' :: datatype.toList ++ '>' :: rest,
          ?_, ?_⟩
        · simp [Literal.display]
        · have hiri := iri?_append (h : IsIri datatype) rest
          simp only [List.cons_append] at hiri
          simp [literal?, literalText?_escape, tag?, datatype?, hiri, Literal.typed]
    | some language =>
      cases datatype with
      | some datatype => exact h.elim
      | none =>
        refine ⟨Literal.escape value ++ '"' :: '@' :: language.toList ++ rest, ?_, ?_⟩
        · simp [Literal.display]
        · have htag := tag?_append (h : IsTag language) hrest
          simp only [List.cons_append] at htag
          simp [literal?, literalText?_escape, htag, Literal.tagged]
  obtain ⟨cs, hcs, hliteral⟩ := hliteral
  simp [hcs, next?, varName?, iri?, hliteral]

theorem next?_unit (hrest : endsWord rest = true) :
    next? ("unit".toList ++ rest) = some (.symbol "unit", rest) := by
  have hword := word?_append (p := isSymbolChar) (w := "unit".toList) (by decide)
    (List.all_eq_true.mp (by decide)) (endsWord_iff.mp hrest)
  calc next? ("unit".toList ++ rest)
      = (symbol? ("unit".toList ++ rest)).map fun r => (.symbol r.1, r.2) := rfl
    _ = some (.symbol "unit", rest) := by
      rw [symbol?, hword]
      rfl

/-- A symbol that is read in front of a given character. -/
def Before (c : Char) (head : String) : Prop :=
  ∀ rest, next? ((head.toList ++ c :: rest).dropWhile Text.isLayout) =
    some (.symbol head, c :: rest)

end Token

/-! ### Forms -/

namespace Form

/-- What is assembled after some progress, with a text left to read. -/
def Progress.finish (total : Nat) (rest : List Char) : Progress → Option (Form × List Char)
  | stuck => none
  | complete form => some (form, rest)
  | within lists => assemble lists (Lexeme.scan total rest)

theorem assemble_scan {cs rest : List Char} {token : Token}
    (h : Token.next? (cs.dropWhile Text.isLayout) = some (token, rest)) (total : Nat)
    (lists : Open) : ∃ position, assemble lists (Lexeme.scan total cs) =
      (advance lists ⟨token, position, rest⟩).finish total rest := by
  refine ⟨total - Text.byteLength (cs.dropWhile Text.isLayout), ?_⟩
  rw [Lexeme.scan]
  split
  · rename_i hnone
    rw [h] at hnone
    cases hnone
  · rename_i hsome
    rw [h] at hsome
    cases hsome
    rw [assemble]
    cases advance lists ⟨token, _, rest⟩ <;> rfl

theorem scan_blank (total : Nat) (cs : List Char) :
    Lexeme.scan total (' ' :: cs) = Lexeme.scan total cs := by
  have hlayout : (' ' :: cs).dropWhile Text.isLayout = cs.dropWhile Text.isLayout := rfl
  rw [Lexeme.scan.eq_def total (' ' :: cs), Lexeme.scan.eq_def total cs, hlayout]

/-- A text that is read as one form with a property, unless the text after it continues a word. -/
def Writes (cs : List Char) (accept : Form → Prop) : Prop :=
  ∀ total lists rest, Token.endsWord rest = true → ∃ form, accept form ∧
    assemble lists (Lexeme.scan total (cs ++ rest)) = (place form lists).finish total rest

/-- A text that is read as further items of the innermost list, the items with a property. It
continues no word itself. -/
def WritesAll (cs : List Char) (accept : List Form → Prop) : Prop :=
  ∀ total start items outer rest, Token.endsWord rest = true →
    Token.endsWord (cs ++ rest) = true ∧ ∃ forms, accept forms ∧
      assemble ((start, items) :: outer) (Lexeme.scan total (cs ++ rest)) =
        assemble ((start, forms.reverse ++ items) :: outer) (Lexeme.scan total rest)

variable {cs ds : List Char} {accept accept' : Form → Prop} {acceptAll : List Form → Prop}

theorem Writes.mono (h : Writes cs accept) (hmono : ∀ form, accept form → accept' form) :
    Writes cs accept' := by
  intro total lists rest hrest
  obtain ⟨form, hform, heq⟩ := h total lists rest hrest
  exact ⟨form, hmono form hform, heq⟩

theorem WritesAll.mono {acceptAll' : List Form → Prop} (h : WritesAll cs acceptAll)
    (hmono : ∀ forms, acceptAll forms → acceptAll' forms) : WritesAll cs acceptAll' := by
  intro total start items outer rest hrest
  obtain ⟨hends, forms, hforms, heq⟩ := h total start items outer rest hrest
  exact ⟨hends, forms, hmono forms hforms, heq⟩

theorem writesAll_nil : WritesAll [] (· = []) :=
  fun _ _ _ _ _ hrest => ⟨hrest, [], rfl, rfl⟩

theorem WritesAll.cons (h : Writes cs accept) (hall : WritesAll ds acceptAll) :
    WritesAll (' ' :: cs ++ ds) fun forms =>
      ∃ form rest, forms = form :: rest ∧ accept form ∧ acceptAll rest := by
  intro total start items outer rest hrest
  have hnext := (hall total start items outer rest hrest).1
  obtain ⟨form, hform, hfirst⟩ := h total ((start, items) :: outer) (ds ++ rest) hnext
  obtain ⟨-, forms, hforms, heq⟩ := hall total start (form :: items) outer rest hrest
  refine ⟨rfl, form :: forms, ⟨form, forms, rfl, hform, hforms⟩, ?_⟩
  rw [List.append_assoc, List.cons_append, scan_blank, hfirst]
  simpa [place, Progress.finish] using heq

/-- Items between parentheses, after a symbol, are a list. -/
theorem WritesAll.list (head : String) (hall : WritesAll ds acceptAll)
    (hhead : ∀ c ∈ (ds ++ [')']).head?, Token.Before c head) :
    Writes ('(' :: head.toList ++ ds ++ [')']) fun form =>
      ∃ start args position,
        form = .list (.symbol head start :: args) position ∧ acceptAll args := by
  intro total lists rest hrest
  have hopening :
      Token.next? (('(' :: head.toList ++ ds ++ [')'] ++ rest).dropWhile Text.isLayout) =
      some (.opening, head.toList ++ (ds ++ ')' :: rest)) := by
    simp [List.append_assoc, Text.isLayout, Token.next?]
  obtain ⟨position, hopening⟩ := assemble_scan hopening total lists
  have hsymbol : Token.next? ((head.toList ++ (ds ++ ')' :: rest)).dropWhile Text.isLayout) =
      some (.symbol head, ds ++ ')' :: rest) := by
    cases ds with
    | nil => exact hhead ')' rfl rest
    | cons c ds => exact hhead c rfl _
  obtain ⟨start, hsymbol⟩ := assemble_scan hsymbol total ((position, []) :: lists)
  obtain ⟨-, args, hargs, hitems⟩ :=
    hall total position [.symbol head start] lists (')' :: rest) rfl
  have hclosing : Token.next? ((')' :: rest).dropWhile Text.isLayout) = some (.closing, rest) := rfl
  obtain ⟨_, hclosing⟩ :=
    assemble_scan hclosing total ((position, args.reverse ++ [.symbol head start]) :: lists)
  refine ⟨_, ⟨start, args, position, rfl, hargs⟩, ?_⟩
  calc assemble lists (Lexeme.scan total _)
      = assemble ((position, []) :: lists)
          (Lexeme.scan total (head.toList ++ (ds ++ ')' :: rest))) :=
        hopening
    _ = assemble ((position, [.symbol head start]) :: lists)
          (Lexeme.scan total (ds ++ ')' :: rest)) :=
        hsymbol
    _ = _ := by
      rw [hitems, hclosing]
      simp [advance]

/-- One argument of a symbol. -/
theorem Writes.unary (head : String) (h : Writes cs accept) (hhead : Token.Before ' ' head) :
    Writes ('(' :: head.toList ++ ' ' :: cs ++ [')']) fun form =>
      ∃ start a position, form = .list [.symbol head start, a] position ∧ accept a := by
  have hlist := (WritesAll.cons h writesAll_nil).list head (by simpa using hhead)
  simp only [List.append_nil] at hlist
  refine hlist.mono ?_
  rintro _ ⟨start, _, position, rfl, a, _, rfl, ha, rfl⟩
  exact ⟨start, a, position, rfl, ha⟩

/-- Two arguments of a symbol. -/
theorem Writes.binary (head : String) (h : Writes cs accept) (h' : Writes ds accept')
    (hhead : Token.Before ' ' head) :
    Writes ('(' :: head.toList ++ ' ' :: cs ++ ' ' :: ds ++ [')']) fun form =>
      ∃ start a b position, form = .list [.symbol head start, a, b] position ∧
        accept a ∧ accept' b := by
  have hlist := (WritesAll.cons h (WritesAll.cons h' writesAll_nil)).list head
    (by simpa using hhead)
  simp only [List.append_nil, ← List.append_assoc] at hlist
  refine hlist.mono ?_
  rintro _ ⟨start, _, position, rfl, a, _, rfl, ha, b, _, rfl, hb, rfl⟩
  exact ⟨start, a, b, position, rfl, ha, hb⟩

/-- A text that is one token. -/
theorem writes_token (token : Token) (make : Nat → Form)
    (hnext : ∀ rest, Token.endsWord rest = true →
      Token.next? ((cs ++ rest).dropWhile Text.isLayout) = some (token, rest))
    (hplace : ∀ lists position rest,
      advance lists ⟨token, position, rest⟩ = place (make position) lists) :
    Writes cs fun form => ∃ position, form = make position := by
  intro total lists rest hrest
  obtain ⟨position, heq⟩ := assemble_scan (hnext rest hrest) total lists
  exact ⟨make position, ⟨position, rfl⟩, by rw [heq, hplace]⟩

/-- What is read as a whole is read as a form. -/
theorem Writes.read {s : String} (h : Writes s.toList accept) : ∃ form, accept form ∧
    Form.read s = .ok form := by
  obtain ⟨form, hform, heq⟩ := h (Text.byteLength s.toList) [] [] rfl
  rw [List.append_nil] at heq
  refine ⟨form, hform, ?_⟩
  simp only [Form.read, heq]
  rfl

end Form

/-! ### Terms and expressions -/

open Form

theorem Term.writes_display {t : Term} (h : t.Writable) : Writes t.display.toList fun form =>
    form.toTerm = .ok t ∧ (t.IsGround → form.toExpression = .ok (.constant t)) := by
  cases t with
  | var name =>
    refine (writes_token (.var name) (.var name) (fun rest hrest => ?_)
      fun _ _ _ => rfl).mono ?_
    · simpa [Term.display, Text.isLayout] using Token.next?_var h hrest
    · rintro _ ⟨position, rfl⟩
      exact ⟨rfl, False.elim⟩
  | iri i =>
    refine (writes_token (.term (.iri i)) (.term (.iri i)) (fun rest hrest => ?_)
      fun _ _ _ => rfl).mono ?_
    · simpa [Term.display, Text.isLayout] using Token.next?_iri h rest
    · rintro _ ⟨position, rfl⟩
      exact ⟨rfl, fun _ => rfl⟩
  | literal l =>
    refine (writes_token (.term (.literal l)) (.term (.literal l))
      (fun rest hrest => ?_) fun _ _ _ => rfl).mono ?_
    · have hdrop :
          (l.display.toList ++ rest).dropWhile Text.isLayout = l.display.toList ++ rest := by
        unfold Literal.display
        cases l.language <;> cases l.datatype <;> simp [Text.isLayout]
      rw [Term.display, hdrop]
      exact Token.next?_literal h hrest
    · rintro _ ⟨position, rfl⟩
      exact ⟨rfl, fun _ => rfl⟩

namespace Expression

theorem toExpressions_cons (form : Form) (forms : List Form) :
    toExpressions (form :: forms) = do
      let e ← form.toExpression
      let es ← toExpressions forms
      return e :: es :=
  rfl

theorem before_operatorName (op : Comparator) : Token.Before ' ' (operatorName op) := by
  cases op <;> exact fun _ => rfl

theorem writes_var {name : String} (h : Token.IsName name) :
    Writes ('?' :: name.toList) fun form => ∃ position, form = .var name position := by
  refine writes_token (.var name) (.var name) (fun rest hrest => ?_) fun _ _ _ => rfl
  simpa [Text.isLayout] using Token.next?_var h hrest

/-- A function of one argument is read as it is written. -/
theorem writes_unary {e : Expression} (head text : String) {make : Expression → Expression}
    (he : Writes e.display.toList (·.toExpression = .ok e)) (hhead : Token.Before ' ' head)
    (htext : text.toList = '(' :: head.toList ++ ' ' :: e.display.toList ++ [')'])
    (hread : ∀ start a position,
      toExpression (.list [.symbol head start, a] position) = (toExpression a).map make) :
    Writes text.toList (·.toExpression = .ok (make e)) := by
  rw [htext]
  refine (he.unary head hhead).mono ?_
  rintro _ ⟨start, a, position, rfl, ha⟩
  rw [hread, ha]
  rfl

/-- A function of two arguments is read as it is written. -/
theorem writes_binary {l r : Expression} (head text : String)
    {make : Expression → Expression → Expression}
    (hl : Writes l.display.toList (·.toExpression = .ok l))
    (hr : Writes r.display.toList (·.toExpression = .ok r)) (hhead : Token.Before ' ' head)
    (htext : text.toList =
      '(' :: head.toList ++ ' ' :: l.display.toList ++ ' ' :: r.display.toList ++ [')'])
    (hread : ∀ start a b position, toExpression (.list [.symbol head start, a, b] position) = do
      let l ← toExpression a
      let r ← toExpression b
      return make l r) :
    Writes text.toList (·.toExpression = .ok (make l r)) := by
  rw [htext]
  refine (hl.binary head hr hhead).mono ?_
  rintro _ ⟨start, a, b, position, rfl, ha, hb⟩
  rw [hread, ha, hb]
  rfl

/-- A function of any number of arguments is read as it is written. -/
theorem writes_list {es : List Expression} (head text : String)
    {make : List Expression → Expression}
    (hes : WritesAll (displayAll es).toList (toExpressions · = .ok es))
    (hhead : Token.Before ' ' head ∧ Token.Before ')' head)
    (htext : text.toList = '(' :: head.toList ++ (displayAll es).toList ++ [')'])
    (hread : ∀ start args position,
      toExpression (.list (.symbol head start :: args) position) = (toExpressions args).map make) :
    Writes text.toList (·.toExpression = .ok (make es)) := by
  have hnext : ∀ c ∈ ((displayAll es).toList ++ [')']).head?, Token.Before c head := by
    cases es with
    | nil =>
      rintro c ⟨⟩
      exact hhead.2
    | cons e es =>
      change ∀ c ∈ ((" " ++ e.display ++ displayAll es).toList ++ [')']).head?, Token.Before c head
      simpa using hhead.1
  rw [htext]
  refine (hes.list head hnext).mono ?_
  rintro _ ⟨start, args, position, rfl, hargs⟩
  rw [hread, hargs]
  rfl

mutual

/-- The written form of an expression is read as the expression. -/
theorem writes_display : ∀ e : Expression, e.Writable →
    Writes e.display.toList (·.toExpression = .ok e)
  | var name, h => by
    change Writes ("?" ++ name).toList _
    rw [String.toList_append]
    refine (writes_var h).mono ?_
    rintro _ ⟨position, rfl⟩
    rfl
  | constant c, h => (Term.writes_display h.2).mono fun _ hform => hform.2 h.1
  | compare op l r, h =>
    writes_binary (operatorName op) ("(" ++ operatorName op ++ " " ++ l.display ++ " " ++
      r.display ++ ")")
      (writes_display l h.1) (writes_display r h.2) (before_operatorName op) (by simp)
      fun _ _ _ _ => by cases op <;> rfl
  | and items, h =>
    writes_list "&&" ("(&&" ++ displayAll items ++ ")")
      (writes_displayAll items h) ⟨fun _ => rfl, fun _ => rfl⟩ (by simp) fun _ _ _ => rfl
  | or items, h =>
    writes_list "||" ("(||" ++ displayAll items ++ ")")
      (writes_displayAll items h) ⟨fun _ => rfl, fun _ => rfl⟩ (by simp) fun _ _ _ => rfl
  | not inner, h =>
    writes_unary "!" ("(! " ++ inner.display ++ ")")
      (writes_display inner h) (fun _ => rfl) (by simp) fun _ _ _ => rfl
  | bound name, h => by
    have htext : ("(bound ?" ++ name ++ ")").toList =
        '(' :: "bound".toList ++ ' ' :: ('?' :: name.toList) ++ [')'] := by
      simp
    change Writes ("(bound ?" ++ name ++ ")").toList _
    rw [htext]
    refine ((writes_var h).unary "bound" fun _ => rfl).mono ?_
    rintro _ ⟨start, _, position, rfl, position', rfl⟩
    rfl
  | lang inner, h =>
    writes_unary "lang" ("(lang " ++ inner.display ++ ")")
      (writes_display inner h) (fun _ => rfl) (by simp) fun _ _ _ => rfl
  | str inner, h =>
    writes_unary "str" ("(str " ++ inner.display ++ ")")
      (writes_display inner h) (fun _ => rfl) (by simp) fun _ _ _ => rfl
  | langMatches l r, h =>
    writes_binary "langMatches" ("(langMatches " ++ l.display ++ " " ++ r.display ++ ")")
      (writes_display l h.1) (writes_display r h.2) (fun _ => rfl) (by simp) fun _ _ _ _ => rfl
  | strStarts l r, h =>
    writes_binary "strstarts" ("(strstarts " ++ l.display ++ " " ++ r.display ++ ")")
      (writes_display l h.1) (writes_display r h.2) (fun _ => rfl) (by simp) fun _ _ _ _ => rfl
  | strEnds l r, h =>
    writes_binary "strends" ("(strends " ++ l.display ++ " " ++ r.display ++ ")")
      (writes_display l h.1) (writes_display r h.2) (fun _ => rfl) (by simp) fun _ _ _ _ => rfl
  | contains l r, h =>
    writes_binary "contains" ("(contains " ++ l.display ++ " " ++ r.display ++ ")")
      (writes_display l h.1) (writes_display r h.2) (fun _ => rfl) (by simp) fun _ _ _ _ => rfl
  | concat items, h =>
    writes_list "concat" ("(concat" ++ displayAll items ++ ")")
      (writes_displayAll items h) ⟨fun _ => rfl, fun _ => rfl⟩ (by simp) fun _ _ _ => rfl
  | coalesce items, h =>
    writes_list "coalesce" ("(coalesce" ++ displayAll items ++ ")")
      (writes_displayAll items h) ⟨fun _ => rfl, fun _ => rfl⟩ (by simp) fun _ _ _ => rfl

/-- The written forms of expressions, each after a blank, are read as the expressions. -/
theorem writes_displayAll : ∀ es : List Expression, WritableAll es →
    WritesAll (displayAll es).toList (toExpressions · = .ok es)
  | [], _ => writesAll_nil.mono fun _ hnil => hnil ▸ rfl
  | e :: es, h => by
    have htext : (" " ++ e.display ++ displayAll es).toList =
        ' ' :: e.display.toList ++ (displayAll es).toList := by
      simp
    change WritesAll (" " ++ e.display ++ displayAll es).toList _
    rw [htext]
    refine (WritesAll.cons (writes_display e h.1) (writes_displayAll es h.2)).mono ?_
    rintro _ ⟨form, forms, rfl, hform, hforms⟩
    rw [toExpressions_cons, hform, hforms]
    rfl

end

end Expression

/-! ### Patterns -/

/-- An expression is no list of conditions, as those have a head of their own. -/
theorem Form.toCondition_of_toExpression {form : Form} {e : Expression}
    (h : form.toExpression = .ok e) : form.toCondition = .ok e := by
  unfold toCondition
  split
  · cases h
  · exact h

namespace GraphPattern

theorem writes_unit : Writes "(table unit)".toList (·.toPattern = .ok .unit) := by
  have hunit : Writes "unit".toList fun form => ∃ position, form = .symbol "unit" position :=
    writes_token (.symbol "unit") (.symbol "unit") (fun _ hrest => Token.next?_unit hrest)
      fun _ _ _ => rfl
  refine (hunit.unary "table" fun _ => rfl).mono ?_
  rintro _ ⟨start, _, position, rfl, position', rfl⟩
  rfl

theorem writes_filter {e : Expression} (h : e.Writable) :
    Writes ("(filter " ++ e.display ++ " (table unit))").toList
      (·.toPattern = .ok (.filter e .unit)) := by
  have htext : ("(filter " ++ e.display ++ " (table unit))").toList = '(' :: "filter".toList ++
      ' ' :: e.display.toList ++ ' ' :: "(table unit)".toList ++ [')'] := by
    simp
  rw [htext]
  refine ((Expression.writes_display e h).binary "filter" writes_unit fun _ => rfl).mono ?_
  rintro _ ⟨start, a, b, position, rfl, ha, hb⟩
  have hread : toPattern (.list [.symbol "filter" start, a, b] position) = do
      let condition ← a.toCondition
      let inner ← b.toPattern
      return .filter condition inner := rfl
  rw [hread, toCondition_of_toExpression ha, hb]
  rfl

theorem writes_triple {t : TriplePattern} (h : ∀ term ∈ t.terms, term.Writable) :
    Writes t.display.toList (·.toPattern = .ok (.triple t)) := by
  have hs := Term.writes_display (h t.subject (by simp [TriplePattern.terms]))
  have hp := Term.writes_display (h t.predicate (by simp [TriplePattern.terms]))
  have ho := Term.writes_display (h t.object (by simp [TriplePattern.terms]))
  have hhead : Token.Before ' ' "triple" := fun _ => rfl
  have hlist := (WritesAll.cons hs (WritesAll.cons hp (WritesAll.cons ho writesAll_nil))).list
    "triple" (by simpa using hhead)
  have htext : t.display.toList = '(' :: "triple".toList ++ (' ' :: t.subject.display.toList ++
      (' ' :: t.predicate.display.toList ++ (' ' :: t.object.display.toList ++ []))) ++ [')'] := by
    simp [TriplePattern.display]
  rw [htext]
  refine hlist.mono ?_
  rintro _ ⟨start, _, position, rfl, a, _, rfl, ha, b, _, rfl, hb, c, _, rfl, hc, rfl⟩
  have hread : toPattern (.list [.symbol "triple" start, a, b, c] position) = do
      let s ← a.toTerm
      let p ← b.toTerm
      let o ← c.toTerm
      return .triple ⟨s, p, o⟩ := rfl
  rw [hread, ha.1, hb.1, hc.1]
  rfl

/-- Reading undoes writing. An expression comes back from a filter, and a triple pattern from its
own text. -/
theorem parse_display :
    (∀ e : Expression, e.Writable →
      GraphPattern.parse ("(filter " ++ e.display ++ " (table unit))") = .ok (.filter e .unit)) ∧
    ∀ t : TriplePattern, (∀ term ∈ t.terms, term.Writable) →
      GraphPattern.parse t.display = .ok (.triple t) := by
  constructor
  · intro e h
    obtain ⟨form, hform, hread⟩ := (writes_filter h).read
    rw [GraphPattern.parse, hread]
    exact hform
  · intro t h
    obtain ⟨form, hform, hread⟩ := (writes_triple h).read
    rw [GraphPattern.parse, hread]
    exact hform

/-- The text of a literal may hold quotes and backslashes. -/
theorem parse_display_of_quoted :
    GraphPattern.parse
        "(filter (&& (<= ?n \"1\"^^<urn:int>) (! (= ?n \"\\\"\\\\\"))) (table unit))" =
      .ok (.filter (.and [.compare .le (.var "n") (.constant (.literal (.typed "1" "urn:int"))),
        .not (.compare .eq (.var "n") (.constant (.literal (.plain "\"\\"))))]) .unit) ∧
    GraphPattern.parse "(triple ?n <urn:p> \"x\"@en)" =
      .ok (.triple ⟨.var "n", .iri "urn:p", .literal (.tagged "x" "en")⟩) := by
  have hname : Token.IsName "n" := ⟨by decide, List.all_eq_true.mp (by decide)⟩
  have hint : Token.IsIri "urn:int" := ⟨by decide, List.all_eq_true.mp (by decide)⟩
  have hiri : Token.IsIri "urn:p" := ⟨by decide, List.all_eq_true.mp (by decide)⟩
  have htag : Token.IsTag "en" := ⟨by decide, List.all_eq_true.mp (by decide)⟩
  refine ⟨parse_display.1
    (.and [.compare .le (.var "n") (.constant (.literal (.typed "1" "urn:int"))),
    .not (.compare .eq (.var "n") (.constant (.literal (.plain "\"\\"))))]) ?_,
    parse_display.2 ⟨.var "n", .iri "urn:p", .literal (.tagged "x" "en")⟩ ?_⟩
  · exact ⟨⟨hname, trivial, hint⟩, ⟨hname, trivial, trivial⟩, trivial⟩
  · simp only [TriplePattern.terms, List.forall_mem_cons]
    exact ⟨hname, hiri, htag, by simp⟩

end GraphPattern

end VirtualGraph
