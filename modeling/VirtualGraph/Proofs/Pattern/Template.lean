import VirtualGraph.Pattern.Template
import Mathlib.Data.List.Chain
import Mathlib.Data.List.TakeWhile

/-!
# Reading and writing templates

Every list of parts has a written form, with a backslash before each brace and backslash of a text
and each column name between braces. A list of parts is normal if it has no empty text, no two
neighbouring texts and no column name that cannot stand between braces.

Reading accepts exactly the written forms of the normal lists and gives the list back. Where a
template is refused, the reported position is the end of its longest prefix that is accepted.

All of it goes through pieces: a text is read piece by piece, the written form of a piece starts
every text it is put in front of, and the normal lists are the ones that pieces are gathered into.
-/

namespace VirtualGraph

namespace TemplatePart

/-- A part as it stands in a template. -/
def print : TemplatePart → List Char
  | text t => t.toList.flatMap fun c => if Template.isSpecial c then ['\\', c] else [c]
  | column name => '\x7b' :: name.toList ++ ['\x7d']

/-- A text is not empty, and a column name is not empty and holds no brace. -/
def WellFormed : TemplatePart → Prop
  | text t => t ≠ ""
  | column name => name ≠ "" ∧ ∀ c ∈ name.toList, Template.isBrace c = false

instance : DecidablePred WellFormed
  | text t => inferInstanceAs (Decidable (t ≠ ""))
  | column name => @instDecidableAnd _ _ (inferInstanceAs (Decidable (name ≠ "")))
    (List.decidableBAll _ name.toList)

def isText : TemplatePart → Bool
  | text _ => true
  | column _ => false

end TemplatePart

namespace Template

/-- The template that a list of parts is written as. -/
def print (parts : List TemplatePart) : String := String.ofList (parts.flatMap TemplatePart.print)

/-- Every part is well formed, and no two texts are neighbours. -/
structure Normal (parts : List TemplatePart) : Prop where
  wellFormed : ∀ part ∈ parts, part.WellFormed
  apart : parts.IsChain fun a b => ¬(a.isText ∧ b.isText)

/-! ### Pieces -/

namespace Piece

def print : Piece → List Char
  | char c => if isSpecial c then ['\\', c] else [c]
  | column name => '\x7b' :: name ++ ['\x7d']

def WellFormed : Piece → Prop
  | char _ => True
  | column name => name ≠ [] ∧ ∀ c ∈ name, isBrace c = false

end Piece

/-- A column is read up to the first closing brace. -/
theorem piece?_column {name : List Char} (hne : name ≠ []) (hname : ∀ c ∈ name, isBrace c = false)
    (rest : List Char) :
    piece? ('\x7b' :: name ++ '\x7d' :: rest) = some (.column name, rest) := by
  have hall : ∀ c ∈ name, (!isBrace c) = true := by simpa using hname
  have hclose : isBrace '\x7d' = true := rfl
  have htake : (name ++ '\x7d' :: rest).takeWhile (!isBrace ·) = name := by
    rw [List.takeWhile_append_of_pos hall, List.takeWhile_cons_of_neg (by simp [hclose]),
      List.append_nil]
  have hdrop : (name ++ '\x7d' :: rest).dropWhile (!isBrace ·) = '\x7d' :: rest := by
    rw [List.dropWhile_append_of_pos hall, List.dropWhile_cons_of_neg (by simp [hclose])]
  obtain ⟨c, cs, rfl⟩ := List.exists_cons_of_ne_nil hne
  simp only [List.cons_append] at htake hdrop
  simp [piece?, htake, hdrop]

theorem piece?_print {p : Piece} (h : p.WellFormed) (rest : List Char) :
    piece? (p.print ++ rest) = some (p, rest) := by
  cases p with
  | column name =>
    obtain ⟨hne, hname⟩ := h
    simpa [Piece.print] using piece?_column hne hname rest
  | char c =>
    cases hc : isSpecial c with
    | true => simp [Piece.print, piece?, hc]
    | false =>
      have hne : c ≠ '\x7b' ∧ c ≠ '\x7d' ∧ c ≠ '\\' := by
        simpa [isSpecial, isBrace, not_or, and_assoc] using hc
      simp [Piece.print, piece?, hc, hne]

/-- What is read is the written form of a well-formed piece. -/
theorem print_of_piece? {cs rest : List Char} {p : Piece} (h : piece? cs = some (p, rest)) :
    p.WellFormed ∧ p.print ++ rest = cs := by
  cases cs with
  | nil => simp [piece?] at h
  | cons c cs =>
    simp only [piece?] at h
    split at h
    · rename_i hc
      split at h
      · rename_i d name rest' htake hdrop
        cases h
        have hname : ∀ e ∈ d :: name, isBrace e = false := by
          intro e he
          rw [← htake] at he
          simpa using List.mem_takeWhile_imp he
        refine ⟨⟨List.cons_ne_nil _ _, hname⟩, ?_⟩
        have hcs : d :: name ++ '\x7d' :: rest = cs := by
          rw [← htake, ← hdrop, List.takeWhile_append_dropWhile]
        simp [Piece.print, hc, ← hcs]
      · cases h
    · rename_i hopen
      split at h
      · rename_i hc
        split at h
        · rename_i d rest'
          split at h
          · rename_i hd
            cases h
            exact ⟨trivial, by simp [Piece.print, hd, hc]⟩
          · cases h
        · cases h
      · rename_i hescape
        split at h
        · cases h
        · rename_i hclose
          cases h
          have hc : isSpecial c = false := by simp [isSpecial, isBrace, hopen, hescape, hclose]
          exact ⟨trivial, by simp [Piece.print, hc]⟩

/-! ### Sequences of pieces -/

theorem pieces_of_piece?_eq_none {cs : List Char} (h : piece? cs = none) :
    pieces cs = ([], cs) := by
  rw [pieces]
  split
  · rfl
  · rename_i h'
    rw [h] at h'
    cases h'

theorem pieces_of_piece?_eq_some {cs rest : List Char} {p : Piece}
    (h : piece? cs = some (p, rest)) :
    pieces cs = (p :: (pieces rest).1, (pieces rest).2) := by
  rw [pieces]
  split
  · rename_i h'
    rw [h] at h'
    cases h'
  · rename_i h'
    rw [h] at h'
    cases h'
    rfl

/-- Pieces that stand in front of a text are read before it. -/
theorem pieces_print_append {ps : List Piece} (h : ∀ p ∈ ps, p.WellFormed) (rest : List Char) :
    pieces (ps.flatMap Piece.print ++ rest) = (ps ++ (pieces rest).1, (pieces rest).2) := by
  induction ps with
  | nil => rfl
  | cons p ps ih =>
    have hp := piece?_print (h p List.mem_cons_self) (ps.flatMap Piece.print ++ rest)
    rw [List.flatMap_cons, List.append_assoc, pieces_of_piece?_eq_some hp,
      ih fun q hq => h q (List.mem_cons_of_mem _ hq)]
    rfl

theorem pieces_nil : pieces [] = ([], []) := pieces_of_piece?_eq_none rfl

theorem pieces_print {ps : List Piece} (h : ∀ p ∈ ps, p.WellFormed) :
    pieces (ps.flatMap Piece.print) = (ps, []) := by
  simpa [pieces_nil] using pieces_print_append h []

/-- Reading splits a text into the pieces that are read and the text where it stops. -/
theorem print_pieces (cs : List Char) :
    (∀ p ∈ (pieces cs).1, p.WellFormed) ∧
      (pieces cs).1.flatMap Piece.print ++ (pieces cs).2 = cs := by
  fun_induction pieces cs with
  | case1 cs h => simp
  | case2 cs p rest h _ ps stop hpieces ih =>
    obtain ⟨hp, hcs⟩ := print_of_piece? h
    rw [hpieces] at ih
    refine ⟨?_, ?_⟩
    · simpa [hp] using ih.1
    · rw [List.flatMap_cons, List.append_assoc, ih.2, hcs]

/-! ### Parts and pieces -/

/-- The pieces that a part is read from. -/
def ofPart : TemplatePart → List Piece
  | .text t => t.toList.map .char
  | .column name => [.column name.toList]

theorem print_ofPart (part : TemplatePart) : (ofPart part).flatMap Piece.print = part.print := by
  cases part with
  | text t => exact List.flatMap_map ..
  | column name => simp [ofPart, Piece.print, TemplatePart.print]

theorem print_eq (parts : List TemplatePart) :
    print parts = String.ofList ((parts.flatMap ofPart).flatMap Piece.print) := by
  simp only [print, List.flatMap_assoc, print_ofPart]

theorem wellFormed_ofPart {part : TemplatePart} (h : part.WellFormed) :
    ∀ p ∈ ofPart part, p.WellFormed := by
  cases part with
  | text t => simp [ofPart, Piece.WellFormed]
  | column name =>
    obtain ⟨hne, hname⟩ := h
    simpa [ofPart, Piece.WellFormed] using ⟨hne, hname⟩

/-- Gathering undoes the splitting of a normal list into pieces. -/
theorem foldr_addPiece_ofPart {parts : List TemplatePart} (h : Normal parts) :
    (parts.flatMap ofPart).foldr addPiece [] = parts := by
  induction parts with
  | nil => rfl
  | cons part parts ih =>
    obtain ⟨hwell, hchain⟩ := h
    have hrest := ih ⟨fun q hq => hwell q (List.mem_cons_of_mem _ hq), hchain.tail⟩
    rw [List.flatMap_cons, List.foldr_append, hrest]
    cases part with
    | column name => simp [ofPart, addPiece]
    | text t =>
      -- no text follows, so the last character starts a new text
      have hstart : ∀ c, addPiece (.char c) parts = .text (String.ofList [c]) :: parts := by
        intro c
        cases parts with
        | nil => rfl
        | cons next parts =>
          cases next with
          | column name => rfl
          | text u => exact absurd ⟨rfl, rfl⟩ (List.isChain_cons_cons.mp hchain).1
      have hgather : ∀ cs ≠ [], (cs.map Piece.char).foldr addPiece parts =
          .text (String.ofList cs) :: parts := by
        intro cs hcs
        induction cs with
        | nil => exact absurd rfl hcs
        | cons c cs ih =>
          cases cs with
          | nil => exact hstart c
          | cons d cs =>
            rw [List.map_cons, List.foldr_cons, ih (List.cons_ne_nil _ _)]
            simp [addPiece]
      have ht : t.toList ≠ [] := by
        simpa [TemplatePart.WellFormed] using hwell _ List.mem_cons_self
      rw [ofPart, hgather _ ht, String.ofList_toList]

/-- One more piece in front keeps the parts normal, and is the first of their pieces. -/
theorem normal_addPiece {p : Piece} {parts : List TemplatePart} (hp : p.WellFormed)
    (h : Normal parts) :
    Normal (addPiece p parts) ∧ (addPiece p parts).flatMap ofPart = p :: parts.flatMap ofPart := by
  obtain ⟨hwell, hchain⟩ := h
  cases p with
  | column name =>
    have hpart : (TemplatePart.column (String.ofList name)).WellFormed := by
      simpa [TemplatePart.WellFormed, Piece.WellFormed] using hp
    refine ⟨⟨List.forall_mem_cons.mpr ⟨hpart, hwell⟩, ?_⟩, by simp [addPiece, ofPart]⟩
    exact List.isChain_cons.mpr ⟨by simp [TemplatePart.isText], hchain⟩
  | char c =>
    cases parts with
    | nil =>
      refine ⟨⟨?_, List.isChain_singleton _⟩, by simp [addPiece, ofPart]⟩
      simp [addPiece, TemplatePart.WellFormed]
    | cons next parts =>
      obtain ⟨hnext, hparts⟩ := List.forall_mem_cons.mp hwell
      cases next with
      | column name =>
        refine ⟨⟨List.forall_mem_cons.mpr ⟨by simp [TemplatePart.WellFormed], hwell⟩, ?_⟩,
          by simp [addPiece, ofPart]⟩
        exact List.isChain_cons_cons.mpr ⟨by simp [TemplatePart.isText], hchain⟩
      | text t =>
        -- the text grows at its front and keeps its neighbour
        refine ⟨⟨List.forall_mem_cons.mpr ⟨by simp [TemplatePart.WellFormed], hparts⟩, ?_⟩,
          by simp [addPiece, ofPart]⟩
        exact List.isChain_cons.mpr (List.isChain_cons.mp hchain)

theorem normal_foldr_addPiece {ps : List Piece} (h : ∀ p ∈ ps, p.WellFormed) :
    Normal (ps.foldr addPiece []) ∧ (ps.foldr addPiece []).flatMap ofPart = ps := by
  induction ps with
  | nil => exact ⟨⟨by simp, .nil⟩, rfl⟩
  | cons p ps ih =>
    obtain ⟨hp, hps⟩ := List.forall_mem_cons.mp h
    obtain ⟨hnormal, hpieces⟩ := ih hps
    obtain ⟨hnormal', hpieces'⟩ := normal_addPiece hp hnormal
    exact ⟨hnormal', by rw [List.foldr_cons, hpieces', hpieces]⟩

/-! ### Reading -/

theorem parse_eq_ok {s : String} {parts : List TemplatePart} :
    parse s = .ok parts ↔
      (pieces s.toList).2 = [] ∧ (pieces s.toList).1.foldr addPiece [] = parts := by
  unfold parse
  cases hs : pieces s.toList with
  | mk ps stop => cases stop <;> simp [hs]

theorem parse_eq_error {s : String} {fault : TemplateFault} (h : parse s = .error fault) :
    fault.position = Text.byteLength s.toList - Text.byteLength (pieces s.toList).2 := by
  unfold parse at h
  cases hs : pieces s.toList with
  | mk ps stop =>
    cases stop with
    | nil => simp [hs] at h
    | cons c stop =>
      simp only [hs, Except.error.injEq] at h
      rw [← h]

/-- Reading gives back a normal list that was written. -/
theorem parse_print {parts : List TemplatePart} (h : Normal parts) :
    parse (print parts) = .ok parts := by
  have hpieces : ∀ p ∈ parts.flatMap ofPart, p.WellFormed := by
    intro p hp
    obtain ⟨part, hpart, hp⟩ := List.mem_flatMap.mp hp
    exact wellFormed_ofPart (h.wellFormed part hpart) p hp
  rw [parse_eq_ok, print_eq, String.toList_ofList, pieces_print hpieces]
  exact ⟨rfl, foldr_addPiece_ofPart h⟩

/-- What is accepted is the written form of a normal list. -/
theorem print_of_parse {s : String} {parts : List TemplatePart} (h : parse s = .ok parts) :
    Normal parts ∧ print parts = s := by
  obtain ⟨hstop, rfl⟩ := parse_eq_ok.mp h
  obtain ⟨hpieces, hsplit⟩ := print_pieces s.toList
  obtain ⟨hnormal, hparts⟩ := normal_foldr_addPiece hpieces
  refine ⟨hnormal, ?_⟩
  rw [hstop, List.append_nil] at hsplit
  rw [print_eq, hparts, hsplit, String.ofList_toList]

/-! ### Where reading stops -/

def Accepts (s : String) : Prop := ∃ parts, parse s = .ok parts

/-- A prefix that is accepted, and no shorter than any other prefix that is. -/
structure LongestAccepted (s accepted : String) : Prop where
  within : accepted.toList <+: s.toList
  accepts : Accepts accepted
  longest : ∀ t : String, t.toList <+: s.toList → Accepts t → t.toList <+: accepted.toList

/-- What is read of a text. -/
def read (s : String) : String := String.ofList ((pieces s.toList).1.flatMap Piece.print)

theorem read_append (s : String) : (read s).toList ++ (pieces s.toList).2 = s.toList := by
  rw [read, String.toList_ofList, (print_pieces s.toList).2]

theorem pieces_append {s : String} (h : Accepts s) (rest : List Char) :
    pieces (s.toList ++ rest) = ((pieces s.toList).1 ++ (pieces rest).1, (pieces rest).2) := by
  obtain ⟨parts, h⟩ := h
  obtain ⟨hpieces, hsplit⟩ := print_pieces s.toList
  rw [(parse_eq_ok.mp h).1, List.append_nil] at hsplit
  rw [← pieces_print_append hpieces, hsplit]

/-- Reading stops only where no accepted prefix goes further. -/
theorem longestAccepted_read (s : String) : LongestAccepted s (read s) where
  within := ⟨_, read_append s⟩
  accepts := by
    refine ⟨_, parse_eq_ok.mpr ⟨?_, rfl⟩⟩
    rw [read, String.toList_ofList, pieces_print (print_pieces s.toList).1]
  longest := by
    rintro t ⟨rest, hrest⟩ ht
    -- the prefix is read first, so reading stops in the text after it
    have hstop : (pieces s.toList).2 = (pieces rest).2 := by rw [← hrest, pieces_append ht]
    have hsplit : (read s).toList ++ (pieces rest).2 = t.toList ++ rest := by
      rw [← hstop, read_append, hrest]
    have hread : t.toList ++ (pieces rest).1.flatMap Piece.print ++ (pieces rest).2 =
        (read s).toList ++ (pieces rest).2 := by
      rw [hsplit, List.append_assoc, (print_pieces rest).2]
    exact ⟨_, List.append_cancel_right hread⟩

end Template

namespace Text

theorem byteLength_toList (s : String) : byteLength s.toList = s.utf8ByteSize := by
  have h : ∀ cs, byteLength cs = (String.ofList cs).utf8ByteSize := by
    intro cs
    induction cs with
    | nil => rfl
    | cons c cs ih =>
      rw [byteLength_cons, ih, String.ofList_cons, String.utf8ByteSize_append,
        String.utf8ByteSize_singleton]
  rw [h, String.ofList_toList]

end Text

namespace Template

theorem position_of_parse {s : String} {fault : TemplateFault} (h : parse s = .error fault) :
    fault.position = (read s).utf8ByteSize := by
  have hlength := congrArg Text.byteLength (read_append s)
  rw [Text.byteLength_append] at hlength
  rw [parse_eq_error h, ← hlength, Nat.add_sub_cancel, Text.byteLength_toList]

/-- Reading and writing are inverse to each other between the templates that are accepted and the
normal lists of parts, and a refusal is reported where the longest accepted prefix ends. -/
theorem parse_inverse_print :
    (∀ parts, Normal parts → parse (print parts) = .ok parts) ∧
    (∀ s parts, parse s = .ok parts → Normal parts ∧ print parts = s) ∧
    ∀ s fault, parse s = .error fault →
      ∃ accepted, LongestAccepted s accepted ∧ fault.position = accepted.utf8ByteSize := by
  refine ⟨fun parts h => parse_print h, fun s parts h => print_of_parse h, ?_⟩
  intro s fault h
  exact ⟨read s, longestAccepted_read s, position_of_parse h⟩

/-- A text with an escaped brace, a column, and a text of one backslash; and a second column that is
not closed after a two-byte character and a column. -/
theorem parse_inverse_print_accents :
    let parts : List TemplatePart := [.text "é\x7b", .column "a b", .text "\\"]
    let template := "é\\\x7b\x7ba b\x7d\\\\"
    let refused := "é\x7ba\x7d\x7bb"
    let fault : TemplateFault := ⟨refused, 5, .unclosed⟩
    (Normal parts ∧ print parts = template ∧ parse template = .ok parts) ∧
      (parse refused = .error fault ∧
        ∃ accepted, LongestAccepted refused accepted ∧ fault.position = accepted.utf8ByteSize) := by
  intro parts template refused fault
  have hnormal : Normal parts := ⟨by decide, by decide⟩
  have hprint : print parts = template := by decide
  have hrefused : parse refused = .error fault := by decide +kernel
  refine ⟨⟨hnormal, hprint, ?_⟩, hrefused, parse_inverse_print.2.2 refused fault hrefused⟩
  rw [← hprint]
  exact parse_inverse_print.1 parts hnormal

end Template

end VirtualGraph
