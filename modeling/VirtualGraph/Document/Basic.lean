/-!
# Documents

The values that a mapping or a settings file is written in, whatever its format, and how records are
read from them. A record names its fields, or lists their values in the declared order. Fields that
are not read are ignored whatever they hold, so a value that can not be read does no harm in them.
-/

namespace VirtualGraph

/-- A document value. The value of a number that is not an integer is never used. -/
inductive Document where
  | null
  | bool (b : Bool)
  | integer (n : Int)
  | real
  | text (text : String)
  | list (items : List Document)
  | record (fields : List (String × Document))
  /-- A value that is well formed but stands for nothing, such as a text with half a character. -/
  | unreadable
  deriving Inhabited

/-- How freely records and choices may be written. -/
inductive Strictness where
  | strict
  | lenient
  deriving DecidableEq

namespace Document

def text? : Document → Option String
  | text t => some t
  | _ => none

def bool? : Document → Option Bool
  | bool b => some b
  | _ => none

/-- A natural number. -/
def count? : Document → Option Nat
  | integer n => if 0 ≤ n then some n.toNat else none
  | _ => none

/-- Reads every item of a list. -/
def each? {α : Type} (read : Document → Option α) : List Document → Option (List α)
  | [] => some []
  | d :: rest =>
    match read d, each? read rest with
    | some a, some as => some (a :: as)
    | _, _ => none

/-- A list whose items all read. -/
def list? {α : Type} (read : Document → Option α) : Document → Option (List α)
  | list items => each? read items
  | _ => none

/-- Whether a value may follow the name of a choice: null, or leniently an empty list or record. -/
def isBlank (s : Strictness) : Document → Bool
  | null => s = .strict
  | list [] => s = .lenient
  | record [] => s = .lenient
  | _ => false

/-- One of a fixed set of names, by itself or as the only field of a record without a value. -/
def choice? {α : Type} (s : Strictness) (ofName? : String → Option α) : Document → Option α
  | text t => ofName? t
  | record [(name, v)] => if v.isBlank s then ofName? name else none
  | _ => none

mutual

/-- Whether a value can be read in all its parts. -/
def isReadable : Document → Bool
  | unreadable => false
  | list items => areReadable items
  | record fields => areFieldsReadable fields
  | null => true
  | bool _ => true
  | integer _ => true
  | real => true
  | text _ => true
termination_by structural x => x

def areReadable : List Document → Bool
  | [] => true
  | d :: rest => isReadable d && areReadable rest
termination_by structural x => x

def areFieldsReadable : List (String × Document) → Bool
  | [] => true
  | (_, d) :: rest => isReadable d && areFieldsReadable rest
termination_by structural x => x

end

/-- The given fields of a record, and whether they were given by position. -/
structure Fields where
  given : List (String × Document)
  positional : Bool

/-- The fields of a record with the declared names. No declared name may be given twice; a closed
record has no other field. Values by position may outnumber the names only leniently, and the
surplus is ignored. -/
def fields? (s : Strictness) (names : List String) (closed : Bool) : Document → Option Fields
  | record fields =>
    let keys := fields.map (·.1)
    if names.all (fun n => keys.count n ≤ 1) && (!closed || keys.all names.contains) then
      some ⟨fields, false⟩
    else none
  | list items =>
    if s = .lenient ∨ items.length ≤ names.length then some ⟨names.zip items, true⟩ else none
  | _ => none

namespace Fields

def get? (f : Fields) (name : String) : Option Document := f.given.lookup name

/-- A field that has to be there. -/
def required {α : Type} (f : Fields) (name : String) (read : Document → Option α) : Option α :=
  (f.get? name).bind read

/-- A field with a value of its own when it is absent. -/
def withDefault {α : Type} (f : Fields) (name : String) (default : α)
    (read : Document → Option α) : Option α :=
  match f.get? name with
  | some d => read d
  | none => some default

/-- A field that may be absent or null. By position it has to be there. -/
def optional {α : Type} (f : Fields) (name : String) (read : Document → Option α) :
    Option (Option α) :=
  match f.get? name with
  | some .null => some none
  | some d => (read d).map some
  | none => if f.positional then none else some none

end Fields

end Document

end VirtualGraph
