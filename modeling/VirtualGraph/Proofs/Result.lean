import VirtualGraph.Fault

/-!
# Results and the faults they may have

A result is described by two conditions: one on the value, if there is one, and one on the fault
otherwise. Both pass through the steps of a computation, so that each function is described once and
its callers never look into it. What has no fault at all gives a value.
-/

namespace VirtualGraph

/-- The fault of an expression that cannot be compiled. -/
def Fault.IsUnsupported : Fault → Prop
  | .unsupported _ => True
  | _ => False

/-- No fault at all. -/
def Fault.Excluded : Fault → Prop := fun _ => False

/-- Any fault. -/
def Fault.Any : Fault → Prop := fun _ => True

namespace Result

variable {α β : Type} {allowed allowed' : Fault → Prop} {post : α → Prop} {post' : β → Prop}

theorem bind_eq_ok {x : Result α} {f : α → Result β} {b : β} :
    x >>= f = .ok b ↔ ∃ a, x = .ok a ∧ f a = .ok b := by
  cases x with
  | error e => simp [bind, Except.bind]
  | ok a => simp [bind, Except.bind]

theorem seq_eq_ok {x : Result Unit} {y : Result β} {b : β} :
    (x >>= fun _ => y) = .ok b ↔ x = .ok () ∧ y = .ok b := by
  rw [bind_eq_ok]
  constructor
  · rintro ⟨⟨⟩, hx, hy⟩
    exact ⟨hx, hy⟩
  · rintro ⟨hx, hy⟩
    exact ⟨(), hx, hy⟩

/-- A result with a property, or a fault of an allowed kind. -/
def Meets (allowed : Fault → Prop) (post : α → Prop) : Result α → Prop
  | .ok a => post a
  | .error f => allowed f

theorem meets_any (x : Result α) : x.Meets Fault.Any fun _ => True := by
  cases x <;> trivial

theorem Meets.bind {x : Result α} {f : α → Result β} (h : x.Meets allowed post)
    (hf : ∀ a, post a → (f a).Meets allowed post') : (x >>= f).Meets allowed post' := by
  cases x with
  | error e => exact h
  | ok a => exact hf a h

theorem Meets.map {x : Result α} {f : α → β} (h : x.Meets allowed post)
    (hf : ∀ a, post a → post' (f a)) : Meets allowed post' (x.map f) := by
  cases x with
  | error e => exact h
  | ok a => exact hf a h

theorem Meets.mono {post' : α → Prop} {x : Result α} (h : x.Meets allowed post)
    (hpost : ∀ a, post a → post' a) : x.Meets allowed post' := by
  cases x with
  | error e => exact h
  | ok a => exact hpost a h

theorem Meets.allow {x : Result α} (h : x.Meets allowed post)
    (hallowed : ∀ f, allowed f → allowed' f) : x.Meets allowed' post := by
  cases x with
  | error e => exact hallowed e h
  | ok a => exact h

/-- What never fails meets any condition on faults. -/
theorem Meets.of_excluded {x : Result α} (h : x.Meets Fault.Excluded post) :
    x.Meets allowed post :=
  h.allow fun _ hf => hf.elim

theorem Meets.and {post' : α → Prop} {x : Result α} (h : x.Meets allowed post)
    (h' : x.Meets Fault.Any post') : x.Meets allowed fun a => post a ∧ post' a := by
  cases x with
  | error e => exact h
  | ok a => exact ⟨h, h'⟩

theorem Meets.and_eq_ok {x : Result α} (h : x.Meets allowed post) :
    x.Meets allowed fun a => x = .ok a ∧ post a := by
  cases x with
  | error e => exact h
  | ok a => exact ⟨rfl, h⟩

theorem Meets.exists_ok {x : Result α} (h : x.Meets Fault.Excluded post) :
    ∃ a, x = .ok a ∧ post a := by
  cases x with
  | error e => exact h.elim
  | ok a => exact ⟨a, rfl, h⟩

theorem eq_ok_of_toOption {x : Result α} {a : α} (h : x.toOption = some a) : x = .ok a := by
  cases x with
  | error e => cases h
  | ok b => exact congrArg Except.ok (Option.some_inj.mp h)

/-- A computation that gives a result. -/
abbrev Succeeds (x : Result α) : Prop := x.Meets Fault.Excluded fun _ => True

end Result

end VirtualGraph
