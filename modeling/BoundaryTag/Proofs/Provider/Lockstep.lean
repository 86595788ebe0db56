import BoundaryTag.Provider.Buffer

/-!
# The contract of a grower

`Grower.Contract` is what a program relies on: what has been handed out can be seen and changed, a
request is granted exactly when there is room for it, a granted one appends zero bytes, and a
refused one leaves everything as it was.

Two growers may keep their bytes in different ways and still do the same. `Grower.Lockstep` says so
of a relation between them, one step at a time. Then they go on alike through every run
(`Grower.Lockstep.performAll`), and the contract of one is the contract of the other
(`Grower.Lockstep.contract`).
-/

namespace BoundaryTag

namespace Grower

variable {τ υ κ ε : Type} [Grower τ κ ε] [Grower υ κ ε]

/-! ## The contract -/

/-- What is promised of a grower that has handed out these bytes and has room for more. A request
that exceeds the room is refused with a reason that depends on it. -/
structure Contract (grower : τ) (bytes : List UInt8) (room : Nat) (refusal : Nat → ε) : Prop where
  view_eq : view grower = .ok bytes
  granted : ∀ count ≤ room, ∃ grown, grow count grower = .ok (.ok bytes.length grown) ∧
    view grown = .ok (bytes ++ List.replicate count 0)
  refused : ∀ count, room < count → grow count grower = .ok (.error (refusal count) grower)
  written : ∀ offset values, offset + values.length ≤ bytes.length →
    ∃ changed, write offset values grower = .ok changed ∧
      view changed = .ok (overwritten bytes offset values)

/-- A grower that keeps the contract takes every step, except to change bytes that have not been
handed out. -/
theorem Contract.exists_perform {grower : τ} {bytes : List UInt8} {room : Nat} {refusal : Nat → ε}
    {step : Step κ} (hcontract : Contract grower bytes room refusal)
    (hrange : ∀ offset values, step = .write offset values →
      offset + values.length ≤ bytes.length) :
    ∃ after, perform grower step = .ok after := by
  cases step with
  | grow count =>
      by_cases hcount : count ≤ room
      case pos =>
        obtain ⟨grown, hgrow, -⟩ := hcontract.granted count hcount
        exact ⟨grown, by rw [perform, hgrow]; rfl⟩
      case neg =>
        have hgrow := hcontract.refused count (Nat.lt_of_not_le hcount)
        exact ⟨grower, by rw [perform, hgrow]; rfl⟩
  | write offset values =>
      obtain ⟨changed, hwrite, -⟩ := hcontract.written offset values (hrange offset values rfl)
      exact ⟨changed, hwrite⟩
  | command given => exact ⟨_, rfl⟩

/-! ## Growers that go in lockstep -/

/-- Two computations that fault alike, or yield values that are related. -/
inductive Alike {α β : Type} (related : α → β → Prop) : Except Fault α → Except Fault β → Prop where
  | ok {left : α} {right : β} (hrelated : related left right) : Alike related (.ok left) (.ok right)
  | error (cause : Fault) : Alike related (.error cause) (.error cause)

namespace Alike

variable {α β α' β' : Type} {related : α → β → Prop} {others : α' → β' → Prop}
  {mine : Except Fault α} {other : Except Fault β}

/-- Computations that go on alike from related values are alike. -/
theorem bind {next : α → Except Fault α'} {next' : β → Except Fault β'}
    (halike : Alike related mine other)
    (hnext : ∀ {left right}, related left right → Alike others (next left) (next' right)) :
    Alike others (mine >>= next) (other >>= next') := by
  cases halike with
  | ok hrelated => exact hnext hrelated
  | error cause => exact .error cause

/-- If the right one yields a value, so does the left one. -/
theorem exists_left {right : β} (halike : Alike related mine (.ok right)) :
    ∃ left, mine = .ok left ∧ related left right := by
  cases halike with
  | ok hrelated => exact ⟨_, rfl, hrelated⟩

/-- If the left one yields a value, so does the right one. -/
theorem exists_right {left : α} (halike : Alike related (.ok left) other) :
    ∃ right, other = .ok right ∧ related left right := by
  cases halike with
  | ok hrelated => exact ⟨_, rfl, hrelated⟩

end Alike

/-- Two growers answer alike: they grant the same address and are related afterwards, or they refuse
for the same reason and stay as they are. -/
inductive SameAnswer (related : τ → υ → Prop) (left : τ) (right : υ) :
    EStateM.Result ε τ Nat → EStateM.Result ε υ Nat → Prop where
  | granted (base : Nat) {grown : τ} {extended : υ} (hrelated : related grown extended) :
      SameAnswer related left right (.ok base grown) (.ok base extended)
  | refused (reason : ε) : SameAnswer related left right (.error reason left) (.error reason right)

/-- Growers that are related show the same bytes, answer alike, and stay related. -/
structure Lockstep (related : τ → υ → Prop) : Prop where
  view : ∀ {left right}, related left right → view left = view right
  grow : ∀ {left right} (count : Nat), related left right →
    Alike (SameAnswer related left right) (grow count left) (grow count right)
  write : ∀ {left right} (offset : Nat) (values : List UInt8), related left right →
    Alike related (write offset values left) (write offset values right)
  command : ∀ {left right} (given : κ), related left right →
    related (Commanded.command given left) (Commanded.command given right)

namespace Lockstep

variable {related : τ → υ → Prop} {left : τ} {right : υ} {bytes : List UInt8} {room : Nat}
  {refusal : Nat → ε}

/-- A step leaves related growers related, or is a fault for both. -/
theorem perform (hlockstep : Lockstep related) (hrelated : related left right) (step : Step κ) :
    Alike related (perform left step) (perform right step) := by
  cases step with
  | grow count =>
      refine (hlockstep.grow count hrelated).bind fun hanswer => ?_
      cases hanswer with
      | granted base hgrown => exact .ok hgrown
      | refused reason => exact .ok hrelated
  | write offset values => exact hlockstep.write offset values hrelated
  | command given => exact .ok (hlockstep.command given hrelated)

/-- Growers that are related go in lockstep through every run. -/
theorem performAll (hlockstep : Lockstep related) (hrelated : related left right)
    (steps : List (Step κ)) : Alike related (performAll left steps) (performAll right steps) := by
  induction steps generalizing left right with
  | nil => exact .ok hrelated
  | cons step steps ih => exact (hlockstep.perform hrelated step).bind ih

/-- The contract of one of them is the contract of the other one. -/
theorem contract (hlockstep : Lockstep related) (hrelated : related left right)
    (hcontract : Contract right bytes room refusal) : Contract left bytes room refusal := by
  constructor
  case view_eq => rw [hlockstep.view hrelated, hcontract.view_eq]
  case granted =>
    intro count hcount
    obtain ⟨extended, hgrow, hview⟩ := hcontract.granted count hcount
    obtain ⟨answer, hmine, hanswer⟩ := (hgrow ▸ hlockstep.grow count hrelated).exists_left
    cases hanswer with
    | granted _ hgrown => exact ⟨_, hmine, by rw [hlockstep.view hgrown, hview]⟩
  case refused =>
    intro count hcount
    have hgrow := hcontract.refused count hcount
    obtain ⟨answer, hmine, hanswer⟩ := (hgrow ▸ hlockstep.grow count hrelated).exists_left
    cases hanswer with
    | refused => exact hmine
  case written =>
    intro offset values hrange
    obtain ⟨changed, hwrite, hview⟩ := hcontract.written offset values hrange
    obtain ⟨mine, hmine, hchanged⟩ :=
      (hwrite ▸ hlockstep.write offset values hrelated).exists_left
    exact ⟨mine, hmine, by rw [hlockstep.view hchanged, hview]⟩

end Lockstep

end Grower

end BoundaryTag
