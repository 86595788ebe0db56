import BoundaryTag.Provider.Basic

/-!
# A provider that is watched

`Logged` stands in front of another provider, hands on what it is asked for, and keeps a record of
the requests and of whether they were granted.
-/

namespace BoundaryTag

/-- A request for more memory, and whether it was granted. -/
structure Request where
  count : Nat
  granted : Bool
  deriving DecidableEq, Repr

/-- A provider, and the requests that it has had, the first one first. -/
structure Logged (σ : Type) where
  inner : σ
  requests : List Request

variable {σ ε : Type}

namespace Region

/-- The region with its provider watched, after these requests. -/
def logged (region : Region σ) (requests : List Request) : Region (Logged σ) where
  provider := ⟨region.provider, requests⟩
  memory := region.memory

/-- The region without the record. -/
def unlogged (region : Region (Logged σ)) : Region σ := ⟨region.provider.inner, region.memory⟩

end Region

namespace Logged

variable [Provider σ ε]

instance : Provider (Logged σ) ε where
  grow count := fun region =>
    match Provider.grow count region.unlogged with
    | .ok base after => .ok base (after.logged (region.provider.requests ++ [⟨count, true⟩]))
    | .error reason after =>
        .error reason (after.logged (region.provider.requests ++ [⟨count, false⟩]))

instance [LawfulProvider σ] : LawfulProvider (Logged σ) where
  appended := by
    intro count base before after hgrow
    simp only [Provider.grow] at hgrow
    split at hgrow
    next found middle hinner =>
      obtain ⟨rfl, rfl⟩ := EStateM.Result.ok.inj hgrow
      have happended := LawfulProvider.appended hinner
      exact happended
    next => exact nomatch hgrow
  kept := by
    intro count reason before after hgrow
    simp only [Provider.grow] at hgrow
    split at hgrow
    next => exact nomatch hgrow
    next found middle hinner =>
      obtain ⟨rfl, rfl⟩ := EStateM.Result.error.inj hgrow
      have hkept := LawfulProvider.kept hinner
      exact hkept

end Logged

namespace Region

variable [Provider σ ε] {region grown : Region σ} {requests : List Request} {count base : Nat}
  {reason : ε}

theorem grow_logged_of_ok (h : Provider.grow count region = .ok base grown) :
    Provider.grow count (region.logged requests) =
      .ok base (grown.logged (requests ++ [⟨count, true⟩])) := by
  have hsame : (region.logged requests).unlogged = region := rfl
  simp only [Provider.grow, hsame, h]
  rfl

theorem grow_logged_of_error (h : Provider.grow count region = .error reason grown) :
    Provider.grow count (region.logged requests) =
      .error reason (grown.logged (requests ++ [⟨count, false⟩])) := by
  have hsame : (region.logged requests).unlogged = region := rfl
  simp only [Provider.grow, hsame, h]
  rfl

/-- Watching a provider does not change what it grants. -/
theorem grants_logged (region : Region σ) (requests : List Request) (count : Nat) :
    (region.logged requests).grants count = region.grants count := by
  rw [grants, grants]
  cases hgrow : Provider.grow count region with
  | ok base grown => rw [grow_logged_of_ok hgrow]
  | error reason grown => rw [grow_logged_of_error hgrow]

end Region

end BoundaryTag
