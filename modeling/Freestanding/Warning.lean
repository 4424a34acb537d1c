import Freestanding.Policy

/-!
# Warnings

What a run has to say beside its result.  Warnings are values, kept in the order in which they arise;
a step that fails keeps those that arose before.

## Main definitions

* `Warning`, `Warning.message` — the kinds of warning and their wording.
* `Logged` — a value together with warnings, as a monad.
* `Attempt` — a computation that warns and may fail.
-/

namespace Freestanding

/-- Something worth telling that does not change the result. -/
inductive Warning
  /-- A cell was left out. -/
  | skippedBinding (cause : Error)
  /-- The static form of a cell holds an address of the host's memory. -/
  | rawPointer (identifier : Text) (address : UInt64)
  /-- The elements of a container are unusually large. -/
  | largeElement (symbol function : Text) (size : UInt64)
  /-- Code still needs the host, and the policy lets it pass. -/
  | residue (cause : Error) (policy : Policy)
  /-- An address could not be given a cell. -/
  | unresolved (function : Text) (cause : Error)
  deriving DecidableEq, Repr

/-- The wording of a warning. -/
def Warning.message : Warning → Text
  | .skippedBinding cause => "skipping binding: " ++ cause.message
  | .rawPointer identifier address =>
    "binding `" ++ identifier ++ "` holds a raw pointer " ++ Error.showAddress address ++
      "; the output will not be self-contained"
  | .largeElement symbol function size =>
    symbol ++ " in " ++ function ++ ": element size " ++ Text.decimal size.toNat ++
      " bytes exceeds 256"
  | .residue cause policy => cause.message ++ " (policy " ++ policy.name ++ ")"
  | .unresolved function cause => function ++ ": " ++ cause.message

/-- A value and the warnings that arose on the way to it, the first one first. -/
structure Logged (α : Type) where
  /-- The value. -/
  value : α
  /-- The warnings. -/
  warnings : List Warning := []

namespace Logged

instance : Monad Logged where
  pure a := ⟨a, []⟩
  bind x f := ⟨(f x.value).value, x.warnings ++ (f x.value).warnings⟩

instance : LawfulMonad Logged :=
  LawfulMonad.mk' Logged
    (fun _ => by simp [Functor.map])
    (fun _ _ => by simp [bind, pure])
    (fun _ _ _ => by simp [bind, List.append_assoc])

@[simp] theorem value_pure {α : Type} (a : α) : (pure a : Logged α).value = a := rfl

@[simp] theorem value_bind {α β : Type} (x : Logged α) (f : α → Logged β) :
    (x >>= f).value = (f x.value).value := rfl

/-- Warn, without a value. -/
def warn (w : Warning) : Logged Unit :=
  ⟨(), [w]⟩

end Logged

/-- A computation that warns and may fail; on failure the warnings stay. -/
abbrev Attempt := ExceptT Error Logged

/-- A result that is there already, as a computation without warnings. -/
def Attempt.ofExcept {α : Type} (x : Except Error α) : Attempt α :=
  ExceptT.mk (pure x)

/-- Warn inside a computation that may fail. -/
def Attempt.warn (w : Warning) : Attempt Unit :=
  ExceptT.lift (Logged.warn w)

end Freestanding
