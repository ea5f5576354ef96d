import LockScript.Sanity
import LockScript.Satisfaction.Search

/-! # Errors

Every way in which the library refuses, with its message and those of the errors behind it.
-/

namespace LockScript

/-- Any error of the library. -/
inductive Error where
  | draft (error : DraftError)
  | check (error : CheckError)
  | limit (error : LimitError)
  | satisfy (error : SatisfyError)
  | sanity (error : SanityError)
  deriving DecidableEq, Repr

namespace Error

/-- The reason in words. -/
def message : Error → String
  | draft error => error.message
  | check error => error.message
  | limit error => error.message
  | satisfy error => error.message
  | sanity error => error.message

/-- The messages of the errors behind this one, outermost first. A draft error may wrap another. -/
def causes : Error → List String
  | draft error => error.message :: error.causes
  | check error => error.causes
  | limit error => [error.message]
  | satisfy error => [error.message]
  | sanity error => [error.message]

end Error

end LockScript
