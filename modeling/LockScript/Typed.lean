import LockScript.Draft
import LockScript.Text
import LockScript.Typing.FragmentType
import LockScript.Typing.TypeError
import LockScript.Resource.Budget

/-! # Typed conditions

A typed condition carries at every node its type and its budget, computed once, when the node is put
together, from those of its children. A draft is checked bottom-up; the first fragment that fails
decides the error.
-/

namespace LockScript

/-- What is known of a checked fragment. -/
structure Attributes where
  type : FragmentType
  budget : Budget Word
  deriving DecidableEq, Repr

instance : Inhabited Attributes := ⟨⟨.zero, .zero⟩⟩

namespace Attributes

/-- The type in brackets, as it stands in front of a fragment. -/
def tag (attributes : Attributes) : String :=
  "[" ++ attributes.type.text ++ "]"

end Attributes

/-- A condition whose fragments fit together. -/
abbrev Typed (κ δ : Type) := Condition κ δ Attributes

/-- Why a fragment could not be typed. -/
inductive CheckError where
  | context (error : ContextError)
  | type (error : TypeError)
  | tooHigh
  deriving DecidableEq, Repr

namespace CheckError

/-- The reason in words. -/
def message : CheckError → String
  | context error => error.message
  | type error => "typecheck: " ++ error.message
  | tooHigh => s!"Recursive depth over {heightLimit} not permitted"

/-- The messages of the errors that this one wraps. -/
def causes : CheckError → List String
  | context error => [error.message]
  | type error => [error.message]
  | tooHigh => []

end CheckError

namespace Typed

variable {κ δ : Type}

/-- The type of the root. -/
def type (t : Typed κ δ) : FragmentType := t.note.type

/-- The budget of the root. -/
def budget (t : Typed κ δ) : Budget Word := t.note.budget

variable [KeyLike κ] [DigestLike δ]

/-- Puts typed conditions together. Only the new fragment is checked: whether the context allows it,
whether its children fit, and whether the tree stays low. -/
def assemble (context : Context) (fragment : Fragment κ δ (Typed κ δ)) :
    Except CheckError (Typed κ δ) := do
  (context.checkFragment fragment).mapError .context
  let type ← (FragmentType.ofFragment (fragment.map Typed.type)).mapError fun fault =>
    let shown : Typed κ δ := .node default fragment
    .type ⟨fault, shown.name, shown.text⟩
  let budget := Budget.ofFragment context (fragment.map Typed.budget)
  if budget.height < heightLimit then return .node ⟨type, budget⟩ fragment else throw .tooHigh

end Typed

namespace Draft

variable {κ δ : Type} [KeyLike κ] [DigestLike δ]

/-- Types the fragments of one child of a root, children first. Their positions count from the start
of that child, behind the results for the children before it. -/
def checkBelow (context : Context) (results : Array (Typed κ δ)) (child : Draft κ δ) :
    Except CheckError (Array (Typed κ δ)) :=
  let offset := results.size
  (Traversal.postorder child).foldlM (fun results item =>
    Traversal.visit (fun x items => Typed.assemble context (x.fragment.withChildren items))
      results item.node (item.childIndices.map (· + offset))) results

/-- Types every fragment of a draft, children first. The children of the root are typed one after
the other into one list of results, and the root is put together last, from their places in it. -/
def check (context : Context) (draft : Draft κ δ) : Except CheckError (Typed κ δ) := do
  let (results, roots) ← draft.children.foldlM (fun (results, roots) child => do
    let results ← checkBelow context results child
    return (results, roots.push (results.size - 1))) (#[], (#[] : Array Nat))
  Typed.assemble context
    (draft.fragment.withChildren (roots.toList.map (results.getD · default)))

end Draft

end LockScript
