import LockScript.Condition

/-! # Conditions in writing

A condition is written as nested calls, `and_v(v:pk(A),older(144))`. Wrappers are single letters in
front of a colon, and a few common shapes have short names: `pk` and `pkh` swallow a `c:`, `t:`
stands for `and_v(X,1)`, `l:` and `u:` for an `or_i` with `0`, and `and_n` for an `andor` that ends
in `0`.

Notes can be written too, each in front of its fragment; fragments that a short name swallows lose
theirs.
-/

namespace LockScript

/-- A name and its arguments in parentheses. -/
def callText (name : String) (arguments : List String) : String :=
  name ++ "(" ++ ",".intercalate arguments ++ ")"

/-- The name of a hash function in a fragment. -/
def HashKind.name : HashKind → String
  | sha256 => "sha256"
  | hash256 => "hash256"
  | ripemd160 => "ripemd160"
  | hash160 => "hash160"

/-- The letter of a wrapper. -/
def Wrapper.name : Wrapper → String
  | alt => "a"
  | swap => "s"
  | check => "c"
  | dupIf => "d"
  | verify => "v"
  | nonzero => "j"
  | zeroNotEqual => "n"

/-- The name of a connective. -/
def Connective.name : Connective → String
  | andV => "and_v"
  | andB => "and_b"
  | orB => "or_b"
  | orD => "or_d"
  | orC => "or_c"
  | orI => "or_i"

namespace Leaf

variable {κ δ : Type} [KeyLike κ] [DigestLike δ]

/-- The name of a leaf. -/
def name : Leaf κ δ → String
  | one => "1"
  | zero => "0"
  | key _ => "pk_k"
  | keyHash _ => "pk_h"
  | after _ => "after"
  | older _ => "older"
  | digest d => (DigestLike.kind d).name
  | multi _ => "multi"
  | multiA _ => "multi_a"

/-- A leaf with what it names. -/
def text (l : Leaf κ δ) : String :=
  match l with
  | one | zero => l.name
  | key k | keyHash k => callText l.name [KeyLike.text k]
  | after lock => callText l.name [toString lock.value]
  | older lock => callText l.name [toString lock.value]
  | digest d => callText l.name [DigestLike.text d]
  | multi ks => callText l.name (toString ks.k :: ks.items.map KeyLike.text)
  | multiA ks => callText l.name (toString ks.k :: ks.items.map KeyLike.text)

end Leaf

namespace Condition

variable {κ δ α : Type}

/-- Whether the root is `1`. -/
def isOne : Condition κ δ α → Bool
  | leaf _ .one => true
  | _ => false

/-- Whether the root is `0`. -/
def isZero : Condition κ δ α → Bool
  | leaf _ .zero => true
  | _ => false

variable [KeyLike κ] [DigestLike δ]

/-- The name of the fragment at the root, short names included. -/
def name : Condition κ δ α → String
  | leaf _ l => l.name
  | wrap _ .check (leaf _ (.key _)) => "pk"
  | wrap _ .check (leaf _ (.keyHash _)) => "pkh"
  | wrap _ w _ => w.name
  | pair _ .andV _ y => if y.isOne then "t" else Connective.andV.name
  | pair _ .orI x y => if y.isZero then "u" else if x.isZero then "l" else Connective.orI.name
  | pair _ op _ _ => op.name
  | andOr _ _ _ z => if z.isZero then "and_n" else "andor"
  | thresh _ _ _ => "thresh"

/-- Whether the root is written as a letter in front of its child. -/
def isWrapper (t : Condition κ δ α) : Bool :=
  match t with
  | leaf _ _ => false
  | wrap _ _ _ | pair _ _ _ _ | andOr _ _ _ _ | thresh _ _ _ => t.name.length == 1

/-- What stands between a letter and its child: nothing before another letter, else a colon. -/
def joint (child : Condition κ δ α) : String :=
  if child.isWrapper then "" else ":"

mutual

/-- A condition in writing, with the notes of all fragments but the root in front of them. -/
def body (tag : α → String) : Condition κ δ α → String
  | leaf _ l => l.text
  | wrap _ .check (leaf _ (.key k)) => callText "pk" [KeyLike.text k]
  | wrap _ .check (leaf _ (.keyHash k)) => callText "pkh" [KeyLike.text k]
  | wrap _ w x => w.name ++ x.joint ++ tag x.note ++ body tag x
  | pair note op x y =>
    let letter (child : Condition κ δ α) (written : String) :=
      (pair note op x y).name ++ child.joint ++ tag child.note ++ written
    match op with
    | .andV =>
      if y.isOne then letter x (body tag x)
      else callText op.name [tag x.note ++ body tag x, tag y.note ++ body tag y]
    | .orI =>
      if x.isZero then letter y (body tag y)
      else if y.isZero then letter x (body tag x)
      else callText op.name [tag x.note ++ body tag x, tag y.note ++ body tag y]
    | .andB | .orB | .orD | .orC =>
      callText op.name [tag x.note ++ body tag x, tag y.note ++ body tag y]
  | andOr _ x y z =>
    if z.isZero then callText "and_n" [tag x.note ++ body tag x, tag y.note ++ body tag y]
    else callText "andor"
      [tag x.note ++ body tag x, tag y.note ++ body tag y, tag z.note ++ body tag z]
  | thresh _ k items => callText "thresh" (toString k :: bodies tag items)

/-- Listed conditions in writing, each behind its note. -/
def bodies (tag : α → String) : List (Condition κ δ α) → List String
  | [] => []
  | x :: rest => (tag x.note ++ body tag x) :: bodies tag rest

end

/-- A condition in writing, without notes. -/
def text (t : Condition κ δ α) : String :=
  t.body fun _ => ""

/-- A condition in writing, with every note in front of its fragment. -/
def taggedText (tag : α → String) (t : Condition κ δ α) : String :=
  tag t.note ++ t.body tag

end Condition

end LockScript
