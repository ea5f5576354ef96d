import Mathlib.Logic.Function.Basic
import LockScript.Proofs.Elaboration

/-! # Reading what is written

Conditions are written as nested calls with letters in front. The text of such a phrase is cut in one
way only: up to its first mark it names a call, or is a letter or a word, and which of the three it is can
be told from that mark. A phrase in turn is what one condition is written as, short names included.
Conditions with the same text are therefore made of the same fragments.
-/

namespace LockScript

/-- The characters that punctuate phrases. -/
def isMark (c : Char) : Bool :=
  c == '(' || c == ')' || c == ',' || c == ':'

/-- A text without marks. -/
@[ext]
structure PlainWord where
  text : String
  plain : ∀ c ∈ text.toList, isMark c = false

/-- Keys that are written differently and without marks. -/
class PlainKey (κ : Type) [KeyLike κ] : Prop where
  text_injective : Function.Injective (KeyLike.text : κ → String)
  plain : ∀ key : κ, ∀ c ∈ (KeyLike.text key).toList, isMark c = false

/-- Digests that are written without marks, and differently unless they belong to different functions. -/
class PlainDigest (δ : Type) [DigestLike δ] : Prop where
  text_injective : Function.Injective fun digest : δ => (DigestLike.kind digest, DigestLike.text digest)
  plain : ∀ digest : δ, ∀ c ∈ (DigestLike.text digest).toList, isMark c = false

/-- The names of calls. -/
inductive CallName where
  | pkK
  | pkH
  | pk
  | pkh
  | after
  | older
  | hash (kind : HashKind)
  | multi
  | multiA
  | join (op : Connective)
  | andN
  | andOr
  | thresh

namespace CallName

/-- The name as it is written. -/
def text : CallName → String
  | pkK => "pk_k"
  | pkH => "pk_h"
  | pk => "pk"
  | pkh => "pkh"
  | after => "after"
  | older => "older"
  | hash kind => kind.name
  | multi => "multi"
  | multiA => "multi_a"
  | join op => op.name
  | andN => "and_n"
  | andOr => "andor"
  | thresh => "thresh"

/-- Every name. -/
def all : List CallName :=
  [pkK, pkH, pk, pkh, after, older, hash .sha256, hash .hash256, hash .ripemd160, hash .hash160, multi,
    multiA, join .andV, join .andB, join .orB, join .orD, join .orC, join .orI, andN, andOr, thresh]

theorem find?_text (name : CallName) : all.find? (·.text == name.text) = some name := by
  cases name with
  | hash kind => cases kind <;> rfl
  | join op => cases op <;> rfl
  | _ => rfl

theorem text_injective : Function.Injective text := by
  intro name name' same
  have found := find?_text name
  rw [same, find?_text] at found
  exact (Option.some.inj found).symm

theorem plain_text (name : CallName) : ∀ c ∈ name.text.toList, isMark c = false := by
  cases name with
  | hash kind => cases kind <;> simp [text, HashKind.name, isMark]
  | join op => cases op <;> simp [text, Connective.name, isMark]
  | _ => simp [text, isMark]

end CallName

/-- The letters that stand in front of a phrase. -/
inductive Letter where
  | wrap (wrapper : Wrapper)
  | t
  | l
  | u

namespace Letter

/-- The letter as it is written. -/
def char : Letter → Char
  | wrap .alt => 'a'
  | wrap .swap => 's'
  | wrap .check => 'c'
  | wrap .dupIf => 'd'
  | wrap .verify => 'v'
  | wrap .nonzero => 'j'
  | wrap .zeroNotEqual => 'n'
  | t => 't'
  | l => 'l'
  | u => 'u'

/-- Every letter. -/
def all : List Letter :=
  [wrap .alt, wrap .swap, wrap .check, wrap .dupIf, wrap .verify, wrap .nonzero, wrap .zeroNotEqual, t, l, u]

theorem find?_char (letter : Letter) : all.find? (·.char == letter.char) = some letter := by
  cases letter with
  | wrap w => cases w <;> rfl
  | _ => rfl

theorem char_injective : Function.Injective char := by
  intro letter letter' same
  have found := find?_char letter
  rw [same, find?_char] at found
  exact (Option.some.inj found).symm

theorem plain_char (letter : Letter) : isMark letter.char = false := by
  cases letter with
  | wrap w => cases w <;> rfl
  | _ => rfl

end Letter

/-- Nested calls and words, with letters in front. -/
inductive Phrase where
  | word (word : PlainWord)
  | call (name : CallName) (first : Phrase) (rest : List Phrase)
  | letter (letter : Letter) (x : Phrase)

namespace Phrase

/-- Induction over phrases; all arguments of a call satisfy the motive. -/
@[elab_as_elim]
theorem induct {motive : Phrase → Prop} (word : ∀ w, motive (.word w))
    (call : ∀ name first rest, motive first → (∀ x ∈ rest, motive x) → motive (.call name first rest))
    (letter : ∀ letter x, motive x → motive (.letter letter x)) : ∀ p, motive p
  | .word w => word w
  | .call name first rest =>
    call name first rest (induct word call letter first) fun x _ => induct word call letter x
  | .letter c x => letter c x (induct word call letter x)

/-- Whether a phrase starts with a letter. -/
def isLetter : Phrase → Bool
  | letter _ _ => true
  | word _ | call _ _ _ => false

theorem exists_eq_letter {p : Phrase} (starts : p.isLetter = true) : ∃ c x, p = letter c x := by
  cases p with
  | letter c x => exact ⟨c, x, rfl⟩
  | word | call => cases starts

mutual

/-- A phrase in writing. The last letter of several is followed by a colon. -/
def chars : Phrase → List Char
  | word w => w.text.toList
  | call name first rest => name.text.toList ++ '(' :: (chars first ++ charsAfter rest ++ [')'])
  | letter c x => c.char :: ((if x.isLetter then [] else [':']) ++ chars x)

/-- Further arguments in writing, each behind a comma. -/
def charsAfter : List Phrase → List Char
  | [] => []
  | x :: rest => ',' :: (chars x ++ charsAfter rest)

end

/-- What may follow a phrase: nothing, a further argument, or the end of a call. -/
def Ends (rest : List Char) : Prop :=
  ∀ c ∈ rest.head?, c = ',' ∨ c = ')'

theorem ends_charsAfter (xs : List Phrase) (rest : List Char) : Ends (charsAfter xs ++ ')' :: rest) := by
  cases xs with
  | nil => exact fun c first => .inr (Option.some.inj first).symm
  | cons x xs => exact fun c first => .inl (Option.some.inj first).symm

/-! ## The first mark -/

theorem find?_plain {text : List Char} (plain : ∀ c ∈ text, isMark c = false) (rest : List Char) :
    (text ++ rest).find? isMark = rest.find? isMark := by
  have none : text.find? isMark = none :=
    List.find?_eq_none.mpr fun c member => by rw [plain c member]; exact Bool.false_ne_true
  rw [List.find?_append, none, Option.none_or]

/-- What stands before the first mark is the same in equal texts. -/
theorem plain_append_inj {text text' rest rest' : List Char} (plain : ∀ c ∈ text, isMark c = false)
    (plain' : ∀ c ∈ text', isMark c = false) (marked : ∀ c ∈ rest.head?, isMark c = true)
    (marked' : ∀ c ∈ rest'.head?, isMark c = true) (same : text ++ rest = text' ++ rest') :
    text = text' ∧ rest = rest' := by
  have cut {text rest : List Char} (plain : ∀ c ∈ text, isMark c = false)
      (marked : ∀ c ∈ rest.head?, isMark c = true) : (text ++ rest).takeWhile (!isMark ·) = text := by
    rw [List.takeWhile_append_of_pos fun c member => by rw [plain c member]; rfl]
    cases rest with
    | nil => exact List.append_nil text
    | cons c rest =>
      rw [List.takeWhile_cons_of_neg (by rw [marked c rfl]; decide), List.append_nil]
  have first : text = text' := by rw [← cut plain marked, same, cut plain' marked']
  exact ⟨first, List.append_cancel_left (first ▸ same)⟩

theorem Ends.marked {rest : List Char} (ends : Ends rest) : ∀ c ∈ rest.head?, isMark c = true := by
  intro c first
  obtain rfl | rfl := ends c first <;> rfl

/-- The first mark behind a word is one that may follow it. -/
theorem find?_word {rest : List Char} (ends : Ends rest) (w : PlainWord) :
    ∀ c ∈ ((word w).chars ++ rest).find? isMark, c = ',' ∨ c = ')' := by
  intro c found
  rw [chars, find?_plain w.plain] at found
  cases rest with
  | nil => cases found
  | cons c' rest =>
    rw [List.find?_cons_of_pos (ends.marked c' rfl)] at found
    exact ends c found

theorem find?_call (name : CallName) (first : Phrase) (rest : List Phrase) (after : List Char) :
    ((call name first rest).chars ++ after).find? isMark = some '(' := by
  rw [chars, List.append_assoc, find?_plain name.plain_text]
  rfl

theorem find?_letter (c : Letter) (x : Phrase) (after : List Char) :
    ((letter c x).chars ++ after).find? isMark = some ':' := by
  induction x using induct generalizing c with
  | word | call =>
    rw [chars, List.cons_append, List.find?_cons_of_neg (by rw [c.plain_char]; decide)]
    rfl
  | letter c' x ih =>
    rw [chars, List.cons_append, List.find?_cons_of_neg (by rw [c.plain_char]; decide)]
    exact ih c'

/-! ## Unique reading -/

theorem charsAfter_append_inj {xs ys : List Phrase} {rest rest' : List Char}
    (unique : ∀ x ∈ xs, ∀ y rest rest', Ends rest → Ends rest' →
      chars x ++ rest = chars y ++ rest' → x = y ∧ rest = rest')
    (same : charsAfter xs ++ ')' :: rest = charsAfter ys ++ ')' :: rest') : xs = ys ∧ rest = rest' := by
  induction xs generalizing ys with
  | nil =>
    cases ys with
    | nil => exact ⟨rfl, (List.cons.inj same).2⟩
    | cons y ys => exact absurd (List.cons.inj same).1 (by decide)
  | cons x xs ih =>
    cases ys with
    | nil => exact absurd (List.cons.inj same).1 (by decide)
    | cons y ys =>
      obtain ⟨head, others⟩ := List.forall_mem_cons.mp unique
      have tails : chars x ++ (charsAfter xs ++ ')' :: rest) = chars y ++ (charsAfter ys ++ ')' :: rest') := by
        simpa [charsAfter] using same
      obtain ⟨rfl, later⟩ := head y _ _ (ends_charsAfter xs rest) (ends_charsAfter ys rest') tails
      obtain ⟨rfl, equal⟩ := ih others later
      exact ⟨rfl, equal⟩

/-- Phrases that start equal texts are equal, and so is what follows them. -/
theorem chars_append_inj {p q : Phrase} {rest rest' : List Char} (ends : Ends rest) (ends' : Ends rest')
    (same : p.chars ++ rest = q.chars ++ rest') : p = q ∧ rest = rest' := by
  have marks := congrArg (List.find? isMark) same
  induction p using induct generalizing q rest rest' with
  | word w =>
    have mark := find?_word ends w
    cases q with
    | word w' =>
      obtain ⟨texts, equal⟩ := plain_append_inj w.plain w'.plain ends.marked ends'.marked same
      exact ⟨congrArg word (PlainWord.ext (String.toList_inj.mp texts)), equal⟩
    | call name first xs =>
      rw [marks, find?_call] at mark
      exact absurd (mark '(' rfl) (by decide)
    | letter c x =>
      rw [marks, find?_letter] at mark
      exact absurd (mark ':' rfl) (by decide)
  | call name first xs ih ihs =>
    rw [find?_call] at marks
    cases q with
    | word w =>
      have mark := find?_word ends' w
      rw [← marks] at mark
      exact absurd (mark '(' rfl) (by decide)
    | call name' first' xs' =>
      simp only [chars, List.append_assoc, List.cons_append] at same
      have opens (text : List Char) : ∀ c ∈ ('(' :: text).head?, isMark c = true :=
        fun c head => Option.some.inj head ▸ rfl
      obtain ⟨names, arguments⟩ :=
        plain_append_inj name.plain_text name'.plain_text (opens _) (opens _) same
      obtain rfl := CallName.text_injective (String.toList_inj.mp names)
      have firsts := (List.cons.inj arguments).2
      obtain ⟨rfl, later⟩ := ih (ends_charsAfter xs rest) (ends_charsAfter xs' rest') firsts
        (congrArg _ firsts)
      obtain ⟨rfl, equal⟩ := charsAfter_append_inj
        (fun x member y _ _ ends ends' same => ihs x member ends ends' same (congrArg _ same)) later
      exact ⟨rfl, equal⟩
    | letter c x =>
      rw [find?_letter] at marks
      exact absurd marks (by decide)
  | letter c x ih =>
    rw [find?_letter] at marks
    cases q with
    | word w =>
      have mark := find?_word ends' w
      rw [← marks] at mark
      exact absurd (mark ':' rfl) (by decide)
    | call name first xs =>
      rw [find?_call] at marks
      exact absurd marks (by decide)
    | letter c' x' =>
      obtain ⟨letters, below⟩ := List.cons.inj same
      obtain rfl := Letter.char_injective letters
      refine (?_ : x = x' ∧ rest = rest').imp (congrArg (letter c)) id
      have colon {x : Phrase} {text text' : List Char} (starts : x.isLetter = true) :
          x.chars ++ text ≠ ':' :: text' := by
        intro same
        obtain ⟨c, x, rfl⟩ := exists_eq_letter starts
        exact absurd c.plain_char (by rw [(List.cons.inj same).1]; decide)
      cases starts : x.isLetter <;> cases starts' : x'.isLetter <;>
        simp only [starts, starts', if_true, if_false, Bool.false_eq_true, List.nil_append,
          List.cons_append] at below
      · exact ih ends ends' (List.cons.inj below).2 (congrArg _ (List.cons.inj below).2)
      · exact absurd below.symm (colon starts')
      · exact absurd below (colon starts)
      · exact ih ends ends' below (congrArg _ below)

end Phrase

end LockScript
