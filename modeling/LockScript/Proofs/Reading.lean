import LockScript.Proofs.Phrase

/-! # Conditions are read off their text

Every condition is written as a phrase, and a reader takes the phrase apart again: the root decides
between a call, a letter and a word, its name decides the fragment, and a short name the fragments that
it stands for. What is read is the condition without its notes.
-/

namespace LockScript

section Words

variable {κ δ : Type} [KeyLike κ] [DigestLike δ]

/-- A number in decimal digits. -/
def numberWord (number : Nat) : PlainWord where
  text := toString number
  plain c member := by
    have digits : (toString number).toList = Nat.toDigits 10 number := Nat.toList_repr
    rw [digits] at member
    have digit := Nat.isDigit_of_mem_toDigits (by decide) (by decide) member
    simp only [Char.isDigit, Bool.and_eq_true, decide_eq_true_eq] at digit
    simp only [isMark, Bool.or_eq_false_iff, beq_eq_false_iff_ne, ne_eq]
    refine ⟨⟨⟨?_, ?_⟩, ?_⟩, ?_⟩ <;> (rintro rfl; revert digit; decide)

/-- A key as it is written. -/
def keyWord [PlainKey κ] (key : κ) : PlainWord := ⟨KeyLike.text key, PlainKey.plain key⟩

/-- A digest as it is written. -/
def digestWord [PlainDigest δ] (digest : δ) : PlainWord := ⟨DigestLike.text digest, PlainDigest.plain digest⟩

/-- The number that a word stands for. -/
def PlainWord.number (word : PlainWord) : Nat := Nat.ofDigitChars 10 word.text.toList 0

@[simp] theorem number_numberWord (number : Nat) : (numberWord number).number = number := by
  have digits : (numberWord number).text.toList = Nat.toDigits 10 number := Nat.toList_repr
  rw [PlainWord.number, digits, Nat.ofDigitChars_ten_toDigits]

/-- The key that a word stands for. -/
noncomputable def PlainWord.key? (κ : Type) [KeyLike κ] (word : PlainWord) : Option κ :=
  Function.partialInv KeyLike.text word.text

@[simp] theorem key?_keyWord [PlainKey κ] (key : κ) : (keyWord key).key? κ = some key :=
  Function.partialInv_left PlainKey.text_injective key

/-- The digest that a word stands for under a hash function. -/
noncomputable def PlainWord.digest? (δ : Type) [DigestLike δ] (kind : HashKind) (word : PlainWord) :
    Option δ :=
  Function.partialInv (fun digest : δ => (DigestLike.kind digest, DigestLike.text digest)) (kind, word.text)

@[simp] theorem digest?_digestWord [PlainDigest δ] (digest : δ) :
    (digestWord digest).digest? δ (DigestLike.kind digest) = some digest :=
  Function.partialInv_left PlainDigest.text_injective digest

end Words

variable {κ δ α : Type} [KeyLike κ] [DigestLike δ]

/-! ## Writing -/

section Writing

variable [PlainKey κ] [PlainDigest δ]

/-- The phrase that a leaf is written as. -/
def Leaf.phrase : Leaf κ δ → Phrase
  | one => .word ⟨"1", by simp [isMark]⟩
  | zero => .word ⟨"0", by simp [isMark]⟩
  | key k => .call .pkK (.word (keyWord k)) []
  | keyHash k => .call .pkH (.word (keyWord k)) []
  | after lock => .call .after (.word (numberWord lock.value)) []
  | older lock => .call .older (.word (numberWord lock.value)) []
  | digest d => .call (.hash (DigestLike.kind d)) (.word (digestWord d)) []
  | multi ks => .call .multi (.word (numberWord ks.k)) (ks.items.map fun k => .word (keyWord k))
  | multiA ks => .call .multiA (.word (numberWord ks.k)) (ks.items.map fun k => .word (keyWord k))

namespace Condition

mutual

/-- The phrase that a condition is written as. -/
def phrase : Condition κ δ α → Phrase
  | leaf _ l => l.phrase
  | wrap _ .check (leaf _ (.key k)) => .call .pk (.word (keyWord k)) []
  | wrap _ .check (leaf _ (.keyHash k)) => .call .pkh (.word (keyWord k)) []
  | wrap _ w x => .letter (.wrap w) (phrase x)
  | pair _ .andV x y =>
    if y.isOne then .letter .t (phrase x) else .call (.join .andV) (phrase x) [phrase y]
  | pair _ .orI x y =>
    if x.isZero then .letter (if y.isZero then .u else .l) (phrase y)
    else if y.isZero then .letter .u (phrase x)
    else .call (.join .orI) (phrase x) [phrase y]
  | pair _ op x y => .call (.join op) (phrase x) [phrase y]
  | andOr _ x y z =>
    if z.isZero then .call .andN (phrase x) [phrase y] else .call .andOr (phrase x) [phrase y, phrase z]
  | thresh _ k items => .call .thresh (.word (numberWord k)) (phrases items)

/-- The phrases that listed conditions are written as. -/
def phrases : List (Condition κ δ α) → List Phrase
  | [] => []
  | x :: rest => phrase x :: phrases rest

end

theorem phrases_eq_map (items : List (Condition κ δ α)) : phrases items = items.map phrase := by
  induction items with
  | nil => rfl
  | cons x rest ih => rw [phrases, ih, List.map_cons]

end Condition

end Writing

/-! ## Reading -/

namespace Phrase

/-- The word that a phrase is, if it is one. -/
def asWord? : Phrase → Option PlainWord
  | word w => some w
  | call _ _ _ | letter _ _ => none

/-- The leaf behind the name of a call. -/
noncomputable def readLeaf? (κ δ : Type) [KeyLike κ] [DigestLike δ] (name : CallName) (first : PlainWord)
    (rest : List PlainWord) : Option (Leaf κ δ) :=
  match name with
  | .pkK => (first.key? κ).map .key
  | .pkH => (first.key? κ).map .keyHash
  | .after => (Leaf.after? first.number).toOption
  | .older => (Leaf.older? first.number).toOption
  | .hash kind => (first.digest? δ kind).map .digest
  | .multi => (rest.mapM (PlainWord.key? κ)).bind fun keys => (Leaf.multi? first.number keys).toOption
  | .multiA => (rest.mapM (PlainWord.key? κ)).bind fun keys => (Leaf.multiA? first.number keys).toOption
  | .pk | .pkh | .join _ | .andN | .andOr | .thresh => none

mutual

/-- The condition that is written as a phrase. -/
noncomputable def read? : Phrase → Option (Condition κ δ Unit)
  | word w =>
    if w.text = "1" then some (.leaf () .one) else if w.text = "0" then some (.leaf () .zero) else none
  | letter (.wrap w) x => (read? x).map (.wrap () w)
  | letter .t x => (read? x).map (.pair () .andV · (.leaf () .one))
  | letter .l x => (read? x).map (.pair () .orI (.leaf () .zero))
  | letter .u x => (read? x).map (.pair () .orI · (.leaf () .zero))
  | call .pk first _ => do
    let key ← (← first.asWord?).key? κ
    return .wrap () .check (.leaf () (.key key))
  | call .pkh first _ => do
    let key ← (← first.asWord?).key? κ
    return .wrap () .check (.leaf () (.keyHash key))
  | call (.join op) first rest => do
    let [y] ← readAll? rest | none
    return .pair () op (← read? first) y
  | call .andN first rest => do
    let [y] ← readAll? rest | none
    return .andOr () (← read? first) y (.leaf () .zero)
  | call .andOr first rest => do
    let [y, z] ← readAll? rest | none
    return .andOr () (← read? first) y z
  | call .thresh first rest => do
    return .thresh () (← first.asWord?).number (← readAll? rest)
  | call name first rest => do
    return .leaf () (← readLeaf? κ δ name (← first.asWord?) (← rest.mapM asWord?))

/-- The conditions that are written as listed phrases. -/
noncomputable def readAll? : List Phrase → Option (List (Condition κ δ Unit))
  | [] => some []
  | x :: rest => do return (← read? x) :: (← readAll? rest)

end

theorem readAll?_eq_mapM (items : List Phrase) :
    readAll? items = items.mapM (read? (κ := κ) (δ := δ)) := by
  induction items with
  | nil => rfl
  | cons x rest ih => rw [readAll?, ih, List.mapM_cons]

end Phrase

/-- A pass undoes another one item by item. -/
theorem mapM_map_eq_some {β γ ρ : Type} {f : β → Option γ} {g : ρ → β} {h : ρ → γ} {items : List ρ}
    (undo : ∀ x ∈ items, f (g x) = some (h x)) : (items.map g).mapM f = some (items.map h) := by
  induction items with
  | nil => rfl
  | cons x rest ih =>
    obtain ⟨first, others⟩ := List.forall_mem_cons.mp undo
    rw [List.map_cons, List.mapM_cons, first, ih others]
    rfl

theorem AbsoluteLock.ofConsensus_value (lock : AbsoluteLock) : ofConsensus lock.value = .ok lock :=
  dif_pos ⟨lock.pos, lock.bounded⟩

theorem RelativeLock.ofConsensus_value (lock : RelativeLock) : ofConsensus lock.value = .ok lock :=
  dif_pos ⟨lock.pos, lock.bounded⟩

theorem Threshold.ofList_items {β : Type} {cap : Option Nat} (ks : Threshold β cap) :
    ofList ks.k ks.items = .ok ks :=
  dif_pos ⟨ks.k_pos, ks.k_le, ks.capped⟩

namespace Phrase

variable [PlainKey κ] [PlainDigest δ]

omit [PlainDigest δ] [DigestLike δ] in
theorem mapM_asWord?_keys (keys : List κ) :
    (keys.map fun key => word (keyWord key)).mapM asWord? = some (keys.map keyWord) :=
  mapM_map_eq_some fun _ _ => rfl

omit [PlainDigest δ] [DigestLike δ] in
theorem mapM_key?_keyWord (keys : List κ) : (keys.map keyWord).mapM (PlainWord.key? κ) = some keys :=
  (mapM_map_eq_some fun key _ => key?_keyWord key).trans (congrArg some (List.map_id _))

theorem read?_phrase_leaf (l : Leaf κ δ) : read? l.phrase = some (Condition.leaf () l) := by
  cases l with
  | one | zero => simp [Leaf.phrase, read?]
  | key k | keyHash k | digest d => simp [Leaf.phrase, read?, readLeaf?, asWord?]
  | after lock | older lock =>
    simp [Leaf.phrase, read?, readLeaf?, asWord?, Leaf.after?, Leaf.older?, lock.ofConsensus_value, Except.map,
      Except.toOption]
  | multi ks | multiA ks =>
    simp [-List.mapM_map, Leaf.phrase, read?, readLeaf?, asWord?, mapM_asWord?_keys, mapM_key?_keyWord,
      Leaf.multi?, Leaf.multiA?, ks.ofList_items, Except.map, Except.toOption]

omit [KeyLike κ] [DigestLike δ] [PlainKey κ] [PlainDigest δ] in
theorem eq_leaf_one {t : Condition κ δ α} (one : t.isOne = true) : t.bare = .leaf () .one := by
  cases t with
  | leaf _ l => cases l <;> first | rfl | cases one
  | wrap | pair | andOr | thresh => cases one

omit [KeyLike κ] [DigestLike δ] [PlainKey κ] [PlainDigest δ] in
theorem eq_leaf_zero {t : Condition κ δ α} (zero : t.isZero = true) : t.bare = .leaf () .zero := by
  cases t with
  | leaf _ l => cases l <;> first | rfl | cases zero
  | wrap | pair | andOr | thresh => cases zero

/-- A condition is read off the phrase that it is written as. -/
theorem read?_phrase (t : Condition κ δ α) : read? t.phrase = some t.bare := by
  induction t using Condition.induct with
  | leaf _ l => exact read?_phrase_leaf l
  | wrap _ w x ih =>
    have outside (t : Condition κ δ α) (below : read? t.phrase = some t.bare) :
        read? (.letter (.wrap w) t.phrase) = some (.wrap () w t.bare) := by
      rw [read?, below, Option.map_some]
    cases x with
    | leaf _ l =>
      cases w with
      | check =>
        cases l with
        | key k | keyHash k => simp [Condition.phrase, Condition.bare, read?, asWord?]
        | _ => exact outside _ ih
      | _ => exact outside _ ih
    | _ => cases w <;> exact outside _ ih
  | pair _ op x y ihX ihY =>
    have joined : read? (.call (.join op) x.phrase [y.phrase]) = some (.pair () op x.bare y.bare) := by
      simp [read?, readAll?, ihX, ihY]
    cases op with
    | andV =>
      rw [Condition.phrase, Condition.bare]
      split
      · next one => rw [read?, ihX, eq_leaf_one one, Option.map_some]
      · exact joined
    | orI =>
      simp only [Condition.phrase, Condition.bare]
      cases zero : x.isZero <;> cases zero' : y.isZero <;>
        simp only [if_true, if_false, Bool.false_eq_true]
      · exact joined
      · rw [read?, ihX, eq_leaf_zero zero', Option.map_some]
      · rw [read?, ihY, eq_leaf_zero zero, Option.map_some]
      · rw [read?, ihY, eq_leaf_zero zero, eq_leaf_zero zero', Option.map_some]
    | _ => exact joined
  | andOr _ x y z ihX ihY ihZ =>
    rw [Condition.phrase, Condition.bare]
    split
    · next zero => simp [read?, readAll?, ihX, ihY, eq_leaf_zero zero]
    · simp [read?, readAll?, ihX, ihY, ihZ]
  | thresh _ k items ih =>
    have below : readAll? (items.map Condition.phrase) = some (items.map Condition.bare) := by
      rw [readAll?_eq_mapM, mapM_map_eq_some ih]
    simp [Condition.phrase, Condition.phrases_eq_map, Condition.bare, read?, asWord?, below]

end Phrase

/-! ## The text of a phrase -/

/-- A call in writing. -/
theorem Phrase.toList_callText (name : CallName) {text : String} {texts : List String} {p : Phrase}
    {ps : List Phrase} (first : text.toList = p.chars) (rest : texts.map String.toList = ps.map chars) :
    (callText name.text (text :: texts)).toList = (call name p ps).chars := by
  have later {text : String} {texts : List String} {p : Phrase} {ps : List Phrase}
      (first : text.toList = p.chars) (rest : texts.map String.toList = ps.map chars) :
      (",".intercalate (text :: texts)).toList = p.chars ++ charsAfter ps := by
    induction texts generalizing text p ps with
    | nil =>
      obtain rfl := List.map_eq_nil_iff.mp rest.symm
      simp [first, charsAfter]
    | cons text' texts ih =>
      cases ps with
      | nil => cases rest
      | cons p' ps =>
        obtain ⟨first', rest⟩ := List.cons.inj rest
        rw [String.intercalate_cons_cons, String.toList_append, String.toList_append, ih first' rest, first,
          charsAfter, List.append_assoc]
        rfl
  simp [callText, chars, later first rest]

variable [PlainKey κ] [PlainDigest δ]

theorem Leaf.toList_text (l : Leaf κ δ) : l.text.toList = l.phrase.chars := by
  have keys (keys : List κ) : (keys.map KeyLike.text).map String.toList =
      (keys.map fun key => Phrase.word (keyWord key)).map Phrase.chars := by
    simp [keyWord, Phrase.chars]
  cases l with
  | one | zero => rfl
  | key k => exact Phrase.toList_callText .pkK rfl rfl
  | keyHash k => exact Phrase.toList_callText .pkH rfl rfl
  | after lock => exact Phrase.toList_callText .after rfl rfl
  | older lock => exact Phrase.toList_callText .older rfl rfl
  | digest d => exact Phrase.toList_callText (.hash _) rfl rfl
  | multi ks => exact Phrase.toList_callText .multi rfl (keys ks.items)
  | multiA ks => exact Phrase.toList_callText .multiA rfl (keys ks.items)

namespace Condition

/-- The conditions that are written as a letter in front of another one are those whose name is a
single letter. -/
theorem isLetter_phrase (t : Condition κ δ α) : t.phrase.isLetter = t.isWrapper := by
  cases t with
  | leaf _ l => cases l <;> rfl
  | wrap _ w x =>
    cases x with
    | leaf _ l =>
      cases w with
      | check => cases l <;> (simp only [isWrapper, name, Wrapper.name]; rfl)
      | _ => simp only [isWrapper, name, Wrapper.name]; rfl
    | _ => cases w <;> (simp only [isWrapper, name, Wrapper.name]; rfl)
  | pair _ op x y =>
    cases op with
    | andV => rw [isWrapper, phrase, name]; split <;> rfl
    | orI => rw [isWrapper, phrase, name]; cases x.isZero <;> cases y.isZero <;> rfl
    | _ => simp only [isWrapper, name, Connective.name]; rfl
  | andOr _ x y z => rw [isWrapper, phrase, name]; split <;> rfl
  | thresh _ k items => simp only [isWrapper, name]; rfl

/-- A letter in writing. -/
theorem toList_letter (c : Letter) {name : String} {x : Condition κ δ α} (char : name.toList = [c.char])
    (below : (x.body fun _ => "").toList = x.phrase.chars) :
    (name ++ x.joint ++ "" ++ x.body fun _ => "").toList = (Phrase.letter c x.phrase).chars := by
  have joint : x.joint.toList = if x.phrase.isLetter then [] else [':'] := by
    rw [isLetter_phrase, Condition.joint]
    split <;> rfl
  simp only [String.toList_append, char, joint, below, Phrase.chars]
  simp

/-- The text of a condition is the phrase that it is written as. -/
theorem toList_text (t : Condition κ δ α) : t.text.toList = t.phrase.chars := by
  rw [text]
  induction t using induct with
  | leaf _ l => exact l.toList_text
  | wrap _ w x ih =>
    have outside (t : Condition κ δ α) (below : (t.body fun _ => "").toList = t.phrase.chars) :
        (w.name ++ t.joint ++ "" ++ t.body fun _ => "").toList = (Phrase.letter (.wrap w) t.phrase).chars :=
      toList_letter (.wrap w) (by cases w <;> rfl) below
    cases x with
    | leaf _ l =>
      cases w with
      | check =>
        cases l with
        | key k => exact Phrase.toList_callText .pk rfl rfl
        | keyHash k => exact Phrase.toList_callText .pkh rfl rfl
        | _ => exact outside _ ih
      | _ => exact outside _ ih
    | _ => cases w <;> exact outside _ ih
  | pair _ op x y ihX ihY =>
    have joined : (callText op.name ["" ++ x.body fun _ => "", "" ++ y.body fun _ => ""]).toList =
        (Phrase.call (.join op) x.phrase [y.phrase]).chars :=
      Phrase.toList_callText (.join op) (by simpa using ihX) (by simpa using ihY)
    cases op with
    | andV =>
      rw [body, phrase, name]
      split
      · exact toList_letter .t rfl ihX
      · exact joined
    | orI =>
      simp only [body, phrase, name]
      cases zero : x.isZero <;> cases zero' : y.isZero <;>
        simp only [if_true, if_false, Bool.false_eq_true]
      · exact joined
      · exact toList_letter .u rfl ihX
      · exact toList_letter .l rfl ihY
      · exact toList_letter .u rfl ihY
    | _ => exact joined
  | andOr _ x y z ihX ihY ihZ =>
    rw [body, phrase]
    split
    · exact Phrase.toList_callText .andN (by simpa using ihX) (by simpa using ihY)
    · exact Phrase.toList_callText .andOr (by simpa using ihX) (by simpa using ⟨ihY, ihZ⟩)
  | thresh _ k items ih =>
    rw [body, phrase, bodies_eq_map, phrases_eq_map]
    refine Phrase.toList_callText .thresh rfl ?_
    simpa using ih

/-- Conditions that are written alike are made of the same fragments. -/
theorem bare_eq_of_text {β : Type} {t : Condition κ δ α} {u : Condition κ δ β} (same : t.text = u.text) :
    t.bare = u.bare := by
  have chars : t.phrase.chars ++ [] = u.phrase.chars ++ [] := by
    rw [← toList_text, ← toList_text, same]
  have ends : Phrase.Ends [] := fun c first => by cases first
  obtain ⟨phrases, -⟩ := Phrase.chars_append_inj ends ends chars
  have read : some t.bare = some u.bare := by
    rw [← Phrase.read?_phrase t, ← Phrase.read?_phrase u, phrases]
  exact Option.some.inj read

end Condition

end LockScript
