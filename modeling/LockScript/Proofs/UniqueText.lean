import LockScript.Proofs.Attributes
import LockScript.Proofs.Display
import LockScript.Proofs.Reading
import LockScript.Proofs.RepeatedKeys

/-! # A text has one condition

Conditions with equal texts are equal, if their keys and digests can be told from their own texts and
those have no marks in them. Hexadecimal texts are of this kind. Everything else about a draft or a typed
condition follows from its fragments, so these too are known from their texts; and a check leaves the text
as it is.
-/

namespace LockScript

/-! ## Hexadecimal texts -/

namespace Bytes

/-- The digits of a byte. -/
def digits (byte : UInt8) : List Char :=
  [Nat.digitChar (byte.toNat / 16), Nat.digitChar (byte.toNat % 16)]

theorem toList_hex (bytes : Bytes) : (hex bytes).toList = bytes.flatMap digits := by
  have later (bytes : Bytes) (text : String) :
      (bytes.foldl (fun text byte =>
        (text.push (Nat.digitChar (byte.toNat / 16))).push (Nat.digitChar (byte.toNat % 16))) text).toList =
        text.toList ++ bytes.flatMap digits := by
    induction bytes generalizing text with
    | nil => simp
    | cons byte rest ih => simp [ih, digits]
  exact later bytes ""

theorem digitValue?_digitChar {digit : Nat} (small : digit < 16) :
    digitValue? (Nat.digitChar digit) = some digit := by
  revert digit
  decide

theorem plain_digitChar {digit : Nat} (small : digit < 16) : isMark (Nat.digitChar digit) = false := by
  revert digit
  decide

theorem ofDigits?_digits (reversed bytes : Bytes) :
    ofDigits? reversed (bytes.flatMap digits) = some (reversed.reverse ++ bytes) := by
  induction bytes generalizing reversed with
  | nil => simp [ofDigits?]
  | cons byte rest ih =>
    have high : byte.toNat / 16 < 16 := by have := byte.toNat_lt; omega
    have value : UInt8.ofNat (16 * (byte.toNat / 16) + byte.toNat % 16) = byte := by
      rw [Nat.div_add_mod, UInt8.ofNat_toNat]
    simp [digits, ofDigits?, digitValue?_digitChar high, digitValue?_digitChar (Nat.mod_lt _ _), value, ih]

/-- Bytes are read off their hexadecimal text. -/
theorem ofHex?_hex (bytes : Bytes) : ofHex? (hex bytes) = some bytes := by
  rw [ofHex?, toList_hex, ofDigits?_digits]
  rfl

theorem hex_injective : Function.Injective hex := by
  intro bytes bytes' same
  have read := ofHex?_hex bytes
  rw [same, ofHex?_hex] at read
  exact (Option.some.inj read).symm

theorem plain_hex (bytes : Bytes) : ∀ c ∈ (hex bytes).toList, isMark c = false := by
  intro c member
  rw [toList_hex, List.mem_flatMap] at member
  obtain ⟨byte, -, digit⟩ := member
  have high : byte.toNat / 16 < 16 := by have := byte.toNat_lt; omega
  obtain rfl | rfl : c = _ ∨ c = _ := by simpa [digits] using digit
  · exact plain_digitChar high
  · exact plain_digitChar (Nat.mod_lt _ (by decide))

end Bytes

instance : PlainKey FullKey where
  text_injective _ _ same := FullKey.bytes_inj (Bytes.hex_injective same)
  plain key := Bytes.plain_hex key.bytes

instance : PlainKey PointKey where
  text_injective key key' same := by
    have equal : compare key.bytes key'.bytes = .eq := Std.compare_eq_iff_eq.mpr (Bytes.hex_injective same)
    exact Std.LawfulEqOrd.eq_of_compare (α := PointKey) equal
  plain key := Bytes.plain_hex key.bytes

instance : PlainKey XOnlyKey where
  text_injective _ _ same := congrArg XOnlyKey.mk (Vector.toList_inj.mp (Bytes.hex_injective same))
  plain key := Bytes.plain_hex key.bytes

instance : PlainDigest Digest where
  text_injective digest digest' same := by
    obtain ⟨kind, bytes, width⟩ := digest
    obtain ⟨kind', bytes', width'⟩ := digest'
    obtain ⟨kinds, texts⟩ := Prod.mk.inj same
    obtain rfl : kind = kind' := kinds
    obtain rfl : bytes = bytes' := by
      cases kind with
      | hash256 => exact List.reverse_injective (Bytes.hex_injective texts)
      | _ => exact Bytes.hex_injective texts
    rfl
  plain digest := by
    obtain ⟨kind, bytes, width⟩ := digest
    cases kind <;> exact Bytes.plain_hex _

/-! ## Drafts and typed conditions -/

/-- Fragments over different children differ after a map that tells these children apart. -/
theorem Fragment.eq_of_map_eq {κ δ σ τ : Type} {f : σ → τ} {a b : Fragment κ δ σ}
    (same : a.map f = b.map f) (apart : ∀ x ∈ a.children, ∀ y ∈ b.children, f x = f y → x = y) : a = b := by
  have lists {items items' : List σ} (same : items.map f = items'.map f)
      (apart : ∀ x ∈ items, ∀ y ∈ items', f x = f y → x = y) : items = items' := by
    induction items generalizing items' with
    | nil => exact (List.map_eq_nil_iff.mp same.symm).symm
    | cons x rest ih =>
      cases items' with
      | nil => cases same
      | cons y rest' =>
        obtain ⟨heads, tails⟩ := List.cons.inj same
        rw [apart x List.mem_cons_self y List.mem_cons_self heads,
          ih tails fun x member y member' => apart x (.tail _ member) y (.tail _ member')]
  cases a with
  | leaf l =>
    cases b with
    | leaf l' => exact congrArg leaf (Fragment.leaf.inj same)
    | _ => cases same
  | wrap w x =>
    cases b with
    | wrap w' x' =>
      obtain ⟨rfl, below⟩ := Fragment.wrap.inj same
      rw [apart x (by simp [children]) x' (by simp [children]) below]
    | _ => cases same
  | pair op x y =>
    cases b with
    | pair op' x' y' =>
      obtain ⟨rfl, left, right⟩ := Fragment.pair.inj same
      rw [apart x (by simp [children]) x' (by simp [children]) left,
        apart y (by simp [children]) y' (by simp [children]) right]
    | _ => cases same
  | andOr x y z =>
    cases b with
    | andOr x' y' z' =>
      obtain ⟨first, second, third⟩ := Fragment.andOr.inj same
      rw [apart x (by simp [children]) x' (by simp [children]) first,
        apart y (by simp [children]) y' (by simp [children]) second,
        apart z (by simp [children]) z' (by simp [children]) third]
    | _ => cases same
  | thresh k items =>
    cases b with
    | thresh k' items' =>
      obtain ⟨rfl, below⟩ := Fragment.thresh.inj same
      rw [lists below apart]
    | _ => cases same

theorem Draft.Built.eq_of_bare {κ δ : Type} [KeyLike κ] {context context' : Context} {a b : Draft κ δ}
    (built : Built context a) (built' : Built context' b) (same : a.bare = b.bare) : a = b := by
  induction a using Condition.induct_children generalizing b with
  | node a ih =>
    rw [Condition.bare_eq, Condition.bare_eq b] at same
    have maps := congrArg Condition.fragment same
    rw [Condition.fragment_node, Condition.fragment_node] at maps
    have fragments : a.fragment = b.fragment := Fragment.eq_of_map_eq maps fun x member y member' =>
      ih x member (built.node.2.1 x member) (built'.node.2.1 y member')
    have notes : a.note = b.note := by
      calc a.note = a.depth := built.height_eq_depth
        _ = b.depth := by rw [Condition.depth_eq_levels, fragments, ← Condition.depth_eq_levels]
        _ = b.note := built'.height_eq_depth.symm
    rw [← Condition.node_note_fragment a, notes, fragments, Condition.node_note_fragment]

namespace Condition

variable {κ δ : Type} [KeyLike κ] [DigestLike δ]

/-- Conditions are written without ambiguity. If keys and digests have plain texts of their own, as those in
hexadecimal digits have, then two conditions with equal texts are made of the same fragments; two drafts,
or two typed conditions of one context, are equal altogether. A check does not change the text, and a
walk that writes every node as it comes by writes just this text. -/
theorem text_unambiguous :
    (∀ {α β : Type} [PlainKey κ] [PlainDigest δ] {t : Condition κ δ α} {u : Condition κ δ β},
      t.text = u.text → t.bare = u.bare) ∧
    (∀ [PlainKey κ] [PlainDigest δ] {context context' : Context} {a b : Draft κ δ},
      a.Constructed context → b.Constructed context' → a.text = b.text → a = b) ∧
    (∀ [PlainKey κ] [PlainDigest δ] {context : Context} {t u : Typed κ δ},
      Typed.Reachable context t → Typed.Reachable context u → t.text = u.text → t = u) ∧
    (∀ {context : Context} {draft : Draft κ δ} {t : Typed κ δ}, draft.check context = .ok t →
      t.text = draft.text) ∧
    (∀ {α : Type} (t : Condition κ δ α), t.display (fun _ => "") = t.text) ∧
    PlainKey FullKey ∧ PlainKey PointKey ∧ PlainKey XOnlyKey ∧ PlainDigest Digest := by
  refine ⟨bare_eq_of_text, fun made made' same => ?_, fun made made' same => ?_, fun checked => ?_,
    fun t => ?_, inferInstance, inferInstance, inferInstance, inferInstance⟩
  · exact made.built.eq_of_bare made'.built (bare_eq_of_text same)
  · exact made.validated.eq_of_bare made'.validated (bare_eq_of_text same)
  · rw [← text_bare, (Draft.inferred_of_check checked).1, text_bare]
  · rw [display_eq, taggedText, String.empty_append, text]

/-- The draft `tv:pk(A)`, short for `and_v(v:c:pk_k(A),1)`. -/
def trueOnceSigned (key : PointKey) : Draft PointKey Digest :=
  Condition.pair 3 .andV
    (Condition.wrap 2 .verify (Condition.wrap 1 .check (Condition.leaf 0 (.key key)))) (Condition.leaf 0 .one)

theorem text_trueOnceSigned (key : PointKey) :
    (trueOnceSigned key).text = "tv:pk(" ++ KeyLike.text key ++ ")" := by
  apply String.toList_inj.mp
  rw [toList_text]
  simp [trueOnceSigned, phrase, isOne, Phrase.chars, Phrase.charsAfter, Phrase.isLetter, Letter.char,
    CallName.text, keyWord]

/-- No other draft, and no other typed condition, is written like this one. -/
theorem text_unambiguous_trueOnceSigned :
    ∃ (key : PointKey) (t : Typed PointKey Digest),
      (trueOnceSigned key).Constructed .segwit ∧ (trueOnceSigned key).check .segwit = .ok t ∧
        t.text = "tv:pk(" ++ KeyLike.text key ++ ")" ∧
        (∀ draft : Draft PointKey Digest, draft.Constructed .segwit → draft.text = t.text →
          draft = trueOnceSigned key) ∧
        ∀ u, Typed.Reachable .segwit u → u.text = t.text → u = t := by
  let key : PointKey := ⟨false, Vector.replicate 32 1⟩
  have single : Draft.Constructed .segwit
      (Condition.wrap 1 .check (Condition.leaf 0 (.key key)) : Draft PointKey Digest) :=
    .pk (show Draft.pk .segwit key = .ok _ from rfl)
  have drafted : (trueOnceSigned key).Constructed .segwit :=
    .t (.wrap single (show Draft.wrap .verify _ = .ok _ from rfl)) rfl
  obtain ⟨t, checked⟩ : ∃ t, (trueOnceSigned key).elaborate .segwit = .ok t := ⟨_, rfl⟩
  rw [← Draft.check_eq_elaborate] at checked
  obtain ⟨-, drafts, typed, unchanged, -⟩ := text_unambiguous (κ := PointKey) (δ := Digest)
  refine ⟨key, t, drafted, checked, ?_, fun draft made same => ?_, fun u made same => ?_⟩
  · rw [unchanged checked, text_trueOnceSigned]
  · exact drafts made drafted (same.trans (unchanged checked))
  · exact typed made (.checked drafted checked) same

end Condition

end LockScript
