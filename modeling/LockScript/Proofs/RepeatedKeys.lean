import LockScript.Proofs.Comparison
import LockScript.Proofs.Construction
import LockScript.Proofs.KeyPushes

/-! # Repeated keys

A condition repeats a key if two of its keys compare as equal. A script knows nothing of that order: it
shows a key in the serialization that its context checks. Keys that differ are serialized differently
where both coordinates matter. A tapscript drops the parity of the second coordinate, and with it the
difference between a key and the key of the opposite point.
-/

namespace LockScript

/-- Keys of which the two conversions agree, and which compare as equal if they stand for one key. -/
class LawfulConversion (κ : Type) [PublicKey κ] : Prop extends LawfulPublicKey κ where
  toXOnly_eq : ∀ key : κ, PublicKey.toXOnly key = (PublicKey.toFull key).xOnly
  compare_eq_of_toFull : ∀ a b : κ, PublicKey.toFull a = PublicKey.toFull b → compare a b = .eq

instance : Std.TransOrd FullKey :=
  inferInstanceAs (Std.TransCmp
    (compareLex (compareOn fun key : FullKey => !key.isUncompressed) (compareOn FullKey.point)))

instance : Std.TransOrd PointKey :=
  inferInstanceAs (Std.TransCmp (compareOn PointKey.bytes))

instance : Std.TransOrd XOnlyKey :=
  inferInstanceAs (Std.TransCmp (compareOn XOnlyKey.bytes))

instance : LawfulConversion FullKey where
  toXOnly_eq _ := rfl
  compare_eq_of_toFull a b same := by
    obtain rfl : a = b := same
    exact Std.ReflOrd.compare_self

instance : LawfulConversion PointKey where
  toXOnly_eq _ := rfl
  compare_eq_of_toFull a b same := by
    obtain ⟨odd, x⟩ := a
    obtain ⟨odd', x'⟩ := b
    cases same
    exact Std.ReflOrd.compare_self

instance : LawfulConversion XOnlyKey where
  toXOnly_eq _ := rfl
  compare_eq_of_toFull a b same := by
    obtain ⟨x⟩ := a
    obtain ⟨x'⟩ := b
    cases same
    exact Std.ReflOrd.compare_self

/-- Where the sorted list has no two neighbours that compare as equal, the items are all told apart. -/
theorem pairwise_of_hasRepetition {α : Type} [Ord α] [Std.TransOrd α] {items : List α}
    (once : hasRepetition items = false) : items.Pairwise fun a b => compare a b ≠ .eq := by
  have ascending (sorted : List α) (weak : sorted.Pairwise fun a b => (compare a b).isLE = true)
      (apart : ((sorted.zip sorted.tail).any fun pair => compare pair.1 pair.2 == .eq) = false) :
      sorted.Pairwise fun a b => compare a b = .lt := by
    induction sorted with
    | nil => exact .nil
    | cons first rest ih =>
      obtain ⟨least, weak⟩ := List.pairwise_cons.mp weak
      cases rest with
      | nil => exact List.pairwise_singleton _ _
      | cons second others =>
        simp only [List.tail_cons, List.zip_cons_cons, List.any_cons, Bool.or_eq_false_iff] at apart
        obtain ⟨unequal, apart⟩ := apart
        have strict := ih weak apart
        have below : compare first second = .lt := by
          have atMost := least second List.mem_cons_self
          cases order : compare first second with
          | lt => rfl
          | eq => simp [order] at unequal
          | gt => simp [order] at atMost
        refine List.pairwise_cons.mpr ⟨List.forall_mem_cons.mpr ⟨below, fun third member => ?_⟩, strict⟩
        exact Std.TransCmp.lt_trans below ((List.pairwise_cons.mp strict).1 third member)
  have weak : (items.mergeSort fun a b => (compare a b).isLE).Pairwise fun a b => (compare a b).isLE = true :=
    List.pairwise_mergeSort (fun _ _ _ => Std.TransCmp.isLE_trans) isLE_total items
  have strict := ascending _ weak once
  have symmetric {a b : α} (unequal : compare a b ≠ .eq) : compare b a ≠ .eq :=
    fun same => unequal (Std.OrientedCmp.eq_symm same)
  refine ((List.mergeSort_perm items _).pairwise_iff symmetric).mp (strict.imp fun less => ?_)
  rw [less]
  decide

namespace PublicKey

variable {κ : Type} [PublicKey κ]

/-- Keys of opposite points: one x coordinate, and y coordinates of different parity. -/
def Opposite (a b : κ) : Prop :=
  ∃ odd x, toFull a = .compressed odd x ∧ toFull b = .compressed (!odd) x

end PublicKey

namespace FullKey

theorem bytes_inj {a b : FullKey} (same : a.bytes = b.bytes) : a = b := by
  cases a with
  | compressed odd x =>
    cases b with
    | compressed odd' x' =>
      obtain ⟨parity, coordinate⟩ := List.cons.inj same
      obtain rfl := Vector.toList_inj.mp coordinate
      cases odd <;> cases odd' <;> first | rfl | cases parity
    | uncompressed x' y' =>
      have lengths := congrArg List.length same
      simp [bytes, compressedPoint] at lengths
  | uncompressed x y =>
    cases b with
    | compressed odd' x' =>
      have lengths := congrArg List.length same
      simp [bytes, compressedPoint] at lengths
    | uncompressed x' y' =>
      obtain ⟨-, coordinates⟩ := List.cons.inj same
      obtain ⟨first, second⟩ := List.append_inj coordinates (by simp)
      obtain rfl := Vector.toList_inj.mp first
      obtain rfl := Vector.toList_inj.mp second
      rfl

end FullKey

namespace PublicKey

variable {κ : Type} [PublicKey κ] [LawfulConversion κ] {context : Context} {a b : κ}

/-- Keys that are told apart are serialized differently for ECDSA. -/
theorem pushed_ecdsa_ne (apart : compare a b ≠ .eq) : pushed .ecdsa a ≠ pushed .ecdsa b :=
  fun same => apart (LawfulConversion.compare_eq_of_toFull a b (FullKey.bytes_inj same))

/-- Keys that are told apart and allowed in a tapscript are serialized as one only if their points are
opposite. -/
theorem pushed_schnorr_eq_iff (apart : compare a b ≠ .eq)
    (allowed : Context.checkKey .tapscript a = .ok ()) (allowed' : Context.checkKey .tapscript b = .ok ()) :
    pushed .schnorr a = pushed .schnorr b ↔ Opposite a b := by
  have compressed {key : κ} (allowed : Context.checkKey .tapscript key = .ok ()) :
      ∃ odd x, toFull key = .compressed odd x := by
    have lawful := LawfulPublicKey.isUncompressed_eq key
    cases full : toFull key with
    | compressed odd x => exact ⟨odd, x, rfl⟩
    | uncompressed x y =>
      rw [full] at lawful
      simp [Context.checkKey, lawful, FullKey.isUncompressed] at allowed
  obtain ⟨odd, x, full⟩ := compressed allowed
  obtain ⟨odd', x', full'⟩ := compressed allowed'
  have coordinates : pushed .schnorr a = pushed .schnorr b ↔ x = x' := by
    simp only [pushed, XOnlyKey.bytes, LawfulConversion.toXOnly_eq, full, full', FullKey.xOnly]
    exact Vector.toList_inj
  rw [coordinates]
  constructor
  · rintro rfl
    have parity : odd' = !odd := by
      by_contra equal
      obtain rfl : odd = odd' := by cases odd <;> cases odd' <;> first | rfl | exact absurd rfl equal
      exact apart (LawfulConversion.compare_eq_of_toFull a b (full.trans full'.symm))
    exact ⟨odd, x, full, parity ▸ full'⟩
  · rintro ⟨_, _, left, right⟩
    cases full.symm.trans left
    cases full'.symm.trans right
    rfl

end PublicKey

namespace Typed.Validated

variable {κ : Type} [PublicKey κ] {context : Context} {t : Typed κ Digest}

theorem allowed_keys (valid : Validated context t) {key : κ} (member : key ∈ t.keys) :
    context.checkKey key = .ok () := by
  obtain ⟨x, among, named⟩ := List.mem_flatMap.mp member
  have allowed := (valid.of_mem_preorder among).allowed
  cases root : x.fragment with
  | leaf l =>
    rw [root] at allowed named
    have inRange := Fragment.inRange_leaf allowed
    cases l with
    | key k | keyHash k =>
      obtain rfl := List.mem_singleton.mp named
      exact inRange
    | multi ks => exact inRange.2.1 key named
    | multiA ks => exact inRange.2.1 key named
    | one | zero | after _ | older _ | digest _ => cases named
  | wrap | pair | andOr | thresh =>
    rw [root] at named
    cases named

variable [LawfulConversion κ] [Std.TransOrd κ]

/-- Without repeated keys, ECDSA serializations do not repeat. -/
theorem nodup_pushed (once : t.hasRepeatedKeys = false) (ecdsa : context ≠ .tapscript) :
    (t.keys.map (PublicKey.pushed context.scheme)).Nodup := by
  have scheme : context.scheme = .ecdsa := by cases context <;> first | rfl | exact absurd rfl ecdsa
  rw [scheme]
  exact List.pairwise_map.mpr ((pairwise_of_hasRepetition once).imp PublicKey.pushed_ecdsa_ne)

/-- Without repeated keys, x coordinates repeat only for opposite points. -/
theorem nodup_pushed_iff (valid : Validated .tapscript t) (once : t.hasRepeatedKeys = false) :
    (t.keys.map (PublicKey.pushed .schnorr)).Nodup ↔ t.keys.Pairwise fun a b => ¬ PublicKey.Opposite a b := by
  have apart := pairwise_of_hasRepetition once
  have same {a b : κ} (left : a ∈ t.keys) (right : b ∈ t.keys) (unequal : compare a b ≠ .eq) :=
    PublicKey.pushed_schnorr_eq_iff unequal (valid.allowed_keys left) (valid.allowed_keys right)
  refine List.pairwise_map.trans ⟨fun distinct => ?_, fun unopposed => ?_⟩
  · exact (apart.and distinct).imp_of_mem fun left right both opposite =>
      both.2 ((same left right both.1).mpr opposite)
  · exact (apart.and unopposed).imp_of_mem fun left right both equal =>
      both.2 ((same left right both.1).mp equal)

/-- The keys that an encoded script shows, or shows the hashes of, are those of its condition in the
serialization of the context. If no key is repeated, then they all differ in scripts that check ECDSA; in a
tapscript they differ if and only if no two keys of the condition stand for opposite points. -/
theorem shown_keys_distinct (valid : Validated context t) (counts : t.CountsBelow (2 ^ 64))
    (once : t.hasRepeatedKeys = false) : ∃ script shown,
      Script.parse? (t.script context).bytes = some script ∧
      List.Forall₂ KeyPush.Shows script.keyPushes shown ∧
      shown.Perm (t.keys.map (PublicKey.pushed context.scheme)) ∧
      (context ≠ .tapscript → shown.Nodup) ∧
      (context = .tapscript → (shown.Nodup ↔ t.keys.Pairwise fun a b => ¬ PublicKey.Opposite a b)) := by
  have read := Script.parse?_bytes (t.isShort_script context counts)
  have listed := List.forall₂_map_right_iff.mpr (t.keyPushes_shows context)
  obtain ⟨shown, shows, perm⟩ := List.perm_comp_forall₂ (t.keysInScript_perm context) listed
  rw [← (t.names_script context counts).keyPushes_eq] at shows
  refine ⟨t.script context, shown, read, shows, perm, fun ecdsa => ?_, ?_⟩
  · exact perm.nodup_iff.mpr (nodup_pushed once ecdsa)
  · rintro rfl
    exact perm.nodup_iff.trans (valid.nodup_pushed_iff once)

end Typed.Validated

namespace Typed

/-- Signatures under both of two keys in a tapscript: `and_v(v:pk(A),pk(B))`. -/
def bothKeys (a b : PointKey) : Typed PointKey Digest :=
  ofFragment .tapscript (.pair .andV
    (ofFragment .tapscript (.wrap .verify (pk .tapscript a))) (pk .tapscript b))

theorem validated_bothKeys (a b : PointKey) : Validated .tapscript (bothKeys a b) := by
  have pk (key : PointKey) : Validated .tapscript (pk .tapscript key : Typed PointKey Digest) :=
    validated_pk rfl
  refine validated_ofFragment rfl (List.forall_mem_cons.mpr ⟨?_, List.forall_mem_singleton.mpr (pk b)⟩)
  exact validated_ofFragment rfl (List.forall_mem_singleton.mpr (pk a))

theorem countsBelow_bothKeys (a b : PointKey) : (bothKeys a b).CountsBelow (2 ^ 64) := by
  simp [bothKeys, ofFragment, pk, Condition.node]

theorem keys_bothKeys (a b : PointKey) : (bothKeys a b).keys = [a, b] := by
  simp [bothKeys, ofFragment, pk, Condition.node, Leaf.keys]

theorem Validated.shown_keys_distinct_bothKeys : ∃ script shown,
    Script.parse? ((bothKeys (pointOfByte 1) (pointOfByte 2)).script .tapscript).bytes = some script ∧
      List.Forall₂ KeyPush.Shows script.keyPushes shown ∧ shown.Nodup := by
  have keys := keys_bothKeys (pointOfByte 1) (pointOfByte 2)
  have once : (bothKeys (pointOfByte 1) (pointOfByte 2)).hasRepeatedKeys = false :=
    hasRepetition_eq_false (by rw [keys]; decide +kernel)
  obtain ⟨script, shown, read, shows, -, -, distinct⟩ := shown_keys_distinct
    (validated_bothKeys (pointOfByte 1) (pointOfByte 2)) (countsBelow_bothKeys _ _) once
  refine ⟨script, shown, read, shows, (distinct rfl).mpr ?_⟩
  rw [keys]
  refine List.pairwise_pair.mpr ?_
  rintro ⟨_, _, first, second⟩
  cases first
  exact absurd second (by decide)

/-- A tapscript whose condition is sane, and repeats no key, may check the signatures of one key twice. -/
theorem exists_repeated_coordinate : ∃ (t : Typed PointKey Digest) (shown : Bytes),
    Validated .tapscript t ∧ t.checkSanity .tapscript .none = .ok () ∧ t.hasRepeatedKeys = false ∧
      (Script.parse? (t.script .tapscript).bytes).map Script.keyPushes = some [.key shown, .key shown] := by
  let key := pointOfByte 1
  let opposite : PointKey := { key with odd := true }
  let t := bothKeys key opposite
  have valid : Validated .tapscript t := validated_bothKeys key opposite
  have once : t.hasRepeatedKeys = false :=
    hasRepetition_eq_false (by rw [show t.keys = [key, opposite] from keys_bothKeys ..]; decide +kernel)
  have sane : t.checkSanity .tapscript .none = .ok () :=
    checkSanity_eq_ok.mpr ⟨rfl, by decide +kernel, by decide +kernel, once, rfl⟩
  refine ⟨t, key.x.toList, valid, sane, once, ?_⟩
  have counts : t.CountsBelow (2 ^ 64) := countsBelow_bothKeys key opposite
  rw [Script.parse?_bytes (t.isShort_script .tapscript counts)]
  decide +kernel

end Typed

end LockScript
