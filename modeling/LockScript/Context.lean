import LockScript.Key

/-! # Script contexts

Where a script is placed decides which keys it may name, which signatures it checks, and how large
it and its witnesses may be.
-/

namespace LockScript

/-- The four places in which a script can lock an output. -/
inductive Context where
  /-- The redeem script of a pay-to-script-hash output. -/
  | legacy
  /-- The witness script of a version 0 segwit output. -/
  | segwit
  /-- A leaf of a taproot output. -/
  | tapscript
  /-- The output script itself. -/
  | bare
  deriving DecidableEq, Repr

/-- Ceilings on a script and on what it takes to satisfy it; `none` where a context sets no bound.
-/
structure Limits where
  /-- Bytes of the encoded script. -/
  scriptSize : Nat
  /-- Opcodes other than pushes. -/
  opcodes : Option Nat
  /-- Elements of the initial witness. -/
  witnessItems : Option Nat
  /-- Bytes of a scriptSig that carries the witness. -/
  scriptSigSize : Option Nat
  /-- Elements on both stacks while the script runs. -/
  execStack : Nat
  deriving DecidableEq, Repr

/-- A key or fragment that a context does not accept. -/
inductive ContextError where
  /-- A key hash could be opened by either serialization of its key. -/
  | malleableKeyHash
  /-- An `or_i` branch is chosen by any true value. -/
  | malleableBranch
  /-- A `d:` guard is passed by any true value. -/
  | malleableGuard
  | uncompressedKey (key : String)
  | xOnlyKey (key : String) (context : Context)
  /-- A `multi` in a tapscript. -/
  | multiDisabled
  /-- A `multi_a` outside of tapscript. -/
  | multiAOnlyTapscript
  deriving DecidableEq, Repr

namespace Context

/-- The name of the context in messages. -/
def name : Context → String
  | legacy => "Legacy/p2sh"
  | segwit => "Segwitv0"
  | tapscript => "TapscriptCtx"
  | bare => "BareCtx"

/-- Tapscripts check Schnorr signatures, all others ECDSA. -/
def scheme : Context → SignatureScheme
  | tapscript => .schnorr
  | legacy | segwit | bare => .ecdsa

/-- The ceilings of each context. A redeem script is pushed, so it is no longer than an element may
be; only the weight of a block bounds a tapscript. -/
def limits : Context → Limits
  | legacy => ⟨520, some 201, none, some 1650, 1000⟩
  | segwit => ⟨3600, some 201, some 100, none, 1000⟩
  | tapscript => ⟨4000000, none, none, none, 1000⟩
  | bare => ⟨10000, some 201, none, some 1650, 1000⟩

variable {κ : Type} [KeyLike κ]

/-- Whether a key may appear at all. Only tapscripts take x coordinates, only scripts outside of
segwit take uncompressed keys. -/
def checkKey (context : Context) (key : κ) : Except ContextError Unit :=
  let noUncompressed := context = segwit ∨ context = tapscript
  if noUncompressed ∧ KeyLike.isUncompressed key = true then
    .error (.uncompressedKey (KeyLike.text key))
  else if context ≠ tapscript ∧ KeyLike.isXOnly key = true then
    .error (.xOnlyKey (KeyLike.text key) context)
  else .ok ()

/-- The length of the push of a key, with its push opcode. -/
def keyLength (context : Context) (key : κ) : Nat :=
  match context with
  | legacy | bare => if KeyLike.isUncompressed key then 66 else 34
  | segwit => 34
  | tapscript => 33

end Context

namespace ContextError

/-- The reason in words. -/
def message : ContextError → String
  | malleableKeyHash => "PkH is malleable under Legacy rules"
  | malleableBranch => "OrI is malleable under Legacy rules"
  | malleableGuard => "DupIf is malleable under Legacy rules"
  | uncompressedKey key => s!"uncompressed key «{key}» is not allowed in this context"
  | xOnlyKey key context => "x-only key «" ++ key ++ "» is not allowed in " ++ context.name
  | multiDisabled => "«multi» is disabled in tapscript; use «multi_a»"
  | multiAOnlyTapscript => "«multi_a» is only available in tapscript"

end ContextError

end LockScript
