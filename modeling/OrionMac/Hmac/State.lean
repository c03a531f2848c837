import OrionMac.Lifecycle

/-!
# The HMAC state

`hazardous/mac/hmac.rs`, HMAC-SHA512 as RFC 2104 defines it. The `sha2` crate is not part of
the source: a `Sha512` hasher is the byte string it has been given so far, and its digest is
a parameter `H`, any function from byte strings to 64 bytes. `step` drives the state with the
calls of `OrionMac.Lifecycle`.

`Drop` (zeroizing `ipad`), the zeroizing of the local `opad` and `Debug` are not modelled:
nothing observable by the calls depends on them.
-/

namespace OrionMac

/-- Modelled from the spec: the `sha2` crate is not under src/. A SHA-512 hasher, as the bytes
it has been given so far. -/
structure Sha512 where
  absorbed : List UInt8
  deriving DecidableEq, Repr

namespace Sha512

/-- Modelled from the spec: `Sha512::default()` has been given nothing. -/
def default : Sha512 := ⟨[]⟩

/-- Modelled from the spec: `input` appends the bytes. -/
def input (h : Sha512) (data : List UInt8) : Sha512 := ⟨h.absorbed ++ data⟩

/-- Modelled from the spec: `result` is the digest `H` of everything given. -/
def result (H : List UInt8 → Mathlib.Vector UInt8 hlen) (h : Sha512) : Mathlib.Vector UInt8 hlen :=
  H h.absorbed

end Sha512

namespace Hmac

/-- `SecretKey`: a key already zero-padded to the SHA-512 block size. -/
abbrev SecretKey := SecretBytes sha2Blocksize

/-- `Tag`: the 64-byte tag. -/
abbrev Tag := MacTag hlen

end Hmac

structure Hmac where
  ipad : Mathlib.Vector UInt8 sha2Blocksize
  opadHasher : Sha512
  ipadHasher : Sha512
  isFinalized : Bool
  deriving DecidableEq

namespace Hmac

variable (H : List UInt8 → Mathlib.Vector UInt8 hlen)

-- ---------------------------------------------------------------------------
-- pad_key_io
-- ---------------------------------------------------------------------------

-- `buf[idx] ^= itm`, which panics when `idx` is out of bounds.
def xorAt (buf : Mathlib.Vector UInt8 n) (idx : Nat) (itm : UInt8) :
    Except Panic (Mathlib.Vector UInt8 n) := do
  setAt buf idx ((← getAt buf idx) ^^^ itm)

-- The loop of `pad_key_io`: `self.ipad[idx] ^= itm; opad[idx] ^= itm;` for each key byte.
def xorKeyInto (ipad opad : Mathlib.Vector UInt8 n) (idx : Nat) :
    List UInt8 → Except Panic (Mathlib.Vector UInt8 n × Mathlib.Vector UInt8 n)
  | [] => .ok (ipad, opad)
  | itm :: rest => do
    let ipad ← xorAt ipad idx itm
    let opad ← xorAt opad idx itm
    xorKeyInto ipad opad (idx + 1) rest

/-- `pad_key_io`: xor the key into `ipad` and into a local `opad` of `0x5C` bytes, and feed
them to the inner and the outer hasher. -/
def padKeyIo (st : Hmac) (key : SecretKey) : Except Panic Hmac := do
  let opad := Mathlib.Vector.replicate sha2Blocksize 0x5C
  let (ipad, opad) ← xorKeyInto st.ipad opad 0 key.unprotectedAsBytes
  .ok { st with ipad := ipad, ipadHasher := st.ipadHasher.input ipad.toList,
                opadHasher := st.opadHasher.input opad.toList }

-- ---------------------------------------------------------------------------
-- reset, update, finalize
-- ---------------------------------------------------------------------------

/-- `reset`: feed `ipad` to the inner hasher and clear the flag. The inner hasher is not
replaced by a new one first. -/
def reset (st : Hmac) : Hmac :=
  { st with ipadHasher := st.ipadHasher.input st.ipad.toList, isFinalized := false }

/-- `update`: forward the bytes to the inner hasher. -/
def update (st : Hmac) (data : List UInt8) : Except FinalizationCryptoError Unit × Hmac :=
  if st.isFinalized then (.error {}, st)
  else (.ok (), { st with ipadHasher := st.ipadHasher.input data })

/-- `finalize`: swap a new inner hasher in, and hash the old one's digest with a clone of the
outer hasher. -/
def finalize (st : Hmac) : Except Panic (Except FinalizationCryptoError Tag × Hmac) :=
  if st.isFinalized then .ok (.error {}, st) else do
  let st := { st with isFinalized := true }
  let hashIres := st.ipadHasher
  let st := { st with ipadHasher := Sha512.default }
  let oHash := st.opadHasher.input (hashIres.result H).toList
  let tag ← unwrap (MacTag.fromSlice (oHash.result H).toList)
  .ok (.ok tag, st)

def step (st : Hmac) : Call → Except Panic (Returned Tag × Hmac)
  | .update data => .ok ((st.update data).1.map fun _ => none, (st.update data).2)
  | .finalize => (st.finalize H).map fun (r, st) => (r.map some, st)
  | .reset => .ok (.ok none, st.reset)

-- ---------------------------------------------------------------------------
-- init, hmac, verify
-- ---------------------------------------------------------------------------

/-- `init`: `ipad` of `0x36` bytes and two new hashers, then `pad_key_io`. -/
def init (secretKey : SecretKey) : Except Panic Hmac :=
  padKeyIo { ipad := Mathlib.Vector.replicate _ 0x36, opadHasher := Sha512.default,
             ipadHasher := Sha512.default, isFinalized := false } secretKey

/-- `hmac`: the one-shot tag, `init`, `update`, `finalize`, each unwrapped. -/
def hmac (secretKey : SecretKey) (data : List UInt8) : Except Panic Tag := do
  let st ← init secretKey
  let (r, st) := st.update data
  let _ ← unwrap r
  let (r, _) ← st.finalize H
  unwrap r

/-- `verify`: recompute the tag and compare; a mismatch is an error, never `Ok(false)`. -/
def verify (expected : Tag) (secretKey : SecretKey) (data : List UInt8) :
    Except Panic (Except ValidationCryptoError Bool) := do
  let tag ← hmac H secretKey data
  .ok (if expected = tag then .ok true else .error {})

end Hmac

end OrionMac
