import OrionMac.Rust

/-!
# Constants, errors, keys and tags

`hazardous::constants`, `errors` and the macros that declare the key and tag types
(`construct_secret_key!`, `construct_hmac_key!`, `construct_tag!`) are not part of the
source. What the two MACs use of them is modelled from the spec: the sizes, three error
types, keys as byte arrays of a fixed size, and tags that `from_slice` checks for length.
-/

namespace OrionMac

/-- Modelled from the spec: `hazardous::constants` is not under src/. -/
def poly1305Blocksize : Nat := 16

/-- Modelled from the spec: `hazardous::constants` is not under src/. -/
def poly1305Keysize : Nat := 32

/-- Modelled from the spec: `hazardous::constants` is not under src/. The SHA-512 output. -/
def hlen : Nat := 64

/-- Modelled from the spec: `hazardous::constants` is not under src/. The SHA-512 block. -/
def sha2Blocksize : Nat := 128

/-- Modelled from the spec: `errors` is not under src/. -/
structure UnknownCryptoError where
  deriving DecidableEq, Repr

/-- Modelled from the spec: `errors` is not under src/. -/
structure FinalizationCryptoError where
  deriving DecidableEq, Repr

/-- Modelled from the spec: `errors` is not under src/. -/
structure ValidationCryptoError where
  deriving DecidableEq, Repr

/-- Modelled from the spec: `construct_secret_key!` and `construct_hmac_key!` are not under
src/. A key of exactly `n` bytes; an HMAC key is already zero-padded to the block size. -/
structure SecretBytes (n : Nat) where
  value : Mathlib.Vector UInt8 n

def SecretBytes.unprotectedAsBytes (k : SecretBytes n) : List UInt8 := k.value.toList

@[simp] theorem SecretBytes.length_unprotectedAsBytes (k : SecretBytes n) :
    k.unprotectedAsBytes.length = n :=
  k.value.toList_length

/-- Modelled from the spec: `construct_tag!` is not under src/. A tag of exactly `n` bytes,
equal when every byte is. -/
structure MacTag (n : Nat) where
  value : Mathlib.Vector UInt8 n
  deriving DecidableEq

/-- `Tag::from_slice`, which refuses a slice of another length. -/
def MacTag.fromSlice (slice : List UInt8) : Except UnknownCryptoError (MacTag n) :=
  if h : slice.length = n then .ok ⟨⟨slice, h⟩⟩ else .error {}

theorem MacTag.fromSlice_of_length {slice : List UInt8} (h : slice.length = n) :
    MacTag.fromSlice slice = .ok ⟨⟨slice, h⟩⟩ :=
  dif_pos h

end OrionMac
